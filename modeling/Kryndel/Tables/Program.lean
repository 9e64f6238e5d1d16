import Kryndel.Tables.Store

/-!
# Programs that put trees into tables

Rules for programs over a state that has a store in it. A program is described by what holds
of the rows it has placed in every store that keeps them, after what held of the rows that
were placed before.
-/

namespace Tables

variable {κ : Type} {Row : κ → Type} {α ε ρ τ : Type} {view : α → Store κ Row}

/-- A program does not fail and adds rows, so that `Q` holds of all rows when `P` holds of those
    before it. -/
def Builds (view : α → Store κ Row) (P : List (Address κ) → Store κ Row → Prop)
    (m : StateT α (Except ε) ρ) (Q : ρ → List (Address κ) → Store κ Row → Prop) : Prop :=
  ∀ a, ∃ r b new, m a = .ok (r, b) ∧
    Places (view a) (view b) new fun c => ∀ old, P old c → Q r (old ++ new) c

section Rules

variable {P P' : List (Address κ) → Store κ Row → Prop} {m : StateT α (Except ε) ρ}
  {Q Q' : ρ → List (Address κ) → Store κ Row → Prop}

variable {f : ρ → StateT α (Except ε) τ}

theorem bind_ok {a b : α} {r : ρ} (h : m a = .ok (r, b)) :
    (m >>= f) a = f r b := by
  show StateT.bind m f a = f r b
  rw [StateT.bind, h]
  rfl

theorem Builds.pure (r : ρ) (h : ∀ old c, P old c → Q r old c) :
    Builds view P (pure r : StateT α (Except ε) ρ) Q := by
  intro a
  refine ⟨r, a, [], rfl, (Places.nil (view a)).mono ?_⟩
  intro c _ old hP
  rw [List.append_nil]
  exact h old c hP

theorem Builds.bind {Q' : τ → List (Address κ) → Store κ Row → Prop} (hm : Builds view P m Q)
    (hf : ∀ r, Builds view (Q r) (f r) Q') : Builds view P (m >>= f) Q' := by
  intro a
  obtain ⟨r, b, new, hrun, hplaces⟩ := hm a
  obtain ⟨t, c, new', hrun', hplaces'⟩ := hf r b
  refine ⟨t, c, new ++ new', (bind_ok hrun).trans hrun', (hplaces.trans hplaces').mono ?_⟩
  intro d hd old hP
  rw [← List.append_assoc]
  exact hd.2 _ (hd.1 old hP)

theorem Builds.mono (h : Builds view P m Q) (hP : ∀ old c, P' old c → P old c)
    (hQ : ∀ r old c, Q r old c → Q' r old c) : Builds view P' m Q' := by
  intro a
  obtain ⟨r, b, new, hrun, hplaces⟩ := h a
  refine ⟨r, b, new, hrun, hplaces.mono ?_⟩
  intro c hc old hold
  exact hQ r _ c (hc old (hP old c hold))

theorem Builds.map (g : ρ → τ) {Q' : τ → List (Address κ) → Store κ Row → Prop}
    (h : Builds view P m Q) (hQ : ∀ r old c, Q r old c → Q' (g r) old c) :
    Builds view P (g <$> m) Q' := by
  exact h.bind fun r => Builds.pure _ (hQ r)

end Rules

section Store

variable [DecidableEq κ]

namespace Store

/-- A row by itself. -/
def leaf (k : κ) (row : Row k) : StateT (Store κ Row) (Except ε) Nat :=
  fun s => .ok ((s.rows k).length, s.place k row)

/-- A row that is placed before those of its children and completed after them. -/
def node (k : κ) (blank : Row k) (children : StateT (Store κ Row) (Except ε) (Row k)) :
    StateT (Store κ Row) (Except ε) Nat := fun s => do
  let (row, s') ← children (s.place k blank)
  return ((s.rows k).length, s'.complete k (s.rows k).length row)

/-- A range of references. -/
def list (k : κ) (indexes : List Nat) : StateT (Store κ Row) (Except ε) Range :=
  fun s => .ok (s.range k indexes, s.addRefs k indexes)

end Store

variable {k : κ} {P : List (Address κ) → Store κ Row → Prop}

theorem Store.leaf_builds (row : Row k) :
    Builds id P (Store.leaf k row : StateT (Store κ Row) (Except ε) Nat)
      fun i old c => ∃ before, old = before ++ [(k, i)] ∧ P before c ∧ c.row (k, i) = some row := by
  intro s
  refine ⟨_, _, _, rfl, (Places.leaf s k row).mono ?_⟩
  intro c hrow old hP
  exact ⟨old, rfl, hP, hrow⟩

theorem Store.node_builds {blank : Row k}
    {children : StateT (Store κ Row) (Except ε) (Row k)}
    {Q : Row k → List (Address κ) → Store κ Row → Prop}
    (h : Builds id (fun old _ => old = []) children Q) :
    Builds id P (Store.node k blank children) fun i old c => ∃ before new row,
      old = before ++ (k, i) :: new ∧ P before c ∧ c.row (k, i) = some row ∧ Q row new c := by
  intro s
  obtain ⟨row, s', new, hrun, hplaces⟩ := h (s.place k blank)
  refine ⟨(s.rows k).length, s'.complete k (s.rows k).length row, _, ?_,
    (hplaces.node row).mono ?_⟩
  · show (do let (row, s') ← children (s.place k blank); _) = _
    rw [hrun]
    rfl
  · intro c hc old hP
    exact ⟨old, new, row, rfl, hP, hc.1, hc.2 [] rfl⟩

theorem Store.list_builds (indexes : List Nat) :
    Builds id P (Store.list k indexes : StateT (Store κ Row) (Except ε) Range)
      fun r old c => P old c ∧ c.contents k r = some indexes := by
  intro s
  refine ⟨_, _, [], rfl, ((Places.nil s).addRefs k indexes).mono ?_⟩
  intro c hc old hP
  rw [List.append_nil]
  exact ⟨hP, hc.2⟩

end Store

/-! ## Owners -/

section Owns

/-- Some rows have one owner each, where `refs` come from outside, and `G` holds. -/
def Owns (edges : (k : κ) → Row k → Edges κ) (refs : Store κ Row → List (Address κ))
    (G : Store κ Row → Prop) (rows : List (Address κ)) (c : Store κ Row) : Prop :=
  Owned edges c rows (refs c) ∧ G c

/-- A program adds rows with one owner each, the references `refs` that come with its result
    included, so that `F` holds of its result. -/
def Makes (edges : (k : κ) → Row k → Edges κ) (m : StateT (Store κ Row) (Except ε) ρ)
    (refs : ρ → Store κ Row → List (Address κ)) (F : ρ → Store κ Row → Prop) : Prop :=
  ∀ before G, Builds id (Owns edges before G) m
    fun r => Owns edges (fun c => before c ++ refs r c) fun c => G c ∧ F r c

variable {edges : (k : κ) → Row k → Edges κ} {m : StateT (Store κ Row) (Except ε) ρ}
  {refs : ρ → Store κ Row → List (Address κ)} {F : ρ → Store κ Row → Prop}

theorem Makes.mono {F' : ρ → Store κ Row → Prop} (h : Makes edges m refs F)
    (hF : ∀ r c, F r c → F' r c) : Makes edges m refs F' := by
  intro before G
  refine (h before G).mono (fun _ _ hP => hP) ?_
  intro r old c hold
  exact ⟨hold.1, hold.2.1, hF r c hold.2.2⟩

theorem Makes.map {g : ρ → τ} {refs' : τ → Store κ Row → List (Address κ)}
    {F' : τ → Store κ Row → Prop} (h : Makes edges m refs F)
    (hrefs : ∀ r c, F r c → refs' (g r) c = refs r c) (hF : ∀ r c, F r c → F' (g r) c) :
    Makes edges (g <$> m) refs' F' := by
  intro before G
  refine (h before G).map g ?_
  intro r old c hold
  obtain ⟨howned, hG, hr⟩ := hold
  refine ⟨?_, hG, hF r c hr⟩
  show Owned edges c old (before c ++ refs' (g r) c)
  rwa [hrefs r c hr]

theorem Makes.pure (r : ρ) (hrefs : ∀ c, refs r c = []) (hF : ∀ c, F r c) :
    Makes edges (pure r : StateT (Store κ Row) (Except ε) ρ) refs F := by
  intro before G
  apply Builds.pure
  intro old c hold
  refine ⟨?_, hold.2, hF c⟩
  show Owned edges c old (before c ++ refs r c)
  rw [hrefs c, List.append_nil]
  exact hold.1

theorem Makes.cons {k : κ} {m : StateT (Store κ Row) (Except ε) Nat}
    {ms : StateT (Store κ Row) (Except ε) (List Nat)} {F : Nat → Store κ Row → Prop}
    {F' : List Nat → Store κ Row → Prop} (h : Makes edges m (fun i _ => [(k, i)]) F)
    (h' : Makes edges ms (fun indexes _ => indexes.map (k, ·)) F') :
    Makes edges (do let i ← m; let indexes ← ms; return i :: indexes)
      (fun indexes _ => indexes.map (k, ·))
      fun indexes c => ∃ i rest, indexes = i :: rest ∧ F i c ∧ F' rest c := by
  intro before G
  refine (h before G).bind fun i => (h' _ _).bind fun rest => Builds.pure _ ?_
  intro old c hold
  obtain ⟨howned, ⟨hG, hF⟩, hF'⟩ := hold
  refine ⟨?_, hG, i, rest, rfl, hF, hF'⟩
  simpa using howned

variable [DecidableEq κ]

theorem Makes.node {k : κ} {blank : Row k}
    {children : StateT (Store κ Row) (Except ε) (Row k)} {F : Row k → Store κ Row → Prop}
    (h : Builds id (Owns edges (fun _ => []) fun _ => True) children
      fun row => Owns edges (fun c => c.targets (edges k row))
        fun c => c.InRange (edges k row) ∧ F row c) :
    Makes edges (Store.node k blank children) (fun i _ => [(k, i)])
      fun i c => ∃ row, c.row (k, i) = some row ∧ F row c := by
  intro before G
  have hchildren : Builds id (fun old _ => old = []) children
      fun row => Owns edges (fun c => c.targets (edges k row))
        fun c => c.InRange (edges k row) ∧ F row c := by
    refine h.mono ?_ fun _ _ _ hQ => hQ
    rintro old c rfl
    exact ⟨Owned.nil, trivial⟩
  refine (Store.node_builds hchildren).mono (fun _ _ hP => hP) ?_
  rintro i old c ⟨first, new, row, rfl, hbefore, hrow, howned, hrange, hF⟩
  exact ⟨hbefore.1.append (howned.node hrow hrange), hbefore.2, row, hrow, hF⟩

theorem Makes.list {k : κ} {m : StateT (Store κ Row) (Except ε) (List Nat)}
    {F : List Nat → Store κ Row → Prop}
    (h : Makes edges m (fun indexes _ => indexes.map (k, ·)) F) :
    Makes edges (m >>= Store.list k) (fun r c => c.listed k r)
      fun r c => ∃ indexes, c.contents k r = some indexes ∧ F indexes c := by
  intro before G
  refine (h before G).bind fun indexes => ?_
  refine (Store.list_builds indexes).mono (fun _ _ hP => hP) ?_
  intro r old c hold
  obtain ⟨⟨howned, hG, hF⟩, hcontents⟩ := hold
  refine ⟨?_, hG, indexes, hcontents, hF⟩
  show Owned edges c old (before c ++ c.listed k r)
  rw [Store.listed, hcontents]
  exact howned

theorem Makes.leaf {k : κ} (row : Row k) (hedges : edges k row = {}) :
    Makes edges (Store.leaf k row : StateT (Store κ Row) (Except ε) Nat) (fun i _ => [(k, i)])
      fun i c => c.row (k, i) = some row := by
  intro before G
  refine (Store.leaf_builds row).mono (fun _ _ hP => hP) ?_
  rintro i old c ⟨first, rfl, hbefore, hrow⟩
  have hnone : Owned edges c [] (c.targets (edges k row)) := by
    rw [hedges]
    exact Owned.nil
  refine ⟨hbefore.1.append (hnone.node hrow ?_), hbefore.2, hrow⟩
  rw [hedges]
  intro l hl
  cases hl

end Owns

end Tables
