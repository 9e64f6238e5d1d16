import Mathlib.Data.List.Forall2

/-!
# Trees in a store of nodes

Trees are kept in a store as nodes that name their children by address. Nodes can be
overwritten, and several parents can share a child, so what an address stands for
depends on the whole store. `At` says that a tree stands at an address, with all of its
nodes in a given region; a change of the store outside the region leaves it standing.
`Owned` says that a tree stands in a range of addresses in which no two of its subtrees
share a node, so that one subtree can be changed without the others.
-/

namespace TermGraph

open List

/-- Labelled trees. -/
inductive Tree (κ : Type) where
  | node (label : κ) (children : List (Tree κ))

mutual

/-- Are two trees the same? -/
def Tree.decEq {κ : Type} [DecidableEq κ] : (t u : Tree κ) → Decidable (t = u)
  | .node l ts, .node m us =>
      match decEq l m, decEqAll ts us with
      | isTrue same, isTrue all => isTrue (by rw [same, all])
      | isFalse differs, _ => isFalse fun same => differs (Tree.node.inj same).1
      | _, isFalse differs => isFalse fun same => differs (Tree.node.inj same).2

/-- Are the trees of two lists the same, one by one? -/
def decEqAll {κ : Type} [DecidableEq κ] : (ts us : List (Tree κ)) → Decidable (ts = us)
  | [], [] => isTrue rfl
  | [], _ :: _ => isFalse nofun
  | _ :: _, [] => isFalse nofun
  | t :: ts, u :: us =>
      match Tree.decEq t u, decEqAll ts us with
      | isTrue same, isTrue all => isTrue (by rw [same, all])
      | isFalse differs, _ => isFalse fun same => differs (List.cons.inj same).1
      | _, isFalse differs => isFalse fun same => differs (List.cons.inj same).2

end

instance {κ : Type} [DecidableEq κ] : DecidableEq (Tree κ) := Tree.decEq

/-- A node names its children by address. -/
structure Node (κ : Type) where
  label : κ
  children : List Nat
deriving DecidableEq, Repr

/-- A store of nodes. An address is a position. -/
abbrev Store (κ : Type) := List (Node κ)

variable {κ : Type}

/-! ## Putting down and reading back -/

mutual

/-- Put a tree down in new nodes, children before their parent. -/
def Tree.alloc : Tree κ → Store κ → Nat × Store κ
  | .node label ts, h =>
      ((allocAll ts h).2.length, (allocAll ts h).2 ++ [{ label, children := (allocAll ts h).1 }])

/-- Put some trees down one after another. -/
def allocAll : List (Tree κ) → Store κ → List Nat × Store κ
  | [], h => ([], h)
  | t :: ts, h => ((t.alloc h).1 :: (allocAll ts (t.alloc h).2).1, (allocAll ts (t.alloc h).2).2)

end

/-- Read the trees at some addresses, one by one. -/
def readAll (one : Nat → Option (Tree κ)) : List Nat → Option (List (Tree κ))
  | [] => some []
  | c :: cs =>
      match one c, readAll one cs with
      | some t, some ts => some (t :: ts)
      | _, _ => none

/-- Read the tree at an address, which must not be deeper than the first argument. -/
def read (h : Store κ) : Nat → Nat → Option (Tree κ)
  | 0, _ => none
  | n + 1, a =>
      match h[a]? with
      | some node => (readAll (read h n) node.children).map (.node node.label)
      | none => none

/-! ## What stands at an address -/

mutual

/-- A tree stands at an address, all of its nodes in a region. -/
def At (h : Store κ) (P : Nat → Prop) (a : Nat) : Tree κ → Prop
  | .node label ts => P a ∧ ∃ cs, h[a]? = some { label, children := cs } ∧ AllAt h P cs ts

/-- Some trees stand at some addresses. -/
def AllAt (h : Store κ) (P : Nat → Prop) : List Nat → List (Tree κ) → Prop
  | [], [] => True
  | c :: cs, t :: ts => At h P c t ∧ AllAt h P cs ts
  | _, _ => False

end

mutual

theorem At.mono {h h' : Store κ} {P P' : Nat → Prop} (larger : ∀ b, P b → P' b)
    (frame : ∀ b node, P b → h[b]? = some node → h'[b]? = some node) {a : Nat} {t : Tree κ}
    (stands : At h P a t) : At h' P' a t := by
  cases t with
  | node label ts =>
    obtain ⟨mem, cs, found, inside⟩ := stands
    exact ⟨larger a mem, cs, frame a _ mem found, AllAt.mono larger frame inside⟩

theorem AllAt.mono {h h' : Store κ} {P P' : Nat → Prop} (larger : ∀ b, P b → P' b)
    (frame : ∀ b node, P b → h[b]? = some node → h'[b]? = some node) {cs : List Nat}
    {ts : List (Tree κ)} (stand : AllAt h P cs ts) : AllAt h' P' cs ts := by
  cases cs with
  | nil =>
    cases ts with
    | nil => trivial
    | cons t ts => exact stand.elim
  | cons c cs =>
    cases ts with
    | nil => exact stand.elim
    | cons t ts => exact ⟨At.mono larger frame stand.1, AllAt.mono larger frame stand.2⟩

end

mutual

theorem At.unique {h : Store κ} {P P' : Nat → Prop} {a : Nat} {t t' : Tree κ}
    (one : At h P a t) (other : At h P' a t') : t = t' := by
  cases t with
  | node label ts =>
    cases t' with
    | node label' ts' =>
      obtain ⟨-, cs, found, inside⟩ := one
      obtain ⟨-, cs', found', inside'⟩ := other
      cases found.symm.trans found'
      rw [AllAt.unique inside inside']

theorem AllAt.unique {h : Store κ} {P P' : Nat → Prop} {cs : List Nat} {ts ts' : List (Tree κ)}
    (one : AllAt h P cs ts) (other : AllAt h P' cs ts') : ts = ts' := by
  cases cs with
  | nil =>
    cases ts with
    | nil =>
      cases ts' with
      | nil => rfl
      | cons t' ts' => exact other.elim
    | cons t ts => exact one.elim
  | cons c cs =>
    cases ts with
    | nil => exact one.elim
    | cons t ts =>
      cases ts' with
      | nil => exact other.elim
      | cons t' ts' => rw [At.unique one.1 other.1, AllAt.unique one.2 other.2]

end

variable {P : Nat → Prop} {cs : List Nat} {h : Store κ} {ts : List (Tree κ)}

theorem AllAt.of_mem (stand : AllAt h P cs ts) {c : Nat} (mem : c ∈ cs) : ∃ t ∈ ts, At h P c t := by
  induction cs generalizing ts with
  | nil => cases mem
  | cons d cs ih =>
    cases ts with
    | nil => exact stand.elim
    | cons t ts =>
      rcases mem_cons.mp mem with rfl | mem
      · exact ⟨t, mem_cons_self, stand.1⟩
      · obtain ⟨u, there, stands⟩ := ih stand.2 mem
        exact ⟨u, mem_cons_of_mem t there, stands⟩

/-! ## Reading -/

attribute [local simp] readAll read in
theorem readAll_eq_some_iff {one : Nat → Option (Tree κ)} :
    readAll one cs = some ts ↔ List.Forall₂ (fun c t => one c = some t) cs ts := by
  induction cs generalizing ts with
  | nil => cases ts <;> simp [readAll]
  | cons c cs ih =>
    rw [readAll]
    cases ts with
    | nil =>
      have none_left : ¬List.Forall₂ (fun c t => one c = some t) (c :: cs) [] := nofun
      split <;> simp
    | cons t ts =>
      rw [forall₂_cons, ← ih]
      cases one c <;> cases readAll one cs <;> simp

theorem allAt_iff_forall₂ :
    AllAt h P cs ts ↔ List.Forall₂ (At h P) cs ts := by
  induction cs generalizing ts with
  | nil => cases ts <;> simp [AllAt]
  | cons c cs ih => cases ts <;> simp [AllAt, ih]

theorem at_of_read {n a : Nat} {t : Tree κ} (done : read h n a = some t) :
    At h (fun _ => True) a t := by
  induction n generalizing a t with
  | zero => simp [read] at done
  | succ n ih =>
    rw [read] at done
    split at done
    · rename_i node found
      obtain ⟨ts, inside, rfl⟩ := Option.map_eq_some_iff.mp done
      refine ⟨trivial, node.children, found, allAt_iff_forall₂.mpr ?_⟩
      exact (readAll_eq_some_iff.mp inside).imp fun _ _ => ih
    · cases done

mutual

theorem At.read {h : Store κ} {P : Nat → Prop} {a : Nat} {t : Tree κ} (stands : At h P a t) :
    ∃ n, ∀ m, n ≤ m → TermGraph.read h m a = some t := by
  cases t with
  | node label ts =>
    obtain ⟨-, cs, found, inside⟩ := stands
    obtain ⟨n, all⟩ := AllAt.readAll inside
    refine ⟨n + 1, fun m le => ?_⟩
    obtain ⟨m, rfl⟩ := Nat.exists_eq_add_one_of_ne_zero (Nat.ne_of_gt (Nat.lt_of_lt_of_le n.succ_pos le))
    simp only [TermGraph.read, found, all m (Nat.le_of_succ_le_succ le), Option.map_some]

theorem AllAt.readAll {h : Store κ} {P : Nat → Prop} {cs : List Nat} {ts : List (Tree κ)}
    (stand : AllAt h P cs ts) :
    ∃ n, ∀ m, n ≤ m → TermGraph.readAll (TermGraph.read h m) cs = some ts := by
  cases cs with
  | nil =>
    cases ts with
    | nil => exact ⟨0, fun m _ => by rw [TermGraph.readAll]⟩
    | cons t ts => exact stand.elim
  | cons c cs =>
    cases ts with
    | nil => exact stand.elim
    | cons t ts =>
      obtain ⟨n, first⟩ := At.read stand.1
      obtain ⟨k, rest⟩ := AllAt.readAll stand.2
      refine ⟨max n k, fun m le => ?_⟩
      rw [TermGraph.readAll, first m (Nat.le_trans (Nat.le_max_left n k) le),
        rest m (Nat.le_trans (Nat.le_max_right n k) le)]

end

theorem not_at_of_self_child {a : Nat} {label : κ} (found : h[a]? = some { label, children := [a] })
    (t : Tree κ) : ¬At h P a t := by
  intro stands
  obtain ⟨n, done⟩ := stands.read
  have never : ∀ n, TermGraph.read h n a = none := by
    intro n
    induction n with
    | zero => rfl
    | succ n ih => simp [TermGraph.read, found, TermGraph.readAll, ih]
  simpa [never n] using done n (Nat.le_refl n)

theorem not_at_of_child {a c : Nat} {label : κ} (found : h[a]? = some { label, children := [c] })
    (absent : ∀ t, ¬At h P c t) (t : Tree κ) :
    ¬At h P a t := by
  obtain ⟨label', ts⟩ := t
  rintro ⟨-, cs, found', inside⟩
  cases found.symm.trans found'
  cases ts with
  | nil => exact inside.elim
  | cons t ts => exact absent t inside.1

mutual

theorem At.bounded {h : Store κ} {P : Nat → Prop} {a : Nat} {t : Tree κ} (stands : At h P a t) :
    At h (fun b => b < h.length) a t := by
  cases t with
  | node label ts =>
    obtain ⟨-, cs, found, inside⟩ := stands
    exact ⟨(List.getElem?_eq_some_iff.mp found).1, cs, found, AllAt.bounded inside⟩

theorem AllAt.bounded {h : Store κ} {P : Nat → Prop} {cs : List Nat} {ts : List (Tree κ)}
    (stand : AllAt h P cs ts) : AllAt h (fun b => b < h.length) cs ts := by
  cases cs with
  | nil =>
    cases ts with
    | nil => trivial
    | cons t ts => exact stand.elim
  | cons c cs =>
    cases ts with
    | nil => exact stand.elim
    | cons t ts => exact ⟨At.bounded stand.1, AllAt.bounded stand.2⟩

end

/-! ## Ranges of addresses -/

mutual

/-- A tree stands in a range of addresses that its subtrees divide among them, its root
    last. -/
def Owned (h : Store κ) (lo hi a : Nat) : Tree κ → Prop
  | .node label ts =>
      lo ≤ a ∧ a + 1 = hi ∧ ∃ cs, h[a]? = some { label, children := cs } ∧ AllOwned h lo a cs ts

/-- Some trees stand in consecutive ranges. -/
def AllOwned (h : Store κ) : Nat → Nat → List Nat → List (Tree κ) → Prop
  | lo, hi, [], [] => lo = hi
  | lo, hi, c :: cs, t :: ts => ∃ mid, Owned h lo mid c t ∧ AllOwned h mid hi cs ts
  | _, _, _, _ => False

end

mutual

theorem Owned.lt {h : Store κ} {lo hi a : Nat} {t : Tree κ} (owned : Owned h lo hi a t) :
    lo < hi := by
  cases t with
  | node label ts =>
    obtain ⟨le, rfl, -⟩ := owned
    exact Nat.lt_succ_of_le le

theorem AllOwned.le {h : Store κ} {lo hi : Nat} {cs : List Nat} {ts : List (Tree κ)}
    (owned : AllOwned h lo hi cs ts) : lo ≤ hi := by
  cases cs with
  | nil =>
    cases ts with
    | nil => exact Nat.le_of_eq owned
    | cons t ts => exact owned.elim
  | cons c cs =>
    cases ts with
    | nil => exact owned.elim
    | cons t ts =>
      obtain ⟨mid, first, rest⟩ := owned
      exact Nat.le_trans (Nat.le_of_lt first.lt) rest.le

end

mutual

theorem Owned.frame {h h' : Store κ} {lo hi a : Nat} {t : Tree κ}
    (frame : ∀ b node, lo ≤ b → b < hi → h[b]? = some node → h'[b]? = some node)
    (owned : Owned h lo hi a t) : Owned h' lo hi a t := by
  cases t with
  | node label ts =>
    obtain ⟨le, rfl, cs, found, inside⟩ := owned
    exact ⟨le, rfl, cs, frame a _ le (Nat.lt_succ_self a) found,
      AllOwned.frame (fun b node low high => frame b node low (Nat.lt_succ_of_lt high)) inside⟩

theorem AllOwned.frame {h h' : Store κ} {lo hi : Nat} {cs : List Nat} {ts : List (Tree κ)}
    (frame : ∀ b node, lo ≤ b → b < hi → h[b]? = some node → h'[b]? = some node)
    (owned : AllOwned h lo hi cs ts) : AllOwned h' lo hi cs ts := by
  cases cs with
  | nil =>
    cases ts with
    | nil => exact owned
    | cons t ts => exact owned.elim
  | cons c cs =>
    cases ts with
    | nil => exact owned.elim
    | cons t ts =>
      obtain ⟨mid, first, rest⟩ := owned
      exact ⟨mid,
        Owned.frame (fun b node low high => frame b node low (Nat.lt_of_lt_of_le high rest.le))
          first,
        AllOwned.frame
          (fun b node low high => frame b node (Nat.le_trans (Nat.le_of_lt first.lt) low) high)
          rest⟩

end

mutual

theorem Owned.at {h : Store κ} {lo hi a : Nat} {t : Tree κ} (owned : Owned h lo hi a t) :
    At h (fun b => lo ≤ b ∧ b < hi) a t := by
  cases t with
  | node label ts =>
    obtain ⟨le, rfl, cs, found, inside⟩ := owned
    exact ⟨⟨le, Nat.lt_succ_self a⟩, cs, found,
      (AllOwned.at inside).mono (fun b mem => ⟨mem.1, Nat.lt_succ_of_lt mem.2⟩)
        fun _ _ _ same => same⟩

theorem AllOwned.at {h : Store κ} {lo hi : Nat} {cs : List Nat} {ts : List (Tree κ)}
    (owned : AllOwned h lo hi cs ts) : AllAt h (fun b => lo ≤ b ∧ b < hi) cs ts := by
  cases cs with
  | nil =>
    cases ts with
    | nil => trivial
    | cons t ts => exact owned.elim
  | cons c cs =>
    cases ts with
    | nil => exact owned.elim
    | cons t ts =>
      obtain ⟨mid, first, rest⟩ := owned
      refine ⟨first.at.mono (fun b mem => ⟨mem.1, ?_⟩) fun _ _ _ same => same,
        rest.at.mono (fun b mem => ⟨?_, mem.2⟩) fun _ _ _ same => same⟩
      · exact Nat.lt_of_lt_of_le mem.2 rest.le
      · exact Nat.le_trans (Nat.le_of_lt first.lt) mem.1

end

mutual

theorem Tree.prefix_alloc (t : Tree κ) (h : Store κ) : h <+: (t.alloc h).2 := by
  cases t with
  | node label ts =>
    exact (prefix_allocAll ts h).trans (prefix_append _ _)

theorem prefix_allocAll (ts : List (Tree κ)) (h : Store κ) : h <+: (allocAll ts h).2 := by
  cases ts with
  | nil => exact prefix_refl h
  | cons t ts =>
    exact (Tree.prefix_alloc t h).trans (prefix_allocAll ts (t.alloc h).2)

end

theorem prefix_keeps {h h' : Store κ} (le : h <+: h') {b : Nat} {node : Node κ}
    (found : h[b]? = some node) : h'[b]? = some node := by
  obtain ⟨rest, rfl⟩ := le
  obtain ⟨lt, -⟩ := List.getElem?_eq_some_iff.mp found
  rw [getElem?_append_left lt, found]

mutual

theorem Tree.owned_alloc (t : Tree κ) (h : Store κ) :
    Owned (t.alloc h).2 h.length (t.alloc h).2.length (t.alloc h).1 t := by
  cases t with
  | node label ts =>
    simp only [Tree.alloc, Owned, length_append, length_singleton]
    refine ⟨(prefix_allocAll ts h).length_le, trivial, (allocAll ts h).1, ?_, ?_⟩
    · simp
    · refine (allOwned_allocAll ts h).frame fun b node _ high found => ?_
      rw [getElem?_append_left high, found]

theorem allOwned_allocAll (ts : List (Tree κ)) (h : Store κ) :
    AllOwned (allocAll ts h).2 h.length (allocAll ts h).2.length (allocAll ts h).1 ts := by
  cases ts with
  | nil => simp [allocAll, AllOwned]
  | cons t ts =>
    exact ⟨(t.alloc h).2.length,
      (Tree.owned_alloc t h).frame fun b node _ _ => prefix_keeps (prefix_allocAll ts _),
      allOwned_allocAll ts (t.alloc h).2⟩

end

end TermGraph
