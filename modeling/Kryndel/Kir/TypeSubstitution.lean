import Kryndel.Kir.TypeCache

/-!
# Substitution in KIR types

`substituteKIRType` goes on below a replacement and replaces names there too, in nodes
that the replacement shares with the cache. Where no replacement has a name below its
root that the walk would replace, it comes to the simultaneous substitution and leaves
the cache alone.
-/

namespace Kryndel

open TermGraph List Option

section Substitution

variable (s : List (String × String))

/-! ## Simultaneous substitution -/

/-- The specification that is put for a name. -/
def leafReplacement (label : KIRTypeLabel) (children : List KIRTypeSpec) : Option KIRTypeSpec :=
  if label.function || !children.isEmpty then none
  else (replacementText s label.name).bind parseKIRTypeExpressionUncached

mutual

/-- Simultaneous substitution: every name that has a replacement is replaced, and no
    replacement is looked at again. -/
def substSpec : KIRTypeSpec → KIRTypeSpec
  | .node label children =>
      (leafReplacement s label children).getD (.node label (substSpecs children))

/-- Simultaneous substitution in some specifications. -/
def substSpecs : List KIRTypeSpec → List KIRTypeSpec
  | [] => []
  | c :: cs => substSpec c :: substSpecs cs

end

/-- Simultaneous substitution in the first `n` levels. -/
def walked : Nat → KIRTypeSpec → KIRTypeSpec
  | 0, t => t
  | n + 1, .node label children =>
      (leafReplacement s label children).getD (.node label (children.map (walked n)))

/-- No name in the first `n` levels has a replacement. -/
def Inert : Nat → KIRTypeSpec → Prop
  | 0, _ => True
  | n + 1, .node label children =>
      leafReplacement s label children = none ∧ ∀ c ∈ children, Inert n c

/-- The children of a specification. -/
def childrenOf : KIRTypeSpec → List KIRTypeSpec
  | .node _ children => children

/-- No replacement that is put in the first `n` levels has a name below its root that the
    walk, which goes on there, would replace in turn. -/
def Stable : Nat → KIRTypeSpec → Prop
  | 0, _ => True
  | n + 1, .node label children =>
      (∀ u ∈ leafReplacement s label children, ∀ c ∈ childrenOf u, Inert s n c) ∧
        ∀ c ∈ children, Stable n c

mutual

/-- No name has a replacement. -/
def Untouched : KIRTypeSpec → Prop
  | .node label children => leafReplacement s label children = none ∧ AllUntouched children

/-- No name in some specifications has a replacement. -/
def AllUntouched : List KIRTypeSpec → Prop
  | [] => True
  | c :: cs => Untouched c ∧ AllUntouched cs

end

/-- Every name that has a replacement is in the first `n` levels. -/
def Reached : Nat → KIRTypeSpec → Prop
  | 0, t => Untouched s t
  | n + 1, .node _ children => ∀ c ∈ children, Reached n c

variable {s}

theorem leafReplacement_ne {label : KIRTypeLabel} {children : List KIRTypeSpec} {u : KIRTypeSpec}
    (replaced : leafReplacement s label children = some u) :
    children = [] ∧ u ≠ .node label children := by
  unfold leafReplacement at replaced
  split at replaced
  · cases replaced
  · rename_i leaf
    simp only [Bool.or_eq_true, Bool.not_eq_true', not_or, Bool.not_eq_true, Bool.not_eq_false,
      List.isEmpty_iff] at leaf
    obtain ⟨function, rfl⟩ := leaf
    obtain ⟨text, found, parsed⟩ := bind_eq_some_iff.mp replaced
    refine ⟨rfl, fun same => ?_⟩
    have whole : text = label.name := by
      refine parsed_name (parsed.trans ?_)
      rw [same, namedSpec]
      cases label
      simp_all
    simp only [replacementText] at found
    split at found
    · rename_i differs
      exact differs.2 (Option.some.inj found ▸ whole)
    · cases found

mutual

theorem substSpec_eq_self_iff (t : KIRTypeSpec) : substSpec s t = t ↔ Untouched s t := by
  cases t with
  | node label children =>
    rw [substSpec, Untouched]
    cases replaced : leafReplacement s label children with
    | none => simpa using substSpecs_eq_self_iff children
    | some u => simpa using (leafReplacement_ne replaced).2

theorem substSpecs_eq_self_iff (ts : List KIRTypeSpec) :
    substSpecs s ts = ts ↔ AllUntouched s ts := by
  cases ts with
  | nil => simp [substSpecs, AllUntouched]
  | cons t ts =>
    simp only [substSpecs, AllUntouched, List.cons.injEq, substSpec_eq_self_iff t,
      substSpecs_eq_self_iff ts]

end

theorem substSpecs_eq_map (ts : List KIRTypeSpec) : substSpecs s ts = ts.map (substSpec s) := by
  induction ts with
  | nil => rfl
  | cons t ts ih => rw [substSpecs, ih, map_cons]

theorem walked_eq_substSpec_iff (n : Nat) (t : KIRTypeSpec) :
    walked s n t = substSpec s t ↔ Reached s n t := by
  induction n generalizing t with
  | zero => rw [walked, Reached, ← substSpec_eq_self_iff, eq_comm]
  | succ n ih =>
    cases t with
    | node label children =>
      rw [walked, substSpec, Reached]
      cases replaced : leafReplacement s label children with
      | none => simp [substSpecs_eq_map, ih]
      | some u => simp [(leafReplacement_ne replaced).1]

end Substitution

/-! ## One node of the walk -/

section Node

variable {s : List (String × String)} {P : Nat → Prop} {st : TypeCache}

/-- The addresses outside a range. -/
def Outside (lo hi b : Nat) : Prop :=
  b < lo ∨ hi ≤ b

theorem overwrite_resubstituted (current resolved : Nat) (inside : Bool)
    (already : st.resubstituted = true) :
    (st.overwrite current resolved inside).resubstituted = true := by
  unfold TypeCache.overwrite
  split <;> simp [already]

variable {current : Nat} {ts : List KIRTypeSpec}

variable {label : KIRTypeLabel}

theorem replaceName_none (holds : CacheHolds P st) (new : ∀ b, st.nodes.length ≤ b → P b)
    {Q : Nat → Prop} (stands : At st.nodes Q current (.node label ts))
    (none_ : leafReplacement s label ts = none) (inside : Bool) :
    replaceName s inside current st = (false, st) := by
  obtain ⟨-, cs, found, children⟩ := stands
  have leaf : cs.isEmpty = ts.isEmpty := by
    cases cs <;> cases ts <;> first | rfl | exact children.elim
  simp only [replaceName, found, leaf]
  unfold leafReplacement at none_
  split
  · rfl
  · rename_i named
    rw [if_neg named] at none_
    cases text : replacementText s label.name with
    | none => rfl
    | some replacement =>
      rw [text, bind_some] at none_
      have failed := (parse_spec replacement holds new).fails none_
      simp only [failed]

variable {root : KIRTypeLabel}

/-- A leaf with a replacement becomes a copy of the root of a specification that stands in
    the store. -/
theorem replaceName_some {ts us : List KIRTypeSpec} (holds : CacheHolds P st)
    (new : ∀ b, st.nodes.length ≤ b → P b) {Q : Nat → Prop}
    (stands : At st.nodes Q current (.node label ts))
    (some_ : leafReplacement s label ts = some (.node root us)) (inside : Bool) :
    ∃ parsed cs, st.nodes <+: parsed.nodes ∧ CacheHolds P parsed ∧
      parsed.resubstituted = st.resubstituted ∧ AllAt parsed.nodes P cs us ∧
      replaceName s inside current st =
        (true, { parsed with
          nodes := parsed.nodes.set current { label := root, children := cs }
          resubstituted := parsed.resubstituted || inside }) := by
  obtain ⟨-, cs, found, children⟩ := stands
  have leaf : cs.isEmpty = ts.isEmpty := by
    cases cs <;> cases ts <;> first | rfl | exact children.elim
  simp only [replaceName, found, leaf]
  unfold leafReplacement at some_
  split
  · rename_i named
    simp [named] at some_
  · rename_i named
    rw [if_neg named] at some_
    obtain ⟨replacement, text, parsed⟩ := bind_eq_some_iff.mp some_
    have spec := parse_spec replacement holds new
    obtain ⟨resolved, returned, -, ds, there, below⟩ := spec.returns _ parsed
    cases call : parseKIRTypeExpression replacement st with
    | mk result after =>
      rw [call] at spec returned there below
      cases returned
      refine ⟨after, ds, spec.keeps, spec.holds, by rw [← resubstituted_parse replacement st, call],
        below, ?_⟩
      simp only [text, call, TypeCache.overwrite, there]

theorem replaceName_resubstituted (inside : Bool) (current : Nat)
    (already : st.resubstituted = true) :
    (replaceName s inside current st).2.resubstituted = true := by
  unfold replaceName
  split
  · exact already
  · split
    · exact already
    · split
      · exact already
      · rename_i replacement _
        have parsed := (resubstituted_parse replacement st).trans already
        split
        · rename_i call
          rw [call] at parsed
          exact overwrite_resubstituted _ _ _ parsed
        · rename_i call
          rwa [call] at parsed

theorem visit_resubstituted (n : Nat) (inside : Bool) (current : Nat)
    (already : st.resubstituted = true) :
    (visit s n inside current st).resubstituted = true := by
  induction n generalizing inside current st with
  | zero => exact already
  | succ n ih =>
    rw [visit]
    dsimp only
    generalize (replaceName s inside current st).2.children current = children
    have replaced := replaceName_resubstituted (s := s) inside current already
    generalize (replaceName s inside current st).2 = after at replaced
    induction children generalizing after with
    | nil => exact replaced
    | cons c cs more => exact more _ (ih _ _ replaced)

theorem visitAll_resubstituted (n : Nat) (inside : Bool) (cs : List Nat)
    (already : st.resubstituted = true) :
    (cs.foldl (fun st c => visit s n inside c st) st).resubstituted = true := by
  induction cs generalizing st with
  | nil => exact already
  | cons c cs ih => exact ih (visit_resubstituted n inside c already)

theorem children_eq {node : Node KIRTypeLabel} (found : st.nodes[current]? = some node) :
    st.children current = node.children := by
  simp [TypeCache.children, found]

/-! ## Inside a replacement -/

variable {n : Nat} {cs : List Nat}

theorem visitAll_eq_self {inside : Bool} (each : ∀ c ∈ cs, visit s n inside c st = st) :
    cs.foldl (fun st c => visit s n inside c st) st = st := by
  induction cs with
  | nil => rfl
  | cons c cs ih =>
    rw [foldl_cons, each c mem_cons_self]
    exact ih fun d mem => each d (mem_cons_of_mem c mem)

theorem visit_inert (holds : CacheHolds P st) (new : ∀ b, st.nodes.length ≤ b → P b) (inside : Bool)
    {t : KIRTypeSpec} (stands : At st.nodes P current t) (inert : Inert s n t) :
    visit s n inside current st = st := by
  induction n generalizing current t with
  | zero => rfl
  | succ n ih =>
    obtain ⟨label, ts⟩ := t
    rw [visit, replaceName_none holds new stands inert.1]
    obtain ⟨-, cs, found, children⟩ := stands
    dsimp only
    rw [children_eq found, Bool.or_false]
    refine visitAll_eq_self fun c mem => ?_
    obtain ⟨t, there, below⟩ := children.of_mem mem
    exact ih below (inert.2 t there)

theorem visitAll_not_inert
    (ih : ∀ {current : Nat} {t : KIRTypeSpec}, At st.nodes P current t → ¬Inert s n t →
      (visit s n true current st).resubstituted = true) (holds : CacheHolds P st)
    (new : ∀ b, st.nodes.length ≤ b → P b) (children : AllAt st.nodes P cs ts)
    (active : ∃ t ∈ ts, ¬Inert s n t) :
    (cs.foldl (fun st c => visit s n true c st) st).resubstituted = true := by
  induction cs generalizing ts with
  | nil =>
    cases ts with
    | nil => simp at active
    | cons t ts => exact children.elim
  | cons c cs more =>
    cases ts with
    | nil => exact children.elim
    | cons t ts =>
      rw [foldl_cons]
      by_cases first : Inert s n t
      · -- the children before the first one with a replacement change nothing
        rw [visit_inert holds new true children.1 first]
        refine more children.2 ?_
        obtain ⟨u, mem, later⟩ := active
        rcases mem_cons.mp mem with rfl | mem
        · exact absurd first later
        · exact ⟨u, mem, later⟩
      · exact visitAll_resubstituted n true cs (ih children.1 first)

theorem visit_not_inert (holds : CacheHolds P st) (new : ∀ b, st.nodes.length ≤ b → P b)
    {t : KIRTypeSpec} (stands : At st.nodes P current t) (active : ¬Inert s n t) :
    (visit s n true current st).resubstituted = true := by
  induction n generalizing current t with
  | zero => exact absurd trivial active
  | succ n ih =>
    obtain ⟨label, ts⟩ := t
    rw [visit]
    dsimp only
    cases replaced : leafReplacement s label ts with
    | some u =>
      obtain ⟨root, us⟩ := u
      obtain ⟨parsed, cs, -, -, -, -, step⟩ := replaceName_some holds new stands replaced true
      rw [step]
      exact visitAll_resubstituted n _ _ (by simp)
    | none =>
      rw [replaceName_none holds new stands replaced]
      obtain ⟨-, cs, found, children⟩ := stands
      rw [children_eq found]
      simp only [Inert, replaced, true_and, not_forall, exists_prop] at active
      exact visitAll_not_inert ih holds new children active

/-! ## Outside of replacements -/

/-- What a walk in the range from `lo` to `hi`, inside the copy from `low` to `high`, leaves
    as it is. -/
structure WalkKept (low high lo hi : Nat) (st st' : TypeCache) : Prop where
  grows : st.nodes.length ≤ st'.nodes.length
  frame : ∀ b node, Outside lo hi b → st.nodes[b]? = some node → st'.nodes[b]? = some node
  holds : CacheHolds (Outside low high) st'
  record : st'.resubstituted = st.resubstituted

/-- Where a walk in the range from `lo` to `hi` leaves its result. -/
def Region (low high lo hi b : Nat) : Prop :=
  (lo ≤ b ∧ b < hi) ∨ Outside low high b

variable {low high : Nat}

theorem WalkKept.refl (holds : CacheHolds (Outside low high) st) (lo hi : Nat) :
    WalkKept low high lo hi st st :=
  ⟨Nat.le_refl _, fun _ _ _ found => found, holds, rfl⟩

theorem WalkKept.widen {lo mid hi : Nat} {st st' : TypeCache}
    (kept : WalkKept low high lo mid st st') (above : mid ≤ hi) :
    WalkKept low high lo hi st st' where
  grows := kept.grows
  frame b node out found := kept.frame b node (out.imp id fun le => Nat.le_trans above le) found
  holds := kept.holds
  record := kept.record

theorem WalkKept.trans {lo mid hi : Nat} {st st' st'' : TypeCache}
    (first : WalkKept low high lo mid st st') (second : WalkKept low high mid hi st' st'')
    (below : lo ≤ mid) (above : mid ≤ hi) :
    WalkKept low high lo hi st st'' where
  grows := Nat.le_trans first.grows second.grows
  frame b node out found :=
    second.frame b node (out.imp (fun lt => Nat.lt_of_lt_of_le lt below) id)
      (first.frame b node (out.imp id fun le => Nat.le_trans above le) found)
  holds := second.holds
  record := second.record.trans first.record

theorem outside_new (low : Nat) (le : high ≤ st.nodes.length) (b : Nat)
    (new : st.nodes.length ≤ b) :
    Outside low high b :=
  Or.inr (Nat.le_trans le new)

/-- What the walk does in a range of its copy: it leaves the rest as it is and comes to the
    simultaneous substitution in the first `n` levels, or it rewrites a replacement. -/
structure WalkSpec (s : List (String × String)) (low high : Nat) (n : Nat) (st : TypeCache) :
    Prop where
  quiet : ∀ {lo hi current : Nat} {t : KIRTypeSpec}, low ≤ lo → hi ≤ high →
    Owned st.nodes lo hi current t → Stable s n t →
    WalkKept low high lo hi st (visit s n false current st) ∧
      At (visit s n false current st).nodes (Region low high lo hi) current (walked s n t)
  loud : ∀ {lo hi current : Nat} {t : KIRTypeSpec}, low ≤ lo → hi ≤ high →
    Owned st.nodes lo hi current t → ¬Stable s n t →
    (visit s n false current st).resubstituted = true

variable {lo hi : Nat}

theorem visitAll_quiet
    (ih : ∀ {st : TypeCache}, CacheHolds (Outside low high) st → high ≤ st.nodes.length →
      WalkSpec s low high n st) {st : TypeCache} (holds : CacheHolds (Outside low high) st)
    (le : high ≤ st.nodes.length) (above : low ≤ lo) (below : hi ≤ high)
    (owned : AllOwned st.nodes lo hi cs ts) (quiet : ∀ t ∈ ts, Stable s n t) :
    WalkKept low high lo hi st (cs.foldl (fun st c => visit s n false c st) st) ∧
      AllAt (cs.foldl (fun st c => visit s n false c st) st).nodes (Region low high lo hi) cs
        (ts.map (walked s n)) := by
  induction cs generalizing st lo ts with
  | nil =>
    cases ts with
    | nil => exact ⟨WalkKept.refl holds lo hi, trivial⟩
    | cons t ts => exact owned.elim
  | cons c cs more =>
    cases ts with
    | nil => exact owned.elim
    | cons t ts =>
      obtain ⟨mid, first, rest⟩ := owned
      obtain ⟨kept, stands⟩ := (ih holds le).quiet above (Nat.le_trans rest.le below) first
        (quiet t mem_cons_self)
      have rest' : AllOwned (visit s n false c st).nodes mid hi cs ts :=
        rest.frame fun b node from_ _ => kept.frame b node (Or.inr from_)
      obtain ⟨kept', stand⟩ := more kept.holds (Nat.le_trans le kept.grows)
        (Nat.le_trans above (Nat.le_of_lt first.lt)) rest'
        fun u mem => quiet u (mem_cons_of_mem t mem)
      refine ⟨kept.trans kept' (Nat.le_of_lt first.lt) rest.le, ?_, ?_⟩
      · have := first.lt
        have := rest.le
        refine stands.mono (fun b mem => ?_) fun b node mem => kept'.frame b node ?_
        all_goals
          simp only [Region, Outside] at mem ⊢
          omega
      · exact stand.mono (fun b mem => mem.imp (fun range =>
          ⟨Nat.le_trans (Nat.le_of_lt first.lt) range.1, range.2⟩) id) fun _ _ _ same => same

theorem visitAll_loud
    (ih : ∀ {st : TypeCache}, CacheHolds (Outside low high) st → high ≤ st.nodes.length →
      WalkSpec s low high n st) {st : TypeCache} (holds : CacheHolds (Outside low high) st)
    (le : high ≤ st.nodes.length) (above : low ≤ lo) (below : hi ≤ high)
    (owned : AllOwned st.nodes lo hi cs ts) (loud : ∃ t ∈ ts, ¬Stable s n t) :
    (cs.foldl (fun st c => visit s n false c st) st).resubstituted = true := by
  induction cs generalizing st lo ts with
  | nil =>
    cases ts with
    | nil => simp at loud
    | cons t ts => exact owned.elim
  | cons c cs more =>
    cases ts with
    | nil => exact owned.elim
    | cons t ts =>
      obtain ⟨mid, first, rest⟩ := owned
      by_cases quiet : Stable s n t
      · obtain ⟨kept, -⟩ := (ih holds le).quiet above (Nat.le_trans rest.le below) first quiet
        refine more kept.holds (Nat.le_trans le kept.grows)
          (Nat.le_trans above (Nat.le_of_lt first.lt))
          (rest.frame fun b node from_ _ => kept.frame b node (Or.inr from_)) ?_
        obtain ⟨u, mem, later⟩ := loud
        rcases mem_cons.mp mem with rfl | mem
        · exact absurd quiet later
        · exact ⟨u, mem, later⟩
      · exact visitAll_resubstituted n false cs
          ((ih holds le).loud above (Nat.le_trans rest.le below) first quiet)

theorem overwritten_spec {parsed : TypeCache} {us : List KIRTypeSpec}
    (keeps : st.nodes <+: parsed.nodes) (holds : CacheHolds (Outside low high) parsed)
    (record : parsed.resubstituted = st.resubstituted)
    (stand : AllAt parsed.nodes (Outside low high) cs us) (above : low ≤ lo) (below : hi ≤ high)
    (from_ : lo ≤ current) (until_ : current < hi) (le : high ≤ st.nodes.length) {st' : TypeCache}
    (same : st' = { parsed with
      nodes := parsed.nodes.set current { label := root, children := cs }
      resubstituted := parsed.resubstituted || false }) :
    WalkKept low high lo hi st st' ∧ AllAt st'.nodes (Outside low high) cs us ∧
      st'.nodes[current]? = some { label := root, children := cs } := by
  subst same
  have elsewhere : ∀ b node, b ≠ current → parsed.nodes[b]? = some node →
      (parsed.nodes.set current { label := root, children := cs })[b]? = some node :=
    fun b node ne found => by rw [getElem?_set_ne (Ne.symm ne), found]
  have outside : ∀ b node, Outside low high b → parsed.nodes[b]? = some node →
      (parsed.nodes.set current { label := root, children := cs })[b]? = some node := by
    refine fun b node out => elsewhere b node ?_
    simp only [Outside] at out
    omega
  refine ⟨⟨?_, fun b node out found => ?_, ?_, ?_⟩, ?_, ?_⟩
  · rw [length_set]
    exact keeps.length_le
  · refine elsewhere b node ?_ (prefix_keeps keeps found)
    simp only [Outside] at out
    omega
  · exact holds.mono rfl (fun _ mem => mem) outside
  · simpa using record
  · exact stand.mono (fun _ mem => mem) outside
  · have := keeps.length_le
    rw [getElem?_set_self (by omega)]

/-- The walk in the copy, by the levels that are left. -/
theorem walk_spec (n : Nat) {st : TypeCache} (holds : CacheHolds (Outside low high) st)
    (le : high ≤ st.nodes.length) : WalkSpec s low high n st := by
  induction n generalizing st with
  | zero =>
    refine ⟨fun {lo hi current t} above below owned _ => ⟨WalkKept.refl holds lo hi, ?_⟩,
      fun _ _ _ loud => absurd trivial loud⟩
    exact owned.at.mono (fun b mem => Or.inl mem) fun _ _ _ same => same
  | succ n ih =>
    have new := outside_new low le
    constructor
    · intro lo hi current t above below owned quiet
      obtain ⟨label, ts⟩ := t
      have stands := owned.at
      obtain ⟨from_, rfl, children, found, inside⟩ := owned
      rw [visit, walked]
      dsimp only
      cases replaced : leafReplacement s label ts with
      | none =>
        rw [replaceName_none holds new stands replaced, children_eq found]
        obtain ⟨kept, stand⟩ := visitAll_quiet ih holds le above
          (Nat.le_trans (Nat.le_succ current) below) inside quiet.2
        refine ⟨kept.widen (Nat.le_succ current), Or.inl ⟨from_, Nat.lt_succ_self current⟩,
          children, kept.frame current _ (Or.inr (Nat.le_refl current)) found,
          stand.mono (fun b mem => ?_) fun _ _ _ same => same⟩
        exact mem.imp (fun range => ⟨range.1, Nat.lt_succ_of_lt range.2⟩) id
      | some u =>
        obtain ⟨root, us⟩ := u
        obtain ⟨parsed, cs, keeps, holds', record, stand, step⟩ :=
          replaceName_some holds new stands replaced false
        rw [step]
        obtain ⟨kept, stand', there⟩ := overwritten_spec keeps holds' record stand above below
          from_ (Nat.lt_succ_self current) le rfl
        rw [children_eq there, visitAll_eq_self fun c mem => ?_]
        · exact ⟨kept, Or.inl ⟨from_, Nat.lt_succ_self current⟩, cs, there,
            stand'.mono (fun b mem => Or.inr mem) fun _ _ _ same => same⟩
        · obtain ⟨v, child, below'⟩ := stand'.of_mem mem
          exact visit_inert kept.holds (outside_new low (Nat.le_trans le kept.grows)) _ below'
            (quiet.1 _ replaced v child)
    · intro lo hi current t above below owned loud
      obtain ⟨label, ts⟩ := t
      have stands := owned.at
      obtain ⟨from_, rfl, children, found, inside⟩ := owned
      rw [visit]
      dsimp only
      cases replaced : leafReplacement s label ts with
      | none =>
        rw [replaceName_none holds new stands replaced, children_eq found]
        simp only [Stable, replaced, mem_def, reduceCtorEq, false_implies, implies_true,
          true_and, not_forall, exists_prop] at loud
        exact visitAll_loud ih holds le above (Nat.le_trans (Nat.le_succ current) below) inside
          loud
      | some u =>
        obtain ⟨root, us⟩ := u
        obtain ⟨rfl, -⟩ := leafReplacement_ne replaced
        obtain ⟨parsed, cs, keeps, holds', record, stand, step⟩ :=
          replaceName_some holds new stands replaced false
        rw [step]
        dsimp only
        obtain ⟨kept, stand', there⟩ := overwritten_spec keeps holds' record stand above below
          from_ (Nat.lt_succ_self current) le rfl
        rw [children_eq there]
        have new' := outside_new low (Nat.le_trans le kept.grows)
        simp only [Stable, replaced, mem_def, Option.some.injEq, forall_eq', childrenOf,
          not_mem_nil, false_implies, implies_true, and_true, not_forall,
          exists_prop] at loud
        exact visitAll_not_inert (fun stands => visit_not_inert kept.holds new' stands) kept.holds
          new' stand' loud

end Node

/-! ## Decidability -/

section Decidability

variable {s : List (String × String)}

/-- `Inert` can be decided. -/
def decidableInert : (n : Nat) → (t : KIRTypeSpec) → Decidable (Inert s n t)
  | 0, _ => isTrue trivial
  | n + 1, .node label children =>
      have := decidableInert n
      inferInstanceAs (Decidable (leafReplacement s label children = none ∧
        ∀ c ∈ children, Inert s n c))

instance (n : Nat) (t : KIRTypeSpec) : Decidable (Inert s n t) := decidableInert n t

/-- `Stable` can be decided. -/
def decidableStable : (n : Nat) → (t : KIRTypeSpec) → Decidable (Stable s n t)
  | 0, _ => isTrue trivial
  | n + 1, .node label children =>
      have := decidableStable n
      inferInstanceAs (Decidable ((∀ u ∈ leafReplacement s label children,
        ∀ c ∈ childrenOf u, Inert s n c) ∧ ∀ c ∈ children, Stable s n c))

instance (n : Nat) (t : KIRTypeSpec) : Decidable (Stable s n t) := decidableStable n t

instance (t : KIRTypeSpec) : Decidable (Untouched s t) :=
  decidable_of_iff _ (substSpec_eq_self_iff t)

/-- `Reached` can be decided. -/
def decidableReached : (n : Nat) → (t : KIRTypeSpec) → Decidable (Reached s n t)
  | 0, t => inferInstanceAs (Decidable (Untouched s t))
  | n + 1, .node _ children =>
      have := decidableReached n
      inferInstanceAs (Decidable (∀ c ∈ children, Reached s n c))

instance (n : Nat) (t : KIRTypeSpec) : Decidable (Reached s n t) := decidableReached n t

end Decidability

/-! ## Maps with no entry -/

theorem leafReplacement_nil (label : KIRTypeLabel) (children : List KIRTypeSpec) :
    leafReplacement [] label children = none := by
  simp [leafReplacement, replacementText]

mutual

theorem untouched_nil (t : KIRTypeSpec) : Untouched [] t := by
  cases t with
  | node label children => exact ⟨leafReplacement_nil label children, allUntouched_nil children⟩

theorem allUntouched_nil (ts : List KIRTypeSpec) : AllUntouched [] ts := by
  cases ts with
  | nil => trivial
  | cons t ts => exact ⟨untouched_nil t, allUntouched_nil ts⟩

end

theorem stable_nil (n : Nat) (t : KIRTypeSpec) : Stable [] n t := by
  induction n generalizing t with
  | zero => trivial
  | succ n ih =>
    obtain ⟨label, children⟩ := t
    refine ⟨fun u replaced => ?_, fun c _ => ih c⟩
    simp [leafReplacement_nil] at replaced

theorem reached_nil (n : Nat) (t : KIRTypeSpec) : Reached [] n t := by
  induction n generalizing t with
  | zero => exact untouched_nil t
  | succ n ih =>
    obtain ⟨label, children⟩ := t
    exact fun c _ => ih c

/-! ## Names in the result -/

section Names

variable {s : List (String × String)}

theorem named_leafReplacement {label : KIRTypeLabel} {children : List KIRTypeSpec}
    {u : KIRTypeSpec} (replaced : leafReplacement s label children = some u) :
    Named PlainName u := by
  unfold leafReplacement at replaced
  split at replaced
  · cases replaced
  · obtain ⟨text, -, parsed⟩ := bind_eq_some_iff.mp replaced
    exact parsed_named parsed

theorem Named.map {good : List Char → Prop} {label : KIRTypeLabel} {children : List KIRTypeSpec}
    {f : KIRTypeSpec → KIRTypeSpec} (named : Named good (.node label children))
    (each : ∀ c ∈ children, Named good (f c)) : Named good (.node label (children.map f)) := by
  refine ⟨?_, allNamed_iff.mpr fun t mem => ?_⟩
  · simpa using named.1
  · obtain ⟨c, child, rfl⟩ := mem_map.mp mem
    exact each c child

theorem named_walked {n : Nat} {t : KIRTypeSpec} (named : Named PlainName t) :
    Named PlainName (walked s n t) := by
  induction n generalizing t with
  | zero => exact named
  | succ n ih =>
    obtain ⟨label, children⟩ := t
    rw [walked]
    cases replaced : leafReplacement s label children with
    | none => exact named.map fun c child => ih (allNamed_iff.mp named.2 c child)
    | some u => exact named_leafReplacement replaced

mutual

theorem named_substSpec {t : KIRTypeSpec} (named : Named PlainName t) :
    Named PlainName (substSpec s t) := by
  cases t with
  | node label children =>
    rw [substSpec]
    cases replaced : leafReplacement s label children with
    | none =>
      rw [substSpecs_eq_map, getD_none]
      exact named.map fun c child => allNamed_substSpecs named.2 c child
    | some u => exact named_leafReplacement replaced

theorem allNamed_substSpecs {ts : List KIRTypeSpec} (named : AllNamed PlainName ts) :
    ∀ t ∈ ts, Named PlainName (substSpec s t) := by
  cases ts with
  | nil => nofun
  | cons t ts =>
    rintro u (_ | ⟨_, mem⟩)
    · exact named_substSpec named.1
    · exact allNamed_substSpecs named.2 u mem

end

end Names

/-! ## The whole substitution -/

/-- Every cached specification is the one that its text stands for. -/
def Transparent (st : TypeCache) : Prop :=
  CacheHolds (fun _ => True) st

theorem transparent_empty : Transparent {} := by
  rintro e ⟨⟩

section Result

variable {s : List (String × String)} {st : TypeCache} {encoded : String} {t : KIRTypeSpec}

/-- The copy that a substitution rewrites. -/
structure Copied (encoded : String) (t : KIRTypeSpec) (st : TypeCache) (spec : Nat)
    (parsed : TypeCache) : Prop where
  call : parseKIRTypeExpression encoded { st with resubstituted := false } = (some spec, parsed)
  stands : At parsed.nodes (fun _ => True) spec t
  holds : CacheHolds (Outside parsed.nodes.length (t.alloc parsed.nodes).2.length)
    { parsed with nodes := (t.alloc parsed.nodes).2 }
  record : parsed.resubstituted = false

theorem copied (holds : Transparent st) (parsed : parseKIRTypeExpressionUncached encoded = some t) :
    ∃ spec after, Copied encoded t st spec after := by
  have ready : Transparent { st with resubstituted := false } := holds
  have spec := parse_spec encoded ready fun _ _ => trivial
  have record := resubstituted_parse encoded { st with resubstituted := false }
  obtain ⟨a, returned, stands⟩ := spec.returns t parsed
  cases call : parseKIRTypeExpression encoded { st with resubstituted := false } with
  | mk result after =>
    rw [call] at spec returned stands record
    cases returned
    refine ⟨a, after, call, stands, fun e mem => ?_, record⟩
    obtain ⟨u, parsed', there⟩ := spec.holds e mem
    refine ⟨u, parsed', there.bounded.mono (fun b lt => Or.inl lt) fun b node _ => ?_⟩
    exact prefix_keeps (TermGraph.Tree.prefix_alloc t after.nodes)

theorem walk_copied {spec : Nat} {parsed : TypeCache} (copied : Copied encoded t st spec parsed) :
    WalkSpec s parsed.nodes.length (t.alloc parsed.nodes).2.length 129
      { parsed with nodes := (t.alloc parsed.nodes).2 } :=
  walk_spec 129 copied.holds (Nat.le_refl _)

theorem substituteKIRType_eq_some {spec : Nat} {parsed : TypeCache}
    (copied : Copied encoded t st spec parsed) (given : s ≠ []) {fuel : Nat} {text : String}
    {st' : TypeCache} :
    substituteKIRType fuel encoded s st = some (text, st') ↔
      read parsed.nodes fuel spec = some t ∧
        st' = visit s 129 false (t.alloc parsed.nodes).1
          { parsed with nodes := (t.alloc parsed.nodes).2 } ∧
        ∃ result, read st'.nodes fuel (t.alloc parsed.nodes).1 = some result ∧
          kirTypeSpecString result = text := by
  have empty : s.isEmpty = false := by simpa using given
  simp only [substituteKIRType, empty, Bool.false_eq_true, if_false, copied.call,
    bind_eq_bind, bind_eq_some_iff, Option.some.injEq, Prod.mk.injEq]
  constructor
  · rintro ⟨u, done, result, done', rfl, rfl⟩
    obtain rfl := (at_of_read done).unique copied.stands
    exact ⟨done, rfl, result, done', rfl⟩
  · rintro ⟨done, rfl, result, done', rfl⟩
    exact ⟨t, done, result, done', rfl, rfl⟩

/-- Substitution terminates, comes to the printed simultaneous substitution and does not
    substitute in a replacement exactly if no replacement has a name below its root that
    the walk reaches and the map replaces, and no name that the map replaces lies below
    the walk. Where the map has no entry the text is returned as it is. -/
theorem substituteKIRType_iff (holds : Transparent st)
    (parsed : parseKIRTypeExpressionUncached encoded = some t) :
    (∃ fuel st', substituteKIRType fuel encoded s st =
        some (kirTypeSpecString (substSpec s t), st') ∧ st'.resubstituted = false) ↔
      (s = [] → kirTypeSpecString t = encoded) ∧ Stable s 129 t ∧ Reached s 129 t := by
  by_cases given : s = []
  · subst given
    have same : substSpec [] t = t := (substSpec_eq_self_iff t).mpr (untouched_nil t)
    simp only [substituteKIRType, isEmpty_nil, if_true, same, Option.some.injEq,
      Prod.mk.injEq, true_implies, stable_nil, reached_nil, and_true]
    constructor
    · rintro ⟨-, -, ⟨rfl, -⟩, -⟩
      rfl
    · intro printed
      exact ⟨0, _, ⟨printed.symm, rfl⟩, rfl⟩
  obtain ⟨spec, after, copied⟩ := copied holds parsed
  have walk := walk_copied (s := s) copied
  have owned := TermGraph.Tree.owned_alloc t after.nodes
  simp only [given, false_implies, true_and]
  constructor
  · rintro ⟨fuel, st', done, record⟩
    obtain ⟨-, rfl, result, read', printed⟩ := (substituteKIRType_eq_some copied given).mp done
    have quiet : Stable s 129 t := by
      by_contra loud
      rw [walk.loud (Nat.le_refl _) (Nat.le_refl _) owned loud] at record
      cases record
    refine ⟨quiet, (walked_eq_substSpec_iff 129 t).mp ?_⟩
    have stands := (walk.quiet (Nat.le_refl _) (Nat.le_refl _) owned quiet).2
    obtain rfl := (at_of_read read').unique stands
    have named := parsed_named parsed
    exact kirTypeSpecString_injective (named_walked named) (named_substSpec named) printed
  · rintro ⟨quiet, reached⟩
    obtain ⟨kept, stands⟩ := walk.quiet (Nat.le_refl _) (Nat.le_refl _) owned quiet
    obtain ⟨n, before⟩ := copied.stands.read
    obtain ⟨m, behind⟩ := stands.read
    refine ⟨max n m, _, (substituteKIRType_eq_some copied given).mpr
      ⟨before _ (Nat.le_max_left n m), rfl, _, behind _ (Nat.le_max_right n m), ?_⟩,
      kept.record.trans copied.record⟩
    rw [(walked_eq_substSpec_iff 129 t).mpr reached]

/-- `Array[T]` with `T` replaced by `Int`. -/
theorem array_of_int : ∃ fuel st', substituteKIRType fuel "Array[T]" [("T", "Int")] {} =
    some (kirTypeSpecString (substSpec [("T", "Int")] (namedSpec "Array" [namedSpec "T" []])),
      st') ∧ st'.resubstituted = false :=
  (substituteKIRType_iff transparent_empty (by decide +kernel)).mpr
    ⟨by simp, by decide +kernel, by decide +kernel⟩

/-- The nodes that are left of `T` with `T` replaced by `Array[T]`: the copy, and in it the
    cached `Array[T]`, which has become its own argument. -/
def selfNested : TypeCache :=
  visit [("T", "Array[T]")] 129 false 2
    { nodes := [⟨⟨false, "T"⟩, []⟩, ⟨⟨false, "T"⟩, []⟩, ⟨⟨false, "T"⟩, []⟩]
      entries := [("T", 1)]
      keys := ["T"] }

/-- `T` with `T` replaced by `Array[T]` never returns. -/
theorem array_of_itself : parseKIRTypeExpressionUncached "T" = some (namedSpec "T" []) ∧
    ∀ fuel, substituteKIRType fuel "T" [("T", "Array[T]")] {} = none := by
  have parsed : parseKIRTypeExpressionUncached "T" = some (namedSpec "T" []) := by decide
  refine ⟨parsed, fun fuel => ?_⟩
  obtain ⟨spec, after, copy⟩ := copied transparent_empty parsed
  have call : parseKIRTypeExpression "T" {} = (some 0,
      { nodes := [⟨⟨false, "T"⟩, []⟩, ⟨⟨false, "T"⟩, []⟩], entries := [("T", 1)],
        keys := ["T"] }) := by decide
  obtain ⟨zero, rfl⟩ := Prod.mk.inj (call.symm.trans copy.call)
  obtain rfl := Option.some.inj zero
  cases done : substituteKIRType fuel "T" [("T", "Array[T]")] {} with
  | none => rfl
  | some result =>
    obtain ⟨text, st'⟩ := result
    obtain ⟨-, same, u, read', -⟩ := (substituteKIRType_eq_some copy (by simp)).mp done
    have final : st' = selfNested := same.trans (by decide +kernel)
    -- the copy, the first specification of `Array[T]`, and the cached one below it
    have top : selfNested.nodes[2]? = some ⟨⟨false, "Array"⟩, [3]⟩ := by decide +kernel
    have middle : selfNested.nodes[3]? = some ⟨⟨false, "Array"⟩, [5]⟩ := by decide +kernel
    have loop : selfNested.nodes[5]? = some ⟨⟨false, "Array"⟩, [5]⟩ := by decide +kernel
    have stands := at_of_read read'
    rw [final] at stands
    exact absurd stands
      (not_at_of_child top (not_at_of_child middle (not_at_of_self_child loop)) u)

end Result

/-! ## Runs -/

/-- A use of the cache. -/
inductive TypeCall where
  | parse (encoded : String)
  | substitute (encoded : String) (s : List (String × String))

/-- What a call does to the cache, if it returns. -/
def TypeCall.Step : TypeCall → TypeCache → TypeCache → Prop
  | .parse encoded, st, st' => st' = (parseKIRTypeExpression encoded st).2
  | .substitute encoded s, st, st' =>
      ∃ fuel text, substituteKIRType fuel encoded s st = some (text, st')

/-- The cache after some calls, empty at first. -/
inductive TypeRun : List TypeCall → TypeCache → Prop where
  | start : TypeRun [] {}
  | step {calls : List TypeCall} {call : TypeCall} {st st' : TypeCache} (before : TypeRun calls st)
      (made : call.Step st st') : TypeRun (calls ++ [call]) st'

/-- A call that puts no replacement with a name below its root that it would replace. -/
def TypeCall.IsStable : TypeCall → Prop
  | .parse _ => True
  | .substitute encoded s => ∀ t ∈ parseKIRTypeExpressionUncached encoded, Stable s 129 t

/-- A call of `parseKIRTypeExpression` returns what the parser gives. -/
def ParseReturns (encoded : String) (st : TypeCache) : Prop :=
  match parseKIRTypeExpressionUncached encoded with
  | none => (parseKIRTypeExpression encoded st).1 = none
  | some t => ∃ a, (parseKIRTypeExpression encoded st).1 = some a ∧
      At (parseKIRTypeExpression encoded st).2.nodes (fun _ => True) a t

theorem parseReturns_of_transparent {encoded : String} {st : TypeCache} (holds : Transparent st) :
    ParseReturns encoded st := by
  have spec := parse_spec encoded holds fun _ _ => trivial
  unfold ParseReturns
  split
  · rename_i failed
    rw [spec.fails failed]
  · rename_i t parsed
    exact spec.returns t parsed

theorem transparent_step {call : TypeCall} {st st' : TypeCache} (holds : Transparent st)
    (stable : call.IsStable) (made : call.Step st st') : Transparent st' := by
  cases call with
  | parse encoded =>
    obtain rfl := made
    exact (parse_spec encoded holds fun _ _ => trivial).holds
  | substitute encoded s =>
    obtain ⟨fuel, text, done⟩ := made
    by_cases given : s = []
    · subst given
      obtain ⟨-, rfl⟩ := done
      exact holds
    cases parsed : parseKIRTypeExpressionUncached encoded with
    | none =>
      have ready : Transparent { st with resubstituted := false } := holds
      have failed := (parse_spec encoded ready fun _ _ => trivial).fails parsed
      have empty : s.isEmpty = false := by simpa using given
      simp only [substituteKIRType, empty, failed, Bool.false_eq_true, if_false,
        Option.some.injEq, Prod.mk.injEq] at done
      obtain ⟨-, rfl⟩ := done
      exact holds
    | some t =>
      obtain ⟨spec, after, copy⟩ := copied holds parsed
      obtain ⟨-, rfl, -⟩ := (substituteKIRType_eq_some copy given).mp done
      have kept := ((walk_copied (s := s) copy).quiet (Nat.le_refl _) (Nat.le_refl _)
        (TermGraph.Tree.owned_alloc t after.nodes) (stable t parsed)).1
      exact kept.holds.mono rfl (fun _ _ => trivial) fun _ _ _ same => same

theorem transparent_run {calls : List TypeCall} {st : TypeCache} (run : TypeRun calls st)
    (stable : ∀ call ∈ calls, call.IsStable) : Transparent st := by
  induction run with
  | start => exact transparent_empty
  | step before made ih =>
    have earlier := ih fun call mem => stable call (mem_append_left _ mem)
    exact transparent_step earlier (stable _ (by simp)) made

/-- In a run of stable calls no cached specification is ever changed, and every parse
    returns what the parser gives. -/
theorem parse_returns_of_run {calls : List TypeCall} {st : TypeCache} (run : TypeRun calls st)
    (stable : ∀ call ∈ calls, call.IsStable) :
    Transparent st ∧ ∀ encoded, ParseReturns encoded st :=
  ⟨transparent_run run stable, fun _ => parseReturns_of_transparent (transparent_run run stable)⟩

/-- The cache after `Array[T]` and `Array[T]` with `T` replaced by `Int`. -/
def replacedCache : TypeCache :=
  visit [("T", "Int")] 129 false 5
    { nodes := ((namedSpec "Array" [namedSpec "T" []]).alloc
        (parseKIRTypeExpression "Array[T]" {}).2.nodes).2
      entries := [("Array[T]", 3)]
      keys := ["Array[T]"] }

/-- The calls that lead there are stable. -/
theorem replacedCache_transparent :
    Transparent replacedCache ∧ ∀ encoded, ParseReturns encoded replacedCache := by
  have first : TypeRun [.parse "Array[T]"] (parseKIRTypeExpression "Array[T]" {}).2 :=
    @TypeRun.step [] (.parse "Array[T]") {} _ .start rfl
  have second : TypeCall.Step (.substitute "Array[T]" [("T", "Int")])
      (parseKIRTypeExpression "Array[T]" {}).2 replacedCache :=
    ⟨2, "Array[Int]", by decide +kernel⟩
  have stable : ∀ t ∈ parseKIRTypeExpressionUncached "Array[T]", Stable [("T", "Int")] 129 t := by
    decide +kernel
  refine parse_returns_of_run (first.step second) ?_
  simp only [cons_append, nil_append, mem_cons, not_mem_nil, or_false,
    forall_eq_or_imp, forall_eq]
  exact ⟨trivial, stable⟩

/-- The cache after `Array[U]`, and after `T` with `T` replaced by `Array[U]` and `U` by
    `Int`. -/
def sharedCache : TypeCache :=
  ((substituteKIRType 2 "T" [("T", "Array[U]"), ("U", "Int")]
    (parseKIRTypeExpression "Array[U]" {}).2).map (·.2)).getD {}

/-- There `Array[U]` is parsed as `Array[Int]`. -/
theorem sharedCache_changed : TypeRun
    [.parse "Array[U]", .substitute "T" [("T", "Array[U]"), ("U", "Int")]] sharedCache ∧
      ¬ParseReturns "Array[U]" sharedCache := by
  have first : TypeRun [.parse "Array[U]"] (parseKIRTypeExpression "Array[U]" {}).2 :=
    @TypeRun.step [] (.parse "Array[U]") {} _ .start rfl
  have second : TypeCall.Step (.substitute "T" [("T", "Array[U]"), ("U", "Int")])
      (parseKIRTypeExpression "Array[U]" {}).2 sharedCache :=
    ⟨2, "Array[Int]", by decide +kernel⟩
  refine ⟨first.step second, ?_⟩
  have parsed : parseKIRTypeExpressionUncached "Array[U]" =
      some (namedSpec "Array" [namedSpec "U" []]) := by decide +kernel
  have changed : read sharedCache.nodes 2 3 = some (namedSpec "Array" [namedSpec "Int" []]) := by
    decide +kernel
  have call : parseKIRTypeExpression "Array[U]" sharedCache = (some 3, sharedCache) := by
    decide +kernel
  simp only [ParseReturns, parsed, call, Option.some.injEq, exists_eq_left']
  intro stands
  exact absurd ((at_of_read changed).unique stands) (by decide)

end Kryndel
