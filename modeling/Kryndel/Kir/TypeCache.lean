import Kryndel.Kir.TypeExpression

/-!
# The cache of type specifications

`parseKIRTypeExpression` keeps the specifications of short texts in a cache and hands
out the cached one from the second time on. `substituteKIRType` copies the
specification of the type it rewrites, but what it puts in the place of a name is the
root of a cached specification, whose children stay shared with the cache, and it goes
on to rewrite those.

Specifications are kept in a store of nodes, as the program keeps them behind pointers.
The goroutine that runs is the only one that is modelled, so the lock is left out.
-/

namespace Kryndel

open TermGraph

/-! ## The cache -/

/-- `kirTypeSpecCacheEntries`. -/
def kirTypeSpecCacheEntries : Nat := 512

/-- `kirTypeSpecCacheMaxBytes`. -/
def kirTypeSpecCacheMaxBytes : Nat := 256

/-- The nodes of all specifications, and the cache (`kirTypeSpecCache`). -/
structure TypeCache where
  nodes : Store KIRTypeLabel := []
  entries : List (String × Nat) := []
  keys : List String := []
  next : Nat := 0
  /-- Has the last substitution replaced a name inside a replacement? The program does not
      keep this. -/
  resubstituted : Bool := false
deriving DecidableEq, Repr

/-- Keep a copy of a specification that is not in the cache. -/
def TypeCache.insert (st : TypeCache) (encoded : String) (spec : KIRTypeSpec) : TypeCache :=
  if (st.entries.lookup encoded).isNone then
    if st.entries.length < kirTypeSpecCacheEntries then
      { st with
        nodes := (spec.alloc st.nodes).2
        entries := (encoded, (spec.alloc st.nodes).1) :: st.entries
        keys := st.keys ++ [encoded] }
    else
      { st with
        nodes := (spec.alloc st.nodes).2
        entries := (encoded, (spec.alloc st.nodes).1) ::
          st.entries.filter fun e => e.1 ≠ st.keys.getD st.next ""
        keys := st.keys.set st.next encoded
        next := (st.next + 1) % kirTypeSpecCacheEntries }
  else st

/-- `parseKIRTypeExpression`: the address of the specification. -/
def parseKIRTypeExpression (encoded : String) (st : TypeCache) : Option Nat × TypeCache :=
  match if encoded.utf8ByteSize ≤ kirTypeSpecCacheMaxBytes then st.entries.lookup encoded
    else none with
  | some cached => (some cached, st)
  | none =>
    match parseKIRTypeExpressionUncached encoded with
    | none => (none, st)
    | some spec =>
      let fresh := spec.alloc st.nodes
      if kirTypeSpecCacheMaxBytes < encoded.utf8ByteSize then
        (some fresh.1, { st with nodes := fresh.2 })
      else (some fresh.1, { st with nodes := fresh.2 }.insert encoded spec)

/-! ## Substitution -/

/-- What the map of a substitution puts for a name, unless it is the name itself. -/
def replacementText (s : List (String × String)) (name : String) : Option String :=
  let replacement := (s.lookup name).getD ""
  if replacement ≠ "" ∧ replacement ≠ name then some replacement else none

/-- `*current = *resolved`, inside a replacement or not. -/
def TypeCache.overwrite (st : TypeCache) (current resolved : Nat) (inside : Bool) : TypeCache :=
  match st.nodes[resolved]? with
  | some node =>
      { st with
        nodes := st.nodes.set current node
        resubstituted := st.resubstituted || inside }
  | none => st

/-- Put the replacement in the place of a name that has one, and say whether there was one. -/
def replaceName (s : List (String × String)) (inside : Bool) (current : Nat) (st : TypeCache) :
    Bool × TypeCache :=
  match st.nodes[current]? with
  | none => (false, st)
  | some node =>
    if node.label.function || !node.children.isEmpty then (false, st)
    else
      match replacementText s node.label.name with
      | none => (false, st)
      | some replacement =>
        match parseKIRTypeExpression replacement st with
        | (some resolved, st) => (true, st.overwrite current resolved inside)
        | (none, st) => (false, st)

/-- The children that a node has. -/
def TypeCache.children (st : TypeCache) (current : Nat) : List Nat :=
  (st.nodes[current]?.map (·.children)).getD []

/-- `visit`, with `n` levels left. Is the node inside a replacement? -/
def visit (s : List (String × String)) : Nat → Bool → Nat → TypeCache → TypeCache
  | 0, _, _, st => st
  | n + 1, inside, current, st =>
      let (replaced, st) := replaceName s inside current st
      (st.children current).foldl (fun st child => visit s n (inside || replaced) child st) st

/-- `substituteKIRType`. The depth to which specifications are read is bounded by `fuel`; it
    never returns where no bound is enough. -/
def substituteKIRType (fuel : Nat) (encoded : String) (s : List (String × String))
    (st : TypeCache) : Option (String × TypeCache) :=
  let st := { st with resubstituted := false }
  if s.isEmpty then some (encoded, st)
  else
    match parseKIRTypeExpression encoded st with
    | (none, st) => some (encoded, st)
    | (some spec, st) => do
      let copied ← read st.nodes fuel spec
      let root := copied.alloc st.nodes
      -- the recursion stops below a depth of 128
      let st := visit s 129 false root.1 { st with nodes := root.2 }
      let result ← read st.nodes fuel root.1
      some (kirTypeSpecString result, st)

/-! ## What the cache holds -/

/-- Every cached specification is the one that its text stands for, in a region of the
    store. -/
def CacheHolds (P : Nat → Prop) (st : TypeCache) : Prop :=
  ∀ e ∈ st.entries, ∃ t, parseKIRTypeExpressionUncached e.1 = some t ∧ At st.nodes P e.2 t

theorem CacheHolds.mono {P P' : Nat → Prop} {st st' : TypeCache} (holds : CacheHolds P st)
    (entries : st'.entries = st.entries) (larger : ∀ b, P b → P' b)
    (frame : ∀ b node, P b → st.nodes[b]? = some node → st'.nodes[b]? = some node) :
    CacheHolds P' st' := by
  intro e mem
  obtain ⟨t, parsed, stands⟩ := holds e (entries ▸ mem)
  exact ⟨t, parsed, stands.mono larger frame⟩

theorem at_alloc {P : Nat → Prop} {h : Store KIRTypeLabel} (new : ∀ b, h.length ≤ b → P b)
    (spec : KIRTypeSpec) : At (spec.alloc h).2 P (spec.alloc h).1 spec :=
  (TermGraph.Tree.owned_alloc spec h).at.mono (fun b mem => new b mem.1) fun _ _ _ same => same

section Parsing

variable {P : Nat → Prop} {st : TypeCache} {encoded : String}

theorem nodes_insert (spec : KIRTypeSpec) :
    (st.insert encoded spec).nodes = st.nodes ∨
      (st.insert encoded spec).nodes = (spec.alloc st.nodes).2 := by
  unfold TypeCache.insert
  split
  · split <;> exact Or.inr rfl
  · exact Or.inl rfl

theorem prefix_insert (spec : KIRTypeSpec) : st.nodes <+: (st.insert encoded spec).nodes := by
  rcases nodes_insert spec with same | same
  · exact same.symm ▸ List.prefix_refl _
  · rw [same]
    exact TermGraph.Tree.prefix_alloc spec st.nodes

theorem resubstituted_insert (spec : KIRTypeSpec) :
    (st.insert encoded spec).resubstituted = st.resubstituted := by
  unfold TypeCache.insert
  split
  · split <;> rfl
  · rfl

theorem holds_insert {spec : KIRTypeSpec} (holds : CacheHolds P st)
    (new : ∀ b, st.nodes.length ≤ b → P b)
    (parsed : parseKIRTypeExpressionUncached encoded = some spec) :
    CacheHolds P (st.insert encoded spec) := by
  have entered : ∃ t, parseKIRTypeExpressionUncached encoded = some t ∧
      At (spec.alloc st.nodes).2 P (spec.alloc st.nodes).1 t := ⟨spec, parsed, at_alloc new spec⟩
  have kept : CacheHolds P { st with nodes := (spec.alloc st.nodes).2 } :=
    holds.mono rfl (fun _ mem => mem) fun b node _ =>
      prefix_keeps (TermGraph.Tree.prefix_alloc spec st.nodes)
  unfold TypeCache.insert
  split
  · split
    · rintro e (_ | ⟨_, mem⟩)
      · exact entered
      · exact kept e mem
    · rintro e (_ | ⟨_, mem⟩)
      · exact entered
      · exact kept e (List.mem_of_mem_filter mem)
  · exact holds

theorem resubstituted_parse (encoded : String) (st : TypeCache) :
    (parseKIRTypeExpression encoded st).2.resubstituted = st.resubstituted := by
  unfold parseKIRTypeExpression
  split
  · rfl
  · split
    · rfl
    · dsimp only
      split
      · rfl
      · exact resubstituted_insert _

/-- What parsing does to the cache, and what it returns. -/
structure ParseSpec (P : Nat → Prop) (encoded : String) (st : TypeCache)
    (result : Option Nat × TypeCache) : Prop where
  keeps : st.nodes <+: result.2.nodes
  holds : CacheHolds P result.2
  fails : parseKIRTypeExpressionUncached encoded = none → result = (none, st)
  returns : ∀ t, parseKIRTypeExpressionUncached encoded = some t →
    ∃ a, result.1 = some a ∧ At result.2.nodes P a t

/-- Where the cache holds what it should, parsing returns what the parser gives, and the
    cache holds what it should afterwards. -/
theorem parse_spec (encoded : String) (holds : CacheHolds P st)
    (new : ∀ b, st.nodes.length ≤ b → P b) :
    ParseSpec P encoded st (parseKIRTypeExpression encoded st) := by
  unfold parseKIRTypeExpression
  split
  · rename_i cached found
    split at found
    · obtain ⟨before, after, split, -⟩ := List.lookup_eq_some_iff.mp found
      obtain ⟨t, parsed, stands⟩ := holds (encoded, cached) (by simp [split])
      exact ⟨List.prefix_refl _, holds, fun failed => by simp [parsed] at failed,
        fun u parsed' => ⟨cached, rfl, Option.some.inj (parsed.symm.trans parsed') ▸ stands⟩⟩
    · cases found
  · split
    · rename_i failed
      exact ⟨List.prefix_refl _, holds, fun _ => rfl, fun t parsed => by simp [failed] at parsed⟩
    · rename_i spec parsed
      have put := TermGraph.Tree.prefix_alloc spec st.nodes
      have holds' : CacheHolds P { st with nodes := (spec.alloc st.nodes).2 } :=
        holds.mono rfl (fun _ mem => mem) fun b node _ => prefix_keeps put
      split
      · refine ⟨put, holds', fun failed => by simp [parsed] at failed, fun t parsed' => ?_⟩
        cases Option.some.inj (parsed.symm.trans parsed')
        exact ⟨_, rfl, at_alloc new spec⟩
      · have more := @prefix_insert { st with nodes := (spec.alloc st.nodes).2 } encoded spec
        refine ⟨put.trans more,
          holds_insert holds' (fun b le => new b (Nat.le_trans put.length_le le)) parsed,
          fun failed => by simp [parsed] at failed, fun t parsed' => ?_⟩
        cases Option.some.inj (parsed.symm.trans parsed')
        exact ⟨_, rfl, (at_alloc new spec).mono (fun _ mem => mem)
          fun b node _ => prefix_keeps more⟩

end Parsing

end Kryndel
