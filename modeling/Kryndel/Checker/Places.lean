import Kryndel.Checker.Check
import Kryndel.Checker.Outline

/-!
# Scopes and the blocks they stand for

At every moment of a check the scopes on the current path hold the names declared
so far in the blocks around the current point. `At` states this for the current
moment, and `Matches .fin` for the table of scopes the whole check ends with. The
rest of the module is what each primitive operation on scopes does to these.
-/

namespace Kryndel

open Lexical List

/-! ## Scope contents -/

/-- The declaration a binding stands for. -/
def Binding.decl (b : Binding) : Decl := { token := b.token, isGlobal := b.isGlobal }

/-- The names of a scope. -/
def ScopeRecord.decls (r : ScopeRecord) : List (String × Decl) :=
  r.values.map fun v => (v.1, v.2.decl)

theorem lookup_map_snd {α β : Type} (f : α → β) (xs : List (String × α)) (name : String) :
    (xs.map fun v => (v.1, f v.2)).lookup name = (xs.lookup name).map f := by
  induction xs with
  | nil => rfl
  | cons x xs ih =>
    obtain ⟨key, value⟩ := x
    simp only [map_cons, lookup_cons]
    cases name == key with
    | true => rfl
    | false => exact ih

theorem lookup_decls (r : ScopeRecord) (name : String) :
    r.decls.lookup name = (r.values.lookup name).map Binding.decl :=
  lookup_map_snd Binding.decl r.values name

/-- The scopes on a path hold the tables of the blocks. -/
def Matches (stage : Stage) (h : Scopes) (sc : ScopeRef) (blocks : Blocks) : Prop :=
  List.Forall₂ (fun i f => (h.record i).decls = f.names stage) sc blocks

variable {stage : Stage} {h : Scopes} {blocks : Blocks} {sc : ScopeRef}

theorem Matches.lookup (m : Matches stage h sc blocks) (name : String) :
    (h.lookup sc name).map Binding.decl = (resolve stage blocks name).map (·.2) := by
  induction m with
  | nil => rfl
  | @cons i f sc blocks same _ ih =>
    have here := lookup_decls (h.record i) name
    rw [same] at here
    simp only [Scopes.lookup, Scopes.lookupOwner, resolve, here]
    cases (h.record i).values.lookup name with
    | some b => rfl
    | none => exact ih

/-! ## Where the checker is -/

/-- The scopes of a path lie in the closures of their levels. -/
def Tagged (tag : Nat → Option FunctionRef) (h : Scopes) (sc : ScopeRef) (blocks : Blocks) : Prop :=
  List.Forall₂ (fun i f => (h.record i).lambda = tag f.level) sc blocks

/-- The checker stands in `sc`, whose scopes hold the names declared so far in
    `blocks`. The scopes of one closure level carry one closure, and `tag` says
    which. -/
structure At (tag : Nat → Option FunctionRef) (st : CheckState) (sc : ScopeRef)
    (blocks : Blocks) : Prop where
  names : Matches .now st.scopes sc blocks
  tags : Tagged tag st.scopes sc blocks
  bound : ∀ i ∈ sc, i < st.scopes.length
  distinct : sc.Nodup
  levels : ∀ f ∈ blocks, f.level ≤ blocks.level
  injective : ∀ a b, a ≤ blocks.level → b ≤ blocks.level → tag a = tag b → a = b
  outermost : tag 0 = none
  closures : ∀ a, 0 < a → a ≤ blocks.level → ∃ p, tag a = some (.closure p) ∧ p.length ≤ sc.length
  current : st.currentLambda = tag blocks.level

variable {tag : Nat → Option FunctionRef} {st : CheckState}

theorem At.lambda (place : At tag st sc blocks) :
    (st.scopes.top sc).lambda = tag blocks.level := by
  cases place.tags with
  | nil => exact place.outermost.symm
  | cons here _ => exact here

theorem resolve_some_owner (names : Matches .now h sc blocks) (tags : Tagged tag h sc blocks)
    {name : String} {level : Nat} {d : Decl} (found : resolve .now blocks name = some (level, d)) :
    ∃ b owner, h.lookupOwner sc name = some (b, owner) ∧ b.decl = d ∧
      (h.top owner).lambda = tag level ∧ ∃ f ∈ blocks, f.level = level := by
  induction names with
  | nil => simp [resolve] at found
  | @cons i f sc blocks same _ ih =>
    cases tags with
    | cons tagHere tagsBelow =>
      have here := lookup_decls (h.record i) name
      rw [same] at here
      simp only [resolve, here] at found
      cases bound : (h.record i).values.lookup name with
      | some b =>
        simp only [bound, Option.map_some, Option.some.injEq, Prod.mk.injEq] at found
        obtain ⟨rfl, rfl⟩ := found
        exact ⟨b, i :: sc, by simp [Scopes.lookupOwner, bound], rfl, tagHere, f,
          mem_cons_self, rfl⟩
      | none =>
        simp only [bound, Option.map_none] at found
        obtain ⟨b, owner, found, rest⟩ := ih tagsBelow found
        obtain ⟨decl, lambda, g, mem, level⟩ := rest
        exact ⟨b, owner, by simpa [Scopes.lookupOwner, bound] using found, decl, lambda, g,
          mem_cons_of_mem f mem, level⟩

theorem lookupOwner_none_iff (m : Matches stage h sc blocks) (name : String) :
    h.lookupOwner sc name = none ↔ resolve stage blocks name = none := by
  have same := m.lookup name
  simp only [Scopes.lookup] at same
  cases found : h.lookupOwner sc name <;> cases res : resolve stage blocks name <;>
    simp_all

theorem has_iff (m : Matches .now h sc blocks) (name : String) :
    h.has sc name = (resolve .now blocks name).isSome := by
  have iff := lookupOwner_none_iff m name
  simp only [Scopes.has]
  cases found : h.lookupOwner sc name <;> cases res : resolve .now blocks name <;> simp_all

/-! ## Scopes that stay as they are -/

/-- Every scope of the first table is unchanged in the second. -/
structure Kept (h h' : Scopes) : Prop where
  length : h.length ≤ h'.length
  record : ∀ i, i < h.length → h'.record i = h.record i

theorem Kept.refl (h : Scopes) : Kept h h := ⟨Nat.le_refl _, fun _ _ => rfl⟩

theorem Kept.trans {a b c : Scopes} (ab : Kept a b) (bc : Kept b c) : Kept a c where
  length := Nat.le_trans ab.length bc.length
  record i hi := (bc.record i (Nat.lt_of_lt_of_le hi ab.length)).trans (ab.record i hi)

/-- What checking an expression leaves as it is: the scopes made before, and the
    function and closure the checker is in. -/
structure Quiet (st st' : CheckState) : Prop where
  scopes : Kept st.scopes st'.scopes
  currentReturn : st'.currentReturn = st.currentReturn
  currentFunction : st'.currentFunction = st.currentFunction
  currentLambda : st'.currentLambda = st.currentLambda

theorem Quiet.refl (st : CheckState) : Quiet st st := ⟨.refl _, rfl, rfl, rfl⟩

theorem Quiet.trans {a b c : CheckState} (ab : Quiet a b) (bc : Quiet b c) : Quiet a c where
  scopes := ab.scopes.trans bc.scopes
  currentReturn := bc.currentReturn.trans ab.currentReturn
  currentFunction := bc.currentFunction.trans ab.currentFunction
  currentLambda := bc.currentLambda.trans ab.currentLambda

variable {h' : Scopes}

theorem matches_congr (same : ∀ i ∈ sc, h'.record i = h.record i) (m : Matches stage h sc blocks) :
    Matches stage h' sc blocks := by
  induction m with
  | nil => exact .nil
  | cons here _ ih =>
    refine .cons ?_ (ih fun i hi => same i (mem_cons_of_mem _ hi))
    rw [same _ mem_cons_self]
    exact here

theorem tagged_congr (same : ∀ i ∈ sc, (h'.record i).lambda = (h.record i).lambda)
    (m : Tagged tag h sc blocks) : Tagged tag h' sc blocks := by
  induction m with
  | nil => exact .nil
  | cons here _ ih =>
    refine .cons ?_ (ih fun i hi => same i (mem_cons_of_mem _ hi))
    rw [same _ mem_cons_self]
    exact here

theorem Tagged.agree {tag tag' : Nat → Option FunctionRef} (m : Tagged tag h sc blocks)
    (agree : ∀ f ∈ blocks, tag' f.level = tag f.level) : Tagged tag' h sc blocks := by
  induction m with
  | nil => exact .nil
  | cons here _ ih =>
    exact .cons (here.trans (agree _ mem_cons_self).symm)
      (ih fun f hf => agree f (mem_cons_of_mem _ hf))

variable {st' : CheckState}

theorem At.of_kept (place : At tag st sc blocks) (kept : Kept st.scopes st'.scopes)
    (current : st'.currentLambda = st.currentLambda) : At tag st' sc blocks where
  names := matches_congr (fun i hi => kept.record i (place.bound i hi)) place.names
  tags := tagged_congr (fun i hi => by rw [kept.record i (place.bound i hi)]) place.tags
  bound i hi := Nat.lt_of_lt_of_le (place.bound i hi) kept.length
  distinct := place.distinct
  levels := place.levels
  injective := place.injective
  outermost := place.outermost
  closures := place.closures
  current := current.trans place.current

theorem At.of_quiet (place : At tag st sc blocks) (quiet : Quiet st st') : At tag st' sc blocks :=
  place.of_kept quiet.scopes quiet.currentLambda

/-- The scopes opened since there were `opened` of them are final: the table the whole
    check ends with has them as they are now. -/
def Final (opened : Nat) (h hf : Scopes) : Prop :=
  ∀ i, opened ≤ i → i < h.length → hf.record i = h.record i

variable {hf : Scopes}

theorem Final.of_kept {opened : Nat} (kept : Kept h h') (final : Final opened h' hf) :
    Final opened h hf := fun i new hi =>
  (final i new (Nat.lt_of_lt_of_le hi kept.length)).trans (kept.record i hi)

theorem Final.mono {opened opened' : Nat} (final : Final opened h hf) (le : opened ≤ opened') :
    Final opened' h hf :=
  fun i new => final i (Nat.le_trans le new)

/-! ## Opening and filling scopes -/

variable {i : Nat}

variable {r : ScopeRecord}

@[simp] theorem record_append_left (hi : i < h.length) :
    Scopes.record (h ++ [r]) i = h.record i := by
  simp [Scopes.record, getElem?_append_left hi]

@[simp] theorem record_append_self :
    Scopes.record (h ++ [r]) h.length = r := by
  simp [Scopes.record]

theorem kept_append (h : Scopes) (r : ScopeRecord) : Kept h (h ++ [r]) :=
  ⟨by simp, fun _ hi => record_append_left hi⟩

theorem record_modify {i j : Nat} {f : ScopeRecord → ScopeRecord} (hi : i < h.length) :
    Scopes.record (h.modify i f) j = if i = j then f (h.record i) else h.record j := by
  unfold Scopes.record
  rw [getElem?_modify]
  by_cases same : i = j
  · subst same
    simp [getElem?_eq_getElem hi]
  · simp [same]

@[simp] theorem length_update (h : Scopes) (sc : ScopeRef) (f : ScopeRecord → ScopeRecord) :
    (h.update sc f).length = h.length := by
  cases sc <;> simp [Scopes.update]

@[simp] theorem length_define (h : Scopes) (sc : ScopeRef) (name : String) (b : Binding) :
    (h.define sc name b).length = h.length := by
  simp [Scopes.define]

/-- Only the innermost scope of a path is filled: the other scopes stay as they are. -/
structure Filling (sc : ScopeRef) (h h' : Scopes) : Prop where
  length : h.length ≤ h'.length
  record : ∀ i, i < h.length → sc.head? ≠ some i → h'.record i = h.record i
  lambda : ∀ i, i < h.length → (h'.record i).lambda = (h.record i).lambda

theorem Kept.filling (kept : Kept h h') : Filling sc h h' where
  length := kept.length
  record i hi _ := kept.record i hi
  lambda i hi := by rw [kept.record i hi]

theorem Filling.trans {a b c : Scopes} (ab : Filling sc a b) (bc : Filling sc b c) :
    Filling sc a c where
  length := Nat.le_trans ab.length bc.length
  record i hi other :=
    (bc.record i (Nat.lt_of_lt_of_le hi ab.length) other).trans (ab.record i hi other)
  lambda i hi := (bc.lambda i (Nat.lt_of_lt_of_le hi ab.length)).trans (ab.lambda i hi)

theorem Final.of_filling {opened : Nat} (fill : Filling sc h h') (old : ∀ i ∈ sc, i < opened)
    (final : Final opened h' hf) :
    Final opened h hf := by
  intro i new hi
  have other : sc.head? ≠ some i := fun same =>
    absurd (old i (mem_of_mem_head? same)) (Nat.not_lt_of_le new)
  rw [final i new (Nat.lt_of_lt_of_le hi fill.length), fill.record i hi other]

theorem Filling.kept {base : Scopes} (before : Kept base h) (fill : Filling (i :: sc) h h')
    (fresh : base.length ≤ i) :
    Kept base h' where
  length := Nat.le_trans before.length fill.length
  record j hj := (fill.record j (Nat.lt_of_lt_of_le hj before.length) (by
    simp only [head?_cons, ne_eq, Option.some.injEq]
    omega)).trans (before.record j hj)

theorem filling_define {h : Scopes} {i : Nat} {sc : ScopeRef} (hi : i < h.length) (name : String)
    (b : Binding) : Filling (i :: sc) h (h.define (i :: sc) name b) where
  length := by simp
  record j _ other := by
    have : i ≠ j := fun same => other (by simp [same])
    simp [Scopes.define, Scopes.update, record_modify hi, this]
  lambda j _ := by
    simp only [Scopes.define, Scopes.update, record_modify hi]
    split
    · rename_i same
      rw [same]
    · rfl

theorem decls_define {h : Scopes} {i : Nat} {sc : ScopeRef} (hi : i < h.length) (name : String)
    (b : Binding) :
    ((h.define (i :: sc) name b).record i).decls = (name, b.decl) :: (h.record i).decls := by
  simp [Scopes.define, Scopes.update, record_modify hi, ScopeRecord.decls]

theorem At.of_filling {f : Frame String Decl} (place : At tag st (i :: sc) (f :: blocks))
    (fill : Filling (i :: sc) st.scopes st'.scopes)
    (current : st'.currentLambda = st.currentLambda) :
    At tag st' (i :: sc) ({ f with now := (st'.scopes.record i).decls } :: blocks) := by
  have outside : ∀ j ∈ sc, st'.scopes.record j = st.scopes.record j := by
    intro j hj
    refine fill.record j (place.bound j (mem_cons_of_mem i hj)) ?_
    have : i ≠ j := fun same => (nodup_cons.mp place.distinct).1 (same ▸ hj)
    simpa using this
  refine ⟨?_, ?_, fun j hj => Nat.lt_of_lt_of_le (place.bound j hj) fill.length, place.distinct, ?_,
    place.injective, place.outermost, place.closures, current.trans place.current⟩
  · cases place.names with
    | cons _ below => exact .cons rfl (matches_congr outside below)
  · have tags := tagged_congr (fun j hj => fill.lambda j (place.bound j hj)) place.tags
    cases tags with
    | cons here below => exact .cons here below
  · intro g hg
    rcases mem_cons.mp hg with rfl | hg
    · exact Nat.le_refl _
    · exact place.levels g (mem_cons_of_mem f hg)

/-- The checker in a scope it has just opened, in a block of the same closure or in a
    new closure. -/
theorem At.enter {tag tag' : Nat → Option FunctionRef} (place : At tag st sc blocks)
    (kept : Kept st.scopes st'.scopes) (fresh : st.scopes.length ≤ i)
    (bound : i < st'.scopes.length) (f : Frame String Decl)
    (names : (st'.scopes.record i).decls = f.now)
    (tags : (st'.scopes.record i).lambda = tag' f.level) (level : blocks.level ≤ f.level)
    (agree : ∀ a, a ≤ blocks.level → tag' a = tag a)
    (injective : ∀ a b, a ≤ f.level → b ≤ f.level → tag' a = tag' b → a = b)
    (closures : ∀ a, 0 < a → a ≤ f.level →
      ∃ p, tag' a = some (.closure p) ∧ p.length ≤ (i :: sc).length)
    (current : st'.currentLambda = tag' f.level) : At tag' st' (i :: sc) (f :: blocks) where
  names := .cons names (matches_congr (fun j hj => kept.record j (place.bound j hj)) place.names)
  tags := by
    refine .cons tags ?_
    have below := tagged_congr (fun j hj => by rw [kept.record j (place.bound j hj)]) place.tags
    exact below.agree fun g hg => agree g.level (place.levels g hg)
  bound j hj := by
    rcases mem_cons.mp hj with rfl | hj
    · exact bound
    · exact Nat.lt_of_lt_of_le (place.bound j hj) kept.length
  distinct := nodup_cons.mpr ⟨fun mem => absurd (place.bound i mem) (by omega), place.distinct⟩
  levels g hg := by
    rcases mem_cons.mp hg with rfl | hg
    · exact Nat.le_refl _
    · exact Nat.le_trans (place.levels g hg) level
  injective := injective
  outermost := (agree 0 (Nat.zero_le _)).trans place.outermost
  closures := closures
  current := current

end Kryndel
