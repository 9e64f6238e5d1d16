import Kryndel.Checker.Coverage
import Kryndel.Checker.Records
import Mathlib.Data.List.Forall2

/-!
# The records of expressions

What the checker does to an expression, for each of its ways: a typing rule over the
subexpressions, a variable, a closure. Each is a composition of runs on parts, and
the outcome of the whole is put together from the outcomes of the parts.
-/

namespace Kryndel

open Lexical List

/-! ## Rules -/

section Rules

variable {self : Checking} (sc : ScopeRef)

/-- The subexpression at a position has its type. -/
def TypedAt (children : List Expr) (i : Nat) : Prop :=
  ∃ e, children[i]? = some e ∧ e.type.isSome = true

/-- What running a rule on a node's subexpressions does, if it ends without error. -/
structure RuleOutcome {α : Type} (st : CheckState) (rule : Rule α) (children : List Expr)
    (ref : Resolution) (r : α × List Expr × Resolution) (st' : CheckState) : Prop where
  step : Step st st'
  revised : List.Forall₂ Revised children r.2.1
  holds : ∀ tag hf c, Standing tag hf st sc c st'.scopes →
    (∀ e ∈ children, Holds hf st.captures c e.skel) →
      (∀ e ∈ r.2.1, Holds hf st'.captures c e.skel) ∧
        Grown c.level (fun read => ∃ e ∈ children, Reads c e.skel read) st.captures st'.captures
  always : ∀ tag c, At tag st sc c → ∀ P seen,
    rule.Always (fun name => (resolve .now c name).isSome) P seen ref →
      (∀ i ∈ seen, TypedAt children i) →
        ∃ seen', P seen' r.2.2 r.1 ∧ ∀ i ∈ seen', TypedAt r.2.1 i

theorem forall₂_revised_refl (children : List Expr) : List.Forall₂ Revised children children := by
  induction children with
  | nil => exact .nil
  | cons e es ih => exact .cons (.refl e) ih

theorem forall₂_revised_trans {as bs cs : List Expr} (ab : List.Forall₂ Revised as bs)
    (bc : List.Forall₂ Revised bs cs) : List.Forall₂ Revised as cs := by
  induction ab generalizing cs with
  | nil => exact bc
  | cons ab _ ih =>
    cases bc with
    | cons bc rest => exact .cons (ab.trans bc) (ih rest)

variable {children : List Expr}

theorem forall₂_revised_set {i : Nat} {e e' : Expr} (found : children[i]? = some e)
    (revised : Revised e e') :
    List.Forall₂ Revised children (children.set i e') := by
  induction children generalizing i with
  | nil => simp at found
  | cons x xs ih =>
    cases i with
    | zero =>
      obtain rfl : x = e := by simpa using found
      exact .cons revised (forall₂_revised_refl xs)
    | succ i => exact .cons (.refl x) (ih (by simpa using found))

variable {children' : List Expr}

variable {r : Nat × String × Decl}

theorem reads_of_revised {c : Blocks} (revised : List.Forall₂ Revised children children')
    (h : ∃ e ∈ children', Reads c e.skel r) :
    ∃ e ∈ children, Reads c e.skel r := by
  obtain ⟨e', mem, read⟩ := h
  induction revised with
  | nil => simp at mem
  | @cons e _ es _ same _ ih =>
    rcases mem_cons.mp mem with rfl | mem
    · exact ⟨e, mem_cons_self, (reads_congr same.outline).mp read⟩
    · obtain ⟨x, mem, read⟩ := ih mem
      exact ⟨x, mem_cons_of_mem _ mem, read⟩

variable {e : Expr}

theorem TypedAt.set {i j : Nat} (h : TypedAt children j) (typed : e.type.isSome = true) :
    TypedAt (children.set i e) j := by
  obtain ⟨x, found, done⟩ := h
  by_cases same : i = j
  · subst same
    have inside : i < children.length := (List.getElem?_eq_some_iff.mp found).1
    exact ⟨e, by simp [inside], typed⟩
  · exact ⟨x, by simpa [getElem?_set, same] using found, done⟩

theorem runRule_outcome (exprs : ExprSpec self.expr) {α : Type} (rule : Rule α)
    (children : List Expr) (ref : Resolution)
    (st : CheckState) (ok : (runRule self sc rule children ref st).2.err = none) :
    RuleOutcome sc st rule children ref (runRule self sc rule children ref st).1
      (runRule self sc rule children ref st).2 := by
  induction rule generalizing children ref st with
  | pure a =>
    exact {
      step := .refl ok
      revised := forall₂_revised_refl children
      holds := fun _ _ _ _ h => ⟨h, .refl⟩
      always := fun _ _ _ P seen h typed => ⟨seen, h, typed⟩ }
  | child i expected next ih =>
    cases found : children[i]? with
    | none =>
      -- a rule that names no subexpression has set the error
      simp only [runRule, found] at ok
      have := (ih (.error default) children ref _ ok).step.err
      simp at this
    | some e =>
      have run : runRule self sc (.child i expected next) children ref st =
          runRule self sc (next (self.expr sc e expected st).1.2)
            (children.set i (self.expr sc e expected st).1.1) ref (self.expr sc e expected st).2 := by
        simp only [runRule, found]
        rfl
      rw [run] at ok ⊢
      have rest := ih _ _ ref _ ok
      have here := exprs sc e expected st rest.step.err
      generalize self.expr sc e expected st = mid at here rest ⊢
      have revisedHere := forall₂_revised_set found here.revised
      have mem : e ∈ children := mem_of_getElem? found
      refine ⟨here.step.trans rest.step, forall₂_revised_trans revisedHere rest.revised, ?_, ?_⟩
      · intro tag hf c standing holds
        obtain ⟨holdsHere, grownHere⟩ :=
          here.holds tag hf c (standing.before rest.step.quiet.scopes) (holds e mem)
        obtain ⟨holdsRest, grownRest⟩ := rest.holds tag hf c (standing.later here.step.quiet)
          fun x hx => by
            rcases mem_or_eq_of_mem_set hx with old | rfl
            · exact (holds x old).mono here.step.captures
            · exact holdsHere
        refine ⟨holdsRest, (grownHere.mono fun r read => ⟨e, mem, read⟩).trans
          (grownRest.mono fun r read => reads_of_revised revisedHere read)⟩
      · intro tag c place P seen always typed
        have typedAfter : e.type.isSome = true → ∀ j ∈ seen,
            TypedAt (children.set i mid.1.1) j :=
          fun done j hj => (typed j hj).set (here.revised.typed done)
        have after := rest.always tag c (place.of_quiet here.step.quiet) P
        cases result : mid.1.2 with
        | ok t =>
          rw [result] at after
          refine after (i :: seen) (always.2 t) fun j hj => ?_
          have typedHere := here.typed t result
          rcases mem_cons.mp hj with rfl | hj
          · have inside : j < children.length := (List.getElem?_eq_some_iff.mp found).1
            exact ⟨_, by simp [inside], typedHere⟩
          · exact (typed j hj).set typedHere
        | error d =>
          rw [result] at after
          refine after seen (always.1 d) fun j hj => ?_
          obtain ⟨x, foundJ, done⟩ := typed j hj
          by_cases same : i = j
          · subst same
            obtain rfl : e = x := by simpa [found] using foundJ
            exact typedAfter done i hj
          · exact ⟨x, by simpa [getElem?_set, same] using foundJ, done⟩
  | getTypeParams next ih =>
    have h := ih st.typeParams children ref st ok
    exact ⟨h.step, h.revised, h.holds,
      fun tag c place P seen always => h.always tag c place P seen (always _)⟩
  | setTypeParams ps next ih =>
    have h := ih children ref { st with typeParams := ps } ok
    have quiet : Quiet st { st with typeParams := ps } := ⟨.refl _, rfl, rfl, rfl⟩
    exact ⟨⟨h.step.err, quiet.trans h.step.quiet, h.step.captures⟩, h.revised,
      fun tag hf c standing => h.holds tag hf c (standing.later quiet),
      fun tag c place => h.always tag c (place.of_quiet quiet)⟩
  | annotate f next ih =>
    have h := ih children (f ref) st ok
    exact ⟨h.step, h.revised, h.holds, h.always⟩
  | view next ih =>
    have h := ih _ children ref st ok
    refine ⟨h.step, h.revised, h.holds, fun tag c place P seen always => ?_⟩
    refine h.always tag c place P seen (always _ ?_)
    funext name
    exact has_iff place.names name

theorem revised_length (revised : List.Forall₂ Revised children children') :
    children'.length = children.length :=
  revised.length_eq.symm

theorem revised_outlines (revised : List.Forall₂ Revised children children') :
    (children'.map Expr.skel).map Skel.erase = (children.map Expr.skel).map Skel.erase := by
  induction revised with
  | nil => rfl
  | cons same _ ih => simp_all [same.outline]

theorem revised_dead (revised : List.Forall₂ Revised children children') :
    children'.flatMap Expr.dead = children.flatMap Expr.dead := by
  induction revised with
  | nil => rfl
  | cons same _ ih => simp_all [same.dead]

theorem reads_wrap {c : Blocks} {done direct : Bool} {parts : List Sketch}
    (same : parts.length = e.children.length) {p : Sketch} (mem : p ∈ parts) (read : Reads c p r) :
    Reads c (e.wrap done direct parts) r := by
  rw [reads_iff] at read ⊢
  intro none
  exact read (((Expr.everywhere_wrap same).mp none).2 p mem)

variable {has : String → Bool}

theorem typingRule_records {env : CheckEnv} (e : Expr) (expected : Option Ty) (seen : List Nat) :
    (typingRule env e expected).Always has (fun _ ref' _ => ∀ i callee args ref,
      e = .call i callee args ref → ref'.function.isSome = true →
        ref.function.isSome = true ∨ e.callsByName has = true) seen e.resolution := by
  cases e with
  | call i callee args ref =>
    refine (callRule_records i callee args ref expected seen).mono ?_
    rintro _ ref' _ h j callee' args' ref₀ eq
    cases eq
    exact h
  | _ => exact Rule.always_of_forall (fun _ _ _ _ _ _ _ eq => nomatch eq) _ _ _

theorem use_of_outline {name : String} {s : Sketch} (outline : s.erase = .use name ()) :
    ∃ m, s = .use name m := by
  cases s with
  | use name' m =>
    obtain rfl : name' = name := by simpa [Skel.erase] using outline
    exact ⟨m, rfl⟩
  | _ => simp [Skel.erase] at outline

theorem visited_of_outline {c : Blocks} {name : String} {s : Sketch}
    (outline : s.erase = .use name ()) (unbound : resolve .now c name = none) :
    Everywhere Visited c s := by
  obtain ⟨m, rfl⟩ := use_of_outline outline
  simp [Visited, unbound]

theorem callee_of_callsByName (byName : e.callsByName has = true) :
    ∃ i j name ref' args ref, e = .call i (.var j name ref') args ref ∧ has name = false := by
  unfold Expr.callsByName at byName
  split at byName
  · exact ⟨_, _, _, _, _, _, rfl, by simpa using byName⟩
  · cases byName

theorem children_visited {hf : Scopes} {c : Blocks}
    (revised : List.Forall₂ Revised e.children children)
    (sound : ∀ x ∈ children, Everywhere (Sound hf) c x.skel)
    (needed : ∀ i ∈ e.needs fun name => (resolve .now c name).isSome, TypedAt children i) :
    ∀ x ∈ children, Everywhere Visited c x.skel := by
  intro x mem
  obtain ⟨i, inside, rfl⟩ := getElem_of_mem mem
  have length := revised_length revised
  have typed (h : i ∈ e.needs fun name => (resolve .now c name).isSome) :
      Everywhere Visited c children[i].skel := by
    obtain ⟨x, found, done⟩ := needed i h
    obtain rfl : children[i] = x := by simpa [inside] using found
    exact visited_of_typed (sound _ mem) done
  cases byName : e.callsByName fun name => (resolve .now c name).isSome with
  | false =>
    exact typed (by simp [Expr.needs, byName]; omega)
  | true =>
    cases i with
    | succ i => exact typed (by simp [Expr.needs, byName]; omega)
    | zero =>
      -- the callee is the name of a function
      obtain ⟨i, j, name, ref', args, ref, rfl, unbound⟩ := callee_of_callsByName byName
      have unbound : resolve .now c name = none := by simpa using unbound
      cases revised with
      | cons same _ => exact visited_of_outline (by simpa [Expr.skel, Skel.erase] using same.outline) unbound

/-- What a run of a node's rule leaves, put together with other common fields. There
    is a type among these if the rule succeeded. -/
theorem rebuild_outcome {env : CheckEnv} (builtins : BuiltinsCheckArguments env)
    (compound : e.isCompound = true) (untyped : e.type = none) {expected : Option Ty}
    {st st' : CheckState} {r : Typed × List Expr × Resolution}
    (h : RuleOutcome sc st (typingRule env e expected) e.children e.resolution r st') (i : ExprInfo)
    (typed : i.type.isSome = true ↔ ∃ t, r.1 = .ok t) :
    ExprOutcome sc st e (e.rebuild r.2.1 r.2.2 i, r.1) st' := by
  have length := revised_length h.revised
  have skelAfter := e.rebuild_skel compound length r.2.2 i
  have skelBefore := e.skel_eq_wrap compound
  have parts : (e.children.map Expr.skel).length = e.children.length := by simp
  have parts' : (r.2.1.map Expr.skel).length = e.children.length := by simp [length]
  have outline : (e.rebuild r.2.1 r.2.2 i).skel.erase = e.skel.erase := by
    rw [skelAfter, skelBefore]
    exact Expr.wrap_erase parts (revised_outlines h.revised)
  refine ⟨h.step, ⟨outline, ?_, ?_⟩, ?_, ?_⟩
  · rw [e.rebuild_dead compound length, e.dead_eq compound]
    exact revised_dead h.revised
  · simp [untyped]
  · intro t ok
    have : i.type.isSome = true := typed.mpr ⟨t, ok⟩
    simpa [Expr.rebuild, Expr.type] using this
  · intro tag hf c standing holds
    rw [skelBefore] at holds
    have below : ∀ x ∈ e.children, Holds hf st.captures c x.skel := fun x mem =>
      ⟨((Expr.everywhere_wrap parts).mp holds.sound).2 _ (mem_map_of_mem mem),
        ((Expr.everywhere_wrap parts).mp holds.recorded).2 _ (mem_map_of_mem mem)⟩
    obtain ⟨after, grown⟩ := h.holds tag hf c standing below
    refine ⟨⟨?_, ?_⟩, grown.mono ?_⟩
    · show Everywhere (Sound hf) c (e.rebuild r.2.1 r.2.2 i).skel
      rw [skelAfter, Expr.everywhere_wrap parts', forall_mem_map]
      refine ⟨?_, fun x mem => (after x mem).sound⟩
      -- the node itself: what is done is complete
      obtain ⟨seen, ⟨⟨-, needed⟩, records⟩, typedAfter⟩ := h.always tag c standing.place _ []
        ((typingRule_covers builtins e expected [] e.resolution (nil_subset _)).and
          (typingRule_records e expected [])) (by simp)
      have complete (done : i.type.isSome = true) :
          ∀ x ∈ r.2.1, Everywhere Visited c x.skel := by
        obtain ⟨t, ok⟩ := typed.mp done
        refine children_visited h.revised (fun x mem => (after x mem).sound) fun j hj => ?_
        exact typedAfter j (needed (by simpa [ok] using hj))
      rcases e.wrap_cases i.type.isSome r.2.2.function.isSome parts' with
        eq | ⟨j, callee, args, ref, callee', args', rfl, eqParts, eq⟩
      · rw [eq]
        exact fun done => forall_mem_map.mpr (complete done)
      · rw [eq]
        obtain ⟨x, xs, eqChildren, rfl, rfl⟩ := map_eq_cons_iff.mp eqParts
        rw [eqChildren] at complete
        refine ⟨fun done => ⟨complete done x mem_cons_self, forall_mem_map.mpr
          fun y mem => complete done y (mem_cons_of_mem _ mem)⟩, fun direct => ?_⟩
        have revised : List.Forall₂ Revised (callee :: args) (x :: xs) := eqChildren ▸ h.revised
        have same : x.skel.erase = callee.skel.erase := by
          cases revised with
          | cons same _ => exact same.outline
        have named : ∃ name, callee.skel.erase = .use name () ∧ resolve .now c name = none := by
          rcases records j callee args ref rfl direct with before | byName
          · have sound := ((Expr.everywhere_wrap parts).mp holds.sound).1
            obtain ⟨name, m, eqCallee, unbound⟩ := sound.2 before
            exact ⟨name, by rw [show callee.skel = .use name m from eqCallee]; rfl, unbound⟩
          · obtain ⟨_, k, name, ref', _, _, eqCall, unbound⟩ := callee_of_callsByName byName
            cases eqCall
            exact ⟨name, rfl, by simpa using unbound⟩
        obtain ⟨name, outlined, unbound⟩ := named
        obtain ⟨m, eqUse⟩ := use_of_outline (same.trans outlined)
        exact ⟨name, m, eqUse, unbound⟩
    · show Everywhere (Recorded _ _) c (e.rebuild r.2.1 r.2.2 i).skel
      rw [skelAfter, Expr.everywhere_wrap parts', forall_mem_map]
      refine ⟨?_, fun x mem => (after x mem).recorded⟩
      intro _
      rcases e.wrap_cases i.type.isSome r.2.2.function.isSome parts' with
        eq | ⟨_, _, _, _, _, _, -, -, eq⟩
      all_goals rw [eq]; trivial
    · rintro read ⟨x, mem, reads⟩
      rw [skelBefore]
      exact reads_wrap parts (mem_map_of_mem mem) reads

end Rules

/-! ## Variables -/

section Variables

variable {tag : Nat → Option FunctionRef} {hf : Scopes} {st : CheckState} {sc : ScopeRef}
  {c : Blocks}

variable {name : String}

theorem At.owner (place : At tag st sc c) {b : Binding} {owner : ScopeRef}
    (found : st.scopes.lookupOwner sc name = some (b, owner)) :
    ∃ level, resolve .now c name = some (level, b.decl) ∧
      (st.scopes.top owner).lambda = tag level ∧ level ≤ c.level := by
  cases res : resolve .now c name with
  | none =>
    rw [(lookupOwner_none_iff place.names name).mpr res] at found
    cases found
  | some p =>
    obtain ⟨level, d⟩ := p
    obtain ⟨b', owner', found', rfl, lambda, f, mem, rfl⟩ :=
      resolve_some_owner place.names place.tags res
    rw [found] at found'
    cases found'
    exact ⟨f.level, rfl, lambda, place.levels f mem⟩

theorem At.captures_iff (place : At tag st sc c) {owner : ScopeRef} {level : Nat}
    (lambda : (st.scopes.top owner).lambda = tag level) (inside : level ≤ c.level) :
    capturing st sc owner = true ↔ level < c.level := by
  unfold capturing
  rw [place.lambda, lambda, place.current]
  constructor
  · intro h
    have different : tag level ≠ tag c.level := by
      simp only [Bool.and_eq_true, bne_iff_ne] at h
      exact h.1.2
    exact Nat.lt_of_le_of_ne inside fun same => different (by rw [same])
  · intro out
    obtain ⟨p, current, -⟩ := place.closures c.level (by omega) (Nat.le_refl _)
    have different : tag level ≠ some (.closure p) := fun same =>
      absurd (place.injective level c.level inside (Nat.le_refl _) (same.trans current.symm)) (by omega)
    simp [current, different]

variable {info : ExprInfo} {ref : Resolution}

theorem checkVar_outcome {b : Binding} {owner : ScopeRef} (untyped : info.type = none)
    (err : st.err = none) (found : st.scopes.lookupOwner sc name = some (b, owner)) (i : ExprInfo)
    (t : Typed) (typed : i.type.isSome = true ↔ ∃ ty, t = .ok ty) :
    ExprOutcome sc st (.var info name ref)
      (.var i name { ref with scope := some sc, definition := some b.token }, t)
      { st with
        captures := if capturing st sc owner then addCapture st.captures
            { name := name, type := b.type, mutable := b.mutable, token := b.token }
          else st.captures } := by
  have quiet : Quiet st { st with
      captures := if capturing st sc owner then addCapture st.captures
          { name := name, type := b.type, mutable := b.mutable, token := b.token }
        else st.captures } := ⟨.refl _, rfl, rfl, rfl⟩
  refine ⟨⟨err, quiet, ?_⟩, ⟨rfl, rfl, by simp [Expr.type, Expr.info, untyped]⟩, ?_, ?_⟩
  · intro key mem
    split
    · exact mem_keys_addCapture.mpr (Or.inl mem)
    · exact mem
  · exact fun ty ok => typed.mpr ⟨ty, ok⟩
  · intro tag hf c standing holds
    obtain ⟨level, res, lambda, inside⟩ := standing.place.owner found
    have capture := standing.place.captures_iff lambda inside
    have reads : Reads c (Expr.var info name ref).skel (level, name, b.decl) :=
      ⟨(c, .use name (ref.mark info)), by simp [Expr.skel, subs], by simp [readOf, res]⟩
    refine ⟨⟨?_, ?_⟩, ?_⟩
    · have before := everywhere_use.mp holds.sound
      refine everywhere_use.mpr ⟨fun _ => ?_, fun _ => rfl, before.2.2⟩
      simp only [RefRight, res]
      exact ⟨rfl, sc, rfl, standing.blocks.lookup name⟩
    · refine everywhere_use.mpr fun here _ r read out => ?_
      obtain rfl : (level, name, b.decl) = r := by simpa [readOf, res] using read
      have outside : capturing st sc owner = true := capture.mpr (here ▸ out)
      simp only [outside, if_true]
      exact mem_keys_addCapture.mpr (Or.inr rfl)
    · intro key mem
      split at mem
      · rename_i outside
        rcases mem_keys_addCapture.mp mem with old | rfl
        · exact Or.inl old
        · exact Or.inr ⟨_, reads, capture.mp outside, rfl⟩
      · exact Or.inl mem

theorem functionName_outcome {env : CheckEnv} {tok : Token} {expected : Option Ty}
    {st' : CheckState} {r : Typed × List Expr × Resolution} (untyped : info.type = none)
    (unbound : st.scopes.lookupOwner sc name = none)
    (h : RuleOutcome sc st (functionValueRule env.toTypeEnv tok name expected) []
      { ref with scope := some sc } r st') (i : ExprInfo)
    (typed : i.type.isSome = true ↔ ∃ ty, r.1 = .ok ty) :
    ExprOutcome sc st (.var info name ref) (.var i name r.2.2, r.1) st' := by
  refine ⟨h.step, ⟨rfl, rfl, by simp [Expr.type, Expr.info, untyped]⟩,
    fun ty ok => typed.mpr ⟨ty, ok⟩, ?_⟩
  intro tag hf c standing holds
  have res : resolve .now c name = none :=
    (lookupOwner_none_iff standing.place.names name).mp unbound
  obtain ⟨sound, -⟩ := everywhere_use.mp holds.sound
  have before : ref.definition.isSome = true → ref.function.isSome = true := by
    intro h
    have right := sound h
    simp only [RefRight, res] at right
    exact right
  obtain ⟨_, ⟨recorded, done⟩, -⟩ := h.always tag c standing.place _ []
    (functionValueRule_records env.toTypeEnv tok name expected [] _ before) (by simp)
  refine ⟨⟨everywhere_use.mpr ⟨fun h => ?_, fun h => ?_, fun _ => res⟩, ?_⟩, ?_⟩
  · simp only [RefRight, res]
    exact recorded h
  · obtain ⟨ty, ok⟩ := typed.mp h
    exact done ty ok
  · exact everywhere_use.mpr fun _ _ r read => by simp [readOf, res] at read
  · exact (h.holds tag hf c standing (by simp)).2.mono (by simp)

theorem typedVar_outcome {t : Ty} (typed : info.type = some t) (err : st.err = none) :
    ExprOutcome sc st (.var info name ref) (.var info name { ref with scope := some sc }, .ok t) st := by
  refine ⟨.refl err, ⟨rfl, rfl, fun h => h⟩, fun _ _ => ?_, ?_⟩
  · simp [Expr.type, Expr.info, typed]
  · intro tag hf c standing holds
    refine ⟨⟨everywhere_use.mpr ?_, everywhere_use.mpr fun here found r read out =>
      everywhere_use.mp holds.recorded here found r read out⟩, .refl⟩
    have before := everywhere_use.mp holds.sound
    refine ⟨fun h => ?_, before.2⟩
    have right := before.1 h
    unfold RefRight at right ⊢
    split
    · rename_i res
      rw [res] at right
      exact right
    · rename_i d res
      rw [res] at right
      exact ⟨right.1, sc, rfl, standing.blocks.lookup name⟩

end Variables

/-! ## Closures -/

section Closures

variable {self : Checking} {tag : Nat → Option FunctionRef} {hf : Scopes} {st : CheckState}
  {sc : ScopeRef} {c : Blocks}

theorem resolveSpecs_length {env : TypeEnv} {typeParams : TypeParams} {depth : Nat}
    {specs : List TypeSpec} {ts : List Ty} (h : resolveSpecs env typeParams depth specs = .ok ts) :
    ts.length = specs.length := by
  induction specs generalizing ts with
  | nil =>
    cases h
    rfl
  | cons s ss ih =>
    obtain ⟨t, -, h⟩ := bind_eq_ok h
    obtain ⟨rest, tail, h⟩ := bind_eq_ok h
    cases h
    simp [ih tail]

variable {sig : FunctionSig} {ret : Ty}

theorem closureType_length {env : CheckEnv} {typeParams : TypeParams} {tok : Token}
    {expected : Option Ty} {params : List Ty}
    (h : closureType env typeParams tok sig expected = .ok (params, ret)) :
    params.length = sig.params.length := by
  have ofSpecs {f : List Ty → Except Diagnostic (List Ty × Ty)}
      (h : (resolveSpecs env.toTypeEnv typeParams 0 (sig.params.map (·.type)) >>= f) =
        .ok (params, ret)) (same : ∀ ts r, f ts = .ok r → r.1 = ts) :
      params.length = sig.params.length := by
    obtain ⟨ts, specs, h⟩ := bind_eq_ok h
    rw [show params = ts from same ts _ h]
    simpa using resolveSpecs_length specs
  unfold closureType at h
  split at h
  · refine ofSpecs h fun ts r h => ?_
    obtain ⟨t, -, h⟩ := bind_eq_ok h
    split at h
    · cases h
      rfl
    · cases h
  · refine ofSpecs h fun ts r h => ?_
    obtain ⟨t, -, h⟩ := bind_eq_ok h
    split at h
    · cases h
      rfl
    · cases h
  · cases h

/-- What binding a closure's parameters does to the scopes. -/
structure ParamsOutcome (i : Nat) (sc : ScopeRef) (st : CheckState) (params : List ParamSig)
    (r : Option Diagnostic) (st' : CheckState) : Prop where
  busy : Busy (i :: sc) st st'
  err : st'.err = st.err
  captures : st'.captures = st.captures
  decls : r = none →
    (st'.scopes.record i).decls = paramDecls (st.scopes.record i).decls params

theorem bindClosureParams_outcome {i : Nat} (inside : i < st.scopes.length)
    (params : List (ParamSig × Ty)) :
    ParamsOutcome i sc st (params.map (·.1)) (bindClosureParams (i :: sc) params st).1
      (bindClosureParams (i :: sc) params st).2 := by
  induction params generalizing st with
  | nil => exact ⟨(Quiet.refl st).busy, rfl, rfl, fun _ => rfl⟩
  | cons p rest ih =>
    obtain ⟨p, t⟩ := p
    cases duplicated : st.scopes.isLocal (i :: sc) p.name with
    | true =>
      simp only [bindClosureParams, CheckM.bind_run, CheckM.get_run, duplicated, if_true,
        CheckM.pure_run]
      exact ⟨(Quiet.refl st).busy, rfl, rfl, fun h => by cases h⟩
    | false =>
      simp only [bindClosureParams, CheckM.bind_run, CheckM.get_run, duplicated, Bool.false_eq_true,
        if_false, declare, CheckM.modify_run]
      have h := @ih { st with
        scopes := st.scopes.define (i :: sc) p.name { type := t, token := p.tok } } (by simpa)
      have first : Busy (i :: sc) st { st with
          scopes := st.scopes.define (i :: sc) p.name { type := t, token := p.tok } } :=
        ⟨filling_define inside _ _, rfl, rfl, rfl⟩
      refine ⟨first.trans h.busy, h.err, h.captures, fun ok => ?_⟩
      rw [h.decls ok, decls_define inside]
      rfl

variable {outer : ScopeRef}

theorem mem_keys_propagateCaptures {h : Scopes} {enclosing : Option FunctionRef}
    {nested captures : List Capture} {key : String × Nat × String} :
    key ∈ captureKeys (propagateCaptures h outer enclosing nested captures) ↔
      key ∈ captureKeys captures ∨ ∃ capture ∈ nested,
        captureIdentity capture.token capture.name = key ∧ ∃ b owner,
          h.lookupOwner outer capture.name = some (b, owner) ∧ (h.top owner).lambda ≠ enclosing := by
  have one (captures : List Capture) (capture : Capture) :
      key ∈ captureKeys (propagateCapture h outer enclosing captures capture) ↔
        key ∈ captureKeys captures ∨ (captureIdentity capture.token capture.name = key ∧ ∃ b owner,
          h.lookupOwner outer capture.name = some (b, owner) ∧ (h.top owner).lambda ≠ enclosing) := by
    unfold propagateCapture
    cases found : h.lookupOwner outer capture.name with
    | none => simp
    | some p =>
      obtain ⟨b, owner⟩ := p
      simp only [Option.some.injEq, Prod.mk.injEq, ↓existsAndEq, true_and]
      by_cases outside : (h.top owner).lambda != enclosing
      · simp only [outside, if_true, mem_keys_addCapture]
        simp only [bne_iff_ne] at outside
        simp [outside, eq_comm]
      · simp only [outside]
        simp only [bne_iff_ne, ne_eq, not_not] at outside
        simp [outside]
  induction nested generalizing captures with
  | nil => simp [propagateCaptures]
  | cons capture rest ih =>
    have rest' := @ih (propagateCapture h outer enclosing captures capture)
    refine rest'.trans ?_
    rw [one]
    simp [or_assoc]

/-- The state in which a closure's parameters are bound. -/
def enterClosure (st : CheckState) (outer : ScopeRef) : CheckState :=
  let scopes := (st.scopes.newScope outer (st.scopes.top outer).worker).2
  { st with scopes := scopes.update (st.scopes.length :: outer) fun r =>
      { r with lambda := some (.closure (st.scopes.length :: outer)) } }

/-- The state in which a closure's body is checked. -/
def inClosure (st : CheckState) (scope : ScopeRef) (captures : List Capture) (ret : Ty) :
    CheckState :=
  { st with
    currentReturn := some ret, currentFunction := some (.closure scope)
    currentLambda := some (.closure scope), captures := captures }

/-- The state after a closure's body was checked in `after`. -/
def leaveClosure (before after : CheckState) (outer : ScopeRef) (failure : Option Diagnostic) :
    CheckState :=
  { after with
    currentReturn := before.currentReturn, currentFunction := before.currentFunction
    currentLambda := before.currentLambda
    captures := if before.currentLambda.isSome && failure.isNone then
        propagateCaptures after.scopes outer before.currentLambda after.captures before.captures
      else before.captures }

theorem openClosure_run (outer : ScopeRef) :
    openClosure outer st = (st.scopes.length :: outer, enterClosure st outer) := rfl

theorem checkClosureBody_run (outer scope : ScopeRef) (sig : FunctionSig) (body : List Stmt)
    (captures : List Capture) (ret : Ty) :
    checkClosureBody self outer scope sig body captures ret st =
      let r := self.block scope body { rt := ret, loop := 0, inFn := true }
        (inClosure st scope captures ret)
      ((r.1.1, r.2.captures, closureFailure r.2 sig ret r.1.2),
        leaveClosure st r.2 outer (closureFailure r.2 sig ret r.1.2)) := rfl

variable {captures : List Capture}

theorem checkLambda_run {env : CheckEnv} {info : ExprInfo} {body : List Stmt} {expected : Option Ty}
    {params : List Ty}
    (h : closureType env st.typeParams info.tok sig expected = .ok (params, ret)) :
    checkLambda env self outer info sig body captures expected st =
      let scope := st.scopes.length :: outer
      let bound := bindClosureParams scope (sig.params.zip params) (enterClosure st outer)
      match bound.1 with
      | some d => ((.lambda info sig body captures, .error d), bound.2)
      | none =>
          let r := checkClosureBody self outer scope sig body captures ret bound.2
          match r.1.2.2 with
          | some d => ((.lambda info sig r.1.1 r.1.2.1, .error d), r.2)
          | none => ((.lambda info sig r.1.1 r.1.2.1, .ok (.function params ret)), r.2) := by
  simp only [checkLambda, CheckM.bind_run, CheckM.get_run, h, openClosure_run]
  cases (bindClosureParams (st.scopes.length :: outer) (sig.params.zip params)
      (enterClosure st outer)).1 with
  | some d => rfl
  | none =>
    simp only [CheckM.bind_run]
    split <;> simp_all

theorem enterClosure_kept (outer : ScopeRef) : Kept st.scopes (enterClosure st outer).scopes where
  length := by simp [enterClosure, Scopes.newScope]
  record j hj := by
    have : st.scopes.length ≠ j := by omega
    simp only [enterClosure, Scopes.newScope, Scopes.update]
    rw [record_modify (by simp), if_neg this, record_append_left hj]

theorem enterClosure_length (outer : ScopeRef) :
    (enterClosure st outer).scopes.length = st.scopes.length + 1 := by
  simp [enterClosure, Scopes.newScope]

theorem enterClosure_record (outer : ScopeRef) :
    ((enterClosure st outer).scopes.record st.scopes.length).decls = [] ∧
      ((enterClosure st outer).scopes.record st.scopes.length).lambda =
        some (.closure (st.scopes.length :: outer)) := by
  simp only [enterClosure, Scopes.newScope, Scopes.update]
  rw [record_modify (by simp)]
  simp [ScopeRecord.decls]

/-- The closures around a point inside a closure that was just opened. -/
def insideTag (tag : Nat → Option FunctionRef) (level : Nat) (scope : ScopeRef) (a : Nat) :
    Option FunctionRef :=
  if a ≤ level then tag a else some (.closure scope)

theorem At.enterClosure (place : At tag st sc c) {st₁ : CheckState}
    (kept : Kept st.scopes st₁.scopes) (bound : st.scopes.length < st₁.scopes.length)
    (lambda : (st₁.scopes.record st.scopes.length).lambda =
      some (.closure (st.scopes.length :: sc)))
    (current : st₁.currentLambda = some (.closure (st.scopes.length :: sc)))
    {now fin : List (String × Decl)} (names : (st₁.scopes.record st.scopes.length).decls = now) :
    At (insideTag tag c.level (st.scopes.length :: sc)) st₁ (st.scopes.length :: sc)
      ({ now := now, fin := fin, level := c.level + 1 } :: c) := by
  have inside : insideTag tag c.level (st.scopes.length :: sc) (c.level + 1) =
      some (.closure (st.scopes.length :: sc)) := if_neg (Nat.not_succ_le_self _)
  have new (a : Nat) (ha : a ≤ c.level) : tag a ≠ some (.closure (st.scopes.length :: sc)) := by
    intro same
    rcases Nat.eq_zero_or_pos a with rfl | pos
    · rw [place.outermost] at same
      cases same
    · obtain ⟨p, eq, short⟩ := place.closures a pos ha
      rw [eq] at same
      cases same
      exact Nat.not_succ_le_self _ short
  refine place.enter kept (Nat.le_refl _) bound _ names ?_ (Nat.le_succ _) ?_ ?_ ?_ ?_
  · rw [lambda, ← inside]
  · intro a ha
    simp [insideTag, ha]
  · intro a b ha hb same
    unfold insideTag at same
    split at same <;> split at same
    · exact place.injective a b ‹_› ‹_› same
    · exact absurd same (new a ‹_›)
    · exact absurd same.symm (new b ‹_›)
    · simp only at ha hb
      omega
  · intro a pos ha
    unfold insideTag
    split
    · obtain ⟨p, eq, short⟩ := place.closures a pos ‹_›
      exact ⟨p, eq, Nat.le_succ_of_le short⟩
    · exact ⟨_, rfl, Nat.le_refl _⟩
  · rw [current, ← inside]

variable {r : Nat × String × Decl}

theorem reads_closure {done : Bool} {captured : List Capture} {params : List (String × Decl)}
    {body : List SketchItem} (h : r ∈ outsideReads c params body) :
    Reads c (.closure done captured params body : Sketch) r := by
  simp only [outsideReads, mem_filter, mem_filterMap] at h
  obtain ⟨⟨x, mem, read⟩, -⟩ := h
  exact ⟨x, mem_cons_of_mem _ mem, read⟩

theorem mem_outsideReads {params : List (String × Decl)} {body : List SketchItem} :
    r ∈ outsideReads c params body ↔
      ReadsItems { now := params, fin := declared params body, level := c.level + 1 } c body r ∧
        r.1 < c.level + 1 := by
  simp only [outsideReads, closureParts, mem_filter, mem_filterMap, decide_eq_true_eq,
    ReadsItems, Nat.lt_succ_iff]

/-- What a closure's body leaves, seen from the closure's place. -/
theorem closure_outcome {info : ExprInfo} {body body' : List Stmt} {st₂ after : CheckState}
    {flow : Flow} (untyped : info.type = none) (err : st.err = none)
    (kept : Kept st.scopes st₂.scopes) (bound : st.scopes.length < st₂.scopes.length)
    (lambda : (st₂.scopes.record st.scopes.length).lambda =
      some (.closure (st.scopes.length :: outer)))
    (names : (st₂.scopes.record st.scopes.length).decls = paramDecls [] sig.params)
    (currentReturn : st₂.currentReturn = st.currentReturn)
    (currentFunction : st₂.currentFunction = st.currentFunction)
    (currentLambda : st₂.currentLambda = st.currentLambda) (captures₂ : st₂.captures = st.captures)
    (h : BlockOutcome st.scopes.length outer
      (inClosure st₂ (st.scopes.length :: outer) captures ret) body (body', flow) after)
    (failure : Option Diagnostic) (i : ExprInfo) (t : Typed)
    (typed : i.type.isSome = true ↔ failure = none) (result : ∀ ty, t = .ok ty → failure = none) :
    ExprOutcome outer st (.lambda info sig body captures)
      (.lambda i sig body' after.captures, t) (leaveClosure st₂ after outer failure) := by
  have keptAfter : Kept st.scopes after.scopes := h.toItemsOutcome.kept kept (Nat.le_refl _)
  have quiet : Quiet st (leaveClosure st₂ after outer failure) :=
    ⟨keptAfter, currentReturn, currentFunction, currentLambda⟩
  have more : captureKeys st.captures ⊆
      captureKeys (leaveClosure st₂ after outer failure).captures := by
    intro key mem
    rw [← captures₂] at mem
    simp only [leaveClosure]
    split
    · exact mem_keys_propagateCaptures.mpr (Or.inl mem)
    · exact mem
  have outline : (Expr.lambda i sig body' after.captures).skel.erase =
      (Expr.lambda info sig body captures).skel.erase := by
    simp [Expr.skel, Skel.erase, h.outline]
  refine ⟨⟨err, quiet, more⟩, ⟨outline, by simpa [Expr.dead] using h.dead,
    by simp [Expr.type, Expr.info, untyped]⟩, fun ty ok => typed.mpr (result ty ok), ?_⟩
  intro tag hf c standing holds
  obtain ⟨⟨recordedBefore, capturedBefore, -⟩, soundBefore⟩ := everywhere_closure.mp holds.sound
  have fin : declared (paramDecls [] sig.params) (stmtItems body') =
      declared (paramDecls [] sig.params) (stmtItems body) := by
    rw [← declared_eraseItems, h.outline, declared_eraseItems]
  have reads (r : Nat × String × Decl) :
      r ∈ outsideReads c (paramDecls [] sig.params) (stmtItems body') ↔
        r ∈ outsideReads c (paramDecls [] sig.params) (stmtItems body) := by
    rw [← outsideReads_eraseItems, h.outline, outsideReads_eraseItems]
  -- inside the closure
  have place := @At.enterClosure _ _ _ _ standing.place
    (inClosure st₂ (st.scopes.length :: outer) captures ret) kept bound lambda rfl _
    (declared (paramDecls [] sig.params) (stmtItems body)) names
  obtain ⟨⟨sound, recorded⟩, grown, visited⟩ := h.holds _ hf _ c
    (h.toItemsOutcome.standing standing (Nat.le_refl _) bound rfl place) rfl ⟨soundBefore, recordedBefore⟩
  have captured : ∀ key ∈ captureKeys after.captures,
      ∃ r ∈ outsideReads c (paramDecls [] sig.params) (stmtItems body'), readKey r = key := by
    intro key mem
    rcases grown key mem with old | ⟨r, read, out, same⟩
    · obtain ⟨r, mem, same⟩ := capturedBefore key old
      exact ⟨r, (reads r).mpr mem, same⟩
    · exact ⟨r, (reads r).mpr (mem_outsideReads.mpr ⟨read, out⟩), same⟩
  have soundHere (done : Bool) : Sound hf c
      (.closure done after.captures (paramDecls [] sig.params) (stmtItems body')) := by
    refine ⟨?_, captured, fun _ => ?_⟩
    · rw [closureParts, fin]
      exact recorded
    · rw [closureParts, fin]
      exact visited
  -- which of its captures the enclosing closure takes over
  have owner (capture : Capture) (r : Nat × String × Decl)
      (mem : r ∈ outsideReads c (paramDecls [] sig.params) (stmtItems body'))
      (same : captureIdentity capture.token capture.name = readKey r) :
      ∃ b owner, after.scopes.lookupOwner outer capture.name = some (b, owner) ∧
        (after.scopes.top owner).lambda = tag r.1 := by
    have res := resolve_of_outsideRead mem
    have name : capture.name = r.2.1 := by
      simp only [captureIdentity, readKey, Prod.mk.injEq] at same
      exact same.2.2
    have after' := standing.place.of_quiet quiet
    obtain ⟨b, owner, found, -, lambda, -⟩ := resolve_some_owner after'.names after'.tags res
    exact ⟨b, owner, name ▸ found, lambda⟩
  have current : st₂.currentLambda = tag c.level := currentLambda.trans standing.place.current
  have outside (r : Nat × String × Decl)
      (mem : r ∈ outsideReads c (paramDecls [] sig.params) (stmtItems body')) : r.1 ≤ c.level :=
    Nat.le_of_lt_succ (mem_outsideReads.mp mem).2
  refine ⟨⟨?_, ?_⟩, ?_⟩
  · refine everywhere_closure.mpr ⟨soundHere _, ?_⟩
    rw [fin]
    exact sound
  · refine everywhere_closure.mpr ⟨fun _ done r mem out => ?_, fun x mem here => ?_⟩
    · have succeeded : failure = none := typed.mp done
      obtain ⟨capture, inside, same⟩ := mem_map.mp (captures_complete (soundHere true) mem)
      obtain ⟨b, own, found, lambda⟩ := owner capture r mem same
      obtain ⟨p, enclosing, -⟩ := standing.place.closures c.level (by omega) (Nat.le_refl _)
      have different : tag r.1 ≠ tag c.level := fun eq =>
        absurd (standing.place.injective r.1 c.level (by omega) (Nat.le_refl _) eq) (by omega)
      simp only [leaveClosure, current, enclosing, succeeded, Option.isSome_some, Option.isNone_none,
        Bool.and_self, if_true]
      refine mem_keys_propagateCaptures.mpr (Or.inr ⟨capture, inside, same, b, own, found, ?_⟩)
      rw [lambda, ← enclosing]
      exact different
    · have := subsItems_level mem
      omega
  · intro key mem
    simp only [leaveClosure] at mem
    split at mem
    · rcases mem_keys_propagateCaptures.mp mem with old | ⟨capture, inside, same, b, own, found, out⟩
      · exact Or.inl (captures₂ ▸ old)
      · obtain ⟨r, read, eq⟩ := captured key (same ▸ mem_map_of_mem inside)
        obtain ⟨b', own', found', lambda⟩ := owner capture r read (same.trans eq.symm)
        rw [found] at found'
        cases found'
        have different : r.1 ≠ c.level := fun level => out (by rw [lambda, level, current])
        have := outside r read
        exact Or.inr ⟨r, reads_closure ((reads r).mp read), by omega, eq⟩
    · exact Or.inl (captures₂ ▸ mem)

end Closures

/-! ## Expressions -/

variable {e : Expr}

theorem unchanged_outcome {sc : ScopeRef} {d : Diagnostic} {st st' : CheckState}
    (err : st.err = none) (quiet : Quiet st st') (captures : st'.captures = st.captures) :
    ExprOutcome sc st e (e, .error d) st' where
  step := ⟨err, quiet, by rw [captures]; exact fun _ h => h⟩
  revised := .refl e
  typed _ ok := nomatch ok
  holds _ _ _ _ h := by
    rw [captures]
    exact ⟨h, .refl⟩

section Expressions

variable [FloatArith] {env : CheckEnv} {self : Checking}

theorem finishExpr_eq (untyped : e.type = none) (t : Typed) :
    ∃ i, finishExpr (e, t) = (e.withInfo i, t) ∧ (i.type.isSome = true ↔ ∃ ty, t = .ok ty) := by
  cases t with
  | error d =>
    refine ⟨e.info, by simp [finishExpr], ?_⟩
    have : e.info.type = none := untyped
    simp [this]
  | ok ty =>
    simp only [finishExpr, foldConstExpr]
    split
    · exact ⟨_, by rw [Expr.withInfo_withInfo], by simp⟩
    · exact ⟨_, rfl, by simp⟩

theorem checkByRule_outcome (builtins : BuiltinsCheckArguments env) (exprs : ExprSpec self.expr)
    {sc : ScopeRef} (compound : e.isCompound = true) (untyped : e.type = none)
    {expected : Option Ty} {st : CheckState}
    (ok : (checkByRule env self sc e expected st).2.err = none) :
    ExprOutcome sc st e (finishExpr (checkByRule env self sc e expected st).1)
      (checkByRule env self sc e expected st).2 := by
  have h := runRule_outcome sc exprs (typingRule env e expected) e.children e.resolution st ok
  simp only [checkByRule, CheckM.bind_run, CheckM.pure_run]
  generalize runRule self sc (typingRule env e expected) e.children e.resolution st = run at h ⊢
  obtain ⟨r, st'⟩ := run
  have untyped' : ((e.withChildren r.2.1).withResolution r.2.2).type = none := by
    simpa [Expr.type] using untyped
  obtain ⟨i, eq, typed⟩ := finishExpr_eq untyped' r.1
  rw [eq]
  exact rebuild_outcome sc builtins compound untyped h i typed

theorem checkLambda_outcome (blocks : BlockSpec self.block) {sc : ScopeRef} {info : ExprInfo}
    {sig : FunctionSig} {body : List Stmt} {captures : List Capture} (untyped : info.type = none)
    {expected : Option Ty} {st : CheckState}
    (ok : (checkLambda env self sc info sig body captures expected st).2.err = none) :
    ExprOutcome sc st (.lambda info sig body captures)
      (finishExpr (checkLambda env self sc info sig body captures expected st).1)
      (checkLambda env self sc info sig body captures expected st).2 := by
  cases resolved : closureType env st.typeParams info.tok sig expected with
  | error d =>
    have run : checkLambda env self sc info sig body captures expected st =
        ((.lambda info sig body captures, .error d), st) := by
      simp [checkLambda, resolved]
    rw [run] at ok ⊢
    exact unchanged_outcome ok (.refl st) rfl
  | ok type =>
    obtain ⟨params, ret⟩ := type
    rw [checkLambda_run resolved] at ok ⊢
    have opened := @enterClosure_length st sc
    have inside : st.scopes.length < (enterClosure st sc).scopes.length := by omega
    have bound := @bindClosureParams_outcome _ sc _ inside (sig.params.zip params)
    have zipped : (sig.params.zip params).map (·.1) = sig.params :=
      map_fst_zip (Nat.le_of_eq (closureType_length resolved).symm)
    rw [zipped] at bound
    dsimp only at ok ⊢
    generalize bindClosureParams (st.scopes.length :: sc) (sig.params.zip params)
      (enterClosure st sc) = params' at ok bound ⊢
    obtain ⟨failed, st₂⟩ := params'
    have kept : Kept st.scopes st₂.scopes :=
      bound.busy.scopes.kept (enterClosure_kept sc) (Nat.le_refl _)
    cases failed with
    | some d =>
      have err : st.err = none := bound.err.symm.trans ok
      exact unchanged_outcome err ⟨kept, bound.busy.currentReturn, bound.busy.currentFunction,
        bound.busy.currentLambda⟩ bound.captures
    | none =>
      have inside₂ : st.scopes.length < st₂.scopes.length :=
        Nat.lt_of_lt_of_le inside bound.busy.scopes.length
      have names : (st₂.scopes.record st.scopes.length).decls = paramDecls [] sig.params := by
        have := bound.decls rfl
        rwa [(enterClosure_record sc).1] at this
      have lambda := (bound.busy.scopes.lambda _ inside).trans (enterClosure_record sc).2
      rw [checkClosureBody_run] at ok ⊢
      dsimp only at ok ⊢
      have after : (self.block (st.scopes.length :: sc) body { rt := ret, loop := 0, inFn := true }
          (inClosure st₂ (st.scopes.length :: sc) captures ret)).2.err = none := by
        split at ok <;> exact ok
      have h := blocks st.scopes.length sc body { rt := ret, loop := 0, inFn := true }
        (inClosure st₂ (st.scopes.length :: sc) captures ret) inside₂ after
      generalize self.block (st.scopes.length :: sc) body { rt := ret, loop := 0, inFn := true }
        (inClosure st₂ (st.scopes.length :: sc) captures ret) = run at h ⊢
      obtain ⟨⟨body', flow⟩, st₃⟩ := run
      have err : st.err = none := bound.err.symm.trans h.err
      have finished (failure : Option Diagnostic) (t : Typed)
          (agree : (∃ ty, t = .ok ty) ↔ failure = none) :
          ExprOutcome sc st (.lambda info sig body captures)
            (finishExpr (.lambda info sig body' st₃.captures, t)) (leaveClosure st₂ st₃ sc failure) := by
        obtain ⟨i, eq, typed⟩ := finishExpr_eq (e := .lambda info sig body' st₃.captures) untyped t
        rw [eq]
        exact closure_outcome untyped err kept inside₂ lambda names bound.busy.currentReturn
          bound.busy.currentFunction bound.busy.currentLambda bound.captures h failure i t
          (typed.trans agree) fun ty ok => agree.mp ⟨ty, ok⟩
      dsimp only
      cases closureFailure st₃ sig ret flow with
      | some d => exact finished (some d) (.error d) (by simp)
      | none => exact finished none (.ok (.function params ret)) (by simp)

theorem checkExpr_spec (builtins : BuiltinsCheckArguments env) (exprs : ExprSpec self.expr)
    (blocks : BlockSpec self.block) : ExprSpec (checkExpr env self) := by
  intro sc e expected st ok
  cases known : e.type with
  | some t =>
    -- a node that has its type
    simp only [checkExpr, known, CheckM.pure_run] at ok ⊢
    cases e with
    | var info name ref => exact typedVar_outcome known ok
    | _ => exact ⟨.refl ok, .refl _, fun _ _ => by simp [Expr.visit, known], fun _ _ _ _ h => ⟨h, .refl⟩⟩
  | none =>
    simp only [checkExpr, known, CheckM.bind_run, CheckM.pure_run] at ok ⊢
    cases e with
    | var info name ref =>
      simp only [Expr.visit, checkNode, CheckM.bind_run, CheckM.get_run] at ok ⊢
      cases found : st.scopes.lookupOwner sc name with
      | some p =>
        obtain ⟨b, owner⟩ := p
        simp only [found, checkVar, CheckM.bind_run, CheckM.get_run, CheckM.set_run,
          CheckM.pure_run] at ok ⊢
        obtain ⟨i, eq, typed⟩ := finishExpr_eq (e := .var info name
          { ref with scope := some sc, definition := some b.token }) known
            (varType (st.scopes.top sc) info.tok name b)
        rw [eq]
        exact checkVar_outcome known ok found i _ typed
      | none =>
        simp only [found, checkByRule, CheckM.bind_run, CheckM.pure_run] at ok ⊢
        have h := runRule_outcome sc exprs
          (typingRule env (.var info name { ref with scope := some sc }) expected) _ _ st ok
        generalize runRule self sc
          (typingRule env (.var info name { ref with scope := some sc }) expected) _ _ st = run at h ⊢
        obtain ⟨r, st'⟩ := run
        obtain ⟨i, eq, typed⟩ := finishExpr_eq (e := .var info name r.2.2) known r.1
        show ExprOutcome sc st _ (finishExpr (.var info name r.2.2, r.1)) st'
        rw [eq]
        exact functionName_outcome known found h i typed
    | lambda info sig body captures => exact checkLambda_outcome blocks known ok
    | _ => exact checkByRule_outcome builtins exprs rfl known ok

end Expressions

end Kryndel
