import Kryndel.Checker.BlockRecords
import Kryndel.Checker.Nodes
import Kryndel.Checker.Onward
import Kryndel.Checker.Program

/-!
# The records of a program

The skeletons of a whole program (two for each function, one for the statements),
and what the check of a program does to them: on acceptance every record is right
and none is missing.

A function's defaults stand in a block of their own. Each sees the parameters before
it, but the block ends with all of them.
-/

namespace Kryndel

open Lexical List

/-! ## Skeletons of programs -/

/-- A parameter's default, with the declaration of the parameter. -/
def Param.item (p : Param) : SketchItem :=
  .mk (match p.default with
    | some e => e.skel
    | none => .node false []) (some (p.name, { token := p.tok }))

/-- The code of a parameter's default that control cannot reach. -/
def Param.dead (p : Param) : List Stmt :=
  match p.default with
  | some e => e.dead
  | none => []

namespace Function

/-- The declaration of `self`. -/
def selfDecls (f : Function) : List (String × Decl) :=
  if f.receiver.isSome then [("self", { token := f.tok })] else []

/-- The parameters without their defaults. -/
def sigs (f : Function) : List ParamSig := f.params.map (·.toParamSig)

/-- The block of the defaults. -/
def defaultsSketch (f : Function) : Sketch := .block f.selfDecls (f.params.map Param.item)

/-- The block of the body. -/
def bodySketch (f : Function) : Sketch := .block (paramDecls f.selfDecls f.sigs) (stmtItems f.body)

/-- The skeletons of a function. -/
def sketches (f : Function) : List Sketch := [f.defaultsSketch, f.bodySketch]

/-- The code of a function that control cannot reach. -/
def dead (f : Function) : List Stmt := f.params.flatMap Param.dead ++ stmtsDead f.body

end Function

namespace Program

/-- The block of the top-level statements. -/
def topSketch (p : Program) : Sketch := .block [] (stmtItems p.statements)

/-- The skeletons of a program. -/
def sketches (p : Program) : List Sketch := p.functions.flatMap Function.sketches ++ [p.topSketch]

/-- The code of a program that control cannot reach. -/
def dead (p : Program) : List Stmt := p.functions.flatMap Function.dead ++ stmtsDead p.statements

/-- The declarations that functions can see. -/
def globals (env : CheckEnv) (p : Program) : List (String × Decl) :=
  match declareGlobals env p.statements [] with
  | .ok values => values.map fun v => (v.1, v.2.decl)
  | .error _ => []

/-- The block around the functions and the statements of a program. -/
def blocks (env : CheckEnv) (p : Program) : Blocks :=
  [{ now := p.globals env, fin := p.globals env, level := 0 }]

end Program

/-! ## Parts outside closures -/

theorem recorded_zero {keys : List (String × Nat × String)} {c : Blocks} {s : Sketch} :
    Recorded keys 0 c s := by
  intro _
  cases s with
  | use | closure => exact fun _ r _ out => absurd out (Nat.not_lt_zero _)
  | _ => trivial

theorem holds_zero {hf : Scopes} {captures : List Capture} {c : Blocks} {s : Sketch}
    (level : c.level = 0) (sound : Everywhere (Sound hf) c s) : Holds hf captures c s :=
  ⟨sound, fun _ _ => level ▸ recorded_zero⟩

/-- What the check of some blocks under the globals does. -/
structure SketchesOutcome (st : CheckState) (before after : List Sketch) (st' : CheckState) :
    Prop where
  err : st.err = none
  kept : Kept st.scopes st'.scopes
  currentLambda : st'.currentLambda = st.currentLambda
  outlines : after.map Skel.erase = before.map Skel.erase
  holds : ∀ tag hf c, c.level = 0 → Standing tag hf st globalScope c st'.scopes →
    (∀ p ∈ before, Everywhere (Sound hf) c p) →
      ∀ p ∈ after, Everywhere (Sound hf) c p ∧ Everywhere Visited c p

section Sketches

variable {st st₁ st' : CheckState} {before before' after after' : List Sketch}

theorem SketchesOutcome.nil (err : st.err = none) : SketchesOutcome st [] [] st :=
  ⟨err, .refl _, rfl, rfl, fun _ _ _ _ _ _ => by simp⟩

theorem SketchesOutcome.append (first : SketchesOutcome st before after st₁)
    (rest : SketchesOutcome st₁ before' after' st') :
    SketchesOutcome st (before ++ before') (after ++ after') st' where
  err := first.err
  kept := first.kept.trans rest.kept
  currentLambda := rest.currentLambda.trans first.currentLambda
  outlines := by simp [first.outlines, rest.outlines]
  holds tag hf c level standing sound := by
    simp only [forall_mem_append] at sound ⊢
    refine ⟨first.holds tag hf c level (standing.before rest.kept) sound.1,
      rest.holds tag hf c level ⟨?_, standing.blocks, ?_⟩ sound.2⟩
    · exact standing.place.of_kept first.kept first.currentLambda
    · exact standing.final.mono first.kept.length

theorem PartOutcome.sketch {p p' : Sketch} {base base' : CheckState} (err : st.err = none)
    (before : Kept st.scopes base.scopes) (after : Kept base'.scopes st'.scopes)
    (lambda : base.currentLambda = st.currentLambda)
    (lambda' : st'.currentLambda = base'.currentLambda)
    (h : PartOutcome globalScope base p p' base') : SketchesOutcome st [p] [p'] st' where
  err := err
  kept := (before.trans h.step.quiet.scopes).trans after
  currentLambda := lambda'.trans (h.step.quiet.currentLambda.trans lambda)
  outlines := by simp [h.outline]
  holds tag hf c level standing sound := by
    simp only [forall_mem_singleton] at sound ⊢
    have place : Standing tag hf base globalScope c base'.scopes :=
      ⟨standing.place.of_kept before lambda, standing.blocks,
        (standing.before after).final.mono before.length⟩
    obtain ⟨holds, -, visited⟩ := h.holds tag hf c place (holds_zero level sound)
    exact ⟨holds.sound, visited⟩

end Sketches

/-! ## Opening the scopes of a function -/

section Functions

variable {env : CheckEnv} {self : Checking} {st st₁ st' : CheckState} {i : Nat} {sc : ScopeRef}

/-- The state with a new scope for a function. -/
def enterFunction (st : CheckState) (f : Function) : CheckState :=
  { st with
    scopes := (st.scopes.newScope globalScope f.worker).2.update (st.scopes.length :: globalScope)
      fun r => { r with module := f.module, visibilityScope := f.visibilityScope } }

theorem openFunction_run (f : Function) :
    openFunction f st = (st.scopes.length :: globalScope, enterFunction st f) := rfl

theorem enterFunction_kept (f : Function) : Kept st.scopes (enterFunction st f).scopes where
  length := by simp [enterFunction, Scopes.newScope]
  record j hj := by
    have : st.scopes.length ≠ j := by omega
    simp only [enterFunction, Scopes.newScope, Scopes.update]
    rw [record_modify (by simp), if_neg this, record_append_left hj]

theorem enterFunction_length (f : Function) :
    (enterFunction st f).scopes.length = st.scopes.length + 1 := by
  simp [enterFunction, Scopes.newScope]

theorem enterFunction_record (f : Function) :
    ((enterFunction st f).scopes.record st.scopes.length).decls = [] ∧
      ((enterFunction st f).scopes.record st.scopes.length).lambda =
        (st.scopes.top globalScope).lambda := by
  simp only [enterFunction, Scopes.newScope, Scopes.update]
  rw [record_modify (by simp)]
  simp [ScopeRecord.decls]

/-- What binding names in a scope does. -/
structure Declares (i : Nat) (sc : ScopeRef) (st : CheckState) (decls : List (String × Decl))
    (st' : CheckState) : Prop where
  busy : Busy (i :: sc) st st'
  err : st'.err = st.err
  captures : st'.captures = st.captures
  length : st'.scopes.length = st.scopes.length
  decls : (st'.scopes.record i).decls = decls

theorem declare_declares (inside : i < st.scopes.length) (name : String) (b : Binding) :
    Declares i sc st ((name, b.decl) :: (st.scopes.record i).decls)
      (declare (i :: sc) name b st).2 where
  busy := ⟨filling_define inside name b, rfl, rfl, rfl⟩
  err := rfl
  captures := rfl
  length := by simp [declare]
  decls := @decls_define _ _ sc inside name b

theorem Declares.trans {decls decls' : List (String × Decl)} (first : Declares i sc st decls st₁)
    (second : Declares i sc st₁ decls' st') : Declares i sc st decls' st' where
  busy := first.busy.trans second.busy
  err := second.err.trans first.err
  captures := second.captures.trans first.captures
  length := second.length.trans first.length
  decls := second.decls

theorem bindReceiver_declares (inside : i < st.scopes.length)
    (fresh : (st.scopes.record i).decls = []) (f : Function) {receiver : Option Ty}
    (same : receiver.isSome = f.receiver.isSome) :
    Declares i sc st f.selfDecls (bindReceiver (i :: sc) f receiver st).2 := by
  cases receiver with
  | some t =>
    have h := @declare_declares _ _ sc inside "self" { type := t, token := f.tok }
    simpa [bindReceiver, Function.selfDecls, ← same, fresh, Binding.decl] using h
  | none =>
    exact ⟨(Quiet.refl st).busy, rfl, rfl, rfl,
      by simpa [bindReceiver, Function.selfDecls, ← same] using fresh⟩

theorem bindParams_declares (params : List (Param × Ty)) (inside : i < st.scopes.length) :
    Declares i sc st (paramDecls (st.scopes.record i).decls (params.map (·.1.toParamSig)))
      (bindParams (i :: sc) params st).2 := by
  induction params generalizing st with
  | nil => exact ⟨(Quiet.refl st).busy, rfl, rfl, rfl, rfl⟩
  | cons p rest ih =>
    obtain ⟨p, t⟩ := p
    have first := @declare_declares _ _ sc inside p.name { type := t, token := p.tok }
    have second := @ih (declare (i :: sc) p.name { type := t, token := p.tok } st).2
      (by rw [first.length]; exact inside)
    have both := first.trans second
    rw [first.decls] at both
    exact both

/-! ## Defaults -/

theorem PartOutcome.declare {p p' : Sketch} (inside : i < st.scopes.length)
    (h : PartOutcome (i :: sc) st p p' st₁) (name : String) (b : Binding) :
    ItemOutcome i sc st (.mk p (some (name, b.decl))) (.mk p' (some (name, b.decl)))
      { st₁ with scopes := st₁.scopes.define (i :: sc) name b } := by
  have inside₁ := Nat.lt_of_lt_of_le inside h.step.quiet.scopes.length
  have fill := @filling_define _ _ sc inside₁ name b
  exact {
    err := h.step.err
    busy := h.step.quiet.busy.trans ⟨fill, rfl, rfl, rfl⟩
    captures := h.step.captures
    decls := by
      rw [decls_define inside₁, h.step.quiet.scopes.record i inside]
      rfl
    outline := h.outline
    decl := rfl
    holds := fun tag hf f c standing holds =>
      h.holds tag hf (f :: c) (standing.unfilled fill) holds }

theorem checkDefault_outcome (exprs : ExprSpec self.expr) (p : Param) (t : Ty)
    (ok : (checkDefault self sc p t st).2.err = none)
    (accepted : (checkDefault self sc p t st).1.2 = none) :
    PartOutcome sc st p.item.part (checkDefault self sc p t st).1.1.item.part
      (checkDefault self sc p t st).2 ∧
    (checkDefault self sc p t st).1.1.toParamSig = p.toParamSig ∧
    (checkDefault self sc p t st).1.1.dead = p.dead := by
  cases written : p.default with
  | none =>
    simp only [checkDefault, written, CheckM.pure_run] at ok ⊢
    have part : p.item.part = .node false [] := by simp [Param.item, Item.part, written]
    exact ⟨part ▸ (PartsOutcome.nil ok).node, trivial, trivial⟩
  | some e =>
    have part : p.item.part = e.skel := by simp [Param.item, Item.part, written]
    have dead : p.dead = e.dead := by simp [Param.dead, written]
    have outcome := exprs sc e (some t) st
    simp only [checkDefault, written, CheckM.bind_run] at ok accepted ⊢
    generalize self.expr sc e (some t) st = run at ok accepted outcome ⊢
    obtain ⟨⟨e', found⟩, st₁⟩ := run
    cases found with
    | error d => simp at accepted
    | ok found =>
      cases fits : compatible t found with
      | false => simp [fits] at accepted
      | true =>
        simp only [fits, if_true, CheckM.pure_run] at ok ⊢
        have h := outcome ok
        exact ⟨part ▸ h.part, trivial, dead ▸ h.revised.dead⟩

theorem checkDefaults_onward (onward : ∀ sc e expected, OnwardM (self.expr sc e expected))
    (params : List (Param × Ty)) : OnwardM (checkDefaults self sc params) := by
  induction params with
  | nil => exact .pure _
  | cons p rest ih =>
    have first : OnwardM (checkDefault self sc p.1 p.2) := by
      unfold checkDefault
      split
      · exact .pure _
      · refine .bind (onward _ _ _) fun r => ?_
        obtain ⟨e, found⟩ := r
        cases found with
        | error d => exact .pure _
        | ok t => exact .ite (.pure _) (.pure _)
    refine .bind first fun r => ?_
    obtain ⟨p, failed⟩ := r
    cases failed with
    | some d => exact .pure _
    | none => exact .bind (.declare _ _ _) fun _ => .bind ih fun _ => .pure _

theorem checkDefaults_outcome (exprs : ExprSpec self.expr)
    (onward : ∀ sc e expected, OnwardM (self.expr sc e expected)) (params : List (Param × Ty))
    (inside : i < st.scopes.length)
    (ok : (checkDefaults self (i :: sc) params st).2.err = none)
    (accepted : (checkDefaults self (i :: sc) params st).1.2 = none) :
    ItemsOutcome i sc st (params.map (·.1.item))
      ((checkDefaults self (i :: sc) params st).1.1.map Param.item)
      (checkDefaults self (i :: sc) params st).2 ∧
    (checkDefaults self (i :: sc) params st).1.1.map (·.toParamSig) =
      params.map (·.1.toParamSig) ∧
    (checkDefaults self (i :: sc) params st).1.1.flatMap Param.dead =
      params.flatMap (·.1.dead) := by
  induction params generalizing st with
  | nil => exact ⟨.nil ok, rfl, rfl⟩
  | cons p rest ih =>
    obtain ⟨p, t⟩ := p
    have first := @checkDefault_outcome _ st (i :: sc) exprs p t
    simp only [checkDefaults, CheckM.bind_run] at ok accepted ⊢
    generalize checkDefault self (i :: sc) p t st = run at ok accepted first ⊢
    obtain ⟨⟨p', failed⟩, st₁⟩ := run
    cases failed with
    | some d => simp at accepted
    | none =>
      simp only [CheckM.bind_run, declare, CheckM.modify_run, CheckM.pure_run] at ok accepted ⊢
      have err₁ := (checkDefaults_onward onward rest _).err ok
      obtain ⟨part, sig, dead⟩ := first err₁ rfl
      have inside₁ := Nat.lt_of_lt_of_le inside part.step.quiet.scopes.length
      obtain ⟨items, sigs, deads⟩ := ih (by simpa using inside₁) ok accepted
      have item := part.declare inside p'.name { type := t, token := p'.tok }
      have same : p'.toParamSig = p.toParamSig := sig
      have name : p'.name = p.name := congrArg ParamSig.name same
      have tok : p'.tok = p.tok := congrArg ParamSig.tok same
      refine ⟨.cons ?_ items, congrArg₂ List.cons same sigs, ?_⟩
      · simpa [Param.item, Item.part, Binding.decl, name, tok] using item
      · simp only [flatMap_cons]
        exact congrArg₂ _ dead deads

/-! ## Functions -/

theorem checkFunctionBody_outcome (blocks : BlockSpec self.block) (f : Function) (rt : Ty)
    (inside : i < st.scopes.length) (ok : (checkFunctionBody self (i :: sc) f rt st).2.err = none) :
    ∃ r st', BlockOutcome i sc { st with currentReturn := some rt } f.body r st' ∧
      (checkFunctionBody self (i :: sc) f rt st).1.1 = { f with body := r.1 } ∧
      (checkFunctionBody self (i :: sc) f rt st).2 =
        { st' with currentReturn := none, currentFunction := none } := by
  have outcome := blocks i sc f.body { rt := rt, inFn := true }
    { st with currentReturn := some rt } inside
  simp only [checkFunctionBody, CheckM.bind_run, CheckM.modify_run] at ok ⊢
  generalize self.block (i :: sc) f.body { rt := rt, inFn := true }
    { st with currentReturn := some rt } = run at ok outcome ⊢
  obtain ⟨⟨body, flow⟩, st'⟩ := run
  have err : st'.err = none := by split_ifs at ok <;> exact ok
  refine ⟨(body, flow), st', outcome err, ?_⟩
  split_ifs <;> exact ⟨rfl, rfl⟩

theorem map_zip_fst {α β γ : Type} (g : α → γ) {xs : List α} {ys : List β}
    (h : xs.length ≤ ys.length) : (xs.zip ys).map (fun x => g x.1) = xs.map g := by
  calc (xs.zip ys).map (fun x => g x.1) = ((xs.zip ys).map Prod.fst).map g := by
        rw [map_map]
        rfl
    _ = xs.map g := by rw [map_fst_zip h]

theorem paramTypes_length {f : Function} {typeParams : TypeParams} {params : List Param}
    {names : List String} {types : List Ty}
    (h : paramTypes env.toTypeEnv f typeParams params names = .ok types) :
    types.length = params.length := by
  induction params generalizing names types with
  | nil =>
    cases h
    rfl
  | cons p ps ih =>
    obtain ⟨t, -, h⟩ := bind_eq_ok h
    split at h
    · cases h
    · obtain ⟨ts, rest, h⟩ := bind_eq_ok h
      cases h
      simp [ih rest]

theorem functionHeader_ok {f : Function} {typeParams : TypeParams} {receiver : Option Ty}
    {types : List Ty} (h : functionHeader env.toTypeEnv f = .ok (typeParams, receiver, types)) :
    receiver.isSome = f.receiver.isSome ∧ types.length = f.params.length := by
  obtain ⟨own, -, h⟩ := bind_eq_ok h
  cases written : f.receiver with
  | none =>
    simp only [written] at h
    obtain ⟨ts, found, h⟩ := bind_eq_ok h
    cases h
    exact ⟨rfl, paramTypes_length found⟩
  | some spec =>
    simp only [written] at h
    obtain ⟨t, -, h⟩ := bind_eq_ok h
    obtain ⟨ts, found, h⟩ := bind_eq_ok h
    cases h
    exact ⟨rfl, paramTypes_length found⟩

/-- The state with the two scopes of a function: one for its body, one for its defaults. -/
def enterScopes (st : CheckState) (f : Function) (index : Nat) (typeParams : TypeParams) :
    CheckState :=
  { enterFunction (enterFunction st f) f with
    currentFunction := some (.top index), typeParams := typeParams }

/-- The two scopes of a function with its names bound. -/
structure ScopesReady (st : CheckState) (f : Function) (st' : CheckState) : Prop where
  kept : Kept st.scopes st'.scopes
  length : st'.scopes.length = st.scopes.length + 2
  body : (st'.scopes.record st.scopes.length).decls = paramDecls f.selfDecls f.sigs
  bodyLambda : (st'.scopes.record st.scopes.length).lambda = (st.scopes.top globalScope).lambda
  defaults : (st'.scopes.record (st.scopes.length + 1)).decls = f.selfDecls
  defaultsLambda :
    (st'.scopes.record (st.scopes.length + 1)).lambda = (st.scopes.top globalScope).lambda
  err : st'.err = st.err
  captures : st'.captures = st.captures
  currentLambda : st'.currentLambda = st.currentLambda

theorem scopesReady (started : 0 < st.scopes.length) {f : Function} (index : Nat)
    (typeParams : TypeParams) {receiver : Option Ty} {types : List Ty}
    (same : receiver.isSome = f.receiver.isSome) (length : types.length = f.params.length) :
    ScopesReady st f (bindParams (st.scopes.length :: globalScope) (f.params.zip types)
      (bindReceiver ((enterFunction st f).scopes.length :: globalScope) f receiver
        (bindReceiver (st.scopes.length :: globalScope) f receiver
          (enterScopes st f index typeParams)).2).2).2 := by
  have first := @enterFunction_length st f
  have kept := (@enterFunction_kept st f).trans (@enterFunction_kept (enterFunction st f) f)
  have record := @enterFunction_record st f
  have record' := @enterFunction_record (enterFunction st f) f
  have opened : (enterScopes st f index typeParams).scopes.length = st.scopes.length + 2 := by
    simp [enterScopes, enterFunction_length]
  have body : (enterScopes st f index typeParams).scopes.record st.scopes.length =
      (enterFunction st f).scopes.record st.scopes.length :=
    (@enterFunction_kept (enterFunction st f) f).record _ (by omega)
  rw [first] at record' ⊢
  -- `self` in both scopes, and the parameters in the body's
  have self₁ := @bindReceiver_declares (enterScopes st f index typeParams) st.scopes.length
    globalScope (by omega) (by rw [body]; exact record.1) f _ same
  generalize (bindReceiver (st.scopes.length :: globalScope) f receiver
    (enterScopes st f index typeParams)).2 = st₁ at self₁ ⊢
  have other : (st₁.scopes.record (st.scopes.length + 1)) =
      (enterScopes st f index typeParams).scopes.record (st.scopes.length + 1) :=
    self₁.busy.scopes.record _ (by omega) (by simp)
  have self₂ := @bindReceiver_declares st₁ (st.scopes.length + 1) globalScope
    (by rw [self₁.length]; omega) (by rw [other]; exact record'.1) f _ same
  generalize (bindReceiver ((st.scopes.length + 1) :: globalScope) f receiver st₁).2 = st₂
    at self₂ ⊢
  have params := @bindParams_declares st₂ st.scopes.length globalScope
    (f.params.zip types) (by rw [self₂.length, self₁.length]; omega)
  generalize (bindParams (st.scopes.length :: globalScope) (f.params.zip types) st₂).2 = st₃
    at params ⊢
  have all : Kept st.scopes st₃.scopes :=
    params.busy.scopes.kept (self₂.busy.scopes.kept (self₁.busy.scopes.kept kept (Nat.le_refl _))
      (by omega)) (Nat.le_refl _)
  have defaults : st₃.scopes.record (st.scopes.length + 1) =
      st₂.scopes.record (st.scopes.length + 1) :=
    params.busy.scopes.record _ (by rw [self₂.length, self₁.length]; omega) (by simp)
  have middle : st₂.scopes.record st.scopes.length = st₁.scopes.record st.scopes.length :=
    self₂.busy.scopes.record _ (by rw [self₁.length]; omega) (by simp)
  exact {
    kept := all
    length := by rw [params.length, self₂.length, self₁.length, opened]
    body := by
      rw [params.decls, middle, self₁.decls, Function.sigs]
      congr 1
      exact map_zip_fst (·.toParamSig) (Nat.le_of_eq length.symm)
    bodyLambda := by
      rw [params.busy.scopes.lambda _ (by rw [self₂.length, self₁.length]; omega), middle,
        self₁.busy.scopes.lambda _ (by omega), body, record.2]
    defaults := by rw [defaults, self₂.decls]
    defaultsLambda := by
      rw [defaults, self₂.busy.scopes.lambda _ (by rw [self₁.length]; omega), other]
      exact record'.2.trans (congrArg _ ((enterFunction_kept f).record 0 started))
    err := by rw [params.err, self₂.err, self₁.err]; rfl
    captures := by rw [params.captures, self₂.captures, self₁.captures]; rfl
    currentLambda := by
      rw [params.busy.currentLambda, self₂.busy.currentLambda, self₁.busy.currentLambda]
      rfl }

theorem kept_take (h : Scopes) (k : Nat) : Kept (h.take k) h where
  length := by simp [Nat.min_le_right]
  record i hi := by
    simp only [Scopes.record]
    rw [getElem?_take_of_lt (by simp at hi; omega)]

/-- The blocks of a function whose scopes are ready. The body's scope is open while the
    defaults are checked, so the defaults are checked on top of it. -/
theorem ScopesReady.sketches {f : Function} {defaults : List Param} {body : List Stmt}
    {ready : CheckState} {rt : Ty} {flow : Flow} (started : 0 < st.scopes.length)
    (err : st.err = none) (h : ScopesReady st f ready)
    (params : ItemsOutcome (st.scopes.length + 1) globalScope ready (f.params.map Param.item)
      (defaults.map Param.item) st₁)
    (sigs : defaults.map (·.toParamSig) = f.sigs)
    (items : BlockOutcome st.scopes.length globalScope { st₁ with currentReturn := some rt } f.body
      (body, flow) st') :
    SketchesOutcome st f.sketches { f with params := defaults, body := body }.sketches st' := by
  have opened : (ready.scopes.take (st.scopes.length + 1)).length = st.scopes.length + 1 := by
    simp [h.length]
  have taken := kept_take ready.scopes (st.scopes.length + 1)
  have below : Kept st.scopes (ready.scopes.take (st.scopes.length + 1)) :=
    ⟨by omega, fun j hj => (taken.record j (by omega)).symm.trans (h.kept.record j hj)⟩
  -- the defaults, on top of the body's empty scope
  have first := @ItemsOutcome.part _
    { ready with scopes := ready.scopes.take (st.scopes.length + 1) } _ _ f.selfDecls _ _ _
    ⟨h.err.trans err, ⟨taken, rfl, rfl, rfl⟩, fun _ mem => mem⟩
    (Nat.le_of_eq opened) (by rw [h.length]; omega) h.defaults
    (by rw [h.defaultsLambda]; exact congrArg _ (below.record 0 started).symm) rfl params
  have filled := first.step.quiet.scopes
  have bodyScope : st₁.scopes.record st.scopes.length = ready.scopes.record st.scopes.length :=
    params.busy.scopes.record _ (by rw [h.length]; omega) (by simp)
  have lambda : st₁.currentLambda = st.currentLambda :=
    params.busy.currentLambda.trans h.currentLambda
  have longer : st.scopes.length < st₁.scopes.length := by
    have := params.busy.scopes.length
    rw [h.length] at this
    omega
  -- the body, in its scope
  have second := @ItemsOutcome.part _
    { st₁ with currentReturn := some rt, scopes := st.scopes }
    { st₁ with currentReturn := some rt } _ (paramDecls f.selfDecls f.sigs) _ _ _
    ⟨items.err, ⟨below.trans filled, rfl, rfl, rfl⟩, fun _ mem => mem⟩ (Nat.le_refl _) longer
    (bodyScope.symm ▸ h.body) (bodyScope.symm ▸ h.bodyLambda) rfl items.toItemsOutcome
  have kept := second.step.quiet.scopes
  refine ⟨err, kept, second.step.quiet.currentLambda.trans lambda, ?_, ?_⟩
  · have sigs' : { f with params := defaults, body := body }.sigs = f.sigs := sigs
    simp only [Function.sketches, Function.defaultsSketch, Function.bodySketch, sigs',
      map_cons, map_nil]
    exact congrArg₂ (fun a b => [a, b]) first.outline second.outline
  · intro tag hf c level standing sound
    simp only [Function.sketches, forall_mem_cons] at sound ⊢
    have final : Final (st.scopes.length + 1) st₁.scopes hf := by
      intro j new hj
      rw [standing.final j (by omega) (Nat.lt_of_lt_of_le hj items.busy.scopes.length)]
      exact items.busy.scopes.record j hj (by simp; omega)
    obtain ⟨defaultsSound, -, defaultsVisited⟩ := first.holds tag hf c
      ⟨standing.place.of_kept below h.currentLambda, standing.blocks, opened.symm ▸ final⟩
      (holds_zero level sound.1)
    obtain ⟨bodySound, -, bodyVisited⟩ := second.holds tag hf c
      ⟨standing.place.of_kept (.refl _) lambda, standing.blocks, standing.final⟩
      (holds_zero level sound.2.1)
    have sigs' : { f with params := defaults, body := body }.sigs = f.sigs := sigs
    refine ⟨⟨defaultsSound.sound, defaultsVisited⟩, ?_, by simp⟩
    rw [Function.bodySketch, sigs']
    exact ⟨bodySound.sound, bodyVisited⟩

theorem SketchesOutcome.congr {before after : List Sketch} (h : SketchesOutcome st before after st₁)
    (scopes : st'.scopes = st₁.scopes) (lambda : st'.currentLambda = st₁.currentLambda) :
    SketchesOutcome st before after st' :=
  ⟨h.err, scopes ▸ h.kept, lambda.trans h.currentLambda, h.outlines, scopes ▸ h.holds⟩

theorem checkFunction_outcome (exprs : ExprSpec self.expr) (blocks : BlockSpec self.block)
    (onward : ∀ sc e expected, OnwardM (self.expr sc e expected))
    (started : 0 < st.scopes.length) (f : Function) (index : Nat)
    (ok : (checkFunction env self f index st).2.err = none)
    (accepted : (checkFunction env self f index st).1.2 = none) :
    SketchesOutcome st f.sketches (checkFunction env self f index st).1.1.sketches
      (checkFunction env self f index st).2 ∧
    (checkFunction env self f index st).1.1.dead = f.dead := by
  simp only [checkFunction, CheckM.bind_run, openFunction_run, CheckM.get_run] at ok accepted ⊢
  cases header : functionHeader env.toTypeEnv f with
  | error d => simp [header] at accepted
  | ok found =>
    obtain ⟨typeParams, receiver, types⟩ := found
    obtain ⟨same, length⟩ := functionHeader_ok header
    have ready := scopesReady started index typeParams same length
    simp only [header, CheckM.bind_run, CheckM.modify_run] at ok accepted ⊢
    simp only [enterScopes] at ready
    generalize (bindParams (st.scopes.length :: globalScope) (f.params.zip types) _).2 = st₁
      at ok accepted ready ⊢
    have inside : st.scopes.length + 1 < st₁.scopes.length := by rw [ready.length]; omega
    rw [enterFunction_length] at ok accepted ⊢
    have defaults := @checkDefaults_outcome _ _ _ globalScope exprs onward (f.params.zip types)
      inside
    have grown := (@checkDefaults_onward _ ((st.scopes.length + 1) :: globalScope) onward
      (f.params.zip types) st₁).length
    have le := Nat.le_of_eq length.symm
    have zippedDead : (f.params.zip types).flatMap (·.1.dead) = f.params.flatMap Param.dead := by
      rw [flatMap_def, map_zip_fst Param.dead le, ← flatMap_def]
    rw [map_zip_fst Param.item le, map_zip_fst (·.toParamSig) le, zippedDead] at defaults
    generalize checkDefaults self ((st.scopes.length + 1) :: globalScope) (f.params.zip types) st₁
      = run at ok accepted defaults grown ⊢
    obtain ⟨⟨params, failed⟩, st₂⟩ := run
    cases failed with
    | some d => simp at accepted
    | none =>
      cases result : functionReturn env.toTypeEnv { f with params := params } typeParams types with
      | error d => simp [result] at accepted
      | ok rt =>
        simp only [result, CheckM.bind_run, CheckM.modify_run, CheckM.pure_run] at ok accepted ⊢
        obtain ⟨⟨body, flow⟩, st', items, function, after⟩ := @checkFunctionBody_outcome _ _ _
          globalScope blocks { f with params := params } rt
          (Nat.lt_of_lt_of_le (Nat.lt_of_succ_lt inside) grown) ok
        obtain ⟨defaultItems, sigs, dead⟩ := defaults items.err rfl
        rw [function, after]
        refine ⟨?_, ?_⟩
        · exact (ready.sketches started (ready.err.symm.trans defaultItems.err) defaultItems sigs
            items).congr rfl rfl
        · simp [Function.dead, dead, items.dead]

/-! ## Lists of functions -/

theorem checkFunction_onward (exprs : ∀ sc e expected, OnwardM (self.expr sc e expected))
    (blocks : ∀ sc body ctx, OnwardM (self.block sc body ctx)) (f : Function) (index : Nat) :
    OnwardM (checkFunction env self f index) := by
  have opens : OnwardM (openFunction f) :=
    .bind (.openScope _ _) fun scope => .bind (fun st => ⟨id, by
      cases scope <;> simp [Scopes.update]⟩) fun _ => .pure _
  have receives (scope : ScopeRef) (receiver : Option Ty) :
      OnwardM (bindReceiver scope f receiver) := by
    cases receiver with
    | none => exact .pure _
    | some t => exact .declare _ _ _
  have binds (scope : ScopeRef) (params : List (Param × Ty)) : OnwardM (bindParams scope params) := by
    induction params with
    | nil => exact .pure _
    | cons p rest ih => exact .bind (.declare _ _ _) fun _ => ih
  have body (scope : ScopeRef) (f : Function) (rt : Ty) :
      OnwardM (checkFunctionBody self scope f rt) :=
    .bind (fun st => ⟨id, Nat.le_refl _⟩) fun _ => .bind (blocks _ _ _) fun r =>
      .bind (fun st => ⟨id, Nat.le_refl _⟩) fun _ =>
        .ite (.bind .get fun _ => .pure _) (.ite (.pure _) (.pure _))
  refine .bind opens fun scope => .bind opens fun defaultScope => .bind .get fun st => ?_
  split
  · exact .pure _
  · refine .bind (fun st => ⟨id, Nat.le_refl _⟩) fun _ => .bind (receives _ _) fun _ =>
      .bind (receives _ _) fun _ => .bind (binds _ _) fun _ =>
        .bind (checkDefaults_onward exprs _) fun r => ?_
    obtain ⟨params, failed⟩ := r
    cases failed with
    | some d => exact .pure _
    | none =>
      dsimp only
      split
      · exact .pure _
      · exact .bind (body _ _ _) fun _ => .bind (fun st => ⟨id, Nat.le_refl _⟩) fun _ => .pure _

theorem checkFunctions_outcome (exprs : ExprSpec self.expr) (blocks : BlockSpec self.block)
    (onward : (∀ sc e expected, OnwardM (self.expr sc e expected)) ∧
      ∀ sc body ctx, OnwardM (self.block sc body ctx))
    (functions : List Function) (started : 0 < st.scopes.length) (index : Nat)
    (ok : (checkFunctions env self functions index st).2.err = none)
    (accepted : (checkFunctions env self functions index st).1.2 = none) :
    SketchesOutcome st (functions.flatMap Function.sketches)
      ((checkFunctions env self functions index st).1.1.flatMap Function.sketches)
      (checkFunctions env self functions index st).2 ∧
    (checkFunctions env self functions index st).1.1.flatMap Function.dead =
      functions.flatMap Function.dead := by
  induction functions generalizing st index with
  | nil => exact ⟨.nil ok, rfl⟩
  | cons f fs ih =>
    have first := @checkFunction_outcome env _ st exprs blocks onward.1 started f index
    have longer := (@checkFunction_onward env _ onward.1 onward.2 f index st).length
    simp only [checkFunctions, CheckM.bind_run] at ok accepted ⊢
    generalize checkFunction env self f index st = run at ok accepted first longer ⊢
    obtain ⟨⟨f', failed⟩, st₁⟩ := run
    cases failed with
    | some d => simp at accepted
    | none =>
      obtain ⟨rest, deads⟩ := ih (Nat.lt_of_lt_of_le started longer) (index + 1) ok accepted
      obtain ⟨here, dead⟩ := first rest.err rfl
      refine ⟨here.append rest, ?_⟩
      simp only [flatMap_cons]
      exact congrArg₂ _ dead deads

/-- The state in which the top-level statements are checked. -/
def enterTop (st : CheckState) : CheckState :=
  { st with scopes := (st.scopes.newScope globalScope false).2 }

theorem openScope_run :
    openScope globalScope false st = (st.scopes.length :: globalScope, enterTop st) := rfl

theorem checkProgram_outcome (exprs : ExprSpec self.expr) (blocks : BlockSpec self.block)
    (onward : (∀ sc e expected, OnwardM (self.expr sc e expected)) ∧
      ∀ sc body ctx, OnwardM (self.block sc body ctx))
    (p : Program) (started : 0 < st.scopes.length)
    (ok : (checkProgram env self p st).2.err = none)
    (accepted : (checkProgram env self p st).1.2 = none) :
    SketchesOutcome st p.sketches (checkProgram env self p st).1.1.sketches
      (checkProgram env self p st).2 ∧
    (checkProgram env self p st).1.1.dead = p.dead := by
  have functions := @checkFunctions_outcome env _ _ exprs blocks onward p.functions started 0
  simp only [checkProgram, CheckM.bind_run] at ok accepted ⊢
  generalize checkFunctions env self p.functions 0 st = run at ok accepted functions ⊢
  obtain ⟨⟨fs, failed⟩, st₁⟩ := run
  cases failed with
  | some d => simp at accepted
  | none =>
    simp only [openScope_run, CheckM.bind_run] at ok accepted ⊢
    have record : Scopes.record (enterTop st₁).scopes st₁.scopes.length =
        { (st₁.scopes.top globalScope) with values := [], worker := false } := by
      simp [enterTop, Scopes.newScope]
    have bound : st₁.scopes.length < (enterTop st₁).scopes.length := by
      simp [enterTop, Scopes.newScope]
    have items := blocks st₁.scopes.length globalScope p.statements { rt := .nil } (enterTop st₁)
      bound
    generalize self.block (st₁.scopes.length :: globalScope) p.statements { rt := .nil }
      (enterTop st₁) = run at ok accepted items ⊢
    obtain ⟨⟨statements, flow⟩, st'⟩ := run
    cases reported : flow.hasError with
    | true => simp [reported] at accepted
    | false =>
      simp only [reported, Bool.false_eq_true, if_false, CheckM.pure_run] at ok accepted ⊢
      have h := items ok
      obtain ⟨before, dead⟩ := functions h.err rfl
      have part := @ItemsOutcome.part _ st₁ (enterTop st₁) _ [] _ _ _
        ⟨h.err, ⟨kept_append _ _, rfl, rfl, rfl⟩, fun _ mem => mem⟩ (Nat.le_refl _) bound
        (by rw [record]; rfl) (by rw [record]) rfl h.toItemsOutcome
      have top : SketchesOutcome st₁ [p.topSketch] [.block [] (stmtItems statements)] st' :=
        part.sketch h.err (.refl _) (.refl _) rfl rfl
      refine ⟨before.append top, ?_⟩
      exact congrArg₂ _ dead h.dead

end Functions

/-! ## Programs -/

/-- The records of an accepted program: its text is what it was, and every record is
    right and there. -/
structure CheckedRecords (env : CheckEnv) (p p' : Program) (h : Scopes) : Prop where
  outlines : p'.sketches.map Skel.erase = p.sketches.map Skel.erase
  dead : p'.dead = p.dead
  sound : ∀ s ∈ p'.sketches, Everywhere (Sound h) (p.blocks env) s
  visited : ∀ s ∈ p'.sketches, Everywhere Visited (p.blocks env) s

theorem Unmarked.sound {hf : Scopes} {c : Blocks} {s : Sketch} (h : Everywhere Unmarked c s) :
    Everywhere (Sound hf) c s := by
  intro x mem
  have here := h.part mem
  obtain ⟨c', t⟩ := x
  cases t with
  | use name m =>
    have blank := everywhere_use.mp here
    simp_all [Unmarked, Sound]
  | assign name m =>
    simp_all [Unmarked, Sound]
  | node done parts =>
    have blank := (everywhere_node.mp here).1
    simp_all [Unmarked, Sound]
  | call done direct callee args =>
    have blank := (everywhere_call.mp here).1
    simp_all [Unmarked, Sound]
  | block params body => trivial
  | closure done captured params body =>
    obtain ⟨⟨open', none⟩, inside⟩ := everywhere_closure.mp here
    subst open' none
    refine ⟨?_, by simp [captureKeys], by simp⟩
    rintro ⟨d, u⟩ mem' -
    have blank := inside _ mem'
    cases u with
    | use name m => simp_all [Unmarked]
    | closure done captured params body => simp_all [Unmarked]
    | _ => trivial

theorem Program.unmarked {p : Program} (fresh : p.unchecked = true) (c : Blocks) :
    ∀ s ∈ p.sketches, Everywhere Unmarked c s := by
  simp only [Program.unchecked, Bool.and_eq_true, all_eq_true, Function.unchecked] at fresh
  simp only [sketches, Function.sketches, forall_mem_append, forall_mem_singleton,
    mem_flatMap, forall_exists_index, and_imp]
  refine ⟨fun s f mem => ?_, everywhere_block.mpr ⟨trivial, stmtsUnmarked _ fresh.2 _ _ _ _⟩⟩
  have own := fresh.1 f mem
  have defaults (params : List Param) (h : ∀ q ∈ params, q.unchecked = true)
      (fin now : List (String × Decl)) (level : Nat) :
      EverywhereItems Unmarked c fin level now (params.map Param.item) := by
    induction params generalizing now with
    | nil => exact everywhereItems_nil
    | cons q rest ih =>
      have here := h q mem_cons_self
      refine everywhereItems_cons.mpr ⟨?_, ih (fun r hr => h r (mem_cons_of_mem q hr)) _⟩
      cases written : q.default with
      | none => simp [Param.item, Item.part, written, Unmarked]
      | some e =>
        simp only [Param.unchecked, written, Option.all_some] at here
        simpa [Param.item, Item.part, written] using e.unmarked here _
  simp only [mem_cons, not_mem_nil, or_false]
  rintro (rfl | rfl)
  · exact everywhere_block.mpr ⟨trivial, defaults f.params own.1 _ _ _⟩
  · exact everywhere_block.mpr ⟨trivial, stmtsUnmarked f.body own.2 _ _ _ _⟩

theorem sketches_markWorkers (p : Program) :
    (markWorkers p).sketches = p.sketches ∧ (markWorkers p).dead = p.dead := by
  simp only [markWorkers, Program.sketches, Program.dead, flatMap_map]
  exact ⟨rfl, rfl⟩

theorem startState_standing {env : CheckEnv} {p q : Program} {hf : Scopes}
    {values : List (String × Binding)} (globals : declareGlobals env p.statements [] = .ok values)
    (kept : Kept (startState q values).scopes hf) :
    Standing (fun _ => none) hf (startState q values) globalScope (p.blocks env) hf where
  place := {
    names := .cons (by simp [Program.globals, globals, startState, Scopes.record, Frame.names,
      ScopeRecord.decls]) .nil
    tags := .cons rfl .nil
    bound := by simp [startState, globalScope]
    distinct := by simp [globalScope]
    levels := by simp [Program.blocks, Chain.level]
    injective := by
      intro a b ha hb _
      exact (Nat.le_zero.mp ha).trans (Nat.le_zero.mp hb).symm
    outermost := rfl
    closures := fun a pos ha => absurd ha (Nat.not_le_of_lt pos)
    current := rfl }
  blocks := .cons (by
    rw [kept.record 0 (by simp [startState])]
    simp [Program.globals, globals, startState, Scopes.record, Frame.names,
      ScopeRecord.decls]) .nil
  final := fun _ _ _ => rfl

theorem check_records [FloatArith] {env : CheckEnv} (builtins : BuiltinsCheckArguments env)
    {depth : Nat} {p p' : Program} {h : Scopes} (fresh : p.unchecked = true)
    (accepted : check env depth p = .ok (p', h)) : CheckedRecords env p p' h := by
  obtain ⟨values, globals, accepted⟩ := bind_eq_ok accepted
  obtain ⟨exprs, blocks⟩ := checking_spec builtins depth
  have outcome := @checkProgram_outcome env _ (startState (markWorkers p) values) exprs blocks
    (checking_onward env depth) (markWorkers p) (by simp [startState])
  generalize checkProgram env (checking env depth) (markWorkers p)
    (startState (markWorkers p) values) = run at accepted outcome
  obtain ⟨⟨q, failed⟩, st'⟩ := run
  cases failed with
  | some d => simp at accepted
  | none =>
    cases reported : st'.err with
    | some d => simp [reported] at accepted
    | none =>
      simp only [reported, Option.orElse_eq_orElse, Option.orElse_none, Except.ok.injEq,
        Prod.mk.injEq] at accepted
      obtain ⟨rfl, rfl⟩ := accepted
      obtain ⟨records, dead⟩ := outcome reported rfl
      obtain ⟨same, sameDead⟩ := sketches_markWorkers p
      have all := records.holds (fun _ => none) st'.scopes (p.blocks env) rfl
        (startState_standing globals records.kept)
        fun s mem => Unmarked.sound (p.unmarked fresh _ s (same ▸ mem))
      exact ⟨same ▸ records.outlines, dead.trans sameDead, fun s mem => (all s mem).1,
        fun s mem => (all s mem).2⟩

end Kryndel
