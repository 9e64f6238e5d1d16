import Kryndel.Checker.Flow
import Kryndel.Kir.TreeForm
import Kryndel.Match.Exhaustive

/-!
# Executing the statements of KIR

The control part of the executor: how the statements of a block follow each other, how loops go
on and end, which arm of a match is taken, and when deferred bodies run. Expressions, scopes and
limits are those of a machine about which nothing is assumed. The debugger is left out, and so
are the values in flows.
-/

namespace Kryndel

/-! ## The machine -/

/-- What an evaluation ends with: a value, a value that `?` returns at once, or a diagnostic. -/
inductive Evaluated where
  | value (v : Value)
  | propagated (v : Value)
  | failed

/-- `kirExecFlow`. A tail call counts as a return. -/
inductive KIRFlow where
  | normal
  | broke
  | continued
  | returned
deriving DecidableEq, Repr

/-- The operations of the executor that statements use, over scopes and states of any kind.
    Those that may end with a diagnostic say so with `false`. An execution that ends with a
    diagnostic has no flow. -/
structure KIRMachine (κ σ : Type) where
  /-- `kirExecutor.step`. -/
  step : Mir.KIRStmt sourceScalars → StateM σ Bool
  /-- `kirExecutor.evalExpr`, with `takeKIRPropagated`. -/
  evalExpr : κ → Mir.KIRExpr sourceScalars → StateM σ Evaluated
  /-- `kirExecutor.evalKIRTailCall`. -/
  evalTailCall : κ → Mir.KIRExpr sourceScalars → StateM σ Bool
  /-- `newKIRExecScope`. -/
  newScope : κ → StateM σ κ
  /-- `kirExecScope.define`. -/
  define : κ → Option KIRBinding → Value → StateM σ Bool
  /-- The target of an assignment is bound, and mutable. -/
  assignable : κ → Mir.KIRExpr sourceScalars → StateM σ Bool
  assign : κ → Mir.KIRExpr sourceScalars → Value → StateM σ Unit

/-! ## Statements -/

/-- The items that a `for` goes over. -/
def forItems : Value → Option (List Value)
  | .array items | .set items => some items
  | .string s => some (s.toList.map fun c => .string (String.singleton c))
  | .bytes bs => some (bs.map fun b => .int (Int64.ofNat b.toNat))
  | _ => none

/-- `Value.Inner`. -/
def Value.payload : Value → Option Value
  | .present inner | .result _ inner => some inner
  | _ => none

/-- The body that a statement adds to the deferred bodies of its scope. -/
def deferredBody : Mir.KIRStmt sourceScalars → List (List (Mir.KIRStmt sourceScalars))
  | .node value _ _ _ _ _ _ _ _ _ _ _ body _ => if value.kind = "defer" then [body] else []
  | .nil => []

section Execution

variable {κ σ : Type} (m : KIRMachine κ σ)

/-- Evaluate an expression of a statement and go on with its value. -/
def withValue (scope : κ) (e : Mir.KIRExpr sourceScalars)
    (next : Value → StateM σ (Option KIRFlow)) : StateM σ (Option KIRFlow) := do
  match ← m.evalExpr scope e with
  | .value v => next v
  | .propagated _ => return some .returned
  | .failed => return none

/-- Evaluate a condition and go on. -/
def withBool (scope : κ) (e : Mir.KIRExpr sourceScalars)
    (next : Bool → StateM σ (Option KIRFlow)) : StateM σ (Option KIRFlow) :=
  withValue m scope e fun v =>
    match v with
    | .bool b => next b
    | _ => return none

/-- Bind a value in a scope and go on. -/
def withBinding (scope : κ) (binding : Option KIRBinding) (v : Value)
    (next : StateM σ (Option KIRFlow)) : StateM σ (Option KIRFlow) := do
  if ← m.define scope binding v then next else return none

variable (block : κ → List (Mir.KIRStmt sourceScalars) → StateM σ (Option KIRFlow))

/-- The loop of `while`, of at most so many rounds. Every check of the condition is a step. -/
def execWhile (scope : κ) (s : Mir.KIRStmt sourceScalars) (cond : Mir.KIRExpr sourceScalars)
    (body : List (Mir.KIRStmt sourceScalars)) : Nat → StateM σ (Option KIRFlow)
  | 0 => return none
  | n + 1 => do
      if ← m.step s then
        withBool m scope cond fun b => do
          if b then
            match ← block (← m.newScope scope) body with
            | none => return none
            | some .returned => return some .returned
            | some .broke => return some .normal
            | some .continued | some .normal => execWhile scope s cond body n
          else return some .normal
      else return none

/-- The loop of `for` over the items. -/
def execFor (scope : κ) (binding : Option KIRBinding)
    (body : List (Mir.KIRStmt sourceScalars)) : List Value → StateM σ (Option KIRFlow)
  | [] => return some .normal
  | item :: items => do
      let inner ← m.newScope scope
      withBinding m inner binding item do
        match ← block inner body with
        | none => return none
        | some .returned => return some .returned
        | some .broke => return some .normal
        | some .continued | some .normal => execFor scope binding body items

/-- The arms of a match: the first one whose pattern fits is executed. -/
def execMatch (scope : κ) (v : Value) : List (Mir.KIRArm sourceScalars) → StateM σ (Option KIRFlow)
  | .node _ (some p) body :: arms => do
      if matchPattern v { kind := p.value.kind } then
        let inner ← m.newScope scope
        if p.value.bindingName != "" then
          match v.payload with
          | none => return none
          | some payload => withBinding m inner p.resolvedBinding payload (block inner body)
        else block inner body
      else execMatch scope v arms
  | _ => return none

/-- `return`. A call in tail position is not evaluated here. -/
def execReturn (scope : κ) : Mir.KIRExpr sourceScalars → StateM σ (Option KIRFlow)
  | .nil => return some .returned
  | .node value l r o b rc c f bd k args items keys values => do
      let e := Mir.KIRExpr.node value l r o b rc c f bd k args items keys values
      if value.kind == "call" && value.tail then
        if ← m.evalTailCall scope e then return some .returned else return none
      else withValue m scope e fun _ => return some .returned

/-- `kirExecutor.execStmt`. -/
def execStmt (fuel : Nat) (scope : κ) (s : Mir.KIRStmt sourceScalars) : StateM σ (Option KIRFlow) :=
  match s with
  | .nil => return none
  | .node value binding init expr target valueExpr cond iter ret scrutinee thenBody elseBody body
      arms =>
    match value.kind with
    | "let" | "const" => withValue m scope init fun v =>
        withBinding m scope binding v (return some .normal)
    | "assign" => do
        if ← m.assignable scope target then
          withValue m scope valueExpr fun v => do
            m.assign scope target v
            return some .normal
        else return none
    | "expr" => withValue m scope expr fun _ => return some .normal
    | "if" => withBool m scope cond fun b => do
        block (← m.newScope scope) (if b then thenBody else elseBody)
    | "while" => execWhile m block scope s cond body fuel
    | "for" => withValue m scope iter fun v =>
        match forItems v with
        | none => return none
        | some items => execFor m block scope binding body items
    | "break" => return some .broke
    | "continue" => return some .continued
    | "defer" => return some .normal
    | "unsafe" => do block (← m.newScope scope) body
    | "match" => withValue m scope scrutinee fun v => execMatch m block scope v arms
    | "return" => execReturn m scope ret
    | _ => return none

/-! ## Blocks -/

/-- The statements of a block up to the first one that does not end normally, and the bodies
    deferred until then, the last one first. -/
def execStmts (fuel : Nat) (scope : κ) : List (Mir.KIRStmt sourceScalars) →
    List (List (Mir.KIRStmt sourceScalars)) →
      StateM σ (Option KIRFlow × List (List (Mir.KIRStmt sourceScalars)))
  | [], defers => return (some .normal, defers)
  | s :: rest, defers => do
      if ← m.step s then
        match ← execStmt m block fuel scope s with
        | some .normal => execStmts fuel scope rest (deferredBody s ++ defers)
        | flow => return (flow, defers)
      else return (none, defers)

/-- The deferred bodies of a block. Their flows have no effect, and their diagnostics do. -/
def execDefers (scope : κ) : List (List (Mir.KIRStmt sourceScalars)) → Option KIRFlow →
    StateM σ (Option KIRFlow)
  | [], flow => return flow
  | body :: rest, flow => do
      match ← block (← m.newScope scope) body with
      | none => execDefers scope rest none
      | some _ => execDefers scope rest flow

/-- `kirExecutor.execBlock`, for blocks nested and loops repeated at most so many times. -/
def execBlock : Nat → κ → List (Mir.KIRStmt sourceScalars) → StateM σ (Option KIRFlow)
  | 0, _, _ => return none
  | n + 1, scope, body => do
      let (flow, defers) ← execStmts m (execBlock n) n scope body []
      execDefers m (execBlock n) scope defers flow

end Execution

/-! ## The ways out that the checker sees -/

/-- A flow is among the ways out that are left open: that control goes on, and that it leaves
    the loop around. A return and a diagnostic always are. -/
def FlowIn (falls leaves : Bool) : Option KIRFlow → Prop
  | none | some .returned => True
  | some .normal => falls = true
  | some .broke | some .continued => leaves = true

section FlowIn

variable {κ σ : Type} {m : KIRMachine κ σ} {falls leaves falls' leaves' : Bool}
  {flow : Option KIRFlow}

theorem FlowIn.mono (h : FlowIn falls leaves flow) (hfalls : falls = true → falls' = true)
    (hleaves : leaves = true → leaves' = true) : FlowIn falls' leaves' flow := by
  rcases flow with _ | _ | _ | _ | _
  · trivial
  · exact hfalls h
  · exact hleaves h
  · exact hleaves h
  · trivial

/-- What a computation of a flow ends with, from any state. -/
def FlowsIn (falls leaves : Bool) (run : StateM σ (Option KIRFlow)) : Prop :=
  ∀ st, FlowIn falls leaves (run st).1

theorem FlowsIn.pure (h : FlowIn falls leaves flow) :
    FlowsIn falls leaves (pure flow : StateM σ (Option KIRFlow)) :=
  fun _ => h

theorem FlowsIn.bind {α : Type} {run : StateM σ α} {next : α → StateM σ (Option KIRFlow)}
    (h : ∀ a, FlowsIn falls leaves (next a)) : FlowsIn falls leaves (run >>= next) :=
  fun st => h (run st).1 (run st).2

theorem FlowsIn.mono {run : StateM σ (Option KIRFlow)} (h : FlowsIn falls leaves run)
    (hfalls : falls = true → falls' = true) (hleaves : leaves = true → leaves' = true) :
    FlowsIn falls' leaves' run :=
  fun st => (h st).mono hfalls hleaves

theorem FlowsIn.ite {c : Bool} {a b : StateM σ (Option KIRFlow)} (ha : FlowsIn falls leaves a)
    (hb : FlowsIn falls leaves b) : FlowsIn falls leaves (if c then a else b) := by
  cases c with
  | true => exact ha
  | false => exact hb

variable {e : Mir.KIRExpr sourceScalars} {scope : κ}

theorem withValue_flowsIn {next : Value → StateM σ (Option KIRFlow)}
    (h : ∀ v, FlowsIn falls leaves (next v)) :
    FlowsIn falls leaves (withValue m scope e next) := by
  apply FlowsIn.bind
  intro result
  cases result with
  | value v => exact h v
  | propagated v | failed => exact .pure trivial

theorem withBool_flowsIn {next : Bool → StateM σ (Option KIRFlow)}
    (h : ∀ b, FlowsIn falls leaves (next b)) :
    FlowsIn falls leaves (withBool m scope e next) := by
  apply withValue_flowsIn
  intro v
  cases v with
  | bool b => exact h b
  | _ => exact .pure trivial

variable {binding : Option KIRBinding}

theorem withBinding_flowsIn {v : Value} {next : StateM σ (Option KIRFlow)}
    (h : FlowsIn falls leaves next) :
    FlowsIn falls leaves (withBinding m scope binding v next) :=
  .bind fun _ => .ite h (.pure trivial)

variable {block : κ → List (Mir.KIRStmt sourceScalars) → StateM σ (Option KIRFlow)}

variable {body : List (Mir.KIRStmt sourceScalars)}

theorem execWhile_flowsIn {s : Mir.KIRStmt sourceScalars} {cond : Mir.KIRExpr sourceScalars}
    {n : Nat} :
    FlowsIn true false (execWhile m block scope s cond body n) := by
  induction n with
  | zero => exact .pure trivial
  | succ n ih =>
    apply FlowsIn.bind
    intro stepped
    refine .ite (withBool_flowsIn fun b => .ite (.bind fun inner => .bind fun flow => ?_)
      (.pure rfl)) (.pure trivial)
    rcases flow with _ | _ | _ | _ | _
    · exact .pure trivial
    · exact ih
    · exact .pure rfl
    · exact ih
    · exact .pure trivial

theorem execFor_flowsIn {items : List Value} :
    FlowsIn true false (execFor m block scope binding body items) := by
  induction items with
  | nil => exact .pure rfl
  | cons item items ih =>
    refine .bind fun inner => withBinding_flowsIn (.bind fun flow => ?_)
    rcases flow with _ | _ | _ | _ | _
    · exact .pure trivial
    · exact ih
    · exact .pure rfl
    · exact ih
    · exact .pure trivial

theorem execReturn_flowsIn :
    FlowsIn false false (execReturn m scope e) := by
  cases e with
  | nil => exact .pure trivial
  | node =>
    exact .ite (.bind fun _ => .ite (.pure trivial) (.pure trivial))
      (withValue_flowsIn fun _ => .pure trivial)

end FlowIn

/-! ## Lowered bodies -/

section Lowered

variable {κ σ : Type} {m : KIRMachine κ σ} {builder : ArenaBuilder}
  {block : κ → List (Mir.KIRStmt sourceScalars) → StateM σ (Option KIRFlow)}

/-- The blocks that are lowered from a body end as the checker has it. -/
def BlockFlowsIn (builder : ArenaBuilder)
    (block : κ → List (Mir.KIRStmt sourceScalars) → StateM σ (Option KIRFlow)) : Prop :=
  ∀ scope body,
    FlowsIn (blockFalls body) (bodyLeavesLoop body) (block scope (kirStmts builder body))

variable {scope : κ}

theorem execMatch_flowsIn (hblock : BlockFlowsIn builder block) {v : Value} {arms : List MatchArm} :
    FlowsIn (anyArmFalls arms) (armsLeaveLoop arms)
      (execMatch m block scope v (kirArms builder arms)) := by
  induction arms with
  | nil => exact .pure trivial
  | cons arm rest ih =>
    obtain ⟨p, body⟩ := arm
    have hbody : ∀ inner, FlowsIn (anyArmFalls (.mk p body :: rest))
        (armsLeaveLoop (.mk p body :: rest)) (block inner (kirStmts builder body)) := by
      intro inner
      refine (hblock inner body).mono ?_ ?_
      all_goals
        intro h
        exact Bool.or_eq_true_iff.mpr (.inl h)
    refine .ite (.bind fun inner => .ite ?_ (hbody inner)) (ih.mono ?_ ?_)
    · cases v.payload with
      | none => exact .pure trivial
      | some payload => exact withBinding_flowsIn (hbody inner)
    all_goals
      intro h
      exact Bool.or_eq_true_iff.mpr (.inr h)

theorem execStmt_flowsIn (hblock : BlockFlowsIn builder block) {fuel : Nat} {scope : κ}
    {s : Stmt} :
    FlowsIn s.falls s.leavesLoop (execStmt m block fuel scope (kirStmt builder s)) := by
  cases s with
  | letStmt info init =>
    obtain ⟨tok, nameToken, name, mutable, isConst, annotationSpec, type⟩ := info
    cases isConst <;> exact withValue_flowsIn fun _ => withBinding_flowsIn (.pure rfl)
  | exprStmt tok e => exact withValue_flowsIn fun _ => .pure rfl
  | assign tok target value =>
    exact .bind fun _ => .ite (withValue_flowsIn fun _ => .bind fun _ => .pure rfl) (.pure trivial)
  | ifStmt tok cond thenBody elseBody =>
    refine withBool_flowsIn fun b => .bind fun inner => ?_
    cases b with
    | true =>
      refine (hblock inner thenBody).mono ?_ ?_
      · intro h
        simp [Stmt.falls, h]
      · intro h
        simp [Stmt.leavesLoop, h]
    | false =>
      refine (hblock inner elseBody).mono ?_ ?_
      · intro h
        simp [Stmt.falls, h]
      · intro h
        simp [Stmt.leavesLoop, h]
  | whileStmt tok cond body => exact execWhile_flowsIn
  | returnStmt tok value => exact execReturn_flowsIn
  | breakStmt | continueStmt | deferStmt => exact .pure rfl
  | matchStmt tok scrutinee arms => exact withValue_flowsIn fun _ => execMatch_flowsIn hblock
  | forStmt info iter body =>
    refine withValue_flowsIn fun v => ?_
    cases forItems v with
    | none => exact .pure trivial
    | some items => exact execFor_flowsIn
  | unsafeStmt tok body =>
    exact .bind fun inner => (hblock inner body).mono (fun _ => rfl) id

variable {defers : List (List (Mir.KIRStmt sourceScalars))}

/-- The statements of a block end as the checker has it: once one of them does not end normally,
    the rest is not executed. -/
theorem execStmts_flowsIn (hblock : BlockFlowsIn builder block) {fuel : Nat} {body : List Stmt}
    {st : σ} :
    FlowIn (blockFalls body) (bodyLeavesLoop body)
      (execStmts m block fuel scope (kirStmts builder body) defers st).1.1 := by
  induction body generalizing defers st with
  | nil => exact rfl
  | cons s rest ih =>
    have hstmt := @execStmt_flowsIn _ _ m _ _ hblock fuel scope s
    show FlowIn _ _ (execStmts m block fuel scope (kirStmt builder s :: kirStmts builder rest)
      defers st).1.1
    simp only [execStmts, bind, StateT.bind]
    generalize m.step (kirStmt builder s) st = stepped
    obtain ⟨_ | _, st₁⟩ := stepped
    · trivial
    · have hflow := hstmt st₁
      simp only [if_true, StateT.bind, bind]
      generalize execStmt m block fuel scope (kirStmt builder s) st₁ = run at hflow ⊢
      obtain ⟨flow, st₂⟩ := run
      rcases flow with _ | _ | _ | _ | _
      · trivial
      · have hfalls : s.falls = true := hflow
        refine ih.mono ?_ ?_
        · intro h
          rw [blockFalls, hfalls, h, Bool.and_self]
        · intro h
          rw [bodyLeavesLoop, hfalls, h, Bool.and_self, Bool.or_true]
      · exact Bool.or_eq_true_iff.mpr (.inl hflow)
      · exact Bool.or_eq_true_iff.mpr (.inl hflow)
      · trivial

theorem execDefers_flowsIn {falls leaves : Bool} {flow : Option KIRFlow}
    (h : FlowIn falls leaves flow) :
    FlowsIn falls leaves (execDefers m block scope defers flow) := by
  induction defers generalizing flow with
  | nil => exact .pure h
  | cons body rest ih =>
    refine .bind fun inner => .bind fun deferred => ?_
    cases deferred with
    | none => exact ih trivial
    | some _ => exact ih h

theorem execBlock_flowsIn (m : KIRMachine κ σ) (builder : ArenaBuilder) (fuel : Nat) :
    BlockFlowsIn builder (execBlock m fuel) := by
  induction fuel with
  | zero => exact fun _ _ => .pure trivial
  | succ n ih =>
    intro scope body st
    exact execDefers_flowsIn (execStmts_flowsIn ih) _

theorem AlwaysReturns.execBlock {body : List Stmt} (h : AlwaysReturns body) (m : KIRMachine κ σ)
    (builder : ArenaBuilder) (fuel : Nat) (scope : κ) (st : σ) {flow : KIRFlow}
    (hflow : (execBlock m fuel scope (kirStmts builder body) st).1 = some flow) :
    flow = .returned := by
  have hin := execBlock_flowsIn m builder fuel scope body st
  rw [hflow, h.falls, h.leaves] at hin
  cases flow with
  | returned => rfl
  | normal | broke | continued => cases hin

end Lowered

end Kryndel
