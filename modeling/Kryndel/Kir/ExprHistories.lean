import Kryndel.Kir.Executor
import Kryndel.Kir.Histories

/-!
# What expressions do to scopes

Operations on the data of the executor touch neither the log nor the scopes nor a value that
waits. An expression may let values wait, and calls functions, and does nothing else to the
scope that it is evaluated in.
-/

namespace Kryndel.KIRExec

variable {ω : Type} {host : KIRHost ω}

/-! ## Operations on the data -/

section Data

variable {α : Type}

theorem still_perform (f : HostOp ω α) : Still (perform f) :=
  still_onData _

theorem still_reading (f : ExecData ω → α) : Still (Exec.reading f) :=
  still_onData _

theorem still_changing (f : ExecData ω → ExecData ω) : Still (Exec.changing f) :=
  still_onData _

variable (e : KIRExecExpr)

theorem still_failAt (category : Category) (message : String) :
    Still (failAt e category message : Exec ω α) :=
  still_done _

theorem still_fail (category : Category) (source : String) (line column : Nat)
    (message : String) : Still (Exec.fail category source line column message : Exec ω α) :=
  still_done _

theorem still_pure (a : α) : Still (pure a : Exec ω α) :=
  still_done (.ok a)

theorem Still.ite {c : Prop} [Decidable c] {x y : Exec ω α} (hx : Still x) (hy : Still y) :
    Still (if c then x else y) := by
  split
  · exact hx
  · exact hy

theorem still_define (scope : Nat) (binding : Option KIRBinding) (v : Value)
    (category : Category) (source : String) (line column : Nat) :
    Still (Exec.define scope binding v category source line column : Exec ω Unit) :=
  still_onData _

theorem still_checkedValue (v : Value) : Still (checkedValue host e v) :=
  (still_reading _).bind fun _ => .ite (still_pure v) (still_failAt _ _ _)

theorem still_builtValue (operands : List Value) :
    Still (builtValue host e operands) :=
  (still_perform _).bind fun v => still_checkedValue e v

theorem still_captureBinding (scope environment : Nat)
    (capture : Option (Mir.KIRCapture execScalars)) :
    Still (captureBinding e scope environment capture : Exec ω Unit) := by
  unfold captureBinding
  split
  · exact still_failAt _ _ _
  · refine .ite (still_failAt _ _ _) ((still_reading _).bind fun found => ?_)
    split
    · exact still_failAt _ _ _
    · refine .ite (still_failAt _ _ _) ((still_reading _).bind fun _ => ?_)
      exact .ite (still_failAt _ _ _) (still_changing _)

theorem still_captureBindings (scope environment : Nat)
    (captures : List (Option (Mir.KIRCapture execScalars))) :
    Still (captureBindings e scope environment captures : Exec ω Unit) := by
  induction captures with
  | nil => exact still_pure _
  | cons capture rest ih => exact (still_captureBinding _ _ _ _).bind fun _ => ih

theorem still_evalVar (scope : Nat) (binding : Option KIRBinding) :
    Still (evalVar host e scope binding) := by
  refine .ite ?_ ((still_reading _).bind fun found => ?_)
  · split
    · split
      · exact (still_perform _).bind fun _ => (still_reading _).bind fun _ => still_onData _
      · exact still_failAt _ _ _
    · exact still_failAt _ _ _
  · split
    · exact still_pure _
    · exact still_failAt _ _ _

end Data

/-! ## Expressions -/

section Expressions

variable {invoke : KIRExecCall → Exec ω Value} {s : Nat}

variable (e : KIRExecExpr)

theorem makeKIRClosure_evaluates (lambda : ExecFunction) :
    Evaluates s (makeKIRClosure host e s lambda) := by
  cases lambda with
  | nil => exact (still_failAt _ _ _).evaluates
  | node value body params captures =>
    apply (still_perform _).evaluates.bind
    intro _
    apply (evaluates_openScope none).bind
    intro environment
    exact ((still_captureBindings _ _ _ _).bind fun _ => still_onData _).evaluates

theorem evalLogical_evaluates (left : Value) {right : Exec ω Value} (hright : Evaluates s right) :
    Evaluates s (evalLogical e left right) := by
  unfold evalLogical
  split
  · split
    · exact evaluates_pure _
    · apply hright.bind
      intro v
      split
      · exact evaluates_pure _
      · exact (still_failAt _ _ _).evaluates
  · exact (still_failAt _ _ _).evaluates

theorem evalEntries_evaluates {runs : List (Exec ω Value × Exec ω Value)}
    (hruns : ∀ run ∈ runs, Evaluates s run.1 ∧ Evaluates s run.2) (entries : List (Value × Value)) :
    Evaluates s (evalEntries host e runs entries) := by
  induction runs generalizing entries with
  | nil => exact evaluates_pure _
  | cons run rest ih =>
    obtain ⟨hkey, hitem⟩ := hruns run List.mem_cons_self
    apply hkey.bind
    intro k
    apply hitem.bind
    intro v
    split
    · exact (still_failAt _ _ _).evaluates
    · exact ih (fun r hr => hruns r (List.mem_cons_of_mem run hr)) _

theorem evalFields_evaluates (declared : List String) {runs : List (String × Exec ω Value)}
    (hruns : ∀ run ∈ runs, Evaluates s run.2) (fields : List (String × Value)) :
    Evaluates s (evalFields e declared runs fields) := by
  induction runs generalizing fields with
  | nil => exact evaluates_pure _
  | cons run rest ih =>
    unfold evalFields
    split
    · exact (still_failAt _ _ _).evaluates
    · apply (hruns run List.mem_cons_self).bind
      intro v
      exact ih (fun r hr => hruns r (List.mem_cons_of_mem run hr)) _

theorem evalStruct_evaluates {values : List (Exec ω Value)}
    (hvalues : ∀ x ∈ values, Evaluates s x) :
    Evaluates s (evalStruct host e values) := by
  apply (still_reading _).evaluates.bind
  intro declared
  split
  · exact (still_failAt _ _ _).evaluates
  · apply (evalFields_evaluates e _ _ _).bind
    · intro fields
      split
      · exact (still_builtValue _ _).evaluates
      · exact (still_failAt _ _ _).evaluates
    · intro run hrun
      exact hvalues _ (List.of_mem_zip hrun).2

theorem evalPropagate_evaluates (inner : Value) :
    Evaluates s (evalPropagate host e s inner) := by
  unfold evalPropagate
  split
  · exact (evaluates_raise _).bind fun _ => evaluates_pure _
  · exact (evaluates_raise _).bind fun _ => evaluates_pure _
  · exact (still_checkedValue _ _).evaluates
  · exact (still_checkedValue _ _).evaluates
  · exact (still_failAt _ _ _).evaluates

/-! ### Calls -/

theorem resolveKIRCall_evaluates {callee : Option (KIRExecExpr × Exec ω Value)}
    (hcallee : ∀ c ∈ callee, Evaluates s c.2) : Evaluates s (resolveKIRCall host e callee) := by
  unfold resolveKIRCall
  split
  · apply (hcallee _ rfl).bind
    intro v
    split
    · apply (still_reading _).evaluates.bind
      intro closure
      split
      · exact evaluates_pure _
      · exact (still_failAt _ _ _).evaluates
    · exact (still_failAt _ _ _).evaluates
  · split
    · exact (still_failAt _ _ _).evaluates
    · exact evaluates_pure _
    · exact evaluates_pure _
    · split
      · exact evaluates_pure _
      · exact (still_failAt _ _ _).evaluates
    · exact (still_failAt _ _ _).evaluates

theorem still_callWith (callee : Callee) (receiver : Option Value) (arguments : List Value) :
    Still (callWith host e callee receiver arguments) := by
  unfold callWith
  split
  · exact (still_done _).bind fun _ => still_pure _
  · exact still_pure _
  · exact still_stuck

variable {args : List (Exec ω Value)}

theorem callOperands_evaluates (callee : Callee) {receiver : Option (Exec ω Value)}
    (hreceiver : ∀ x ∈ receiver, Evaluates s x) (hargs : ∀ x ∈ args, Evaluates s x) :
    Evaluates s (callOperands host e callee receiver args) := by
  apply (still_reading _).evaluates.bind
  intro calls
  split
  · exact (still_failAt _ _ _).evaluates
  · have hreceived : Evaluates s (evalReceiver receiver) := by
      cases receiver with
      | none => exact evaluates_pure _
      | some x => exact (hreceiver x rfl).bind fun v => evaluates_pure _
    apply hreceived.bind
    intro received
    apply (evaluates_all hargs).bind
    intro arguments
    exact (still_callWith _ _ _ _).evaluates

theorem mem_optional {α : Type} {e : ExecExpr} {x y : α} (h : y ∈ optional e x) : y = x := by
  cases e with
  | nil => cases h
  | node => exact (Option.some.inj h).symm

/-- The computations of the children of an expression are evaluations. -/
structure ChildrenEvaluate (s : Nat) (c : Children ω) : Prop where
  left : Evaluates s c.left
  right : Evaluates s c.right
  operand : Evaluates s c.operand
  base : Evaluates s c.base
  receiver : ∀ x ∈ c.receiver, Evaluates s x
  callee : ∀ x ∈ c.callee, Evaluates s x.2
  args : ∀ x ∈ c.args, Evaluates s x
  items : ∀ x ∈ c.items, Evaluates s x
  mapKeys : ∀ x ∈ c.mapKeys, Evaluates s x
  values : ∀ x ∈ c.values, Evaluates s x

theorem evalBuiltin_evaluates (hinvoke : ∀ call, Calls (invoke call)) (e : KIRExecExpr)
    (receiver : Option (Exec ω Value)) (hargs : ∀ x ∈ args, Evaluates s x) :
    Evaluates s (evalBuiltin host invoke e receiver args) := by
  apply (still_perform _).evaluates.bind
  intro _
  apply (evaluates_all hargs).bind
  intro arguments
  apply (still_perform _).evaluates.bind
  intro result
  cases result with
  | value v => exact evaluates_pure v
  | dispatch call =>
    apply (hinvoke call).evaluates.attempt.bind
    intro r
    cases r with
    | ok v => exact evaluates_pure _
    | error d => exact evaluates_pure _

theorem evalKIRCall_evaluates (hinvoke : ∀ call, Calls (invoke call)) (e : KIRExecExpr)
    {c : Children ω} (hc : ChildrenEvaluate s c) :
    Evaluates s (evalKIRCall host invoke e c) := by
  apply (resolveKIRCall_evaluates e hc.callee).bind
  intro callee
  have hcall : Evaluates s (callOperands host e callee c.receiver c.args >>= invoke) :=
    (callOperands_evaluates e callee hc.receiver hc.args).bind fun call =>
      (hinvoke call).evaluates
  cases callee with
  | builtin => exact evalBuiltin_evaluates hinvoke e c.receiver hc.args
  | trait => exact hcall
  | function function environment typeArguments => exact hcall

theorem evalNode_evaluates (hinvoke : ∀ call, Calls (invoke call)) (e : KIRExecExpr)
    (lambda : ExecFunction) (binding : Option KIRBinding) {c : Children ω}
    (hc : ChildrenEvaluate s c) :
    Evaluates s (evalNode host invoke e s lambda binding c) := by
  have hchecked : ∀ v, Evaluates s (checkedValue host e v) := fun v =>
    (still_checkedValue e v).evaluates
  have hbuilt : ∀ vs, Evaluates s (builtValue host e vs) := fun vs =>
    (still_builtValue e vs).evaluates
  unfold evalNode
  split
  any_goals exact hchecked _
  · exact hbuilt _
  · exact (still_evalVar e s binding).evaluates.bind hchecked
  · exact (makeKIRClosure_evaluates e lambda).bind hchecked
  · exact hc.operand.bind fun v => hbuilt _
  · apply hc.left.bind
    intro left
    split
    · exact evalLogical_evaluates e left hc.right
    · exact hc.right.bind fun right => hbuilt _
  · exact (evaluates_all hc.items).bind hbuilt
  · exact (evaluates_all hc.items).bind hbuilt
  · refine (evalEntries_evaluates e ?_ []).bind fun entries => hbuilt _
    intro run hrun
    exact ⟨hc.mapKeys _ (List.of_mem_zip hrun).1, hc.values _ (List.of_mem_zip hrun).2⟩
  · exact evalStruct_evaluates e hc.values
  · apply hc.base.bind
    intro base
    exact hc.left.bind fun index => hbuilt _
  · exact hc.base.bind fun base => hbuilt _
  · exact hc.operand.bind fun inner => evalPropagate_evaluates e inner
  · exact (evalKIRCall_evaluates hinvoke e hc).bind hchecked
  · exact (still_failAt _ _ _).evaluates

mutual

theorem evalExpr_evaluates (hinvoke : ∀ call, Calls (invoke call)) (e : ExecExpr) :
    Evaluates s (evalExpr host invoke s e) := by
  cases e with
  | nil => exact still_stuck.evaluates
  | node value left right operand base receiver callee lambda binding const args items mapKeys
      values =>
    apply (still_perform _).evaluates.bind
    intro _
    apply evalNode_evaluates hinvoke
    refine ⟨evalExpr_evaluates hinvoke left, evalExpr_evaluates hinvoke right,
      evalExpr_evaluates hinvoke operand, evalExpr_evaluates hinvoke base, ?_, ?_,
      evalExprs_evaluates hinvoke args, evalExprs_evaluates hinvoke items,
      evalExprs_evaluates hinvoke mapKeys, evalExprs_evaluates hinvoke values⟩
    · intro x hx
      rw [mem_optional hx]
      exact evalExpr_evaluates hinvoke receiver
    · intro x hx
      rw [mem_optional hx]
      exact evalExpr_evaluates hinvoke callee

theorem evalExprs_evaluates (hinvoke : ∀ call, Calls (invoke call)) (es : List ExecExpr) :
    ∀ x ∈ evalExprs host invoke s es, Evaluates s x := by
  intro x hx
  cases es with
  | nil => cases hx
  | cons e es =>
    rcases List.mem_cons.mp hx with rfl | hrest
    · exact evalExpr_evaluates hinvoke e
    · exact evalExprs_evaluates hinvoke es x hrest

end

theorem childrenOf_evaluate (hinvoke : ∀ call, Calls (invoke call)) (e : ExecExpr) :
    ChildrenEvaluate s (childrenOf host invoke s e) := by
  have heval : ∀ e, Evaluates s (evalExpr host invoke s e) := fun e =>
    evalExpr_evaluates hinvoke e
  have hevals : ∀ es, ∀ x ∈ evalExprs host invoke s es, Evaluates s x := fun es =>
    evalExprs_evaluates hinvoke es
  cases e with
  | nil =>
    have hstuck : Evaluates s (Exec.stuck : Exec ω Value) := still_stuck.evaluates
    exact ⟨hstuck, hstuck, hstuck, hstuck, by simp [childrenOf], by simp [childrenOf],
      by simp [childrenOf], by simp [childrenOf], by simp [childrenOf], by simp [childrenOf]⟩
  | node value left right operand base receiver callee lambda binding const args items mapKeys
      values =>
    refine ⟨heval left, heval right, heval operand, heval base, ?_, ?_, hevals args,
      hevals items, hevals mapKeys, hevals values⟩
    · intro x hx
      rw [mem_optional hx]
      exact heval receiver
    · intro x hx
      rw [mem_optional hx]
      exact heval callee

theorem evalKIRTailCall_evaluates (hinvoke : ∀ call, Calls (invoke call)) (e : ExecExpr) :
    Evaluates s (evalKIRTailCall host invoke s e) := by
  have hc : ChildrenEvaluate s (childrenOf host invoke s e) := childrenOf_evaluate hinvoke e
  apply (still_perform _).evaluates.bind
  intro _
  apply (resolveKIRCall_evaluates _ hc.callee).bind
  intro callee
  have hcall : Evaluates s (callOperands host (execScalarsOf e) callee
      (childrenOf host invoke s e).receiver (childrenOf host invoke s e).args >>= fun tail =>
        pure (KIRExecFlow.tail tail)) :=
    (callOperands_evaluates _ callee hc.receiver hc.args).bind fun tail => evaluates_pure _
  cases callee with
  | builtin =>
    apply (evalKIRCall_evaluates hinvoke _ hc).bind
    intro v
    exact evaluates_pure _
  | trait => exact hcall
  | function function environment typeArguments => exact hcall

end Expressions

end Kryndel.KIRExec
