import Kryndel.Checker.Check

/-!
# What no run undoes

Whatever a pass is given, a reported error stays reported and no scope goes away. This
needs no assumption on the state, so it tells what a run without errors started from.
-/

namespace Kryndel

/-- An error stays, and so do the scopes. -/
structure Onward (st st' : CheckState) : Prop where
  err : st'.err = none → st.err = none
  length : st.scopes.length ≤ st'.scopes.length

theorem Onward.refl (st : CheckState) : Onward st st := ⟨id, Nat.le_refl _⟩

theorem Onward.trans {a b c : CheckState} (ab : Onward a b) (bc : Onward b c) : Onward a c :=
  ⟨fun h => ab.err (bc.err h), Nat.le_trans ab.length bc.length⟩

/-- No run of a computation undoes anything. -/
def OnwardM {α : Type} (m : CheckM α) : Prop := ∀ st, Onward st (m st).2

namespace OnwardM

variable {α β : Type}

theorem bind {m : CheckM α} {f : α → CheckM β} (first : OnwardM m) (rest : ∀ a, OnwardM (f a)) :
    OnwardM (m >>= f) := fun st => (first st).trans (rest _ _)

theorem pure (a : α) : OnwardM (Pure.pure a : CheckM α) := Onward.refl

theorem get : OnwardM (MonadState.get : CheckM CheckState) := Onward.refl

theorem ite {c : Prop} [Decidable c] {m n : CheckM α} (first : OnwardM m) (second : OnwardM n) :
    OnwardM (if c then m else n) := by
  split
  · exact first
  · exact second

theorem setErr (d : Diagnostic) : OnwardM (setErr d) := fun _ => ⟨nofun, Nat.le_refl _⟩

theorem openScope (parent : ScopeRef) (worker : Bool) : OnwardM (openScope parent worker) :=
  fun st => ⟨id, by
    change st.scopes.length ≤ (st.scopes.newScope parent worker).2.length
    simp [Scopes.newScope]⟩

theorem openBlock (parent : ScopeRef) : OnwardM (openBlock parent) :=
  bind get fun _ => openScope _ _

theorem declare (sc : ScopeRef) (name : String) (b : Binding) : OnwardM (declare sc name b) := by
  intro st
  refine ⟨id, ?_⟩
  cases sc <;> simp [Kryndel.declare, Scopes.define, Scopes.update]

theorem stmtError (s : Stmt) (d : Diagnostic) : OnwardM (stmtError s d) :=
  bind (setErr d) fun _ => pure _

theorem unlessError {stopped : α} {next : CheckM α} (rest : OnwardM next) :
    OnwardM (unlessError stopped next) :=
  bind get fun st => by
    split
    · exact pure _
    · exact rest

end OnwardM

section Passes

variable {env : CheckEnv} {self : Checking}
  (exprs : ∀ sc e expected, OnwardM (self.expr sc e expected))
  (blocks : ∀ sc body ctx, OnwardM (self.block sc body ctx))

include exprs in
theorem runRule_onward {α : Type} (sc : ScopeRef) (rule : Rule α) (children : List Expr)
    (ref : Resolution) : OnwardM (runRule self sc rule children ref) := by
  induction rule generalizing children ref with
  | pure a => exact OnwardM.pure _
  | child i expected next ih =>
    simp only [runRule]
    split
    · exact .bind (.setErr _) fun _ => ih _ _ _
    · exact .bind (exprs _ _ _) fun r => ih _ _ _
  | getTypeParams next ih | view next ih => exact .bind .get fun st => ih _ _ _
  | setTypeParams typeParams next ih =>
    exact .bind (fun st => ⟨id, Nat.le_refl _⟩) fun _ => ih _ _
  | annotate f next ih => exact ih _ _

include exprs in
theorem checkByRule_onward (sc : ScopeRef) (e : Expr) (expected : Option Ty) :
    OnwardM (checkByRule env self sc e expected) :=
  .bind (runRule_onward exprs sc _ _ _) fun _ => .pure _

theorem checkVar_onward (sc : ScopeRef) (info : ExprInfo) (name : String) (ref : Resolution)
    (b : Binding) (owner : ScopeRef) : OnwardM (checkVar sc info name ref b owner) :=
  fun _ => ⟨id, Nat.le_refl _⟩

theorem bindClosureParams_onward (scope : ScopeRef) (params : List (ParamSig × Ty)) :
    OnwardM (bindClosureParams scope params) := by
  induction params with
  | nil => exact .pure _
  | cons p rest ih => exact .bind .get fun st => .ite (.pure _) (.bind (.declare _ _ _) fun _ => ih)

theorem openClosure_onward (outer : ScopeRef) : OnwardM (openClosure outer) := by
  refine .bind (.openBlock outer) fun scope => .bind (fun st => ⟨id, ?_⟩) fun _ => .pure _
  cases scope <;> simp [Scopes.update]

include blocks in
theorem checkClosureBody_onward (outer scope : ScopeRef) (sig : FunctionSig) (body : List Stmt)
    (captures : List Capture) (ret : Ty) :
    OnwardM (checkClosureBody self outer scope sig body captures ret) := by
  intro st
  have inside := blocks scope body { rt := ret, loop := 0, inFn := true } { st with
    currentReturn := some ret, currentFunction := some (.closure scope)
    currentLambda := some (.closure scope), captures := captures }
  exact ⟨inside.err, inside.length⟩

include blocks in
theorem checkLambda_onward (outer : ScopeRef) (info : ExprInfo) (sig : FunctionSig)
    (body : List Stmt) (captures : List Capture) (expected : Option Ty) :
    OnwardM (checkLambda env self outer info sig body captures expected) := by
  refine .bind .get fun st => ?_
  split
  · exact .pure _
  · refine .bind (openClosure_onward outer) fun scope =>
      .bind (bindClosureParams_onward scope _) fun bound => ?_
    split
    · exact .pure _
    · refine .bind (checkClosureBody_onward blocks outer scope sig body captures _) fun r => ?_
      obtain ⟨body, captures, failed⟩ := r
      cases failed <;> exact .pure _

include exprs blocks in
theorem checkExpr_onward [FloatArith] (sc : ScopeRef) (e : Expr) (expected : Option Ty) :
    OnwardM (checkExpr env self sc e expected) := by
  unfold checkExpr
  split
  · exact .pure _
  · refine .bind ?_ fun _ => .pure _
    unfold checkNode
    split
    · refine .bind .get fun st => ?_
      split
      · exact checkVar_onward _ _ _ _ _ _
      · exact checkByRule_onward exprs _ _ _
    · exact checkLambda_onward blocks _ _ _ _ _ _
    · exact checkByRule_onward exprs _ _ _

include exprs in
theorem withExpr_onward (sc : ScopeRef) (e : Expr) (expected : Option Ty) (stmt : Expr → Stmt)
    {next : Expr → Ty → CheckM (Stmt × Flow)} (rest : ∀ e t, OnwardM (next e t)) :
    OnwardM (withExpr self sc e expected stmt next) := by
  refine .bind (exprs _ _ _) fun r => ?_
  obtain ⟨e, t⟩ := r
  cases t with
  | error d => exact .stmtError _ _
  | ok t => exact rest e t

include exprs in
theorem withCondition_onward (sc : ScopeRef) (cond : Expr) (stmt : Expr → Stmt)
    {next : Expr → CheckM (Stmt × Flow)} (rest : ∀ e, OnwardM (next e)) :
    OnwardM (withCondition self sc cond stmt next) :=
  withExpr_onward exprs _ _ _ _ fun e _ => .ite (rest e) (.stmtError _ _)

include blocks in
theorem checkBody_onward (scope : ScopeRef) (body : List Stmt) (ctx : BlockContext)
    (stmt : List Stmt → Stmt) : OnwardM (checkBody self scope body ctx stmt) :=
  .bind (blocks _ _ _) fun _ => .unlessError (.pure _)

include blocks in
theorem checkArms_onward (sc : ScopeRef) (t : Ty) (ctx : BlockContext) (arms : List MatchArm)
    (all fall : Bool) : OnwardM (checkArms self sc t ctx arms all fall) := by
  induction arms generalizing all fall with
  | nil => exact .pure _
  | cons arm rest ih =>
    obtain ⟨p, body⟩ := arm
    refine .bind (.openBlock sc) fun scope => .ite (.bind (.setErr _) fun _ => .pure _) ?_
    have pattern : OnwardM (bindPattern scope t p) :=
      .ite (.bind (.declare _ _ _) fun _ => .pure _) (.pure _)
    exact .bind pattern fun p => .bind (blocks _ _ _) fun r =>
      .unlessError (.bind (ih _ _) fun _ => .pure _)

include exprs blocks in
theorem checkStmt_onward (sc : ScopeRef) (ctx : BlockContext) (s : Stmt) :
    OnwardM (checkStmt env self sc ctx s) := by
  cases s with
  | letStmt info init =>
    refine .bind .get fun st => ?_
    split
    · exact .stmtError _ _
    · refine withExpr_onward exprs _ _ _ _ fun init t => .bind .get fun st => ?_
      split
      · exact .stmtError _ _
      · exact .bind (.declare _ _ _) fun _ => .pure _
  | exprStmt tok e => exact withExpr_onward exprs _ _ _ _ fun _ _ => .pure _
  | assign tok target value =>
    simp only [checkStmt, checkAssign]
    split
    · refine .bind .get fun st => ?_
      split
      · exact .stmtError _ _
      · exact .ite (.stmtError _ _)
          (withExpr_onward exprs _ _ _ _ fun _ _ => .ite (.pure _) (.stmtError _ _))
    · exact .stmtError _ _
  | ifStmt tok cond thenBody elseBody =>
    refine withCondition_onward exprs _ _ _ fun cond => .bind (.openBlock sc) fun scope =>
      .bind (blocks _ _ _) fun _ => .unlessError (.bind ?_ fun _ => .unlessError (.pure _))
    exact .ite (.pure _) (.bind (.openBlock sc) fun _ => blocks _ _ _)
  | whileStmt tok cond body =>
    exact withCondition_onward exprs _ _ _ fun cond => .bind (.openBlock sc) fun scope =>
      checkBody_onward blocks _ _ _ _
  | forStmt info iter body =>
    refine withExpr_onward exprs _ _ _ _ fun iter t => ?_
    split
    · exact .stmtError _ _
    · exact .bind (.openBlock sc) fun scope => .bind (.declare _ _ _) fun _ =>
        checkBody_onward blocks _ _ _ _
  | deferStmt tok body => exact .bind (.openBlock sc) fun scope => checkBody_onward blocks _ _ _ _
  | unsafeStmt tok body =>
    refine .bind ?_ fun scope => checkBody_onward blocks _ _ _ _
    refine .bind (.openBlock sc) fun scope => .bind (fun st => ⟨id, ?_⟩) fun _ => .pure _
    cases scope <;> simp [Scopes.update]
  | returnStmt tok value =>
    have finish (value : Option Expr) (t : Ty) : OnwardM (finishReturn tok value t ctx) :=
      .ite (.bind .get fun _ => .pure _) (.stmtError _ _)
    refine .ite (.stmtError _ _) ?_
    cases value with
    | none => exact finish none .nil
    | some e => exact withExpr_onward exprs _ _ _ _ fun e t => finish (some e) t
  | breakStmt tok | continueStmt tok => exact .ite (.stmtError _ _) (.pure _)
  | matchStmt tok scrutinee arms =>
    refine withExpr_onward exprs _ _ _ _ fun scrutinee t => ?_
    split
    · exact .stmtError _ _
    · exact .bind (checkArms_onward blocks _ _ _ _ _ _) fun _ => .pure _

include exprs blocks in
theorem checkStmts_onward (sc : ScopeRef) (ctx : BlockContext) (body : List Stmt) (flow : Flow) :
    OnwardM (checkStmts env self sc ctx body flow) := by
  induction body generalizing flow with
  | nil => exact .pure _
  | cons s rest ih =>
    exact .ite (.pure _) (.bind (checkStmt_onward exprs blocks sc ctx s) fun _ =>
      .unlessError (.bind (ih _) fun _ => .pure _))

end Passes

theorem checking_onward [FloatArith] (env : CheckEnv) (n : Nat) :
    (∀ sc e expected, OnwardM ((checking env n).expr sc e expected)) ∧
      ∀ sc body ctx, OnwardM ((checking env n).block sc body ctx) := by
  induction n with
  | zero => exact ⟨fun _ _ _ => .bind (.setErr _) fun _ => .pure _,
      fun _ _ _ => .bind (.setErr _) fun _ => .pure _⟩
  | succ n ih => exact ⟨fun sc e expected => checkExpr_onward ih.1 ih.2 sc e expected,
      fun sc body ctx => checkStmts_onward ih.1 ih.2 sc ctx body normalFlow⟩

end Kryndel
