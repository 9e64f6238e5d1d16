import Kryndel.Checker.ProgramRecords

/-!
# How control leaves a body

The checker sums up the ways in which control can leave a statement (`Flow`), kind by kind, and
takes a body to return when its last reachable statement does. What it claims of a body that it
accepts holds of the statements: control neither reaches the end of a body that must return
(`blockFalls`), nor leaves a loop that is not there.
-/

namespace Kryndel

/-! ## Leaving loops -/

mutual

/-- May control leave or restart the loop around a statement? A deferred body has no effect on
    control. -/
def Stmt.leavesLoop : Stmt → Bool
  | .letStmt _ _ | .exprStmt _ _ | .assign _ _ _ | .whileStmt _ _ _ | .forStmt _ _ _
  | .deferStmt _ _ | .returnStmt _ _ => false
  | .ifStmt _ _ thenBody elseBody => bodyLeavesLoop thenBody || bodyLeavesLoop elseBody
  | .unsafeStmt _ body => bodyLeavesLoop body
  | .breakStmt _ | .continueStmt _ => true
  | .matchStmt _ _ arms => armsLeaveLoop arms

/-- May control leave the loop around a body, before the end of the body? -/
def bodyLeavesLoop : List Stmt → Bool
  | [] => false
  | s :: rest => s.leavesLoop || (s.falls && bodyLeavesLoop rest)

/-- May control leave the loop around a match from an arm? -/
def armsLeaveLoop : List MatchArm → Bool
  | [] => false
  | .mk _ body :: rest => bodyLeavesLoop body || armsLeaveLoop rest

end

/-! ## Flows that are right -/

/-- A flow is right about statements inside a number of loops: it says whether control goes on
    after them, which it does not where they must return, and there is a loop to leave. -/
structure FlowSound (loop : Nat) (flow : Flow) (falls leaves : Bool) : Prop where
  returns : flow.mustReturn = true → flow.mayFallthrough = false
  falls : flow.mayFallthrough = falls
  leaves : loop = 0 → leaves = false

theorem FlowSound.normal {loop : Nat} {leaves : Bool} (h : loop = 0 → leaves = false) :
    FlowSound loop normalFlow true leaves where
  returns hmust := by cases hmust
  falls := rfl
  leaves := h

/-- A pass over blocks finds flows that are right, unless it reports an error. -/
def BlocksSound (self : Checking) : Prop :=
  ∀ sc body ctx st, (self.block sc body ctx st).1.2.hasError = false ∨
      (self.block sc body ctx st).2.err = none →
    FlowSound ctx.loop (self.block sc body ctx st).1.2
      (blockFalls (self.block sc body ctx st).1.1)
      (bodyLeavesLoop (self.block sc body ctx st).1.1)

/-- A checked statement has a flow that is right. -/
def StmtSound (loop : Nat) (r : Stmt × Flow) : Prop :=
  FlowSound loop r.2 r.1.falls r.1.leavesLoop

theorem isEmpty_or_blockFalls (body : List Stmt) :
    (body.isEmpty || blockFalls body) = blockFalls body := by
  cases body <;> rfl

/-! ## Statements -/

section Statements

variable {env : CheckEnv} {self : Checking} {sc : ScopeRef} {ctx : BlockContext}
  {st : CheckState}

variable {stmt : Expr → Stmt}

theorem withExpr_goes_on {e : Expr} {expected : Option Ty} {next : Expr → Ty → CheckM (Stmt × Flow)}
    (ok : (withExpr self sc e expected stmt next st).2.err = none) :
    ∃ e' t st', withExpr self sc e expected stmt next st = next e' t st' := by
  simp only [withExpr, CheckM.bind_run] at ok ⊢
  generalize self.expr sc e expected st = run at ok ⊢
  obtain ⟨⟨e', t⟩, st'⟩ := run
  cases t with
  | error d => simp [stmtError_err] at ok
  | ok t => exact ⟨e', t, st', rfl⟩

theorem withCondition_goes_on {cond : Expr} {next : Expr → CheckM (Stmt × Flow)}
    (ok : (withCondition self sc cond stmt next st).2.err = none) :
    ∃ cond' st', withCondition self sc cond stmt next st = next cond' st' := by
  obtain ⟨cond', t, st', run⟩ := withExpr_goes_on ok
  rw [withCondition, run] at ok ⊢
  split at ok
  · exact ⟨cond', st', by simp [*]⟩
  · simp [stmtError_err] at ok

theorem checkLet_flow {info : LetInfo} {init : Expr}
    (ok : (checkLet env self sc info init st).2.err = none) :
    StmtSound ctx.loop (checkLet env self sc info init st).1 := by
  simp only [checkLet, CheckM.bind_run, CheckM.get_run] at ok ⊢
  cases annotated : letAnnotation env st.typeParams (st.scopes.top sc).visibilityScope info with
  | error d => simp [annotated, stmtError_err] at ok
  | ok expected =>
    simp only [annotated] at ok ⊢
    obtain ⟨init', t, st', run⟩ := withExpr_goes_on ok
    rw [run] at ok ⊢
    simp only [CheckM.bind_run, CheckM.get_run] at ok ⊢
    cases error : letError env st'.scopes sc info init' expected t with
    | some d => simp [error, stmtError_err] at ok
    | none => exact .normal fun _ => rfl

variable {tok : Token}

theorem checkAssign_flow {target value : Expr}
    (ok : (checkAssign self sc tok target value st).2.err = none) :
    StmtSound ctx.loop (checkAssign self sc tok target value st).1 := by
  cases target with
  | var info name ref =>
    simp only [checkAssign, CheckM.bind_run, CheckM.get_run] at ok ⊢
    cases found : st.scopes.lookup sc name with
    | none => simp [found, stmtError_err] at ok
    | some b =>
      simp only [found] at ok ⊢
      cases mutable : b.mutable with
      | false => simp [mutable, stmtError_err] at ok
      | true =>
        simp only [mutable, Bool.not_true, Bool.false_eq_true, if_false] at ok ⊢
        obtain ⟨value', t, st', run⟩ := withExpr_goes_on ok
        rw [run] at ok ⊢
        cases fits : compatible b.type t with
        | false => simp [fits, stmtError_err] at ok
        | true =>
          exact .normal fun _ => rfl
  | _ => simp [checkAssign, stmtError_err] at ok

variable {value : Option Expr}

theorem finishReturn_flow {t : Ty} (ok : (finishReturn tok value t ctx st).2.err = none) :
    StmtSound ctx.loop (finishReturn tok value t ctx st).1 := by
  unfold finishReturn at ok ⊢
  cases fits : returnable ctx.rt t value with
  | false => simp [fits, stmtError_err] at ok
  | true =>
    exact ⟨fun _ => rfl, rfl, fun _ => rfl⟩

theorem checkReturn_flow (ok : (checkReturn self sc tok value ctx st).2.err = none) :
    StmtSound ctx.loop (checkReturn self sc tok value ctx st).1 := by
  unfold checkReturn at ok ⊢
  cases inside : ctx.inFn with
  | false => simp [inside, stmtError_err] at ok
  | true =>
    cases value with
    | none =>
      simp only [inside, Bool.not_true, Bool.false_eq_true, if_false] at ok ⊢
      exact finishReturn_flow ok
    | some e =>
      simp only [inside, Bool.not_true, Bool.false_eq_true, if_false] at ok ⊢
      obtain ⟨e', t, st', run⟩ := withExpr_goes_on ok
      rw [run] at ok ⊢
      exact finishReturn_flow ok

section Nested

variable (blocks : BlocksSound self)
include blocks

variable {body : List Stmt}

theorem checkBody_flow {scope : ScopeRef} {stmt : List Stmt → Stmt}
    (ok : (checkBody self scope body ctx stmt st).2.err = none) :
    ∃ body', (checkBody self scope body ctx stmt st).1 = (stmt body', normalFlow) ∧
      (ctx.loop = 0 → bodyLeavesLoop body' = false) := by
  simp only [checkBody, CheckM.bind_run] at ok ⊢
  obtain ⟨err, run⟩ := unlessError_ok ok
  rw [run]
  exact ⟨_, rfl, (blocks scope body ctx st (.inr err)).leaves⟩

theorem checkElse_flow (ok : (checkElse self sc body ctx st).2.err = none) :
    FlowSound ctx.loop (checkElse self sc body ctx st).1.2
      (blockFalls (checkElse self sc body ctx st).1.1)
      (bodyLeavesLoop (checkElse self sc body ctx st).1.1) := by
  unfold checkElse at ok ⊢
  cases empty : body.isEmpty with
  | true =>
    obtain rfl := List.isEmpty_iff.mp empty
    exact .normal fun _ => rfl
  | false =>
    simp only [empty, Bool.false_eq_true, if_false, CheckM.bind_run, openBlock_run] at ok ⊢
    exact blocks _ _ _ _ (.inr ok)

theorem checkIf_flow {cond : Expr} {thenBody elseBody : List Stmt}
    (ok : (checkIf self sc tok cond thenBody elseBody ctx st).2.err = none) :
    StmtSound ctx.loop (checkIf self sc tok cond thenBody elseBody ctx st).1 := by
  unfold checkIf at ok ⊢
  obtain ⟨cond', st₁, run⟩ := withCondition_goes_on ok
  rw [run] at ok ⊢
  simp only [CheckM.bind_run, openBlock_run] at ok ⊢
  obtain ⟨err₂, run⟩ := unlessError_ok ok
  rw [run] at ok ⊢
  simp only [CheckM.bind_run] at ok ⊢
  obtain ⟨err₃, run⟩ := unlessError_ok ok
  rw [run]
  have hthen := blocks _ _ _ _ (.inr err₂)
  have helse := checkElse_flow blocks err₃
  refine ⟨?_, ?_, ?_⟩
  · intro hboth
    obtain ⟨hmust, hmust'⟩ := Bool.and_eq_true_iff.mp hboth
    exact Bool.or_eq_false_iff.mpr ⟨hthen.returns hmust, helse.returns hmust'⟩
  · show (_ || _) = (_ || _ || _)
    rw [hthen.falls, helse.falls, Bool.or_assoc, isEmpty_or_blockFalls]
  · intro hloop
    exact Bool.or_eq_false_iff.mpr ⟨hthen.leaves hloop, helse.leaves hloop⟩

variable {arms : List MatchArm}

theorem checkArms_flow {t : Ty} {all fall : Bool}
    (ok : (checkArms self sc t ctx arms all fall st).2.err = none) :
    ((checkArms self sc t ctx arms all fall st).1.2.mustReturn = true → all = true ∧
      (fall = false → (checkArms self sc t ctx arms all fall st).1.2.mayFallthrough = false)) ∧
    (checkArms self sc t ctx arms all fall st).1.2.mayFallthrough =
      (fall || anyArmFalls (checkArms self sc t ctx arms all fall st).1.1) ∧
    (ctx.loop = 0 → armsLeaveLoop (checkArms self sc t ctx arms all fall st).1.1 = false) := by
  induction arms generalizing all fall st with
  | nil => exact ⟨fun hmust => ⟨hmust, id⟩, (Bool.or_false fall).symm, fun _ => rfl⟩
  | cons arm rest ih =>
    obtain ⟨p, body⟩ := arm
    simp only [checkArms, CheckM.bind_run, openBlock_run] at ok ⊢
    cases invalid : p.binding != "" && (patternBinding t p).isNone with
    | true => simp [invalid, setErr] at ok
    | false =>
      simp only [invalid, Bool.false_eq_true, if_false, CheckM.bind_run] at ok ⊢
      generalize bindPattern (st.scopes.length :: sc) t p (enterBlock st sc) = pattern at ok ⊢
      obtain ⟨p', st₁⟩ := pattern
      have block := blocks (st.scopes.length :: sc) body ctx st₁
      generalize self.block (st.scopes.length :: sc) body ctx st₁ = run at ok block ⊢
      obtain ⟨err, run⟩ := unlessError_ok ok
      rw [run] at ok ⊢
      have h := block (.inr err)
      obtain ⟨hreturns, hfalls, hleaves⟩ := ih ok
      refine ⟨fun hmust => ?_, ?_, fun hloop => ?_⟩
      · obtain ⟨hall, hrest⟩ := hreturns hmust
        obtain ⟨hbefore, hhere⟩ := Bool.and_eq_true_iff.mp hall
        exact ⟨hbefore, fun hfall =>
          hrest (Bool.or_eq_false_iff.mpr ⟨hfall, h.returns hhere⟩)⟩
      · simp only [CheckM.bind_run, CheckM.pure_run, anyArmFalls]
        rw [hfalls, h.falls, Bool.or_assoc]
      · exact Bool.or_eq_false_iff.mpr ⟨h.leaves hloop, hleaves hloop⟩

theorem checkMatch_flow {scrutinee : Expr}
    (ok : (checkMatch env self sc tok scrutinee arms ctx st).2.err = none) :
    StmtSound ctx.loop (checkMatch env self sc tok scrutinee arms ctx st).1 := by
  unfold checkMatch at ok ⊢
  obtain ⟨scrutinee', t, st₁, run⟩ := withExpr_goes_on ok
  rw [run] at ok ⊢
  cases error : matchError env.toTypeEnv tok t arms with
  | some d => simp [error, stmtError_err] at ok
  | none =>
    simp only [error, CheckM.bind_run, CheckM.pure_run] at ok ⊢
    obtain ⟨hreturns, hfalls, hleaves⟩ := checkArms_flow blocks ok
    exact ⟨fun hmust => (hreturns hmust).2 rfl, hfalls, hleaves⟩

theorem checkFor_flow {info : ForInfo} {iter : Expr}
    (ok : (checkFor self sc info iter body ctx st).2.err = none) :
    StmtSound ctx.loop (checkFor self sc info iter body ctx st).1 := by
  unfold checkFor at ok ⊢
  obtain ⟨iter', t, st₁, run⟩ := withExpr_goes_on ok
  rw [run] at ok ⊢
  cases element : forElement t with
  | none => simp [element, stmtError_err] at ok
  | some elem =>
    simp only [element, CheckM.bind_run, openBlock_run] at ok ⊢
    obtain ⟨body', hbody, -⟩ := checkBody_flow blocks ok
    rw [hbody]
    exact .normal fun _ => rfl

theorem checkStmt_flow (s : Stmt) (ok : (checkStmt env self sc ctx s st).2.err = none) :
    StmtSound ctx.loop (checkStmt env self sc ctx s st).1 := by
  cases s with
  | letStmt info init => exact checkLet_flow ok
  | exprStmt tok e =>
    rw [checkStmt] at ok ⊢
    obtain ⟨e', t, st', run⟩ := withExpr_goes_on ok
    rw [run]
    exact .normal fun _ => rfl
  | assign tok target value => exact checkAssign_flow ok
  | ifStmt tok cond thenBody elseBody => exact checkIf_flow blocks ok
  | whileStmt tok cond body =>
    rw [checkStmt] at ok ⊢
    obtain ⟨cond', st', run⟩ := withCondition_goes_on ok
    rw [run] at ok ⊢
    simp only [CheckM.bind_run] at ok ⊢
    obtain ⟨body', hbody, -⟩ := checkBody_flow blocks ok
    rw [hbody]
    exact .normal fun _ => rfl
  | returnStmt tok value => exact checkReturn_flow ok
  | breakStmt tok | continueStmt tok =>
    cases outside : ctx.loop == 0 with
    | true => simp [checkStmt, outside, stmtError_err] at ok
    | false =>
      simp only [checkStmt, outside, Bool.false_eq_true, if_false, CheckM.pure_run]
      exact ⟨fun h => (Bool.false_ne_true h).elim, rfl,
        fun hloop => absurd hloop (beq_eq_false_iff_ne.mp outside)⟩
  | matchStmt tok scrutinee arms => exact checkMatch_flow blocks ok
  | forStmt info iter body => exact checkFor_flow blocks ok
  | deferStmt tok body =>
    simp only [checkStmt, CheckM.bind_run] at ok ⊢
    obtain ⟨body', hbody, -⟩ := checkBody_flow blocks ok
    rw [hbody]
    exact .normal fun _ => rfl
  | unsafeStmt tok body =>
    simp only [checkStmt, CheckM.bind_run] at ok ⊢
    obtain ⟨body', hbody, hleaves⟩ := checkBody_flow blocks ok
    rw [hbody]
    exact .normal hleaves

theorem checkStmts_flow (body : List Stmt) (flow : Flow) (reached : flow.mayFallthrough = true)
    (must : flow.mustReturn = false)
    (ok : (checkStmts env self sc ctx body flow st).1.2.hasError = false ∨
      (checkStmts env self sc ctx body flow st).2.err = none) :
    FlowSound ctx.loop (checkStmts env self sc ctx body flow st).1.2
      (blockFalls (checkStmts env self sc ctx body flow st).1.1)
      (bodyLeavesLoop (checkStmts env self sc ctx body flow st).1.1) := by
  induction body generalizing st flow with
  | nil => exact ⟨fun h => (Bool.false_ne_true (must.symm.trans h)).elim, reached, fun _ => rfl⟩
  | cons s rest ih =>
    simp only [checkStmts, reached, Bool.not_true, Bool.false_eq_true, if_false, CheckM.bind_run]
      at ok ⊢
    have sound := @checkStmt_flow env _ sc ctx st blocks s
    generalize checkStmt env self sc ctx s st = run at ok sound ⊢
    obtain ⟨⟨s', f⟩, st₁⟩ := run
    cases err : st₁.err with
    | some d => simp [unlessError, err] at ok
    | none =>
      have h : FlowSound ctx.loop f s'.falls s'.leavesLoop := sound err
      simp only [unlessError, CheckM.bind_run, CheckM.get_run, err, CheckM.pure_run] at ok ⊢
      rcases Bool.eq_false_or_eq_true f.mayFallthrough with passed | passed
      · have hmust : f.mustReturn = false := by
          by_contra hreturn
          exact absurd (h.returns (eq_true_of_ne_false hreturn)) (by simp [passed])
        have hrest := ih _ (by exact passed) (by exact hmust) ok
        refine ⟨hrest.returns, ?_, fun hloop => ?_⟩
        · rw [hrest.falls, blockFalls, ← h.falls, passed, Bool.true_and]
        · rw [bodyLeavesLoop, h.leaves hloop, hrest.leaves hloop, Bool.and_false, Bool.or_false]
      · have stop := @checkStmts_stop env self st₁ sc ctx rest
          { mustReturn := f.mustReturn, mayFallthrough := f.mayFallthrough
            mayBreak := flow.mayBreak || f.mayBreak
            mayContinue := flow.mayContinue || f.mayContinue, reachable := f.reachable
            hasError := flow.hasError } passed
        rw [stop]
        refine ⟨fun _ => passed, ?_, fun hloop => ?_⟩
        · rw [blockFalls, ← h.falls, passed, Bool.false_and]
        · rw [bodyLeavesLoop, h.leaves hloop, ← h.falls, passed, Bool.false_and, Bool.or_false]

end Nested

end Statements

theorem blocksSound_checking [FloatArith] (env : CheckEnv) (n : Nat) :
    BlocksSound (checking env n) := by
  induction n with
  | zero =>
    -- a pass that is out of levels has reported an error
    intro sc body ctx st ok
    rcases ok with h | h <;> cases h
  | succ n ih => exact fun sc body ctx st => checkStmts_flow ih body normalFlow rfl rfl

/-! ## Bodies that the checker accepts -/

/-- The body of a function or a closure, as an accepting check leaves it, and the type that it
    has to return. -/
inductive Accepted [FloatArith] (env : CheckEnv) : Ty → List Stmt → Prop
  | function {n index : Nat} {f f' : Function} {st : CheckState} {typeParams : TypeParams}
      {receiver : Option Ty} {types : List Ty} {rt : Ty}
      (header : functionHeader env.toTypeEnv f = .ok (typeParams, receiver, types))
      (ret : resolveSpec env.toTypeEnv typeParams 0 f.ret = .ok rt)
      (ok : (checkFunction env (checking env n) f index st).1 = (f', none)) :
      Accepted env rt f'.body
  | closure {n : Nat} {outer : ScopeRef} {info : ExprInfo} {sig : FunctionSig}
      {body body' : List Stmt} {captures captures' : List Capture} {expected : Option Ty}
      {st : CheckState} {params : List Ty} {rt : Ty}
      (ok : (checkLambda env (checking env n) outer info sig body captures expected st).1 =
        (.lambda info sig body' captures', .ok (.function params rt))) :
      Accepted env rt body'

/-- A body that returns, or fails, or goes on forever. -/
structure AlwaysReturns (body : List Stmt) : Prop where
  falls : blockFalls body = false
  leaves : bodyLeavesLoop body = false

theorem FlowSound.alwaysReturns {body : List Stmt} {flow : Flow}
    (h : FlowSound 0 flow (blockFalls body) (bodyLeavesLoop body))
    (must : flow.mustReturn = true) : AlwaysReturns body where
  falls := h.falls.symm.trans (h.returns must)
  leaves := h.leaves rfl

section Bodies

variable {env : CheckEnv} {self : Checking} {st : CheckState} {rt : Ty}

theorem checkFunctionBody_alwaysReturns (blocks : BlocksSound self) {scope : ScopeRef}
    {f f' : Function} (hrt : rt ≠ .nil)
    (ok : (checkFunctionBody self scope f rt st).1 = (f', none)) : AlwaysReturns f'.body := by
  have sound := blocks scope f.body { rt := rt, inFn := true } { st with currentReturn := some rt }
  simp only [checkFunctionBody, CheckM.bind_run, CheckM.modify_run] at ok
  generalize self.block scope f.body { rt := rt, inFn := true }
    { st with currentReturn := some rt } = run at ok sound
  obtain ⟨⟨body, flow⟩, st'⟩ := run
  cases error : flow.hasError with
  | true => simp [error, CheckM.bind_run] at ok
  | false =>
    cases must : flow.mustReturn with
    | false => cases rt <;> simp [error, must] at ok hrt
    | true =>
      have hf : f' = { f with body := body } := by
        simp only [error, must, Bool.false_eq_true, if_false, Bool.not_true, Bool.and_false,
          CheckM.pure_run, Prod.mk.injEq, and_true] at ok
        exact ok.symm
      rw [hf]
      exact (sound (.inl error)).alwaysReturns must

theorem functionReturn_eq {env : TypeEnv} {f : Function} {typeParams : TypeParams}
    {types : List Ty} {rt' : Ty} (ret : resolveSpec env typeParams 0 f.ret = .ok rt)
    (h : functionReturn env f typeParams types = .ok rt') : rt' = rt := by
  simp only [functionReturn, signatureType, ret, bind, Except.bind] at h
  by_cases hidden : (inaccessibleTypeName env f.visibilityScope rt != "") = true
  · simp [hidden] at h
  · simp only [hidden, Bool.false_eq_true, if_false] at h
    split at h
    · cases h
    · split at h <;> cases h
      rfl

theorem checkFunction_body {f f' : Function} {index : Nat} {typeParams : TypeParams}
    {receiver : Option Ty} {types : List Ty}
    (header : functionHeader env.toTypeEnv f = .ok (typeParams, receiver, types))
    (ret : resolveSpec env.toTypeEnv typeParams 0 f.ret = .ok rt)
    (ok : (checkFunction env self f index st).1 = (f', none)) :
    ∃ scope f₁ st₁, (checkFunctionBody self scope f₁ rt st₁).1 = (f', none) := by
  simp only [checkFunction, CheckM.bind_run, openFunction_run, CheckM.get_run, header,
    CheckM.modify_run] at ok
  generalize checkDefaults self _ (f.params.zip types) _ = run at ok
  obtain ⟨⟨params, failed⟩, st₁⟩ := run
  cases failed with
  | some d => simp at ok
  | none =>
    cases result : functionReturn env.toTypeEnv { f with params := params } typeParams types with
    | error d => simp [result] at ok
    | ok rt' =>
      obtain rfl : rt' = rt := functionReturn_eq (by exact ret) result
      simp only [result, CheckM.bind_run, CheckM.modify_run, CheckM.pure_run] at ok
      exact ⟨_, _, _, ok⟩

theorem checkLambda_alwaysReturns (blocks : BlocksSound self) {outer : ScopeRef} {info : ExprInfo}
    {sig : FunctionSig} {body body' : List Stmt} {captures captures' : List Capture}
    {expected : Option Ty} {params : List Ty} (hrt : rt ≠ .nil)
    (ok : (checkLambda env self outer info sig body captures expected st).1 =
      (.lambda info sig body' captures', .ok (.function params rt))) : AlwaysReturns body' := by
  cases resolved : closureType env st.typeParams info.tok sig expected with
  | error d =>
    simp [checkLambda, CheckM.bind_run, CheckM.get_run, resolved] at ok
  | ok type =>
    obtain ⟨params', ret⟩ := type
    rw [checkLambda_run resolved] at ok
    dsimp only at ok
    generalize bindClosureParams _ (sig.params.zip params') _ = bound at ok
    obtain ⟨failed, st₁⟩ := bound
    cases failed with
    | some d => simp at ok
    | none =>
      rw [checkClosureBody_run] at ok
      have sound := blocks (st.scopes.length :: outer) body { rt := ret, loop := 0, inFn := true }
        (inClosure st₁ (st.scopes.length :: outer) captures ret)
      generalize self.block (st.scopes.length :: outer) body { rt := ret, loop := 0, inFn := true }
        (inClosure st₁ (st.scopes.length :: outer) captures ret) = run at ok sound
      obtain ⟨⟨checked, flow⟩, st₂⟩ := run
      dsimp only at ok sound
      cases failure : closureFailure st₂ sig ret flow with
      | some d => simp [failure] at ok
      | none =>
        simp only [failure, Prod.mk.injEq, Expr.lambda.injEq, true_and, Except.ok.injEq,
          Ty.function.injEq] at ok
        obtain ⟨⟨rfl, -⟩, -, rfl⟩ := ok
        unfold closureFailure at failure
        cases error : flow.hasError with
        | true => simp [error] at failure
        | false =>
          cases must : flow.mustReturn with
          | false => cases ret <;> simp [error, must] at failure hrt
          | true => exact (sound (.inl error)).alwaysReturns must

end Bodies

theorem Accepted.alwaysReturns [FloatArith] {env : CheckEnv} {rt : Ty} {body : List Stmt}
    (h : Accepted env rt body) (hrt : rt ≠ .nil) : AlwaysReturns body := by
  cases h with
  | @function n _ _ _ _ _ _ _ _ header ret ok =>
    obtain ⟨scope, f₁, st₁, ok⟩ := checkFunction_body header ret ok
    exact checkFunctionBody_alwaysReturns (blocksSound_checking env n) hrt ok
  | @closure n _ _ _ _ _ _ _ _ _ _ _ ok =>
    exact checkLambda_alwaysReturns (blocksSound_checking env n) hrt ok

end Kryndel
