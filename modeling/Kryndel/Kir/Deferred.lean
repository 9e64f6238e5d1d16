import Kryndel.Kir.ExprHistories

/-!
# Deferred bodies

What the executor does with the bodies that blocks defer. In a run in which no call is made while
a value waits to be returned, every block that is left runs all its deferred bodies, once each,
the last one first, and ends with the first diagnostic or else as its statements did.
-/

namespace Kryndel.KIRExec

open List

variable {ω : Type} {host : KIRHost ω}

/-! ## Statements -/

section Statements

variable {invoke : KIRExecCall → Exec ω Value} {block : Nat → List ExecStmt → Exec ω KIRExecFlow}
  {s : Nat}

theorem withValue_executes (hinvoke : ∀ call, Calls (invoke call)) {e : ExecExpr}
    {next : Value → Exec ω KIRExecFlow} (hnext : ∀ v, Executes false s (next v)) :
    Executes false s (withValue host invoke s e next) :=
  (evalExpr_evaluates hinvoke e).orReturn hnext

theorem withBool_executes (hinvoke : ∀ call, Calls (invoke call)) {e : ExecExpr}
    {next : Bool → Exec ω KIRExecFlow} (hnext : ∀ b, Executes false s (next b)) :
    Executes false s (withBool host invoke s e next) := by
  apply withValue_executes hinvoke
  intro v
  split
  · exact hnext _
  · exact (still_failAt _ _ _).clears.executes

theorem still_debugging (scope : Nat) (stmt : KIRStmt) : Still (debugging host scope stmt) :=
  (still_perform _).bind fun _ => .ite (still_pure _) (still_fail _ _ _ _ _)

theorem still_debuggingAgain (first : Bool) (scope : Nat) (stmt : KIRStmt) :
    Still (debuggingAgain host first scope stmt) :=
  .ite (still_pure _) (still_debugging scope stmt)

variable (hblock : ∀ inner body, Blocks false inner (block inner body))

include hblock

theorem nested_encloses (scope : Nat) (body : List ExecStmt) :
    Encloses (nested block scope body) :=
  encloses_openScope fun inner => hblock inner body

theorem execWhile_executes (hinvoke : ∀ call, Calls (invoke call)) (stmt : KIRStmt)
    (cond : ExecExpr) (body : List ExecStmt) (n : Nat) (first : Bool) :
    Executes false s (execWhile host invoke block s stmt cond body n first) := by
  induction n generalizing first with
  | zero => exact still_stuck.clears.executes
  | succ n ih =>
    apply (still_debuggingAgain first s stmt).clears.thenExecutes
    intro _
    apply (still_perform _).clears.thenExecutes
    intro _
    apply withBool_executes hinvoke
    intro b
    split
    · apply (nested_encloses hblock s body).clears.thenExecutes
      intro flow
      cases flow with
      | normal v | continued => exact ih false
      | returned v | tail call | broke => exact executes_pure _
    · exact executes_pure _

theorem forRound_encloses (stmt : KIRStmt) (e : KIRExecExpr) (binding : Option KIRBinding)
    (body : List ExecStmt) (item : Value) (first : Bool) :
    Encloses (forRound host block s stmt e binding body item first) := by
  apply encloses_openScope
  intro inner
  apply (still_define _ _ _ _ _ _ _).clears.thenBlocks
  intro _
  apply (still_debuggingAgain first inner stmt).clears.thenBlocks
  intro _
  exact hblock inner body

theorem execFor_executes (stmt : KIRStmt) (e : KIRExecExpr) (binding : Option KIRBinding)
    (body : List ExecStmt) (items : List Value) (first : Bool) :
    Executes false s (execFor host block s stmt e binding body items first) := by
  induction items generalizing first with
  | nil => exact executes_pure _
  | cons item items ih =>
    apply (forRound_encloses hblock stmt e binding body item first).clears.thenExecutes
    intro flow
    cases flow with
    | normal v | continued => exact ih false
    | returned v | tail call | broke => exact executes_pure _

theorem execArm_blocks (v : Value) (pattern : Mir.KIRPattern execScalars)
    (body : List ExecStmt) (inner : Nat) :
    Blocks false inner (execArm block v pattern body inner) := by
  unfold execArm
  by_cases hbinding : pattern.value.bindingName != ""
  · rw [if_pos hbinding]
    split
    · exact (still_fail _ _ _ _ _).clears.blocks
    · exact (still_define _ _ _ _ _ _ _).clears.thenBlocks fun _ => hblock inner body
  · rw [if_neg hbinding]
    exact hblock inner body

theorem execMatch_encloses (e : KIRExecExpr) (v : Value) (arms : List ExecArm) :
    Encloses (execMatch block s e v arms) := by
  induction arms with
  | nil => exact (still_failAt _ _ _).encloses
  | cons arm arms ih =>
    obtain _ | ⟨_, _ | pattern, body⟩ := arm
    · exact still_stuck.encloses
    · exact still_stuck.encloses
    · unfold execMatch
      split
      · apply encloses_openScope
        intro inner
        exact execArm_blocks hblock v pattern body inner
      · exact ih

omit hblock

theorem still_returnValue (stmt : KIRStmt) (e : KIRExecExpr) (v : Value) :
    Still (returnValue stmt e v : Exec ω KIRExecFlow) := by
  refine .ite ((still_reading _).bind fun type => ?_) (still_pure _)
  split
  · exact still_fail _ _ _ _ _
  · exact still_pure _

theorem execReturn_executes (hinvoke : ∀ call, Calls (invoke call)) (stmt : KIRStmt)
    (e : ExecExpr) : Executes false s (execReturn host invoke s stmt e) := by
  cases e with
  | nil => exact executes_pure _
  | node value =>
    rw [execReturn]
    · split
      · exact (evalKIRTailCall_evaluates hinvoke _).beforeCall.executes
      · exact withValue_executes hinvoke fun v => (still_returnValue stmt _ v).clears.executes
    · intro h
      cases h

theorem execAssign_executes (hinvoke : ∀ call, Calls (invoke call)) (target value : ExecExpr) :
    Executes false s (execAssign host invoke s target value) := by
  apply (still_reading _).clears.thenExecutes
  intro found
  split
  · exact (still_failAt _ _ _).clears.executes
  · split
    · exact (still_failAt _ _ _).clears.executes
    · apply withValue_executes hinvoke
      intro v
      exact (still_changing _).clears.thenExecutes fun _ => executes_pure _

theorem execStmt_executes (hinvoke : ∀ call, Calls (invoke call))
    (hblock : ∀ inner body, Blocks false inner (block inner body)) (rounds : Nat)
    (stmt : ExecStmt) : Executes false s (execStmt host invoke block rounds s stmt) := by
  cases stmt with
  | nil => exact still_stuck.clears.executes
  | node value binding init expr target valueExpr cond iter ret scrutinee thenBody elseBody body
      arms =>
    have hlet : Executes false s (withValue host invoke s init fun v => do
        Exec.define s binding v .runtime value.source value.line value.column
        return .normal .nil) := by
      apply withValue_executes hinvoke
      intro v
      exact (still_define _ _ _ _ _ _ _).clears.thenExecutes fun _ => executes_pure _
    rw [execStmt]
    split
    · exact hlet
    · exact hlet
    · exact execAssign_executes hinvoke target valueExpr
    · exact withValue_executes hinvoke fun v => executes_pure _
    · exact withBool_executes hinvoke fun b => (nested_encloses hblock s _).clears.executes
    · exact execWhile_executes hblock hinvoke value cond body rounds true
    · apply withValue_executes hinvoke
      intro v
      split
      · exact (still_failAt _ _ _).clears.executes
      · exact execFor_executes hblock value _ binding body _ true
    · exact executes_pure _
    · exact executes_pure _
    · exact executes_addDeferred body
    · exact (nested_encloses hblock s body).clears.executes
    · apply withValue_executes hinvoke
      intro v
      exact (execMatch_encloses hblock _ v arms).clears.executes
    · exact execReturn_executes hinvoke value ret
    · exact (still_fail _ _ _ _ _).clears.executes

theorem still_afterStmt (mode : BlockMode) (stmt : ExecStmt) (value : KIRStmt)
    (flow : KIRExecFlow) : Still (afterStmt host mode stmt value flow) := by
  apply Still.bind
  · refine .ite ?_ (still_pure _)
    unfold displayFlow
    split
    · exact still_pure _
    · exact (still_reading _).bind fun _ => still_perform _
  · intro _
    exact .ite (still_perform _) (still_pure _)

/-- Is a block stopped only by its statements? -/
def BlockMode.top (mode : BlockMode) : Bool :=
  mode.topLevel || mode.repl

theorem afterStmt_pure {mode : BlockMode} (h : mode.top = false) (stmt : ExecStmt)
    (value : KIRStmt) (flow : KIRExecFlow) : afterStmt host mode stmt value flow = pure () := by
  obtain ⟨topLevel, repl⟩ := mode
  obtain ⟨rfl, rfl⟩ := Bool.or_eq_false_iff.mp h
  rfl

theorem blockStmt_executes (hinvoke : ∀ call, Calls (invoke call))
    (hblock : ∀ inner body, Blocks false inner (block inner body)) (rounds : Nat)
    (mode : BlockMode) (stmt : ExecStmt) :
    Executes mode.top s (blockStmt host invoke block rounds mode s stmt) := by
  cases stmt with
  | nil => exact still_stuck.clears.executes
  | node value =>
    apply (still_debugging s value).clears.thenExecutes
    intro _
    apply (still_perform _).clears.thenExecutes
    intro _
    apply (execStmt_executes hinvoke hblock rounds _).settled
    · exact fun flow => still_afterStmt mode _ value flow
    · exact fun htop flow => afterStmt_pure htop _ value flow

theorem execStmts_executes (hinvoke : ∀ call, Calls (invoke call))
    (hblock : ∀ inner body, Blocks false inner (block inner body)) (rounds : Nat)
    (mode : BlockMode) (stmts : List ExecStmt) (flow : KIRExecFlow) :
    Executes mode.top s (execStmts host invoke block rounds mode s stmts flow) := by
  induction stmts generalizing flow with
  | nil => exact executes_pure _
  | cons stmt rest ih =>
    apply (blockStmt_executes hinvoke hblock rounds mode stmt).seq fun v => ih (.normal v)
    · exact fun v => rfl
    · intro flow hflow
      cases flow with
      | normal v => exact absurd rfl (hflow v)
      | broke | continued | returned v | tail call => rfl

end Statements

/-! ## Blocks -/

section BlockRuns

variable {invoke : KIRExecCall → Exec ω Value} {block : Nat → List ExecStmt → Exec ω KIRExecFlow}
  {s : Nat}

/-- Some bodies were executed, and the first diagnostic was kept. -/
def RunsAll (s : Nat) (bodies : List (List ExecStmt)) (kept : Option ExecDiagnostic)
    (x : Exec ω (Option ExecDiagnostic)) : Prop :=
  Steps (fun st new r st' => s < st.defers.length → st.propagated = none →
    Frame (fun entry => entry.1 = s ∧ ∃ body waiting failure, entry.2 = .ran body waiting failure)
      r.isSome st new st' ∧
    (r.isSome = true → st'.propagated = none) ∧
    ∀ result, r = some result → ∃ failures, failures.length = bodies.length ∧
      about s new = ranAll bodies failures ∧ result = .ok (kept.or (failures.findSome? id))) x

variable {st' st : ExecState ω}

theorem ranBody_cut {body : List ExecStmt} (h : nested block s body st = (none, st')) :
    ranBody block s body st = (none, st') := by
  show Exec.bind (nested block s body).attempt _ st = _
  rw [Exec.bind, Exec.attempt, h]
  rfl

theorem ranBody_ended {body : List ExecStmt} {r : Except ExecDiagnostic KIRExecFlow}
    (h : nested block s body st = (some r, st')) :
    ranBody block s body st = (some (.ok (failureOf r)),
      { st' with log := st'.log ++ [(s, .ran body st.propagated.isSome (failureOf r))] }) := by
  show Exec.bind (nested block s body).attempt _ st = _
  rw [Exec.bind, Exec.attempt, h]
  rfl

theorem ranBody_steps (hblock : ∀ inner body, Blocks false inner (block inner body))
    (body : List ExecStmt) :
    Steps (fun st new r st' => s < st.defers.length → st.propagated = none →
      Frame (fun entry => entry.1 = s ∧
        ∃ body waiting failure, entry.2 = .ran body waiting failure) r.isSome st new st' ∧
      (r.isSome = true → st'.propagated = none) ∧
      ∀ result, r = some result → ∃ failure, result = .ok failure ∧
        about s new = [.ran body false failure]) (ranBody block s body) := by
  intro st
  obtain ⟨new, hlog, hp⟩ := nested_encloses hblock s body st
  rcases hrun : nested block s body st with ⟨_ | r, st₁⟩
  · rw [hrun] at hlog hp
    rw [ranBody_cut hrun]
    refine ⟨new, hlog, fun hlate => ⟨(hp hlate).1, fun hs hnone => ?_⟩⟩
    obtain ⟨hframe, hafter⟩ := (hp hlate).2 hnone
    exact ⟨hframe.mono fun _ hno => hno.elim, hafter, fun result hresult => by cases hresult⟩
  · rw [hrun] at hlog hp
    rw [ranBody_ended hrun]
    refine ⟨new ++ [(s, .ran body st.propagated.isSome (failureOf r))], ?_, fun hlate => ?_⟩
    · show st₁.log ++ _ = _
      rw [hlog, append_assoc]
    · refine ⟨(hp hlate).1, fun hs hnone => ?_⟩
      obtain ⟨hframe, hafter⟩ := (hp hlate).2 hnone
      refine ⟨?_, fun _ => hafter rfl, ?_⟩
      · apply Frame.trans (hframe.mono fun _ hno => hno.elim)
        · exact .entry (hs.trans_le hframe.grows) rfl ⟨rfl, _, _, _, rfl⟩ rfl
        · exact fun entry hown => hown.1 ▸ hs
      · rintro result ⟨⟩
        refine ⟨failureOf r, rfl, ?_⟩
        rw [about_append, hframe.about_old (fun _ hno => hno) hs, about_single, hnone]
        rfl

/-- Every deferred body is executed, whatever becomes of the others: the induction is on the
    bodies. -/
theorem execDefers_runsAll (hblock : ∀ inner body, Blocks false inner (block inner body))
    (bodies : List (List ExecStmt)) (kept : Option ExecDiagnostic) :
    RunsAll s bodies kept (execDefers block s bodies kept) := by
  induction bodies generalizing kept with
  | nil =>
    intro st
    refine ⟨[], (append_nil _).symm, fun hlate => ⟨hlate, fun hs hnone => ?_⟩⟩
    refine ⟨.quiet rfl, fun _ => hnone, ?_⟩
    rintro result ⟨⟩
    exact ⟨[], rfl, rfl, by simp⟩
  | cons body rest ih =>
    apply Steps.bind (ranBody_steps hblock body) fun failure => ih (kept.or failure)
    · intro st new failure st₁ new' r st' hfirst hthen hs hnone
      obtain ⟨hframe, hafter, hran⟩ := hfirst hs hnone
      obtain ⟨hframe', hafter', hrest⟩ := hthen (hs.trans_le hframe.grows) (hafter rfl)
      refine ⟨hframe.trans hframe' fun entry hown => hown.1 ▸ hs, hafter', ?_⟩
      intro result hresult
      obtain ⟨_, hok, habout⟩ := hran _ rfl
      cases hok
      obtain ⟨failures, hlength, habout', rfl⟩ := hrest result hresult
      refine ⟨failure :: failures, by rw [length_cons, hlength, length_cons], ?_, ?_⟩
      · rw [about_append, habout, habout']
        rfl
      · cases failure with
        | none => simp
        | some d => cases kept <;> simp
    · intro st new d st' hfirst hs hnone
      obtain ⟨-, -, hran⟩ := hfirst hs hnone
      obtain ⟨_, hok, -⟩ := hran _ rfl
      cases hok
    · intro st new st' hfirst hs hnone
      obtain ⟨hframe, hafter, -⟩ := hfirst hs hnone
      exact ⟨hframe, hafter, fun result hresult => by cases hresult⟩

variable {outcome : Except ExecDiagnostic KIRExecFlow}

theorem leaveBlock_cut
    (h : execDefers block s (st.defers.getD s []).reverse (failureOf outcome)
      { st with log := st.log ++ [(s, .ended outcome)] } = (none, st')) :
    leaveBlock block s outcome st = (none, st') := by
  show Exec.bind (execDefers block s _ _) _ _ = _
  rw [Exec.bind, h]

theorem leaveBlock_failed {d : ExecDiagnostic}
    (h : execDefers block s (st.defers.getD s []).reverse (failureOf outcome)
      { st with log := st.log ++ [(s, .ended outcome)] } = (some (.error d), st')) :
    leaveBlock block s outcome st = (some (.error d), st') := by
  show Exec.bind (execDefers block s _ _) _ _ = _
  rw [Exec.bind, h]

theorem leaveBlock_ended {failure : Option ExecDiagnostic}
    (h : execDefers block s (st.defers.getD s []).reverse (failureOf outcome)
      { st with log := st.log ++ [(s, .ended outcome)] } = (some (.ok failure), st')) :
    leaveBlock block s outcome st = (some (blockResult outcome failure),
      { st' with log := st'.log ++ [(s, .left (blockResult outcome failure))] }) := by
  show Exec.bind (execDefers block s _ _) _ _ = _
  rw [Exec.bind, h]
  rfl

theorem leaveBlock_steps (hblock : ∀ inner body, Blocks false inner (block inner body))
    (outcome : Except ExecDiagnostic KIRExecFlow) :
    Steps (fun st new r st' => s < st.defers.length → st.propagated = none →
      Frame (fun entry => entry.1 = s) r.isSome st new st' ∧
      (r.isSome = true → st'.propagated = none) ∧
      (r.isSome = true ∨ isLeft (about s new) → ∃ failures,
        failures.length = (st.defers.getD s []).length ∧
        about s new = .ended outcome :: (ranAll (st.defers.getD s []).reverse failures ++
          [.left (reported outcome failures)]))) (leaveBlock block s outcome) := by
  intro st
  obtain ⟨new, hlog, hp⟩ := execDefers_runsAll hblock (st.defers.getD s []).reverse
    (failureOf outcome) { st with log := st.log ++ [(s, .ended outcome)] }
  have hended : s < st.defers.length → Frame (fun entry => entry.1 = s) true st
      [(s, .ended outcome)] { st with log := st.log ++ [(s, .ended outcome)] } :=
    fun hs => .entry hs rfl rfl rfl
  rcases hrun : execDefers block s (st.defers.getD s []).reverse (failureOf outcome)
      { st with log := st.log ++ [(s, .ended outcome)] } with ⟨_ | d | failure, st₁⟩
  · rw [hrun] at hlog hp
    rw [leaveBlock_cut hrun]
    refine ⟨(s, .ended outcome) :: new, ?_, fun hlate => ⟨(hp hlate).1, fun hs hnone => ?_⟩⟩
    · rw [hlog, append_assoc, singleton_append]
    · obtain ⟨hframe, hafter, -⟩ := (hp hlate).2 hs hnone
      refine ⟨(hended hs).trans (hframe.mono fun _ hown => hown.1) fun entry hown => hown ▸ hs,
        hafter, ?_⟩
      -- the block has not been left
      rintro (hsome | ⟨result, hresult⟩)
      · cases hsome
      · rcases mem_cons.mp (mem_about.mp hresult) with heq | hmem
        · cases heq
        · obtain ⟨-, _, _, _, heq⟩ := hframe.own _ hmem hs
          cases heq
  · -- a diagnostic of a deferred body is kept, and does not end the block
    rw [hrun] at hlog hp
    rw [leaveBlock_failed hrun]
    refine ⟨(s, .ended outcome) :: new, ?_, fun hlate => ⟨(hp hlate).1, fun hs hnone => ?_⟩⟩
    · rw [hlog, append_assoc, singleton_append]
    · obtain ⟨-, -, hran⟩ := (hp hlate).2 hs hnone
      obtain ⟨_, _, _, heq⟩ := hran _ rfl
      cases heq
  · rw [hrun] at hlog hp
    rw [leaveBlock_ended hrun]
    refine ⟨(s, .ended outcome) :: (new ++ [(s, .left (blockResult outcome failure))]), ?_,
      fun hlate => ⟨(hp hlate).1, fun hs hnone => ?_⟩⟩
    · show st₁.log ++ _ = _
      rw [hlog]
      simp
    · obtain ⟨hframe, hafter, hran⟩ := (hp hlate).2 hs hnone
      obtain ⟨failures, hlength, habout, heq⟩ := hran _ rfl
      cases heq
      refine ⟨?_, fun _ => hafter rfl, fun _ => ⟨failures, ?_, ?_⟩⟩
      · apply (hended hs).trans _ fun entry hown => hown ▸ hs
        apply (hframe.mono fun _ hown => hown.1).trans _ fun entry hown => hown ▸ hs
        exact .entry (hs.trans_le hframe.grows) rfl rfl rfl
      · rw [hlength, length_reverse]
      · rw [← singleton_append, about_append, about_append, habout, about_single,
          about_single]
        rfl

theorem execBlock_blocks (hinvoke : ∀ call, Calls (invoke call))
    (hblock : ∀ inner body, Blocks false inner (block inner body)) (rounds : Nat)
    (mode : BlockMode) (stmts : List ExecStmt) :
    Blocks mode.top s (execBlock host invoke block rounds mode s stmts) := by
  have hstmts : Steps (fun st new r st' => s < st.defers.length → st.propagated = none →
      Frame (fun entry => entry.1 = s ∧ entry.2.isOpening = true) r.isSome st new st' ∧
      (r.isSome = true → st'.propagated = none) ∧ (∀ d, r ≠ some (.error d)) ∧
      ∀ v, raisedIn (about s new) = some v → ∀ outcome, r = some (.ok outcome) →
        Returns mode.top v outcome)
      (execStmts host invoke block rounds mode s stmts (.normal .nil)).attempt := by
    apply Steps.attempt (execStmts_executes hinvoke hblock rounds mode stmts (.normal .nil))
    intro st new r st' h hs hnone
    obtain ⟨hframe, hafter, hreturns⟩ := h hs hnone
    rw [Option.isSome_map]
    refine ⟨hframe, hafter, ?_, ?_⟩
    · intro d
      cases r with
      | none => simp
      | some r => simp
    · intro v hv outcome houtcome
      obtain ⟨r, rfl, heq⟩ := Option.map_eq_some_iff.mp houtcome
      cases heq
      exact hreturns v hv _ rfl
  apply Steps.bind hstmts fun outcome => leaveBlock_steps hblock outcome
  · intro st new outcome st₁ new' r st' hfirst hthen hs hnone hempty
    obtain ⟨hframe, hafter, -, hreturns⟩ := hfirst hs hnone
    obtain ⟨hframe', hafter', hhistory⟩ := hthen (hs.trans_le hframe.grows) (hafter rfl)
    refine ⟨?_, hafter', fun hleft => .inr ?_⟩
    · apply (hframe.mono fun _ hown => hown.1).trans hframe'
      exact fun entry hown => hown ▸ hs
    · have hopening : ∀ m ∈ about s new, m.isOpening = true := fun m hm =>
        (hframe.own _ (mem_about.mp hm) hs).2
      have hleft' : r.isSome = true ∨ isLeft (about s new') := by
        refine hleft.imp_right ?_
        rintro ⟨result, hresult⟩
        rw [about_append] at hresult
        rcases mem_append.mp hresult with hfirst | hthen
        · cases hopening _ hfirst
        · exact ⟨result, hthen⟩
      obtain ⟨failures, hlength, habout⟩ := hhistory hleft'
      rw [hframe.kept s hs, hempty, nil_append] at hlength habout
      refine ⟨about s new, outcome, failures, hopening, fun v hv => hreturns v hv outcome rfl,
        hlength, ?_⟩
      rw [about_append, habout]
  · intro st new d st' hfirst hs hnone
    obtain ⟨-, -, hok, -⟩ := hfirst hs hnone
    exact absurd rfl (hok d)
  · intro st new st' hfirst hs hnone hempty
    obtain ⟨hframe, hafter, -, -⟩ := hfirst hs hnone
    refine ⟨hframe.mono fun _ hown => hown.1, hafter, ?_⟩
    rintro (hsome | ⟨result, hresult⟩)
    · cases hsome
    · cases (hframe.own _ (mem_about.mp hresult) hs).2

end BlockRuns

/-! ## Functions and programs -/

section Programs

variable {invoke : KIRExecCall → Exec ω Value} {block : Nat → List ExecStmt → Exec ω KIRExecFlow}
  {s : Nat}

theorem bindParams_clears (hinvoke : ∀ call, Calls (invoke call)) (call : KIRExecExpr)
    (params : List ExecParam) (arguments : List Value) :
    Clears s (bindParams host invoke call s params arguments) := by
  induction params generalizing arguments with
  | nil => exact clears_pure _
  | cons param params ih =>
    obtain _ | ⟨p, default, binding⟩ := param
    · exact still_stuck.clears
    · cases arguments with
      | cons argument arguments =>
        exact (still_define _ _ _ _ _ _ _).clears.bind fun _ => ih arguments
      | nil =>
        cases default with
        | nil => exact (still_failAt _ _ _).clears
        | node =>
          apply (evalExpr_evaluates hinvoke _).beforeCall.bind
          intro argument
          exact (still_define _ _ _ _ _ _ _).clears.bind fun _ => ih []

theorem still_bindReceiver (f : KIRFunction) (call : KIRExecCall) (child : Nat) :
    Still (bindReceiver host f call child) := by
  refine .ite ?_ (still_pure _)
  split
  · exact still_define _ _ _ _ _ _ _
  · exact still_pure _
  · exact still_failAt _ _ _

theorem still_checkReceiver (f : KIRFunction) (call : KIRExecCall) :
    Still (checkReceiver host f call) :=
  .ite ((still_reading _).bind fun _ => .ite (still_pure _) (still_failAt _ _ _))
    (.ite (still_failAt _ _ _) (still_pure _))

theorem enterFunction_encloses (hinvoke : ∀ call, Calls (invoke call))
    (hblock : ∀ inner body, Blocks false inner (block inner body)) (call : KIRExecCall) :
    Encloses (enterFunction host invoke block call) := by
  unfold enterFunction
  split
  · exact still_stuck.encloses
  · apply (still_checkReceiver _ _).encloses.bind
    intro _
    split
    · exact (still_failAt _ _ _).encloses
    · apply encloses_openScope
      intro child
      apply (still_bindReceiver _ _ _).clears.thenBlocks
      intro _
      apply (bindParams_clears hinvoke _ _ _).thenBlocks
      intro _
      apply (still_changing _).clears.thenBlocks
      intro _
      apply (hblock child _).attempt.thenStill
      intro result
      apply (still_changing _).bind
      intro _
      cases result with
      | ok flow => exact still_pure flow
      | error d => exact still_done _

theorem still_functionResult (call : KIRExecCall) (flow : KIRExecFlow) :
    Still (functionResult host call flow) := by
  apply (still_reading _).bind
  intro ret
  split
  · exact (still_reading _).bind fun _ => .ite (still_pure _) (still_failAt _ _ _)
  · exact .ite (still_fail _ _ _ _ _) (still_pure _)

theorem invokeLoop_encloses (hinvoke : ∀ call, Calls (invoke call))
    (hblock : ∀ inner body, Blocks false inner (block inner body)) (rounds : Nat)
    (call : KIRExecCall) (framed : Bool) :
    Encloses (invokeLoop host invoke block rounds call framed) := by
  induction rounds generalizing call framed with
  | zero => exact still_stuck.encloses
  | succ n ih =>
    apply (enterFunction_encloses hinvoke hblock call).bind
    intro flow
    split
    · apply (still_reading _).encloses.bind
      intro typeArguments
      split
      · exact (still_failAt _ _ _).encloses
      · split
        · exact (still_changing _).encloses.bind fun _ => ih _ true
        · split
          · exact ih _ false
          · exact (still_changing _).encloses.bind fun _ => ih _ true
    · exact (still_functionResult call flow).encloses

theorem invokeKIR_calls (hinvoke : ∀ call, Calls (invoke call))
    (hblock : ∀ inner body, Blocks false inner (block inner body)) (rounds : Nat)
    (call : KIRExecCall) : Calls (invokeKIR host invoke block rounds call) := by
  apply Encloses.calls
  apply (still_reading _).encloses.bind
  intro calls
  split
  · exact (still_failAt _ _ _).encloses
  · apply (still_reading _).encloses.bind
    intro saved
    split
    · exact (still_failAt _ _ _).encloses
    · apply (still_changing _).encloses.bind
      intro _
      apply (invokeLoop_encloses hinvoke hblock rounds call _).attempt.bind
      intro result
      exact (still_changing _).encloses.bind fun _ => (still_done result).encloses

theorem levels_spec (host : KIRHost ω) (n : Nat) :
    (∀ inner body, Blocks false inner ((levels host n).block inner body)) ∧
      ∀ call, Calls ((levels host n).invoke call) := by
  induction n with
  | zero =>
    exact ⟨fun inner body => still_stuck.clears.blocks, fun call => still_stuck.encloses.calls⟩
  | succ n ih =>
    obtain ⟨hblock, hinvoke⟩ := ih
    exact ⟨fun inner body => execBlock_blocks hinvoke hblock n {} body,
      fun call => invokeKIR_calls hinvoke hblock n call⟩

theorem executeMain_encloses {levels : Levels ω} (hinvoke : ∀ call, Calls (levels.invoke call))
    (call : KIRExecCall) : Encloses (executeMain host levels call) := by
  apply (hinvoke call).encloses.bind
  intro v
  apply (still_perform _).encloses.bind
  intro _
  split
  · exact ((still_reading _).bind fun _ => still_fail _ _ _ _ _).encloses
  · exact (still_pure _).encloses

theorem execute_blocks (host : KIRHost ω) (bound : Nat) (repl : Bool) (entry : Entry) :
    Blocks true 0 (execute host bound repl entry) := by
  obtain ⟨hblock, hinvoke⟩ := levels_spec host bound
  cases entry with
  | statements stmts =>
    apply Blocks.thenStill
    · exact execBlock_blocks hinvoke hblock bound { topLevel := true, repl } stmts
    · exact fun _ => still_pure _
  | main call => exact (executeMain_encloses hinvoke call).clears.blocks

/-- In a run in which no call is made while a value waits to be returned, the history of every
    block that is left is orderly. If the run ends, every block is left. -/
theorem execute_orderly (host : KIRHost ω) (bound : Nat) (repl : Bool) (entry : Entry)
    (data : ExecData ω) (scope : Nat)
    (hlate : (execute host bound repl entry (initialState data)).2.late = false)
    (hleft : (execute host bound repl entry (initialState data)).1.isSome = true ∨
      isLeft (about scope (execute host bound repl entry (initialState data)).2.log)) :
    Orderly (scope == 0)
      (about scope (execute host bound repl entry (initialState data)).2.log) := by
  obtain ⟨new, hlog, hp⟩ := execute_blocks host bound repl entry (initialState data)
  have hnew : (execute host bound repl entry (initialState data)).2.log = new := hlog
  rw [hnew] at hleft ⊢
  obtain ⟨hframe, -, horderly⟩ := (hp hlate).2 Nat.zero_lt_one rfl rfl
  cases scope with
  | zero => exact horderly hleft
  | succ n => exact hframe.orderly (n + 1) (Nat.le_add_left 1 n) hleft

end Programs

/-! ## A propagation that a deferred body takes -/

section Example

def hostError (category : Category) (e : KIRExecExpr) (message : String) : ExecDiagnostic where
  toDiagnostic := diag category e.source e.line e.column message

/-- A host with a few of the operations, which writes its output in its world. -/
def plainHost (functions : String → Option ExecFunction) : KIRHost (List String) where
  functions := functions
  maxCallDepth := 1024
  step _ _ _ data := (.ok (), data.world)
  debugStatement _ _ data := (.ok true, data.world)
  contextFailure _ _ _ data := (.ok (), data.world)
  account _ _ _ _ data := (.ok (), data.world)
  emitOutput text _ _ _ data := (.ok (), data.world ++ [text])
  displayValue _ v := match v with
    | .string text => text
    | _ => ""
  equalValue _ _ := false
  build e operands data := match e.operator, operands with
    | ">", [.int a, .int b] => (.ok (.bool (b < a)), data.world)
    | _, _ =>
        (.error (hostError .runtime e "operator operands have incompatible types"), data.world)
  structFields _ _ := none
  valueMatchesType _ v type := match type, v with
    | "Int", .int _ | "Bool", .bool _ | "String", .string _ | "Nil", .nil => true
    | "Option[Int]", .absent | "Option[Int]", .present (.int _) => true
    | _, _ => false
  instantiate _ type := type
  typeArguments _ _ _ _ := some []
  selfBinding _ := some none
  traitCall e _ := .error (hostError .artifact e "KIR trait call has malformed dispatch metadata")
  builtinAllowed _ _ data := (.ok (), data.world)
  builtin e operands data := match e.name, operands with
    | "println", [.string text] => (.ok (.value .nil), data.world ++ [text ++ "\n"])
    | "none", [] => (.ok (.value .absent), data.world)
    | "some", [v] => (.ok (.value (.present v)), data.world)
    | _, _ => (.error (hostError .artifact e "KIR output builtin has invalid arity"), data.world)

/-- An expression of a kind and a type. -/
def node (kind type : String) : KIRExecExpr :=
  { kind, type, source := "main.kry", line := 1, column := 1 }

def leaf (e : KIRExecExpr) (binding : Option KIRBinding) : ExecExpr :=
  .node e .nil .nil .nil .nil .nil .nil .nil binding .nil [] [] [] []

def intExpr (i : Int64) : ExecExpr :=
  leaf { node "int" "Int" with literal := .int i } none

def callExpr (kind name type : String) (tail : Bool) (args : List ExecExpr) : ExecExpr :=
  .node { node "call" type with name, callTarget := kind ++ ":" ++ name, tail }
    .nil .nil .nil .nil .nil .nil .nil none .nil args [] [] []

def propagateExpr (type : String) (operand : ExecExpr) : ExecExpr :=
  .node (node "propagate" type) .nil .nil operand .nil .nil .nil .nil none .nil [] [] [] []

def exprStmt (e : ExecExpr) : ExecStmt :=
  .node { kind := "expr", source := "main.kry", line := 1, column := 1 }
    none .nil e .nil .nil .nil .nil .nil .nil [] [] [] []

def returnStmt (e : ExecExpr) : ExecStmt :=
  .node { kind := "return", source := "main.kry", line := 1, column := 1 }
    none .nil .nil .nil .nil .nil .nil e .nil [] [] [] []

def deferStmt (body : List ExecStmt) : ExecStmt :=
  .node { kind := "defer", source := "main.kry", line := 1, column := 1 }
    none .nil .nil .nil .nil .nil .nil .nil .nil [] [] body []

def ifStmt (cond : ExecExpr) (thenBody : List ExecStmt) : ExecStmt :=
  .node { kind := "if", source := "main.kry", line := 1, column := 1 }
    none .nil .nil .nil .nil cond .nil .nil .nil thenBody [] [] []

def functionNode (name : String) (body : List ExecStmt) (params : List ExecParam) : ExecFunction :=
  .node { name, source := "main.kry", line := 1, column := 1, module := "main",
          ret := "Option[Int]" } body params []

def println (text : String) : ExecStmt :=
  exprStmt (callExpr "builtin" "println" "Nil" false
    [leaf { node "string" "String" with literal := .string text } none])

def nBinding : KIRBinding :=
  { id := "n", name := "n", type := "Int", mutable := false, source := "main.kry", line := 1,
    column := 1 }

def nExpr : ExecExpr :=
  leaf { node "var" "Int" with name := "n" } (some nBinding)

/-- `fn g() -> Option[Int] { return none() }` -/
def functionG : ExecFunction :=
  functionNode "g" [returnStmt (callExpr "builtin" "none" "Option[Int]" false [])] []

/-- `fn f(n: Int) -> Option[Int] { defer { println("one") println("two") } if n > 0 { return e }
    return some(n) }` -/
def functionF (e : ExecExpr) : ExecFunction :=
  functionNode "f"
    [deferStmt [println "one", println "two"],
      ifStmt (.node { node "binary" "Bool" with operator := ">" } nExpr (intExpr 0) .nil .nil .nil
        .nil .nil none .nil [] [] [] []) [returnStmt e],
      returnStmt (callExpr "builtin" "some" "Option[Int]" false [nExpr])]
    [.node { name := "n", type := "Int", source := "main.kry", line := 1, column := 1 } .nil
      (some nBinding)]

/-- The functions `g` and `f`. -/
def functionsOf (e : ExecExpr) : String → Option ExecFunction
  | "g" => some functionG
  | "f" => some (functionF e)
  | _ => none

/-- `g()?` -/
def propagated : ExecExpr :=
  propagateExpr "Int" (callExpr "function" "g" "Option[Int]" false [])

/-- `f(1)`, where `f` returns an expression. -/
def programF : Entry :=
  .statements [exprStmt (callExpr "function" "f" "Option[Int]" false [intExpr 1])]

def runF (e : ExecExpr) : Option (Except ExecDiagnostic Unit) × ExecState (List String) :=
  execute (plainHost (functionsOf e)) 8 false programF (initialState { world := [] })

/-- `return g()?` -/
theorem execute_orderly_propagate : Orderly (1 == 0) (about 1 (runF propagated).2.log) := by
  unfold runF
  exact execute_orderly (plainHost (functionsOf propagated)) 8 false programF { world := [] } 1
    (by decide +kernel) (.inl (by decide +kernel))

/-- Did a deferred body begin while a value was waiting to be returned? -/
def beganWaiting : Moment → Bool
  | .ran _ waiting _ => waiting
  | _ => false

theorem Orderly.beganWaiting {top : Bool} {history : List Moment} (h : Orderly top history) :
    history.any beganWaiting = false := by
  obtain rfl | ⟨opening, outcome, failures, hopening, -, -, rfl⟩ := h
  · rfl
  · rw [any_eq_false]
    intro m hm
    rcases mem_append.mp hm with hopens | hleaves
    · have hm := hopening m hopens
      cases m with
      | deferred | raised => simp [KIRExec.beganWaiting]
      | ended | ran | left => cases hm
    · rcases mem_cons.mp hleaves with rfl | hleaves
      · simp [KIRExec.beganWaiting]
      · rcases mem_append.mp hleaves with hran | hlast
        · obtain ⟨i, hi, rfl⟩ := getElem_of_mem hran
          simp [ranAll, KIRExec.beganWaiting]
        · rw [mem_singleton.mp hlast]
          simp [KIRExec.beganWaiting]

/-- `return f(g()?)`: the value that `?` returns is taken by the first statement of the deferred
    body, which prints only its first line, and the call goes on with nil. -/
theorem deferred_body_interrupted :
    ∃ e, (runF e).1.isSome = true ∧ (runF e).2.data.world = ["one\n", "one\n", "two\n"] ∧
      ¬ Orderly (1 == 0) (about 1 (runF e).2.log) := by
  refine ⟨callExpr "function" "f" "Option[Int]" true [propagated], by decide +kernel,
    by decide +kernel, ?_⟩
  intro h
  -- the deferred body of `f` began while the value was waiting
  have hwaiting : (about 1 (runF (callExpr "function" "f" "Option[Int]" true
      [propagated])).2.log).any beganWaiting = true := by decide +kernel
  rw [h.beganWaiting] at hwaiting
  cases hwaiting

end Example

end Kryndel.KIRExec
