import Kryndel.Checker.ExprRecords

/-!
# The records of statements and blocks

What the checker does to a statement, put together from what it does to the parts of
the statement: its expressions and its nested blocks, in the order they are checked.
A declaration is the only thing that fills the scope of the enclosing block.
-/

namespace Kryndel

open Lexical

/-! ## Parts of a statement -/

/-- What a run on one part of a statement does. -/
structure PartOutcome (sc : ScopeRef) (st : CheckState) (before after : Sketch) (st' : CheckState) :
    Prop where
  step : Step st st'
  outline : after.erase = before.erase
  holds : ∀ tag hf c, Standing tag hf st sc c st'.scopes → Holds hf st.captures c before →
    Holds hf st'.captures c after ∧ Grown c.level (Reads c before) st.captures st'.captures ∧
      Everywhere Visited c after

/-- What the runs on some parts, one after another, do. -/
structure PartsOutcome (sc : ScopeRef) (st : CheckState) (before after : List Sketch)
    (st' : CheckState) : Prop where
  step : Step st st'
  outlines : after.map Skel.erase = before.map Skel.erase
  holds : ∀ tag hf c, Standing tag hf st sc c st'.scopes →
    (∀ p ∈ before, Holds hf st.captures c p) →
      (∀ p ∈ after, Holds hf st'.captures c p) ∧
        Grown c.level (fun r => ∃ p ∈ before, Reads c p r) st.captures st'.captures ∧
          ∀ p ∈ after, Everywhere Visited c p

section Parts

variable {sc : ScopeRef} {st st₁ st' : CheckState}

theorem PartsOutcome.nil (err : st.err = none) : PartsOutcome sc st [] [] st :=
  ⟨.refl err, rfl, fun _ _ _ _ _ => ⟨by simp, .refl, by simp⟩⟩

theorem PartsOutcome.cons {p p' : Sketch} {ps ps' : List Sketch}
    (first : PartOutcome sc st p p' st₁) (rest : PartsOutcome sc st₁ ps ps' st') :
    PartsOutcome sc st (p :: ps) (p' :: ps') st' := by
  refine ⟨first.step.trans rest.step, by simp [first.outline, rest.outlines], ?_⟩
  intro tag hf c standing holds
  obtain ⟨hold, grown, visited⟩ := first.holds tag hf c
    (standing.before rest.step.quiet.scopes) (holds p List.mem_cons_self)
  obtain ⟨holds', grown', visited'⟩ := rest.holds tag hf c (standing.later first.step.quiet)
    fun q mem => (holds q (List.mem_cons_of_mem p mem)).mono first.step.captures
  refine ⟨?_, ?_, ?_⟩
  · rintro q mem
    rcases List.mem_cons.mp mem with rfl | mem
    · exact hold.mono rest.step.captures
    · exact holds' q mem
  · exact (grown.mono fun r read => ⟨p, List.mem_cons_self, read⟩).trans
      (grown'.mono fun r ⟨q, mem, read⟩ => ⟨q, List.mem_cons_of_mem p mem, read⟩)
  · rintro q mem
    rcases List.mem_cons.mp mem with rfl | mem
    · exact visited
    · exact visited' q mem

theorem reads_node {c : Blocks} {done : Bool} {parts : List Sketch} {p : Sketch}
    {r : Nat × String × Decl} (mem : p ∈ parts) (read : Reads c p r) :
    Reads c (.node done parts) r := by
  rw [reads_iff] at read ⊢
  exact fun none => read ((everywhere_node.mp none).2 p mem)

theorem PartsOutcome.node {ps ps' : List Sketch} (h : PartsOutcome sc st ps ps' st') :
    PartOutcome sc st (.node false ps) (.node false ps') st' := by
  refine ⟨h.step, by simp [Skel.erase, eraseList_eq_map, h.outlines], ?_⟩
  intro tag hf c standing holds
  obtain ⟨after, grown, visited⟩ := h.holds tag hf c standing fun p mem =>
    ⟨(everywhere_node.mp holds.sound).2 p mem, (everywhere_node.mp holds.recorded).2 p mem⟩
  refine ⟨⟨?_, ?_⟩, grown.mono fun r ⟨p, mem, read⟩ => reads_node mem read, ?_⟩
  · exact everywhere_node.mpr ⟨nofun, fun p mem => (after p mem).sound⟩
  · exact everywhere_node.mpr ⟨fun _ => trivial, fun p mem => (after p mem).recorded⟩
  · exact everywhere_node.mpr ⟨trivial, visited⟩

theorem ExprOutcome.part {e e' : Expr} {t : Ty} (h : ExprOutcome sc st e (e', .ok t) st') :
    PartOutcome sc st e.skel e'.skel st' where
  step := h.step
  outline := h.revised.outline
  holds tag hf c standing holds := by
    obtain ⟨after, grown⟩ := h.holds tag hf c standing holds
    exact ⟨after, grown, visited_of_typed after.sound (h.typed t rfl)⟩

theorem ItemsOutcome.part {params : List (String × Decl)} {before after : List SketchItem}
    {i : Nat} (step : Step st st₁) (fresh : st.scopes.length ≤ i) (bound : i < st₁.scopes.length)
    (names : (st₁.scopes.record i).decls = params)
    (lambda : (st₁.scopes.record i).lambda = (st.scopes.top sc).lambda)
    (captures : st₁.captures = st.captures) (h : ItemsOutcome i sc st₁ before after st') :
    PartOutcome sc st (.block params before) (.block params after) st' := by
  have kept : Kept st.scopes st'.scopes := h.kept step.quiet.scopes fresh
  have quiet : Quiet st st' := ⟨kept, h.busy.currentReturn.trans step.quiet.currentReturn,
    h.busy.currentFunction.trans step.quiet.currentFunction,
    h.busy.currentLambda.trans step.quiet.currentLambda⟩
  refine ⟨⟨step.err, quiet, captures ▸ h.captures⟩, by simp [Skel.erase, h.outline], ?_⟩
  intro tag hf c standing holds
  have place : At tag st₁ (i :: sc)
      ({ now := params, fin := declared params before, level := c.level } :: c) := by
    have here := standing.place
    refine here.enter step.quiet.scopes fresh bound _ names (lambda.trans here.lambda)
      (Nat.le_refl _) (fun _ _ => rfl) here.injective (fun a pos ha => ?_)
      (step.quiet.currentLambda.trans here.current)
    obtain ⟨p, eq, short⟩ := here.closures a pos ha
    exact ⟨p, eq, Nat.le_succ_of_le short⟩
  obtain ⟨⟨sound, recorded⟩, grown, visited⟩ := h.holds tag hf _ c
    (h.standing standing fresh bound rfl place) rfl
    ⟨(everywhere_block.mp holds.sound).2, captures ▸ (everywhere_block.mp holds.recorded).2⟩
  have fin : declared params after = declared params before := by
    rw [← declared_eraseItems, h.outline, declared_eraseItems]
  refine ⟨⟨everywhere_block.mpr ⟨trivial, fin ▸ sound⟩,
    everywhere_block.mpr ⟨fun _ => trivial, fin ▸ recorded⟩⟩, ?_,
    everywhere_block.mpr ⟨trivial, fin ▸ visited⟩⟩
  rw [captures] at grown
  exact grown.mono fun r ⟨x, mem, read⟩ => ⟨x, List.mem_cons_of_mem _ mem, read⟩

end Parts

/-! ## Statements -/

section Statements

variable {env : CheckEnv} {self : Checking} {i : Nat} {sc : ScopeRef} {st st' : CheckState}

theorem PartOutcome.stmt {s : Stmt} {r : Stmt × Flow} (inside : i < st.scopes.length)
    (h : PartOutcome (i :: sc) st s.item.part r.1.item.part st') (decl : s.item.decl = none)
    (decl' : r.1.item.decl = none) (dead : r.1.dead = s.dead) (falls : r.1.falls = s.falls)
    (flow : r.2.mayFallthrough = s.falls) : StmtOutcome i sc st s r st' where
  err := h.step.err
  busy := h.step.quiet.busy
  captures := h.step.captures
  decls := by
    rw [h.step.quiet.scopes.record i inside, decl]
    rfl
  outline := h.outline
  decl := decl'.trans decl.symm
  dead := dead
  falls := falls
  flow := flow
  holds tag hf f c standing holds := h.holds tag hf (f :: c) standing holds

theorem stmtError_err (s : Stmt) (d : Diagnostic) : (stmtError s d st).2.err = some d := rfl

/-- The state in which a nested block is checked. -/
def enterBlock (st : CheckState) (outer : ScopeRef) : CheckState :=
  { st with scopes := (st.scopes.newScope outer (st.scopes.top outer).worker).2 }

theorem openBlock_run (outer : ScopeRef) :
    openBlock outer st = (st.scopes.length :: outer, enterBlock st outer) := rfl

theorem enterBlock_kept (outer : ScopeRef) : Kept st.scopes (enterBlock st outer).scopes :=
  kept_append _ _

theorem enterBlock_step (err : st.err = none) (outer : ScopeRef) : Step st (enterBlock st outer) :=
  ⟨err, ⟨enterBlock_kept outer, rfl, rfl, rfl⟩, fun _ h => h⟩

theorem enterBlock_record (outer : ScopeRef) :
    (enterBlock st outer).scopes.record st.scopes.length =
      { (st.scopes.top outer) with values := [] } := by
  simp [enterBlock, Scopes.newScope]

theorem enterBlock_bound (outer : ScopeRef) :
    st.scopes.length < (enterBlock st outer).scopes.length := by
  simp [enterBlock, Scopes.newScope]

theorem withExpr_ok (exprs : ExprSpec self.expr) {sc : ScopeRef} {e : Expr} {expected : Option Ty}
    {stmt : Expr → Stmt} {next : Expr → Ty → CheckM (Stmt × Flow)}
    (ok : (withExpr self sc e expected stmt next st).2.err = none) :
    ∃ e' t st₁, withExpr self sc e expected stmt next st = next e' t st₁ ∧
      (st₁.err = none → ExprOutcome sc st e (e', .ok t) st₁) := by
  have outcome := exprs sc e expected st
  simp only [withExpr, CheckM.bind_run] at ok ⊢
  generalize self.expr sc e expected st = run at ok outcome ⊢
  obtain ⟨⟨e', t⟩, st₁⟩ := run
  cases t with
  | error d => simp [stmtError_err] at ok
  | ok t => exact ⟨e', t, st₁, rfl, outcome⟩

theorem withCondition_ok (exprs : ExprSpec self.expr) {sc : ScopeRef} {cond : Expr}
    {stmt : Expr → Stmt} {next : Expr → CheckM (Stmt × Flow)}
    (ok : (withCondition self sc cond stmt next st).2.err = none) :
    ∃ cond' t st₁, withCondition self sc cond stmt next st = next cond' st₁ ∧
      (st₁.err = none → ExprOutcome sc st cond (cond', .ok t) st₁) := by
  obtain ⟨cond', t, st₁, run, outcome⟩ := withExpr_ok exprs ok
  rw [withCondition, run] at ok ⊢
  split at ok
  · exact ⟨cond', t, st₁, by simp [*], outcome⟩
  · simp [stmtError_err] at ok

theorem unlessError_ok {α : Type} {stopped : α} {next : CheckM α}
    (ok : (unlessError stopped next st).2.err = none) :
    st.err = none ∧ unlessError stopped next st = next st := by
  cases err : st.err with
  | some d => simp [unlessError, err] at ok
  | none => simp [unlessError, err]

theorem exprStmt_outcome (exprs : ExprSpec self.expr) (inside : i < st.scopes.length) (tok : Token)
    (e : Expr) (ctx : BlockContext)
    (ok : (checkStmt env self (i :: sc) ctx (.exprStmt tok e) st).2.err = none) :
    StmtOutcome i sc st (.exprStmt tok e) (checkStmt env self (i :: sc) ctx (.exprStmt tok e) st).1
      (checkStmt env self (i :: sc) ctx (.exprStmt tok e) st).2 := by
  rw [checkStmt] at ok ⊢
  obtain ⟨e', t, st₁, run, outcome⟩ := withExpr_ok exprs ok
  rw [run] at ok ⊢
  have h := outcome ok
  exact h.part.stmt inside rfl rfl h.revised.dead rfl rfl

theorem checkLet_outcome (exprs : ExprSpec self.expr) (inside : i < st.scopes.length)
    (info : LetInfo) (init : Expr) (ok : (checkLet env self (i :: sc) info init st).2.err = none) :
    StmtOutcome i sc st (.letStmt info init) (checkLet env self (i :: sc) info init st).1
      (checkLet env self (i :: sc) info init st).2 := by
  simp only [checkLet, CheckM.bind_run, CheckM.get_run] at ok ⊢
  cases annotated : letAnnotation env st.typeParams (st.scopes.top (i :: sc)).visibilityScope info with
  | error d => simp [annotated, stmtError_err] at ok
  | ok expected =>
    simp only [annotated] at ok ⊢
    obtain ⟨init', t, st₁, run, outcome⟩ := withExpr_ok exprs ok
    rw [run] at ok ⊢
    simp only [CheckM.bind_run, CheckM.get_run] at ok ⊢
    cases error : letError env st₁.scopes (i :: sc) info init' expected t with
    | some d => simp [error, stmtError_err] at ok
    | none =>
      simp only [error, CheckM.bind_run, declare, CheckM.modify_run, CheckM.pure_run] at ok ⊢
      have h := outcome ok
      have inside₁ := Nat.lt_of_lt_of_le inside h.step.quiet.scopes.length
      have fill := @filling_define _ _ sc inside₁ info.name
        { type := expected.getD t, token := info.nameToken, mutable := info.mutable
          isConst := info.isConst }
      exact {
        err := h.step.err
        busy := h.step.quiet.busy.trans ⟨fill, rfl, rfl, rfl⟩
        captures := h.step.captures
        decls := by
          rw [decls_define inside₁, h.step.quiet.scopes.record i inside]
          rfl
        outline := h.revised.outline
        decl := rfl
        dead := h.revised.dead
        falls := rfl
        flow := rfl
        holds := fun tag hf f c standing holds =>
          h.part.holds tag hf (f :: c) (standing.unfilled fill) holds }

theorem assignTarget_part {sc : ScopeRef} {info : ExprInfo} {name : String} {ref : Resolution}
    {b : Binding} (err : st.err = none) (found : st.scopes.lookup sc name = some b) :
    PartOutcome sc st (asTarget (Expr.var info name ref).skel)
      (asTarget (assignTarget sc info name ref b).skel) st := by
  refine ⟨.refl err, rfl, ?_⟩
  intro tag hf c standing holds
  have before := everywhere_assign.mp holds.sound
  refine ⟨⟨everywhere_assign.mpr ⟨fun _ => ?_, before.2⟩, everywhere_assign.mpr fun _ => trivial⟩,
    .refl, everywhere_assign.mpr rfl⟩
  have now := standing.place.names.lookup name
  rw [found] at now
  unfold RefRight
  split
  · rename_i unbound
    simp [unbound] at now
  · rename_i level d res
    simp only [res, Option.map_some, Option.some.injEq] at now
    exact ⟨by rw [← now]; rfl, sc, rfl, standing.blocks.lookup name⟩

theorem checkAssign_outcome (exprs : ExprSpec self.expr) (inside : i < st.scopes.length)
    (tok : Token) (target value : Expr)
    (ok : (checkAssign self (i :: sc) tok target value st).2.err = none) :
    StmtOutcome i sc st (.assign tok target value)
      (checkAssign self (i :: sc) tok target value st).1
      (checkAssign self (i :: sc) tok target value st).2 := by
  cases target with
  | var info name ref =>
    simp only [checkAssign, CheckM.bind_run, CheckM.get_run] at ok ⊢
    cases found : st.scopes.lookup (i :: sc) name with
    | none => simp [found, stmtError_err] at ok
    | some b =>
      simp only [found] at ok ⊢
      cases mutable : b.mutable with
      | false => simp [mutable, stmtError_err] at ok
      | true =>
        simp only [mutable, Bool.not_true, Bool.false_eq_true, if_false] at ok ⊢
        obtain ⟨value', t, st₁, run, outcome⟩ := withExpr_ok exprs ok
        rw [run] at ok ⊢
        cases fits : compatible b.type t with
        | false => simp [fits, stmtError_err] at ok
        | true =>
          simp only [fits, if_true, CheckM.pure_run] at ok ⊢
          have h := outcome ok
          have parts := (PartsOutcome.nil ok).cons h.part |>.cons
            (@assignTarget_part _ _ info _ ref _ h.step.err found)
          exact parts.node.stmt inside rfl rfl
            (by simp [Stmt.dead, Expr.dead, assignTarget, h.revised.dead]) rfl rfl
  | _ => simp [checkAssign, stmtError_err] at ok

/-- A nested block, as the statement around it sees it. -/
structure NestedOutcome (outer : ScopeRef) (st : CheckState) (params : List (String × Decl))
    (body : List Stmt) (r : List Stmt × Flow) (st' : CheckState) : Prop where
  part : PartOutcome outer st (.block params (stmtItems body)) (.block params (stmtItems r.1)) st'
  dead : stmtsDead r.1 = stmtsDead body
  falls : blockFalls r.1 = blockFalls body
  empty : r.1.isEmpty = body.isEmpty

theorem stmtItems_isEmpty (body : List Stmt) :
    (eraseItems (stmtItems body)).isEmpty = body.isEmpty := by
  cases body with
  | nil => rfl
  | cons s rest =>
    simp only [stmtItems]
    cases s.item
    rfl

theorem BlockOutcome.nested {outer : ScopeRef} {st₁ : CheckState} {params : List (String × Decl)}
    {body : List Stmt} {r : List Stmt × Flow} (step : Step st st₁)
    (bound : st.scopes.length < st₁.scopes.length)
    (names : (st₁.scopes.record st.scopes.length).decls = params)
    (lambda : (st₁.scopes.record st.scopes.length).lambda = (st.scopes.top outer).lambda)
    (captures : st₁.captures = st.captures)
    (h : BlockOutcome st.scopes.length outer st₁ body r st') :
    NestedOutcome outer st params body r st' where
  part := h.toItemsOutcome.part step (Nat.le_refl _) bound names lambda captures
  dead := h.dead
  falls := h.falls
  empty := by rw [← stmtItems_isEmpty, h.outline, stmtItems_isEmpty]

theorem nested_block (blocks : BlockSpec self.block) (outer : ScopeRef) (body : List Stmt)
    (ctx : BlockContext)
    (ok : (self.block (st.scopes.length :: outer) body ctx (enterBlock st outer)).2.err = none) :
    NestedOutcome outer st [] body
      (self.block (st.scopes.length :: outer) body ctx (enterBlock st outer)).1
      (self.block (st.scopes.length :: outer) body ctx (enterBlock st outer)).2 ∧
    (self.block (st.scopes.length :: outer) body ctx (enterBlock st outer)).1.2.mayFallthrough =
      blockFalls body := by
  have h := blocks st.scopes.length outer body ctx (enterBlock st outer) (enterBlock_bound outer) ok
  have record := @enterBlock_record st outer
  exact ⟨h.nested (@enterBlock_step st h.err outer) (enterBlock_bound outer)
    (by rw [record]; rfl) (by rw [record]) rfl, h.flow⟩

theorem checkElse_outcome (blocks : BlockSpec self.block) (outer : ScopeRef) (body : List Stmt)
    (ctx : BlockContext) (ok : (checkElse self outer body ctx st).2.err = none) :
    NestedOutcome outer st [] body (checkElse self outer body ctx st).1
      (checkElse self outer body ctx st).2 ∧
    (checkElse self outer body ctx st).1.2.mayFallthrough = (body.isEmpty || blockFalls body) := by
  cases empty : body.isEmpty with
  | true =>
    obtain rfl := List.isEmpty_iff.mp empty
    refine ⟨⟨⟨.refl ok, rfl, ?_⟩, rfl, rfl, rfl⟩, rfl⟩
    intro tag hf c _ holds
    exact ⟨holds, .refl, everywhere_block.mpr ⟨trivial, everywhereItems_nil⟩⟩
  | false =>
    simp only [checkElse, empty, Bool.false_eq_true, if_false, CheckM.bind_run, openBlock_run,
      Bool.false_or] at ok ⊢
    exact nested_block blocks outer body ctx ok

theorem checkIf_outcome (exprs : ExprSpec self.expr) (blocks : BlockSpec self.block)
    (inside : i < st.scopes.length) (tok : Token) (cond : Expr) (thenBody elseBody : List Stmt)
    (ctx : BlockContext)
    (ok : (checkIf self (i :: sc) tok cond thenBody elseBody ctx st).2.err = none) :
    StmtOutcome i sc st (.ifStmt tok cond thenBody elseBody)
      (checkIf self (i :: sc) tok cond thenBody elseBody ctx st).1
      (checkIf self (i :: sc) tok cond thenBody elseBody ctx st).2 := by
  unfold checkIf at ok ⊢
  obtain ⟨cond', t, st₁, run, outcome⟩ := withCondition_ok exprs ok
  rw [run] at ok ⊢
  simp only [CheckM.bind_run, openBlock_run] at ok ⊢
  obtain ⟨err₂, run⟩ := unlessError_ok ok
  rw [run] at ok ⊢
  simp only [CheckM.bind_run] at ok ⊢
  obtain ⟨err₃, run⟩ := unlessError_ok ok
  rw [run] at ok ⊢
  obtain ⟨thenOut, thenFlow⟩ := nested_block blocks (i :: sc) thenBody ctx err₂
  obtain ⟨elseOut, elseFlow⟩ := checkElse_outcome blocks (i :: sc) elseBody ctx err₃
  have h := outcome thenOut.part.step.err
  have parts := (((PartsOutcome.nil err₃).cons elseOut.part).cons thenOut.part).cons h.part
  refine parts.node.stmt inside rfl rfl ?_ ?_ ?_
  · simp [Stmt.dead, h.revised.dead, thenOut.dead, elseOut.dead]
  · simp [Stmt.falls, thenOut.falls, elseOut.falls, elseOut.empty]
  · simp [Stmt.falls, thenFlow, elseFlow, Bool.or_assoc]

theorem checkBody_outcome (blocks : BlockSpec self.block) {outer : ScopeRef} {st₁ : CheckState}
    {params : List (String × Decl)} {body : List Stmt} {ctx : BlockContext} {stmt : List Stmt → Stmt}
    (opened : st.err = none → Step st st₁) (bound : st.scopes.length < st₁.scopes.length)
    (names : (st₁.scopes.record st.scopes.length).decls = params)
    (lambda : (st₁.scopes.record st.scopes.length).lambda = (st.scopes.top outer).lambda)
    (captures : st₁.captures = st.captures) (err : st₁.err = st.err)
    (ok : (checkBody self (st.scopes.length :: outer) body ctx stmt st₁).2.err = none) :
    ∃ r st', checkBody self (st.scopes.length :: outer) body ctx stmt st₁ =
        ((stmt r.1, normalFlow), st') ∧ st'.err = none ∧ NestedOutcome outer st params body r st' := by
  obtain ⟨err', run⟩ := unlessError_ok ok
  have h := blocks st.scopes.length outer body ctx st₁ bound err'
  exact ⟨_, _, run, err', h.nested (opened (err.symm.trans h.err)) bound names lambda captures⟩

theorem whileStmt_outcome (exprs : ExprSpec self.expr) (blocks : BlockSpec self.block)
    (inside : i < st.scopes.length) (tok : Token) (cond : Expr) (body : List Stmt)
    (ctx : BlockContext)
    (ok : (checkStmt env self (i :: sc) ctx (.whileStmt tok cond body) st).2.err = none) :
    StmtOutcome i sc st (.whileStmt tok cond body)
      (checkStmt env self (i :: sc) ctx (.whileStmt tok cond body) st).1
      (checkStmt env self (i :: sc) ctx (.whileStmt tok cond body) st).2 := by
  rw [checkStmt] at ok ⊢
  obtain ⟨cond', t, st₁, run, outcome⟩ := withCondition_ok exprs ok
  rw [run] at ok ⊢
  simp only [CheckM.bind_run, openBlock_run] at ok ⊢
  have record := @enterBlock_record st₁ (i :: sc)
  obtain ⟨r, st', run, err', nested⟩ := @checkBody_outcome _ _ blocks _ _ [] _ _ _
    (fun err => enterBlock_step err (i :: sc)) (enterBlock_bound (i :: sc))
    (by rw [record]; rfl) (by rw [record]) rfl rfl ok
  rw [run]
  have h := outcome nested.part.step.err
  have parts := ((PartsOutcome.nil err').cons nested.part).cons h.part
  exact parts.node.stmt inside rfl rfl (by simp [Stmt.dead, h.revised.dead, nested.dead]) rfl rfl

theorem checkFor_outcome (exprs : ExprSpec self.expr) (blocks : BlockSpec self.block)
    (inside : i < st.scopes.length) (info : ForInfo) (iter : Expr) (body : List Stmt)
    (ctx : BlockContext) (ok : (checkFor self (i :: sc) info iter body ctx st).2.err = none) :
    StmtOutcome i sc st (.forStmt info iter body)
      (checkFor self (i :: sc) info iter body ctx st).1
      (checkFor self (i :: sc) info iter body ctx st).2 := by
  unfold checkFor at ok ⊢
  obtain ⟨iter', t, st₁, run, outcome⟩ := withExpr_ok exprs ok
  rw [run] at ok ⊢
  cases element : forElement t with
  | none => simp [element, stmtError_err] at ok
  | some elem =>
    simp only [element, CheckM.bind_run, openBlock_run, declare, CheckM.modify_run] at ok ⊢
    have record := @enterBlock_record st₁ (i :: sc)
    have bound := @enterBlock_bound st₁ (i :: sc)
    have fill := @filling_define _ _ (i :: sc) bound info.name
      { type := elem, token := info.nameToken }
    obtain ⟨r, st', run, err', nested⟩ := @checkBody_outcome _ st₁ blocks (i :: sc)
      { enterBlock st₁ (i :: sc) with
        scopes := (enterBlock st₁ (i :: sc)).scopes.define (st₁.scopes.length :: i :: sc) info.name
          { type := elem, token := info.nameToken } }
      [(info.name, { token := info.nameToken })] _ _ _
      (fun err => ⟨err, ⟨fill.kept (enterBlock_kept _) (Nat.le_refl _), rfl, rfl, rfl⟩, fun _ h => h⟩)
      (by simpa using bound) (by rw [decls_define bound, record]; rfl)
      (by rw [fill.lambda _ bound, record]) rfl rfl ok
    rw [run]
    have h := outcome nested.part.step.err
    have parts := ((PartsOutcome.nil err').cons nested.part).cons h.part
    exact parts.node.stmt inside rfl rfl (by simp [Stmt.dead, h.revised.dead, nested.dead]) rfl rfl

theorem deferStmt_outcome (blocks : BlockSpec self.block) (inside : i < st.scopes.length)
    (tok : Token) (body : List Stmt) (ctx : BlockContext)
    (ok : (checkStmt env self (i :: sc) ctx (.deferStmt tok body) st).2.err = none) :
    StmtOutcome i sc st (.deferStmt tok body)
      (checkStmt env self (i :: sc) ctx (.deferStmt tok body) st).1
      (checkStmt env self (i :: sc) ctx (.deferStmt tok body) st).2 := by
  simp only [checkStmt, CheckM.bind_run, openBlock_run] at ok ⊢
  have record := @enterBlock_record st (i :: sc)
  obtain ⟨r, st', run, err', nested⟩ := @checkBody_outcome _ _ blocks _ _ [] _ _ _
    (fun err => enterBlock_step err (i :: sc)) (enterBlock_bound (i :: sc))
    (by rw [record]; rfl) (by rw [record]) rfl rfl ok
  rw [run]
  exact nested.part.stmt inside rfl rfl (by simp [Stmt.dead, nested.dead]) rfl rfl

/-- The state in which a block of unsafe code is checked. -/
def enterUnsafe (st : CheckState) (outer : ScopeRef) : CheckState :=
  { st with scopes := (enterBlock st outer).scopes.update (st.scopes.length :: outer) fun r =>
      { r with isUnsafe := true } }

theorem openUnsafe_run (outer : ScopeRef) :
    openUnsafe outer st = (st.scopes.length :: outer, enterUnsafe st outer) := rfl

theorem enterUnsafe_record (outer : ScopeRef) (j : Nat) :
    (enterUnsafe st outer).scopes.record j = if st.scopes.length = j then
      { (st.scopes.top outer) with values := [], isUnsafe := true }
      else (enterBlock st outer).scopes.record j := by
  simp only [enterUnsafe, Scopes.update]
  rw [record_modify (enterBlock_bound outer), enterBlock_record]

theorem enterUnsafe_step (err : st.err = none) (outer : ScopeRef) : Step st (enterUnsafe st outer) := by
  refine ⟨err, ⟨⟨?_, fun j hj => ?_⟩, rfl, rfl, rfl⟩, fun _ h => h⟩
  · simp [enterUnsafe, enterBlock, Scopes.newScope]
  · rw [enterUnsafe_record, if_neg (by omega)]
    exact (enterBlock_kept outer).record j hj

theorem unsafeStmt_outcome (blocks : BlockSpec self.block) (inside : i < st.scopes.length)
    (tok : Token) (body : List Stmt) (ctx : BlockContext)
    (ok : (checkStmt env self (i :: sc) ctx (.unsafeStmt tok body) st).2.err = none) :
    StmtOutcome i sc st (.unsafeStmt tok body)
      (checkStmt env self (i :: sc) ctx (.unsafeStmt tok body) st).1
      (checkStmt env self (i :: sc) ctx (.unsafeStmt tok body) st).2 := by
  simp only [checkStmt, CheckM.bind_run, openUnsafe_run] at ok ⊢
  have record := @enterUnsafe_record st (i :: sc) st.scopes.length
  simp only [if_true] at record
  obtain ⟨r, st', run, err', nested⟩ := @checkBody_outcome _ st blocks (i :: sc)
    (enterUnsafe st (i :: sc)) [] _ _ _
    (fun err => enterUnsafe_step err (i :: sc))
    (by simp [enterUnsafe, enterBlock, Scopes.newScope]) (by rw [record]; rfl) (by rw [record])
    rfl rfl ok
  rw [run]
  exact nested.part.stmt inside rfl rfl (by simp [Stmt.dead, nested.dead]) rfl rfl

theorem markTail_eq (current : Option FunctionRef) (e : Expr) :
    (markTail current e).skel = e.skel ∧ (markTail current e).dead = e.dead := by
  unfold markTail
  split
  · split <;> exact ⟨rfl, rfl⟩
  · split <;> exact ⟨rfl, rfl⟩
  · exact ⟨rfl, rfl⟩

theorem checkReturn_outcome (exprs : ExprSpec self.expr) (inside : i < st.scopes.length)
    (tok : Token) (value : Option Expr) (ctx : BlockContext)
    (ok : (checkReturn self (i :: sc) tok value ctx st).2.err = none) :
    StmtOutcome i sc st (.returnStmt tok value)
      (checkReturn self (i :: sc) tok value ctx st).1
      (checkReturn self (i :: sc) tok value ctx st).2 := by
  cases inFn : ctx.inFn with
  | false => simp [checkReturn, inFn, stmtError_err] at ok
  | true =>
    simp only [checkReturn, inFn, Bool.not_true, Bool.false_eq_true, if_false] at ok ⊢
    cases value with
    | none =>
      cases fits : returnable ctx.rt .nil none with
      | false => simp [finishReturn, fits, stmtError_err] at ok
      | true =>
        simp only [finishReturn, fits, if_true, CheckM.bind_run, CheckM.get_run, CheckM.pure_run]
          at ok ⊢
        exact (PartsOutcome.nil ok).node.stmt inside rfl rfl rfl rfl rfl
    | some e =>
      dsimp only at ok ⊢
      obtain ⟨e', t, st₁, run, outcome⟩ := withExpr_ok exprs ok
      rw [run] at ok ⊢
      cases fits : returnable ctx.rt t (some e') with
      | false => simp [finishReturn, fits, stmtError_err] at ok
      | true =>
        simp only [finishReturn, fits, if_true, CheckM.bind_run, CheckM.get_run, CheckM.pure_run,
          Option.map_some] at ok ⊢
        have h := outcome ok
        obtain ⟨skel, dead⟩ := markTail_eq st₁.currentFunction e'
        have part : PartOutcome (i :: sc) st e.skel (markTail st₁.currentFunction e').skel st₁ :=
          skel ▸ h.part
        exact part.stmt inside rfl rfl (dead.trans h.revised.dead) rfl rfl

theorem jump_outcome (inside : i < st.scopes.length) {s : Stmt} {ctx : BlockContext}
    (jump : (∃ tok, s = .breakStmt tok) ∨ ∃ tok, s = .continueStmt tok)
    (ok : (checkStmt env self (i :: sc) ctx s st).2.err = none) :
    StmtOutcome i sc st s (checkStmt env self (i :: sc) ctx s st).1
      (checkStmt env self (i :: sc) ctx s st).2 := by
  rcases jump with ⟨tok, rfl⟩ | ⟨tok, rfl⟩
  all_goals
    cases outside : ctx.loop == 0 with
    | true => simp [checkStmt, outside, stmtError_err] at ok
    | false =>
      simp only [checkStmt, outside, Bool.false_eq_true, if_false, CheckM.pure_run] at ok ⊢
      exact (PartsOutcome.nil ok).node.stmt inside rfl rfl rfl rfl rfl

/-- What the check of some arms of a match does. -/
structure ArmsOutcome (sc : ScopeRef) (st : CheckState) (arms : List MatchArm) (fall : Bool)
    (r : List MatchArm × Flow) (st' : CheckState) : Prop where
  parts : PartsOutcome sc st (armSkels arms) (armSkels r.1) st'
  dead : armsDead r.1 = armsDead arms
  falls : anyArmFalls r.1 = anyArmFalls arms
  flow : r.2.mayFallthrough = (fall || anyArmFalls arms)

/-- The scope of an arm, with the name its pattern binds. -/
structure PatternOutcome (outer : ScopeRef) (st : CheckState) (p : Pattern) (r : Pattern)
    (st' : CheckState) : Prop where
  pattern : r.decls = p.decls
  err : st'.err = st.err
  captures : st'.captures = st.captures
  quiet : Quiet st st'
  bound : st.scopes.length < st'.scopes.length
  names : (st'.scopes.record st.scopes.length).decls = p.decls
  lambda : (st'.scopes.record st.scopes.length).lambda = (st.scopes.top outer).lambda

theorem bindPattern_outcome (outer : ScopeRef) (t : Ty) (p : Pattern) :
    PatternOutcome outer st p
      (bindPattern (st.scopes.length :: outer) t p (enterBlock st outer)).1
      (bindPattern (st.scopes.length :: outer) t p (enterBlock st outer)).2 := by
  have record := @enterBlock_record st outer
  have bound := @enterBlock_bound st outer
  cases binds : p.binding != "" with
  | false =>
    simp only [bindPattern, binds, Bool.false_eq_true, if_false, CheckM.pure_run]
    refine ⟨rfl, rfl, rfl, ⟨enterBlock_kept outer, rfl, rfl, rfl⟩, bound, ?_, by rw [record]⟩
    rw [record]
    simp [ScopeRecord.decls, Pattern.decls, binds]
  | true =>
    simp only [bindPattern, binds, if_true, CheckM.bind_run, declare, CheckM.modify_run,
      CheckM.pure_run]
    have fill := @filling_define _ _ outer bound p.binding
      { type := (patternBinding t p).getD .error, token := p.bindingTok }
    refine ⟨rfl, rfl, rfl, ⟨fill.kept (enterBlock_kept _) (Nat.le_refl _), rfl, rfl, rfl⟩,
      by simpa using bound, ?_, ?_⟩
    · rw [decls_define bound, record]
      simp [ScopeRecord.decls, Pattern.decls, binds, Binding.decl]
    · rw [fill.lambda _ bound, record]

theorem checkArms_outcome (blocks : BlockSpec self.block) {outer : ScopeRef} (t : Ty)
    (ctx : BlockContext) (arms : List MatchArm) (all fall : Bool)
    (ok : (checkArms self outer t ctx arms all fall st).2.err = none) :
    ArmsOutcome outer st arms fall (checkArms self outer t ctx arms all fall st).1
      (checkArms self outer t ctx arms all fall st).2 := by
  induction arms generalizing all fall st with
  | nil => exact ⟨.nil ok, rfl, rfl, by simp [checkArms, anyArmFalls]⟩
  | cons arm rest ih =>
    obtain ⟨p, body⟩ := arm
    simp only [checkArms, CheckM.bind_run, openBlock_run] at ok ⊢
    cases invalid : p.binding != "" && (patternBinding t p).isNone with
    | true => simp [invalid, setErr] at ok
    | false =>
      have bind := @bindPattern_outcome st outer t p
      simp only [invalid, Bool.false_eq_true, if_false, CheckM.bind_run] at ok ⊢
      generalize bindPattern (st.scopes.length :: outer) t p (enterBlock st outer) = pattern
        at ok bind ⊢
      obtain ⟨p', st₁⟩ := pattern
      have block := blocks st.scopes.length outer body ctx st₁ bind.bound
      generalize self.block (st.scopes.length :: outer) body ctx st₁ = run at ok block ⊢
      obtain ⟨⟨body', flow⟩, st₂⟩ := run
      obtain ⟨err, run⟩ := unlessError_ok ok
      rw [run] at ok ⊢
      simp only [CheckM.bind_run, CheckM.pure_run] at ok ⊢
      have h := block err
      have step : Step st st₁ :=
        ⟨bind.err.symm.trans h.err, bind.quiet, by rw [bind.captures]; exact fun _ h => h⟩
      have nested := h.nested step bind.bound bind.names bind.lambda bind.captures
      have rest := ih _ _ ok
      refine ⟨?_, ?_, ?_, ?_⟩
      · simp only [armSkels, bind.pattern]
        exact rest.parts.cons nested.part
      · simp [armsDead, nested.dead, rest.dead]
      · simp [anyArmFalls, nested.falls, rest.falls]
      · have falls : flow.mayFallthrough = blockFalls body := h.flow
        rw [rest.flow, falls]
        simp [anyArmFalls, Bool.or_assoc]

theorem checkMatch_outcome (exprs : ExprSpec self.expr) (blocks : BlockSpec self.block)
    (inside : i < st.scopes.length) (tok : Token) (scrutinee : Expr) (arms : List MatchArm)
    (ctx : BlockContext)
    (ok : (checkMatch env self (i :: sc) tok scrutinee arms ctx st).2.err = none) :
    StmtOutcome i sc st (.matchStmt tok scrutinee arms)
      (checkMatch env self (i :: sc) tok scrutinee arms ctx st).1
      (checkMatch env self (i :: sc) tok scrutinee arms ctx st).2 := by
  unfold checkMatch at ok ⊢
  obtain ⟨scrutinee', t, st₁, run, outcome⟩ := withExpr_ok exprs ok
  rw [run] at ok ⊢
  cases error : matchError env.toTypeEnv tok t arms with
  | some d => simp [error, stmtError_err] at ok
  | none =>
    simp only [error, CheckM.bind_run, CheckM.pure_run] at ok ⊢
    have inner := checkArms_outcome blocks t ctx arms true false ok
    have h := outcome inner.parts.step.err
    refine (inner.parts.cons h.part).node.stmt inside rfl rfl ?_ ?_ ?_
    · simp [Stmt.dead, h.revised.dead, inner.dead]
    · simp [Stmt.falls, inner.falls]
    · simp [Stmt.falls, inner.flow]

theorem checkStmt_outcome (exprs : ExprSpec self.expr) (blocks : BlockSpec self.block)
    (inside : i < st.scopes.length) (ctx : BlockContext) (s : Stmt)
    (ok : (checkStmt env self (i :: sc) ctx s st).2.err = none) :
    StmtOutcome i sc st s (checkStmt env self (i :: sc) ctx s st).1
      (checkStmt env self (i :: sc) ctx s st).2 := by
  cases s with
  | letStmt info init => exact checkLet_outcome exprs inside info init ok
  | exprStmt tok e => exact exprStmt_outcome exprs inside tok e ctx ok
  | assign tok target value => exact checkAssign_outcome exprs inside tok target value ok
  | ifStmt tok cond thenBody elseBody =>
    exact checkIf_outcome exprs blocks inside tok cond thenBody elseBody ctx ok
  | whileStmt tok cond body => exact whileStmt_outcome exprs blocks inside tok cond body ctx ok
  | returnStmt tok value => exact checkReturn_outcome exprs inside tok value ctx ok
  | breakStmt tok => exact jump_outcome inside (Or.inl ⟨tok, rfl⟩) ok
  | continueStmt tok => exact jump_outcome inside (Or.inr ⟨tok, rfl⟩) ok
  | matchStmt tok scrutinee arms =>
    exact checkMatch_outcome exprs blocks inside tok scrutinee arms ctx ok
  | forStmt info iter body => exact checkFor_outcome exprs blocks inside info iter body ctx ok
  | deferStmt tok body => exact deferStmt_outcome blocks inside tok body ctx ok
  | unsafeStmt tok body => exact unsafeStmt_outcome blocks inside tok body ctx ok

end Statements

/-! ## Blocks -/

section Blocks

variable {env : CheckEnv} {self : Checking} {i : Nat} {sc : ScopeRef} {st : CheckState}

theorem checkStmts_stop {sc : ScopeRef} (ctx : BlockContext) (body : List Stmt) {flow : Flow}
    (stopped : flow.mayFallthrough = false) :
    checkStmts env self sc ctx body flow st = ((body, flow), st) := by
  cases body <;> simp [checkStmts, stopped]

theorem StmtOutcome.last {s : Stmt} {r : Stmt × Flow} {st' : CheckState} (rest : List Stmt)
    (h : StmtOutcome i sc st s r st') (err : st'.err = none) (stops : s.falls = false) (flow : Flow)
    (reached : flow.mayFallthrough = false) :
    BlockOutcome i sc st (s :: rest) (r.1 :: rest, flow) st' where
  toItemsOutcome := by
    have items := ItemsOutcome.cons h.toItemOutcome (.nil err)
    simpa [stmtItems, stops, h.falls] using items
  dead := by simp [stmtsDead, stops, h.falls, h.dead]
  falls := by simp [blockFalls, h.falls]
  flow := by simp [blockFalls, stops, reached]

theorem StmtOutcome.cons {s : Stmt} {r : Stmt × Flow} {st₁ st' : CheckState} {rest : List Stmt}
    {rs : List Stmt × Flow} (h : StmtOutcome i sc st s r st₁) (falls : s.falls = true)
    (t : BlockOutcome i sc st₁ rest rs st') :
    BlockOutcome i sc st (s :: rest) (r.1 :: rs.1, rs.2) st' where
  toItemsOutcome := by
    have items := ItemsOutcome.cons h.toItemOutcome t.toItemsOutcome
    simpa [stmtItems, falls, h.falls] using items
  dead := by simp [stmtsDead, falls, h.falls, h.dead, t.dead]
  falls := by simp [blockFalls, h.falls, t.falls]
  flow := by simp [blockFalls, falls, t.flow]

theorem checkStmts_outcome (exprs : ExprSpec self.expr) (blocks : BlockSpec self.block)
    (ctx : BlockContext) (body : List Stmt) (flow : Flow) (reached : flow.mayFallthrough = true)
    (inside : i < st.scopes.length)
    (ok : (checkStmts env self (i :: sc) ctx body flow st).2.err = none) :
    BlockOutcome i sc st body (checkStmts env self (i :: sc) ctx body flow st).1
      (checkStmts env self (i :: sc) ctx body flow st).2 := by
  induction body generalizing st flow with
  | nil =>
    refine ⟨.nil ok, rfl, rfl, ?_⟩
    simpa [checkStmts, blockFalls] using reached
  | cons s rest ih =>
    simp only [checkStmts, reached, Bool.not_true, Bool.false_eq_true, if_false, CheckM.bind_run]
      at ok ⊢
    have outcome := @checkStmt_outcome env _ _ sc _ exprs blocks inside ctx s
    generalize checkStmt env self (i :: sc) ctx s st = run at ok outcome ⊢
    obtain ⟨⟨s', f⟩, st₁⟩ := run
    obtain ⟨err, run⟩ := unlessError_ok ok
    rw [run] at ok ⊢
    simp only [CheckM.bind_run, CheckM.pure_run] at ok ⊢
    have h := outcome err
    have falls : f.mayFallthrough = s.falls := h.flow
    cases passed : s.falls with
    | true => exact h.cons passed (ih _ (falls.trans passed)
        (Nat.lt_of_lt_of_le inside h.busy.scopes.length) ok)
    | false =>
      have stopped := falls.trans passed
      have stop := @checkStmts_stop env self st₁ (i :: sc) ctx rest
        { mustReturn := f.mustReturn, mayFallthrough := f.mayFallthrough
          mayBreak := flow.mayBreak || f.mayBreak
          mayContinue := flow.mayContinue || f.mayContinue, reachable := f.reachable
          hasError := flow.hasError } stopped
      rw [stop]
      exact h.last rest err passed _ stopped

theorem checkBlock_spec (exprs : ExprSpec self.expr) (blocks : BlockSpec self.block) :
    BlockSpec (checkBlock env self) :=
  fun _ _ body ctx _ inside ok => checkStmts_outcome exprs blocks ctx body normalFlow rfl inside ok

theorem checking_spec [FloatArith] (builtins : BuiltinsCheckArguments env) (n : Nat) :
    ExprSpec (checking env n).expr ∧ BlockSpec (checking env n).block := by
  induction n with
  | zero =>
    -- a pass that is out of levels has reported an error
    have stuck : some tooDeep ≠ none := nofun
    exact ⟨fun _ _ _ _ ok => absurd ok stuck, fun _ _ _ _ _ _ ok => absurd ok stuck⟩
  | succ n ih =>
    exact ⟨checkExpr_spec builtins ih.1 ih.2, checkBlock_spec ih.1 ih.2⟩

end Blocks

end Kryndel
