import Kryndel.Kir.Lowering

/-!
# The rows of expressions and statements

The rows that the builder appends for an expression or a statement read back as its tree form.
The induction follows the syntax, through the closures in expressions and back.
-/

namespace Kryndel

open Tables
open Filter (atTop)
open Mir (NodeKind readExpression readStatement readFunction readPattern readCapture readParameter
  readArm ListReads)

variable {builder : ArenaBuilder}

/-! ## Functions -/

/-- The lists of the row of a function read back. -/
structure FunctionRead (c : SourceTables) (edges : MIRNodeRefList × MIRNodeRefList × MIRNodeRefList)
    (body : List (Mir.KIRStmt sourceScalars)) (params : List (Mir.KIRParam sourceScalars))
    (captures : List (Option (Mir.KIRCapture sourceScalars))) : Prop where
  body : ListReads c .statement (readStatement c) edges.1.range body
  params : ListReads c .parameter (fun fuel => readParameter c (readExpression c fuel))
    edges.2.1.range params
  captures : ListReads c .capture (fun _ => readCapture c) edges.2.2.range captures

/-- Some references that are read as parameters. -/
def ParamsRead (c : SourceTables) (indexes : List Nat)
    (params : List (Mir.KIRParam sourceScalars)) : Prop :=
  ∀ᶠ fuel in atTop,
    indexes.mapM (fun i => readParameter c (readExpression c fuel) (some i)) = .ok params

variable {bodyTrees : List (Mir.KIRStmt sourceScalars)}

theorem functionEdges_lowers {params body : BuildM (List Nat)} {captures : List Capture}
    {adds adds' : Bool} {paramTrees : List (Mir.KIRParam sourceScalars)}
    (hparams : Lowers params adds fun indexes c => ParamsRead c indexes paramTrees)
    (hbody : Lowers body adds' fun indexes c => StmtsRead c indexes bodyTrees) :
    Lowers (functionEdges builder params body captures) (adds || adds')
      fun edges c => FunctionRead c edges bodyTrees paramTrees (kirCaptures builder captures) := by
  apply LowersAfter.lowers
  refine hparams.bind fun paramIndexes => ?_
  refine hbody.bind fun bodyIndexes => ?_
  refine (addCaptures_lowers _).bind fun captureIndexes => ?_
  refine (addStatementRefs_lowers bodyIndexes).bind fun bodyList => ?_
  refine (addParameterRefs_lowers paramIndexes).bind fun paramList => ?_
  refine (addCaptureRefs_lowers captureIndexes).bind fun captureList => ?_
  refine LowersAfter.pure _ (by simp) ?_
  rintro c ⟨⟨⟨⟨⟨⟨-, hparams⟩, hbody⟩, hcaptures⟩, hbodyList⟩, hparamList⟩, hcaptureList⟩
  exact ⟨Mir.listReads_of_listed ⟨_, hbodyList, hbody⟩,
    Mir.listReads_of_listed ⟨_, hparamList, hparams⟩,
    Mir.listReads_of_listed ⟨_, hcaptureList, Filter.Eventually.of_forall fun _ => hcaptures⟩⟩

variable {c : SourceTables} {body : List (Mir.KIRStmt sourceScalars)}

variable {params : List (Mir.KIRParam sourceScalars)} {value : KIRFunction}
  {captures : List (Option (Mir.KIRCapture sourceScalars))}
  {edges : MIRNodeRefList × MIRNodeRefList × MIRNodeRefList}

theorem functionRow_checked (h : FunctionRead c edges body params captures) :
    Mir.checkRow c .function (functionRow value edges).row = true := by
  simp only [Mir.checkRow, Mir.rowEdges, functionRow, MIRFunction.row, List.all_cons, List.all_nil,
    list_checked readStatement_finds h.body, list_checked (fun _ => readRef_finds) h.params,
    list_checked (fun _ => readRef_finds) h.captures, Bool.and_self]

theorem reads_function {i : Nat} (hrow : c.row (.function, i) = some (functionRow value edges).row)
    (h : FunctionRead c edges body params captures) :
    ∀ᶠ fuel in atTop, readFunction c fuel (some i) = .ok (.node value body params captures) := by
  apply Mir.eventually_succ
  filter_upwards [h.body.2, h.params.2, h.captures.2] with fuel hbody hparams hcaptures
  rw [readFunction, Mir.readRef_row hrow]
  simp only [functionRow, MIRFunction.row]
  rw [hbody, hparams, hcaptures]
  rfl

/-! ## Arms -/

/-- The references of the row of an arm read back. -/
structure ArmRead (builder : ArenaBuilder) (c : SourceTables) (p : Pattern)
    (edges : Nat × MIRNodeRefList) (body : List (Mir.KIRStmt sourceScalars)) : Prop where
  pattern : readPattern c (some edges.1) = .ok (some (kirPattern builder p))
  body : ListReads c .statement (readStatement c) edges.2.range body

variable {p : Pattern} {adds : Bool}

theorem armEdges_lowers {body : BuildM (List Nat)}
    (hbody : Lowers body adds fun indexes c => StmtsRead c indexes bodyTrees) :
    Lowers (armEdges builder p body) adds
      fun edges c => ArmRead builder c p edges bodyTrees := by
  apply LowersAfter.lowers
  refine (addPattern_lowers p).bind fun pattern => ?_
  refine hbody.bind fun bodyIndexes => ?_
  refine (addStatementRefs_lowers bodyIndexes).bind fun bodyList => ?_
  refine LowersAfter.pure _ (by simp) ?_
  rintro c ⟨⟨⟨-, hpattern⟩, hbody⟩, hbodyList⟩
  exact ⟨hpattern, Mir.listReads_of_listed ⟨_, hbodyList, hbody⟩⟩

theorem armRow_checked {edges : Nat × MIRNodeRefList} (h : ArmRead builder c p edges body) :
    Mir.checkRow c .arm (armRow builder p edges).row = true := by
  simp only [Mir.checkRow, Mir.rowEdges, armRow, MIRArm.row, List.all_cons, List.all_nil,
    readRef_finds.optional h.pattern, list_checked readStatement_finds h.body, Bool.and_self]

theorem reads_arm {i : Nat} {edges : Nat × MIRNodeRefList}
    (hrow : c.row (.arm, i) = some (armRow builder p edges).row)
    (h : ArmRead builder c p edges body) :
    ∀ᶠ fuel in atTop, readArm c (readStatement c fuel) (some i) =
      .ok (.node (armScalars builder p) (some (kirPattern builder p)) body) := by
  filter_upwards [h.body.2] with fuel hbody
  rw [readArm, Mir.readRef_row hrow]
  simp only [armRow, MIRArm.row]
  rw [h.pattern, hbody]
  rfl

/-! ## Rows from their children -/

/-- The children of an expression are read. -/
def ChildrenRead (builder : ArenaBuilder) (c : SourceTables) (row : MIRExpression) (e : Expr) :
    Prop :=
  EdgesRead c row (kirChildren builder e) ∧ ListsRead c row (kirChildren builder e)

theorem exprRow_lowers {e : Expr}
    (h : Lowers (exprEdges builder e) adds fun row c => ChildrenRead builder c row e) :
    Lowers (exprRow (kirExprScalars builder e) (exprEdges builder e)) adds fun i c =>
      ∀ᶠ fuel in atTop, readExpression c fuel (some i) = .ok (kirExpr builder e) := by
  refine (Lowers.row (by decide) (exprRow_wraps _ _) h ?_).mono ?_
  · intro row c hread
    exact exprRow_checked _ hread
  · rintro i c ⟨row, hrow, hread⟩
    exact reads_exprNode hrow hread.1 hread.2

theorem stmtRow_lowers {s : Stmt}
    (h : Lowers (stmtEdges builder s) adds
      fun row c => StmtRead c row (kirStmtChildren builder s)) :
    Lowers (stmtRow (kirStmtScalars builder s) (stmtEdges builder s)) adds fun i c =>
      ∀ᶠ fuel in atTop, readStatement c fuel (some i) = .ok (kirStmt builder s) := by
  refine (Lowers.row (by decide) (stmtRow_wraps _ _) h ?_).mono ?_
  · intro row c hread
    exact stmtRow_checked _ hread
  · rintro i c ⟨row, hrow, hread⟩
    exact reads_stmtNode hrow hread

theorem addArm_lowers {body : BuildM (List Nat)}
    (hbody : Lowers body adds fun indexes c => StmtsRead c indexes bodyTrees) :
    Lowers (addArm builder p body) adds fun i c =>
      ∀ᶠ fuel in atTop, readArm c (readStatement c fuel) (some i) =
        .ok (.node (armScalars builder p) (some (kirPattern builder p)) bodyTrees) := by
  refine (Lowers.row (by decide) (addArm_wraps p body) (armEdges_lowers hbody) ?_).mono ?_
  · intro edges c hread
    exact armRow_checked hread
  · rintro i c ⟨edges, hrow, hread⟩
    exact reads_arm hrow hread

theorem rows_cons {α : Type} {first : BuildM Nat} {rest : BuildM (List Nat)} {adds adds' : Bool}
    {read : SourceTables → Nat → MIRRef → Except Mir.ArenaError α} {v : α} {vs : List α}
    (hfirst : Lowers first adds fun i c => ∀ᶠ fuel in atTop, read c fuel (some i) = .ok v)
    (hrest : Lowers rest adds' fun indexes c => ∀ᶠ fuel in atTop,
      indexes.mapM (fun i => read c fuel (some i)) = .ok vs) :
    Lowers (do let i ← first; let indexes ← rest; return i :: indexes) (adds || adds')
      fun indexes c => ∀ᶠ fuel in atTop,
        indexes.mapM (fun i => read c fuel (some i)) = .ok (v :: vs) := by
  apply LowersAfter.lowers
  refine hfirst.bind fun i => hrest.bind fun indexes => LowersAfter.pure _ (by simp) ?_
  rintro c ⟨⟨-, hread⟩, hrest⟩
  filter_upwards [hread, hrest] with fuel hread hrest
  exact Mir.mapM_cons_ok hread hrest

/-! ## The walk -/

theorem noEdgesRead (c : SourceTables) : EdgesRead c {} {} :=
  edgesRead_none c rfl

theorem noStmtEdgesRead (c : SourceTables) : StmtEdgesRead c {} {} :=
  ⟨rfl, reads_nil c, reads_nil c, reads_nil c, reads_nil c, reads_nil c, reads_nil c, reads_nil c,
    reads_nil c⟩

mutual

theorem exprEdges_lowers (e : Expr) :
    Lowers (exprEdges builder e) (e.addsParameters builder)
      fun row c => ChildrenRead builder c row e := by
  apply LowersAfter.lowers
  cases e with
  | int | float | bool | nil | string | enum =>
    exact exprLists_none {} {} rfl fun c _ => edgesRead_none c rfl
  | var tok name ref =>
    refine (exprLists_none {} {} rfl fun c _ => edgesRead_none c rfl).bind fun row => ?_
    cases hbinding : lookedUp builder (.var tok name ref) with
    | none =>
      refine LowersAfter.pure _ rfl ?_
      rintro c ⟨-, hread⟩
      rw [ChildrenRead, kirChildren, hbinding]
      exact hread
    | some b =>
      refine (addBinding_lowers b).bind fun binding => LowersAfter.pure _ rfl ?_
      rintro c ⟨⟨-, hedges, hlists⟩, hread⟩
      rw [ChildrenRead, kirChildren, hbinding]
      exact ⟨{ hedges with binding := hread }, { hlists with }⟩
  | unary tok op operand | propagate tok operand =>
    refine (exprRow_lowers (exprEdges_lowers operand)).bind fun i => exprLists_none _ _ rfl ?_
    rintro c ⟨-, hoperand⟩
    exact { noEdgesRead c with operand := hoperand }
  | binary tok op left right =>
    refine (exprRow_lowers (exprEdges_lowers left)).bind fun i => ?_
    refine (exprRow_lowers (exprEdges_lowers right)).bind fun j => exprLists_none _ _ rfl ?_
    rintro c ⟨⟨-, hleft⟩, hright⟩
    exact { noEdgesRead c with left := hleft, right := hright }
  | index tok base left =>
    refine (exprRow_lowers (exprEdges_lowers left)).bind fun i => ?_
    refine (exprRow_lowers (exprEdges_lowers base)).bind fun j => exprLists_none _ _ rfl ?_
    rintro c ⟨⟨-, hleft⟩, hbase⟩
    exact { noEdgesRead c with left := hleft, base := hbase }
  | field tok base name type =>
    refine (exprRow_lowers (exprEdges_lowers base)).bind fun i => exprLists_none _ _ rfl ?_
    rintro c ⟨-, hbase⟩
    exact { noEdgesRead c with base := hbase }
  | call tok callee args ref =>
    -- Whatever row the callee has, the arguments come next.
    have hargs : ∀ (before : Bool) (i : MIRRef), LowersAfter before
        (fun c => True ∧ ∀ᶠ fuel in atTop, readExpression c fuel i =
          .ok (kirChildren builder (.call tok callee args ref)).callee)
        (do let args ← exprsRows builder args; exprLists { callee := i } args [] [] [])
        (before || exprsAddParameters builder args)
        fun row c => ChildrenRead builder c row (.call tok callee args ref) := by
      intro before i
      refine (exprsRows_lowers args).bind fun indexes => ?_
      refine exprLists_last _ _ ?_ (fun c h => h.2) (fun c _ => exprsRead_nil c)
        (fun c _ => exprsRead_nil c) fun c _ => exprsRead_nil c
      rintro c ⟨⟨-, hcallee⟩, -⟩
      exact { noEdgesRead c with callee := hcallee }
    rw [exprEdges, Expr.addsParameters]
    by_cases homits : omitsCallee builder.isBuiltin callee ref = true
    · rw [if_pos homits, homits]
      refine Lowers.bind (Lowers.pure none fun c => ?_) (hargs _)
      rw [kirChildren, if_pos homits]
      exact reads_nil c
    · rw [if_neg homits, Bool.eq_false_of_not_eq_true homits]
      refine Lowers.bind (Lowers.map (exprRow_lowers (exprEdges_lowers callee)) ?_) (hargs _)
      intro i c hread
      rw [kirChildren, if_neg homits]
      exact hread
  | method tok receiver name args ref =>
    refine (exprRow_lowers (exprEdges_lowers receiver)).bind fun i => ?_
    refine (exprsRows_lowers args).bind fun indexes => ?_
    refine exprLists_last _ _ ?_ (fun c h => h.2) (fun c _ => exprsRead_nil c)
      (fun c _ => exprsRead_nil c) fun c _ => exprsRead_nil c
    rintro c ⟨⟨-, hreceiver⟩, -⟩
    exact { noEdgesRead c with receiver := hreceiver }
  | array tok items | set tok items =>
    refine (exprsRows_lowers items).bind fun indexes => ?_
    exact exprLists_last _ _ (fun c _ => edgesRead_none c rfl) (fun c _ => exprsRead_nil c)
      (fun c h => h.2) (fun c _ => exprsRead_nil c) fun c _ => exprsRead_nil c
  | struct tok name fields values type =>
    refine (exprsRows_lowers values).bind fun indexes => ?_
    exact exprLists_last _ _ (fun c _ => edgesRead_none c rfl) (fun c _ => exprsRead_nil c)
      (fun c _ => exprsRead_nil c) (fun c _ => exprsRead_nil c) fun c h => h.2
  | map tok keys values =>
    refine (exprsRows_lowers keys).bind fun keyIndexes => ?_
    refine (exprsRows_lowers values).bind fun valueIndexes => ?_
    exact exprLists_last _ _ (fun c _ => edgesRead_none c rfl) (fun c _ => exprsRead_nil c)
      (fun c _ => exprsRead_nil c) (fun c h => h.1.2) fun c h => h.2
  | lambda tok sig body captures =>
    have hfunction : Lowers (addFunction builder (lambdaScalars builder sig)
          (addParameters builder sig.params) (stmtsRows builder body) captures)
        (!sig.params.isEmpty || stmtsAddParameters builder body) fun i c =>
          ∀ᶠ fuel in atTop, readFunction c fuel (some i) =
            .ok (kirChildren builder (.lambda tok sig body captures)).lambda := by
      refine (Lowers.row (by decide) (addFunction_wraps _ _ _ _)
        (functionEdges_lowers (addParameters_lowers sig.params) (stmtsRows_lowers body)) ?_).mono ?_
      · intro edges c hread
        exact functionRow_checked hread
      · rintro i c ⟨edges, hrow, hread⟩
        exact reads_function hrow hread
    refine (exprLists_none {} {} rfl fun c _ => edgesRead_none c rfl).bind fun row => ?_
    refine hfunction.bind fun i => LowersAfter.pure _ rfl ?_
    rintro c ⟨⟨-, hedges, hlists⟩, hread⟩
    exact ⟨{ hedges with lambda := hread }, { hlists with }⟩

theorem exprsRows_lowers (es : List Expr) :
    Lowers (exprsRows builder es) (exprsAddParameters builder es)
      fun indexes c => ExprsRead c indexes (kirExprs builder es) := by
  cases es with
  | nil => exact Lowers.pure [] fun c => exprsRead_nil c
  | cons e es => exact rows_cons (exprRow_lowers (exprEdges_lowers e)) (exprsRows_lowers es)

theorem stmtEdges_lowers (s : Stmt) :
    Lowers (stmtEdges builder s) (s.addsParameters builder)
      fun row c => StmtRead c row (kirStmtChildren builder s) := by
  apply LowersAfter.lowers
  cases s with
  | letStmt info init =>
    refine (addBinding_lowers _).bind fun binding => ?_
    refine (exprRow_lowers (exprEdges_lowers init)).bind fun i => ?_
    refine stmtLists_last _ noStatements_lowers noStatements_lowers noStatements_lowers rfl
      (by simp [Stmt.addsParameters]) ?_
    rintro c ⟨⟨-, hbinding⟩, hinit⟩
    exact { noStmtEdgesRead c with binding := hbinding, init := hinit }
  | exprStmt tok e =>
    refine (exprRow_lowers (exprEdges_lowers e)).bind fun i => ?_
    refine stmtLists_last _ noStatements_lowers noStatements_lowers noStatements_lowers rfl
      (by simp [Stmt.addsParameters]) ?_
    rintro c ⟨-, he⟩
    exact { noStmtEdgesRead c with expr := he }
  | assign tok target value =>
    refine (exprRow_lowers (exprEdges_lowers target)).bind fun i => ?_
    refine (exprRow_lowers (exprEdges_lowers value)).bind fun j => ?_
    refine stmtLists_last _ noStatements_lowers noStatements_lowers noStatements_lowers rfl
      (by simp [Stmt.addsParameters]) ?_
    rintro c ⟨⟨-, htarget⟩, hvalue⟩
    exact { noStmtEdgesRead c with target := htarget, valueExpr := hvalue }
  | ifStmt tok cond thenBody elseBody =>
    refine (exprRow_lowers (exprEdges_lowers cond)).bind fun i => ?_
    refine stmtLists_last _ (stmtsRows_lowers thenBody) (stmtsRows_lowers elseBody)
      noStatements_lowers rfl (by simp [Stmt.addsParameters]) ?_
    rintro c ⟨-, hcond⟩
    exact { noStmtEdgesRead c with cond := hcond }
  | whileStmt tok cond body =>
    refine (exprRow_lowers (exprEdges_lowers cond)).bind fun i => ?_
    refine stmtLists_last _ noStatements_lowers noStatements_lowers (stmtsRows_lowers body) rfl
      (by simp [Stmt.addsParameters]) ?_
    rintro c ⟨-, hcond⟩
    exact { noStmtEdgesRead c with cond := hcond }
  | forStmt info iter body =>
    refine (addBinding_lowers _).bind fun binding => ?_
    refine (exprRow_lowers (exprEdges_lowers iter)).bind fun i => ?_
    refine stmtLists_last _ noStatements_lowers noStatements_lowers (stmtsRows_lowers body) rfl
      (by simp [Stmt.addsParameters]) ?_
    rintro c ⟨⟨-, hbinding⟩, hiter⟩
    exact { noStmtEdgesRead c with binding := hbinding, iter := hiter }
  | returnStmt tok value =>
    cases value with
    | none =>
      exact stmtLists_last _ noStatements_lowers noStatements_lowers noStatements_lowers rfl rfl
        fun c _ => noStmtEdgesRead c
    | some e =>
      refine (exprRow_lowers (exprEdges_lowers e)).bind fun i => ?_
      refine stmtLists_last _ noStatements_lowers noStatements_lowers noStatements_lowers rfl
        (by simp [Stmt.addsParameters]) ?_
      rintro c ⟨-, he⟩
      exact { noStmtEdgesRead c with ret := he }
  | breakStmt | continueStmt =>
    exact stmtLists_last _ noStatements_lowers noStatements_lowers noStatements_lowers rfl rfl
      fun c _ => noStmtEdgesRead c
  | deferStmt tok body | unsafeStmt tok body =>
    exact stmtLists_last _ noStatements_lowers noStatements_lowers (stmtsRows_lowers body) rfl
      (by simp [Stmt.addsParameters]) fun c _ => { noStmtEdgesRead c with }
  | matchStmt tok scrutinee arms =>
    refine (exprRow_lowers (exprEdges_lowers scrutinee)).bind fun i => ?_
    refine (stmtLists_lowers _ noStatements_lowers noStatements_lowers noStatements_lowers).bind
      fun row => ?_
    refine (armsRows_lowers arms).bind fun indexes => ?_
    refine (addArmRefs_lowers indexes).bind fun armList => LowersAfter.pure _
      (by simp [Stmt.addsParameters]) ?_
    rintro c ⟨⟨⟨⟨-, hscrutinee⟩, hread⟩, harms⟩, hlist⟩
    obtain ⟨hedges, hblocks⟩ := hread (kirStmtChildren builder (.matchStmt tok scrutinee arms))
      { noStmtEdgesRead c with scrutinee := hscrutinee } rfl rfl rfl
    exact ⟨{ hedges with }, { hblocks with }, Mir.listReads_of_listed ⟨_, hlist, harms⟩⟩

theorem stmtsRows_lowers (rest : List Stmt) :
    Lowers (stmtsRows builder rest) (stmtsAddParameters builder rest)
      fun indexes c => StmtsRead c indexes (kirStmts builder rest) := by
  cases rest with
  | nil => exact noStatements_lowers
  | cons s rest => exact rows_cons (stmtRow_lowers (stmtEdges_lowers s)) (stmtsRows_lowers rest)

theorem armsRows_lowers (arms : List MatchArm) :
    Lowers (armsRows builder arms) (armsAddParameters builder arms)
      fun indexes c => ArmsRead c indexes (kirArms builder arms) := by
  cases arms with
  | nil => exact Lowers.pure [] fun c => Filter.Eventually.of_forall fun _ => rfl
  | cons arm rest =>
    obtain ⟨p, body⟩ := arm
    exact rows_cons (addArm_lowers (stmtsRows_lowers body)) (armsRows_lowers rest)

end

end Kryndel
