import Kryndel.Kir.Builder
import Kryndel.Kir.Lossless

/-!
# The tree form of a program

A checked program as a document: what its arena is meant to read back as. The tables of the
builder are those of an arena without constants, whose scalars are the builder's.
-/

namespace Kryndel

open Tables

/-! ## Tables -/

/-- The scalars of a parameter (`KIRParam`). -/
structure KIRParamScalars where
  name : String
  type : String
  source : String
  line : Nat
  column : Nat
deriving DecidableEq, Repr

/-- The scalars of a pattern (`KIRPattern`). -/
structure KIRPatternScalars where
  kind : PatternKind
  source : String
  line : Nat
  column : Nat
  bindingName : String
deriving DecidableEq, Repr

/-- The scalars of an arm (`KIRArm`). -/
structure KIRArmScalars where
  source : String
  line : Nat
  column : Nat
deriving DecidableEq, Repr

/-- What the builder's rows have beside their references. Constants and traits are left out. -/
abbrev sourceScalars : Mir.Scalars where
  document := Unit
  trait := Empty
  traitMethod := Empty
  function := KIRFunction
  parameter := KIRParamScalars
  statement := KIRStmt
  arm := KIRArmScalars
  pattern := KIRPatternScalars
  expression := KIRExpr
  binding := KIRBinding
  value := Empty

def MIRNodeRefList.range (list : MIRNodeRefList) : Tables.Range :=
  ⟨list.start, list.count⟩

def MIRExpression.row (r : MIRExpression) : Mir.MIRExpression sourceScalars where
  value := r.value
  left := r.left
  right := r.right
  operand := r.operand
  base := r.base
  receiver := r.receiver
  callee := r.callee
  lambda := r.lambda
  binding := r.binding
  args := r.args.range
  items := r.items.range
  mapKeys := r.mapKeys.range
  values := r.values.range

def MIRStatement.row (r : MIRStatement) : Mir.MIRStatement sourceScalars where
  value := r.value
  binding := r.binding
  init := r.init
  expr := r.expr
  target := r.target
  valueExpr := r.valueExpr
  cond := r.cond
  iter := r.iter
  ret := r.ret
  scrutinee := r.scrutinee
  thenBody := r.thenList.range
  elseBody := r.elseList.range
  body := r.body.range
  arms := r.arms.range

def MIRFunction.row (r : MIRFunction) : Mir.MIRFunction sourceScalars where
  value := r.value
  body := r.body.range
  params := r.params.range
  captures := r.captures.range

def MIRParameter.row (r : MIRParameter) : Mir.MIRParameter sourceScalars where
  value := ⟨r.name, r.type, r.source, r.line, r.column⟩
  default := r.default
  binding := r.binding

def MIRCapture.row (r : MIRCapture) : Mir.MIRCapture where
  binding := r.binding

def MIRPattern.row (r : MIRPattern) : Mir.MIRPattern sourceScalars where
  value := ⟨r.kind, r.source, r.line, r.column, r.bindingName⟩
  binding := r.binding

def MIRArm.row (r : MIRArm) : Mir.MIRArm sourceScalars where
  value := ⟨r.source, r.line, r.column⟩
  pattern := r.pattern
  body := r.body.range

/-- The tables of an arena of the builder. -/
def tablesOf (a : KIRArena) : Mir.MIRTables sourceScalars where
  rows
    | .expression => a.expressions.map MIRExpression.row
    | .statement => a.statements.map MIRStatement.row
    | .function => a.functions.map MIRFunction.row
    | .parameter => a.parameters.map MIRParameter.row
    | .capture => a.captures.map MIRCapture.row
    | .pattern => a.patterns.map MIRPattern.row
    | .arm => a.arms.map MIRArm.row
    | .binding => a.bindings
    | .value => []
  refs
    | .expression => a.expressionRefs
    | .statement => a.statementRefs
    | .function => a.functionRefs
    | .parameter => a.parameterRefs
    | .capture => a.captureRefs
    | .arm => a.armRefs
    | .pattern | .binding | .value => []

/-- The arena that the builder makes of a program. -/
def sourceArena (builder : ArenaBuilder) (p : Program) : Mir.KIRArena sourceScalars where
  value := ()
  traits := []
  tables := tablesOf (buildKIRArena builder p)
  topFunctions := (buildKIRArena builder p).topFunctions.range
  topStatements := (buildKIRArena builder p).topStatements.range

/-! ## Trees -/

/-- The children of an expression, most of which an expression does not have. -/
structure ExprChildren where
  left : Mir.KIRExpr sourceScalars := .nil
  right : Mir.KIRExpr sourceScalars := .nil
  operand : Mir.KIRExpr sourceScalars := .nil
  base : Mir.KIRExpr sourceScalars := .nil
  receiver : Mir.KIRExpr sourceScalars := .nil
  callee : Mir.KIRExpr sourceScalars := .nil
  lambda : Mir.KIRFunction sourceScalars := .nil
  binding : Option KIRBinding := none
  args : List (Mir.KIRExpr sourceScalars) := []
  items : List (Mir.KIRExpr sourceScalars) := []
  mapKeys : List (Mir.KIRExpr sourceScalars) := []
  values : List (Mir.KIRExpr sourceScalars) := []

/-- The children of a statement. -/
structure StmtChildren where
  binding : Option KIRBinding := none
  init : Mir.KIRExpr sourceScalars := .nil
  expr : Mir.KIRExpr sourceScalars := .nil
  target : Mir.KIRExpr sourceScalars := .nil
  valueExpr : Mir.KIRExpr sourceScalars := .nil
  cond : Mir.KIRExpr sourceScalars := .nil
  iter : Mir.KIRExpr sourceScalars := .nil
  ret : Mir.KIRExpr sourceScalars := .nil
  scrutinee : Mir.KIRExpr sourceScalars := .nil
  thenBody : List (Mir.KIRStmt sourceScalars) := []
  elseBody : List (Mir.KIRStmt sourceScalars) := []
  body : List (Mir.KIRStmt sourceScalars) := []
  arms : List (Mir.KIRArm sourceScalars) := []

section TreeForm

variable (builder : ArenaBuilder)

/-- The record of a parameter. -/
def paramBinding (p : ParamSig) : KIRBinding :=
  kirBinding builder.paths p.name p.type.text false p.tok

def paramScalars (p : ParamSig) : KIRParamScalars :=
  ⟨p.name, p.type.text, builder.paths p.tok.source, p.tok.line, p.tok.column⟩

/-- A parameter with its default. -/
def kirParam (p : ParamSig) (default : Mir.KIRExpr sourceScalars) : Mir.KIRParam sourceScalars :=
  .node (paramScalars builder p) default (some (paramBinding builder p))

def kirCapture (c : Capture) : Mir.KIRCapture sourceScalars where
  binding := some (kirBinding builder.paths c.name c.type.text c.mutable c.token)

def kirCaptures (captures : List Capture) : List (Option (Mir.KIRCapture sourceScalars)) :=
  (captures.mergeSort (captureBefore builder)).map fun c => some (kirCapture builder c)

def kirPattern (p : Pattern) : Mir.KIRPattern sourceScalars where
  value := ⟨p.kind, builder.paths p.tok.source, p.tok.line, p.tok.column, p.binding⟩
  resolvedBinding :=
    if p.binding != "" then
      some (kirBinding builder.paths p.binding (typeString p.bindingType none) false p.bindingTok)
    else none

def armScalars (p : Pattern) : KIRArmScalars :=
  ⟨builder.paths p.tok.source, p.tok.line, p.tok.column⟩

def exprNode (e : Expr) (children : ExprChildren) : Mir.KIRExpr sourceScalars :=
  .node (kirExprScalars builder e) children.left children.right children.operand children.base
    children.receiver children.callee children.lambda children.binding .nil children.args
    children.items children.mapKeys children.values

def stmtNode (s : Stmt) (children : StmtChildren) : Mir.KIRStmt sourceScalars :=
  .node (kirStmtScalars builder s) children.binding children.init children.expr children.target
    children.valueExpr children.cond children.iter children.ret children.scrutinee
    children.thenBody children.elseBody children.body children.arms

mutual

/-- The children of the tree form of an expression. -/
def kirChildren : Expr → ExprChildren
  | .int _ _ | .float _ _ | .bool _ _ | .nil _ | .string _ _ | .enum _ _ _ _ => {}
  | .var i name ref => { binding := lookedUp builder (.var i name ref) }
  | .unary _ _ operand | .propagate _ operand =>
    { operand := exprNode builder operand (kirChildren operand) }
  | .binary _ _ left right =>
    { left := exprNode builder left (kirChildren left)
      right := exprNode builder right (kirChildren right) }
  | .index _ base left =>
    { left := exprNode builder left (kirChildren left)
      base := exprNode builder base (kirChildren base) }
  | .call _ callee args ref =>
    { callee :=
        if omitsCallee builder.isBuiltin callee ref then .nil
        else exprNode builder callee (kirChildren callee)
      args := kirExprs args }
  | .method _ receiver _ args _ =>
    { receiver := exprNode builder receiver (kirChildren receiver)
      args := kirExprs args }
  | .array _ items | .set _ items => { items := kirExprs items }
  | .field _ base _ _ => { base := exprNode builder base (kirChildren base) }
  | .struct _ _ _ values _ => { values := kirExprs values }
  | .map _ keys values => { mapKeys := kirExprs keys, values := kirExprs values }
  | .lambda _ sig body captures =>
    { lambda := .node (lambdaScalars builder sig) (kirStmts body)
        (sig.params.map fun p => kirParam builder p .nil) (kirCaptures builder captures) }

def kirExprs : List Expr → List (Mir.KIRExpr sourceScalars)
  | [] => []
  | e :: es => exprNode builder e (kirChildren e) :: kirExprs es

/-- The children of the tree form of a statement. -/
def kirStmtChildren : Stmt → StmtChildren
  | .letStmt info init =>
    { binding := some (letBinding builder info)
      init := exprNode builder init (kirChildren init) }
  | .exprStmt _ e => { expr := exprNode builder e (kirChildren e) }
  | .assign _ target value =>
    { target := exprNode builder target (kirChildren target)
      valueExpr := exprNode builder value (kirChildren value) }
  | .ifStmt _ cond thenBody elseBody =>
    { cond := exprNode builder cond (kirChildren cond)
      thenBody := kirStmts thenBody
      elseBody := kirStmts elseBody }
  | .whileStmt _ cond body =>
    { cond := exprNode builder cond (kirChildren cond)
      body := kirStmts body }
  | .forStmt info iter body =>
    { binding := some (forBinding builder info)
      iter := exprNode builder iter (kirChildren iter)
      body := kirStmts body }
  | .returnStmt _ none | .breakStmt _ | .continueStmt _ => {}
  | .returnStmt _ (some e) => { ret := exprNode builder e (kirChildren e) }
  | .deferStmt _ body | .unsafeStmt _ body => { body := kirStmts body }
  | .matchStmt _ scrutinee arms =>
    { scrutinee := exprNode builder scrutinee (kirChildren scrutinee)
      arms := kirArms arms }

def kirStmts : List Stmt → List (Mir.KIRStmt sourceScalars)
  | [] => []
  | s :: rest => stmtNode builder s (kirStmtChildren s) :: kirStmts rest

def kirArms : List MatchArm → List (Mir.KIRArm sourceScalars)
  | [] => []
  | .mk p body :: rest =>
    .node (armScalars builder p) (some (kirPattern builder p)) (kirStmts body) :: kirArms rest

end

/-- The tree form of an expression. -/
def kirExpr (e : Expr) : Mir.KIRExpr sourceScalars :=
  exprNode builder e (kirChildren builder e)

/-- The tree form of a statement. -/
def kirStmt (s : Stmt) : Mir.KIRStmt sourceScalars :=
  stmtNode builder s (kirStmtChildren builder s)

/-- The default of a parameter. -/
def kirDefault (p : Param) : Mir.KIRExpr sourceScalars :=
  match p.default with
  | some e => kirExpr builder e
  | none => .nil

/-- The tree form of a declared function. -/
def kirFunction (f : Function) : Mir.KIRFunction sourceScalars :=
  .node (functionScalars builder f) (kirStmts builder f.body)
    (f.params.map fun p => kirParam builder p.toParamSig (kirDefault builder p)) []

/-- The tree form of a program. -/
def kirDocument (p : Program) : Mir.KIRDocument sourceScalars where
  value := ()
  traits := []
  functions := p.functions.map (kirFunction builder)
  statements := kirStmts builder p.statements

/-! ## Parameters that are appended -/

mutual

/-- There is a closure with parameters in the part of an expression that is lowered. -/
def Expr.addsParameters : Expr → Bool
  | .int _ _ | .float _ _ | .bool _ _ | .nil _ | .string _ _ | .enum _ _ _ _ | .var _ _ _ => false
  | .unary _ _ operand | .propagate _ operand => operand.addsParameters
  | .binary _ _ left right | .index _ right left => left.addsParameters || right.addsParameters
  | .call _ callee args ref =>
    (!omitsCallee builder.isBuiltin callee ref && callee.addsParameters) ||
      exprsAddParameters args
  | .method _ receiver _ args _ => receiver.addsParameters || exprsAddParameters args
  | .array _ items | .set _ items => exprsAddParameters items
  | .field _ base _ _ => base.addsParameters
  | .struct _ _ _ values _ => exprsAddParameters values
  | .map _ keys values => exprsAddParameters keys || exprsAddParameters values
  | .lambda _ sig body _ => !sig.params.isEmpty || stmtsAddParameters body

def exprsAddParameters : List Expr → Bool
  | [] => false
  | e :: es => e.addsParameters || exprsAddParameters es

def Stmt.addsParameters : Stmt → Bool
  | .letStmt _ init => init.addsParameters
  | .exprStmt _ e => e.addsParameters
  | .assign _ target value => target.addsParameters || value.addsParameters
  | .ifStmt _ cond thenBody elseBody =>
    cond.addsParameters || (stmtsAddParameters thenBody || stmtsAddParameters elseBody)
  | .whileStmt _ cond body => cond.addsParameters || stmtsAddParameters body
  | .forStmt _ iter body => iter.addsParameters || stmtsAddParameters body
  | .returnStmt _ none | .breakStmt _ | .continueStmt _ => false
  | .returnStmt _ (some e) => e.addsParameters
  | .deferStmt _ body | .unsafeStmt _ body => stmtsAddParameters body
  | .matchStmt _ scrutinee arms => scrutinee.addsParameters || armsAddParameters arms

def stmtsAddParameters : List Stmt → Bool
  | [] => false
  | s :: rest => s.addsParameters || stmtsAddParameters rest

def armsAddParameters : List MatchArm → Bool
  | [] => false
  | .mk _ body :: rest => stmtsAddParameters body || armsAddParameters rest

end

end TreeForm

end Kryndel
