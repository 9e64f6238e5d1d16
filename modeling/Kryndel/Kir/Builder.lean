import Kryndel.Kir.Arena
import Kryndel.Checker.Nodes

/-!
# Building the arena

The lowering of a checked tree to the tables of the arena. A node's row is put down
before the rows of its children and completed when they are done; nothing reads a row
in between, so a row is written once here, when all of it is known.

A variable is looked up again, in the scope the checker recorded on the node and as
that scope is after the whole check.
-/

namespace Kryndel

/-- What `kirArenaBuilder` reads besides the tree: the names of the builtins, the scopes
    after the check, and the printed names of source files. -/
structure ArenaBuilder where
  isBuiltin : String → Bool
  scopes : Scopes
  paths : String → String

/-- Computations that extend the arena. -/
abbrev BuildM := StateM KIRArena

/-! ## Rows -/

namespace Expr

/-- `exprName`. -/
def kindName : Expr → String
  | int _ _ => "int"
  | float _ _ => "float"
  | bool _ _ => "bool"
  | nil _ => "nil"
  | string _ _ => "string"
  | var _ _ _ => "var"
  | unary _ _ _ => "unary"
  | binary _ _ _ _ => "binary"
  | call _ _ _ _ | method _ _ _ _ _ => "call"
  | array _ _ => "array"
  | index _ _ _ => "index"
  | field _ _ _ _ => "field"
  | struct _ _ _ _ _ => "struct"
  | enum _ _ _ _ => "enum"
  | map _ _ _ => "map"
  | set _ _ => "set"
  | propagate _ _ => "propagate"
  | lambda _ _ _ _ => "lambda"

end Expr

/-- `stmtName`. -/
def Stmt.kindName : Stmt → String
  | .letStmt info _ => if info.isConst then "const" else "let"
  | .exprStmt _ _ => "expr"
  | .assign _ _ _ => "assign"
  | .ifStmt _ _ _ _ => "if"
  | .whileStmt _ _ _ => "while"
  | .returnStmt _ _ => "return"
  | .breakStmt _ => "break"
  | .continueStmt _ => "continue"
  | .matchStmt _ _ _ => "match"
  | .forStmt _ _ _ => "for"
  | .deferStmt _ _ => "defer"
  | .unsafeStmt _ _ => "unsafe"

/-- The token a statement starts at. -/
def Stmt.tok : Stmt → Token
  | .letStmt info _ => info.tok
  | .forStmt info _ _ => info.tok
  | .exprStmt tok _ | .assign tok _ _ | .ifStmt tok _ _ _ | .whileStmt tok _ _
  | .returnStmt tok _ | .breakStmt tok | .continueStmt tok | .matchStmt tok _ _
  | .deferStmt tok _ | .unsafeStmt tok _ => tok

/-- `typeSpecString`. -/
def typeSpecString (spec : Option TypeSpec) : String := spec.elim "" TypeSpec.text

/-- `typeString`. -/
def typeString (t : Option Ty) (spec : Option TypeSpec) : String :=
  match t with
  | none | some .unknown | some .error => typeSpecString spec
  | some t => t.text

/-- The rows of a reference table that some indices are about to take. -/
def refRange (refs indices : List Nat) : MIRNodeRefList :=
  { start := refs.length, count := indices.length }

/-- `addExpressionRefs`. -/
def addExpressionRefs (indices : List Nat) : BuildM MIRNodeRefList :=
  modifyGet fun a => (refRange a.expressionRefs indices,
    { a with expressionRefs := a.expressionRefs ++ indices })

/-- `addStatementRefs`. -/
def addStatementRefs (indices : List Nat) : BuildM MIRNodeRefList :=
  modifyGet fun a => (refRange a.statementRefs indices,
    { a with statementRefs := a.statementRefs ++ indices })

/-- `addFunctionRefs`. -/
def addFunctionRefs (indices : List Nat) : BuildM MIRNodeRefList :=
  modifyGet fun a => (refRange a.functionRefs indices,
    { a with functionRefs := a.functionRefs ++ indices })

/-- `addParameterRefs`. -/
def addParameterRefs (indices : List Nat) : BuildM MIRNodeRefList :=
  modifyGet fun a => (refRange a.parameterRefs indices,
    { a with parameterRefs := a.parameterRefs ++ indices })

/-- `addCaptureRefs`. -/
def addCaptureRefs (indices : List Nat) : BuildM MIRNodeRefList :=
  modifyGet fun a => (refRange a.captureRefs indices,
    { a with captureRefs := a.captureRefs ++ indices })

/-- `addArmRefs`. -/
def addArmRefs (indices : List Nat) : BuildM MIRNodeRefList :=
  modifyGet fun a => (refRange a.armRefs indices, { a with armRefs := a.armRefs ++ indices })

/-- `kirArenaBuilder.binding`. -/
def addBinding (b : KIRBinding) : BuildM MIRRef :=
  modifyGet fun a => (some a.bindings.length, { a with bindings := a.bindings ++ [b] })

/-- The row of an expression around the computation of its edges. -/
def exprRow (value : KIRExpr) (edges : BuildM MIRExpression) : BuildM Nat := do
  let index := (← get).expressions.length
  modify fun a => { a with expressions := a.expressions ++ [{ value := value }] }
  let row ← edges
  modify fun a =>
    { a with expressions := a.expressions.set index { row with value := value } }
  return index

/-- The row of a statement around the computation of its edges. -/
def stmtRow (value : KIRStmt) (edges : BuildM MIRStatement) : BuildM Nat := do
  let index := (← get).statements.length
  modify fun a => { a with statements := a.statements ++ [{ value := value }] }
  let row ← edges
  modify fun a => { a with statements := a.statements.set index { row with value := value } }
  return index

/-- The lists that every expression row ends with. -/
def exprLists (row : MIRExpression) (args items keys values : List Nat) :
    BuildM MIRExpression := do
  let args ← addExpressionRefs args
  let items ← addExpressionRefs items
  let keys ← addExpressionRefs keys
  let values ← addExpressionRefs values
  return { row with args := args, items := items, mapKeys := keys, values := values }

/-- The blocks of a statement row, one after another; absent ones are empty. -/
def stmtLists (row : MIRStatement) (thenBody elseBody body : BuildM (List Nat)) :
    BuildM MIRStatement := do
  let thenList ← addStatementRefs (← thenBody)
  let elseList ← addStatementRefs (← elseBody)
  let bodyList ← addStatementRefs (← body)
  return { row with thenList := thenList, elseList := elseList, body := bodyList }

/-- The arms of a statement row. -/
def stmtArms (row : MIRStatement) (arms : List Nat) : BuildM MIRStatement := do
  return { row with arms := ← addArmRefs arms }

/-- A statement row without blocks and arms. -/
def stmtLeaf (row : MIRStatement) : BuildM MIRStatement := do
  stmtArms (← stmtLists row (pure []) (pure []) (pure [])) []

section Builder

variable (builder : ArenaBuilder)

/-- `kirExprScalars`. A call whose callee has a row of its own has no name. -/
def kirExprScalars (e : Expr) : KIRExpr where
  kind := e.kindName
  source := builder.paths e.tok.source
  line := e.tok.line
  column := e.tok.column
  type := typeString e.type none
  name := match e with
    | .var _ name _ => name
    | .method _ _ name _ _ => name
    | .call _ callee _ ref =>
        if omitsCallee builder.isBuiltin callee ref then callee.calleeName else ""
    | _ => ""
  tail := e.resolution.tail

/-- The scalars of a statement row. -/
def kirStmtScalars (s : Stmt) : KIRStmt where
  kind := s.kindName
  source := builder.paths s.tok.source
  line := s.tok.line
  column := s.tok.column
  name := match s with
    | .letStmt info _ => info.name
    | .forStmt info _ _ => info.name
    | _ => ""
  mutable := match s with
    | .letStmt info _ => info.mutable
    | _ => false
  isConst := match s with
    | .letStmt info _ => info.isConst
    | _ => false
  annotationText := match s with
    | .letStmt info _ => typeSpecString info.annotationSpec
    | _ => ""

/-- The declaration that the builder finds for a node: a variable that is no function is
    looked up in its scope. -/
def lookedUp : Expr → Option KIRBinding
  | .var _ name ref =>
      if ref.function.isNone then
        (ref.scope.bind fun scope => builder.scopes.lookup scope name).map fun b =>
          kirBinding builder.paths name (typeString (some b.type) none) b.mutable b.token
      else none
  | _ => none

/-- The record of what a `let` or `const` declares. -/
def letBinding (info : LetInfo) : KIRBinding :=
  kirBinding builder.paths info.name (typeString info.type info.annotationSpec) info.mutable
    info.nameToken

/-- The record of the variable of a `for`. -/
def forBinding (info : ForInfo) : KIRBinding :=
  kirBinding builder.paths info.name (typeString info.type none) false info.nameToken

/-- `kirArenaBuilder.pattern`. -/
def addPattern (p : Pattern) : BuildM Nat := do
  let ref ← if p.binding != "" then
      addBinding (kirBinding builder.paths p.binding (typeString p.bindingType none) false
        p.bindingTok)
    else pure none
  modifyGet fun a => (a.patterns.length, { a with patterns := a.patterns ++
    [{ kind := p.kind, source := builder.paths p.tok.source, line := p.tok.line
       column := p.tok.column, bindingName := p.binding, binding := ref }] })

/-- One arm of a match, around its body. -/
def addArm (p : Pattern) (body : BuildM (List Nat)) : BuildM Nat := do
  let index := (← get).arms.length
  modify fun a => { a with arms := a.arms ++ [{}] }
  let pattern ← addPattern builder p
  let refs ← addStatementRefs (← body)
  let row : MIRArm :=
    { source := builder.paths p.tok.source, line := p.tok.line, column := p.tok.column
      pattern := some pattern, body := refs }
  modify fun a => { a with arms := a.arms.set index row }
  return index

/-- One parameter, after its default. Its index is the number of parameters before the
    default is lowered, also where the default has parameters of its own. -/
def addParameter (p : ParamSig) (default : BuildM MIRRef) : BuildM Nat := do
  let index := (← get).parameters.length
  let ref ← default
  let binding ← addBinding (kirBinding builder.paths p.name p.type.text false p.tok)
  modify fun a => { a with parameters := a.parameters ++
    [{ name := p.name, type := p.type.text, source := builder.paths p.tok.source
       line := p.tok.line, column := p.tok.column, default := ref, binding := binding }] }
  return index

/-- Parameters without defaults. -/
def addParameters : List ParamSig → BuildM (List Nat)
  | [] => return []
  | p :: ps => do
      let index ← addParameter builder p (pure none)
      let indices ← addParameters ps
      return index :: indices

/-- The order of captures in the arena. -/
def captureBefore (a b : Capture) : Bool :=
  if builder.paths a.token.source != builder.paths b.token.source then
    builder.paths a.token.source < builder.paths b.token.source
  else if a.token.line != b.token.line then a.token.line < b.token.line
  else if a.token.column != b.token.column then a.token.column < b.token.column
  else a.name ≤ b.name

/-- Captures, in their order. -/
def addCaptures : List Capture → BuildM (List Nat)
  | [] => return []
  | c :: cs => do
      let binding ← addBinding (kirBinding builder.paths c.name c.type.text c.mutable c.token)
      let index ← modifyGet fun a =>
        (a.captures.length, { a with captures := a.captures ++ [{ binding := binding }] })
      let indices ← addCaptures cs
      return index :: indices

/-- `kirArenaBuilder.function`, around its parameters and its body. -/
def addFunction (value : KIRFunction) (params body : BuildM (List Nat))
    (captures : List Capture) : BuildM Nat := do
  let index := (← get).functions.length
  modify fun a => { a with functions := a.functions ++ [{ value := value }] }
  let params ← params
  let body ← body
  let captures ← addCaptures builder (captures.mergeSort (captureBefore builder))
  let body ← addStatementRefs body
  let params ← addParameterRefs params
  let captures ← addCaptureRefs captures
  let row : MIRFunction :=
    { value := value, body := body, params := params, captures := captures }
  modify fun a => { a with functions := a.functions.set index row }
  return index

/-- The scalars of the function of a closure. -/
def lambdaScalars (sig : FunctionSig) : KIRFunction where
  name := sig.name
  source := builder.paths sig.tok.source
  line := sig.tok.line
  column := sig.tok.column
  module := builder.paths sig.module
  ret := sig.ret.text

/-- The scalars of a declared function. -/
def functionScalars (f : Function) : KIRFunction where
  name := f.name
  source := builder.paths f.tok.source
  line := f.tok.line
  column := f.tok.column
  worker := f.worker
  module := builder.paths f.module
  ret := f.ret.text
  isPublic := f.isPublic
  trait := f.trait
  receiver := typeSpecString f.receiver

/-! ## The walk -/

mutual

/-- The edges of an expression's row (`kirArenaBuilder.expression`, after the row is put
    down). -/
def exprEdges : Expr → BuildM MIRExpression
  | .int _ _ | .float _ _ | .bool _ _ | .nil _ | .string _ _ | .enum _ _ _ _ =>
      exprLists {} [] [] [] []
  | .var i name ref => do
      let row ← exprLists {} [] [] [] []
      match lookedUp builder (.var i name ref) with
      | some b => return { row with binding := ← addBinding b }
      | none => return row
  | .unary _ _ operand | .propagate _ operand => do
      let operand ← exprRow (kirExprScalars builder operand) (exprEdges operand)
      exprLists { operand := some operand } [] [] [] []
  | .binary _ _ left right => do
      let left ← exprRow (kirExprScalars builder left) (exprEdges left)
      let right ← exprRow (kirExprScalars builder right) (exprEdges right)
      exprLists { left := some left, right := some right } [] [] [] []
  | .index _ base left => do
      let left ← exprRow (kirExprScalars builder left) (exprEdges left)
      let base ← exprRow (kirExprScalars builder base) (exprEdges base)
      exprLists { left := some left, base := some base } [] [] [] []
  | .call _ callee args ref => do
      -- a known function or a builtin is named by its target
      let callee ← if omitsCallee builder.isBuiltin callee ref then pure none
        else some <$> exprRow (kirExprScalars builder callee) (exprEdges callee)
      let args ← exprsRows args
      exprLists { callee := callee } args [] [] []
  | .method _ receiver _ args _ => do
      let receiver ← exprRow (kirExprScalars builder receiver) (exprEdges receiver)
      let args ← exprsRows args
      exprLists { receiver := some receiver } args [] [] []
  | .array _ items | .set _ items => do
      let items ← exprsRows items
      exprLists {} [] items [] []
  | .field _ base _ _ => do
      let base ← exprRow (kirExprScalars builder base) (exprEdges base)
      exprLists { base := some base } [] [] [] []
  | .struct _ _ _ values _ => do
      let values ← exprsRows values
      exprLists {} [] [] [] values
  | .map _ keys values => do
      let keys ← exprsRows keys
      let values ← exprsRows values
      exprLists {} [] [] keys values
  | .lambda _ sig body captures => do
      let row ← exprLists {} [] [] [] []
      let function ← addFunction builder (lambdaScalars builder sig)
        (addParameters builder sig.params) (stmtsRows body) captures
      return { row with lambda := some function }

/-- `kirArenaBuilder.expressions`. -/
def exprsRows : List Expr → BuildM (List Nat)
  | [] => return []
  | e :: es => do
      let index ← exprRow (kirExprScalars builder e) (exprEdges e)
      let indices ← exprsRows es
      return index :: indices

/-- The edges of a statement's row (`kirArenaBuilder.statement`). -/
def stmtEdges : Stmt → BuildM MIRStatement
  | .letStmt info init => do
      let binding ← addBinding (letBinding builder info)
      let init ← exprRow (kirExprScalars builder init) (exprEdges init)
      stmtLeaf { binding := binding, init := some init }
  | .exprStmt _ e => do
      let e ← exprRow (kirExprScalars builder e) (exprEdges e)
      stmtLeaf { expr := some e }
  | .assign _ target value => do
      let target ← exprRow (kirExprScalars builder target) (exprEdges target)
      let value ← exprRow (kirExprScalars builder value) (exprEdges value)
      stmtLeaf { target := some target, valueExpr := some value }
  | .ifStmt _ cond thenBody elseBody => do
      let cond ← exprRow (kirExprScalars builder cond) (exprEdges cond)
      let row ← stmtLists { cond := some cond } (stmtsRows thenBody) (stmtsRows elseBody) (pure [])
      stmtArms row []
  | .whileStmt _ cond body => do
      let cond ← exprRow (kirExprScalars builder cond) (exprEdges cond)
      let row ← stmtLists { cond := some cond } (pure []) (pure []) (stmtsRows body)
      stmtArms row []
  | .forStmt info iter body => do
      let binding ← addBinding (forBinding builder info)
      let iter ← exprRow (kirExprScalars builder iter) (exprEdges iter)
      let row ← stmtLists { binding := binding, iter := some iter } (pure []) (pure [])
        (stmtsRows body)
      stmtArms row []
  | .returnStmt _ none | .breakStmt _ | .continueStmt _ => stmtLeaf {}
  | .returnStmt _ (some e) => do
      let e ← exprRow (kirExprScalars builder e) (exprEdges e)
      stmtLeaf { ret := some e }
  | .deferStmt _ body | .unsafeStmt _ body => do
      let row ← stmtLists {} (pure []) (pure []) (stmtsRows body)
      stmtArms row []
  | .matchStmt _ scrutinee arms => do
      let scrutinee ← exprRow (kirExprScalars builder scrutinee) (exprEdges scrutinee)
      let row ← stmtLists { scrutinee := some scrutinee } (pure []) (pure []) (pure [])
      stmtArms row (← armsRows arms)

/-- `kirArenaBuilder.statements`. -/
def stmtsRows : List Stmt → BuildM (List Nat)
  | [] => return []
  | s :: rest => do
      let index ← stmtRow (kirStmtScalars builder s) (stmtEdges s)
      let indices ← stmtsRows rest
      return index :: indices

/-- The loop over the arms of a match. -/
def armsRows : List MatchArm → BuildM (List Nat)
  | [] => return []
  | .mk p body :: rest => do
      let index ← addArm builder p (stmtsRows body)
      let indices ← armsRows rest
      return index :: indices

end

/-- `kirArenaBuilder.expression`. -/
def addExpr (e : Expr) : BuildM Nat := exprRow (kirExprScalars builder e) (exprEdges builder e)

/-- The parameters of a declared function. -/
def addFunctionParameters : List Param → BuildM (List Nat)
  | [] => return []
  | p :: ps => do
      let index ← addParameter builder p.toParamSig
        (match p.default with
          | some e => some <$> addExpr builder e
          | none => pure none)
      let indices ← addFunctionParameters ps
      return index :: indices

/-- The declared functions. -/
def addFunctions : List Function → BuildM (List Nat)
  | [] => return []
  | f :: fs => do
      let index ← addFunction builder (functionScalars builder f)
        (addFunctionParameters builder f.params) (stmtsRows builder f.body) []
      let indices ← addFunctions fs
      return index :: indices

/-- The part of `buildKIRArenaFromCheckedSource` after the metadata. -/
def buildProgram (p : Program) : BuildM Unit := do
  let functions ← addFunctionRefs (← addFunctions builder p.functions)
  modify fun a => { a with topFunctions := functions }
  let statements ← addStatementRefs (← stmtsRows builder p.statements)
  modify fun a => { a with topStatements := statements }

/-- `buildKIRArenaFromCheckedSource`. -/
def buildKIRArena (p : Program) : KIRArena := (buildProgram builder p {}).2

end Builder

end Kryndel
