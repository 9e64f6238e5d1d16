import Kryndel.Kir.Arena
import Kryndel.Tables.Program

/-!
# Documents of the KIR and their arenas

A `KIRDocument` is a tree of nodes of nine kinds. `newKIRArena` flattens it into tables, in
which the children of a row are named by their positions, and `toKIRDocument` reads the tree
back.

What a node has beside its children (the kind, the type, literals, spans and so on) is copied
as it is, so that the types of these scalars are parameters. Pointers may be nil. Positions are
`uint32` in the program and natural numbers here.
-/

namespace Kryndel.Mir

open Tables

/-! ## Documents -/

/-- What the nodes of a document have beside their children. -/
structure Scalars where
  /-- The format, the target, the imports, and the declarations of structs, enums and trait
      implementations. -/
  document : Type
  trait : Type
  traitMethod : Type
  function : Type
  parameter : Type
  statement : Type
  arm : Type
  pattern : Type
  expression : Type
  binding : Type
  value : Type

variable (S : Scalars)

/-- `*KIRValue`. -/
inductive KIRValue where
  | nil
  | node (value : S.value) (inner : KIRValue) (array : List KIRValue)

/-- `KIRPattern`. -/
structure KIRPattern where
  value : S.pattern
  resolvedBinding : Option S.binding

/-- `KIRCapture`. -/
structure KIRCapture where
  binding : Option S.binding

mutual

/-- `*KIRExpr`. -/
inductive KIRExpr where
  | nil
  | node (value : S.expression) (left right operand base receiver callee : KIRExpr)
      (lambda : KIRFunction) (binding : Option S.binding) (const : KIRValue S)
      (args items mapKeys values : List KIRExpr)

/-- `*KIRStmt`. -/
inductive KIRStmt where
  | nil
  | node (value : S.statement) (binding : Option S.binding)
      (init expr target valueExpr cond iter ret scrutinee : KIRExpr)
      (thenBody elseBody body : List KIRStmt) (arms : List KIRArm)

/-- `*KIRFunction`. -/
inductive KIRFunction where
  | nil
  | node (value : S.function) (body : List KIRStmt) (params : List KIRParam)
      (captures : List (Option (KIRCapture S)))

/-- `*KIRParam`. -/
inductive KIRParam where
  | nil
  | node (value : S.parameter) (default : KIRExpr) (binding : Option S.binding)

/-- `*KIRArm`. -/
inductive KIRArm where
  | nil
  | node (value : S.arm) (pattern : Option (KIRPattern S)) (body : List KIRStmt)

end

/-- `KIRTraitMethod`. -/
structure KIRTraitMethod where
  value : S.traitMethod
  params : List (KIRParam S)

/-- `KIRTrait`. -/
structure KIRTrait where
  value : S.trait
  methods : List (Option (KIRTraitMethod S))

/-- `KIRDocument`. -/
structure KIRDocument where
  value : S.document
  traits : List (Option (KIRTrait S))
  functions : List (KIRFunction S)
  statements : List (KIRStmt S)

/-! ## Arenas -/

/-- The kinds of nodes that have tables. -/
inductive NodeKind where
  | expression | statement | function | parameter | capture | pattern | arm | binding | value
deriving DecidableEq, Repr

def NodeKind.all : List NodeKind :=
  [.expression, .statement, .function, .parameter, .capture, .pattern, .arm, .binding, .value]

/-- `MIRNodeRefList`. -/
abbrev MIRNodeRefList := Tables.Range

/-- `MIRExpression`. -/
structure MIRExpression where
  value : S.expression
  left : MIRRef := none
  right : MIRRef := none
  operand : MIRRef := none
  base : MIRRef := none
  receiver : MIRRef := none
  callee : MIRRef := none
  lambda : MIRRef := none
  binding : MIRRef := none
  const : MIRRef := none
  args : MIRNodeRefList := {}
  items : MIRNodeRefList := {}
  mapKeys : MIRNodeRefList := {}
  values : MIRNodeRefList := {}

/-- `MIRStatement`. -/
structure MIRStatement where
  value : S.statement
  binding : MIRRef := none
  init : MIRRef := none
  expr : MIRRef := none
  target : MIRRef := none
  valueExpr : MIRRef := none
  cond : MIRRef := none
  iter : MIRRef := none
  ret : MIRRef := none
  scrutinee : MIRRef := none
  thenBody : MIRNodeRefList := {}
  elseBody : MIRNodeRefList := {}
  body : MIRNodeRefList := {}
  arms : MIRNodeRefList := {}

/-- `MIRFunction`. -/
structure MIRFunction where
  value : S.function
  body : MIRNodeRefList := {}
  params : MIRNodeRefList := {}
  captures : MIRNodeRefList := {}

/-- `MIRParameter`. -/
structure MIRParameter where
  value : S.parameter
  default : MIRRef := none
  binding : MIRRef := none

/-- `MIRCapture`. -/
structure MIRCapture where
  binding : MIRRef := none

/-- `MIRPattern`. -/
structure MIRPattern where
  value : S.pattern
  binding : MIRRef := none

/-- `MIRArm`. -/
structure MIRArm where
  value : S.arm
  pattern : MIRRef := none
  body : MIRNodeRefList := {}

/-- `MIRValue`. -/
structure MIRValue where
  value : S.value
  inner : MIRRef := none
  array : MIRNodeRefList := {}

/-- The rows of the tables. -/
abbrev MIRRow : NodeKind → Type
  | .expression => MIRExpression S
  | .statement => MIRStatement S
  | .function => MIRFunction S
  | .parameter => MIRParameter S
  | .capture => MIRCapture
  | .pattern => MIRPattern S
  | .arm => MIRArm S
  | .binding => S.binding
  | .value => MIRValue S

/-- The tables of an arena. -/
abbrev MIRTables := Store NodeKind (MIRRow S)

/-- `KIRArena`. -/
structure KIRArena where
  value : S.document
  traits : List (Option (KIRTrait S))
  tables : MIRTables S
  topFunctions : MIRNodeRefList
  topStatements : MIRNodeRefList

/-- Why an arena is not built or not read. -/
inductive ArenaError where
  /-- A list contains a missing node. -/
  | missingNode (kind : NodeKind)
  | outOfBounds (kind : NodeKind) (index : Nat)
  /-- A node reference range is out of bounds. -/
  | range
  /-- `validateReferences` fails. -/
  | invalid
  /-- Reading has not come to an end. -/
  | unfinished
deriving DecidableEq, Repr

variable {S}

/-- What a row refers to. -/
def rowEdges : (k : NodeKind) → MIRRow S k → Edges NodeKind
  | .expression, (row : MIRExpression S) =>
    { single := Address.optional .expression row.left ++ Address.optional .expression row.right ++
        Address.optional .expression row.operand ++ Address.optional .expression row.base ++
        Address.optional .expression row.receiver ++ Address.optional .expression row.callee ++
        Address.optional .function row.lambda ++ Address.optional .binding row.binding ++
        Address.optional .value row.const
      lists := [(.expression, row.args), (.expression, row.items), (.expression, row.mapKeys),
        (.expression, row.values)] }
  | .statement, (row : MIRStatement S) =>
    { single := Address.optional .binding row.binding ++ Address.optional .expression row.init ++
        Address.optional .expression row.expr ++ Address.optional .expression row.target ++
        Address.optional .expression row.valueExpr ++ Address.optional .expression row.cond ++
        Address.optional .expression row.iter ++ Address.optional .expression row.ret ++
        Address.optional .expression row.scrutinee
      lists := [(.statement, row.thenBody), (.statement, row.elseBody), (.statement, row.body),
        (.arm, row.arms)] }
  | .function, (row : MIRFunction S) =>
    { lists := [(.statement, row.body), (.parameter, row.params), (.capture, row.captures)] }
  | .parameter, (row : MIRParameter S) =>
    { single := Address.optional .expression row.default ++
        Address.optional .binding row.binding }
  | .capture, (row : MIRCapture) => { single := Address.optional .binding row.binding }
  | .pattern, (row : MIRPattern S) => { single := Address.optional .binding row.binding }
  | .arm, (row : MIRArm S) =>
    { single := Address.optional .pattern row.pattern, lists := [(.statement, row.body)] }
  | .binding, _ => {}
  | .value, (row : MIRValue S) =>
    { single := Address.optional .value row.inner, lists := [(.value, row.array)] }

/-! ## Flattening -/

/-- Programs that append to the tables of an arena. -/
abbrev ArenaM (S : Scalars) := StateT (MIRTables S) (Except ArenaError)

/-- A row around a program for its children. -/
abbrev appendNode (kind : NodeKind) (blank : MIRRow S kind) (children : ArenaM S (MIRRow S kind)) :
    ArenaM S Nat :=
  Store.node kind blank children

/-- A list may not have a missing node. -/
def present (kind : NodeKind) (ref : MIRRef) : ArenaM S Nat :=
  match ref with
  | some index => pure index
  | none => throw (.missingNode kind)

/-- `appendBinding`. -/
def appendBinding : Option S.binding → ArenaM S MIRRef
  | none => pure none
  | some binding => some <$> (Store.leaf .binding binding : ArenaM S Nat)

mutual

/-- `appendValue`. -/
def appendValue : KIRValue S → ArenaM S MIRRef
  | .nil => pure none
  | .node value inner array =>
    some <$> appendNode .value { value := value } do
      let inner ← appendValue inner
      let array ← appendValues array >>= Store.list .value
      return ({ value, inner, array } : MIRValue S)

def appendValues : List (KIRValue S) → ArenaM S (List Nat)
  | [] => return []
  | value :: values => do
    let index ← present .value (← appendValue value)
    let indexes ← appendValues values
    return index :: indexes

end

/-- `appendPattern`. -/
def appendPattern : Option (KIRPattern S) → ArenaM S MIRRef
  | none => pure none
  | some pattern =>
    some <$> appendNode .pattern { value := pattern.value } do
      let binding ← appendBinding pattern.resolvedBinding
      return ({ value := pattern.value, binding } : MIRPattern S)

def appendCaptures : List (Option (KIRCapture S)) → ArenaM S (List Nat)
  | [] => return []
  | none :: _ => throw (.missingNode .capture)
  | some capture :: captures => do
    let index ← appendNode .capture {} do
      let binding ← appendBinding capture.binding
      return ({ binding } : MIRCapture)
    let indexes ← appendCaptures captures
    return index :: indexes

/-- `appendCaptureList`. -/
def appendCaptureList (captures : List (Option (KIRCapture S))) : ArenaM S MIRNodeRefList :=
  appendCaptures captures >>= Store.list .capture

mutual

/-- `appendExpression`. -/
def appendExpression : KIRExpr S → ArenaM S MIRRef
  | .nil => pure none
  | .node value left right operand base receiver callee lambda binding const args items mapKeys
      values =>
    some <$> appendNode .expression { value := value } do
      let left ← appendExpression left
      let right ← appendExpression right
      let operand ← appendExpression operand
      let base ← appendExpression base
      let receiver ← appendExpression receiver
      let callee ← appendExpression callee
      let lambda ← appendFunction lambda
      let binding ← appendBinding binding
      let const ← appendValue const
      let args ← appendExpressions args >>= Store.list .expression
      let items ← appendExpressions items >>= Store.list .expression
      let mapKeys ← appendExpressions mapKeys >>= Store.list .expression
      let values ← appendExpressions values >>= Store.list .expression
      return ({ value, left, right, operand, base, receiver, callee, lambda, binding, const, args,
                items, mapKeys, values } : MIRExpression S)

def appendExpressions : List (KIRExpr S) → ArenaM S (List Nat)
  | [] => return []
  | expression :: expressions => do
    let index ← present .expression (← appendExpression expression)
    let indexes ← appendExpressions expressions
    return index :: indexes

/-- `appendStatement`. -/
def appendStatement : KIRStmt S → ArenaM S MIRRef
  | .nil => pure none
  | .node value binding init expr target valueExpr cond iter ret scrutinee thenBody elseBody body
      arms =>
    some <$> appendNode .statement { value := value } do
      let binding ← appendBinding binding
      let init ← appendExpression init
      let expr ← appendExpression expr
      let target ← appendExpression target
      let valueExpr ← appendExpression valueExpr
      let cond ← appendExpression cond
      let iter ← appendExpression iter
      let ret ← appendExpression ret
      let scrutinee ← appendExpression scrutinee
      let thenBody ← appendStatements thenBody >>= Store.list .statement
      let elseBody ← appendStatements elseBody >>= Store.list .statement
      let body ← appendStatements body >>= Store.list .statement
      let arms ← appendArms arms >>= Store.list .arm
      return ({ value, binding, init, expr, target, valueExpr, cond, iter, ret, scrutinee,
                thenBody, elseBody, body, arms } : MIRStatement S)

def appendStatements : List (KIRStmt S) → ArenaM S (List Nat)
  | [] => return []
  | statement :: statements => do
    let index ← present .statement (← appendStatement statement)
    let indexes ← appendStatements statements
    return index :: indexes

/-- `appendFunction`. -/
def appendFunction : KIRFunction S → ArenaM S MIRRef
  | .nil => pure none
  | .node value body params captures =>
    some <$> appendNode .function { value := value } do
      let body ← appendStatements body >>= Store.list .statement
      let params ← appendParameters params >>= Store.list .parameter
      let captures ← appendCaptureList captures
      return ({ value, body, params, captures } : MIRFunction S)

def appendParameters : List (KIRParam S) → ArenaM S (List Nat)
  | [] => return []
  | .nil :: _ => throw (.missingNode .parameter)
  | .node value default binding :: parameters => do
    let index ← appendNode .parameter { value := value } do
      let default ← appendExpression default
      let binding ← appendBinding binding
      return ({ value, default, binding } : MIRParameter S)
    let indexes ← appendParameters parameters
    return index :: indexes

def appendArms : List (KIRArm S) → ArenaM S (List Nat)
  | [] => return []
  | .nil :: _ => throw (.missingNode .arm)
  | .node value pattern body :: arms => do
    let index ← appendNode .arm { value := value } do
      let pattern ← appendPattern pattern
      let body ← appendStatements body >>= Store.list .statement
      return ({ value, pattern, body } : MIRArm S)
    let indexes ← appendArms arms
    return index :: indexes

end

/-- `appendExpressionList`. -/
def appendExpressionList (expressions : List (KIRExpr S)) : ArenaM S MIRNodeRefList :=
  appendExpressions expressions >>= Store.list .expression

/-- `appendStatementList`. -/
def appendStatementList (statements : List (KIRStmt S)) : ArenaM S MIRNodeRefList :=
  appendStatements statements >>= Store.list .statement

/-- `appendParameterList`. -/
def appendParameterList (parameters : List (KIRParam S)) : ArenaM S MIRNodeRefList :=
  appendParameters parameters >>= Store.list .parameter

/-- `appendArmList`. -/
def appendArmList (arms : List (KIRArm S)) : ArenaM S MIRNodeRefList :=
  appendArms arms >>= Store.list .arm

def appendFunctions : List (KIRFunction S) → ArenaM S (List Nat)
  | [] => return []
  | function :: functions => do
    let index ← present .function (← appendFunction function)
    let indexes ← appendFunctions functions
    return index :: indexes

/-- `appendFunctionList`. -/
def appendFunctionList (functions : List (KIRFunction S)) : ArenaM S MIRNodeRefList :=
  appendFunctions functions >>= Store.list .function

/-! ## Validation -/

/-- `checkOptional`, for a reference that is there. -/
def checkRef (tables : MIRTables S) (ref : Address NodeKind) : Bool :=
  ref.2 < (tables.rows ref.1).length

/-- `checkList`. -/
def checkList (tables : MIRTables S) (kind : NodeKind) (list : MIRNodeRefList) : Bool :=
  match tables.contents kind list with
  | none => false
  | some indexes => indexes.all fun index => checkRef tables (kind, index)

/-- The references and the ranges of a row are in bounds. -/
def checkRow (tables : MIRTables S) (kind : NodeKind) (row : MIRRow S kind) : Bool :=
  ((rowEdges kind row).single.all fun ref => checkRef tables ref) &&
    (rowEdges kind row).lists.all fun list => checkList tables list.1 list.2

/-- `validateReferences`. -/
def KIRArena.validateReferences (arena : KIRArena S) : Bool :=
  checkList arena.tables .function arena.topFunctions &&
    checkList arena.tables .statement arena.topStatements &&
    NodeKind.all.all fun kind => (arena.tables.rows kind).all (checkRow arena.tables kind)

/-! ## The arena of a document -/

/-- The parameters of the methods of a trait are cloned without defaults and bindings. -/
def cloneKIRTraitParam : KIRParam S → KIRParam S
  | .nil => .nil
  | .node value _ _ => .node value .nil none

def cloneKIRTraitMethod (method : KIRTraitMethod S) : KIRTraitMethod S :=
  { method with params := method.params.map cloneKIRTraitParam }

/-- `cloneKIRTraits`. -/
def cloneKIRTraits (traits : List (Option (KIRTrait S))) : List (Option (KIRTrait S)) :=
  traits.map fun trait => trait.map fun trait =>
    { trait with methods := trait.methods.map fun method => method.map cloneKIRTraitMethod }

/-- The functions and the statements of a document. -/
def appendTop (document : KIRDocument S) : ArenaM S (MIRNodeRefList × MIRNodeRefList) := do
  let functions ← appendFunctionList document.functions
  let statements ← appendStatementList document.statements
  return (functions, statements)

/-- `newKIRArena`. -/
def newKIRArena (document : KIRDocument S) : Except ArenaError (KIRArena S) := do
  let (top, tables) ← appendTop document Store.empty
  let arena : KIRArena S :=
    { value := document.value, traits := cloneKIRTraits document.traits, tables := tables
      topFunctions := top.1, topStatements := top.2 }
  if arena.validateReferences then return arena else throw .invalid

/-! ## Reading -/

section Read

variable (tables : MIRTables S)

/-- Reads what a reference names; a missing one is nil. -/
def readRef {α : Type} (kind : NodeKind) (nil : α) (read : MIRRow S kind → Except ArenaError α) :
    MIRRef → Except ArenaError α
  | none => return nil
  | some index =>
    match tables.row (kind, index) with
    | none => throw (.outOfBounds kind index)
    | some row => read row

/-- `indexList`. -/
def indexList (kind : NodeKind) (list : MIRNodeRefList) : Except ArenaError (List Nat) :=
  match tables.contents kind list with
  | none => throw .range
  | some indexes => return indexes

/-- Reads what a list of references names. -/
def readList {α : Type} (kind : NodeKind) (read : MIRRef → Except ArenaError α)
    (list : MIRNodeRefList) : Except ArenaError (List α) := do
  let indexes ← indexList tables kind list
  indexes.mapM fun index => read (some index)

/-- `KIRArena.binding`. -/
def readBinding : MIRRef → Except ArenaError (Option S.binding) :=
  readRef tables .binding none fun binding => return some binding

/-- `KIRArena.value`. -/
def readValue : Nat → MIRRef → Except ArenaError (KIRValue S)
  | 0, _ => throw .unfinished
  | fuel + 1, ref => readRef tables .value .nil (fun (row : MIRValue S) => do
    let inner ← readValue fuel row.inner
    let array ← readList tables .value (readValue fuel) row.array
    return .node row.value inner array) ref

/-- `KIRArena.pattern`. -/
def readPattern : MIRRef → Except ArenaError (Option (KIRPattern S)) :=
  readRef tables .pattern none fun (row : MIRPattern S) => do
    let resolvedBinding ← readBinding tables row.binding
    return some { value := row.value, resolvedBinding }

/-- One round of the loop of `KIRArena.captureList`. -/
def readCapture : MIRRef → Except ArenaError (Option (KIRCapture S)) :=
  readRef tables .capture none fun (row : MIRCapture) => do
    let binding ← readBinding tables row.binding
    return some { binding }

/-- One round of the loop of `KIRArena.parameterList`. -/
def readParameter (expression : MIRRef → Except ArenaError (KIRExpr S)) :
    MIRRef → Except ArenaError (KIRParam S) :=
  readRef tables .parameter .nil fun (row : MIRParameter S) => do
    let default ← expression row.default
    let binding ← readBinding tables row.binding
    return .node row.value default binding

/-- One round of the loop of `KIRArena.armList`. -/
def readArm (statement : MIRRef → Except ArenaError (KIRStmt S)) :
    MIRRef → Except ArenaError (KIRArm S) :=
  readRef tables .arm .nil fun (row : MIRArm S) => do
    let pattern ← readPattern tables row.pattern
    let body ← readList tables .statement statement row.body
    return .node row.value pattern body

mutual

/-- `KIRArena.expression`. -/
def readExpression : Nat → MIRRef → Except ArenaError (KIRExpr S)
  | 0, _ => throw .unfinished
  | fuel + 1, ref => readRef tables .expression .nil (fun (row : MIRExpression S) => do
    let left ← readExpression fuel row.left
    let right ← readExpression fuel row.right
    let operand ← readExpression fuel row.operand
    let base ← readExpression fuel row.base
    let receiver ← readExpression fuel row.receiver
    let callee ← readExpression fuel row.callee
    let lambda ← readFunction fuel row.lambda
    let binding ← readBinding tables row.binding
    let const ← readValue tables fuel row.const
    let args ← readList tables .expression (readExpression fuel) row.args
    let items ← readList tables .expression (readExpression fuel) row.items
    let mapKeys ← readList tables .expression (readExpression fuel) row.mapKeys
    let values ← readList tables .expression (readExpression fuel) row.values
    return .node row.value left right operand base receiver callee lambda binding const args items
      mapKeys values) ref

/-- `KIRArena.statement`. -/
def readStatement : Nat → MIRRef → Except ArenaError (KIRStmt S)
  | 0, _ => throw .unfinished
  | fuel + 1, ref => readRef tables .statement .nil (fun (row : MIRStatement S) => do
    let binding ← readBinding tables row.binding
    let init ← readExpression fuel row.init
    let expr ← readExpression fuel row.expr
    let target ← readExpression fuel row.target
    let valueExpr ← readExpression fuel row.valueExpr
    let cond ← readExpression fuel row.cond
    let iter ← readExpression fuel row.iter
    let ret ← readExpression fuel row.ret
    let scrutinee ← readExpression fuel row.scrutinee
    let thenBody ← readList tables .statement (readStatement fuel) row.thenBody
    let elseBody ← readList tables .statement (readStatement fuel) row.elseBody
    let body ← readList tables .statement (readStatement fuel) row.body
    let arms ← readList tables .arm (readArm tables (readStatement fuel)) row.arms
    return .node row.value binding init expr target valueExpr cond iter ret scrutinee thenBody
      elseBody body arms) ref

/-- `KIRArena.function`. -/
def readFunction : Nat → MIRRef → Except ArenaError (KIRFunction S)
  | 0, _ => throw .unfinished
  | fuel + 1, ref => readRef tables .function .nil (fun (row : MIRFunction S) => do
    let body ← readList tables .statement (readStatement fuel) row.body
    let params ← readList tables .parameter (readParameter tables (readExpression fuel)) row.params
    let captures ← readList tables .capture (readCapture tables) row.captures
    return .node row.value body params captures) ref

end

end Read

/-- `toKIRDocument`, with a bound on the depth. -/
def KIRArena.toKIRDocument (arena : KIRArena S) (fuel : Nat) :
    Except ArenaError (KIRDocument S) := do
  if !arena.validateReferences then throw .invalid
  let functions ← readList arena.tables .function (readFunction arena.tables fuel)
    arena.topFunctions
  let statements ← readList arena.tables .statement (readStatement arena.tables fuel)
    arena.topStatements
  return { value := arena.value, traits := cloneKIRTraits arena.traits, functions, statements }

end Kryndel.Mir
