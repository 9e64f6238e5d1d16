import Kryndel.Checker.Scope

/-!
# The KIR arena

The typed tables a checked program is lowered to. A row holds the scalars of one
node, and names its children by their positions in the tables of their kind.

Positions are `uint32` in the program and natural numbers here. The rows keep what
identifies a node and how it is connected; literal payloads, spans and the metadata
of declarations are left out.
-/

namespace Kryndel

/-- An optional position in a table (`MIRRef`). -/
abbrev MIRRef := Option Nat

/-- A range of a reference table (`MIRNodeRefList`). -/
structure MIRNodeRefList where
  start : Nat := 0
  count : Nat := 0
deriving DecidableEq, Repr, Inhabited

/-! ## Bindings -/

/-- The record of a declaration (`KIRBinding`). -/
structure KIRBinding where
  id : String
  name : String
  type : String
  mutable : Bool
  source : String
  line : Nat
  column : Nat
deriving DecidableEq, Repr, Inhabited

/-- `kirBindingIDFromParts`. -/
def kirBindingIDFromParts (name source : String) (start line column : Nat) : String :=
  "kry-binding-v1/" ++ toString start ++ "/" ++ toString line ++ "/" ++ toString column ++ "/" ++
    toString source.utf8ByteSize ++ ":" ++ source ++ "/" ++ toString name.utf8ByteSize ++ ":" ++
    name

/-- `kirBindingID`; `paths` are the printed names of source files (`kirPathNames`). -/
def kirBindingID (paths : String → String) (name : String) (token : Token) : String :=
  kirBindingIDFromParts name (paths token.source) token.start token.line token.column

/-- `kirBinding`. -/
def kirBinding (paths : String → String) (name type : String) (mutable : Bool) (token : Token) :
    KIRBinding where
  id := kirBindingID paths name token
  name := name
  type := type
  mutable := mutable
  source := paths token.source
  line := token.line
  column := token.column

/-! ## Rows -/

/-- The scalars of an expression (`KIRExpr`). -/
structure KIRExpr where
  kind : String
  source : String
  line : Nat
  column : Nat
  type : String
  name : String := ""
  tail : Bool := false
deriving DecidableEq, Repr, Inhabited

/-- `MIRExpression`. -/
structure MIRExpression where
  value : KIRExpr := default
  left : MIRRef := none
  right : MIRRef := none
  operand : MIRRef := none
  base : MIRRef := none
  receiver : MIRRef := none
  callee : MIRRef := none
  lambda : MIRRef := none
  binding : MIRRef := none
  args : MIRNodeRefList := {}
  items : MIRNodeRefList := {}
  mapKeys : MIRNodeRefList := {}
  values : MIRNodeRefList := {}
deriving DecidableEq, Repr, Inhabited

/-- The scalars of a statement (`KIRStmt`). -/
structure KIRStmt where
  kind : String
  source : String
  line : Nat
  column : Nat
  name : String := ""
  mutable : Bool := false
  isConst : Bool := false
  annotationText : String := ""
deriving DecidableEq, Repr, Inhabited

/-- `MIRStatement`. -/
structure MIRStatement where
  value : KIRStmt := default
  binding : MIRRef := none
  init : MIRRef := none
  expr : MIRRef := none
  target : MIRRef := none
  valueExpr : MIRRef := none
  cond : MIRRef := none
  iter : MIRRef := none
  ret : MIRRef := none
  scrutinee : MIRRef := none
  thenList : MIRNodeRefList := {}
  elseList : MIRNodeRefList := {}
  body : MIRNodeRefList := {}
  arms : MIRNodeRefList := {}
deriving DecidableEq, Repr, Inhabited

/-- The scalars of a function (`KIRFunction`). -/
structure KIRFunction where
  name : String
  source : String
  line : Nat
  column : Nat
  worker : Bool := false
  module : String
  ret : String
  isPublic : Bool := false
  trait : String := ""
  receiver : String := ""
deriving DecidableEq, Repr, Inhabited

/-- `MIRFunction`. -/
structure MIRFunction where
  value : KIRFunction := default
  body : MIRNodeRefList := {}
  params : MIRNodeRefList := {}
  captures : MIRNodeRefList := {}
deriving DecidableEq, Repr, Inhabited

/-- `MIRParameter`, with the scalars of `KIRParam`. -/
structure MIRParameter where
  name : String
  type : String
  source : String
  line : Nat
  column : Nat
  default : MIRRef := none
  binding : MIRRef := none
deriving DecidableEq, Repr, Inhabited

/-- `MIRCapture`. -/
structure MIRCapture where
  binding : MIRRef := none
deriving DecidableEq, Repr, Inhabited

/-- `MIRPattern`, with the scalars of `KIRPattern`. -/
structure MIRPattern where
  kind : PatternKind
  source : String
  line : Nat
  column : Nat
  bindingName : String
  binding : MIRRef := none
deriving DecidableEq, Repr, Inhabited

/-- `MIRArm`, with the scalars of `KIRArm`. -/
structure MIRArm where
  source : String := ""
  line : Nat := 0
  column : Nat := 0
  pattern : MIRRef := none
  body : MIRNodeRefList := {}
deriving DecidableEq, Repr, Inhabited

/-! ## Tables -/

/-- `KIRArena`. -/
structure KIRArena where
  expressions : List MIRExpression := []
  statements : List MIRStatement := []
  functions : List MIRFunction := []
  parameters : List MIRParameter := []
  captures : List MIRCapture := []
  patterns : List MIRPattern := []
  arms : List MIRArm := []
  bindings : List KIRBinding := []
  expressionRefs : List Nat := []
  statementRefs : List Nat := []
  functionRefs : List Nat := []
  parameterRefs : List Nat := []
  captureRefs : List Nat := []
  armRefs : List Nat := []
  topFunctions : MIRNodeRefList := {}
  topStatements : MIRNodeRefList := {}
deriving DecidableEq, Repr, Inhabited

/-- The record that an optional position in a table of bindings names. -/
def bindingAt (bindings : List KIRBinding) (ref : MIRRef) : Option KIRBinding :=
  ref.bind fun i => bindings[i]?

/-- The declaration that the expression at a position of the table refers to. -/
def KIRArena.recordedBinding (arena : KIRArena) (index : Nat) : Option KIRBinding :=
  arena.expressions[index]?.bind fun row => bindingAt arena.bindings row.binding

end Kryndel
