import Kryndel.Kir.Execution

/-!
# The state of the executor

Scopes are numbered as they are made. The bindings of a scope name cells, which closures share.
What a scope defers is kept beside it, and so is the value that `?` is about to return. The
executor also keeps a log, which none of its operations reads: what happens to the deferred
bodies of each scope, and whether a call is ever made while a value waits to be returned.
-/

namespace Kryndel

/-! ## Nodes -/

/-- What an expression has beside its children, as far as the executor reads it (`KIRExpr`). -/
structure KIRExecExpr extends KIRExpr where
  /-- `Int`, `Float`, `Bool` and `String`. -/
  literal : Value := .nil
  operator : String := ""
  callTarget : String := ""
  traitName : String := ""
  genericArguments : List String := []
  enumType : String := ""
  enumVariant : String := ""
  structName : String := ""
  fields : List String := []
  field : String := ""
deriving Repr, Inhabited

/-- What the nodes of an executed document have beside their children. -/
abbrev execScalars : Mir.Scalars where
  document := Unit
  trait := Empty
  traitMethod := Empty
  function := KIRFunction
  parameter := KIRParamScalars
  statement := KIRStmt
  arm := KIRArmScalars
  pattern := KIRPatternScalars
  expression := KIRExecExpr
  binding := KIRBinding
  value := Empty

abbrev ExecExpr := Mir.KIRExpr execScalars
abbrev ExecStmt := Mir.KIRStmt execScalars
abbrev ExecFunction := Mir.KIRFunction execScalars
abbrev ExecParam := Mir.KIRParam execScalars
abbrev ExecArm := Mir.KIRArm execScalars

/-- The scalars of an expression; those of a missing one are empty. -/
def execScalarsOf : ExecExpr → KIRExecExpr
  | .nil => default
  | .node value .. => value

/-- The fields of a declaration that its bindings are told apart by (`kirExecBindingKey`). -/
structure KIRExecBindingKey where
  source : String
  name : String
  line : Nat
  column : Nat
deriving DecidableEq, Repr

/-- `kirExecKey`. -/
def kirExecKey (binding : KIRBinding) : KIRExecBindingKey where
  source := binding.source
  name := binding.name
  line := binding.line
  column := binding.column

/-- `validKIRBinding`, of a binding that is there. -/
def validKIRBinding (binding : KIRBinding) : Bool :=
  binding.name != "" && binding.type != "" && binding.source != "" && binding.line ≥ 1 &&
    binding.column ≥ 1

/-- `kirBindingIdentity`, of a binding that is there. -/
def kirBindingIdentity (binding : KIRBinding) : String :=
  if binding.id != "" then "id:" ++ binding.id
  else binding.source ++ ":" ++ toString binding.line ++ ":" ++ toString binding.column ++ ":" ++
    binding.name

/-- `sameKIRBinding`, of bindings that are there. -/
def sameKIRBinding (left right : KIRBinding) : Bool :=
  kirBindingIdentity left == kirBindingIdentity right && left.name == right.name &&
    left.type == right.type && left.mutable == right.mutable

/-! ## Diagnostics and flows -/

/-- `StackFrame`. -/
structure StackFrame where
  function : String
  source : String
  line : Nat
  column : Nat
deriving DecidableEq, Repr

/-- A diagnostic with the calls that it came through. -/
structure ExecDiagnostic extends Diagnostic where
  stack : List StackFrame := []
deriving DecidableEq, Repr

/-- A call whose operands are evaluated (`kirExecTailCall`). -/
structure KIRExecCall where
  call : KIRExecExpr
  function : ExecFunction
  environment : Nat
  receiver : Option Value
  arguments : List Value

/-- The ways out of a statement (`kirExecFlow`). -/
inductive KIRExecFlow where
  | normal (value : Value)
  | broke
  | continued
  | returned (value : Value)
  | tail (call : KIRExecCall)

/-- The value of a flow. -/
def KIRExecFlow.value : KIRExecFlow → Value
  | .normal v | .returned v => v
  | _ => .nil

/-! ## The state -/

/-- The bindings of a scope (`kirExecScope`): its own, which name cells, and the scopes around
    it from the inside out. -/
structure KIRExecScope where
  outer : List Nat := []
  values : List (KIRBinding × Nat) := []
deriving Repr

/-- `kirClosure`. -/
structure KIRClosure where
  function : ExecFunction
  environment : Nat
  typeArguments : List String := []

/-- The state that values are computed in. The limits, the output and whatever else the host
    keeps are its world. -/
structure ExecData (ω : Type) where
  world : ω
  scopes : List KIRExecScope := [{}]
  cells : List Value := []
  closures : List KIRClosure := []
  /-- `context.Calls`. -/
  calls : Nat := 0
  typeArgs : List (List (String × String)) := []
  returnTypes : List String := []

/-- What happens to the deferred bodies of a scope. -/
inductive Moment where
  /-- A defer statement was executed. -/
  | deferred (body : List ExecStmt)
  /-- An expression evaluated in the scope makes a value one to be returned at once. -/
  | raised (v : Value)
  /-- The statements of the scope were left. -/
  | ended (outcome : Except ExecDiagnostic KIRExecFlow)
  /-- A deferred body was executed, and possibly failed. Was there a value waiting to be returned
      when it began? -/
  | ran (body : List ExecStmt) (waiting : Bool) (failure : Option ExecDiagnostic)
  /-- The block was left. -/
  | left (result : Except ExecDiagnostic KIRExecFlow)

/-- The body that a defer statement registered. -/
def Moment.body : Moment → Option (List ExecStmt)
  | .deferred body => some body
  | _ => none

/-- The value that an expression let wait. -/
def Moment.value : Moment → Option Value
  | .raised v => some v
  | _ => none

/-- May it happen while the statements of a block are executed? -/
def Moment.isOpening : Moment → Bool
  | .deferred _ | .raised _ => true
  | _ => false

/-- `kirExecutor`, with its log. -/
structure ExecState (ω : Type) where
  data : ExecData ω
  /-- The deferred bodies of each scope. -/
  defers : List (List (List ExecStmt)) := [[]]
  propagated : Option Value := none
  log : List (Nat × Moment) := []
  /-- Was a call made while a value was waiting to be returned? -/
  late : Bool := false

/-! ## Computations -/

/-- A computation of the executor: how it ends, and the state then. It ends with a value or with
    a diagnostic, unless it is cut off at the bounds. -/
def Exec (ω α : Type) : Type :=
  ExecState ω → Option (Except ExecDiagnostic α) × ExecState ω

/-- The diagnostic of a computation that ended with one. -/
def failureOf {α : Type} : Except ExecDiagnostic α → Option ExecDiagnostic
  | .error d => some d
  | .ok _ => none

namespace Exec

variable {ω α β : Type}

protected def pure (a : α) : Exec ω α :=
  fun st => (some (.ok a), st)

protected def bind (x : Exec ω α) (f : α → Exec ω β) : Exec ω β := fun st =>
  match x st with
  | (none, st') => (none, st')
  | (some (.error d), st') => (some (.error d), st')
  | (some (.ok a), st') => f a st'

instance : Monad (Exec ω) where
  pure := Exec.pure
  bind := Exec.bind

/-- A computation that is cut off. -/
def stuck : Exec ω α :=
  fun st => (none, st)

/-- End as another computation did. -/
def done (r : Except ExecDiagnostic α) : Exec ω α :=
  fun st => (some r, st)

/-- Look at how a computation ends. -/
def attempt (x : Exec ω α) : Exec ω (Except ExecDiagnostic α) := fun st =>
  match x st with
  | (r, st') => (r.map .ok, st')

/-- A computation on the data alone. -/
def onData (f : ExecData ω → Except ExecDiagnostic α × ExecData ω) : Exec ω α := fun st =>
  match f st.data with
  | (r, data) => (some r, { st with data })

/-- Read the data. -/
def reading (f : ExecData ω → α) : Exec ω α :=
  onData fun data => (.ok (f data), data)

/-- Change the data. -/
def changing (f : ExecData ω → ExecData ω) : Exec ω Unit :=
  onData fun data => (.ok (), f data)

/-- `kirExecutor.fail`. -/
def fail (category : Category) (source : String) (line column : Nat) (message : String) :
    Exec ω α :=
  done (.error { toDiagnostic := diag category source line column message })

/-- All of some computations, in order. -/
def all : List (Exec ω α) → Exec ω (List α)
  | [] => pure []
  | x :: xs => do
      let a ← x
      let as ← all xs
      pure (a :: as)

/-- `newKIRExecScope`. -/
def openScope (parent : Option Nat) : Exec ω Nat := fun st =>
  let outer := match parent with
    | none => []
    | some p => p :: (st.data.scopes.getD p {}).outer
  (some (.ok st.defers.length),
    { st with
      data := { st.data with scopes := st.data.scopes ++ [{ outer }] }
      defers := st.defers ++ [[]] })

/-- Write to the log. -/
def record (scope : Nat) (moment : Moment) : Exec ω Unit := fun st =>
  (some (.ok ()), { st with log := st.log ++ [(scope, moment)] })

/-- Write to the log that a call is made. -/
def noteCall : Exec ω Unit := fun st =>
  (some (.ok ()), { st with late := st.late || st.propagated.isSome })

/-- Evaluate what a call is made with, and then write to the log that it is made. -/
def beforeCall (x : Exec ω α) : Exec ω α := do
  let result ← x.attempt
  noteCall
  done result

/-- Is a value waiting to be returned? -/
def waiting : Exec ω Bool := fun st =>
  (some (.ok st.propagated.isSome), st)

/-- Let a value wait to be returned: `executor.propagated = &v`. -/
def raise (scope : Nat) (v : Value) : Exec ω Unit := fun st =>
  (some (.ok ()), { st with propagated := some v, log := st.log ++ [(scope, .raised v)] })

/-- `takeKIRPropagated`. -/
def takePropagated : Exec ω (Option Value) := fun st =>
  (some (.ok st.propagated), { st with propagated := none })

/-- Go on with the value of an expression of a statement, unless a value waits to be returned. -/
def orReturn (x : Exec ω Value) (next : Value → Exec ω KIRExecFlow) : Exec ω KIRExecFlow := do
  let result ← x.attempt
  match ← takePropagated with
  | some v => pure (.returned v)
  | none =>
      let v ← done result
      next v

/-- Add a body to those that a scope defers. -/
def addDeferred (scope : Nat) (body : List ExecStmt) : Exec ω Unit := fun st =>
  (some (.ok ()),
    { st with
      defers := st.defers.modify scope (· ++ [body])
      log := st.log ++ [(scope, .deferred body)] })

/-- The bodies that a scope defers. -/
def deferredBodies (scope : Nat) : Exec ω (List (List ExecStmt)) := fun st =>
  (some (.ok (st.defers.getD scope [])), st)

end Exec

/-! ## Bindings -/

section Bindings

variable {ω : Type}

/-- `kirExecScope.local`. -/
def KIRExecScope.local (scope : KIRExecScope) (name : String) : Bool :=
  scope.values.any fun entry => entry.1.name == name

/-- The cell of a binding in one scope. -/
def KIRExecScope.cell (scope : KIRExecScope) (binding : KIRBinding) : Option (KIRBinding × Nat) :=
  scope.values.find? fun entry => kirExecKey entry.1 == kirExecKey binding

/-- `kirExecScope.find`: the declaration and the cell of a binding, in the scope or the ones
    around it. -/
def findBinding (data : ExecData ω) (scope : Nat) (binding : KIRBinding) :
    Option (KIRBinding × Nat) :=
  (scope :: (data.scopes.getD scope {}).outer).findSome? fun s =>
    (data.scopes.getD s {}).cell binding

/-- Bind a cell in a scope. -/
def bindCell (data : ExecData ω) (scope : Nat) (binding : KIRBinding) (cell : Nat) : ExecData ω :=
  { data with
    scopes := data.scopes.modify scope fun s => { s with values := s.values ++ [(binding, cell)] } }

/-- `kirExecScope.define`. -/
def defineBinding (data : ExecData ω) (scope : Nat) (binding : Option KIRBinding) (v : Value) :
    Except String (ExecData ω) :=
  match binding with
  | none => .error "declaration has invalid binding metadata"
  | some binding =>
    if !validKIRBinding binding then .error "declaration has invalid binding metadata"
    else if (data.scopes.getD scope {}).local binding.name then
      .error ("binding '" ++ binding.name ++ "' is already defined in this scope")
    else if ((data.scopes.getD scope {}).cell binding).isSome then
      .error ("binding '" ++ binding.name ++ "' has a duplicate identity")
    else
      .ok { bindCell data scope binding data.cells.length with cells := data.cells ++ [v] }

/-- `kirExecScope.define`, with the diagnostic of its error at a place. -/
def Exec.define (scope : Nat) (binding : Option KIRBinding) (v : Value) (category : Category)
    (source : String) (line column : Nat) : Exec ω Unit :=
  onData fun data =>
    match defineBinding data scope binding v with
    | .error message => (.error { toDiagnostic := diag category source line column message }, data)
    | .ok data' => (.ok (), data')

end Bindings

end Kryndel
