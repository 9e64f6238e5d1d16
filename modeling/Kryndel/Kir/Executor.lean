import Kryndel.Kir.ExecState

/-!
# The executor

The executor of KIR: expressions, calls, statements and blocks. Types, limits, output, operators
on values and built-in functions are those of a host about which nothing is assumed. A missing
node, at which the program would panic, has no run. Workers run in executors of their own.
-/

namespace Kryndel.KIRExec

/-! ## The host -/

/-- What a built-in function asks for: its value, or that a registered function be called
    (`poly_dispatch`). -/
inductive BuiltinResult where
  | value (v : Value)
  | dispatch (call : KIRExecCall)

/-- An operation of the host, which changes nothing but its world. -/
abbrev HostOp (ω α : Type) : Type :=
  ExecData ω → Except ExecDiagnostic α × ω

/-- The operations that the executor leaves to its host. -/
structure KIRHost (ω : Type) where
  /-- `kirExecutor.functions`. -/
  functions : String → Option ExecFunction
  /-- `limits.MaxCallDepth`. -/
  maxCallDepth : Nat
  /-- `kirExecutor.step`, at a source, a line and a column. -/
  step : String → Nat → Nat → HostOp ω Unit
  /-- `kirExecutor.debugKIRStatement`. -/
  debugStatement : Nat → KIRStmt → HostOp ω Bool
  /-- `ExecContext.contextFailure`. -/
  contextFailure : String → Nat → Nat → HostOp ω Unit
  /-- `ExecContext.account`. -/
  account : Nat → String → Nat → Nat → HostOp ω Unit
  /-- `kirExecutor.emitOutput`. -/
  emitOutput : String → String → Nat → Nat → HostOp ω Unit
  /-- `kirExecutor.displayValue`. -/
  displayValue : ExecData ω → Value → String
  /-- `equalValue`. -/
  equalValue : Value → Value → Bool
  /-- The value of an expression from those of its operands. -/
  build : KIRExecExpr → List Value → HostOp ω Value
  /-- The fields of the struct that an expression makes, if its declaration is known. -/
  structFields : KIRExecExpr → ExecData ω → Option (List String)
  /-- `kirExecutor.valueMatchesType`. -/
  valueMatchesType : ExecData ω → Value → String → Bool
  /-- `kirExecutor.instantiateKIRType`. -/
  instantiate : List (List (String × String)) → String → String
  /-- `kirExecutor.kirCallTypeArguments`. -/
  typeArguments : List (List (String × String)) → KIRExecExpr → ExecFunction → Option Value →
    Option (List (String × String))
  /-- `kirExecutor.selfBinding`. -/
  selfBinding : ExecFunction → Option (Option KIRBinding)
  /-- `kirExecutor.resolveKIRTraitCall`. -/
  traitCall : KIRExecExpr → Option Value → Except ExecDiagnostic (ExecFunction × KIRExecExpr)
  /-- The checks of a call of a built-in function before its arguments are evaluated. -/
  builtinAllowed : KIRExecExpr → Bool → HostOp ω Unit
  /-- `Runtime.evalBuiltin`, and the functions that the executor has itself. -/
  builtin : KIRExecExpr → List Value → HostOp ω BuiltinResult

variable {ω : Type}

/-- An operation of the host as a computation. -/
def perform {α : Type} (f : HostOp ω α) : Exec ω α :=
  .onData fun data =>
    match f data with
    | (r, world) => (r, { data with world })

/-- A diagnostic at an expression. -/
def failAt {α : Type} (e : KIRExecExpr) (category : Category) (message : String) : Exec ω α :=
  .fail category e.source e.line e.column message

def quoted (s : String) : String := "\"" ++ s ++ "\""

/-- `strings.Cut` at a colon. -/
def cutTarget (target : String) : Option (String × String) :=
  match target.toList.span (· != ':') with
  | (_, []) => none
  | (before, _ :: after) => some (String.ofList before, String.ofList after)

/-! ## Closures -/

/-- `registerKIRClosure`, of a closure with a new identity. -/
def registerKIRClosure (closure : KIRClosure) : Exec ω Value :=
  .onData fun data =>
    (.ok (.function data.closures.length), { data with closures := data.closures ++ [closure] })

/-- Capture one binding of a scope in the environment of a closure. An immutable binding is
    copied. -/
def captureBinding (e : KIRExecExpr) (scope environment : Nat)
    (capture : Option (Mir.KIRCapture execScalars)) : Exec ω Unit :=
  match capture.bind Mir.KIRCapture.binding with
  | none => failAt e .artifact "KIR lambda has invalid capture metadata"
  | some wanted =>
    if !validKIRBinding wanted then failAt e .artifact "KIR lambda has invalid capture metadata"
    else do
      let unavailable : Exec ω Unit :=
        failAt e .artifact ("KIR lambda captures unavailable binding '" ++ wanted.name ++ "'")
      match ← Exec.reading (findBinding · scope wanted) with
      | none => unavailable
      | some (binding, cell) =>
        if !sameKIRBinding binding wanted then unavailable
        else if ← Exec.reading fun data =>
            (data.scopes.getD environment {}).local wanted.name then
          failAt e .artifact ("KIR lambda has duplicate capture '" ++ wanted.name ++ "'")
        else .changing fun data =>
          if wanted.mutable then bindCell data environment binding cell
          else
            { bindCell data environment binding data.cells.length with
              cells := data.cells ++ [data.cells.getD cell .nil] }

def captureBindings (e : KIRExecExpr) (scope environment : Nat) :
    List (Option (Mir.KIRCapture execScalars)) → Exec ω Unit
  | [] => return ()
  | capture :: rest => do
      captureBinding e scope environment capture
      captureBindings e scope environment rest

variable (host : KIRHost ω)

/-- `makeKIRClosure`. -/
def makeKIRClosure (e : KIRExecExpr) (scope : Nat) : ExecFunction → Exec ω Value
  | .nil => failAt e .artifact "KIR lambda has no function body"
  | .node value body params captures => do
      perform (host.account (64 + captures.length * 24) e.source e.line e.column)
      let environment ← Exec.openScope none
      captureBindings e scope environment captures
      registerKIRClosure { function := .node value body params captures, environment }

/-- A variable: the value of a function, or of a binding. -/
def evalVar (e : KIRExecExpr) (scope : Nat) (binding : Option KIRBinding) : Exec ω Value :=
  if e.callTarget != "" then
    match cutTarget e.callTarget with
    | some ("function", target) =>
      match host.functions target with
      | some function => do
          perform (host.account 48 e.source e.line e.column)
          let typeArguments ← Exec.reading fun data =>
            e.genericArguments.map (host.instantiate data.typeArgs)
          registerKIRClosure { function, environment := 0, typeArguments }
      | none => failAt e .artifact "KIR function value references an unknown target"
    | _ => failAt e .artifact "KIR function value references an unknown target"
  else do
    match ← Exec.reading fun data => do
        let (_, cell) ← findBinding data scope (← binding)
        return data.cells.getD cell .nil with
    | some v => return v
    | none => failAt e .runtime ("unknown name '" ++ e.name ++ "'")

/-! ## Expressions -/

/-- The computations of the children of an expression. -/
structure Children (ω : Type) where
  left : Exec ω Value
  right : Exec ω Value
  operand : Exec ω Value
  base : Exec ω Value
  receiver : Option (Exec ω Value)
  /-- With the place of the expression. -/
  callee : Option (KIRExecExpr × Exec ω Value)
  args : List (Exec ω Value)
  items : List (Exec ω Value)
  mapKeys : List (Exec ω Value)
  values : List (Exec ω Value)

/-- The last check on a value. -/
def checkedValue (e : KIRExecExpr) (v : Value) : Exec ω Value := do
  if ← Exec.reading (host.valueMatchesType · v e.type) then return v
  else failAt e .artifact ("KIR expression value does not match checked type " ++ quoted e.type)

/-- The value of an expression from those of its operands, checked. -/
def builtValue (e : KIRExecExpr) (operands : List Value) : Exec ω Value := do
  let v ← perform (host.build e operands)
  checkedValue host e v

/-- The logical operators, which need not evaluate their right operand. -/
def evalLogical (e : KIRExecExpr) (left : Value) (right : Exec ω Value) : Exec ω Value :=
  match left with
  | .bool b =>
    if b == (e.operator == "||") then return .bool b
    else do
      match ← right with
      | .bool c => return .bool c
      | _ => failAt e .runtime "logical operators require Bool"
  | _ => failAt e .runtime "logical operators require Bool"

/-- The entries of a map, with those evaluated before. -/
def evalEntries (e : KIRExecExpr) :
    List (Exec ω Value × Exec ω Value) → List (Value × Value) → Exec ω (List (Value × Value))
  | [], entries => return entries
  | (key, item) :: rest, entries => do
      let k ← key
      let v ← item
      if entries.any fun old => host.equalValue old.1 k then
        failAt e .runtime "duplicate map key"
      else evalEntries e rest (entries ++ [(k, v)])

/-- The fields of a struct, with those initialized before. -/
def evalFields (e : KIRExecExpr) (declared : List String) :
    List (String × Exec ω Value) → List (String × Value) → Exec ω (List (String × Value))
  | [], fields => return fields
  | (name, item) :: rest, fields =>
      if !declared.contains name || (fields.map Prod.fst).contains name then
        failAt e .artifact
          ("KIR struct expression has an unknown or duplicate field " ++ quoted name)
      else do
        let v ← item
        evalFields e declared rest (fields ++ [(name, v)])

/-- A struct. -/
def evalStruct (e : KIRExecExpr) (values : List (Exec ω Value)) : Exec ω Value := do
  match ← Exec.reading (host.structFields e) with
  | none => failAt e .artifact "KIR struct expression has an unknown or mismatched type"
  | some declared =>
      let fields ← evalFields e declared (e.fields.zip values) []
      if declared.all (fields.map Prod.fst).contains then
        builtValue host e (fields.map Prod.snd)
      else failAt e .artifact "KIR struct expression is missing a declared field"

/-- The operator `?`. A value that it returns at once waits beside the computation, which goes
    on with nil. -/
def evalPropagate (e : KIRExecExpr) (scope : Nat) (inner : Value) : Exec ω Value :=
  match inner with
  | .absent | .result false _ => do
      Exec.raise scope inner
      return .nil
  | .present v | .result true v => checkedValue host e v
  | _ => failAt e .runtime "'?' requires an Option or Result"

/-! ## Calls -/

/-- What a call refers to. -/
inductive Callee where
  | builtin
  /-- A method of a trait, which the receiver decides on. -/
  | trait
  | function (function : ExecFunction) (environment : Nat) (typeArguments : List String)

/-- `resolveKIRCall`. The callee, if it is an expression, is evaluated. -/
def resolveKIRCall (e : KIRExecExpr) (callee : Option (KIRExecExpr × Exec ω Value)) :
    Exec ω Callee :=
  match callee with
  | some (place, evaluated) => do
    match ← evaluated with
    | .function id =>
      match ← Exec.reading fun data => data.closures[id]? with
      | some closure => return .function closure.function closure.environment closure.typeArguments
      | none => failAt place .artifact "KIR function value has no executor closure"
    | _ => failAt place .runtime "value is not callable"
  | none =>
    match cutTarget e.callTarget with
    | none => failAt e .artifact "KIR call has no target"
    | some ("builtin", _) => return .builtin
    | some ("trait", _) => return .trait
    | some ("function", target) =>
      match host.functions target with
      | some function => return .function function 0 e.genericArguments
      | none => failAt e .artifact
          ("KIR call references unknown function target " ++ quoted target)
    | some (kind, _) => failAt e .artifact ("KIR call uses unsupported target " ++ quoted kind)

/-- The receiver of a call, if it has one. -/
def evalReceiver : Option (Exec ω Value) → Exec ω (Option Value)
  | none => return none
  | some x => do
      let v ← x
      return some v

/-- A call from its operands. The receiver decides on the method of a trait. -/
def callWith (e : KIRExecExpr) (callee : Callee) (receiver : Option Value)
    (arguments : List Value) : Exec ω KIRExecCall :=
  match cutTarget e.callTarget, callee with
  | some ("trait", _), _ => do
      let (function, call) ← Exec.done (host.traitCall e receiver)
      return { call, function, environment := 0, receiver, arguments }
  | _, .function function environment genericArguments =>
      return { call := { e with genericArguments }, function, environment, receiver, arguments }
  | _, _ => Exec.stuck

/-- The operands of a call, once it is known what it refers to. -/
def callOperands (e : KIRExecExpr) (callee : Callee) (receiver : Option (Exec ω Value))
    (args : List (Exec ω Value)) : Exec ω KIRExecCall := do
  if host.maxCallDepth ≤ (← Exec.reading ExecData.calls) then
    failAt e .resource "call depth limit exceeded"
  else
    let receiver ← evalReceiver receiver
    let arguments ← Exec.all args
    callWith host e callee receiver arguments

variable (invoke : KIRExecCall → Exec ω Value)

/-- A call of a built-in function. -/
def evalBuiltin (e : KIRExecExpr) (receiver : Option (Exec ω Value))
    (args : List (Exec ω Value)) : Exec ω Value := do
  perform (host.builtinAllowed e receiver.isSome)
  let arguments ← Exec.all args
  match ← perform (host.builtin e arguments) with
  | .value v => return v
  | .dispatch call =>
    -- a handler that fails is a failed dispatch
    match ← (invoke call).attempt with
    | .ok v => return .result true v
    | .error d => return .result false (.string d.message)

/-- `evalKIRCall`. -/
def evalKIRCall (e : KIRExecExpr) (c : Children ω) : Exec ω Value := do
  match ← resolveKIRCall host e c.callee with
  | .builtin => evalBuiltin host invoke e c.receiver c.args
  | callee =>
      let call ← callOperands host e callee c.receiver c.args
      invoke call

/-- An expression, from the computations of its children. -/
def evalNode (e : KIRExecExpr) (scope : Nat) (lambda : ExecFunction) (binding : Option KIRBinding)
    (c : Children ω) : Exec ω Value :=
  match e.kind with
  | "int" | "float" | "bool" | "string" | "nil" => checkedValue host e e.literal
  | "enum" => builtValue host e []
  | "var" => do
      let v ← evalVar host e scope binding
      checkedValue host e v
  | "lambda" => do
      let v ← makeKIRClosure host e scope lambda
      checkedValue host e v
  | "unary" => do
      let v ← c.operand
      builtValue host e [v]
  | "binary" => do
      let left ← c.left
      if e.operator == "&&" || e.operator == "||" then evalLogical e left c.right
      else
        let right ← c.right
        builtValue host e [left, right]
  | "array" | "set" => do
      let items ← Exec.all c.items
      builtValue host e items
  | "map" => do
      let entries ← evalEntries host e (c.mapKeys.zip c.values) []
      builtValue host e (entries.flatMap fun entry => [entry.1, entry.2])
  | "struct" => evalStruct host e c.values
  | "index" => do
      let base ← c.base
      let index ← c.left
      builtValue host e [base, index]
  | "field" => do
      let base ← c.base
      builtValue host e [base]
  | "propagate" => do
      let inner ← c.operand
      evalPropagate host e scope inner
  | "call" => do
      let v ← evalKIRCall host invoke e c
      checkedValue host e v
  | _ => failAt e .runtime ("unsupported KIR expression kind " ++ e.kind)

/-- A pointer to an expression with its computation, if it is not nil. -/
def optional {α : Type} (e : ExecExpr) (x : α) : Option α :=
  match e with
  | .nil => none
  | _ => some x

mutual

/-- `kirExecutor.evalExpr`. -/
def evalExpr (scope : Nat) : ExecExpr → Exec ω Value
  | .nil => Exec.stuck
  | .node value left right operand base receiver callee lambda binding _ args items mapKeys
      values => do
    perform (host.step value.source value.line value.column)
    evalNode host invoke value scope lambda binding
      { left := evalExpr scope left
        right := evalExpr scope right
        operand := evalExpr scope operand
        base := evalExpr scope base
        receiver := optional receiver (evalExpr scope receiver)
        callee := optional callee (execScalarsOf callee, evalExpr scope callee)
        args := evalExprs scope args
        items := evalExprs scope items
        mapKeys := evalExprs scope mapKeys
        values := evalExprs scope values }

/-- The computations of some expressions. -/
def evalExprs (scope : Nat) : List ExecExpr → List (Exec ω Value)
  | [] => []
  | e :: es => evalExpr scope e :: evalExprs scope es

end

/-- The computations of the children of an expression. -/
def childrenOf (scope : Nat) : ExecExpr → Children ω
  | .nil => ⟨.stuck, .stuck, .stuck, .stuck, none, none, [], [], [], []⟩
  | .node _ left right operand base receiver callee _ _ _ args items mapKeys values =>
    let eval := evalExpr host invoke scope
    { left := eval left
      right := eval right
      operand := eval operand
      base := eval base
      receiver := optional receiver (eval receiver)
      callee := optional callee (execScalarsOf callee, eval callee)
      args := evalExprs host invoke scope args
      items := evalExprs host invoke scope items
      mapKeys := evalExprs host invoke scope mapKeys
      values := evalExprs host invoke scope values }

/-- `evalKIRTailCall`. -/
def evalKIRTailCall (scope : Nat) (call : ExecExpr) : Exec ω KIRExecFlow := do
  let e := execScalarsOf call
  let c := childrenOf host invoke scope call
  perform (host.step e.source e.line e.column)
  match ← resolveKIRCall host e c.callee with
  | .builtin =>
      let v ← evalKIRCall host invoke e c
      return .returned v
  | callee =>
      let tail ← callOperands host e callee c.receiver c.args
      return .tail tail

/-! ## Statements -/

/-- Evaluate an expression of a statement and go on with its value, unless a value waits to be
    returned. -/
def withValue (scope : Nat) (e : ExecExpr) (next : Value → Exec ω KIRExecFlow) :
    Exec ω KIRExecFlow :=
  (evalExpr host invoke scope e).orReturn next

/-- Evaluate a condition and go on. -/
def withBool (scope : Nat) (e : ExecExpr) (next : Bool → Exec ω KIRExecFlow) :
    Exec ω KIRExecFlow :=
  withValue host invoke scope e fun v =>
    match v with
    | .bool b => next b
    | _ => failAt (execScalarsOf e) .runtime "condition must be Bool"

/-- Ask the debugger whether to go on. -/
def debugging (scope : Nat) (s : KIRStmt) : Exec ω Unit := do
  if ← perform (host.debugStatement scope s) then return ()
  else Exec.fail .cli s.source s.line s.column "execution stopped by debugger"

/-- The debugger is asked before every round of a loop but the first. -/
def debuggingAgain (first : Bool) (scope : Nat) (s : KIRStmt) : Exec ω Unit :=
  if first then return () else debugging host scope s

variable (block : Nat → List ExecStmt → Exec ω KIRExecFlow)

/-- A block in a new scope. -/
def nested (scope : Nat) (body : List ExecStmt) : Exec ω KIRExecFlow := do
  let inner ← Exec.openScope (some scope)
  block inner body

/-- The rest of a `while` statement, of at most so many rounds. -/
def execWhile (scope : Nat) (s : KIRStmt) (cond : ExecExpr) (body : List ExecStmt) :
    Nat → Bool → Exec ω KIRExecFlow
  | 0, _ => Exec.stuck
  | n + 1, first => do
    debuggingAgain host first scope s
    perform (host.step s.source s.line s.column)
    withBool host invoke scope cond fun b => do
      if b then
        match ← nested block scope body with
        | .returned v => return .returned v
        | .tail call => return .tail call
        | .broke => return .normal .nil
        | .continued | .normal _ => execWhile scope s cond body n false
      else return .normal .nil

/-- One round of a `for` statement. -/
def forRound (scope : Nat) (s : KIRStmt) (e : KIRExecExpr) (binding : Option KIRBinding)
    (body : List ExecStmt) (item : Value) (first : Bool) : Exec ω KIRExecFlow := do
  let inner ← Exec.openScope (some scope)
  Exec.define inner binding item .runtime e.source e.line e.column
  debuggingAgain host first inner s
  block inner body

/-- The rest of a `for` statement. -/
def execFor (scope : Nat) (s : KIRStmt) (e : KIRExecExpr) (binding : Option KIRBinding)
    (body : List ExecStmt) : List Value → Bool → Exec ω KIRExecFlow
  | [], _ => return .normal .nil
  | item :: items, first => do
    match ← forRound host block scope s e binding body item first with
    | .returned v => return .returned v
    | .tail call => return .tail call
    | .broke => return .normal .nil
    | .continued | .normal _ => execFor scope s e binding body items false

/-- The arm of a match that fits, in a scope of its own. -/
def execArm (v : Value) (pattern : Mir.KIRPattern execScalars) (body : List ExecStmt)
    (inner : Nat) : Exec ω KIRExecFlow :=
  if pattern.value.bindingName != "" then
    match v.payload with
    | none =>
        Exec.fail .artifact pattern.value.source pattern.value.line pattern.value.column
          "KIR match binding has no payload"
    | some payload => do
        Exec.define inner pattern.resolvedBinding payload .artifact pattern.value.source
          pattern.value.line pattern.value.column
        block inner body
  else block inner body

/-- The arms of a match: the first one whose pattern fits is executed. -/
def execMatch (scope : Nat) (e : KIRExecExpr) (v : Value) : List ExecArm → Exec ω KIRExecFlow
  | [] => failAt e .runtime "no match arm matched"
  | .node _ (some pattern) body :: arms =>
    if matchPattern v { kind := pattern.value.kind } then do
      let inner ← Exec.openScope (some scope)
      execArm block v pattern body inner
    else execMatch scope e v arms
  | _ :: _ => Exec.stuck

/-- The value that `return e?` returns, in a function of a type. -/
def wrapReturned (type : String) (v : Value) : Value :=
  if "Option[".toList.isPrefixOf type.toList then .present v
  else if "Result[".toList.isPrefixOf type.toList then .result true v
  else v

/-- Return a value. `return e?` returns it as it was before. -/
def returnValue (s : KIRStmt) (e : KIRExecExpr) (v : Value) : Exec ω KIRExecFlow :=
  if e.kind == "propagate" then do
    match ← Exec.reading fun data => data.returnTypes.head? with
    | none =>
        Exec.fail .artifact s.source s.line s.column
          "KIR propagation return has no enclosing function type"
    | some type => return .returned (wrapReturned type v)
  else return .returned v

/-- `return`. -/
def execReturn (scope : Nat) (s : KIRStmt) : ExecExpr → Exec ω KIRExecFlow
  | .nil => return .returned .nil
  | call =>
    if (execScalarsOf call).kind == "call" && (execScalarsOf call).tail then
      Exec.beforeCall (evalKIRTailCall host invoke scope call)
    else withValue host invoke scope call (returnValue s (execScalarsOf call))

/-- The binding of a variable. -/
def bindingOf : ExecExpr → Option KIRBinding
  | .nil => none
  | .node _ _ _ _ _ _ _ _ binding .. => binding

/-- An assignment. Its target is looked up first. -/
def execAssign (scope : Nat) (target value : ExecExpr) : Exec ω KIRExecFlow := do
  let e := execScalarsOf target
  match ← Exec.reading fun data => do findBinding data scope (← bindingOf target) with
  | none => failAt e .runtime ("unknown binding '" ++ e.name ++ "'")
  | some (binding, cell) =>
    if !binding.mutable then
      failAt e .runtime ("immutable binding '" ++ e.name ++ "' cannot be assigned")
    else withValue host invoke scope value fun v => do
      Exec.changing fun data => { data with cells := data.cells.set cell v }
      return .normal .nil

/-- `kirExecutor.execStmt`. -/
def execStmt (rounds : Nat) (scope : Nat) : ExecStmt → Exec ω KIRExecFlow
  | .nil => Exec.stuck
  | .node s binding init expr target value cond iter ret scrutinee thenBody elseBody body arms =>
    match s.kind with
    | "let" | "const" => withValue host invoke scope init fun v => do
        Exec.define scope binding v .runtime s.source s.line s.column
        return .normal .nil
    | "assign" => execAssign host invoke scope target value
    | "expr" => withValue host invoke scope expr fun v => return .normal v
    | "if" => withBool host invoke scope cond fun b =>
        nested block scope (if b then thenBody else elseBody)
    | "while" => execWhile host invoke block scope s cond body rounds true
    | "for" => withValue host invoke scope iter fun v =>
        match forItems v with
        | none => failAt (execScalarsOf iter) .runtime "for expects Array, Set, String, or Bytes"
        | some items => execFor host block scope s (execScalarsOf iter) binding body items true
    | "break" => return .broke
    | "continue" => return .continued
    | "defer" => do
        Exec.addDeferred scope body
        return .normal .nil
    | "unsafe" => nested block scope body
    | "match" => withValue host invoke scope scrutinee fun v =>
        execMatch block scope (execScalarsOf scrutinee) v arms
    | "return" => execReturn host invoke scope s ret
    | kind => Exec.fail .runtime s.source s.line s.column
        ("unsupported KIR statement kind " ++ kind)

/-! ## Blocks -/

/-- Is it the statement of an expression? -/
def isExprStmt : ExecStmt → Bool
  | .node s _ _ (.node ..) .. => s.kind == "expr"
  | _ => false

/-- Show the value of a statement. -/
def displayFlow (s : KIRStmt) : Value → Exec ω Unit
  | .nil => return ()
  | v => do
      let text ← Exec.reading (host.displayValue · v)
      perform (host.emitOutput (text ++ "\n") s.source s.line s.column)

/-- How a block is executed: at the top level, and in the shell, which shows values. -/
structure BlockMode where
  topLevel : Bool := false
  repl : Bool := false

/-- What follows a statement in the shell. -/
def showStmt (mode : BlockMode) (stmt : ExecStmt) (s : KIRStmt) (flow : KIRExecFlow) :
    Exec ω Unit :=
  if mode.repl && isExprStmt stmt then displayFlow host s flow.value else return ()

/-- What follows a statement in the shell, and at the top level. -/
def afterStmt (mode : BlockMode) (stmt : ExecStmt) (s : KIRStmt) (flow : KIRExecFlow) :
    Exec ω Unit := do
  showStmt host mode stmt s flow
  if mode.topLevel then perform (host.contextFailure s.source s.line s.column)

/-- One statement of a block. -/
def blockStmt (rounds : Nat) (mode : BlockMode) (scope : Nat) : ExecStmt → Exec ω KIRExecFlow
  | .nil => Exec.stuck
  | stmt@(.node s ..) => do
    debugging host scope s
    perform (host.step s.source s.line s.column)
    let flow ← execStmt host invoke block rounds scope stmt
    afterStmt host mode stmt s flow
    return flow

/-- The statements of a block up to the first one that does not end normally. -/
def execStmts (rounds : Nat) (mode : BlockMode) (scope : Nat) :
    List ExecStmt → KIRExecFlow → Exec ω KIRExecFlow
  | [], flow => return flow
  | stmt :: rest, _ => do
    match ← blockStmt host invoke block rounds mode scope stmt with
    | .normal v => execStmts rounds mode scope rest (.normal v)
    | flow => return flow

/-- A deferred body, and what it failed with. -/
def ranBody (scope : Nat) (body : List ExecStmt) : Exec ω (Option ExecDiagnostic) := do
  let waiting ← Exec.waiting
  let result ← (nested block scope body).attempt
  Exec.record scope (.ran body waiting (failureOf result))
  return failureOf result

/-- Some deferred bodies. The first diagnostic is kept. -/
def execDefers (scope : Nat) :
    List (List ExecStmt) → Option ExecDiagnostic → Exec ω (Option ExecDiagnostic)
  | [], kept => return kept
  | body :: rest, kept => do
    let failure ← ranBody block scope body
    execDefers scope rest (kept.or failure)

/-- What a block ends with, from what its statements ended with and the diagnostic that was
    kept. -/
def blockResult (outcome : Except ExecDiagnostic KIRExecFlow) :
    Option ExecDiagnostic → Except ExecDiagnostic KIRExecFlow
  | some d => .error d
  | none => outcome

/-- Execute the deferred bodies of a block whose statements have ended, the last one first. -/
def leaveBlock (scope : Nat) (outcome : Except ExecDiagnostic KIRExecFlow) :
    Exec ω KIRExecFlow := do
  Exec.record scope (.ended outcome)
  let bodies ← Exec.deferredBodies scope
  let failure ← execDefers block scope bodies.reverse (failureOf outcome)
  Exec.record scope (.left (blockResult outcome failure))
  Exec.done (blockResult outcome failure)

/-- `kirExecutor.execBlock`. -/
def execBlock (rounds : Nat) (mode : BlockMode) (scope : Nat) (statements : List ExecStmt) :
    Exec ω KIRExecFlow := do
  let outcome ← (execStmts host invoke block rounds mode scope statements (.normal .nil)).attempt
  leaveBlock block scope outcome

/-! ## Functions -/

/-- The scalars of a function. -/
def functionScalars : ExecFunction → KIRFunction
  | .nil => default
  | .node f .. => f

/-- `kirExecRequiredParams`. -/
def requiredParams : List ExecParam → Nat
  | .node _ (.node ..) _ :: _ => 0
  | _ :: params => requiredParams params + 1
  | [] => 0

/-- Bind the parameters of a function. Those without an argument have the values of their
    defaults. -/
def bindParams (call : KIRExecExpr) (child : Nat) : List ExecParam → List Value → Exec ω Unit
  | [], _ => return ()
  | .node _ _ binding :: params, argument :: arguments => do
    Exec.define child binding argument .artifact call.source call.line call.column
    bindParams call child params arguments
  | .node p .nil _ :: _, [] =>
    failAt call .artifact ("KIR function call omits required parameter " ++ quoted p.name)
  | .node _ default binding :: params, [] => do
    let argument ← Exec.beforeCall (evalExpr host invoke child default)
    Exec.define child binding argument .artifact call.source call.line call.column
    bindParams call child params []
  | .nil :: _, _ => Exec.stuck

/-- The checks on the receiver of a call. -/
def checkReceiver (f : KIRFunction) (call : KIRExecCall) : Exec ω Unit :=
  if f.receiver != "" then do
    if ← Exec.reading fun data => call.receiver.any (host.valueMatchesType data · f.receiver) then
      return ()
    else failAt call.call .artifact ("KIR method receiver does not match " ++ quoted f.receiver)
  else if call.receiver.isSome then
    failAt call.call .artifact "KIR function call unexpectedly has a receiver"
  else return ()

/-- Bind the receiver of a method. -/
def bindReceiver (f : KIRFunction) (call : KIRExecCall) (child : Nat) : Exec ω Unit :=
  if f.receiver != "" then
    match host.selfBinding call.function, call.receiver with
    | some (some binding), some v =>
        Exec.define child (some binding) v .artifact call.call.source call.call.line
          call.call.column
    | some none, some _ => return ()
    | _, _ => failAt call.call .artifact "KIR method call has invalid receiver binding"
  else return ()

/-- The body of a function, once. -/
def enterFunction (call : KIRExecCall) : Exec ω KIRExecFlow :=
  match call.function with
  | .nil => Exec.stuck
  | .node f body params _ => do
    checkReceiver host f call
    if call.arguments.length < requiredParams params ||
        params.length < call.arguments.length then
      failAt call.call .artifact
        ("KIR function call has " ++ toString call.arguments.length ++ " arguments for " ++
          toString params.length ++ " parameters")
    else
      let child ← Exec.openScope (some call.environment)
      bindReceiver host f call child
      bindParams host invoke call.call child params call.arguments
      Exec.changing fun data => { data with returnTypes := f.ret :: data.returnTypes }
      let result ← (block child body).attempt
      Exec.changing fun data => { data with returnTypes := data.returnTypes.tail }
      match result with
      | .ok flow => return flow
      | .error d =>
          let frame : StackFrame := ⟨f.name, call.call.source, call.call.line, call.call.column⟩
          Exec.done (.error { d with stack := d.stack ++ [frame] })

/-- What the body of a function ends with as its result. -/
def functionResult (call : KIRExecCall) (flow : KIRExecFlow) : Exec ω Value := do
  let f := functionScalars call.function
  let ret ← Exec.reading fun data => host.instantiate data.typeArgs f.ret
  match flow with
  | .returned v =>
    if ← Exec.reading (host.valueMatchesType · v ret) then return v
    else
      failAt call.call .artifact
        ("KIR function returned a value that does not match " ++ quoted f.ret)
  | _ =>
    if ret != "Nil" then
      Exec.fail .artifact f.source f.line f.column
        ("KIR function " ++ quoted f.name ++ " completed without returning " ++ quoted f.ret)
    else return .nil

/-- The loop of `invokeKIR`, of at most so many rounds: a tail call takes the place of the call.
    Does the call have a frame of type arguments? -/
def invokeLoop : Nat → KIRExecCall → Bool → Exec ω Value
  | 0, _, _ => Exec.stuck
  | n + 1, call, framed => do
    match ← enterFunction host invoke block call with
    | .tail next =>
      match ← Exec.reading fun data =>
          host.typeArguments data.typeArgs next.call next.function next.receiver with
      | none => failAt next.call .artifact ("KIR tail call has invalid generic arguments for " ++
          quoted (functionScalars next.function).name)
      | some arguments =>
        if framed then
          Exec.changing fun data => { data with typeArgs := data.typeArgs.dropLast ++ [arguments] }
          invokeLoop n next true
        else if arguments.isEmpty then invokeLoop n next false
        else
          Exec.changing fun data => { data with typeArgs := data.typeArgs ++ [arguments] }
          invokeLoop n next true
    | flow => functionResult host call flow

/-- `kirExecutor.invokeKIR`. -/
def invokeKIR (rounds : Nat) (call : KIRExecCall) : Exec ω Value := do
  Exec.noteCall
  if host.maxCallDepth ≤ (← Exec.reading ExecData.calls) then
    failAt call.call .resource "call depth limit exceeded"
  else
    let saved ← Exec.reading ExecData.typeArgs
    match host.typeArguments saved call.call call.function call.receiver with
    | none => failAt call.call .artifact ("KIR call has invalid generic arguments for " ++
        quoted (functionScalars call.function).name)
    | some arguments =>
      Exec.changing fun data =>
        { data with
          calls := data.calls + 1
          typeArgs := if arguments.isEmpty then saved else saved ++ [arguments] }
      let result ← (invokeLoop host invoke block rounds call !arguments.isEmpty).attempt
      Exec.changing fun data => { data with calls := data.calls - 1, typeArgs := saved }
      Exec.done result

/-! ## Programs -/

/-- Blocks and calls, to some depth. -/
structure Levels (ω : Type) where
  block : Nat → List ExecStmt → Exec ω KIRExecFlow
  invoke : KIRExecCall → Exec ω Value

/-- The executor for blocks and calls nested, and loops repeated, at most so many times. -/
def levels : Nat → Levels ω
  | 0 =>
    { block := fun _ _ => Exec.stuck
      invoke := fun _ => do
        Exec.noteCall
        Exec.stuck }
  | n + 1 =>
    { block := execBlock host (levels n).invoke (levels n).block n {}
      invoke := invokeKIR host (levels n).invoke (levels n).block n }

/-- What is executed of a document: its statements, or else the function `main`. -/
inductive Entry where
  | statements (statements : List ExecStmt)
  | main (call : KIRExecCall)

/-- The call of `main`, whose error is one of the program. -/
def executeMain (levels : Levels ω) (call : KIRExecCall) : Exec ω Unit := do
  let f := functionScalars call.function
  let v ← levels.invoke call
  perform (host.contextFailure f.source f.line f.column)
  match v with
  | .result false inner =>
      let text ← Exec.reading (host.displayValue · inner)
      Exec.fail .runtime f.source f.line f.column ("main returned error: " ++ text)
  | _ => return ()

/-- `executeKIRWithOptions`, of a document that was accepted. -/
def execute (bound : Nat) (repl : Bool) : Entry → Exec ω Unit
  | .statements statements => do
      let _ ← execBlock host (levels host bound).invoke (levels host bound).block bound
        { topLevel := true, repl } 0 statements
  | .main call => executeMain host (levels host bound) call

/-- The state that a program starts from: there is one scope, the global one. -/
def initialState (data : ExecData ω) : ExecState ω where
  data := data

end Kryndel.KIRExec
