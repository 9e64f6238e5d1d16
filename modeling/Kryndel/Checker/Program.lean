import Kryndel.Checker.Check

/-!
# Checking a program

The check of functions and of whole programs. The environment of declared types and
functions is given: building it from the declarations is the business of another
pass, and the checks here work over any environment.
-/

namespace Kryndel

/-! ## Calls in a tree -/

mutual

/-- The call nodes in an expression, those in closure bodies included. -/
def Expr.calls : Expr → List Expr
  | .unary _ _ operand | .propagate _ operand => operand.calls
  | .binary _ _ left right => left.calls ++ right.calls
  | .call i callee args ref => .call i callee args ref :: (exprsCalls args ++ callee.calls)
  | .method i receiver name args ref =>
      .method i receiver name args ref :: (exprsCalls args ++ receiver.calls)
  | .array _ items | .set _ items => exprsCalls items
  | .index _ base left => left.calls ++ base.calls
  | .field _ base _ _ => base.calls
  | .struct _ _ _ values _ => exprsCalls values
  | .map _ keys values => exprsCalls values ++ exprsCalls keys
  | .lambda _ _ body _ => stmtsCalls body
  | .int _ _ | .float _ _ | .bool _ _ | .nil _ | .string _ _ | .var _ _ _ | .enum _ _ _ _ => []

/-- The call nodes in some expressions. -/
def exprsCalls : List Expr → List Expr
  | [] => []
  | e :: es => e.calls ++ exprsCalls es

/-- The call nodes in a statement. -/
def Stmt.calls : Stmt → List Expr
  | .letStmt _ init => init.calls
  | .exprStmt _ e => e.calls
  | .assign _ target value => target.calls ++ value.calls
  | .ifStmt _ cond thenBody elseBody => cond.calls ++ stmtsCalls thenBody ++ stmtsCalls elseBody
  | .whileStmt _ cond body => cond.calls ++ stmtsCalls body
  | .forStmt _ iter body => iter.calls ++ stmtsCalls body
  | .returnStmt _ none | .breakStmt _ | .continueStmt _ => []
  | .returnStmt _ (some e) => e.calls
  | .deferStmt _ body | .unsafeStmt _ body => stmtsCalls body
  | .matchStmt _ scrutinee arms => scrutinee.calls ++ armsCalls arms

/-- The call nodes in some statements. -/
def stmtsCalls : List Stmt → List Expr
  | [] => []
  | s :: rest => s.calls ++ stmtsCalls rest

/-- The call nodes in the arms of a match. -/
def armsCalls : List MatchArm → List Expr
  | [] => []
  | .mk _ body :: rest => stmtsCalls body ++ armsCalls rest

end

/-- The name and the arguments of a call node. -/
def Expr.callParts : Expr → String × List Expr
  | .call _ callee args _ => (callee.calleeName, args)
  | .method _ _ name args _ => (name, args)
  | _ => ("", [])

/-- The function a call node starts as a worker, as `Checker.walkExpr` finds it. -/
def Expr.spawned (e : Expr) : Option String :=
  let (name, args) := e.callParts
  let position := if name == "task_spawn" then 1 else 0
  if name == "thread_spawn" || name == "task_spawn" then
    match args[position]? with
    | some (Expr.string _ worker) => some worker
    | _ => none
  else none

/-- `calledFunctions`. -/
def calledFunctions (body : List Stmt) : List String :=
  (stmtsCalls body).map fun e => e.callParts.1

/-- One round of the loop of `Checker.markWorkers`. -/
def markCalled (functions : List Function) (marked : List String) : List String :=
  functions.foldl (fun marked f =>
    if marked.contains f.name then marked ++ (calledFunctions f.body).filter (!marked.contains ·)
    else marked) marked

/-- `Checker.markWorkers`: the functions that workers run, directly or through calls.
    A round that marks no function is the last one that changes anything, so there
    are no more rounds than functions. -/
def markWorkers (p : Program) : Program :=
  let spawned := (stmtsCalls p.statements ++ p.functions.flatMap fun f => stmtsCalls f.body).filterMap
    Expr.spawned
  let marked := (List.range (p.functions.length + 1)).foldl
    (fun marked _ => markCalled p.functions marked) spawned
  { p with functions := p.functions.map fun f => { f with worker := marked.contains f.name } }

/-! ## Functions -/

/-- The type parameters a function declares. -/
def declareTypeParams : List TypeParam → TypeParams → Except Diagnostic TypeParams
  | [], typeParams => .ok typeParams
  | p :: ps, typeParams =>
      if (typeParams.lookup p.name).isSome then
        .error (p.tok.typeError ("type parameter '" ++ p.name ++ "' is duplicated"))
      else declareTypeParams ps ((p.name, .generic p.name p.constraint) :: typeParams)

/-- The type parameters a receiver names: one for each parameter of its struct. -/
def receiverTypeParams : List (TypeSpec × TypeParam) → TypeParams → Except Diagnostic TypeParams
  | [], typeParams => .ok typeParams
  | (.named name [] tok, p) :: rest, typeParams =>
      if (typeParams.lookup name).isSome then
        .error (tok.typeError ("receiver type parameter '" ++ name ++
          "' conflicts with a method type parameter"))
      else receiverTypeParams rest ((name, .generic name p.constraint) :: typeParams)
  | _ :: rest, typeParams => receiverTypeParams rest typeParams

/-- The struct that a function's receiver names. -/
def receiverStruct (env : TypeEnv) (f : Function) : Option (List TypeSpec × Token × StructDecl) :=
  match f.receiver with
  | some (.named name params tok) => (env.structDecl name).map fun decl => (params, tok, decl)
  | _ => none

/-- The constraints a struct's own parameters may have. -/
def plainConstraint (constraint : String) : Bool :=
  ["", "Any", "Copy", "Integer", "Numeric", "Comparable"].contains constraint

/-- The type parameters in scope in a function. -/
def functionTypeParams (env : TypeEnv) (f : Function) : Except Diagnostic TypeParams := do
  let own ← declareTypeParams f.typeParams []
  let typeParams ← match receiverStruct env f with
    | some (params, tok, decl) =>
        if params.length ≠ decl.typeParams.length then
          .error (tok.typeError ("impl receiver for '" ++ decl.name ++ "' must provide " ++
            toString decl.typeParams.length ++ " type argument(s)"))
        else receiverTypeParams (params.zip decl.typeParams) own
    | none => .ok own
  match f.typeParams.find? fun p => !knownTypeConstraint env p.constraint with
  | some p => .error (p.tok.typeError ("unknown type constraint '" ++ p.constraint ++ "'"))
  | none =>
      match (receiverStruct env f).bind fun r =>
          r.2.2.typeParams.find? fun p => !plainConstraint p.constraint with
      | some p => .error (p.tok.typeError ("unknown type constraint '" ++ p.constraint ++ "'"))
      | none => .ok typeParams

/-- A type that a signature writes, if code of the function's visibility may name it. -/
def signatureType (env : TypeEnv) (f : Function) (typeParams : TypeParams) (spec : TypeSpec)
    (tok : Token) : Except Diagnostic Ty := do
  let t ← resolveSpec env typeParams 0 spec
  let hidden := inaccessibleTypeName env f.visibilityScope t
  if hidden != "" then .error (tok.typeError ("type '" ++ hidden ++ "' is private"))
  else .ok t

/-- The types of a function's parameters; `names` are bound already. -/
def paramTypes (env : TypeEnv) (f : Function) (typeParams : TypeParams) :
    List Param → List String → Except Diagnostic (List Ty)
  | [], _ => .ok []
  | p :: ps, names => do
      let t ← signatureType env f typeParams p.type p.tok
      if names.contains p.name then
        .error (p.tok.typeError ("parameter '" ++ p.name ++ "' is duplicated"))
      else
        let ts ← paramTypes env f typeParams ps (p.name :: names)
        return t :: ts

/-- The part of `Checker.checkFunction` before the defaults: the type parameters, the
    receiver's type and the parameters' types. -/
def functionHeader (env : TypeEnv) (f : Function) :
    Except Diagnostic (TypeParams × Option Ty × List Ty) := do
  let typeParams ← functionTypeParams env f
  match f.receiver with
  | none =>
      let types ← paramTypes env f typeParams f.params []
      return (typeParams, none, types)
  | some spec =>
      let receiver ← signatureType env f typeParams spec spec.tok
      let types ← paramTypes env f typeParams f.params ["self"]
      return (typeParams, some receiver, types)

/-- The part of `Checker.checkFunction` after the defaults: the result type, and what a
    public function exposes. -/
def functionReturn (env : TypeEnv) (f : Function) (typeParams : TypeParams) (types : List Ty) :
    Except Diagnostic Ty := do
  let rt ← signatureType env f typeParams f.ret f.ret.tok
  match (f.params.zip types).find? fun p => f.isPublic && !ensurePublicType env p.2 with
  | some (p, _) =>
      .error (p.tok.typeError ("public function '" ++ f.name ++ "' exposes a private type"))
  | none =>
      if f.isPublic && !ensurePublicType env rt then
        .error (f.tok.typeError ("public function '" ++ f.name ++ "' exposes a private return type"))
      else .ok rt

/-- The scope pointer of `Checker.Globals`. -/
def globalScope : ScopeRef := [0]

/-- A scope of a function: under the globals, with the function's module. -/
def openFunction (f : Function) : CheckM ScopeRef := do
  let scope ← openScope globalScope f.worker
  modify fun st => { st with
    scopes := st.scopes.update scope fun r =>
      { r with module := f.module, visibilityScope := f.visibilityScope } }
  return scope

/-- Bind `self`. -/
def bindReceiver (scope : ScopeRef) (f : Function) (receiver : Option Ty) : CheckM Unit := do
  match receiver with
  | some t => declare scope "self" { type := t, token := f.tok }
  | none => return

/-- Bind parameters. -/
def bindParams (scope : ScopeRef) : List (Param × Ty) → CheckM Unit
  | [] => return
  | (p, t) :: rest => do
      declare scope p.name { type := t, token := p.tok }
      bindParams scope rest

section Program

variable (env : CheckEnv) (self : Checking)

/-- The default of one parameter, checked in a scope with the parameters before it. -/
def checkDefault (scope : ScopeRef) (p : Param) (t : Ty) : CheckM (Param × Option Diagnostic) := do
  match p.default with
  | none => return (p, none)
  | some e =>
      let (e, found) ← self.expr scope e (some t)
      let p := { p with default := some e }
      match found with
      | .error d => return (p, some d)
      | .ok found =>
          if compatible t found then return (p, none)
          else return (p, some (e.tok.typeError ("default value for parameter '" ++ p.name ++
            "' expected " ++ t.text ++ ", found " ++ found.text)))

/-- The defaults of a function's parameters. -/
def checkDefaults (scope : ScopeRef) : List (Param × Ty) → CheckM (List Param × Option Diagnostic)
  | [] => return ([], none)
  | (p, t) :: rest => do
      match ← checkDefault self scope p t with
      | (p, some d) => return (p :: rest.map (·.1), some d)
      | (p, none) =>
          declare scope p.name { type := t, token := p.tok }
          let (ps, d) ← checkDefaults scope rest
          return (p :: ps, d)

/-- The body of a function. -/
def checkFunctionBody (scope : ScopeRef) (f : Function) (rt : Ty) :
    CheckM (Function × Option Diagnostic) := do
  modify fun st => { st with currentReturn := some rt }
  let (body, flow) ← self.block scope f.body { rt := rt, inFn := true }
  modify fun st => { st with currentReturn := none, currentFunction := none }
  let f := { f with body := body }
  if flow.hasError then return (f, some ((← get).err.getD default))
  else if (match rt with | .nil => false | _ => true) && !flow.mustReturn then
    return (f, some (f.tok.typeError ("function must return " ++ rt.text ++ "; '" ++ f.name ++
      "' may finish without returning")))
  else return (f, none)

/-- `Checker.checkFunction`, for the function at a position of the program. -/
def checkFunction (f : Function) (index : Nat) : CheckM (Function × Option Diagnostic) := do
  let scope ← openFunction f
  let defaultScope ← openFunction f
  let previous := (← get).typeParams
  match functionHeader env.toTypeEnv f with
  | .error d => return (f, some d)
  | .ok (typeParams, receiver, types) =>
      modify fun st =>
        { st with currentFunction := some (.top index), typeParams := typeParams }
      bindReceiver scope f receiver
      bindReceiver defaultScope f receiver
      bindParams scope (f.params.zip types)
      match ← checkDefaults self defaultScope (f.params.zip types) with
      | (params, some d) => return ({ f with params := params }, some d)
      | (params, none) =>
          let f := { f with params := params }
          match functionReturn env.toTypeEnv f typeParams types with
          | .error d => return (f, some d)
          | .ok rt =>
              let r ← checkFunctionBody self scope f rt
              modify fun st => { st with typeParams := previous }
              return r

/-- The loop of `Check` over the functions. -/
def checkFunctions : List Function → Nat → CheckM (List Function × Option Diagnostic)
  | [], _ => return ([], none)
  | f :: fs, index => do
      match ← checkFunction env self f index with
      | (f, some d) => return (f :: fs, some d)
      | (f, none) =>
          let (fs, d) ← checkFunctions fs (index + 1)
          return (f :: fs, d)

/-- Is a top-level declaration of this type visible in functions? -/
def globalType (isConst : Bool) : Ty → Bool
  | .channel _ | .shared _ => true
  | _ => isConst

/-- The loop of `Check` over the top-level declarations that functions can see: the
    annotated constants, channels and shared values. -/
def declareGlobals : List Stmt → List (String × Binding) →
    Except Diagnostic (List (String × Binding))
  | [], values => .ok values
  | .letStmt info _ :: rest, values =>
      match info.annotationSpec with
      | none => declareGlobals rest values
      | some spec => do
          let t ← resolveSpec env.toTypeEnv [] 0 spec
          if globalType info.isConst t then
            if (values.lookup info.name).isSome then
              .error (info.tok.typeError
                ("binding '" ++ info.name ++ "' is already defined in this scope"))
            else declareGlobals rest ((info.name,
              { type := t, token := info.nameToken, mutable := info.mutable
                isConst := info.isConst, isGlobal := true }) :: values)
          else declareGlobals rest values
  | _ :: rest, values => declareGlobals rest values

/-- The state `Check` starts from. -/
def startState (p : Program) (globals : List (String × Binding)) : CheckState :=
  { scopes := [{ values := globals, module := p.module, visibilityScope := p.visibilityScope }] }

/-- The part of `Check` after the globals. -/
def checkProgram (p : Program) : CheckM (Program × Option Diagnostic) := do
  match ← checkFunctions env self p.functions 0 with
  | (functions, some d) => return ({ p with functions := functions }, some d)
  | (functions, none) =>
      let top ← openScope globalScope false
      let (statements, flow) ← self.block top p.statements { rt := .nil }
      let p := { p with functions := functions, statements := statements }
      if flow.hasError then return (p, some ((← get).err.getD default))
      else return (p, none)

end Program

/-- `Check`, in a given environment: the checked program and the scopes it points to. -/
def check [FloatArith] (env : CheckEnv) (depth : Nat) (p : Program) :
    Except Diagnostic (Program × Scopes) := do
  let p := markWorkers p
  let globals ← declareGlobals env p.statements []
  let ((p, failed), st) := checkProgram env (checking env depth) p (startState p globals)
  match failed <|> st.err with
  | some d => .error d
  | none => .ok (p, st.scopes)

end Kryndel
