import Kryndel.Checker.Typing
import Kryndel.Checker.Fold
import Kryndel.Checker.Scope
import Kryndel.Match.Exhaustive

/-!
# The checker

The passes over expressions, closures, statements and functions. The program
writes its findings into the tree it checks, also when an attempt fails and the
same subtree is checked again for another overload; here every pass returns the
tree it leaves behind next to its result.

The passes call each other through `Checking`, a record of the two that recurse
on subtrees. `checking n` ties the knot `n` levels deep. Running out of levels
counts as an error, so a tree deeper than the bound is never accepted.
-/

namespace Kryndel

/-! ## State -/

/-- The mutable part of `Checker`. `captures` are those recorded on the closure
    named by `currentLambda`. -/
structure CheckState where
  scopes : Scopes := []
  typeParams : TypeParams := []
  err : Option Diagnostic := none
  currentReturn : Option Ty := none
  currentFunction : Option FunctionRef := none
  currentLambda : Option FunctionRef := none
  captures : List Capture := []
deriving Inhabited

/-- Computations of the checker. -/
abbrev CheckM := StateM CheckState

namespace CheckM

variable {α β : Type}

@[simp] theorem bind_run (m : CheckM α) (f : α → CheckM β) (st : CheckState) :
    (m >>= f) st = f (m st).1 (m st).2 := rfl

@[simp] theorem pure_run (a : α) (st : CheckState) : (pure a : CheckM α) st = (a, st) := rfl

@[simp] theorem get_run (st : CheckState) : (get : CheckM CheckState) st = (st, st) := rfl

@[simp] theorem set_run (st st' : CheckState) : (set st' : CheckM PUnit) st = ((), st') := rfl

@[simp] theorem modify_run (f : CheckState → CheckState) (st : CheckState) :
    (modify f : CheckM PUnit) st = ((), f st) := rfl

@[simp] theorem ite_run (c : Prop) [Decidable c] (m n : CheckM α) (st : CheckState) :
    (if c then m else n) st = if c then m st else n st := by
  split <;> rfl

end CheckM

/-- `Flow`. -/
structure Flow where
  mustReturn : Bool := false
  mayFallthrough : Bool := false
  mayBreak : Bool := false
  mayContinue : Bool := false
  reachable : Bool := false
  hasError : Bool := false
deriving DecidableEq, Repr, Inhabited

/-- `normalFlow`. -/
def normalFlow : Flow := { mayFallthrough := true, reachable := true }

/-- `returnFlow`. -/
def returnFlow : Flow := { mustReturn := true, reachable := true }

/-- The arguments that a block passes on to its statements. -/
structure BlockContext where
  rt : Ty
  loop : Nat := 0
  inFn : Bool := false

/-- The two passes that recurse on subtrees. -/
structure Checking where
  expr : ScopeRef → Expr → Option Ty → CheckM (Expr × Typed)
  block : ScopeRef → List Stmt → BlockContext → CheckM (List Stmt × Flow)

/-- `c.Err = d`. -/
def setErr (d : Diagnostic) : CheckM Unit := modify fun st => { st with err := some d }

/-- `NewScope`. -/
def openScope (parent : ScopeRef) (worker : Bool) : CheckM ScopeRef := do
  let st ← get
  let (scope, scopes) := st.scopes.newScope parent worker
  set { st with scopes := scopes }
  return scope

/-- A nested scope of the same worker mode. -/
def openBlock (parent : ScopeRef) : CheckM ScopeRef := do
  openScope parent ((← get).scopes.top parent).worker

/-- `sc.Values[name] = binding`. -/
def declare (sc : ScopeRef) (name : String) (b : Binding) : CheckM Unit :=
  modify fun st => { st with scopes := st.scopes.define sc name b }

/-! ## Captures -/

/-- `captureIdentity`, before it is printed. -/
def captureIdentity (token : Token) (name : String) : String × Nat × String :=
  (token.source, token.start, name)

/-- `addCapture`. -/
def addCapture (captures : List Capture) (capture : Capture) : List Capture :=
  if captures.any fun c =>
      captureIdentity c.token c.name == captureIdentity capture.token capture.name then captures
  else captures ++ [capture]

/-- A capture of a nested closure is one of its enclosing closure as well if the owner
    lies outside the enclosing closure. -/
def propagateCapture (h : Scopes) (outer : ScopeRef) (enclosing : Option FunctionRef)
    (captures : List Capture) (capture : Capture) : List Capture :=
  match h.lookupOwner outer capture.name with
  | some (_, owner) =>
      if (h.top owner).lambda != enclosing then addCapture captures capture else captures
  | none => captures

/-- The captures of the enclosing closure after a nested one. -/
def propagateCaptures (h : Scopes) (outer : ScopeRef) (enclosing : Option FunctionRef)
    (nested captures : List Capture) : List Capture :=
  nested.foldl (propagateCapture h outer enclosing) captures

/-! ## Expressions -/

section Expressions

variable (env : CheckEnv) (self : Checking)

/-- Run a typing rule on a node's subexpressions. -/
def runRule (sc : ScopeRef) {α : Type} : Rule α → List Expr → Resolution →
    CheckM (α × List Expr × Resolution)
  | .pure a, children, ref => return (a, children, ref)
  | .child i expected next, children, ref => do
      match children[i]? with
      | none =>
          -- a rule only names subexpressions its node has
          setErr default
          runRule sc (next (.error default)) children ref
      | some c =>
          let (c, t) ← self.expr sc c expected
          runRule sc (next t) (children.set i c) ref
  | .getTypeParams next, children, ref => do
      runRule sc (next (← get).typeParams) children ref
  | .setTypeParams typeParams next, children, ref => do
      modify fun st => { st with typeParams := typeParams }
      runRule sc next children ref
  | .annotate f next, children, ref => runRule sc next children (f ref)
  | .view next, children, ref => do
      let st ← get
      let record := st.scopes.top sc
      let v : ScopeView :=
        { has := st.scopes.has sc
          worker := record.worker
          visibilityScope := record.visibilityScope
          currentReturn := st.currentReturn }
      runRule sc (next v) children ref

/-- Run the rule of a node and put the node together again. -/
def checkByRule (sc : ScopeRef) (e : Expr) (expected : Option Ty) : CheckM (Expr × Typed) := do
  let (t, children, ref) ← runRule self sc (typingRule env e expected) e.children e.resolution
  return ((e.withChildren children).withResolution ref, t)

/-- Is a binding of the scope `owner` in the environment of an enclosing closure? -/
def capturing (st : CheckState) (sc owner : ScopeRef) : Bool :=
  (st.scopes.top sc).lambda.isSome && (st.scopes.top owner).lambda != (st.scopes.top sc).lambda &&
    st.currentLambda.isSome

/-- Is a global of this type available to workers? -/
def sharedType : Ty → Bool
  | .channel _ | .shared _ => true
  | _ => false

/-- The type of a variable: its binding's, unless a worker cannot use it. -/
def varType (record : ScopeRecord) (tok : Token) (name : String) (b : Binding) : Typed :=
  if record.worker && b.isGlobal && !sharedType b.type then
    .error (tok.typeError
      ("global binding '" ++ name ++ "' is not available in a worker-safe function"))
  else .ok b.type

/-- `ExVar`, for a name that is bound in a scope. A binding of an enclosing closure's
    environment is recorded as a capture of the current closure. -/
def checkVar (sc : ScopeRef) (info : ExprInfo) (name : String) (ref : Resolution) (b : Binding)
    (owner : ScopeRef) : CheckM (Expr × Typed) := do
  let st ← get
  let capture : Capture := { name := name, type := b.type, mutable := b.mutable, token := b.token }
  set { st with
    captures := if capturing st sc owner then addCapture st.captures capture else st.captures }
  return (.var info name { ref with definition := some b.token },
    varType (st.scopes.top sc) info.tok name b)

/-- The parameters of a closure, bound in its scope. -/
def bindClosureParams (scope : ScopeRef) : List (ParamSig × Ty) → CheckM (Option Diagnostic)
  | [] => return none
  | (p, t) :: rest => do
      if (← get).scopes.isLocal scope p.name then
        return some (p.tok.typeError ("closure parameter '" ++ p.name ++ "' is duplicated"))
      else
        declare scope p.name { type := t, token := p.tok }
        bindClosureParams scope rest

/-- The scope of a closure. -/
def openClosure (outer : ScopeRef) : CheckM ScopeRef := do
  let scope ← openBlock outer
  modify fun st => { st with
    scopes := st.scopes.update scope fun r => { r with lambda := some (.closure scope) } }
  return scope

/-- The type a closure's signature declares, if its context allows it. -/
def closureType (typeParams : TypeParams) (tok : Token) (sig : FunctionSig)
    (expected : Option Ty) : Except Diagnostic (List Ty × Ty) :=
  match expected with
  | some (.function _ _) | none => do
      let params ← resolveSpecs env.toTypeEnv typeParams 0 (sig.params.map (·.type))
      let ret ← resolveSpec env.toTypeEnv typeParams 0 sig.ret
      if expected.all (compatible · (.function params ret)) then return (params, ret)
      else throw (tok.typeError ("closure expected " ++ (expected.getD .error).text ++ ", found " ++
        (Ty.function params ret).text))
  | some t => throw (tok.typeError ("closure has function type, not " ++ t.text))

/-- Why a closure whose body was checked is not accepted, if it is not. -/
def closureFailure (after : CheckState) (sig : FunctionSig) (ret : Ty) (flow : Flow) :
    Option Diagnostic :=
  if flow.hasError then some (after.err.getD default)
  else if (match ret with | .nil => false | _ => true) && !flow.mustReturn then
    some (sig.tok.typeError ("closure must return " ++ ret.text ++ " on every path"))
  else none

/-- The body of a closure: checked in the closure's scope as the current closure. The
    result is the body, its captures, and what went wrong. -/
def checkClosureBody (outer scope : ScopeRef) (sig : FunctionSig) (body : List Stmt)
    (captures : List Capture) (ret : Ty) : CheckM (List Stmt × List Capture × Option Diagnostic) := do
  let before ← get
  set { before with
    currentReturn := some ret, currentFunction := some (.closure scope)
    currentLambda := some (.closure scope), captures := captures }
  let (body, flow) ← self.block scope body { rt := ret, loop := 0, inFn := true }
  let after ← get
  let failure := closureFailure after sig ret flow
  -- captures that come from outside the enclosing closure are recorded there as well
  let outerCaptures := if before.currentLambda.isSome && failure.isNone then
      propagateCaptures after.scopes outer before.currentLambda after.captures before.captures
    else before.captures
  set { after with
    currentReturn := before.currentReturn, currentFunction := before.currentFunction
    currentLambda := before.currentLambda, captures := outerCaptures }
  return (body, after.captures, failure)

/-- `Checker.checkLambda`. -/
def checkLambda (outer : ScopeRef) (info : ExprInfo) (sig : FunctionSig) (body : List Stmt)
    (captures : List Capture) (expected : Option Ty) : CheckM (Expr × Typed) := do
  match closureType env (← get).typeParams info.tok sig expected with
  | .error d => return (.lambda info sig body captures, .error d)
  | .ok (params, ret) =>
      let scope ← openClosure outer
      match ← bindClosureParams scope (sig.params.zip params) with
      | some d => return (.lambda info sig body captures, .error d)
      | none =>
          let (body, captures, failed) ← checkClosureBody self outer scope sig body captures ret
          match failed with
          | some d => return (.lambda info sig body captures, .error d)
          | none => return (.lambda info sig body captures, .ok (.function params ret))

/-- What `Checker.checkExpr` does at its end: a node whose check succeeded keeps its
    type, and its value if it is constant. -/
def finishExpr [FloatArith] (r : Expr × Typed) : Expr × Typed :=
  match r with
  | (e, .error d) => (e, .error d)
  | (e, .ok t) => (foldConstExpr (e.withInfo { e.info with type := some t }), .ok t)

/-- The check of a node that has no type yet. -/
def checkNode (sc : ScopeRef) (e : Expr) (expected : Option Ty) : CheckM (Expr × Typed) := do
  match e with
  | .var info name ref =>
      match (← get).scopes.lookupOwner sc name with
      | some (b, owner) => checkVar sc info name ref b owner
      | none => checkByRule env self sc (.var info name ref) expected
  | .lambda info sig body captures => checkLambda env self sc info sig body captures expected
  | e => checkByRule env self sc e expected

/-- A variable takes on the scope of every visit. -/
def Expr.visit (sc : ScopeRef) : Expr → Expr
  | .var info name ref => .var info name { ref with scope := some sc }
  | e => e

/-- `Checker.checkExpr`. A node that has its type is not checked again. -/
def checkExpr [FloatArith] (sc : ScopeRef) (e : Expr) (expected : Option Ty) :
    CheckM (Expr × Typed) := do
  match e.type with
  | some t => return (e.visit sc, .ok t)
  | none => return finishExpr (← checkNode env self sc (e.visit sc) expected)

end Expressions

/-! ## Statements -/

mutual

/-- `constantExpr`. -/
def constantExpr : Expr → Bool
  | .int _ _ | .float _ _ | .bool _ _ | .nil _ | .string _ _ | .enum _ _ _ _ => true
  | .unary _ _ operand => constantExpr operand
  | .binary _ _ left right => constantExpr left && constantExpr right
  | .array _ items | .set _ items => constantExprs items
  | .map _ keys values => constantExprs keys && constantExprs values
  | .struct _ _ _ values _ => constantExprs values
  | _ => false

/-- Is every expression of a list constant? -/
def constantExprs : List Expr → Bool
  | [] => true
  | e :: es => constantExpr e && constantExprs es

end

/-- `patternBinding`. -/
def patternBinding (t : Ty) (p : Pattern) : Option Ty :=
  match p.kind, t with
  | .option _, .option a => some a
  | .result ok, .result a b => some (if ok then a else b)
  | _, _ => none

/-- `missingEnumVariants`. -/
def missingEnumVariants (env : TypeEnv) (t : Ty) (arms : List MatchArm) : List String :=
  match t with
  | .enum name =>
      if arms.any fun arm => arm.pattern.kind == .wildcard then []
      else
        match env.enumDecl name with
        | none => []
        | some decl => decl.variants.filter fun variant =>
            !arms.any fun arm => match arm.pattern.kind with
              | .enum _ found => found == variant
              | _ => false
  | _ => []

/-- Why a match is not accepted, if it is not: a `nil` pattern over a `Result`, or
    missing coverage. -/
def matchError (env : TypeEnv) (tok : Token) (t : Ty) (arms : List MatchArm) :
    Option Diagnostic :=
  let nilOverResult : Option MatchArm := match t with
    | .result _ _ => arms.find? fun arm => arm.pattern.kind == .nil
    | _ => none
  match nilOverResult with
  | some arm => some (arm.pattern.tok.typeError "nil pattern does not match Result")
  | none =>
      if exhaustive env t arms then none
      else
        let label := match t with
          | .result _ _ => "Result"
          | _ => t.text
        let missing := missingEnumVariants env t arms
        let detail := if missing.isEmpty then ""
          else "; missing variants: " ++ String.intercalate ", " missing
        some (tok.typeError ("non-exhaustive match for " ++ label ++ detail))

/-- May a function returning `rt` return an expression of type `t`? A propagated
    payload is wrapped again. -/
def returnable (rt t : Ty) (value : Option Expr) : Bool :=
  compatible rt t ||
    match value, rt with
    | some (.propagate _ _), .option a => compatible a t
    | some (.propagate _ _), .result a _ => compatible a t
    | _, _ => false

/-- A self-call in return position is a tail call. -/
def markTail (currentFunction : Option FunctionRef) (e : Expr) : Expr :=
  match e with
  | .call i callee args ref =>
      if currentFunction.isSome && ref.function == currentFunction then
        .call i callee args { ref with tail := true }
      else e
  | .method i receiver name args ref =>
      if currentFunction.isSome && ref.function == currentFunction then
        .method i receiver name args { ref with tail := true }
      else e
  | e => e

section Statements

variable (env : CheckEnv) (self : Checking)

/-- Report an error and leave the statement as it is. -/
def stmtError (s : Stmt) (d : Diagnostic) : CheckM (Stmt × Flow) := do
  setErr d
  return (s, { hasError := true })

/-- Check an expression of a statement and go on with its type. -/
def withExpr (sc : ScopeRef) (e : Expr) (expected : Option Ty) (stmt : Expr → Stmt)
    (next : Expr → Ty → CheckM (Stmt × Flow)) : CheckM (Stmt × Flow) := do
  match ← self.expr sc e expected with
  | (e, .error d) => stmtError (stmt e) d
  | (e, .ok t) => next e t

/-- The type a `let` statement's annotation denotes. -/
def letAnnotation (typeParams : TypeParams) (visibilityScope : String) (info : LetInfo) :
    Except Diagnostic (Option Ty) :=
  match info.annotationSpec with
  | none => .ok none
  | some spec => do
      let t ← resolveSpec env.toTypeEnv typeParams 0 spec
      let hidden := inaccessibleTypeName env.toTypeEnv visibilityScope t
      if hidden != "" then .error (spec.tok.typeError ("type '" ++ hidden ++ "' is private"))
      else .ok (some t)

/-- What is wrong with a declaration whose initializer has type `t`. -/
def letError (h : Scopes) (sc : ScopeRef) (info : LetInfo) (init : Expr) (expected : Option Ty)
    (t : Ty) : Option Diagnostic :=
  let declared := expected.getD t
  if (match expected with | some a => !compatible a t | none => false) then
    some (info.tok.typeError ("binding '" ++ info.name ++ "' expected " ++ declared.text ++
      ", found " ++ t.text))
  else if h.isLocal sc info.name then
    some (info.tok.typeError
      ("binding '" ++ info.name ++ "' is already defined in this scope"))
  else if info.isConst && !constantExpr init then
    some (info.tok.typeError "const initializer must be a compile-time expression")
  else if info.isConst && !typeConstSafe env.toTypeEnv declared then
    some (info.tok.typeError ("const type " ++ declared.text ++ " is not deeply immutable"))
  else none

/-- `StLet` and `StConst`. -/
def checkLet (sc : ScopeRef) (info : LetInfo) (init : Expr) : CheckM (Stmt × Flow) := do
  let st ← get
  match letAnnotation env st.typeParams (st.scopes.top sc).visibilityScope info with
  | .error d => stmtError (.letStmt info init) d
  | .ok expected =>
      withExpr self sc init expected (.letStmt info) fun init t => do
        match letError env (← get).scopes sc info init expected t with
        | some d => stmtError (.letStmt info init) d
        | none =>
            let declared := expected.getD t
            declare sc info.name
              { type := declared, token := info.nameToken, mutable := info.mutable
                isConst := info.isConst }
            return (.letStmt { info with type := some declared } init, normalFlow)

/-- The target of an assignment, once its binding is known. -/
def assignTarget (sc : ScopeRef) (info : ExprInfo) (name : String) (ref : Resolution) (b : Binding) :
    Expr :=
  .var { info with type := some b.type } name
    { ref with scope := some sc, definition := some b.token }

/-- `StAssign`. The target is looked up here and not checked as an expression. -/
def checkAssign (sc : ScopeRef) (tok : Token) (target value : Expr) : CheckM (Stmt × Flow) := do
  match target with
  | .var info name ref =>
      let visited := Expr.var info name { ref with scope := some sc }
      match (← get).scopes.lookup sc name with
      | none =>
          stmtError (.assign tok visited value)
            (tok.typeError "assignment target must be a binding")
      | some b =>
          if !b.mutable then
            stmtError (.assign tok visited value)
              (tok.typeError ("immutable binding '" ++ name ++ "' cannot be assigned"))
          else
            let target := assignTarget sc info name ref b
            withExpr self sc value (some b.type) (.assign tok target) fun value t =>
              if compatible b.type t then return (.assign tok target value, normalFlow)
              else stmtError (.assign tok target value) (tok.typeError ("assignment to '" ++
                name ++ "' expected " ++ b.type.text ++ ", found " ++ t.text))
  | _ => stmtError (.assign tok target value) (tok.typeError "assignment target must be a binding")

/-- Check a condition, an expression of type `Bool`, and go on. -/
def withCondition (sc : ScopeRef) (cond : Expr) (stmt : Expr → Stmt)
    (next : Expr → CheckM (Stmt × Flow)) : CheckM (Stmt × Flow) :=
  withExpr self sc cond (some .bool) stmt fun cond t =>
    if typeEqual t .bool then next cond
    else stmtError (stmt cond) (cond.tok.typeError ("condition must be Bool, found " ++ t.text))

/-- Go on unless an error was reported. -/
def unlessError {α : Type} (stopped : α) (next : CheckM α) : CheckM α := do
  match (← get).err with
  | some _ => return stopped
  | none => next

/-- The check of the `else` branch; a branch that is not there falls through. -/
def checkElse (sc : ScopeRef) (body : List Stmt) (ctx : BlockContext) : CheckM (List Stmt × Flow) := do
  if body.isEmpty then return (body, normalFlow)
  else self.block (← openBlock sc) body ctx

/-- `StIf`. -/
def checkIf (sc : ScopeRef) (tok : Token) (cond : Expr) (thenBody elseBody : List Stmt)
    (ctx : BlockContext) : CheckM (Stmt × Flow) :=
  withCondition self sc cond (.ifStmt tok · thenBody elseBody) fun cond => do
    let (thenBody, a) ← self.block (← openBlock sc) thenBody ctx
    unlessError (.ifStmt tok cond thenBody elseBody, { hasError := true }) do
      let (elseBody, b) ← checkElse self sc elseBody ctx
      unlessError (.ifStmt tok cond thenBody elseBody, { hasError := true }) do
        return (.ifStmt tok cond thenBody elseBody,
          { mustReturn := a.mustReturn && b.mustReturn
            mayFallthrough := a.mayFallthrough || b.mayFallthrough
            reachable := true })

/-- A nested body whose flow does not matter, in a scope that is already open. -/
def checkBody (scope : ScopeRef) (body : List Stmt) (ctx : BlockContext) (stmt : List Stmt → Stmt) :
    CheckM (Stmt × Flow) := do
  let (body, _) ← self.block scope body ctx
  unlessError (stmt body, { hasError := true }) do return (stmt body, normalFlow)

/-- The element type a `for` statement iterates over. -/
def forElement : Ty → Option Ty
  | .array a | .set a => some a
  | .string => some .string
  | .bytes => some .int
  | _ => none

/-- `StFor`. -/
def checkFor (sc : ScopeRef) (info : ForInfo) (iter : Expr) (body : List Stmt)
    (ctx : BlockContext) : CheckM (Stmt × Flow) :=
  withExpr self sc iter none (.forStmt info · body) fun iter t =>
    match forElement t with
    | none =>
        stmtError (.forStmt info iter body)
          (iter.tok.typeError "for expects Array[T], Set[T], String, or Bytes")
    | some elem => do
        let scope ← openBlock sc
        declare scope info.name { type := elem, token := info.nameToken }
        checkBody self scope body { ctx with loop := ctx.loop + 1 }
          (.forStmt { info with type := some elem } iter)

/-- The end of `StReturn`, with the type of the returned value. -/
def finishReturn (tok : Token) (value : Option Expr) (t : Ty) (ctx : BlockContext) :
    CheckM (Stmt × Flow) := do
  if returnable ctx.rt t value then
    return (.returnStmt tok (value.map (markTail (← get).currentFunction)), returnFlow)
  else stmtError (.returnStmt tok value) (tok.typeError
    ("function must return " ++ ctx.rt.text ++ "; found " ++ t.text))

/-- `StReturn`. -/
def checkReturn (sc : ScopeRef) (tok : Token) (value : Option Expr) (ctx : BlockContext) :
    CheckM (Stmt × Flow) :=
  if !ctx.inFn then
    stmtError (.returnStmt tok value) (tok.typeError "return is only valid inside a function")
  else
    match value with
    | none => finishReturn tok none .nil ctx
    | some e => withExpr self sc e (some ctx.rt) (fun e => .returnStmt tok (some e)) fun e t =>
        finishReturn tok (some e) t ctx

/-- Bind the name of an arm's pattern. -/
def bindPattern (scope : ScopeRef) (t : Ty) (p : Pattern) : CheckM Pattern := do
  if p.binding != "" then
    let bt := (patternBinding t p).getD .error
    declare scope p.binding { type := bt, token := p.bindingTok }
    return { p with bindingType := some bt }
  else return p

/-- The loop of `StMatch` over the arms. `all` and `fall` summarise the flows of the
    arms before. -/
def checkArms (sc : ScopeRef) (t : Ty) (ctx : BlockContext) : List MatchArm → Bool → Bool →
    CheckM (List MatchArm × Flow)
  | [], all, fall =>
      return ([], { mustReturn := all, mayFallthrough := fall, reachable := true })
  | .mk p body :: rest, all, fall => do
      let scope ← openBlock sc
      if p.binding != "" && (patternBinding t p).isNone then
        setErr (p.tok.typeError "invalid pattern binding")
        return (.mk p body :: rest, { hasError := true })
      else
        let p ← bindPattern scope t p
        let (body, flow) ← self.block scope body ctx
        unlessError (.mk p body :: rest, { hasError := true }) do
          let (rest, total) ← checkArms sc t ctx rest (all && flow.mustReturn)
            (fall || flow.mayFallthrough)
          return (.mk p body :: rest, total)

/-- `StMatch`. -/
def checkMatch (sc : ScopeRef) (tok : Token) (scrutinee : Expr) (arms : List MatchArm)
    (ctx : BlockContext) : CheckM (Stmt × Flow) :=
  withExpr self sc scrutinee none (.matchStmt tok · arms) fun scrutinee t =>
    match matchError env.toTypeEnv tok t arms with
    | some d => stmtError (.matchStmt tok scrutinee arms) d
    | none => do
        let (arms, flow) ← checkArms self sc t ctx arms true false
        return (.matchStmt tok scrutinee arms, flow)

/-- The scope of an unsafe block. -/
def openUnsafe (sc : ScopeRef) : CheckM ScopeRef := do
  let scope ← openBlock sc
  modify fun st => { st with
    scopes := st.scopes.update scope fun r => { r with isUnsafe := true } }
  return scope

/-- `Checker.checkStmt`. -/
def checkStmt (sc : ScopeRef) (ctx : BlockContext) (s : Stmt) : CheckM (Stmt × Flow) :=
  match s with
  | .letStmt info init => checkLet env self sc info init
  | .exprStmt tok e => withExpr self sc e none (.exprStmt tok) fun e _ =>
      return (.exprStmt tok e, normalFlow)
  | .assign tok target value => checkAssign self sc tok target value
  | .ifStmt tok cond thenBody elseBody => checkIf self sc tok cond thenBody elseBody ctx
  | .whileStmt tok cond body =>
      withCondition self sc cond (.whileStmt tok · body) fun cond => do
        checkBody self (← openBlock sc) body { ctx with loop := ctx.loop + 1 }
          (.whileStmt tok cond)
  | .forStmt info iter body => checkFor self sc info iter body ctx
  | .deferStmt tok body => do checkBody self (← openBlock sc) body ctx (.deferStmt tok)
  | .unsafeStmt tok body => do checkBody self (← openUnsafe sc) body ctx (.unsafeStmt tok)
  | .returnStmt tok value => checkReturn self sc tok value ctx
  | .breakStmt tok =>
      if ctx.loop == 0 then stmtError s (tok.typeError "break is only valid inside a loop")
      else return (s, { mayBreak := true, reachable := true })
  | .continueStmt tok =>
      if ctx.loop == 0 then stmtError s (tok.typeError "continue is only valid inside a loop")
      else return (s, { mayContinue := true, reachable := true })
  | .matchStmt tok scrutinee arms => checkMatch env self sc tok scrutinee arms ctx

/-- The loop of `Checker.checkBlock`. Statements that cannot be reached stay
    unchecked. -/
def checkStmts (sc : ScopeRef) (ctx : BlockContext) : List Stmt → Flow → CheckM (List Stmt × Flow)
  | [], flow => return ([], flow)
  | s :: rest, flow => do
      if !flow.mayFallthrough then return (s :: rest, flow)
      else
        let (s, f) ← checkStmt env self sc ctx s
        unlessError (s :: rest, { flow with hasError := true }) do
          let (rest, total) ← checkStmts sc ctx rest
            { mustReturn := f.mustReturn
              mayFallthrough := f.mayFallthrough
              mayBreak := flow.mayBreak || f.mayBreak
              mayContinue := flow.mayContinue || f.mayContinue
              reachable := f.reachable
              hasError := flow.hasError }
          return (s :: rest, total)

/-- `Checker.checkBlock`. -/
def checkBlock (sc : ScopeRef) (body : List Stmt) (ctx : BlockContext) : CheckM (List Stmt × Flow) :=
  checkStmts env self sc ctx body normalFlow

end Statements

/-! ## Tying the knot -/

/-- The diagnostic of a tree deeper than the bound. -/
def tooDeep : Diagnostic := diag .resource "" 1 1 "nesting exceeds the recursion bound"

/-- The passes, for trees of at most `n` levels. -/
def checking [FloatArith] (env : CheckEnv) : Nat → Checking
  | 0 =>
      { expr := fun _ e _ => do
          setErr tooDeep
          return (e, .error tooDeep)
        block := fun _ body _ => do
          setErr tooDeep
          return (body, { hasError := true }) }
  | n + 1 =>
      { expr := checkExpr env (checking env n)
        block := checkBlock env (checking env n) }

end Kryndel
