import Kryndel.Checker.Rule

/-!
# The typing rules

One rule for each kind of expression except variables bound in a scope and
closures: the cases of `Checker.checkExpr`, `Checker.checkCall` and
`Checker.matchFunctionCall`.
-/

namespace Kryndel

namespace Rule

/-- Check a subexpression and go on with its type. -/
def checked (i : Nat) (expected : Option Ty) (next : Ty → Rule Typed) : Rule Typed := do
  match ← check i expected with
  | .error d => return .error d
  | .ok t => next t

end Rule

open Rule

/-! ## Operators -/

/-- The type of a unary operator's result. -/
def unaryType (tok : Token) (op : UnaryOp) (ot : Ty) : Typed :=
  match op with
  | .bang => if typeEqual ot .bool then .ok .bool else .error (tok.typeError "'!' expects Bool")
  | .bitnot =>
      if isUInt ot then .ok ot
      else .error (tok.typeError "'~' expects UInt8, UInt16, UInt32, or UInt64")
  | .plus =>
      if numeric ot then .ok ot
      else .error (tok.typeError "unary sign expects Int, UInt, or Float")
  | .minus =>
      if !numeric ot then .error (tok.typeError "unary sign expects Int, UInt, or Float")
      else if isUInt ot then
        .error (tok.typeError "unary '-' is not defined for UInt; use wrapping subtraction")
      else
        match ot with
        | .generic _ _ => .error (tok.typeError
            "unary '-' is not available for a generic numeric type because it may be UInt")
        | _ => .ok ot

/-- `ExUnary`. -/
def unaryRule (tok : Token) (op : UnaryOp) : Rule Typed :=
  checked 0 none fun ot => return unaryType tok op ot

/-- Does `+` on a left operand of this type join two sequences? -/
def joinable (lt : Ty) : Bool :=
  typeEqual lt .string || typeEqual lt .bytes ||
    match lt with
    | .array _ => true
    | _ => false

/-- The type of a strict binary operator's result. -/
def binaryType (env : TypeEnv) (tok : Token) (op : BinaryOp) (lt rt : Ty) : Typed :=
  if op == .plus && joinable lt then
    if compatible lt rt then .ok lt
    else .error (tok.typeError "'+' operands must have matching types")
  else
    match op with
    | .eqeq | .neq =>
        if containsFunctionType env lt || containsFunctionType env rt then
          .error (tok.typeError "function values do not support equality")
        else if compatible lt rt then .ok .bool
        else .error (tok.typeError "equality operands must have the same type")
    | .bitand | .bitxor | .pipe =>
        if isUInt lt && typeEqual lt rt then .ok lt
        else .error (tok.typeError "bitwise operands must have matching UInt types")
    | .shl | .shr =>
        if isUInt lt && typeEqual rt .int then .ok lt
        else .error (tok.typeError "shift expects a UInt left operand and an Int count")
    | .less | .leq | .greater | .geq =>
        if numeric lt && typeEqual lt rt then .ok .bool
        else .error (tok.typeError "ordered operands must have matching numeric types")
    | .percent =>
        if integer lt && typeEqual lt rt then .ok lt
        else .error (tok.typeError "remainder operands must have matching Int or UInt types")
    | _ =>
        if numeric lt && typeEqual lt rt then .ok lt
        else .error (tok.typeError "arithmetic operands must have matching numeric types")

/-- `ExBinary`. A left operand of `&&` or `||` that is not a Bool is reported only
    if the right operand has no error of its own. -/
def binaryRule (env : TypeEnv) (tok : Token) (op : BinaryOp) (left right : Expr) : Rule Typed :=
  checked 0 none fun lt =>
    if op == .and || op == .or then
      checked 1 (some .bool) fun rt =>
        if !typeEqual rt .bool then
          return .error (right.tok.typeError "logical operators require Bool")
        else if !typeEqual lt .bool then
          return .error (left.tok.typeError "logical operators require Bool")
        else return .ok .bool
    else
      checked 1 (some (if op == .shl || op == .shr then .int else lt)) fun rt =>
        return binaryType env tok op lt rt

/-! ## Collections -/

/-- The key types a map can have. -/
def mapKeyType : Ty → Bool
  | .int | .uint _ | .bool | .string => true
  | _ => false

/-- A node whose lists of names, keys and values do not pair up; the parser builds
    none. -/
def unpaired (tok : Token) : Diagnostic := tok.typeError "malformed literal"

/-- The loop of `ExMap` over the entries from the `i`-th on, of `n` in all. -/
def mapEntries (tok : Token) (n : Nat) : List Expr → List Expr → Nat → Option Ty → Option Ty →
    Rule (Except Diagnostic (Option Ty × Option Ty))
  | [], [], _, kt, vt => return .ok (kt, vt)
  | key :: keys, value :: values, i, kt, vt => do
      match ← check i kt with
      | .error d => return .error d
      | .ok got =>
          if (match kt with | some k => !compatible k got | none => false) then
            return .error (key.tok.typeError "map keys must have one homogeneous type")
          else if !mapKeyType (kt.getD got) then
            return .error (key.tok.typeError "map keys must be Int, UInt, Bool, or String")
          else
            match ← check (n + i) vt with
            | .error d => return .error d
            | .ok found =>
                if (match vt with | some v => !compatible v found | none => false) then
                  return .error (value.tok.typeError "map values must have one homogeneous type")
                else mapEntries tok n keys values (i + 1) (some (kt.getD got)) (some (vt.getD found))
  | _, _, _, _, _ => return .error (unpaired tok)

/-- `ExMap`. -/
def mapRule (tok : Token) (keys values : List Expr) (expected : Option Ty) : Rule Typed := do
  if keys.isEmpty && values.isEmpty then
    match expected with
    | some (.map k v) => return .ok (.map k v)
    | _ => return .error (tok.typeError "empty map requires Map[K, V] context")
  else
    let context := match expected with
      | some (.map k v) => (some k, some v)
      | _ => (none, none)
    match ← mapEntries tok keys.length keys values 0 context.1 context.2 with
    | .error d => return .error d
    | .ok (kt, vt) => return .ok (.map (kt.getD .error) (vt.getD .error))

/-- The loop of `ExSet` over the items from the `i`-th on. -/
def setItems : List Expr → Nat → Option Ty → Rule (Except Diagnostic (Option Ty))
  | [], _, et => return .ok et
  | x :: rest, i, et => do
      match ← check i et with
      | .error d => return .error d
      | .ok xt =>
          if (match et with | some e => !compatible e xt | none => false) then
            return .error (x.tok.typeError "set elements must have one homogeneous type")
          else setItems rest (i + 1) (some (et.getD xt))

/-- `ExSet`. -/
def setRule (env : TypeEnv) (tok : Token) (items : List Expr) (expected : Option Ty) :
    Rule Typed := do
  if items.isEmpty then
    match expected with
    | some (.set a) => return .ok (.set a)
    | _ => return .error (tok.typeError "empty set requires Set[T] context")
  else
    let context := match expected with
      | some (.set a) => some a
      | _ => none
    match ← setItems items 0 context with
    | .error d => return .error d
    | .ok et =>
        let et := et.getD .error
        if containsFunctionType env et then
          return .error (tok.typeError
            "set elements cannot contain function values because sets use equality")
        else return .ok (.set et)

/-- The loop of `ExArray` over the items from the `i`-th on. An item of another
    type is remembered as the error, and the items after it are still checked. -/
def arrayItems : List Expr → Nat → Option Ty → Option Diagnostic → Rule Typed
  | [], _, et, d => return match d with
      | some d => .error d
      | none => .ok (et.getD .error)
  | x :: rest, i, et, d => do
      match ← check i et with
      | .error d => return .error d
      | .ok xt =>
          match et with
          | none => arrayItems rest (i + 1) (some xt) d
          | some e =>
              let d := if compatible e xt then d
                else some (x.tok.typeError "array elements must have one homogeneous type")
              arrayItems rest (i + 1) et d

/-- `ExArray`. -/
def arrayRule (tok : Token) (items : List Expr) (expected : Option Ty) : Rule Typed := do
  if items.isEmpty then
    match expected with
    | some (.array a) => return .ok (.array a)
    | _ => return .error (tok.typeError "empty array requires Array[T] context")
  else
    let context := match expected with
      | some (.array .unknown) => none
      | some (.array a) => some a
      | _ => none
    match ← arrayItems items 0 context none with
    | .error d => return .error d
    | .ok et => return .ok (.array et)

/-- `ExIndex`. -/
def indexRule (tok : Token) (left : Expr) : Rule Typed :=
  checked 0 none fun bt =>
    let wantIndex := match bt with
      | .map k _ => k
      | _ => .int
    checked 1 (some wantIndex) fun it =>
      return match bt with
        | .map k v =>
            if compatible k it then .ok v
            else .error (left.tok.typeError
              ("map index has type " ++ it.text ++ "; expected " ++ k.text))
        | _ =>
            if !typeEqual it .int then .error (tok.typeError "index must be Int")
            else
              match bt with
              | .array a => .ok a
              | .string => .ok .string
              | .bytes => .ok .int
              | _ => .error (tok.typeError
                  "indexing expects String, Bytes, Array[T], or Map[K,V]")

/-! ## Structs and enums -/

/-- `ExField`. -/
def fieldRule (env : TypeEnv) (tok : Token) (name : String) : Rule Typed :=
  checked 0 none fun bt => do
    match bt with
    | .struct declName _ =>
        match env.structDecl declName with
        | none => return .error (tok.typeError "field access expects a struct")
        | some decl =>
            match decl.fields.find? (·.name == name) with
            | none => return .error (tok.typeError ("unknown field '" ++ name ++ "'"))
            | some field =>
                if !field.isPublic && decl.visibilityScope != (← scope).visibilityScope then
                  return .error (tok.typeError ("field '" ++ name ++ "' is private"))
                else
                  record fun r => { r with definition := some field.tok }
                  return .ok ((structFieldType env bt field).getD .error)
    | _ => return .error (tok.typeError "field access expects a struct")

/-- The loop of `ExStruct` over the written fields from the `i`-th on, with the
    names seen so far and the last error that does not end the loop. -/
def structFields (env : TypeEnv) (tok : Token) (decl : StructDecl) (instanceType : Ty) :
    List String → List Expr → Nat → List String → Option Diagnostic → Rule (Option Diagnostic)
  | [], [], _, _, d => return d
  | name :: names, value :: values, i, seen, d => do
      if seen.contains name then
        return some (tok.typeError ("duplicate struct field '" ++ name ++ "'"))
      else
        match decl.fields.find? (·.name == name) with
        | none => return some (tok.typeError ("unknown field '" ++ name ++ "'"))
        | some field =>
            match structFieldType env instanceType field with
            | none => return some (tok.typeError ("unknown field '" ++ name ++ "'"))
            | some ft =>
                let hidden := !field.isPublic && decl.visibilityScope != (← scope).visibilityScope
                let d := if hidden then
                    some (tok.typeError ("field '" ++ name ++ "' is private"))
                  else d
                match ← check i (some ft) with
                | .error d => return some d
                | .ok vt =>
                    let d := if compatible ft vt then d
                      else some (value.tok.typeError ("field '" ++ name ++ "' expected " ++
                        ft.text ++ ", found " ++ vt.text))
                    structFields env tok decl instanceType names values (i + 1) (name :: seen) d
  | _, _, _, _, _ => return some (unpaired tok)

/-- `ExStruct`. -/
def structRule (env : TypeEnv) (tok : Token) (spec : TypeSpec) (fields : List String)
    (values : List Expr) : Rule Typed := do
  match env.structDecl spec.name with
  | none => return .error (tok.typeError ("unknown struct '" ++ spec.name ++ "'"))
  | some decl =>
      match resolveSpec env (← typeParams) 0 spec with
      | .error d => return .error d
      | .ok instanceType =>
          let hidden := inaccessibleTypeName env (← scope).visibilityScope instanceType
          if hidden != "" then
            return .error (tok.typeError ("struct '" ++ hidden ++ "' is private"))
          else
            record fun r => { r with definition := some decl.nameToken }
            if fields.length ≠ decl.fields.length then
              return .error (tok.typeError
                ("struct '" ++ spec.name ++ "' has wrong field count"))
            else
              match ← structFields env tok decl instanceType fields values 0 [] none with
              | some d => return .error d
              | none => return .ok instanceType

/-- `ExEnum`. -/
def enumRule (env : TypeEnv) (tok : Token) (typeName variant : String) : Rule Typed := do
  match env.enumDecl typeName with
  | none => return .error (tok.typeError ("unknown enum '" ++ typeName ++ "'"))
  | some decl =>
      let hidden := inaccessibleTypeName env (← scope).visibilityScope (.enum decl.name)
      if hidden != "" then return .error (tok.typeError ("enum '" ++ hidden ++ "' is private"))
      else
        let variantToken := (decl.variants.zip decl.variantTokens).lookup variant
        record fun r =>
          { r with
            definition := some decl.nameToken
            variantDefinition := variantToken <|> r.variantDefinition }
        if decl.variants.contains variant then return .ok (.enum decl.name)
        else return .error (tok.typeError ("unknown variant '" ++ variant ++ "'"))

/-- `ExPropagate`. -/
def propagateRule (tok : Token) : Rule Typed := do
  let currentReturn := (← scope).currentReturn
  checked 0 currentReturn fun inner =>
    return match currentReturn with
      | none => .error (tok.typeError
          "'?' is only valid inside a function returning Option or Result")
      | some ret =>
          let mismatch : Typed := .error (tok.typeError
            "'?' requires an Option or Result matching the enclosing function return type")
          match inner, ret with
          | .option a, .option _ => .ok a
          | .result a b, .result _ e => if compatible b e then .ok a else mismatch
          | _, _ => mismatch

/-! ## Calls -/

/-- Check an argument with the type parameters found so far in scope, and match its
    type against the parameter's. Argument `i` is subexpression `i + 1`. -/
def unifyArgument (env : TypeEnv) (i : Nat) (expected : Option Ty) (spec : TypeSpec)
    (inf : Inference) : Rule (Option Inference) := do
  putTypeParams inf.typeParams
  match ← check (i + 1) expected with
  | .error _ => return none
  | .ok actual => return unifyGenericSpec env 0 inf spec actual

/-- Check an argument against its parameter's type as far as it is known. -/
def unifyInContext (env : TypeEnv) (i : Nat) (spec : TypeSpec) (inf : Inference) :
    Rule (Option Inference) := do
  match resolveSpec env inf.typeParams 0 spec with
  | .error _ => return none
  | .ok expected => unifyArgument env i (some expected) spec inf

/-- The argument loop of `Checker.matchFunctionCall`. A closure is checked before
    its parameter's type is applied, and the name of an overloaded or generic
    function waits until the other arguments are known: the positions of those
    arguments are collected. -/
def unifyArguments (env : TypeEnv) : List (Expr × TypeSpec) → Nat → Inference → List Nat →
    Rule (Option (Inference × List Nat))
  | [], _, inf, deferred => return some (inf, deferred)
  | (arg, spec) :: rest, i, inf, deferred => do
      let v ← scope
      let result ← (do
        if typeSpecHasUnresolvedGeneric inf.typeParams spec then
          match arg with
          | .lambda _ _ _ _ => return (← unifyArgument env i none spec inf).map (·, deferred)
          | .var _ name _ =>
              if v.has name then return (← unifyInContext env i spec inf).map (·, deferred)
              else if hasUniqueConcreteFunctionValue env v.visibilityScope name then
                return (← unifyArgument env i none spec inf).map (·, deferred)
              else return some (inf, deferred ++ [i])
          | _ => return (← unifyInContext env i spec inf).map (·, deferred)
        else return (← unifyInContext env i spec inf).map (·, deferred))
      match result with
      | none => return none
      | some (inf, deferred) => unifyArguments env rest (i + 1) inf deferred

/-- The loop of `Checker.matchFunctionCall` over the arguments that waited. -/
def unifyDeferred (env : TypeEnv) (specs : List TypeSpec) : List Nat → Inference →
    Rule (Option Inference)
  | [], inf => return some inf
  | i :: rest, inf => do
      match ← unifyInContext env i (specs.getD i default) inf with
      | none => return none
      | some inf => unifyDeferred env specs rest inf

/-- The type parameters a call starts from: the candidate's own, and those of the
    struct its receiver names. -/
def callInference (env : TypeEnv) (f : Candidate) : Inference :=
  let own := f.typeParams.foldl Inference.declare {}
  match f.receiver with
  | some (.named name _ _) =>
      match env.structDecl name with
      | some decl => decl.typeParams.foldl
          (fun inf p => if (inf.typeParams.lookup p.name).isSome then inf else inf.declare p) own
      | none => own
  | _ => own

/-- The part of `Checker.matchFunctionCall` after the arguments: the inferred
    parameters and the result type. -/
def callResult (env : TypeEnv) (f : Candidate) (expectedReturn : Option Ty) (inf : Inference) :
    Option (List Ty × Ty) :=
  if f.typeParams.all fun p => inf.inferred.contains p.name then
    match resolveSpec env inf.typeParams 0 f.ret with
    | .error _ => none
    | .ok rt =>
        let fits := match expectedReturn with
          | some t => !functionReturnContainsGeneric f.typeParams f.ret || compatible t rt
          | none => true
        if fits then
          (f.typeParams.mapM fun p => inf.typeParams.lookup p.name).map fun arguments =>
            (arguments, rt)
        else none
  else none

/-- `Checker.matchFunctionCall`, once the number of arguments fits: the match of
    receiver, arguments and expected result. -/
def inferCall (env : TypeEnv) (args : List Expr) (f : Candidate) (expectedReturn receiver : Option Ty) :
    Rule (Option (List Ty × Ty)) := do
  let specs := f.params.map (·.1.type)
  let start := match f.receiver, receiver with
    | some spec, some actual => unifyGenericSpec env 0 (callInference env f) spec actual
    | _, _ => some (callInference env f)
  match start with
  | none => return none
  | some inf =>
      match ← unifyArguments env (args.zip specs) 0 inf [] with
      | none => return none
      | some (inf, deferred) =>
          let inf := match expectedReturn with
            | some t =>
                if functionReturnContainsGeneric f.typeParams f.ret then
                  unifyGenericSpec env 0 inf f.ret t
                else some inf
            | none => some inf
          match inf with
          | none => return none
          | some inf =>
              match ← unifyDeferred env specs deferred inf with
              | none => return none
              | some inf => return callResult env f expectedReturn inf

/-- `Checker.matchFunctionCall`. -/
def matchFunctionCall (env : TypeEnv) (args : List Expr) (f : Candidate)
    (expectedReturn receiver : Option Ty) : Rule (Option Ty) := do
  if args.length < f.minArgs || args.length > f.params.length then return none
  else
    let previous ← typeParams
    let result ← inferCall env args f expectedReturn receiver
    putTypeParams previous
    match result with
    | none => return none
    | some (arguments, rt) =>
        if !f.typeParams.isEmpty then record fun r => { r with genericArguments := arguments }
        return some rt

/-- The loop over the visible overloads: the one that matches, unless two do. -/
def selectOverload (env : TypeEnv) (args : List Expr) (expected receiver : Option Ty)
    (ambiguous : Diagnostic) : List Candidate → Option (Candidate × Ty) →
    Rule (Except Diagnostic (Option (Candidate × Ty)))
  | [], matched => return .ok matched
  | f :: rest, matched => do
      match ← matchFunctionCall env args f expected receiver with
      | none => selectOverload env args expected receiver ambiguous rest matched
      | some t =>
          if matched.isSome then return .error ambiguous
          else selectOverload env args expected receiver ambiguous rest (some (f, t))

/-- The loop over the arguments of a called function value, from the `i`-th on. -/
def checkArguments : List (Expr × Ty) → Nat → Rule (Option Diagnostic)
  | [], _ => return none
  | (arg, want) :: rest, i => do
      match ← check (i + 1) (some want) with
      | .error d => return some d
      | .ok got =>
          if compatible want got then checkArguments rest (i + 1)
          else return some (arg.tok.typeError ("function value argument " ++ toString (i + 1) ++
            " expected " ++ want.text ++ ", found " ++ got.text))

/-- The part of `Checker.checkCall` for a called value. -/
def valueCallRule (tok : Token) (callee : Expr) (args : List Expr) : Rule Typed :=
  checked 0 none fun calleeType => do
    match calleeType with
    | .function params ret =>
        if args.length ≠ params.length then
          return .error (tok.typeError ("function value expects " ++ toString params.length ++
            " argument(s), got " ++ toString args.length))
        else
          match ← checkArguments (args.zip params) 0 with
          | some d => return .error d
          | none => return .ok ret
    | _ => return .error (callee.tok.typeError
        ("value of type " ++ calleeType.text ++ " is not callable"))

/-- Is a builtin reserved for code that runs outside workers? -/
def hostBuiltin (name : String) : Bool :=
  name.startsWith "fs_" || name == "env_get" || name == "thread_spawn" || name == "task_spawn"

/-- The part of `Checker.checkCall` for a named function. -/
def namedCallRule (env : CheckEnv) (e : Expr) (tok : Token) (name : String) (args : List Expr)
    (expected : Option Ty) : Rule Typed := do
  let v ← scope
  match env.builtins name with
  | some b =>
      if v.worker && hostBuiltin b.name then
        return .error (tok.typeError
          ("builtin '" ++ name ++ "' is not available in a worker-safe function"))
      else if args.length ≠ b.arity then
        return .error (tok.typeError ("builtin '" ++ name ++ "' expects " ++ toString b.arity ++
          " argument(s), got " ++ toString args.length))
      else b.check e expected
  | none =>
      let visible := (env.candidates name).filter (·.visibleFrom v.visibilityScope)
      if visible.isEmpty then
        return .error (tok.typeError ("unknown function '" ++ name ++ "'"))
      else
        let ambiguous := tok.typeError
          ("ambiguous call to '" ++ name ++ "': multiple overloads match")
        match ← selectOverload env.toTypeEnv args expected none ambiguous visible none with
        | .error d => return .error d
        | .ok (some (f, t)) =>
            record fun r => { r with function := some f.ref, definition := some f.nameToken }
            return .ok t
        | .ok none => return .error (tok.typeError ("no overload of '" ++ name ++
            "' matches the argument types; candidates: " ++ formatOverloadCandidates visible))

/-- `Checker.checkCall`, for a call without a receiver. -/
def callRule (env : CheckEnv) (e : Expr) (tok : Token) (callee : Expr) (args : List Expr)
    (expected : Option Ty) : Rule Typed := do
  let v ← scope
  match callee with
  | .var _ name _ =>
      if v.has name then valueCallRule tok callee args
      else namedCallRule env e tok name args expected
  | _ => valueCallRule tok callee args

/-- `Checker.checkCall`, for a method call. -/
def methodRule (env : TypeEnv) (tok : Token) (name : String) (args : List Expr)
    (expected : Option Ty) : Rule Typed :=
  checked 0 none fun rt => do
    let unknown : Typed := .error (tok.typeError
      ("unknown method '" ++ name ++ "' for " ++ rt.text))
    let visible := (methodsForReceiver env rt name).filter
      (·.visibleFrom (← scope).visibilityScope)
    if visible.isEmpty then return unknown
    else
      let ambiguous := tok.typeError
        ("ambiguous call to method '" ++ name ++ "': multiple overloads match")
      match ← selectOverload env args expected (some rt) ambiguous visible none with
      | .error d => return .error d
      | .ok (some (f, t)) =>
          record fun r =>
            { r with
              function := some f.ref
              traitName := if f.receiver.isNone then f.trait else r.traitName
              definition := some f.nameToken }
          return .ok t
      | .ok none => return .error (tok.typeError ("no overload of method '" ++ name ++
          "' matches the argument types; candidates: " ++ formatOverloadCandidates visible))

/-! ## Function values -/

/-- The type parameters of a referenced function, unless two have one name. -/
def distinctParams : List TypeParam → Inference → Option Inference
  | [], inf => some inf
  | p :: ps, inf =>
      if (inf.typeParams.lookup p.name).isSome then none else distinctParams ps (inf.declare p)

/-- `Checker.matchFunctionValueType`: the type of a function used as a value, with
    its type arguments. -/
def matchFunctionValueType (env : TypeEnv) (f : Candidate) (expected : Option Ty) :
    Option (List Ty × Ty) := do
  let signature ← match expected with
    | some (.function params ret) =>
        if params.length = f.params.length then some (some (params, ret)) else none
    | some _ => none
    | none => some none
  let inf ← distinctParams f.typeParams {}
  let inf ← match signature with
    | none => if f.typeParams.isEmpty then some inf else none
    | some (params, ret) => do
        let inf ← unifyGenericSpecs env 0 inf (f.params.map (·.1.type)) params
        unifyGenericSpec env 0 inf f.ret ret
  if f.typeParams.all fun p => inf.inferred.contains p.name then
    match resolveSpecs env inf.typeParams 0 (f.params.map (·.1.type)),
        resolveSpec env inf.typeParams 0 f.ret with
    | .ok params, .ok ret =>
        let functionType := Ty.function params ret
        let fits := match expected with
          | some t => compatible t functionType
          | none => true
        if fits then
          (f.typeParams.mapM fun p => inf.typeParams.lookup p.name).map fun arguments =>
            (arguments, functionType)
        else none
    | _, _ => none
  else none

/-- The loop of `ExVar` over the visible functions of a name that is not bound: the
    one whose type fits, unless two do. -/
def selectFunctionValue (env : TypeEnv) (expected : Option Ty) (ambiguous : Diagnostic) :
    List Candidate → Option (Candidate × Ty) → Rule (Except Diagnostic (Option (Candidate × Ty)))
  | [], matched => return .ok matched
  | f :: rest, matched => do
      match matchFunctionValueType env f expected with
      | none => selectFunctionValue env expected ambiguous rest matched
      | some (arguments, t) =>
          if !f.typeParams.isEmpty then record fun r => { r with genericArguments := arguments }
          if matched.isSome then return .error ambiguous
          else selectFunctionValue env expected ambiguous rest (some (f, t))

/-- `ExVar`, for a name that is not bound in a scope. -/
def functionValueRule (env : TypeEnv) (tok : Token) (name : String) (expected : Option Ty) :
    Rule Typed := do
  let visible := (env.candidates name).filter (·.visibleFrom (← scope).visibilityScope)
  if visible.isEmpty then return .error (tok.typeError ("unknown variable '" ++ name ++ "'"))
  else
    let ambiguous := tok.typeError
      ("ambiguous function value '" ++ name ++ "'; add a function type annotation")
    match ← selectFunctionValue env expected ambiguous visible none with
    | .error d => return .error d
    | .ok (some (f, t)) =>
        record fun r => { r with function := some f.ref, definition := some f.nameToken }
        return .ok t
    | .ok none =>
        match expected with
        | some (.function _ _) | none => return .error (tok.typeError ("function '" ++ name ++
            "' has no overload matching the expected function type; candidates: " ++
            formatOverloadCandidates visible))
        | some t => return .error (tok.typeError ("function '" ++ name ++
            "' is a value of function type, not " ++ t.text))

/-! ## All rules -/

/-- The rule of an expression: every kind but bound variables and closures. -/
def typingRule (env : CheckEnv) (e : Expr) (expected : Option Ty) : Rule Typed :=
  match e with
  | .int _ _ => return .ok .int
  | .float _ _ => return .ok .float
  | .bool _ _ => return .ok .bool
  | .nil _ => return .ok .nil
  | .string _ _ => return .ok .string
  | .var i name _ => functionValueRule env.toTypeEnv i.tok name expected
  | .unary i op _ => unaryRule i.tok op
  | .binary i op l r => binaryRule env.toTypeEnv i.tok op l r
  | .call i callee args _ => callRule env e i.tok callee args expected
  | .method i _ name args _ => methodRule env.toTypeEnv i.tok name args expected
  | .array i items => arrayRule i.tok items expected
  | .index i _ left => indexRule i.tok left
  | .field i _ name _ => fieldRule env.toTypeEnv i.tok name
  | .struct i spec fields values _ => structRule env.toTypeEnv i.tok spec fields values
  | .enum i typeName variant _ => enumRule env.toTypeEnv i.tok typeName variant
  | .map i keys values => mapRule i.tok keys values expected
  | .set i items => setRule env.toTypeEnv i.tok items expected
  | .propagate i _ => propagateRule i.tok
  | .lambda i _ _ _ => return .error (i.tok.typeError "malformed closure expression")

end Kryndel
