import Kryndel.Checker.TypeEnv

/-!
# Inference of type arguments

A call of a generic function matches the declared parameter types against the
argument types. What is known so far is an `Inference`: the type parameters in
scope, with the inferred ones replaced by their types, the constraint of each
parameter, and the names inferred so far. The program changes the three maps in
place; a match that fails leaves them unused.
-/

namespace Kryndel

/-- The three maps `unifyGenericSpec` works on. -/
structure Inference where
  typeParams : TypeParams := []
  constraints : List (String × String) := []
  inferred : List String := []
deriving Repr, Inhabited

namespace Inference

/-- `constraints[name]`, empty when there is none. -/
def constraintOf (inf : Inference) (name : String) : String :=
  (inf.constraints.lookup name).getD ""

/-- Add a type parameter that is not inferred yet. -/
def declare (inf : Inference) (p : TypeParam) : Inference where
  typeParams := (p.name, .generic p.name p.constraint) :: inf.typeParams
  constraints := (p.name, p.constraint) :: inf.constraints
  inferred := inf.inferred

/-- Record the type found for a parameter. -/
def infer (inf : Inference) (name : String) (t : Ty) : Inference where
  typeParams := (name, t) :: inf.typeParams
  constraints := inf.constraints
  inferred := name :: inf.inferred

end Inference

mutual

/-- `unifyGenericSpec`. -/
def unifyGenericSpec (env : TypeEnv) (depth : Nat) (inf : Inference) :
    TypeSpec → Ty → Option Inference
  | .function params ret _, actual =>
      if env.lim.maxTypeDepth < depth then none
      else
        match actual with
        | .function actualParams actualRet =>
            if params.length ≠ actualParams.length then none
            else do
              let inf ← unifyGenericSpecs env (depth + 1) inf params actualParams
              unifyGenericSpec env (depth + 1) inf ret actualRet
        | _ => none
  | .named name [] tok, actual =>
      if env.lim.maxTypeDepth < depth then none
      else
        match inf.typeParams.lookup name with
        | some generic =>
            if (match actual with | .generic other _ => other == name | _ => false) then some inf
            else if inf.inferred.contains name then
              if typeEqual generic actual then some inf else none
            else if env.satisfiesConstraint actual (inf.constraintOf name) then
              some (inf.infer name actual)
            else none
        | none =>
            match resolveSpec env inf.typeParams depth (.named name [] tok) with
            | .ok expected => if compatible expected actual then some inf else none
            | .error _ => none
  | .named name (p :: ps) tok, actual =>
      if env.lim.maxTypeDepth < depth then none
      else
        match resolveSpec env inf.typeParams depth (.named name (p :: ps) tok) with
        | .error _ => none
        | .ok shape =>
            if !shape.sameKind actual then none
            else if ps.length + 1 ≠ actual.arguments.length then none
            else unifyGenericSpecs env (depth + 1) inf (p :: ps) actual.arguments

/-- Matching of a list of type expressions against as many types. -/
def unifyGenericSpecs (env : TypeEnv) (depth : Nat) (inf : Inference) :
    List TypeSpec → List Ty → Option Inference
  | s :: ss, t :: ts => do
      let inf ← unifyGenericSpec env depth inf s t
      unifyGenericSpecs env depth inf ss ts
  | _, _ => some inf

end

/-! ## Which parts of a type are still generic -/

/-- Is a name a type parameter that is not inferred yet? -/
def unresolvedName (typeParams : TypeParams) (name : String) : Bool :=
  match typeParams.lookup name with
  | some (.generic _ _) => true
  | _ => false

mutual

/-- `typeSpecHasUnresolvedGeneric`. A function type has the empty name. -/
def typeSpecHasUnresolvedGeneric (typeParams : TypeParams) : TypeSpec → Bool
  | .function params ret _ =>
      typeSpecHasUnresolvedGeneric typeParams ret ||
        (params.isEmpty && unresolvedName typeParams "") || anyUnresolvedGeneric typeParams params
  | .named name params _ =>
      (params.isEmpty && unresolvedName typeParams name) || anyUnresolvedGeneric typeParams params

/-- Does one of the type expressions mention an unresolved parameter? -/
def anyUnresolvedGeneric (typeParams : TypeParams) : List TypeSpec → Bool
  | [] => false
  | s :: ss => typeSpecHasUnresolvedGeneric typeParams s || anyUnresolvedGeneric typeParams ss

end

mutual

/-- `functionReturnContainsGeneric`. A function type has the empty name. -/
def functionReturnContainsGeneric (params : List TypeParam) : TypeSpec → Bool
  | .function args ret _ =>
      functionReturnContainsGeneric params ret ||
        (args.isEmpty && params.any (·.name == "")) || anyContainsGeneric params args
  | .named name args _ =>
      (args.isEmpty && params.any (·.name == name)) || anyContainsGeneric params args

/-- Does one of the type expressions mention one of the parameters? -/
def anyContainsGeneric (params : List TypeParam) : List TypeSpec → Bool
  | [] => false
  | s :: ss => functionReturnContainsGeneric params s || anyContainsGeneric params ss

end

/-! ## Callable declarations -/

/-- What the checker reads of a declared function or trait method when a name
    refers to it. -/
structure Candidate where
  ref : FunctionRef
  name : String
  nameToken : Token
  isPublic : Bool
  visibilityScope : String
  trait : String
  typeParams : List TypeParam
  /-- The parameters, each with whether it has a default. -/
  params : List (ParamSig × Bool)
  ret : TypeSpec
  receiver : Option TypeSpec
deriving Inhabited

/-- The candidate a declared function is. -/
def Function.candidate (f : Function) (index : Nat) : Candidate where
  ref := .top index
  name := f.name
  nameToken := f.nameToken
  isPublic := f.isPublic
  visibilityScope := f.visibilityScope
  trait := f.trait
  typeParams := f.typeParams
  params := f.params.map fun p => (p.toParamSig, p.default.isSome)
  ret := f.ret
  receiver := f.receiver

/-- The candidate a trait's method signature is. -/
def FunctionSig.candidate (f : FunctionSig) (trait : String) (index : Nat) : Candidate where
  ref := .traitMethod trait index
  name := f.name
  nameToken := f.nameToken
  isPublic := f.isPublic
  visibilityScope := f.visibilityScope
  trait := f.trait
  typeParams := f.typeParams
  params := f.params.map fun p => (p, false)
  ret := f.ret
  receiver := f.receiver

namespace Candidate

/-- `minArgs`. -/
def minArgs (f : Candidate) : Nat := (f.params.filter (!·.2)).length

/-- May code of this visibility scope refer to the declaration? -/
def visibleFrom (f : Candidate) (visibilityScope : String) : Bool :=
  f.isPublic || f.visibilityScope == visibilityScope

/-- One signature in `formatOverloadCandidates`. -/
def signature (f : Candidate) : String :=
  let receiver := match f.receiver with
    | some spec => spec.text ++ "." ++ f.name
    | none => f.name
  let parameters := f.typeParams.map fun p =>
    if p.constraint == "" then p.name else p.name ++ ": " ++ p.constraint
  let name := if parameters.isEmpty then receiver
    else receiver ++ "<" ++ String.intercalate ", " parameters ++ ">"
  name ++ "(" ++ String.intercalate ", " (f.params.map (·.1.type.text)) ++ ") -> " ++ f.ret.text

end Candidate

/-- `formatOverloadCandidates`. -/
def formatOverloadCandidates (functions : List Candidate) : String :=
  String.intercalate "; " ((functions.map (·.signature)).eraseDups.mergeSort (fun a b => a ≤ b))

namespace TypeEnv

/-- The candidates registered under positions of the function table. -/
def candidatesAt (env : TypeEnv) (indices : List Nat) : List Candidate :=
  indices.filterMap fun i => (env.functions[i]?).map fun f => f.candidate i

/-- `Env.Overloads[key]`, as candidates. `Env.Functions` holds the first of the
    same set, so an empty set has no fallback. -/
def candidates (env : TypeEnv) (key : String) : List Candidate :=
  env.candidatesAt (env.overloadSet key)

end TypeEnv

/-- `methodKey`. -/
def methodKey (receiver : Ty) (name : String) : String := receiver.text ++ "::" ++ name

/-- `hasUniqueConcreteFunctionValue`. -/
def hasUniqueConcreteFunctionValue (env : TypeEnv) (visibilityScope name : String) : Bool :=
  match (env.candidates name).filter (·.visibleFrom visibilityScope) with
  | [f] => f.typeParams.isEmpty
  | _ => false

/-- `Checker.methodsForReceiver`. -/
def methodsForReceiver (env : TypeEnv) (receiver : Ty) (name : String) : List Candidate :=
  let direct := env.candidates (methodKey receiver name)
  let fromTrait := match receiver with
    | .generic _ constraint =>
        match env.traitDecl constraint with
        | some trait => (trait.methods.zipIdx.filter (·.1.name == name)).map fun m =>
            m.1.candidate trait.name m.2
        | none => []
    | _ => []
  let onStruct := match receiver with
    | .struct declName _ =>
        let inherent := env.overloads.flatMap fun entry =>
          (env.candidatesAt entry.2).filter fun f =>
            f.name == name && match f.receiver with
              | some spec => spec.name == declName
              | none => false
        let implemented := env.traitImpls.flatMap fun entry =>
          if entry.2.1 == receiver.text then
            (env.candidatesAt entry.2.2.methods).filter fun f =>
              f.name == name && f.trait == entry.1
          else []
        inherent ++ implemented
    | _ => []
  (direct ++ fromTrait ++ onStruct).foldl
    (fun seen f => if seen.any (·.ref == f.ref) then seen else seen ++ [f]) []

end Kryndel
