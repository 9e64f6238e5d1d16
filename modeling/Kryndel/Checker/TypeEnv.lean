import Kryndel.Syntax.Ast

/-!
# The type environment

Declarations by name, resolution of written types, instantiation of generic
structs, and the type predicates that look through declarations: constraint
satisfaction, copyability, const-safety and visibility.

Walks that can revisit a declaration stop at depth 128 in the source. They carry
that bound here as a counter of the levels left.
-/

namespace Kryndel

/-- `Env.TypeParams`: the type parameters in scope. -/
abbrev TypeParams := List (String × Ty)

/-- The static part of `TypeEnv`. Overload sets hold positions in `functions`. -/
structure TypeEnv where
  structs : List StructDecl := []
  enums : List EnumDecl := []
  functions : List Function := []
  overloads : List (String × List Nat) := []
  traits : List TraitDecl := []
  traitImpls : List (String × String × TraitImplDecl) := []
  lim : Limits := {}
deriving Inhabited

namespace TypeEnv

/-- The struct declared under a name, if `Env.Types[name]` is a struct. -/
def structDecl (env : TypeEnv) (name : String) : Option StructDecl :=
  env.structs.find? (·.name == name)

/-- The enum declared under a name, if `Env.Types[name]` is an enum. -/
def enumDecl (env : TypeEnv) (name : String) : Option EnumDecl :=
  env.enums.find? (·.name == name)

/-- `Env.Overloads[key]`. -/
def overloadSet (env : TypeEnv) (key : String) : List Nat :=
  (env.overloads.lookup key).getD []

/-- `Env.Traits[name]`. -/
def traitDecl (env : TypeEnv) (name : String) : Option TraitDecl :=
  env.traits.find? (·.name == name)

/-- `Env.TraitImpls[trait][target]`. -/
def traitImpl (env : TypeEnv) (trait target : String) : Option TraitImplDecl :=
  (env.traitImpls.find? fun entry => entry.1 == trait && entry.2.1 == target).map (·.2.2)

end TypeEnv

theorem structDecl_name {env : TypeEnv} {name : String} {decl : StructDecl}
    (h : env.structDecl name = some decl) : decl.name = name := by
  have hname := List.find?_some h
  exact beq_iff_eq.mp hname

/-! ## Substitution -/

mutual

/-- `substituteType`, with the number of levels left. A replacement that is itself
    a parameter of the map is followed once more, unless it stands for itself. -/
def substituteTypeAt (subst : TypeParams) : Nat → Ty → Ty
  | 0, original => original
  | n + 1, .generic name constraint =>
      match subst.lookup name with
      | none => .generic name constraint
      | some replacement =>
          match replacement with
          | .generic next _ =>
              match subst.lookup next with
              | some target =>
                  if target == replacement then replacement else substituteTypeAt subst n target
              | none => replacement
          | _ => replacement
  | n + 1, .array a => .array (substituteTypeAt subst n a)
  | n + 1, .option a => .option (substituteTypeAt subst n a)
  | n + 1, .result a b => .result (substituteTypeAt subst n a) (substituteTypeAt subst n b)
  | n + 1, .channel a => .channel (substituteTypeAt subst n a)
  | n + 1, .thread a => .thread (substituteTypeAt subst n a)
  | n + 1, .map k v => .map (substituteTypeAt subst n k) (substituteTypeAt subst n v)
  | n + 1, .set a => .set (substituteTypeAt subst n a)
  | n + 1, .actor a => .actor (substituteTypeAt subst n a)
  | n + 1, .shared a => .shared (substituteTypeAt subst n a)
  | n + 1, .struct name params => .struct name (substituteTypesAt subst n params)
  | n + 1, .function params ret =>
      .function (substituteTypesAt subst n params) (substituteTypeAt subst n ret)
  | _ + 1, t => t

/-- Substitution in a list of types. -/
def substituteTypesAt (subst : TypeParams) : Nat → List Ty → List Ty
  | _, [] => []
  | n, t :: ts => substituteTypeAt subst n t :: substituteTypesAt subst n ts

end

/-- `substituteType` from depth zero. -/
def substituteType (subst : TypeParams) (t : Ty) : Ty := substituteTypeAt subst 129 t

/-- `structFieldType`: the type of a field of a struct instance. A field whose
    type is not resolved yet has none. -/
def structFieldType (env : TypeEnv) (instanceType : Ty) (field : FieldDecl) : Option Ty :=
  match instanceType with
  | .struct name params =>
      match env.structDecl name with
      | some decl =>
          if params.length = decl.typeParams.length then
            field.type.map (substituteType ((decl.typeParams.map (·.name)).zip params))
          else field.type
      | none => field.type
  | _ => field.type

theorem structFieldType_isSome (env : TypeEnv) (t : Ty) (field : FieldDecl) :
    (structFieldType env t field).isSome = field.type.isSome := by
  unfold structFieldType
  split
  · split
    · split
      · exact Option.isSome_map
      · rfl
    · rfl
  · rfl

/-! ## Predicates that look through declarations -/

/-- `containsFunctionType`, with the number of levels left. -/
def containsFunctionTypeAt (env : TypeEnv) : Nat → Ty → Bool
  | 0, _ => false
  | _ + 1, .function _ _ => true
  | n + 1, t =>
      t.arguments.any (containsFunctionTypeAt env n) ||
        match t with
        | .struct name _ =>
            match env.structDecl name with
            | some decl => decl.fields.any fun field =>
                match structFieldType env t field with
                | some fieldType => containsFunctionTypeAt env n fieldType
                | none => false
            | none => false
        | _ => false

/-- `containsFunctionType`. -/
def containsFunctionType (env : TypeEnv) (t : Ty) : Bool := containsFunctionTypeAt env 129 t

/-- The visitor of `TypeCopyable`, with the number of levels left. Every branch is
    a conjunction, so its memo table matters only where a node is met again further
    down than the levels go. -/
def typeCopyableAt (env : TypeEnv) : Nat → Ty → Bool
  | 0, _ => false
  | n + 1, t =>
      match t with
      | .nil | .int | .uint _ | .float | .bool | .string | .bytes | .enum _ | .json => true
      | .generic _ constraint =>
          constraint == "Copy" || constraint == "Integer" || constraint == "Numeric" ||
            constraint == "Comparable"
      | .shared _ => true
      | .array a | .option a | .set a | .actor a => typeCopyableAt env n a
      | .result a b | .map a b => typeCopyableAt env n a && typeCopyableAt env n b
      | .struct name params =>
          match env.structDecl name with
          | some decl =>
              params.all (typeCopyableAt env n) && decl.fields.all fun field =>
                match structFieldType env t field with
                | some fieldType => typeCopyableAt env n fieldType
                | none => false
          | none => false
      | _ => false

/-- `TypeCopyable`. -/
def typeCopyable (env : TypeEnv) (t : Ty) : Bool := typeCopyableAt env 129 t

theorem typeCopyableAt_generic {env : TypeEnv} {n : Nat} {name constraint : String} :
    typeCopyableAt env (n + 1) (.generic name constraint) =
      (constraint == "Copy" || constraint == "Integer" || constraint == "Numeric" ||
        constraint == "Comparable") := rfl

theorem typeCopyableAt_struct_eq {env : TypeEnv} {n : Nat} {name : String} {params : List Ty} :
    typeCopyableAt env (n + 1) (.struct name params) =
      match env.structDecl name with
      | some decl =>
          params.all (typeCopyableAt env n) && decl.fields.all fun field =>
            match structFieldType env (.struct name params) field with
            | some fieldType => typeCopyableAt env n fieldType
            | none => false
      | none => false := rfl

mutual

/-- Does a type contain an instance of a generic struct? -/
def Ty.hasInstance : Ty → Bool
  | .array a | .option a | .channel a | .thread a | .set a | .actor a | .shared a => a.hasInstance
  | .result a b | .map a b => a.hasInstance || b.hasInstance
  | .struct _ params => !params.isEmpty
  | .function params ret => Ty.anyInstance params || ret.hasInstance
  | _ => false

/-- Does a list of types contain an instance of a generic struct? -/
def Ty.anyInstance : List Ty → Bool
  | [] => false
  | t :: ts => t.hasInstance || Ty.anyInstance ts

end

/-- The visitor of `TypeConstSafe`, with the number of levels left. Its table of
    visited nodes is keyed by pointer: instantiating a generic struct makes new
    nodes, so types with an instance inside are never found in it. -/
def typeConstSafeAt (env : TypeEnv) : Nat → List Ty → Ty → Bool
  | 0, _, _ => false
  | n + 1, seen, t =>
      if !t.hasInstance && seen.elem t then true
      else
        let seen := t :: seen
        match t with
        | .nil | .int | .uint _ | .float | .bool | .string | .bytes | .enum _ => true
        | .array a | .option a | .set a => typeConstSafeAt env n seen a
        | .result a b | .map a b => typeConstSafeAt env n seen a && typeConstSafeAt env n seen b
        | .struct name params =>
            match env.structDecl name with
            | some decl =>
                params.all (typeConstSafeAt env n seen) && decl.fields.all fun field =>
                  match structFieldType env t field with
                  | some fieldType => typeConstSafeAt env n seen fieldType
                  | none => false
            | none => false
        | _ => false

/-- `TypeConstSafe`. -/
def typeConstSafe (env : TypeEnv) (t : Ty) : Bool := typeConstSafeAt env 129 [] t

/-! ## Visibility -/

/-- `ensurePublicType` (always called with no local module), with the number of
    levels left. -/
def ensurePublicTypeAt (env : TypeEnv) : Nat → Ty → Bool
  | 0, _ => false
  | n + 1, t =>
      match t with
      | .struct name params =>
          match env.structDecl name with
          | some decl =>
              (decl.isPublic || decl.module == "") && params.all (ensurePublicTypeAt env n) &&
                decl.fields.all fun field =>
                  match structFieldType env t field with
                  | some fieldType => ensurePublicTypeAt env n fieldType
                  | none => false
          | none => false
      | .enum name =>
          match env.enumDecl name with
          | some decl => decl.isPublic || decl.module == ""
          | none => false
      | .array a | .option a | .channel a | .thread a | .set a | .actor a | .shared a =>
          ensurePublicTypeAt env n a
      | .result a b | .map a b => ensurePublicTypeAt env n a && ensurePublicTypeAt env n b
      | .function params ret => ensurePublicTypeAt env n ret && params.all (ensurePublicTypeAt env n)
      | _ => true

/-- `ensurePublicType`. -/
def ensurePublicType (env : TypeEnv) (t : Ty) : Bool := ensurePublicTypeAt env 129 t

/-- The first non-empty string of a list, as the source's loops return it. -/
def firstName (names : List String) : String := (names.find? (· != "")).getD ""

/-- `inaccessibleTypeName`, with the number of levels left. -/
def inaccessibleTypeNameAt (env : TypeEnv) (visibilityScope : String) : Nat → Ty → String
  | 0, _ => ""
  | n + 1, t =>
      match t with
      | .struct name params =>
          match env.structDecl name with
          | some decl =>
              if !decl.isPublic && decl.visibilityScope != visibilityScope then name
              else firstName (params.map (inaccessibleTypeNameAt env visibilityScope n))
          | none => name
      | .enum name =>
          match env.enumDecl name with
          | some decl =>
              if !decl.isPublic && decl.visibilityScope != visibilityScope then name else ""
          | none => name
      | .array a | .option a | .channel a | .thread a | .set a | .actor a | .shared a =>
          inaccessibleTypeNameAt env visibilityScope n a
      | .result a b | .map a b =>
          firstName [inaccessibleTypeNameAt env visibilityScope n a,
            inaccessibleTypeNameAt env visibilityScope n b]
      | .function params ret =>
          firstName (params.map (inaccessibleTypeNameAt env visibilityScope n) ++
            [inaccessibleTypeNameAt env visibilityScope n ret])
      | _ => ""

/-- `inaccessibleTypeName`. -/
def inaccessibleTypeName (env : TypeEnv) (visibilityScope : String) (t : Ty) : String :=
  inaccessibleTypeNameAt env visibilityScope 129 t

/-! ## Constraints -/

/-- `satisfiesConstraint`, for the built-in constraints. -/
def satisfiesBuiltinConstraint (env : TypeEnv) (t : Ty) (constraint : String) : Bool :=
  match t with
  | .generic _ inherited =>
      if constraint == "" || constraint == "Any" then true
      else if constraint == "Copy" then
        inherited == "Copy" || inherited == "Integer" || inherited == "Numeric" ||
          inherited == "Comparable"
      else if constraint == "Numeric" then inherited == "Integer" || inherited == "Numeric"
      else if constraint == "Integer" then inherited == "Integer"
      else if constraint == "Comparable" then
        inherited == "Comparable" || inherited == "Integer" || inherited == "Numeric"
      else false
  | _ =>
      if constraint == "" || constraint == "Any" then
        match t with
        | .error | .unknown => false
        | _ => true
      else if constraint == "Copy" then typeCopyable env t
      else if constraint == "Numeric" then numeric t
      else if constraint == "Integer" then
        match t with
        | .int | .uint _ => true
        | _ => false
      else if constraint == "Comparable" then
        match t with
        | .nil | .int | .uint _ | .float | .bool | .string | .bytes | .enum _ => true
        | _ => false
      else false

section Builtin

variable {env : TypeEnv} {t : Ty}

theorem satisfiesBuiltinConstraint_copy (h : ∀ name inherited, t ≠ .generic name inherited) :
    satisfiesBuiltinConstraint env t "Copy" = typeCopyable env t := by
  cases t with
  | generic name inherited => exact absurd rfl (h name inherited)
  | _ => rfl

theorem satisfiesBuiltinConstraint_plain {constraint : String}
    (hconstraint : constraint ∈ ["Integer", "Numeric", "Comparable"])
    (h : satisfiesBuiltinConstraint env t constraint = true) :
    (∃ name inherited, t = .generic name inherited) ∨
      t ∈ [.nil, .int, .float, .bool, .string, .bytes] ∨ (∃ n, t = .uint n) ∨
        ∃ name, t = .enum name := by
  simp only [List.mem_cons, List.not_mem_nil, or_false] at hconstraint
  rcases hconstraint with rfl | rfl | rfl
  all_goals
    cases t with
    | generic name inherited => exact .inl ⟨name, inherited, rfl⟩
    | nil | int | float | bool | string | bytes => simp
    | uint n => exact .inr (.inr (.inl ⟨n, rfl⟩))
    | enum name => exact .inr (.inr (.inr ⟨name, rfl⟩))
    | _ => exact Bool.noConfusion h

end Builtin

/-- `TypeEnv.satisfiesConstraint`. -/
def TypeEnv.satisfiesConstraint (env : TypeEnv) (t : Ty) (constraint : String) : Bool :=
  match env.traitDecl constraint with
  | some _ =>
      match t with
      | .generic _ inherited => inherited == constraint
      | .struct _ _ => (env.traitImpl constraint t.text).isSome
      | _ => false
  | none => satisfiesBuiltinConstraint env t constraint

/-- `knownTypeConstraint`. -/
def knownTypeConstraint (env : TypeEnv) (constraint : String) : Bool :=
  constraint == "" || constraint == "Any" || constraint == "Copy" || constraint == "Integer" ||
    constraint == "Numeric" || constraint == "Comparable" || (env.traitDecl constraint).isSome

/-! ## Resolution of written types -/

/-- The types that a bare name denotes before type parameters are considered. -/
def builtinType : String → Option Ty
  | "Void" => some .void
  | "Nil" => some .nil
  | "Int" => some .int
  | "UInt8" => some (.uint 8)
  | "UInt16" => some (.uint 16)
  | "UInt32" => some (.uint 32)
  | "UInt64" => some (.uint 64)
  | "Float" => some .float
  | "Bool" => some .bool
  | "String" => some .string
  | "Bytes" => some .bytes
  | "Json" => some .json
  | "WebSocket" => some .webSocket
  | "Regex" => some .regex
  | "Random" => some .random
  | "SQLite" => some .sqlite
  | "TcpSocket" => some .tcpSocket
  | "TcpListener" => some .tcpListener
  | "UdpSocket" => some .udpSocket
  | "FFILibrary" => some .ffiLibrary
  | "FFISymbol" => some .ffiSymbol
  | "FFIBuffer" => some .ffiBuffer
  | "Array" => some (.array .unknown)
  | _ => none

/-- The container constructors of `resolveSpec`, applied to resolved arguments. -/
def containerType : String → List Ty → Option Ty
  | "Array", [a] => some (.array a)
  | "Option", [a] => some (.option a)
  | "Result", [a, b] => some (.result a b)
  | "Channel", [a] => some (.channel a)
  | "Thread", [a] => some (.thread a)
  | "Map", [k, v] => some (.map k v)
  | "Set", [a] => some (.set a)
  | "Actor", [a] => some (.actor a)
  | "Shared", [a] => some (.shared a)
  | _, _ => none

/-- The number of arguments of a container constructor. -/
def containerArity : String → Option Nat
  | "Array" | "Option" | "Channel" | "Thread" | "Set" | "Actor" | "Shared" => some 1
  | "Result" | "Map" => some 2
  | _ => none

mutual

/-- `resolveSpec`. -/
def resolveSpec (env : TypeEnv) (typeParams : TypeParams) (depth : Nat) :
    TypeSpec → Except Diagnostic Ty
  | .function params ret tok =>
      if env.lim.maxTypeDepth < depth then
        .error (diag .resource tok.source tok.line tok.column "type depth limit exceeded")
      else do
        let params ← resolveSpecs env typeParams (depth + 1) params
        let ret ← resolveSpec env typeParams (depth + 1) ret
        return .function params ret
  | .named name params tok =>
      if env.lim.maxTypeDepth < depth then
        .error (diag .resource tok.source tok.line tok.column "type depth limit exceeded")
      else
        match (if params.isEmpty then (builtinType name <|> typeParams.lookup name) else none) with
        | some t => .ok t
        | none =>
            if containerArity name = some params.length then do
              let arguments ← resolveSpecs env typeParams (depth + 1) params
              return (containerType name arguments).getD .error
            else if name == "TaskGroup" then .ok .taskGroup
            else
              match env.structDecl name with
              | some decl =>
                  if params.length ≠ decl.typeParams.length then
                    if decl.typeParams.isEmpty then
                      .error (tok.typeError
                        ("type '" ++ name ++ "' does not accept type arguments"))
                    else
                      .error (tok.typeError ("type '" ++ name ++ "' expects " ++
                        toString decl.typeParams.length ++ " type argument(s), got " ++
                        toString params.length))
                  else do
                    let arguments ←
                      resolveArguments env typeParams (depth + 1) params decl.typeParams
                    return .struct decl.name arguments
              | none =>
                  match (if params.isEmpty then env.enumDecl name else none) with
                  | some decl => .ok (.enum decl.name)
                  | none => .error (tok.typeError ("unknown or malformed type '" ++ name ++ "'"))

/-- Resolution of a list of types, stopping at the first error. -/
def resolveSpecs (env : TypeEnv) (typeParams : TypeParams) (depth : Nat) :
    List TypeSpec → Except Diagnostic (List Ty)
  | [] => .ok []
  | s :: ss => do
      let t ← resolveSpec env typeParams depth s
      let ts ← resolveSpecs env typeParams depth ss
      return t :: ts

/-- Resolution of the arguments of a struct type, each checked against its
    parameter's constraint before the next is resolved. -/
def resolveArguments (env : TypeEnv) (typeParams : TypeParams) (depth : Nat) :
    List TypeSpec → List TypeParam → Except Diagnostic (List Ty)
  | s :: ss, p :: ps => do
      let t ← resolveSpec env typeParams depth s
      if env.satisfiesConstraint t p.constraint then
        let ts ← resolveArguments env typeParams depth ss ps
        return t :: ts
      else
        .error (s.tok.typeError ("type argument " ++ t.text ++ " does not satisfy " ++
          p.constraint ++ " constraint for " ++ p.name))
  | _, _ => .ok []

end

end Kryndel
