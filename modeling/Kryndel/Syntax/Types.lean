import Kryndel.Syntax.Source

/-!
# Type expressions and checked types

`TypeSpec` is what the parser reads where a type is written; `Ty` is what the
checker resolves it to. The program shares `Type` nodes by pointer; the model
keeps the tree, and a struct or enum type names its declaration, since the
checker admits one declaration for each name.
-/

namespace Kryndel

/-! ## Type expressions -/

/-- A type as written in the source (`TypeSpec`). -/
inductive TypeSpec where
  | named (name : String) (params : List TypeSpec) (tok : Token)
  | function (params : List TypeSpec) (ret : TypeSpec) (tok : Token)
deriving Repr, Inhabited

namespace TypeSpec

/-- The token a type expression starts at. -/
def tok : TypeSpec → Token
  | .named _ _ tok => tok
  | .function _ _ tok => tok

/-- The written name; a function type has none. -/
def name : TypeSpec → String
  | .named name _ _ => name
  | .function _ _ _ => ""

/-- The written arguments, or the parameters of a function type. -/
def params : TypeSpec → List TypeSpec
  | .named _ params _ => params
  | .function params _ _ => params

/-- Is this a function type? -/
def isFunction : TypeSpec → Bool
  | .named _ _ _ => false
  | .function _ _ _ => true

mutual

/-- `TypeSpecString`. -/
def text : TypeSpec → String
  | .named name [] _ => name
  | .named name (p :: ps) _ => name ++ "[" ++ String.intercalate ", " (texts (p :: ps)) ++ "]"
  | .function params ret _ => "fn(" ++ String.intercalate ", " (texts params) ++ ") -> " ++ ret.text

/-- The printed forms of a list of type expressions. -/
def texts : List TypeSpec → List String
  | [] => []
  | s :: ss => s.text :: texts ss

end

end TypeSpec

/-- A declared type parameter with its constraint (`TypeParam`). -/
structure TypeParam where
  name : String
  constraint : String
  tok : Token
deriving DecidableEq, Repr, Inhabited

/-! ## Checked types -/

/-- A checked type (`Type`, with the constructors of `TypeKind`). -/
inductive Ty where
  | error | unknown | void | nil | int
  | uint (bits : UInt8)
  | float | bool | string | bytes
  | array (a : Ty)
  | option (a : Ty)
  | result (a b : Ty)
  | channel (a : Ty)
  | thread (a : Ty)
  | struct (name : String) (params : List Ty)
  | enum (name : String)
  | map (k v : Ty)
  | set (a : Ty)
  | json | webSocket
  | generic (name constraint : String)
  | actor (a : Ty)
  | shared (a : Ty)
  | taskGroup | regex | random | sqlite | tcpSocket | tcpListener | udpSocket
  | ffiLibrary | ffiSymbol | ffiBuffer
  | function (params : List Ty) (ret : Ty)
deriving Repr, Inhabited

namespace Ty

mutual

/-- `Type.String`. -/
def text : Ty → String
  | .error => "<error>"
  | .unknown => "<unknown>"
  | .void => "Void"
  | .nil => "Nil"
  | .int => "Int"
  | .uint bits => "UInt" ++ toString bits.toNat
  | .float => "Float"
  | .bool => "Bool"
  | .string => "String"
  | .bytes => "Bytes"
  | .array a => "Array[" ++ a.text ++ "]"
  | .option a => "Option[" ++ a.text ++ "]"
  | .result a b => "Result[" ++ a.text ++ ", " ++ b.text ++ "]"
  | .channel a => "Channel[" ++ a.text ++ "]"
  | .thread a => "Thread[" ++ a.text ++ "]"
  | .struct name [] => name
  | .struct name (p :: ps) => name ++ "[" ++ String.intercalate ", " (texts (p :: ps)) ++ "]"
  | .enum name => name
  | .map k v => "Map[" ++ k.text ++ ", " ++ v.text ++ "]"
  | .set a => "Set[" ++ a.text ++ "]"
  | .json => "Json"
  | .webSocket => "WebSocket"
  | .generic name _ => name
  | .actor a => "Actor[" ++ a.text ++ "]"
  | .shared a => "Shared[" ++ a.text ++ "]"
  | .taskGroup => "TaskGroup"
  | .regex => "Regex"
  | .random => "Random"
  | .sqlite => "SQLite"
  | .tcpSocket => "TcpSocket"
  | .tcpListener => "TcpListener"
  | .udpSocket => "UdpSocket"
  | .ffiLibrary => "FFILibrary"
  | .ffiSymbol => "FFISymbol"
  | .ffiBuffer => "FFIBuffer"
  | .function params ret => "fn(" ++ String.intercalate ", " (texts params) ++ ") -> " ++ ret.text

/-- The printed forms of a list of types. -/
def texts : List Ty → List String
  | [] => []
  | t :: ts => t.text :: texts ts

end

/-- `typeArguments`: the types a type is built from. -/
def arguments : Ty → List Ty
  | .array a | .option a | .channel a | .thread a | .set a | .actor a | .shared a => [a]
  | .result a b | .map a b => [a, b]
  | .struct _ params => params
  | .function params ret => params ++ [ret]
  | _ => []

theorem sizeOf_argument {t u : Ty} (h : u ∈ t.arguments) : sizeOf u < sizeOf t := by
  cases t with
  | struct name params =>
    have hsize := List.sizeOf_lt_of_mem h
    rw [Ty.arguments] at hsize
    rw [Ty.struct.sizeOf_spec]
    omega
  | function params ret =>
    rw [Ty.function.sizeOf_spec]
    rcases List.mem_append.mp h with h | h
    · have hsize := List.sizeOf_lt_of_mem h
      omega
    · rw [List.mem_singleton.mp h]
      omega
  | _ =>
    simp only [Ty.arguments, List.mem_cons, List.not_mem_nil, or_false] at h <;> grind

/-- Do two types have the same `TypeKind`? -/
def sameKind : Ty → Ty → Bool
  | .error, .error | .unknown, .unknown | .void, .void | .nil, .nil | .int, .int => true
  | .uint _, .uint _ | .float, .float | .bool, .bool | .string, .string | .bytes, .bytes => true
  | .array _, .array _ | .option _, .option _ | .result _ _, .result _ _ => true
  | .channel _, .channel _ | .thread _, .thread _ | .struct _ _, .struct _ _ => true
  | .enum _, .enum _ | .map _ _, .map _ _ | .set _, .set _ | .json, .json => true
  | .webSocket, .webSocket | .generic _ _, .generic _ _ | .actor _, .actor _ => true
  | .shared _, .shared _ | .taskGroup, .taskGroup | .regex, .regex | .random, .random => true
  | .sqlite, .sqlite | .tcpSocket, .tcpSocket | .tcpListener, .tcpListener => true
  | .udpSocket, .udpSocket | .ffiLibrary, .ffiLibrary | .ffiSymbol, .ffiSymbol => true
  | .ffiBuffer, .ffiBuffer | .function _ _, .function _ _ => true
  | _, _ => false

end Ty

/-! ## Identity of types -/

namespace Ty

mutual

/-- Are two types one and the same tree? -/
def same : Ty → Ty → Bool
  | .uint a, .uint b => a == b
  | .array a, .array b | .option a, .option b | .channel a, .channel b | .thread a, .thread b
  | .set a, .set b | .actor a, .actor b | .shared a, .shared b => a.same b
  | .result a b, .result c d | .map a b, .map c d => a.same c && b.same d
  | .struct m as, .struct n bs => m == n && sameAll as bs
  | .enum m, .enum n => m == n
  | .generic m c, .generic n d => m == n && c == d
  | .function as a, .function bs b => sameAll as bs && a.same b
  | a, b => a.ctorIdx == b.ctorIdx

/-- Are the types of two lists the same, one by one? -/
def sameAll : List Ty → List Ty → Bool
  | [], [] => true
  | a :: as, b :: bs => a.same b && sameAll as bs
  | _, _ => false

end

mutual

theorem same_iff (a b : Ty) : a.same b = true ↔ a = b := by
  cases a with
  | array a =>
    cases b with
    | array b => simp [same, same_iff a b]
    | _ => simp [same, Ty.ctorIdx]
  | option a =>
    cases b with
    | option b => simp [same, same_iff a b]
    | _ => simp [same, Ty.ctorIdx]
  | channel a =>
    cases b with
    | channel b => simp [same, same_iff a b]
    | _ => simp [same, Ty.ctorIdx]
  | thread a =>
    cases b with
    | thread b => simp [same, same_iff a b]
    | _ => simp [same, Ty.ctorIdx]
  | set a =>
    cases b with
    | set b => simp [same, same_iff a b]
    | _ => simp [same, Ty.ctorIdx]
  | actor a =>
    cases b with
    | actor b => simp [same, same_iff a b]
    | _ => simp [same, Ty.ctorIdx]
  | shared a =>
    cases b with
    | shared b => simp [same, same_iff a b]
    | _ => simp [same, Ty.ctorIdx]
  | result a a' =>
    cases b with
    | result b b' => simp [same, same_iff a b, same_iff a' b']
    | _ => simp [same, Ty.ctorIdx]
  | map a a' =>
    cases b with
    | map b b' => simp [same, same_iff a b, same_iff a' b']
    | _ => simp [same, Ty.ctorIdx]
  | struct m as =>
    cases b with
    | struct n bs => simp [same, sameAll_iff as bs]
    | _ => simp [same, Ty.ctorIdx]
  | function as a =>
    cases b with
    | function bs b => simp [same, sameAll_iff as bs, same_iff a b]
    | _ => simp [same, Ty.ctorIdx]
  | _ => cases b <;> simp [same, Ty.ctorIdx]

theorem sameAll_iff (as bs : List Ty) : sameAll as bs = true ↔ as = bs := by
  match as, bs with
  | [], [] | [], _ :: _ | _ :: _, [] => simp [sameAll]
  | a :: as, b :: bs => simp [sameAll, same_iff a b, sameAll_iff as bs]

end

end Ty

instance : DecidableEq Ty := fun a b => decidable_of_iff _ (a.same_iff b)

/-! ## Type equality -/

mutual

/-- The recursive part of `typeEqual`. The counter is the number of levels left:
    the source gives up below depth 128. Its table of visited pairs only cuts
    repeated work on shared nodes, so a tree has no counterpart for it. -/
def typeEqualAt : Nat → Ty → Ty → Bool
  | 0, _, _ => false
  | _ + 1, .unknown, _ => false
  | _ + 1, _, .unknown => false
  | _ + 1, .uint a, .uint b => a == b
  | n + 1, .struct a ps, .struct b qs => a == b && typesEqualAt n ps qs
  | _ + 1, .enum a, .enum b => a == b
  | _ + 1, .generic a c, .generic b d => a == b && c == d
  | n + 1, .array a, .array b => typeEqualAt n a b
  | n + 1, .option a, .option b => typeEqualAt n a b
  | n + 1, .channel a, .channel b => typeEqualAt n a b
  | n + 1, .thread a, .thread b => typeEqualAt n a b
  | n + 1, .set a, .set b => typeEqualAt n a b
  | n + 1, .actor a, .actor b => typeEqualAt n a b
  | n + 1, .shared a, .shared b => typeEqualAt n a b
  | n + 1, .result a b, .result c d => typeEqualAt n a c && typeEqualAt n b d
  | n + 1, .map a b, .map c d => typeEqualAt n a c && typeEqualAt n b d
  | n + 1, .function ps r, .function qs s =>
      ps.length == qs.length && typeEqualAt n r s && typesEqualAt n ps qs
  | _ + 1, a, b => a.sameKind b

/-- Equality of two argument lists, of the same length. -/
def typesEqualAt : Nat → List Ty → List Ty → Bool
  | _, [], [] => true
  | n, a :: as, b :: bs => typeEqualAt n a b && typesEqualAt n as bs
  | _, _, _ => false

end

/-- `typeEqual`. -/
def typeEqual (a b : Ty) : Bool := typeEqualAt 129 a b

/-- `compatible`: equal, or arrays of which one has no element type yet. -/
def compatible (a b : Ty) : Bool :=
  typeEqual a b ||
    match a, b with
    | .array .unknown, .array _ => true
    | .array _, .array .unknown => true
    | _, _ => false

/-! ## Predicates on types -/

/-- `typeKnown`: no unknown or error type inside. -/
def typeKnown : Ty → Bool
  | .unknown | .error => false
  | .array a | .option a | .channel a | .thread a | .set a | .actor a | .shared a => typeKnown a
  | .result a b | .map a b => typeKnown a && typeKnown b
  | .function params ret => typeKnown ret && typesKnown params
  | .struct _ params => typesKnown params
  | _ => true
where
  /-- Every type of a list is known. -/
  typesKnown : List Ty → Bool
    | [] => true
    | t :: ts => typeKnown t && typesKnown ts

/-- `genericConstraint`. -/
def genericConstraint : Ty → String
  | .generic _ constraint => constraint
  | _ => ""

/-- `numeric`. -/
def numeric : Ty → Bool
  | .generic _ constraint => constraint == "Numeric" || constraint == "Integer"
  | .int | .uint _ | .float => true
  | _ => false

/-- `integer`. -/
def integer : Ty → Bool
  | .generic _ constraint => constraint == "Integer"
  | .int | .uint _ => true
  | _ => false

/-- `isUInt`. -/
def isUInt : Ty → Bool
  | .uint _ => true
  | _ => false

end Kryndel
