import Kryndel.Syntax.Types
import Kryndel.Values.Numeric

/-!
# Runtime values

One value type serves both evaluators and the constant folder (`Value`). Lists
stand for the persistent arrays, a struct or enum value names its declaration,
and the host handles (channels, sockets, regular expressions and the like) are
identities with a kind. A function value is the identity of a closure that the
executor keeps in its own table.
-/

namespace Kryndel

/-- The kinds of host handle a value can hold. -/
inductive HandleKind where
  | channel | thread | webSocket | actor | shared | taskGroup | regex | random | sqlite
  | tcp | tcpListener | udp | ffiLibrary | ffiSymbol | ffiBuffer
deriving DecidableEq, Repr, Inhabited

/-- `Value`. -/
inductive Value where
  | nil
  | int (i : Int64)
  | uint (bits : UInt8) (u : UInt64)
  | float (f : Float64)
  | bool (b : Bool)
  | string (s : String)
  | bytes (bs : List UInt8)
  | array (items : List Value)
  | struct (decl : String) (type : Ty) (fields : List Value)
  | enum (decl variant : String)
  | absent
  | present (inner : Value)
  | result (ok : Bool) (inner : Value)
  | map (keys values : List Value)
  | set (items : List Value)
  | json (text : String)
  | handle (kind : HandleKind) (id : Nat)
  | function (id : Nat)
deriving Repr, Inhabited

namespace Value

/-- `uintVal`. -/
def uintVal (bits : UInt8) (v : UInt64) : Value := .uint bits (uintWrap bits v)

end Value

variable [FloatArith]

mutual

/-- `equalValue`. Struct values compare their instance types, and the JSON text
    is the canonical one. -/
def equalValue : Value → Value → Bool
  | .nil, .nil => true
  | .int a, .int b => a == b
  | .uint n a, .uint m b => n == m && a == b
  | .float a, .float b => FloatArith.eq a b
  | .bool a, .bool b => a == b
  | .string a, .string b => a == b
  | .bytes a, .bytes b => a == b
  | .array as, .array bs => equalValues as bs
  | .struct d t as, .struct e u bs => d == e && typeEqual t u && equalValues as bs
  | .enum d a, .enum e b => d == e && a == b
  | .absent, .absent => true
  | .present a, .present b => equalValue a b
  | .result p a, .result q b => p == q && equalValue a b
  | .map ks vs, .map ls ws => equalValues ks ls && equalValues vs ws
  | .set as, .set bs => equalValues as bs
  | .json a, .json b => a == b
  | .handle k a, .handle l b => k == l && a == b
  | .function a, .function b => a == b
  | _, _ => false

/-- Equality of two sequences, element by element. -/
def equalValues : List Value → List Value → Bool
  | [], [] => true
  | a :: as, b :: bs => equalValue a b && equalValues as bs
  | _, _ => false

end

end Kryndel
