import Kryndel.CBackend.Expression
import Kryndel.Values.Arithmetic

/-!
# Unsigned integers in the C runtime

A `KValue` of the C runtime has a tag and, for all widths of unsigned integers, a word of 64
bits; the width is not kept. This is what the emitted C does with such values, beside what the
executor does with its own.

Calls of `print` and `println` come to what is printed. Limits on memory are left out.
-/

namespace Kryndel

/-- `KValue`, as far as unsigned integers go. -/
inductive KValue where
  | nil
  | int (i : Int64)
  | uint (u : UInt64)
  | float (f : Float64)
  | bool (b : Bool)
  | string (s : String)
  | map (keys vals : List KValue)
  | absent
  | present (inner : KValue)
deriving Inhabited

/-- The conversions of numbers to floating-point numbers. -/
structure FloatConversions where
  ofInt : Int64 → Float64
  ofUInt : UInt64 → Float64

/-! ## Equality and display -/

section Equality

variable [FloatArith]

mutual

/-- `k_equal`. -/
def kEqual : KValue → KValue → Bool
  | .nil, .nil => true
  | .int a, .int b => a == b
  | .uint a, .uint b => a == b
  | .float a, .float b => FloatArith.eq a b
  | .bool a, .bool b => a == b
  | .string a, .string b => a == b
  | .map ks vs, .map ls ws => kEqualAll ks ls && kEqualAll vs ws
  | .absent, .absent => true
  | .present a, .present b => kEqual a b
  | _, _ => false

def kEqualAll : List KValue → List KValue → Bool
  | [], [] => true
  | a :: as, b :: bs => kEqual a b && kEqualAll as bs
  | _, _ => false

end

end Equality

/-- `k_disp`, of scalars. -/
def kText : KValue → Option String
  | .nil => some "nil"
  | .int i => some (toString i.toInt)
  | .uint u => some (toString u.toNat)
  | .bool b => some (if b then "true" else "false")
  | .string s => some s
  | _ => none

/-- `display`, of scalars. -/
def scalarText : Value → Option String
  | .nil => some "nil"
  | .int i => some (toString i.toInt)
  | .uint _ u => some (toString u.toNat)
  | .bool b => some (if b then "true" else "false")
  | .string s => some s
  | _ => none

/-! ## Arithmetic of the runtime -/

/-- `LLONG_MAX` and `LLONG_MIN`. -/
def llongMax : Int64 := 9223372036854775807

def llongMin : Int64 := -9223372036854775808

def kAddI (a b : Int64) : Except String Int64 :=
  if (b > 0 ∧ a > llongMax - b) ∨ (b < 0 ∧ a < llongMin - b) then
    .error "checked integer arithmetic overflow"
  else .ok (a + b)

def kSubI (a b : Int64) : Except String Int64 :=
  if (b < 0 ∧ a > llongMax + b) ∨ (b > 0 ∧ a < llongMin + b) then
    .error "checked integer arithmetic overflow"
  else .ok (a - b)

/-- `k_mul_i`, with `__builtin_mul_overflow`. -/
def kMulI (a b : Int64) : Except String Int64 :=
  if (a * b).toInt = a.toInt * b.toInt then .ok (a * b)
  else .error "checked integer arithmetic overflow"

def kDivI (a b : Int64) : Except String Int64 :=
  if b = 0 then .error "division by zero"
  else if a = llongMin ∧ b = -1 then .error "checked integer arithmetic overflow"
  else .ok (a / b)

def kRemI (a b : Int64) : Except String Int64 :=
  if b = 0 then .error "remainder by zero"
  else if a = llongMin ∧ b = -1 then .error "checked integer arithmetic overflow"
  else .ok (a % b)

def incompatible : String := "operator operands have incompatible types"

section Arithmetic

variable [FloatArith]

def kFloat (f : Float64) : Except String KValue :=
  if FloatArith.isFinite f then .ok (.float f)
  else .error "floating-point result must be finite"

def kAdd : KValue → KValue → Except String KValue
  | .int a, .int b => (kAddI a b).map .int
  | .uint a, .uint b => .ok (.uint (a + b))
  | .float a, .float b => kFloat (FloatArith.add a b)
  | .string a, .string b => .ok (.string (a ++ b))
  | _, _ => .error incompatible

def kSub : KValue → KValue → Except String KValue
  | .int a, .int b => (kSubI a b).map .int
  | .uint a, .uint b => .ok (.uint (a - b))
  | .float a, .float b => kFloat (FloatArith.sub a b)
  | _, _ => .error incompatible

def kMul : KValue → KValue → Except String KValue
  | .int a, .int b => (kMulI a b).map .int
  | .uint a, .uint b => .ok (.uint (a * b))
  | .float a, .float b => kFloat (FloatArith.mul a b)
  | _, _ => .error incompatible

def kDiv : KValue → KValue → Except String KValue
  | .int a, .int b => (kDivI a b).map .int
  | .uint a, .uint b => if b = 0 then .error "division by zero" else .ok (.uint (a / b))
  | .float a, .float b =>
    if FloatArith.isZero b then .error "floating division by zero"
    else kFloat (FloatArith.div a b)
  | _, _ => .error incompatible

def kRem : KValue → KValue → Except String KValue
  | .int a, .int b => (kRemI a b).map .int
  | .uint a, .uint b => if b = 0 then .error "remainder by zero" else .ok (.uint (a % b))
  | _, _ => .error incompatible

/-- `k_lt`. -/
def kLt : KValue → KValue → Except String KValue
  | .int a, .int b => .ok (.bool (a < b))
  | .uint a, .uint b => .ok (.bool (a < b))
  | .float a, .float b => .ok (.bool (FloatArith.lt a b))
  | _, _ => .error incompatible

/-- `k_le`. -/
def kLe : KValue → KValue → Except String KValue
  | .int a, .int b => .ok (.bool (a ≤ b))
  | .uint a, .uint b => .ok (.bool (a ≤ b))
  | .float a, .float b => .ok (.bool (FloatArith.le a b))
  | _, _ => .error incompatible

end Arithmetic

/-! ## Conversions of the runtime -/

/-- `k_to_uint`. -/
def kToUInt (v : KValue) (bits : UInt64) : Except String KValue :=
  let inRange (n : UInt64) : Except String KValue :=
    if bits < 64 ∧ n ≥ 1 <<< bits then .error "value is outside unsigned range"
    else .ok (.uint n)
  match v with
  | .uint n => inRange n
  | .int i => if i < 0 then .error "Int is outside unsigned range" else inRange i.toUInt64
  | _ => .error "unsigned conversion is unsupported"

/-- `k_to_int`, apart from strings and floating-point numbers. -/
def kToInt : KValue → Except String KValue
  | .int i => .ok (.int i)
  | .uint u =>
    if u > 9223372036854775807 then .error "UInt is outside Int range"
    else .ok (.int u.toInt64)
  | .bool b => .ok (.int (if b then 1 else 0))
  | _ => .error "int conversion is unsupported"

/-- `k_to_float`, apart from strings. -/
def kToFloat [FloatArith] (conversions : FloatConversions) : KValue → Except String KValue
  | .float f => if FloatArith.isFinite f then .ok (.float f) else .error "Float must be finite"
  | .int i => .ok (.float (conversions.ofInt i))
  | _ => .error "float conversion is unsupported"

/-- `k_to_bool`, of scalars. -/
def kToBool : KValue → Bool
  | .nil => false
  | .bool b => b
  | .int i => i != 0
  | .uint u => u != 0
  | .string s => s != ""
  | .absent => false
  | _ => true

/-! ## Maps of the runtime -/

section Maps

variable [FloatArith]

/-- The loop of `k_map_get`. -/
def kFind (key : KValue) : List KValue → List KValue → KValue
  | k :: ks, v :: vs => if kEqual k key then .present v else kFind key ks vs
  | _, _ => .absent

/-- An entry of a map literal. -/
def kMapEntry : KValue → KValue → KValue → Except String KValue
  | .map ks vs, k, v =>
    if ks.any (kEqual · k) then .error "duplicate map key"
    else .ok (.map (ks ++ [k]) (vs ++ [v]))
  | _, _, _ => .error incompatible

def kMapGet : KValue → KValue → Except String KValue
  | .map ks vs, k => .ok (kFind k ks vs)
  | _, _ => .error "map_get expects Map[K,V]"

def kMapContainsKey : KValue → KValue → Except String KValue
  | .map ks _, k => .ok (.bool (ks.any (kEqual · k)))
  | _, _ => .error incompatible

def kUnwrapOr : KValue → KValue → KValue
  | .present inner, _ => inner
  | _, d => d

end Maps

/-! ## The emitted C -/

section Emitted

variable [FloatArith] (conversions : FloatConversions)

/-- The routines of the runtime. -/
def kRoutine : String → List String → List KValue → Except String KValue
  | "k_add", [], [a, b] => kAdd a b
  | "k_sub", [], [a, b] => kSub a b
  | "k_mul", [], [a, b] => kMul a b
  | "k_div", [], [a, b] => kDiv a b
  | "k_rem", [], [a, b] => kRem a b
  | "k_eq", [], [a, b] => .ok (.bool (kEqual a b))
  | "k_neq", [], [a, b] => .ok (.bool (!kEqual a b))
  | "k_lt", [], [a, b] => kLt a b
  | "k_le", [], [a, b] => kLe a b
  | "k_gt", [], [a, b] => kLt b a
  | "k_ge", [], [a, b] => kLe b a
  | "k_to_uint", ["8"], [a] => kToUInt a 8
  | "k_to_uint", ["16"], [a] => kToUInt a 16
  | "k_to_uint", ["32"], [a] => kToUInt a 32
  | "k_to_uint", ["64"], [a] => kToUInt a 64
  | "k_to_int", [], [a] => kToInt a
  | "k_to_float", [], [a] => kToFloat conversions a
  | "k_bool", [], [a] => .ok (.bool (kToBool a))
  | "k_str", [], [a] => ((kText a).map fun text => .ok (.string text)).getD (.error incompatible)
  | "k_map_get", [], [a, b] => kMapGet a b
  | "k_map_contains_key", [], [a, b] => kMapContainsKey a b
  | "k_unwrap_or", [], [a, b] => .ok (kUnwrapOr a b)
  | name, _, _ => .error name

/-- The routines that get integers, which are read without a look at the tags. -/
def kIntRoutine : String → Int64 → Int64 → Except String Int64
  | "k_add_i", a, b => kAddI a b
  | "k_sub_i", a, b => kSubI a b
  | "k_mul_i", a, b => kMulI a b
  | "k_div_i", a, b => kDivI a b
  | "k_rem_i", a, b => kRemI a b
  | name, _, _ => .error name

/-- A comparison of C integers. -/
def kIntCompare (operator : BinaryOp) (a b : Int64) : Except String KValue :=
  match operator with
  | .eqeq => .ok (.bool (a == b))
  | .neq => .ok (.bool (a != b))
  | .less => .ok (.bool (a < b))
  | .leq => .ok (.bool (a ≤ b))
  | .greater => .ok (.bool (a > b))
  | .geq => .ok (.bool (a ≥ b))
  | operator => .error operator.text

/-- What the emitted C does with the values of operands. -/
def kApply : COp → List KValue → Except String KValue
  | .routine name constants, vs => kRoutine conversions name constants vs
  | .intRoutine name, [.int a, .int b] => (kIntRoutine name a b).map .int
  | .intCompare operator, [.int a, .int b] => kIntCompare operator a b
  | .mapEntry, [entries, key, value] => kMapEntry entries key value
  | .map, [entries] => .ok entries
  | .print newline, [a] =>
    ((kText a).map fun text => .ok (.string (text ++ if newline then "\n" else ""))).getD
      (.error incompatible)
  | _, _ => .error incompatible

/-- A scalar of the executor in the C runtime. -/
def KValue.ofScalar : Value → KValue
  | .int i => .int i
  | .uint _ u => .uint u
  | .float f => .float f
  | .bool b => .bool b
  | .string s => .string s
  | _ => .nil

/-- A value of the executor in the C runtime: a scalar, a map of scalars or an optional one. -/
def KValue.of : Value → KValue
  | .map keys vals => .map (keys.map ofScalar) (vals.map ofScalar)
  | .absent => .absent
  | .present inner => .present (ofScalar inner)
  | v => ofScalar v

mutual

/-- The value of an emitted expression: the one that every order of its operands comes to, as
    none of them has an effect. -/
def cValue (env : String → KValue) : CExpr → Except String KValue
  | .value v => .ok (.of v)
  | .var name => .ok (env name)
  | .node _ form operands => do
    let vs ← cValues env operands
    match form with
    | .ordered op => kApply conversions op vs
    | .unordered op => kApply conversions op vs
    | .connective _ => .error incompatible

def cValues (env : String → KValue) : List CExpr → Except String (List KValue)
  | [] => .ok []
  | c :: cs => do
    let v ← cValue env c
    let vs ← cValues env cs
    return v :: vs

end

end Emitted

/-! ## The executor -/

section Executor

variable [FloatArith] (conversions : FloatConversions)

/-- `evalKIRBinary`, of scalars. -/
def kirBinary (operator : BinaryOp) (left right : Value) : Except String Value :=
  match operator with
  | .eqeq => .ok (.bool (equalValue left right))
  | .neq => .ok (.bool (!equalValue left right))
  | operator =>
    match left, right with
    | .uint lbits l, .uint rbits r => evalUInts operator lbits l rbits r
    | .int l, .int r => evalInts operator l r
    | _, _ => .error incompatible

/-- `toInt`, apart from strings and floating-point numbers. -/
def toInt : Value → Except String Value
  | .int i => .ok (.int i)
  | .uint _ u =>
    if u > 9223372036854775807 then .error "UInt is outside Int range"
    else .ok (.int u.toInt64)
  | .bool b => .ok (.int (if b then 1 else 0))
  | _ => .error "int conversion is unsupported"

/-- `toFloat`, apart from strings. -/
def toFloat : Value → Except String Value
  | .float f => if FloatArith.isFinite f then .ok (.float f) else .error "Float must be finite"
  | .int i => .ok (.float (conversions.ofInt i))
  | .uint _ u => .ok (.float (conversions.ofUInt u))
  | _ => .error "float conversion is unsupported"

/-- `toBool`, of scalars. -/
def toBool : Value → Bool
  | .nil => false
  | .bool b => b
  | .int i => i != 0
  | .uint _ u => u != 0
  | .string s => s != ""
  | .absent => false
  | _ => true

/-- The loop of `map_get`. -/
def findKey (key : Value) : List Value → List Value → Value
  | k :: ks, v :: vs => if equalValue k key then .present v else findKey key ks vs
  | _, _ => .absent

/-- The builtins at hand. -/
def kirBuiltin : String → List Value → Except String Value
  | "u8", [v] => toUInt v 8
  | "u16", [v] => toUInt v 16
  | "u32", [v] => toUInt v 32
  | "u64", [v] => toUInt v 64
  | "int", [v] => toInt v
  | "float", [v] => toFloat conversions v
  | "bool", [v] => .ok (.bool (toBool v))
  | "str", [v] =>
    ((scalarText v).map fun text => .ok (.string text)).getD (.error incompatible)
  | "print", [v] =>
    ((scalarText v).map fun text => .ok (.string (text ++ ""))).getD (.error incompatible)
  | "println", [v] =>
    ((scalarText v).map fun text => .ok (.string (text ++ "\n"))).getD (.error incompatible)
  | "map_get", [.map ks vs, k] => .ok (findKey k ks vs)
  | "map_contains_key", [.map ks _, k] => .ok (.bool (ks.any (equalValue · k)))
  | "unwrap_or", [.present inner, _] => .ok inner
  | "unwrap_or", [_, d] => .ok d
  | name, _ => .error name

mutual

/-- The value of an expression over unsigned integers (`evalExpr`). -/
def kirValue (env : String → Value) : KIRTree → Except String Value
  | .int _ i => .ok (.int i)
  | .float _ f => .ok (.float f)
  | .bool _ b => .ok (.bool b)
  | .nil _ => .ok .nil
  | .string _ s => .ok (.string s)
  | .var _ name _ => .ok (env name)
  | .binary _ operator left right => do
    let l ← kirValue env left
    let r ← kirValue env right
    kirBinary operator l r
  | .map _ entries => kirEntries env [] [] entries
  | .call _ call none args => do
    let vs ← kirValues env args
    kirBuiltin conversions call.name vs
  | e => .error e.type

def kirValues (env : String → Value) : List KIRTree → Except String (List Value)
  | [] => .ok []
  | e :: es => do
    let v ← kirValue env e
    let vs ← kirValues env es
    return v :: vs

/-- The entries of a map literal, behind those with the keys `ks` and the values `vs`. -/
def kirEntries (env : String → Value) (ks vs : List Value) :
    List (KIRTree × KIRTree) → Except String Value
  | [] => .ok (.map ks vs)
  | (key, value) :: rest => do
    let k ← kirValue env key
    let v ← kirValue env value
    if ks.any (equalValue · k) then .error "duplicate map key"
    else kirEntries env (ks ++ [k]) (vs ++ [v]) rest

end

end Executor

end Kryndel
