import Kryndel.Syntax.Ast

/-!
# Constant folding

The checker folds an expression when it has found its type, and keeps the value
on the node. The folder has its own operator tables.
-/

namespace Kryndel

variable [FloatArith]

/-- The unary cases of `constantValue`. -/
def foldUnary (op : UnaryOp) (v : Value) : Option Value :=
  match op, v with
  | .bang, .bool b => some (.bool !b)
  | .plus, .int i => some (.int i)
  | _, .int i => if i = minInt64 then none else some (.int (-i))
  | .plus, .uint bits u => some (.uint bits u)
  | .bitnot, .uint bits u => some (.uintVal bits (~~~u))
  | .plus, .float f => some (.float f)
  | _, .float f => some (.float (FloatArith.neg f))
  | _, _ => none

/-- The signed cases of `constantValue`. -/
def foldInts (op : BinaryOp) (a b : Int64) : Option Value :=
  match op with
  | .plus => (addI a b).map .int
  | .minus => (subI a b).map .int
  | .star => (mulI a b).map .int
  | .slash => (divI a b).map .int
  | .percent => (remI a b).map .int
  | .less => some (.bool (a < b))
  | .leq => some (.bool (a ≤ b))
  | .greater => some (.bool (a > b))
  | .geq => some (.bool (a ≥ b))
  | _ => none

/-- The unsigned cases of `constantValue`, for operands of one width. -/
def foldUInts (op : BinaryOp) (bits : UInt8) (a b : UInt64) : Option Value :=
  match op with
  | .pipe => some (.uintVal bits (a ||| b))
  | .bitand => some (.uintVal bits (a &&& b))
  | .bitxor => some (.uintVal bits (a ^^^ b))
  | .plus => some (.uintVal bits (a + b))
  | .minus => some (.uintVal bits (a - b))
  | .star => some (.uintVal bits (a * b))
  | .slash => if b = 0 then none else some (.uintVal bits (a / b))
  | .percent => if b = 0 then none else some (.uintVal bits (a % b))
  | .less => some (.bool (a < b))
  | .leq => some (.bool (a ≤ b))
  | .greater => some (.bool (a > b))
  | .geq => some (.bool (a ≥ b))
  | _ => none

/-- A floating-point result counts only if it is finite. -/
def finiteFloat (f : Float64) : Option Value :=
  if FloatArith.isFinite f then some (.float f) else none

/-- The floating-point cases of `constantValue`. -/
def foldFloats (op : BinaryOp) (a b : Float64) : Option Value :=
  match op with
  | .less => some (.bool (FloatArith.lt a b))
  | .leq => some (.bool (FloatArith.le a b))
  | .greater => some (.bool (FloatArith.lt b a))
  | .geq => some (.bool (FloatArith.le b a))
  | .plus => finiteFloat (FloatArith.add a b)
  | .minus => finiteFloat (FloatArith.sub a b)
  | .star => finiteFloat (FloatArith.mul a b)
  | .slash => if FloatArith.isZero b then none else finiteFloat (FloatArith.div a b)
  | _ => none

/-- The binary cases of `constantValue`. -/
def foldBinary (op : BinaryOp) (left right : Value) : Option Value :=
  match op, left, right with
  | .and, .bool a, .bool b => some (.bool (a && b))
  | .or, .bool a, .bool b => some (.bool (a || b))
  | .eqeq, a, b => some (.bool (equalValue a b))
  | .neq, a, b => some (.bool !(equalValue a b))
  | .plus, .string a, .string b => some (.string (a ++ b))
  | op, .int a, .int b => foldInts op a b
  | op, .uint n a, .uint m b => if n = m then foldUInts op n a b else none
  | .shl, .uint bits a, .int i =>
      if 0 ≤ i ∧ i.toUInt64 < bits.toUInt64 then some (.uintVal bits (a <<< i.toUInt64)) else none
  | .shr, .uint bits a, .int i =>
      if 0 ≤ i ∧ i.toUInt64 < bits.toUInt64 then some (.uintVal bits (a >>> i.toUInt64)) else none
  | op, .float a, .float b => foldFloats op a b
  | _, _, _ => none

/-- `constantValue`. -/
def constantValue (e : Expr) : Option Value :=
  match e.info.constValue with
  | some v => some v
  | none =>
      match e with
      | .int _ i => some (.int i)
      | .float _ f => some (.float f)
      | .bool _ b => some (.bool b)
      | .nil _ => some .nil
      | .string _ s => some (.string s)
      | .unary _ op operand => (constantValue operand).bind (foldUnary op)
      | .binary _ op left right => do
          let l ← constantValue left
          let r ← constantValue right
          foldBinary op l r
      | _ => none

/-- `foldConstExpr`. -/
def foldConstExpr (e : Expr) : Expr :=
  match e.info.constValue, constantValue e with
  | none, some v => e.withInfo { e.info with constValue := some v }
  | _, _ => e

end Kryndel
