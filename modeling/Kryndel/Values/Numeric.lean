import Mathlib.Data.List.Basic

/-!
# Machine numbers

Checked 64-bit integer arithmetic, wrapping unsigned arithmetic and an abstract
IEEE arithmetic. Floating-point values are bit patterns: the operations on them
are the processor's, so they are a parameter of every evaluator.
-/

namespace Kryndel

/-! ## Checked signed arithmetic -/

/-- `math.MaxInt64`. -/
def maxInt64 : Int64 := 9223372036854775807

/-- `math.MinInt64`. -/
def minInt64 : Int64 := -9223372036854775808

/-- `addI`. -/
def addI (a b : Int64) : Option Int64 :=
  if (b > 0 ∧ a > maxInt64 - b) ∨ (b < 0 ∧ a < minInt64 - b) then none else some (a + b)

/-- `subI`. -/
def subI (a b : Int64) : Option Int64 :=
  if (b < 0 ∧ a > maxInt64 + b) ∨ (b > 0 ∧ a < minInt64 + b) then none else some (a - b)

/-- `mulI`. -/
def mulI (a b : Int64) : Option Int64 :=
  if a = 0 ∨ b = 0 then some 0
  else if (a = minInt64 ∧ b = -1) ∨ (b = minInt64 ∧ a = -1) then none
  else if a * b / b ≠ a then none
  else some (a * b)

/-- `divI`. -/
def divI (a b : Int64) : Option Int64 :=
  if b = 0 ∨ (a = minInt64 ∧ b = -1) then none else some (a / b)

/-- `remI`. -/
def remI (a b : Int64) : Option Int64 :=
  if b = 0 ∨ (a = minInt64 ∧ b = -1) then none else some (a % b)

/-! ## Unsigned arithmetic -/

/-- `uintVal`'s reduction to the width of the type. -/
def uintWrap (bits : UInt8) (v : UInt64) : UInt64 :=
  if bits < 64 then v &&& ((1 <<< bits.toUInt64) - 1) else v

/-! ## Floating point -/

/-- A binary64 value, as its bits. -/
structure Float64 where
  bits : UInt64
deriving DecidableEq, Repr, Inhabited

/-- The IEEE operations the evaluators use. -/
class FloatArith where
  add : Float64 → Float64 → Float64
  sub : Float64 → Float64 → Float64
  mul : Float64 → Float64 → Float64
  div : Float64 → Float64 → Float64
  neg : Float64 → Float64
  lt : Float64 → Float64 → Bool
  le : Float64 → Float64 → Bool
  eq : Float64 → Float64 → Bool
  /-- `isFinite`. -/
  isFinite : Float64 → Bool
  /-- Comparison with the constant zero. -/
  isZero : Float64 → Bool

/-- Lean's own binary64 operations. -/
@[reducible] def ieee : FloatArith where
  add a b := ⟨(Float.ofBits a.bits + Float.ofBits b.bits).toBits⟩
  sub a b := ⟨(Float.ofBits a.bits - Float.ofBits b.bits).toBits⟩
  mul a b := ⟨(Float.ofBits a.bits * Float.ofBits b.bits).toBits⟩
  div a b := ⟨(Float.ofBits a.bits / Float.ofBits b.bits).toBits⟩
  neg a := ⟨(-Float.ofBits a.bits).toBits⟩
  lt a b := decide (Float.ofBits a.bits < Float.ofBits b.bits)
  le a b := decide (Float.ofBits a.bits ≤ Float.ofBits b.bits)
  eq a b := Float.ofBits a.bits == Float.ofBits b.bits
  isFinite a := (Float.ofBits a.bits).isFinite
  isZero a := Float.ofBits a.bits == 0

end Kryndel
