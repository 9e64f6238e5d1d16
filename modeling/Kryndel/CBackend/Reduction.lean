import Mathlib.Logic.Relation
import Kryndel.CBackend.Widths

/-!
# Reduction of unsigned integers in emitted C

The executor reduces what it computes to the width of the type. The routines of the C runtime
do not know the width, so that emitted C computes something else as soon as a sum, a difference
or a product does not fit in it. The runtime also has no conversion of unsigned integers to
floating-point numbers.
-/

namespace Kryndel

open List

/-- The same value, or none on either side. -/
inductive Same : Except String Value → Except String KValue → Prop where
  | value (v : Value) : Same (.ok v) (.ok (.of v))
  | failure (m m' : String) : Same (.error m) (.error m')

/-- The operands of an expression over unsigned integers. -/
def KIRTree.operands : KIRTree → List KIRTree
  | .binary _ _ left right => [left, right]
  | .map _ entries => entries.flatMap fun entry => [entry.1, entry.2]
  | .call _ _ _ args => args
  | _ => []

/-- The expressions inside an expression, itself among them. -/
def Within : KIRTree → KIRTree → Prop :=
  Relation.ReflTransGen fun a b => a ∈ b.operands

/-- Does the exact result of an operation on unsigned integers fit in their width? The width of
    the runtime is reduced by the machine. -/
def Inside (operator : BinaryOp) : Value → Value → Prop
  | .uint bits l, .uint _ r =>
    match operator with
    | .plus => bits = 64 ∨ l.toNat + r.toNat < 2 ^ bits.toNat
    | .minus => bits = 64 ∨ r.toNat ≤ l.toNat
    | .star => bits = 64 ∨ l.toNat * r.toNat < 2 ^ bits.toNat
    | _ => True
  | _, _ => True

section Agreement

variable [FloatArith] (conversions : FloatConversions) (g : Cgen) (scope : Scope)

/-- The backend accepts the expression, and what it emits computes what the executor
    computes. -/
def Agrees (e : KIRTree) : Prop :=
  ∀ place, ∃ c, g.expr place e = some c ∧
    Same (kirValue conversions scope.values e)
      (cValue conversions (fun name => .of (scope.values name)) c)

/-- The operation of an expression stays in the width of its operands, and converts no unsigned
    integer to a floating-point number. -/
def FitsWidth : KIRTree → Prop
  | .binary _ operator left right => ∀ l r, kirValue conversions scope.values left = .ok l →
    kirValue conversions scope.values right = .ok r → Inside operator l r
  | .call _ call none [operand] => call.name = "float" → ∀ bits u,
    kirValue conversions scope.values operand ≠ .ok (.uint bits u)
  | _ => True

end Agreement

/-! ## Operations -/

theorem Same.bind_iff {x : Except String Value} {y : Except String KValue} (h : Same x y)
    {f : Value → Except String Value} {f' : KValue → Except String KValue} :
    Same (x.bind f) (y.bind f') ↔ ∀ v, x = .ok v → Same (f v) (f' (.of v)) := by
  cases h with
  | value v =>
    constructor
    · intro h w hw
      cases hw
      exact h
    · intro h
      exact h v rfl
  | failure m m' =>
    constructor
    · intro _ w hw
      cases hw
    · intro _
      exact .failure m m'

theorem Same.of_ok {v : Value} {y : Except String KValue} (h : Same (.ok v) y) :
    y = .ok (.of v) := by
  cases h
  rfl

theorem Same.of_error {m : String} {y : Except String KValue} (h : Same (.error m) y) :
    ∃ m', y = .error m' := by
  cases h
  exact ⟨_, rfl⟩

theorem same_uintVal {bits : UInt8} (hbits : bits.toNat ≤ 64) (n : UInt64) :
    Same (.ok (.uintVal bits n)) (.ok (.uint n)) ↔ n.toNat < 2 ^ bits.toNat := by
  have hnat := toNat_uintWrap hbits n
  constructor
  · intro h
    have heq := h.of_ok
    injection heq with heq
    injection heq with heq
    rw [heq, hnat]
    exact Nat.mod_lt _ (Nat.two_pow_pos _)
  · intro h
    have heq : uintWrap bits n = n := by
      rw [← UInt64.toNat_inj, hnat, Nat.mod_eq_of_lt h]
    rw [Value.uintVal, heq]
    exact .value _

section Integers

variable {a b : Int64}

theorem kAddI_toOption : (kAddI a b).toOption = addI a b := by
  rw [kAddI, addI]
  split
  · next h => exact (if_pos h).symm
  · next h => exact (if_neg h).symm

theorem kSubI_toOption : (kSubI a b).toOption = subI a b := by
  rw [kSubI, subI]
  split
  · next h => exact (if_pos h).symm
  · next h => exact (if_neg h).symm

theorem kMulI_toOption : (kMulI a b).toOption = mulI a b := by
  rw [kMulI]
  split
  · next h => exact (mulI_eq_some.mpr h).symm
  · next h =>
    cases hmul : mulI a b with
    | none => rfl
    | some c =>
      -- the product is the one that the machine computes
      have hc := mulI_eq_some.mp hmul
      have hrange := toInt_range c
      rw [Int64.toInt_mul, Int.bmod_def] at h
      omega

theorem kDivI_toOption : (kDivI a b).toOption = divI a b := by
  rw [kDivI, divI]
  split
  · next h => simp [h, Except.toOption]
  · next h =>
    split
    · next hexc =>
      exact (if_pos (.inr hexc)).symm
    · next hexc =>
      exact (if_neg (not_or.mpr ⟨h, hexc⟩)).symm

theorem kRemI_toOption : (kRemI a b).toOption = remI a b := by
  rw [kRemI, remI]
  split
  · next h => simp [h, Except.toOption]
  · next h =>
    split
    · next hexc =>
      exact (if_pos (.inr hexc)).symm
    · next hexc =>
      exact (if_neg (not_or.mpr ⟨h, hexc⟩)).symm

theorem same_ints {operator : BinaryOp} (hop : operator.isArithmetic = true)
    {x : Except String Int64} (h : x.toOption = checkedInts operator a b) :
    Same (evalInts operator a b) (x.map .int) := by
  rcases evalInts_arithmetic hop a b with ⟨z, hz, heval⟩ | ⟨hnone, m, heval⟩
  · rw [hz] at h
    cases x with
    | error m => cases h
    | ok i =>
      cases h
      rw [heval]
      exact .value (.int z)
  · rw [hnone] at h
    cases x with
    | error m' =>
      rw [heval]
      exact .failure m m'
    | ok i => cases h

end Integers

theorem inside_sum {bits : UInt8} (hbits : bits.toNat < 64) {u w : UInt64}
    (hu : u.toNat < 2 ^ bits.toNat) (hw : w.toNat < 2 ^ bits.toNat) :
    (u + w).toNat < 2 ^ bits.toNat ↔ u.toNat + w.toNat < 2 ^ bits.toNat := by
  have hpow : 2 ^ bits.toNat ≤ 2 ^ 63 := Nat.pow_le_pow_right (by decide) (by omega)
  rw [UInt64.toNat_add, Nat.mod_eq_of_lt (by omega)]

theorem inside_difference {bits : UInt8} (hbits : bits.toNat < 64) {u w : UInt64}
    (hu : u.toNat < 2 ^ bits.toNat) (hw : w.toNat < 2 ^ bits.toNat) :
    (u - w).toNat < 2 ^ bits.toNat ↔ w.toNat ≤ u.toNat := by
  have hpow : 2 ^ bits.toNat ≤ 2 ^ 63 := Nat.pow_le_pow_right (by decide) (by omega)
  rw [UInt64.toNat_sub]
  omega

theorem inside_product {bits : UInt8} (hbits : bits.toNat ≤ 32) {u w : UInt64}
    (hu : u.toNat < 2 ^ bits.toNat) (hw : w.toNat < 2 ^ bits.toNat) :
    (u * w).toNat < 2 ^ bits.toNat ↔ u.toNat * w.toNat < 2 ^ bits.toNat := by
  have hpow : 2 ^ bits.toNat ≤ 2 ^ 32 := Nat.pow_le_pow_right (by decide) hbits
  have hmul : u.toNat * w.toNat < 2 ^ 32 * 2 ^ 32 :=
    Nat.mul_lt_mul'' (Nat.lt_of_lt_of_le hu hpow) (Nat.lt_of_lt_of_le hw hpow)
  rw [UInt64.toNat_mul, Nat.mod_eq_of_lt (Nat.lt_of_lt_of_le hmul (by decide))]

theorem Width.wide_or_narrow (width : Width) :
    width.bits = 64 ∨ width.bits ≠ 64 ∧ width.bits.toNat ≤ 32 := by
  cases width <;> decide

theorem same_uint {width : Width} {n : UInt64} {fits : Prop}
    (hfits : width.bits ≠ 64 → width.bits.toNat ≤ 32 → (n.toNat < 2 ^ width.bits.toNat ↔ fits)) :
    Same (.ok (.uintVal width.bits n)) (.ok (.uint n)) ↔ width.bits = 64 ∨ fits := by
  rw [same_uintVal width.bits_le]
  rcases width.wide_or_narrow with hwide | ⟨hne, hle⟩
  · have hn := n.toNat_lt
    rw [hwide]
    simpa using hn
  · rw [hfits hne hle]
    simp [hne]

section Operations

variable [FloatArith] (conversions : FloatConversions)

theorem arithmetic_same {type : Scalar} {operator : BinaryOp}
    (number : type = .int ∨ ∃ width, type = .uint width) (hop : operator.isArithmetic = true)
    {a b : Value} (ha : type.Has a) (hb : type.Has b) {form : COp}
    (hform : Cgen.binary type.name operator type.name type.name = some form) :
    Same (kirBinary operator a b) (kApply conversions form [.of a, .of b]) ↔
      Inside operator a b := by
  rcases number with rfl | ⟨width, rfl⟩
  · obtain ⟨i, rfl⟩ := ha.int_inv
    obtain ⟨j, rfl⟩ := hb.int_inv
    refine iff_of_true ?_ trivial
    rcases arithmetic_cases hop with rfl | rfl | rfl | rfl | rfl <;> cases hform
    · exact same_ints hop kAddI_toOption
    · exact same_ints hop kSubI_toOption
    · exact same_ints hop kMulI_toOption
    · exact same_ints hop kDivI_toOption
    · exact same_ints hop kRemI_toOption
  · obtain ⟨u, rfl, hu⟩ := ha.uint_inv
    obtain ⟨w, rfl, hw⟩ := hb.uint_inv
    have hname : ((Scalar.uint width).name == "Int") = false := by cases width <;> decide
    rcases arithmetic_cases hop with rfl | rfl | rfl | rfl | rfl <;>
      simp only [Cgen.binary, hname, Bool.false_eq_true, if_false] at hform <;> cases hform <;>
      simp only [kirBinary, evalUInts, ne_eq, not_true_eq_false, if_false, Inside]
    · exact same_uint fun _ hle => inside_sum (by omega) hu hw
    · exact same_uint fun _ hle => inside_difference (by omega) hu hw
    · exact same_uint fun _ hle => inside_product hle hu hw
    · refine iff_of_true ?_ trivial
      show Same _ (if w = 0 then _ else _)
      split
      · exact .failure _ _
      · rw [same_uintVal width.bits_le, UInt64.toNat_div]
        exact Nat.lt_of_le_of_lt (Nat.div_le_self _ _) hu
    · refine iff_of_true ?_ trivial
      show Same _ (if w = 0 then _ else _)
      split
      · exact .failure _ _
      · rw [same_uintVal width.bits_le, UInt64.toNat_mod]
        exact Nat.lt_of_le_of_lt (Nat.mod_le _ _) hu

theorem comparison_same {type : Scalar} {operator : BinaryOp}
    (number : type = .int ∨ ∃ width, type = .uint width) (hop : operator.isComparison = true)
    {a b : Value} (ha : type.Has a) (hb : type.Has b) {form : COp}
    (hform : Cgen.binary "Bool" operator type.name type.name = some form) :
    Same (kirBinary operator a b) (kApply conversions form [.of a, .of b]) := by
  rcases number with rfl | ⟨width, rfl⟩
  · obtain ⟨i, rfl⟩ := ha.int_inv
    obtain ⟨j, rfl⟩ := hb.int_inv
    rcases comparison_cases hop with rfl | rfl | rfl | rfl <;> cases hform <;>
      exact .value (.bool _)
  · obtain ⟨u, rfl, -⟩ := ha.uint_inv
    obtain ⟨w, rfl, -⟩ := hb.uint_inv
    have hname : ((Scalar.uint width).name == "Int") = false := by cases width <;> decide
    rcases comparison_cases hop with rfl | rfl | rfl | rfl <;>
      simp only [Cgen.binary, hname, Bool.false_and, Bool.false_eq_true, if_false] at hform <;>
      cases hform <;>
      simp only [kirBinary, evalUInts, ne_eq, not_true_eq_false, if_false] <;>
      exact .value (.bool _)

theorem kEqual_of {type : Scalar} {a b : Value} (ha : type.Has a) (hb : type.Has b) :
    kEqual (.ofScalar a) (.ofScalar b) = equalValue a b := by
  cases ha <;> cases hb <;> simp [KValue.ofScalar, kEqual, equalValue]

omit [FloatArith] in
theorem Scalar.Has.of_eq {type : Scalar} {v : Value} (h : type.Has v) :
    KValue.of v = .ofScalar v := by
  cases h <;> rfl

theorem equality_same {type : Scalar} {operator : BinaryOp} (hop : operator.isEquality = true)
    {a b : Value} (ha : type.Has a) (hb : type.Has b) {form : COp}
    (hform : Cgen.binary "Bool" operator type.name type.name = some form) :
    Same (kirBinary operator a b) (kApply conversions form [.of a, .of b]) := by
  have hequal := kEqual_of ha hb
  rw [ha.of_eq, hb.of_eq]
  by_cases hint : type = .int
  · subst hint
    obtain ⟨i, rfl⟩ := ha.int_inv
    obtain ⟨j, rfl⟩ := hb.int_inv
    rcases equality_cases hop with rfl | rfl <;> cases hform
    · exact .value (.bool (i == j))
    · exact .value (.bool (i != j))
  · have hname : (type.name == "Int") = false := by
      cases type with
      | int => exact absurd rfl hint
      | uint width => cases width <;> decide
      | _ => decide
    rcases equality_cases hop with rfl | rfl <;>
      simp only [Cgen.binary, hname, Bool.false_and, Bool.false_eq_true, if_false] at hform <;>
      cases hform
    · show Same (.ok (.bool (equalValue a b))) (.ok (.bool (kEqual _ _)))
      rw [hequal]
      exact .value (.bool _)
    · show Same (.ok (.bool (!equalValue a b))) (.ok (.bool (!kEqual _ _)))
      rw [hequal]
      exact .value (.bool _)

omit [FloatArith] in
theorem binary_accepted {operator : BinaryOp} (type left right : String)
    (hop : operator.isArithmetic = true ∨ operator.isComparison = true ∨
      operator.isEquality = true) : ∃ form, Cgen.binary type operator left right = some form := by
  revert hop
  cases operator <;> simp [BinaryOp.isArithmetic, BinaryOp.isComparison, BinaryOp.isEquality,
    Cgen.binary]

end Operations

/-! ## Conversions and display -/

theorem typed_type {scope : Scope} {e : KIRTree} {type : ExprType} (h : OfType scope e type) :
    e.type = type.name := by
  cases h <;> rfl

theorem fits_of_other {operator : BinaryOp} (hplus : operator ≠ .plus) (hminus : operator ≠ .minus)
    (hstar : operator ≠ .star) (v w : Value) : Inside operator v w := by
  cases v with
  | uint bits u =>
    cases w with
    | uint bits' w => cases operator <;> trivial
    | _ => trivial
  | _ => trivial

theorem toUInt_same (width : Width) {type : Scalar}
    (number : type = .int ∨ ∃ width, type = .uint width) {v : Value} (hv : type.Has v) :
    Same (toUInt v width.bits) (kToUInt (.of v) width.bits.toUInt64) := by
  have hbits : width.bits.toUInt64 < 64 ↔ width.bits < 64 := by cases width <;> decide
  have hrange (n : UInt64) : Same
      (if width.bits < 64 ∧ n ≥ 1 <<< width.bits.toUInt64 then
        .error "value is outside unsigned range" else .ok (.uintVal width.bits n))
      (if width.bits.toUInt64 < 64 ∧ n ≥ 1 <<< width.bits.toUInt64 then
        .error "value is outside unsigned range" else .ok (.uint n)) := by
    have hout := outOfRange_iff width.bits_le n
    simp only [hbits]
    split
    · exact .failure _ _
    · next h =>
      rw [hout] at h
      exact (same_uintVal width.bits_le n).mpr (by omega)
  rcases number with rfl | ⟨w, rfl⟩
  · obtain ⟨i, rfl⟩ := hv.int_inv
    show Same (if i < 0 then _ else _) (if i < 0 then _ else _)
    split
    · exact .failure _ _
    · exact hrange i.toUInt64
  · obtain ⟨u, rfl, -⟩ := hv.uint_inv
    exact hrange u

theorem toInt_same {type : Scalar}
    (number : type = .int ∨ type = .bool ∨ ∃ width, type = .uint width)
    {v : Value} (hv : type.Has v) : Same (toInt v) (kToInt (.of v)) := by
  rcases number with rfl | rfl | ⟨w, rfl⟩
  · obtain ⟨i, rfl⟩ := hv.int_inv
    exact .value (.int i)
  · cases hv with
    | bool b => exact .value (.int (if b then 1 else 0))
  · obtain ⟨u, rfl, -⟩ := hv.uint_inv
    show Same (if u > _ then _ else _) (if u > _ then _ else _)
    split
    · exact .failure _ _
    · exact .value (.int u.toInt64)

theorem toBool_same {type : Scalar} (number : type ≠ .float) {v : Value} (hv : type.Has v) :
    kToBool (.of v) = toBool v := by
  cases hv <;> rfl

theorem text_same {type : Scalar} (number : type ≠ .float) {v : Value} (hv : type.Has v) :
    ∃ text, scalarText v = some text ∧ kText (.of v) = some text := by
  cases hv with
  | float f => exact absurd rfl number
  | int | bool | string | uint => exact ⟨_, rfl, rfl⟩

/-! ## Expressions -/

section Nodes

variable [FloatArith] {conversions : FloatConversions} {g : Cgen} {scope : Scope}

omit [FloatArith] in
theorem expr_binary {type : String} {operator : BinaryOp} {left right : KIRTree} {form : COp}
    (hop : operator ≠ .and ∧ operator ≠ .or)
    (hform : Cgen.binary type operator left.type right.type = some form) {place : List Nat}
    {l r : CExpr} (hl : g.expr (0 :: place) left = some l)
    (hr : g.expr (1 :: place) right = some r) :
    g.expr place (.binary type operator left right) =
      some (.node place (.unordered form) [l, r]) := by
  rw [Cgen.expr, hl, hr]
  cases operator with
  | and => exact absurd rfl hop.1
  | or => exact absurd rfl hop.2
  | _ =>
    simp only [Option.bind_eq_bind, Option.bind_some]
    rw [hform]
    rfl

theorem cValue_two (env : String → KValue) (place : List Nat) (form : COp) (l r : CExpr) :
    cValue conversions env (.node place (.unordered form) [l, r]) =
      (cValue conversions env l).bind fun a => (cValue conversions env r).bind fun b =>
        kApply conversions form [a, b] := by
  rw [cValue, cValues, cValues, cValues]
  cases cValue conversions env l with
  | error m => rfl
  | ok a => cases cValue conversions env r <;> rfl

theorem cValue_one (env : String → KValue) (place : List Nat) (form : COp) (c : CExpr) :
    cValue conversions env (.node place (.unordered form) [c]) =
      (cValue conversions env c).bind fun a => kApply conversions form [a] := by
  rw [cValue, cValues, cValues]
  cases cValue conversions env c <;> rfl

theorem agrees_two {e left right : KIRTree} {form : COp}
    {f : Value → Value → Except String Value}
    (hkir : kirValue conversions scope.values e =
      (kirValue conversions scope.values left).bind fun v =>
        (kirValue conversions scope.values right).bind fun w => f v w)
    (hexpr : ∀ place l r, g.expr (0 :: place) left = some l → g.expr (1 :: place) right = some r →
      g.expr place e = some (.node place (.unordered form) [l, r]))
    (hl : Agrees conversions g scope left) (hr : Agrees conversions g scope right) :
    Agrees conversions g scope e ↔ ∀ v w, kirValue conversions scope.values left = .ok v →
      kirValue conversions scope.values right = .ok w →
      Same (f v w) (kApply conversions form [.of v, .of w]) := by
  have hplace (place : List Nat) : (∃ c, g.expr place e = some c ∧
      Same (kirValue conversions scope.values e)
        (cValue conversions (fun name => .of (scope.values name)) c)) ↔
      ∀ v w, kirValue conversions scope.values left = .ok v →
        kirValue conversions scope.values right = .ok w →
        Same (f v w) (kApply conversions form [.of v, .of w]) := by
    obtain ⟨l, hexprl, hsamel⟩ := hl (0 :: place)
    obtain ⟨r, hexprr, hsamer⟩ := hr (1 :: place)
    simp only [hexpr place l r hexprl hexprr, Option.some.injEq, exists_eq_left', hkir, cValue_two,
      hsamel.bind_iff, hsamer.bind_iff]
    exact ⟨fun h v w hv hw => h v hv w hw, fun h v hv w hw => h v w hv hw⟩
  exact (forall_congr' hplace).trans (forall_const _)

theorem agrees_one {e operand : KIRTree} {form : COp} {f : Value → Except String Value}
    (hkir : kirValue conversions scope.values e =
      (kirValue conversions scope.values operand).bind f)
    (hexpr : ∀ place c, g.expr (0 :: place) operand = some c →
      g.expr place e = some (.node place (.unordered form) [c]))
    (h : Agrees conversions g scope operand) :
    Agrees conversions g scope e ↔ ∀ v, kirValue conversions scope.values operand = .ok v →
      Same (f v) (kApply conversions form [.of v]) := by
  have hplace (place : List Nat) : (∃ c, g.expr place e = some c ∧
      Same (kirValue conversions scope.values e)
        (cValue conversions (fun name => .of (scope.values name)) c)) ↔
      ∀ v, kirValue conversions scope.values operand = .ok v →
        Same (f v) (kApply conversions form [.of v]) := by
    obtain ⟨c, hexprc, hsame⟩ := h (0 :: place)
    simp [hexpr place c hexprc, hkir, cValue_one, hsame.bind_iff]
  exact (forall_congr' hplace).trans (forall_const _)

omit [FloatArith] in
theorem expr_call {type name : String} {args : List KIRTree} {form : COp}
    (hform : g.builtinCall name args.length (Cgen.literalWorker name args) = some form)
    {place : List Nat} {cs : List CExpr} (hargs : g.exprs place 0 args = some cs) :
    g.expr place (builtinTree type name args) = some (.node place (.unordered form) cs) := by
  rw [builtinTree, Cgen.expr]
  simp [hform, hargs]

omit [FloatArith] in
theorem exprs_one {place : List Nat} {e : KIRTree} {c : CExpr}
    (h : g.expr (0 :: place) e = some c) : g.exprs place 0 [e] = some [c] := by
  rw [Cgen.exprs, h, Cgen.exprs]
  rfl

omit [FloatArith] in
theorem exprs_two {place : List Nat} {e e₂ : KIRTree} {c c₂ : CExpr}
    (h : g.expr (0 :: place) e = some c) (h₂ : g.expr (1 :: place) e₂ = some c₂) :
    g.exprs place 0 [e, e₂] = some [c, c₂] := by
  rw [Cgen.exprs, h, Cgen.exprs, h₂, Cgen.exprs]
  rfl

theorem find_same {key : Scalar} {k : Value} (hk : key.Has k) {ks : List Value}
    (hks : ∀ k ∈ ks, key.Has k) (vs : List Value) :
    kFind (.ofScalar k) (ks.map .ofScalar) (vs.map .ofScalar) = .of (findKey k ks vs) := by
  induction ks generalizing vs with
  | nil =>
    rw [findKey]
    · rfl
    · simp
  | cons a ks ih =>
    cases vs with
    | nil =>
      rw [findKey]
      · rfl
      · simp
    | cons v vs =>
      rw [findKey, map_cons, map_cons, kFind, kEqual_of (hks a mem_cons_self) hk]
      split
      · rfl
      · exact ih (fun b hb => hks b (mem_cons_of_mem _ hb)) vs

theorem any_same {key : Scalar} {k : Value} (hk : key.Has k) {ks : List Value}
    (hks : ∀ k ∈ ks, key.Has k) :
    (ks.map KValue.ofScalar).any (kEqual · (.ofScalar k)) = ks.any (equalValue · k) := by
  induction ks with
  | nil => rfl
  | cons a ks ih =>
    rw [map_cons, any_cons, any_cons, kEqual_of (hks a mem_cons_self) hk,
      ih fun b hb => hks b (mem_cons_of_mem _ hb)]

theorem cValue_entry (env : String → KValue) (place : List Nat) (before k v : CExpr) :
    cValue conversions env (.node place (.ordered .mapEntry) [before, k, v]) =
      (cValue conversions env before).bind fun entries => (cValue conversions env k).bind fun a =>
        (cValue conversions env v).bind fun b => kMapEntry entries a b := by
  rw [cValue, cValues, cValues, cValues, cValues]
  cases cValue conversions env before with
  | error m => rfl
  | ok entries =>
    cases cValue conversions env k with
    | error m => rfl
    | ok a => cases cValue conversions env v <;> rfl

theorem entries_failed {entries : List (KIRTree × KIRTree)}
    (hagrees : ∀ entry ∈ entries, Agrees conversions g scope entry.1 ∧
      Agrees conversions g scope entry.2) (place : List Nat) (i : Nat) {before : CExpr} {m : String}
    (hbefore : cValue conversions (fun name => .of (scope.values name)) before = .error m) :
    ∃ c, g.mapEntries place i before entries = some c ∧
      cValue conversions (fun name => .of (scope.values name)) c = .error m := by
  induction entries generalizing i before with
  | nil => exact ⟨before, by rw [Cgen.mapEntries], hbefore⟩
  | cons entry rest ih =>
    obtain ⟨hkey, hvalue⟩ := hagrees _ mem_cons_self
    obtain ⟨k, hk, -⟩ := hkey (i :: place)
    obtain ⟨v, hv, -⟩ := hvalue ((i + 1) :: place)
    have hnode : cValue conversions (fun name => .of (scope.values name))
        (.node ((i + 2) :: place) (.ordered .mapEntry) [before, k, v]) = .error m := by
      rw [cValue_entry, hbefore]
      rfl
    obtain ⟨c, hc, herror⟩ := ih (fun e he => hagrees e (mem_cons_of_mem _ he)) (i + 3) hnode
    refine ⟨c, ?_, herror⟩
    rw [Cgen.mapEntries, hk, hv]
    exact hc

/-- The entries of a map literal behind others: the keys come and are compared in the same
    order. -/
theorem entries_same {key : Width} {entries : List (KIRTree × KIRTree)}
    (hkeys : ∀ entry ∈ entries, OfType scope entry.1 (.scalar (.uint key)))
    {value : Scalar} (hvalues : ∀ entry ∈ entries, OfType scope entry.2 (.scalar value))
    (hagrees : ∀ entry ∈ entries, Agrees conversions g scope entry.1 ∧
      Agrees conversions g scope entry.2) (place : List Nat) (i : Nat) (before : CExpr)
    (ks vs : List Value) (hks : ∀ k ∈ ks, (Scalar.uint key).Has k)
    (hbefore : cValue conversions (fun name => .of (scope.values name)) before =
      .ok (.map (ks.map .ofScalar) (vs.map .ofScalar))) :
    ∃ c, g.mapEntries place i before entries = some c ∧
      Same (kirEntries conversions scope.values ks vs entries)
        (cValue conversions (fun name => .of (scope.values name)) c) := by
  induction entries generalizing i before ks vs with
  | nil =>
    refine ⟨before, by rw [Cgen.mapEntries], ?_⟩
    rw [hbefore, kirEntries]
    exact .value (.map ks vs)
  | cons entry rest ih =>
    obtain ⟨e₁, e₂⟩ := entry
    obtain ⟨hkey, hvalue⟩ := hagrees _ mem_cons_self
    obtain ⟨k, hk, hsamek⟩ := hkey (i :: place)
    obtain ⟨v, hv, hsamev⟩ := hvalue ((i + 1) :: place)
    have hrest : ∀ e ∈ rest, Agrees conversions g scope e.1 ∧ Agrees conversions g scope e.2 :=
      fun e he => hagrees e (mem_cons_of_mem _ he)
    have hstep (c : CExpr) : g.mapEntries place i before ((e₁, e₂) :: rest) = some c ↔
        g.mapEntries place (i + 3)
          (.node ((i + 2) :: place) (.ordered .mapEntry) [before, k, v]) rest = some c := by
      rw [Cgen.mapEntries, hk, hv]
      rfl
    have hnode := @cValue_entry _ conversions (fun name => .of (scope.values name))
      ((i + 2) :: place) before k v
    rw [hbefore] at hnode
    simp only [hstep]
    rw [kirEntries]
    cases hkir : kirValue conversions scope.values e₁ with
    | error m =>
      rw [hkir] at hsamek
      obtain ⟨m', hm⟩ := hsamek.of_error
      rw [hm] at hnode
      obtain ⟨c, hc, herror⟩ := entries_failed hrest place (i + 3) hnode
      refine ⟨c, hc, ?_⟩
      rw [herror]
      exact .failure _ _
    | ok a =>
      rw [hkir] at hsamek
      rw [hsamek.of_ok] at hnode
      have ha := (typed_value conversions (hkeys _ mem_cons_self) hkir).scalar_inv
      cases hkir' : kirValue conversions scope.values e₂ with
      | error m =>
        rw [hkir'] at hsamev
        obtain ⟨m', hm⟩ := hsamev.of_error
        rw [hm] at hnode
        obtain ⟨c, hc, herror⟩ := entries_failed hrest place (i + 3) hnode
        refine ⟨c, hc, ?_⟩
        rw [herror]
        exact .failure _ _
      | ok b =>
        rw [hkir'] at hsamev
        have hb := (typed_value conversions (hvalues _ mem_cons_self) hkir').scalar_inv
        rw [hsamev.of_ok, ha.of_eq, hb.of_eq] at hnode
        simp only [Except.bind, kMapEntry, any_same ha hks] at hnode
        show ∃ c, _ ∧ Same (if ks.any (equalValue · a) then _ else _) _
        by_cases hany : ks.any (equalValue · a) = true
        · rw [if_pos hany] at hnode
          rw [if_pos hany]
          obtain ⟨c, hc, herror⟩ := entries_failed hrest place (i + 3) hnode
          refine ⟨c, hc, ?_⟩
          rw [herror]
          exact .failure _ _
        · rw [if_neg hany] at hnode
          rw [if_neg hany]
          apply ih (fun e he => hkeys e (mem_cons_of_mem _ he))
            (fun e he => hvalues e (mem_cons_of_mem _ he)) hrest (i + 3)
          · intro k hk
            rcases mem_append.mp hk with hk | hk
            · exact hks k hk
            · obtain rfl := mem_singleton.mp hk
              exact ha
          · rw [hnode, map_append, map_append]
            rfl

theorem agrees_operator {type : String} {operator : BinaryOp} {left right : KIRTree} {t : Scalar}
    (hop : operator.isArithmetic = true ∨ operator.isComparison = true ∨
      operator.isEquality = true) (l : OfType scope left (.scalar t))
    (r : OfType scope right (.scalar t))
    (hoperands : ∀ operand ∈ (KIRTree.binary type operator left right).operands,
      Agrees conversions g scope operand) :
    ∃ form, Cgen.binary type operator t.name t.name = some form ∧
      (Agrees conversions g scope (.binary type operator left right) ↔
        ∀ v w, kirValue conversions scope.values left = .ok v →
          kirValue conversions scope.values right = .ok w →
          Same (kirBinary operator v w) (kApply conversions form [.of v, .of w])) := by
  obtain ⟨form, hform⟩ := binary_accepted type t.name t.name hop
  refine ⟨form, hform, ?_⟩
  have hconnective : operator ≠ .and ∧ operator ≠ .or := by
    constructor <;> rintro rfl <;> revert hop <;> decide
  have hform' : Cgen.binary type operator left.type right.type = some form := by
    rw [typed_type l, typed_type r]
    exact hform
  exact agrees_two (kirValue_binary conversions _ _ _ _ _)
    (fun place a b ha hb => expr_binary hconnective hform' ha hb)
    (hoperands left mem_cons_self) (hoperands right (by simp [KIRTree.operands]))

omit [FloatArith] in
theorem builtinCall_routine {name : String} {arity : Nat} {form : COp}
    (hname : name ∉ ["print", "println", "thread_spawn", "task_spawn"])
    (hform : (if (Cgen.plainBuiltins arity).contains name then some (.routine ("k_" ++ name) [])
      else (Cgen.namedBuiltins.find? fun entry => entry.1 == name && entry.2.1 == arity).map
        fun entry => .routine entry.2.2.1 entry.2.2.2) = some form) (worker : Option String) :
    g.builtinCall name arity worker = some form := by
  simp only [mem_cons, not_mem_nil, or_false, not_or] at hname
  obtain ⟨hprint, hprintln, hthread, htask⟩ := hname
  simp only [Cgen.builtinCall, hprint, hprintln, hthread, htask, false_and, if_false]
  exact hform

theorem agrees_builtin_one {type name : String} {operand : KIRTree} {form : COp}
    (hform : ∀ worker, g.builtinCall name 1 worker = some form)
    (hoperands : ∀ e ∈ (builtinTree type name [operand]).operands, Agrees conversions g scope e) :
    Agrees conversions g scope (builtinTree type name [operand]) ↔
      ∀ v, kirValue conversions scope.values operand = .ok v →
        Same (kirBuiltin conversions name [v]) (kApply conversions form [.of v]) :=
  agrees_one (kirValue_one conversions _ _ _ _)
    (fun _ _ hc => expr_call (hform _) (exprs_one hc)) (hoperands operand mem_cons_self)

theorem agrees_builtin_two {type name : String} {e₁ e₂ : KIRTree} {form : COp}
    (hform : ∀ worker, g.builtinCall name 2 worker = some form)
    (hoperands : ∀ e ∈ (builtinTree type name [e₁, e₂]).operands, Agrees conversions g scope e) :
    Agrees conversions g scope (builtinTree type name [e₁, e₂]) ↔
      ∀ v w, kirValue conversions scope.values e₁ = .ok v →
        kirValue conversions scope.values e₂ = .ok w →
        Same (kirBuiltin conversions name [v, w]) (kApply conversions form [.of v, .of w]) :=
  agrees_two (kirValue_two conversions _ _ _ _ _)
    (fun _ _ _ h₁ h₂ => expr_call (hform _) (exprs_two h₁ h₂)) (hoperands e₁ mem_cons_self)
    (hoperands e₂ (by simp [builtinTree, KIRTree.operands]))

/-- One operation, on operands that agree: what decides is whether it fits. -/
theorem agrees_iff_fits {e : KIRTree} {type : ExprType} (h : OfType scope e type)
    (hoperands : ∀ operand ∈ e.operands, Agrees conversions g scope operand) :
    Agrees conversions g scope e ↔ FitsWidth conversions scope e := by
  cases h with
  | int i => exact iff_of_true (fun place => ⟨.value (.int i), rfl, .value _⟩) trivial
  | bool b => exact iff_of_true (fun place => ⟨.value (.bool b), rfl, .value _⟩) trivial
  | string s => exact iff_of_true (fun place => ⟨.value (.string s), rfl, .value _⟩) trivial
  | @var type name binding known =>
    exact iff_of_true (fun place => ⟨.var name, rfl, .value _⟩) trivial
  | arithmetic number known l r =>
    obtain ⟨form, hform, hagrees⟩ := agrees_operator (.inl known) l r hoperands
    rw [hagrees]
    refine forall₄_congr fun v w hv hw => ?_
    exact arithmetic_same conversions number known (typed_value conversions l hv).scalar_inv
      (typed_value conversions r hw).scalar_inv hform
  | comparison number known l r =>
    obtain ⟨form, hform, hagrees⟩ := agrees_operator (.inr (.inl known)) l r hoperands
    rw [hagrees]
    refine iff_of_true (fun v w hv hw => ?_) (fun v w _ _ => ?_)
    · exact comparison_same conversions number known (typed_value conversions l hv).scalar_inv
        (typed_value conversions r hw).scalar_inv hform
    · rcases comparison_cases known with rfl | rfl | rfl | rfl <;>
        exact fits_of_other (by decide) (by decide) (by decide) v w
  | equality known l r =>
    obtain ⟨form, hform, hagrees⟩ := agrees_operator (.inr (.inr known)) l r hoperands
    rw [hagrees]
    refine iff_of_true (fun v w hv hw => ?_) (fun v w _ _ => ?_)
    · exact equality_same conversions known (typed_value conversions l hv).scalar_inv
        (typed_value conversions r hw).scalar_inv hform
    · rcases equality_cases known with rfl | rfl <;>
        exact fits_of_other (by decide) (by decide) (by decide) v w
  | toUInt width number h =>
    have hform (worker : Option String) : g.builtinCall width.builtin 1 worker =
        some (.routine "k_to_uint" [toString width.bits.toNat]) := by
      cases width <;> exact builtinCall_routine (by decide) (by decide +kernel) worker
    rw [agrees_builtin_one hform hoperands]
    refine iff_of_true (fun v hv => ?_) (fun hname => ?_)
    · have hsame := toUInt_same width number (typed_value conversions h hv).scalar_inv
      cases width <;> exact hsame
    · cases width <;> exact absurd hname (by decide)
  | toInt number h =>
    rw [@agrees_builtin_one _ _ _ _ _ _ _ (.routine "k_to_int" [])
      (builtinCall_routine (by decide) (by decide +kernel)) hoperands]
    refine iff_of_true (fun v hv => ?_) (fun hname => absurd hname (by decide))
    exact toInt_same number (typed_value conversions h hv).scalar_inv
  | toFloat number h =>
    rw [@agrees_builtin_one _ _ _ _ _ _ _ (.routine "k_to_float" [])
      (builtinCall_routine (by decide) (by decide +kernel)) hoperands]
    constructor
    · -- the runtime knows no such conversion
      intro hsame _ bits u hu
      cases hsame _ hu
    · intro hfits v hv
      have htyped := (typed_value conversions h hv).scalar_inv
      rcases number with rfl | ⟨width, rfl⟩
      · obtain ⟨i, rfl⟩ := htyped.int_inv
        exact .value (.float (conversions.ofInt i))
      · obtain ⟨u, rfl, -⟩ := htyped.uint_inv
        exact absurd hv (hfits rfl _ _)
  | toBool number h =>
    rw [@agrees_builtin_one _ _ _ _ _ _ _ (.routine "k_bool" [])
      (builtinCall_routine (by decide) (by decide +kernel)) hoperands]
    refine iff_of_true (fun v hv => ?_) (fun hname => absurd hname (by decide))
    show Same (.ok (.bool (toBool v))) (.ok (.bool (kToBool (.of v))))
    rw [toBool_same number (typed_value conversions h hv).scalar_inv]
    exact .value (.bool _)
  | str number h =>
    rw [@agrees_builtin_one _ _ _ _ _ _ _ (.routine "k_str" [])
      (builtinCall_routine (by decide) (by decide +kernel)) hoperands]
    refine iff_of_true (fun v hv => ?_) (fun hname => absurd hname (by decide))
    obtain ⟨text, htext, hktext⟩ := text_same number (typed_value conversions h hv).scalar_inv
    show Same (((scalarText v).map fun text => .ok (.string text)).getD (.error incompatible))
      (((kText (.of v)).map fun text => .ok (.string text)).getD (.error incompatible))
    rw [htext, hktext]
    exact .value (.string text)
  | print newline number h =>
    have hform (worker : Option String) :
        g.builtinCall (if newline then "println" else "print") 1 worker =
          some (.print newline) := by
      cases newline <;> simp [Cgen.builtinCall]
    rw [agrees_builtin_one hform hoperands]
    refine iff_of_true (fun v hv => ?_) (fun hname => ?_)
    · obtain ⟨text, htext, hktext⟩ := text_same number (typed_value conversions h hv).scalar_inv
      have hkir : kirBuiltin conversions (if newline then "println" else "print") [v] =
          .ok (.string (text ++ if newline then "\n" else "")) := by
        cases newline
        all_goals
          show ((scalarText v).map _).getD _ = _
          rw [htext]
          rfl
      have hc : kApply conversions (.print newline) [.of v] =
          .ok (.string (text ++ if newline then "\n" else "")) := by
        show ((kText (.of v)).map _).getD _ = _
        rw [hktext]
        rfl
      rw [hkir, hc]
      exact .value (.string _)
    · cases newline <;> exact absurd hname (by decide)
  | @map key value entries keys values =>
    refine iff_of_true (fun place => ?_) trivial
    have hentries : ∀ entry ∈ entries, Agrees conversions g scope entry.1 ∧
        Agrees conversions g scope entry.2 := fun entry hentry =>
      ⟨hoperands _ (mem_flatMap.mpr ⟨entry, hentry, by simp⟩),
        hoperands _ (mem_flatMap.mpr ⟨entry, hentry, by simp⟩)⟩
    obtain ⟨c, hc, hsame⟩ := entries_same keys values hentries place 0 (.value (.map [] [])) []
      [] (fun k hk => by cases hk) rfl
    refine ⟨.node place (.ordered .map) [c], ?_, ?_⟩
    · rw [Cgen.expr, hc]
      rfl
    · rw [kirValue, cValue, cValues, cValues]
      cases hc : cValue conversions (fun name => .of (scope.values name)) c with
      | error | ok =>
        rw [hc] at hsame
        exact hsame
  | mapGet hm hk =>
    rw [@agrees_builtin_two _ _ _ _ _ _ _ _ (.routine "k_map_get" [])
      (builtinCall_routine (by decide) (by decide +kernel)) hoperands]
    refine iff_of_true (fun v w hv hw => ?_) trivial
    obtain ⟨ks, vs, rfl, hks, -⟩ := (typed_value conversions hm hv).map_inv
    have hkey := (typed_value conversions hk hw).scalar_inv
    show Same (.ok (findKey w ks vs)) (.ok (kFind (.of w) (ks.map .ofScalar) (vs.map .ofScalar)))
    rw [hkey.of_eq, find_same hkey hks]
    exact .value _
  | mapContainsKey hm hk =>
    rw [@agrees_builtin_two _ _ _ _ _ _ _ _ (.routine "k_map_contains_key" [])
      (builtinCall_routine (by decide) (by decide +kernel)) hoperands]
    refine iff_of_true (fun v w hv hw => ?_) trivial
    obtain ⟨ks, vs, rfl, hks, -⟩ := (typed_value conversions hm hv).map_inv
    have hkey := (typed_value conversions hk hw).scalar_inv
    show Same (.ok (.bool (ks.any (equalValue · w))))
      (.ok (.bool ((ks.map KValue.ofScalar).any (kEqual · (.of w)))))
    rw [hkey.of_eq, any_same hkey hks]
    exact .value (.bool _)
  | unwrapOr ho hd =>
    rw [@agrees_builtin_two _ _ _ _ _ _ _ _ (.routine "k_unwrap_or" [])
      (builtinCall_routine (by decide) (by decide +kernel)) hoperands]
    refine iff_of_true (fun v w hv hw => ?_) trivial
    rcases (typed_value conversions ho hv).option_inv with rfl | ⟨inner, rfl, hinner⟩
    · exact .value w
    · show Same (.ok inner) (.ok (.ofScalar inner))
      rw [← hinner.of_eq]
      exact .value inner

/-! ## All operations -/

omit [FloatArith] in
theorem typed_operands {e : KIRTree} {type : ExprType} (h : OfType scope e type)
    {operand : KIRTree} (hmem : operand ∈ e.operands) : ∃ type, OfType scope operand type := by
  cases h with
  | int | bool | string | var => cases hmem
  | arithmetic _ _ l r | comparison _ _ l r | equality _ l r =>
    rcases mem_pair.mp hmem with rfl | rfl
    · exact ⟨_, l⟩
    · exact ⟨_, r⟩
  | toUInt _ _ h | toInt _ h | toFloat _ h | toBool _ h | str _ h | print _ _ h =>
    obtain rfl := mem_singleton.mp hmem
    exact ⟨_, h⟩
  | map keys values =>
    obtain ⟨entry, hentry, hmem⟩ := mem_flatMap.mp hmem
    rcases mem_pair.mp hmem with rfl | rfl
    · exact ⟨_, keys entry hentry⟩
    · exact ⟨_, values entry hentry⟩
  | mapGet h₁ h₂ | mapContainsKey h₁ h₂ | unwrapOr h₁ h₂ =>
    rcases mem_pair.mp hmem with rfl | rfl
    · exact ⟨_, h₁⟩
    · exact ⟨_, h₂⟩

omit [FloatArith] in
theorem typed_within {e inner : KIRTree} (hwithin : Within inner e)
    (h : ∃ type, OfType scope e type) : ∃ type, OfType scope inner type := by
  induction hwithin with
  | refl => exact h
  | tail _ hmem ih =>
    obtain ⟨type, h⟩ := h
    exact ih (typed_operands h hmem)

omit [FloatArith] in
theorem operands_lt {e operand : KIRTree} (h : operand ∈ e.operands) :
    sizeOf operand < sizeOf e := by
  cases e with
  | binary type operator left right =>
    rcases mem_pair.mp h with rfl | rfl <;> simp <;> omega
  | map type entries =>
    obtain ⟨entry, hentry, hmem⟩ := mem_flatMap.mp h
    have hlt := sizeOf_lt_of_mem hentry
    obtain ⟨k, v⟩ := entry
    rcases mem_pair.mp hmem with rfl | rfl <;> simp at hlt ⊢ <;> omega
  | call type call receiver args =>
    have hlt : sizeOf operand < sizeOf args := sizeOf_lt_of_mem h
    simp
    omega
  | _ => cases h

theorem agrees_of_fits {e : KIRTree} (h : ∃ type, OfType scope e type)
    (hfits : ∀ inner, Within inner e → FitsWidth conversions scope inner) :
    Agrees conversions g scope e := by
  obtain ⟨type, h⟩ := h
  rw [agrees_iff_fits h]
  · exact hfits e .refl
  · intro operand hmem
    exact agrees_of_fits (typed_operands h hmem) fun inner hinner => hfits inner (hinner.tail hmem)
termination_by sizeOf e
decreasing_by exact operands_lt hmem

/-- The emitted C reduces every intermediate result of an expression as the executor does if and
    only if every operation fits. -/
theorem computes_iff_fits {e : KIRTree} {type : ExprType} (h : OfType scope e type) :
    (∀ inner, Within inner e → Agrees conversions g scope inner) ↔
      ∀ inner, Within inner e → FitsWidth conversions scope inner := by
  constructor
  · intro hagrees inner hinner
    obtain ⟨type', h'⟩ := typed_within hinner ⟨type, h⟩
    rw [← agrees_iff_fits (g := g) h' fun operand hmem => hagrees operand (hinner.head hmem)]
    exact hagrees inner hinner
  · intro hfits inner hinner
    exact agrees_of_fits (typed_within hinner ⟨type, h⟩) fun deep hdeep =>
      hfits deep (hdeep.trans hinner)

end Nodes

/-! ## A sum of bytes -/

/-- Lean's own conversions. -/
def ieeeConversions : FloatConversions where
  ofInt i := ⟨(Float.ofInt i.toInt).toBits⟩
  ofUInt u := ⟨u.toFloat.toBits⟩

/-- No variables. -/
def closedScope : Scope where
  types _ := none
  values _ := .nil
  typed _ _ h := by cases h

/-- `u8(255) + u8(1)`. -/
def byteSum : KIRTree :=
  .binary "UInt8" .plus (builtinTree "UInt8" "u8" [.int "Int" 255])
    (builtinTree "UInt8" "u8" [.int "Int" 1])

theorem byteSum_typed : OfType closedScope byteSum (.scalar (.uint .w8)) :=
  .arithmetic (.inr ⟨.w8, rfl⟩) rfl (.toUInt .w8 (.inl rfl) (.int 255))
    (.toUInt .w8 (.inl rfl) (.int 1))

theorem computes_iff_fits_byteSum :
    (∀ inner, Within inner byteSum → @Agrees ieee ieeeConversions {} closedScope inner) ↔
      ∀ inner, Within inner byteSum → @FitsWidth ieee ieeeConversions closedScope inner :=
  @computes_iff_fits ieee ieeeConversions {} closedScope _ _ byteSum_typed

/-- The executor computes 0, and the emitted C 256. -/
theorem byteSum_not_reduced :
    ¬ ∀ (_ : FloatArith) (conversions : FloatConversions) (g : Cgen) (scope : Scope) (e : KIRTree)
      (type : ExprType), OfType scope e type → ∀ inner, Within inner e →
        Agrees conversions g scope inner := by
  intro hclaim
  have hagrees := hclaim ieee ieeeConversions {} closedScope byteSum _ byteSum_typed
  have hfits := (@agrees_iff_fits ieee ieeeConversions {} closedScope _ _ byteSum_typed
    fun operand hmem => hagrees operand (.single hmem)).mp (hagrees byteSum .refl)
  have hinside := hfits (.uint 8 255) (.uint 8 1) rfl rfl
  rcases hinside with hwide | hsum
  · exact absurd hwide (by decide)
  · exact absurd hsum (by decide)

end Kryndel
