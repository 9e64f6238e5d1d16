import Mathlib.Algebra.Ring.Int.Defs
import Mathlib.Algebra.Ring.Nat
import Kryndel.Syntax.Ast

/-!
# Integer operators and conversions

The integer cases of `evalBinary` and the conversion to an unsigned width. A failed
operation is a diagnostic, here its text. The tests for overflow are written with
machine arithmetic; what they decide is stated over the integers (`addI_eq_some` and
its companions). The unsigned operators reduce the result that the 64-bit operation
leaves, which is the exact result reduced to the width (`evalUInts_exact`).
-/

namespace Kryndel

/-! ## The operators -/

/-- The arithmetic of the signed case of `evalBinary`: `none` when the operation is not
    `ok`, which includes the operators that the case does not have. -/
def checkedInts (op : BinaryOp) (l r : Int64) : Option Int64 :=
  match op with
  | .plus => addI l r
  | .minus => subI l r
  | .star => mulI l r
  | .slash => divI l r
  | .percent => remI l r
  | _ => none

/-- The signed case of `evalBinary`. -/
def evalInts (op : BinaryOp) (l r : Int64) : Except String Value :=
  match op with
  | .less => .ok (.bool (l < r))
  | .leq => .ok (.bool (l ≤ r))
  | .greater => .ok (.bool (l > r))
  | .geq => .ok (.bool (l ≥ r))
  | op =>
    match checkedInts op l r with
    | some z => .ok (.int z)
    | none =>
      if (op = .slash ∨ op = .percent) ∧ r = 0 then
        if op = .percent then .error "remainder by zero" else .error "division by zero"
      else .error "checked integer arithmetic overflow"

/-- The unsigned case of `evalBinary`. -/
def evalUInts (op : BinaryOp) (lbits : UInt8) (l : UInt64) (rbits : UInt8) (r : UInt64) :
    Except String Value :=
  if lbits ≠ rbits then
    .error "bitwise and unsigned arithmetic operands must have matching UInt widths"
  else
    match op with
    | .pipe => .ok (.uintVal lbits (l ||| r))
    | .bitand => .ok (.uintVal lbits (l &&& r))
    | .bitxor => .ok (.uintVal lbits (l ^^^ r))
    | .plus => .ok (.uintVal lbits (l + r))
    | .minus => .ok (.uintVal lbits (l - r))
    | .star => .ok (.uintVal lbits (l * r))
    | .slash => if r = 0 then .error "division by zero" else .ok (.uintVal lbits (l / r))
    | .percent => if r = 0 then .error "remainder by zero" else .ok (.uintVal lbits (l % r))
    | .less => .ok (.bool (l < r))
    | .leq => .ok (.bool (l ≤ r))
    | .greater => .ok (.bool (l > r))
    | .geq => .ok (.bool (l ≥ r))
    | _ => .error "operator operands have incompatible types"

/-- The shifts of `evalBinary`, of an unsigned value by a signed count. -/
def evalShift (op : BinaryOp) (bits : UInt8) (l : UInt64) (r : Int64) : Except String Value :=
  if r < 0 ∨ r.toUInt64 ≥ bits.toUInt64 then
    .error "shift count must be between 0 and UInt width minus one"
  else
    match op with
    | .shl => .ok (.uintVal bits (l <<< r.toUInt64))
    | .shr => .ok (.uintVal bits (l >>> r.toUInt64))
    | _ => .error "operator operands have incompatible types"

/-- `toUInt`. -/
def toUInt (v : Value) (bits : UInt8) : Except String Value :=
  let inRange (n : UInt64) : Except String Value :=
    if bits < 64 ∧ n ≥ 1 <<< bits.toUInt64 then .error "value is outside unsigned range"
    else .ok (.uintVal bits n)
  match v with
  | .uint _ n => inRange n
  | .int i => if i < 0 then .error "Int is outside unsigned range" else inRange i.toUInt64
  | _ => .error "unsigned conversion is unsupported"

/-! ## What they compute -/

/-- The signed operators over the integers, with truncated division. -/
def exactInt (op : BinaryOp) (a b : Int) : Option Int :=
  match op with
  | .plus => some (a + b)
  | .minus => some (a - b)
  | .star => some (a * b)
  | .slash => if b = 0 then none else some (a.tdiv b)
  | .percent => if b = 0 then none else some (a.tmod b)
  | _ => none

/-- The unsigned operators over the integers. -/
def exactUInt (op : BinaryOp) (a b : Nat) : Option Int :=
  match op with
  | .pipe => some ((a ||| b : Nat) : Int)
  | .bitand => some ((a &&& b : Nat) : Int)
  | .bitxor => some ((a ^^^ b : Nat) : Int)
  | .plus => some (a + b)
  | .minus => some (a - b)
  | .star => some (a * b)
  | .slash => if b = 0 then none else some (a / b)
  | .percent => if b = 0 then none else some (a % b)
  | _ => none

/-- The shifts over the integers. -/
def exactShift (op : BinaryOp) (a count : Nat) : Option Int :=
  match op with
  | .shl => some (a * 2 ^ count)
  | .shr => some (a / 2 ^ count)
  | _ => none

/-- A value of an unsigned width that is an integer reduced to the width. -/
def IsReduced (bits : UInt8) (v : Value) (z : Int) : Prop :=
  ∃ c : UInt64, v = .uint bits c ∧ c.toNat < 2 ^ bits.toNat ∧
    (c.toNat : Int) = z % (2 ^ bits.toNat : Nat)

/-! ## Signed arithmetic -/

section Signed

variable {a b c : Int64}

theorem toInt_maxInt64 : maxInt64.toInt = 9223372036854775807 := by decide

theorem toInt_minInt64 : minInt64.toInt = -9223372036854775808 := by decide

theorem toInt_range (a : Int64) :
    -9223372036854775808 ≤ a.toInt ∧ a.toInt < 9223372036854775808 :=
  ⟨Int64.le_toInt a, Int64.toInt_lt a⟩

theorem ite_none_some_iff {p : Prop} [Decidable p] {m : Int64} {z : Int}
    (hfits : ¬ p → m.toInt = z) (hout : p → ∀ d : Int64, d.toInt ≠ z) :
    (if p then none else some m) = some c ↔ c.toInt = z := by
  by_cases hp : p
  · rw [if_pos hp]
    exact ⟨fun h => (Option.some_ne_none c h.symm).elim, fun h => absurd h (hout hp c)⟩
  · rw [if_neg hp, Option.some_inj, ← hfits hp, Int64.toInt_inj]
    exact eq_comm

theorem ite_wrapped_iff {p : Prop} [Decidable p] {m : Int64} {z : Int}
    (hwrap : m.toInt = z.bmod (2 ^ 64))
    (hp : p ↔ z < -9223372036854775808 ∨ 9223372036854775808 ≤ z) :
    (if p then none else some m) = some c ↔ c.toInt = z := by
  apply ite_none_some_iff
  · intro hfits
    rw [hp] at hfits
    rw [hwrap, Int.bmod_eq_of_le (by omega) (by omega)]
  · intro hover d hd
    have := toInt_range d
    have := hp.mp hover
    omega

theorem addI_eq_some : addI a b = some c ↔ c.toInt = a.toInt + b.toInt := by
  have ha := toInt_range a
  have hb := toInt_range b
  have hzero : (0 : Int64).toInt = 0 := rfl
  apply ite_wrapped_iff (Int64.toInt_add a b)
  simp only [Int64.lt_iff_toInt_lt, Int64.toInt_sub, hzero, toInt_maxInt64, toInt_minInt64,
    gt_iff_lt, Int.bmod_def]
  omega

theorem subI_eq_some : subI a b = some c ↔ c.toInt = a.toInt - b.toInt := by
  have ha := toInt_range a
  have hb := toInt_range b
  have hzero : (0 : Int64).toInt = 0 := rfl
  apply ite_wrapped_iff (Int64.toInt_sub a b)
  simp only [Int64.lt_iff_toInt_lt, Int64.toInt_add, hzero, toInt_maxInt64, toInt_minInt64,
    gt_iff_lt, Int.bmod_def]
  omega

theorem toInt_mul_div (hexc : ¬ (a = minInt64 ∧ b = -1)) :
    (a * b / b).toInt = (a * b).toInt.tdiv b.toInt := by
  by_cases hb : b = -1
  · apply Int64.toInt_div_of_ne_left
    intro hmin
    have ha := toInt_range a
    have hne : a.toInt ≠ minInt64.toInt := fun h => hexc ⟨Int64.toInt_inj.mp h, hb⟩
    have hprod := congrArg Int64.toInt hmin
    have hone : (-1 : Int64).toInt = -1 := by decide
    have hleast : Int64.minValue.toInt = -9223372036854775808 := by decide
    rw [toInt_minInt64] at hne
    rw [hb, Int64.toInt_mul, hone, hleast, Int.bmod_def] at hprod
    omega
  · exact Int64.toInt_div_of_ne_right _ _ hb

theorem toInt_mul_of_div_eq (hexc : ¬ (a = minInt64 ∧ b = -1)) (hb : b.toInt ≠ 0)
    (h : a * b / b = a) : (a * b).toInt = a.toInt * b.toInt := by
  have hquot := toInt_mul_div hexc
  rw [h] at hquot
  have hsplit := Int.mul_tdiv_add_tmod (a * b).toInt b.toInt
  rw [← hquot, Int.mul_comm] at hsplit
  have hrem : ((a * b).toInt.tmod b.toInt).natAbs < b.toInt.natAbs := by
    rw [Int.natAbs_tmod]
    exact Nat.mod_lt _ (by omega)
  have hrange := toInt_range b
  have hwrap := Int64.toInt_mul a b
  rw [Int.bmod_def] at hwrap
  omega

theorem div_eq_of_toInt_mul (hexc : ¬ (a = minInt64 ∧ b = -1)) (hb : b.toInt ≠ 0)
    (h : (a * b).toInt = a.toInt * b.toInt) : a * b / b = a := by
  rw [← Int64.toInt_inj, toInt_mul_div hexc, h, Int.mul_tdiv_cancel _ hb]

theorem mulI_eq_some : mulI a b = some c ↔ c.toInt = a.toInt * b.toInt := by
  have hzero : (0 : Int64).toInt = 0 := rfl
  rw [mulI]
  by_cases hz : a = 0 ∨ b = 0
  · have hprod : a.toInt * b.toInt = 0 := by
      rcases hz with rfl | rfl
      · rw [hzero, Int.zero_mul]
      · rw [hzero, Int.mul_zero]
    rw [if_pos hz, hprod, Option.some_inj, ← hzero, Int64.toInt_inj]
    exact eq_comm
  rw [if_neg hz, not_or] at *
  by_cases hexc : (a = minInt64 ∧ b = -1) ∨ (b = minInt64 ∧ a = -1)
  · -- the negation of the least integer
    have hprod : a.toInt * b.toInt = 9223372036854775808 := by
      rcases hexc with ⟨rfl, rfl⟩ | ⟨rfl, rfl⟩
      · decide
      · decide
    have hc := toInt_range c
    rw [if_pos hexc, hprod]
    constructor
    · intro h
      cases h
    · intro h
      omega
  · rw [if_neg hexc]
    have hleft : ¬ (a = minInt64 ∧ b = -1) := fun h => hexc (.inl h)
    have hb : b.toInt ≠ 0 := by
      exact fun h => hz.2 (Int64.toInt_inj.mp h)
    apply ite_none_some_iff
    · intro hquot
      exact toInt_mul_of_div_eq hleft hb (Decidable.not_not.mp hquot)
    · intro hquot d hd
      apply hquot
      apply div_eq_of_toInt_mul hleft hb
      -- a product that is the value of some integer does not wrap
      have hrange := toInt_range d
      rw [Int64.toInt_mul, ← hd, Int.bmod_def]
      omega

theorem div_exception (h : a = minInt64 ∧ b = -1) : a.toInt.tdiv b.toInt = 9223372036854775808 := by
  rw [h.1, h.2]
  decide

theorem divI_eq_some : divI a b = some c ↔ b ≠ 0 ∧ c.toInt = a.toInt.tdiv b.toInt := by
  by_cases hb : b = 0
  · simp [divI, hb]
  rw [divI, and_iff_right hb]
  apply ite_none_some_iff
  · intro h
    rw [not_or] at h
    by_cases hone : b = -1
    · apply Int64.toInt_div_of_ne_left
      exact fun hmin => h.2 ⟨hmin, hone⟩
    · exact Int64.toInt_div_of_ne_right a b hone
  · intro h d hd
    have hrange := toInt_range d
    rw [div_exception (h.resolve_left hb)] at hd
    omega

theorem remI_eq_some : remI a b = some c ↔
    (b ≠ 0 ∧ ¬ (a = minInt64 ∧ b = -1)) ∧ c.toInt = a.toInt.tmod b.toInt := by
  rw [remI]
  by_cases h : b = 0 ∨ (a = minInt64 ∧ b = -1)
  · rw [if_pos h]
    constructor
    · intro hnone
      cases hnone
    · rintro ⟨⟨hb, hexc⟩, _⟩
      exact (h.elim hb hexc).elim
  · rw [if_neg h, Option.some_inj, ← Int64.toInt_mod, Int64.toInt_inj,
      and_iff_right (not_or.mp h)]
    exact eq_comm

end Signed

/-! ## Unsigned arithmetic -/

section Unsigned

variable {bits : UInt8}

theorem toNat_uintWrap (hbits : bits.toNat ≤ 64) (v : UInt64) :
    (uintWrap bits v).toNat = v.toNat % 2 ^ bits.toNat := by
  rw [uintWrap]
  by_cases hlt : bits < 64
  · have hlt' : bits.toNat < 64 := UInt8.lt_iff_toNat_lt.mp hlt
    have hmask : ((1 : UInt64) <<< bits.toUInt64 - 1).toNat = 2 ^ bits.toNat - 1 := by
      have hpow : 2 ^ bits.toNat < 2 ^ 64 := Nat.pow_lt_pow_right (by omega) hlt'
      have hshift : ((1 : UInt64) <<< bits.toUInt64).toNat = 2 ^ bits.toNat := by
        rw [UInt64.toNat_shiftLeft, UInt8.toNat_toUInt64, Nat.mod_eq_of_lt hlt', Nat.shiftLeft_eq]
        simp only [UInt64.toNat_one, Nat.one_mul]
        exact Nat.mod_eq_of_lt hpow
      have hpos := Nat.two_pow_pos bits.toNat
      rw [UInt64.toNat_sub_of_le _ _ (by rw [UInt64.le_iff_toNat_le, hshift]; exact hpos), hshift]
      rfl
    rw [if_pos hlt, UInt64.toNat_and, hmask, Nat.and_two_pow_sub_one_eq_mod]
  · have heq : bits.toNat = 64 := by
      have := mt UInt8.lt_iff_toNat_lt.mpr hlt
      have h64 : (64 : UInt8).toNat = 64 := rfl
      omega
    rw [if_neg hlt, heq]
    exact (Nat.mod_eq_of_lt v.toNat_lt).symm

variable {z : Int}

theorem IsReduced.of_word (hbits : bits.toNat ≤ 64) {v : UInt64}
    (h : (v.toNat : Int) = z % (2 ^ 64 : Nat)) : IsReduced bits (.uintVal bits v) z := by
  have hnat := toNat_uintWrap hbits v
  refine ⟨uintWrap bits v, rfl, ?_, ?_⟩
  · rw [hnat]
    exact Nat.mod_lt _ (Nat.two_pow_pos _)
  · have hdvd : ((2 ^ bits.toNat : Nat) : Int) ∣ ((2 ^ 64 : Nat) : Int) :=
      Int.natCast_dvd_natCast.mpr (Nat.pow_dvd_pow 2 hbits)
    rw [hnat, Int.natCast_emod, h, Int.emod_emod_of_dvd z hdvd]

theorem IsReduced.of_nat (hbits : bits.toNat ≤ 64) {v : UInt64} {n : Nat} (h : v.toNat = n) :
    IsReduced bits (.uintVal bits v) n := by
  apply IsReduced.of_word hbits
  have hlt := v.toNat_lt
  omega

variable {l r : UInt64}

theorem evalUInts_exact (hbits : bits.toNat ≤ 64) {op : BinaryOp}
    (h : exactUInt op l.toNat r.toNat = some z) :
    ∃ v, evalUInts op bits l bits r = .ok v ∧ IsReduced bits v z := by
  have hl := l.toNat_lt
  have hr := r.toNat_lt
  unfold evalUInts
  rw [if_neg (by simp)]
  cases op with
  | pipe => cases h; exact ⟨_, rfl, .of_nat hbits (UInt64.toNat_or l r)⟩
  | bitand => cases h; exact ⟨_, rfl, .of_nat hbits (UInt64.toNat_and l r)⟩
  | bitxor => cases h; exact ⟨_, rfl, .of_nat hbits (UInt64.toNat_xor l r)⟩
  | plus =>
    cases h
    refine ⟨_, rfl, .of_word hbits ?_⟩
    rw [UInt64.toNat_add]
    omega
  | minus =>
    cases h
    refine ⟨_, rfl, .of_word hbits ?_⟩
    rw [UInt64.toNat_sub]
    omega
  | star =>
    cases h
    refine ⟨_, rfl, .of_word hbits ?_⟩
    rw [UInt64.toNat_mul]
    simp
  | slash =>
    by_cases hzero : r.toNat = 0
    · simp [exactUInt, hzero] at h
    · rw [exactUInt, if_neg hzero] at h
      cases h
      have hne : ¬ r = 0 := fun heq => hzero (by rw [heq]; rfl)
      exact ⟨_, if_neg hne, .of_nat hbits (UInt64.toNat_div l r)⟩
  | percent =>
    by_cases hzero : r.toNat = 0
    · simp [exactUInt, hzero] at h
    · rw [exactUInt, if_neg hzero] at h
      cases h
      have hne : ¬ r = 0 := fun heq => hzero (by rw [heq]; rfl)
      exact ⟨_, if_neg hne, .of_nat hbits (UInt64.toNat_mod l r)⟩
  | _ => cases h

theorem shiftCount_lt (hbits : bits.toNat ≤ 64) {r : Int64}
    (h : ¬ (r < 0 ∨ r.toUInt64 ≥ bits.toUInt64)) : r.toUInt64.toNat < 64 := by
  rw [not_or, ge_iff_le, UInt64.not_le, UInt64.lt_iff_toNat_lt, UInt8.toNat_toUInt64] at h
  omega

theorem evalShift_exact (hbits : bits.toNat ≤ 64) {op : BinaryOp} {r : Int64}
    (hcount : 0 ≤ r.toInt ∧ r.toInt < bits.toNat)
    (h : exactShift op l.toNat r.toInt.toNat = some z) :
    ∃ v, evalShift op bits l r = .ok v ∧ IsReduced bits v z := by
  have hword : r.toUInt64.toNat = r.toInt.toNat :=
    Int64.toNat_toUInt64_of_le (Int64.le_iff_toInt_le.mpr (by simpa using hcount.1))
  have hguard : ¬ (r < 0 ∨ r.toUInt64 ≥ bits.toUInt64) := by
    rw [not_or, ge_iff_le, UInt64.not_le, UInt64.lt_iff_toNat_lt, UInt8.toNat_toUInt64, hword,
      Int64.not_lt, Int64.le_iff_toInt_le]
    have hzero : (0 : Int64).toInt = 0 := rfl
    omega
  have hlt := shiftCount_lt hbits hguard
  unfold evalShift
  rw [if_neg hguard]
  cases op with
  | shl =>
    cases h
    refine ⟨_, rfl, .of_word hbits ?_⟩
    rw [UInt64.toNat_shiftLeft, Nat.mod_eq_of_lt hlt, hword, Nat.shiftLeft_eq]
    push_cast
    rfl
  | shr =>
    cases h
    have hshift : (l >>> r.toUInt64).toNat = l.toNat / 2 ^ r.toInt.toNat := by
      rw [UInt64.toNat_shiftRight, Nat.mod_eq_of_lt hlt, hword, Nat.shiftRight_eq_div_pow]
    have hreduced := IsReduced.of_nat hbits hshift
    exact ⟨_, rfl, hreduced⟩
  | _ => cases h

theorem outOfRange_iff (hbits : bits.toNat ≤ 64) (n : UInt64) :
    (bits < 64 ∧ n ≥ 1 <<< bits.toUInt64) ↔ 2 ^ bits.toNat ≤ n.toNat := by
  by_cases hlt : bits.toNat < 64
  · have hpow : 2 ^ bits.toNat < 2 ^ 64 := Nat.pow_lt_pow_right (by omega) hlt
    have hshift : ((1 : UInt64) <<< bits.toUInt64).toNat = 2 ^ bits.toNat := by
      rw [UInt64.toNat_shiftLeft, UInt8.toNat_toUInt64, Nat.mod_eq_of_lt hlt, Nat.shiftLeft_eq]
      simp only [UInt64.toNat_one, Nat.one_mul]
      exact Nat.mod_eq_of_lt hpow
    rw [ge_iff_le, UInt64.le_iff_toNat_le, hshift, and_iff_right]
    exact UInt8.lt_iff_toNat_lt.mpr hlt
  · have heq : bits.toNat = 64 := by omega
    have hword := n.toNat_lt
    rw [heq]
    refine iff_of_false ?_ (by omega)
    rintro ⟨hsmall, _⟩
    exact hlt (UInt8.lt_iff_toNat_lt.mp hsmall)

/-- The integer that `toUInt` converts. -/
def integerOf : Value → Option Int
  | .uint _ n => some n.toNat
  | .int i => some i.toInt
  | _ => none

theorem toUInt_eq_ok (hbits : bits.toNat ≤ 64) {v w : Value} (hz : integerOf v = some z) :
    toUInt v bits = .ok w ↔
      (0 ≤ z ∧ z < 2 ^ bits.toNat) ∧ IsReduced bits w z := by
  -- both kinds of value end with the test on a machine word
  have hword : ∀ n : UInt64, (n.toNat : Int) = z →
      ((if bits < 64 ∧ n ≥ 1 <<< bits.toUInt64 then Except.error "value is outside unsigned range"
        else Except.ok (Value.uintVal bits n)) = Except.ok w ↔
        (0 ≤ z ∧ z < 2 ^ bits.toNat) ∧ IsReduced bits w z) := by
    intro n hn
    have hcast : ((2 ^ bits.toNat : Nat) : Int) = (2 : Int) ^ bits.toNat := by push_cast; rfl
    by_cases hout : bits < 64 ∧ n ≥ 1 <<< bits.toUInt64
    · have hge := (outOfRange_iff hbits n).mp hout
      rw [if_pos hout]
      refine iff_of_false (by simp) ?_
      rintro ⟨⟨_, hlt⟩, _⟩
      rw [← hcast] at hlt
      omega
    · have hlt := mt (outOfRange_iff hbits n).mpr hout
      have hreduced : IsReduced bits (.uintVal bits n) z := by
        rw [← hn]
        exact .of_nat hbits rfl
      rw [if_neg hout, Except.ok.injEq]
      constructor
      · rintro rfl
        refine ⟨⟨by omega, ?_⟩, hreduced⟩
        rw [← hcast]
        omega
      · rintro ⟨_, c, rfl, _, hc⟩
        obtain ⟨c', hv, _, hc'⟩ := hreduced
        rw [hv]
        congr 1
        apply UInt64.toNat_inj.mp
        omega
  cases v with
  | uint m n =>
    cases hz
    exact hword n rfl
  | int i =>
    cases hz
    simp only [toUInt]
    by_cases hneg : i < 0
    · rw [if_pos hneg]
      refine iff_of_false (by simp) ?_
      rintro ⟨⟨hle, _⟩, _⟩
      rw [Int64.lt_iff_toInt_lt] at hneg
      have hzero : (0 : Int64).toInt = 0 := rfl
      omega
    · rw [if_neg hneg]
      apply hword
      have hle : 0 ≤ i := Int64.not_lt.mp hneg
      have hnat : i.toUInt64.toNat = i.toInt.toNat := Int64.toNat_toUInt64_of_le hle
      rw [Int64.le_iff_toInt_le] at hle
      have hzero : (0 : Int64).toInt = 0 := rfl
      omega
  | _ => cases hz

end Unsigned

/-! ## Results and diagnostics -/

/-- The signed operators give the integer that they denote, and a diagnostic when there is
    none of 64 bits. The remainder of the least integer by minus one has a diagnostic too. -/
theorem evalInts_eq_ok {op : BinaryOp} {l r : Int64}
    (hop : op ∈ [.plus, .minus, .star, .slash, .percent]) (v : Value) :
    evalInts op l r = .ok v ↔ ¬ (op = .percent ∧ l = minInt64 ∧ r = -1) ∧
      ∃ c : Int64, v = .int c ∧ exactInt op l.toInt r.toInt = some c.toInt := by
  have hzero : ∀ d : Int64, d.toInt = 0 ↔ d = 0 := by
    intro d
    rw [← Int64.toInt_inj]
    rfl
  -- the checked operation against the integers
  have hchecked : ∀ c : Int64, checkedInts op l r = some c ↔
      ¬ (op = .percent ∧ l = minInt64 ∧ r = -1) ∧
        exactInt op l.toInt r.toInt = some c.toInt := by
    intro c
    simp only [List.mem_cons, List.not_mem_nil, or_false] at hop
    rcases hop with rfl | rfl | rfl | rfl | rfl
    · simp [checkedInts, exactInt, addI_eq_some, eq_comm]
    · simp [checkedInts, exactInt, subI_eq_some, eq_comm]
    · simp [checkedInts, exactInt, mulI_eq_some, eq_comm]
    · by_cases hr : r = 0
      · simp [checkedInts, exactInt, divI_eq_some, hr]
      · simp [checkedInts, exactInt, divI_eq_some, hr, hzero, eq_comm]
    · by_cases hr : r = 0
      · simp [checkedInts, exactInt, remI_eq_some, hr]
      · simp [checkedInts, exactInt, remI_eq_some, hr, hzero, eq_comm]
  have heval : evalInts op l r = match checkedInts op l r with
      | some z => .ok (.int z)
      | none =>
        if (op = .slash ∨ op = .percent) ∧ r = 0 then
          if op = .percent then .error "remainder by zero" else .error "division by zero"
        else .error "checked integer arithmetic overflow" := by
    simp only [List.mem_cons, List.not_mem_nil, or_false] at hop
    rcases hop with rfl | rfl | rfl | rfl | rfl <;> rfl
  rw [heval]
  cases hrun : checkedInts op l r with
  | some z =>
    have hz := (hchecked z).mp hrun
    rw [Except.ok.injEq, and_iff_right hz.1]
    constructor
    · rintro rfl
      exact ⟨z, rfl, hz.2⟩
    · rintro ⟨c, rfl, hc⟩
      rw [hz.2, Option.some_inj, Int64.toInt_inj] at hc
      rw [hc]
  | none =>
    refine iff_of_false ?_ ?_
    · dsimp only
      split
      · split <;> simp
      · simp
    · rintro ⟨hexc, c, rfl, hc⟩
      have := (hchecked c).mpr ⟨hexc, hc⟩
      rw [hrun] at this
      cases this

/-- The checked operations give the exact integer just when there is one of 64 bits, apart
    from the remainder of the least integer by minus one; the unsigned operators give the
    exact result reduced to the width; a conversion to a width gives the integer itself, and
    only for an integer of the width. -/
theorem checkedArithmetic_exact :
    (∀ a b c, (addI a b = some c ↔ c.toInt = a.toInt + b.toInt) ∧
      (subI a b = some c ↔ c.toInt = a.toInt - b.toInt) ∧
      (mulI a b = some c ↔ c.toInt = a.toInt * b.toInt) ∧
      (divI a b = some c ↔ b ≠ 0 ∧ c.toInt = a.toInt.tdiv b.toInt) ∧
      (remI a b = some c ↔
        (b ≠ 0 ∧ ¬ (a = minInt64 ∧ b = -1)) ∧ c.toInt = a.toInt.tmod b.toInt)) ∧
    (∀ op ∈ [BinaryOp.plus, .minus, .star, .slash, .percent], ∀ l r v,
      evalInts op l r = .ok v ↔ ¬ (op = .percent ∧ l = minInt64 ∧ r = -1) ∧
        ∃ c : Int64, v = .int c ∧ exactInt op l.toInt r.toInt = some c.toInt) ∧
    ∀ bits : UInt8, bits.toNat ≤ 64 →
      (∀ op (l r : UInt64) z, exactUInt op l.toNat r.toNat = some z →
        ∃ v, evalUInts op bits l bits r = .ok v ∧ IsReduced bits v z) ∧
      (∀ op (l : UInt64) (r : Int64) z, 0 ≤ r.toInt ∧ r.toInt < bits.toNat →
        exactShift op l.toNat r.toInt.toNat = some z →
        ∃ v, evalShift op bits l r = .ok v ∧ IsReduced bits v z) ∧
      ∀ v w z, integerOf v = some z →
        (toUInt v bits = .ok w ↔ (0 ≤ z ∧ z < 2 ^ bits.toNat) ∧ IsReduced bits w z) := by
  refine ⟨?_, ?_, ?_⟩
  · intro a b c
    exact ⟨addI_eq_some, subI_eq_some, mulI_eq_some, divI_eq_some, remI_eq_some⟩
  · intro op hop l r v
    exact evalInts_eq_ok hop v
  · intro bits hbits
    refine ⟨?_, ?_, ?_⟩
    · intro op l r z h
      exact evalUInts_exact hbits h
    · intro op l r z hcount h
      exact evalShift_exact hbits hcount h
    · intro v w z hz
      exact toUInt_eq_ok hbits hz

/-- A product of bytes that wraps, the largest shift of a byte and a byte that is kept. -/
theorem checkedArithmetic_bytes :
    (∃ v, evalUInts .star 8 200 8 100 = .ok v ∧ IsReduced 8 v 20000) ∧
    (∃ v, evalShift .shl 8 3 7 = .ok v ∧ IsReduced 8 v 384) ∧
    (toUInt (.int 255) 8 = .ok (.uint 8 255) ↔
      ((0 : Int) ≤ 255 ∧ (255 : Int) < 2 ^ (8 : UInt8).toNat) ∧ IsReduced 8 (.uint 8 255) 255) ∧
    (evalInts .slash 7 (-2) = .ok (.int (-3)) ↔
      ¬ (BinaryOp.slash = .percent ∧ (7 : Int64) = minInt64 ∧ (-2 : Int64) = -1) ∧
        ∃ c : Int64, Value.int (-3) = .int c ∧ exactInt .slash 7 (-2) = some c.toInt) :=
  ⟨(checkedArithmetic_exact.2.2 8 (by decide)).1 .star 200 100 20000 (by decide),
   (checkedArithmetic_exact.2.2 8 (by decide)).2.1 .shl 3 7 384 (by decide) (by decide),
   (checkedArithmetic_exact.2.2 8 (by decide)).2.2 (.int 255) (.uint 8 255) 255 (by decide),
   checkedArithmetic_exact.2.1 .slash (by decide) 7 (-2) (.int (-3))⟩

/-- The remainder of the least integer by minus one is zero and is refused, and 256 is
    refused as a byte where its residue is zero. -/
theorem refused_results :
    ¬ (∀ c : Int64, remI minInt64 (-1) = some c ↔
      c.toInt = minInt64.toInt.tmod (-1 : Int64).toInt) ∧
    ¬ ∃ w, toUInt (.int 256) 8 = .ok w ∧ IsReduced 8 w 256 := by
  constructor
  · intro h
    have hrem : remI minInt64 (-1) = some 0 := (h 0).mpr (by decide)
    exact absurd hrem (by decide)
  · rintro ⟨w, hw, _⟩
    have hfail : toUInt (.int 256) 8 = .error "value is outside unsigned range" := rfl
    rw [hfail] at hw
    cases hw

end Kryndel
