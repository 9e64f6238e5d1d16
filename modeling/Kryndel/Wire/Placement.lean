import Mathlib.Algebra.Order.Ring.Nat
import Mathlib.Data.List.Basic
import Mathlib.Tactic.Ring

/-!
# Placement

Blocks of any sizes are placed one after the other, each at a multiple of an alignment. Words of
a machine are rounded up to powers of two by a mask.
-/

namespace Placement

/-- The first multiple of an alignment that is not below a number. -/
def up (align n : Nat) : Nat := (n + align - 1) / align * align

theorem dvd_up (align n : Nat) : align ∣ up align n := Nat.dvd_mul_left ..

variable {align : Nat}

theorem le_up (h : 0 < align) (n : Nat) : n ≤ up align n := by
  have hmod := Nat.mod_lt (n + align - 1) h
  have hdiv := Nat.div_add_mod' (n + align - 1) align
  rw [up]
  omega

theorem up_lt (h : 0 < align) (n : Nat) : up align n < n + align := by
  have hdiv := Nat.div_mul_le_self (n + align - 1) align
  rw [up]
  omega

variable {base : Nat}

theorem up_add (h : 0 < align) (hbase : align ∣ base) (n : Nat) :
    up align (base + n) = base + up align n := by
  obtain ⟨k, rfl⟩ := hbase
  rw [up, up, show align * k + n + align - 1 = n + align - 1 + align * k by omega,
    Nat.add_mul_div_left _ _ h]
  ring

/-! ## Blocks -/

/-- Where blocks of some sizes begin. -/
def place (align : Nat) : Nat → List Nat → List Nat
  | _, [] => []
  | base, n :: ns => base :: place align (base + up align n) ns

/-- Where the last of the blocks ends. -/
def total (align : Nat) : Nat → List Nat → Nat
  | base, [] => base
  | base, n :: ns => total align (base + up align n) ns

theorem le_total (align base : Nat) (ns : List Nat) : base ≤ total align base ns := by
  induction ns generalizing base with
  | nil => exact Nat.le_refl base
  | cons n ns ih => exact Nat.le_trans (Nat.le_add_right ..) (ih _)

theorem dvd_total (h : align ∣ base) (ns : List Nat) :
    align ∣ total align base ns := by
  induction ns generalizing base with
  | nil => exact h
  | cons n ns ih => exact ih (Nat.dvd_add h (dvd_up align n))

theorem place_inside (h : align ∣ base) (ns : List Nat) :
    ∀ block ∈ (place align base ns).zip ns,
      align ∣ block.1 ∧ base ≤ block.1 ∧ block.1 + up align block.2 ≤ total align base ns := by
  induction ns generalizing base with
  | nil =>
    intro block hblock
    cases hblock
  | cons n ns ih =>
    intro block hblock
    rcases List.mem_cons.mp hblock with rfl | hblock
    · exact ⟨h, Nat.le_refl base, le_total ..⟩
    · obtain ⟨hdvd, hle, hend⟩ := ih (Nat.dvd_add h (dvd_up align n)) block hblock
      exact ⟨hdvd, Nat.le_trans (Nat.le_add_right ..) hle, hend⟩

theorem place_apart (h : align ∣ base) (ns : List Nat) :
    ((place align base ns).zip ns).Pairwise
      fun block next => block.1 + up align block.2 ≤ next.1 := by
  induction ns generalizing base with
  | nil => exact List.Pairwise.nil
  | cons n ns ih =>
    have hnext := Nat.dvd_add h (dvd_up align n)
    exact List.Pairwise.cons (fun block hblock => (place_inside hnext ns block hblock).2.1)
      (ih hnext)

/-! ## Masks -/

theorem land_mask {width k x : Nat} (hk : k ≤ width) (hx : x < 2 ^ width) :
    x &&& (2 ^ width - 1 - (2 ^ k - 1)) = x / 2 ^ k * 2 ^ k := by
  have hmask : 2 ^ width - 1 - (2 ^ k - 1) = (2 ^ (width - k) - 1) * 2 ^ k := by
    rw [Nat.sub_mul, ← Nat.pow_add, Nat.sub_add_cancel hk, Nat.one_mul]
    have hpos := Nat.two_pow_pos k
    omega
  apply Nat.eq_of_testBit_eq
  intro i
  rw [Nat.testBit_and, hmask, Nat.testBit_mul_two_pow, Nat.testBit_mul_two_pow,
    Nat.testBit_two_pow_sub_one, Nat.testBit_div_two_pow]
  by_cases hi : k ≤ i
  · rw [Nat.sub_add_cancel hi]
    by_cases hwidth : i < width
    · simp [hi]
      omega
    · have hhigh : x.testBit i = false :=
        Nat.testBit_lt_two_pow (Nat.lt_of_lt_of_le hx (Nat.pow_le_pow_right (by decide)
          (Nat.le_of_not_lt hwidth)))
      simp [hhigh]
  · simp [hi]

theorem toNat_align32 (value : UInt32) {align : UInt32} {k : Nat} (halign : align.toNat = 2 ^ k)
    (h : value.toNat + align.toNat ≤ 2 ^ 32) :
    ((value + align - 1) &&& ~~~(align - 1)).toNat = up align.toNat value.toNat := by
  have hpos : 0 < align.toNat := halign ▸ Nat.two_pow_pos k
  have hk : k ≤ 32 := (Nat.pow_le_pow_iff_right (by decide)).mp (halign ▸ align.toNat_lt.le)
  have hone : (1 : UInt32).toNat = 1 := rfl
  have hsum : (value + align - 1).toNat = value.toNat + align.toNat - 1 := by
    rw [UInt32.toNat_sub, UInt32.toNat_add, hone]
    omega
  have hless : (align - 1).toNat = align.toNat - 1 := by
    rw [UInt32.toNat_sub, hone]
    have hlt := align.toNat_lt
    omega
  have hnot : (~~~(align - 1)).toNat = 2 ^ 32 - 1 - (2 ^ k - 1) := by
    rw [UInt32.toNat_not, hless, halign]
    rfl
  rw [UInt32.toNat_and, hnot, hsum, land_mask hk (by omega), up, halign]

theorem toNat_align64 (value : UInt64) {align : UInt64} {k : Nat} (halign : align.toNat = 2 ^ k)
    (h : value.toNat + align.toNat ≤ 2 ^ 64) :
    ((value + align - 1) &&& ~~~(align - 1)).toNat = up align.toNat value.toNat := by
  have hpos : 0 < align.toNat := halign ▸ Nat.two_pow_pos k
  have hk : k ≤ 64 := (Nat.pow_le_pow_iff_right (by decide)).mp (halign ▸ align.toNat_lt.le)
  have hone : (1 : UInt64).toNat = 1 := rfl
  have hsum : (value + align - 1).toNat = value.toNat + align.toNat - 1 := by
    rw [UInt64.toNat_sub, UInt64.toNat_add, hone]
    omega
  have hless : (align - 1).toNat = align.toNat - 1 := by
    rw [UInt64.toNat_sub, hone]
    omega
  have hnot : (~~~(align - 1)).toNat = 2 ^ 64 - 1 - (2 ^ k - 1) := by
    rw [UInt64.toNat_not, hless, halign]
    rfl
  rw [UInt64.toNat_and, hnot, hsum, land_mask hk (by omega), up, halign]

end Placement
