import Mathlib.Tactic.Ring
import Mathlib.Data.List.Basic

/-!
# Numbers as bytes

Numbers in little-endian order in a fixed number of bytes, and what is read back. Reading
a shorter list than was asked for gives the number as if the missing bytes were zero.
-/

namespace Wire

/-- The `n` lowest bytes of a number, the lowest first. -/
def littleEndian : Nat → Nat → List UInt8
  | 0, _ => []
  | n + 1, x => UInt8.ofNat x :: littleEndian n (x / 256)

/-- The number that a list of bytes stands for, the lowest byte first. -/
def ofLittleEndian : List UInt8 → Nat
  | [] => 0
  | byte :: bytes => byte.toNat + 256 * ofLittleEndian bytes

@[simp] theorem length_littleEndian (n x : Nat) : (littleEndian n x).length = n := by
  induction n generalizing x with
  | zero => rfl
  | succ n ih => simp [littleEndian, ih]

theorem ofLittleEndian_littleEndian (n x : Nat) :
    ofLittleEndian (littleEndian n x) = x % 256 ^ n := by
  induction n generalizing x with
  | zero => simp [littleEndian, ofLittleEndian, Nat.mod_one]
  | succ n ih =>
    have hbyte : (UInt8.ofNat x).toNat = x % 256 := by simp
    rw [littleEndian, ofLittleEndian, ih, hbyte, pow_succ, Nat.mul_comm (256 ^ n),
      Nat.mod_mul]

theorem littleEndian_ofLittleEndian (bytes : List UInt8) :
    littleEndian bytes.length (ofLittleEndian bytes) = bytes := by
  induction bytes with
  | nil => rfl
  | cons byte bytes ih =>
    have hbyte : byte.toNat < 256 := byte.toNat_lt
    have hlow : UInt8.ofNat (byte.toNat + 256 * ofLittleEndian bytes) = byte := by
      apply UInt8.toNat_inj.mp
      simp
    have hhigh : (byte.toNat + 256 * ofLittleEndian bytes) / 256 = ofLittleEndian bytes := by
      omega
    rw [ofLittleEndian, List.length_cons, littleEndian, hlow, hhigh, ih]

theorem littleEndian_mod (n x : Nat) : littleEndian n (x % 256 ^ n) = littleEndian n x := by
  have h := littleEndian_ofLittleEndian (littleEndian n x)
  rwa [ofLittleEndian_littleEndian, length_littleEndian] at h

end Wire
