import Kryndel.Wire.Quoting

/-!
# Strings that are UTF-8

A string is UTF-8 if it is made of whole characters. A character is read the same way whatever
comes behind it.
-/

namespace Runes

open Quoting List

/-- The bytes of a character. -/
inductive Utf8Char : List UInt8 → Prop where
  | ascii {a : UInt8} (h : a < 0x80) : Utf8Char [a]
  | wide {a : UInt8} {tail : List UInt8} (high : 0x80 ≤ a)
      (length : tail.length + 1 = announced a) (h : follows a tail = true) : Utf8Char (a :: tail)

/-- A string of characters. -/
inductive Utf8Text : List UInt8 → Prop where
  | nil : Utf8Text []
  | cons {piece s : List UInt8} (h : Utf8Char piece) (rest : Utf8Text s) : Utf8Text (piece ++ s)

/-! ## Reading -/

variable {a : UInt8}

theorem take_tail {tail : List UInt8} (length : tail.length + 1 = announced a) (s : List UInt8) :
    (tail ++ s).take (announced a - 1) = tail := by
  rw [← length, Nat.add_sub_cancel, take_left]

theorem decodeRune_tail {tail : List UInt8} (high : 0x80 ≤ a)
    (length : tail.length + 1 = announced a) (h : follows a tail = true) (s : List UInt8) :
    decodeRune (a :: (tail ++ s)) =
      (tail.foldl (fun value b => value * 64 + b.toNat % 64) (a.toNat % 2 ^ (7 - announced a)),
        announced a) := by
  rw [decodeRune_wide high, take_tail length, if_pos ⟨length, h⟩]

variable {piece : List UInt8}

theorem decodeRune_char (h : Utf8Char piece) (s : List UInt8) :
    decodeRune (piece ++ s) = decodeRune piece ∧ (decodeRune piece).2 = piece.length := by
  cases h with
  | ascii h => exact ⟨by rw [cons_append, decodeRune_ascii h, decodeRune_ascii h],
      by rw [decodeRune_ascii h]; rfl⟩
  | @wide a tail high length h =>
    have halone := decodeRune_tail high length h []
    rw [append_nil] at halone
    rw [cons_append, decodeRune_tail high length h s, halone, length_cons, length]
    exact ⟨rfl, rfl⟩

theorem Utf8Char.ne_nil (h : Utf8Char piece) : piece ≠ [] := by
  cases h with
  | ascii h => exact cons_ne_nil _ _
  | wide high length h => exact cons_ne_nil _ _

theorem decodeRune_ne_replacement (h : Utf8Char piece) :
    decodeRune piece ≠ replacement := by
  have hsize := (decodeRune_char h []).2
  intro hreplaced
  rw [hreplaced] at hsize
  cases h with
  | @ascii a h =>
    rw [decodeRune_ascii h] at hreplaced
    have hvalue : a.toNat = 0xFFFD := congrArg Prod.fst hreplaced
    exact absurd a.toNat_lt (by omega)
  | @wide a tail high length h =>
    obtain rfl := length_eq_zero_iff.mp (Nat.succ.inj hsize).symm
    cases h

theorem runes_char (h : Utf8Char piece) (s : List UInt8) :
    runes (piece ++ s) = ⟨(decodeRune piece).1, piece⟩ :: runes s := by
  obtain ⟨hread, hsize⟩ := decodeRune_char h s
  have hne : piece ++ s ≠ [] := append_ne_nil_of_left_ne_nil h.ne_nil s
  rw [runes_cons hne, hread, hsize, take_left, drop_left]

theorem utf8Char_first (high : 0x80 ≤ a) {s : List UInt8} (h : decodeRune (a :: s) ≠ replacement) :
    Utf8Char ((a :: s).take (decodeRune (a :: s)).2) := by
  rw [decodeRune_wide high] at h ⊢
  split at h
  · next hread =>
    rw [if_pos hread]
    obtain ⟨n, hn⟩ := Nat.exists_eq_add_one.mpr (show 0 < announced a by omega)
    simp only [hn, take_succ_cons]
    rw [hn, Nat.add_sub_cancel] at hread
    exact .wide high (by rw [hn]; exact hread.1) hread.2
  · exact absurd rfl h

/-! ## Encoding -/

variable {n : Nat}

theorem announced_eq (h : n < 256) :
    announced (UInt8.ofNat n) =
      if n < 0x80 then 1 else if n < 0xC2 then 0 else if n < 0xE0 then 2 else if n < 0xF0 then 3
        else if n < 0xF5 then 4 else 0 := by
  simp only [announced, UInt8.lt_iff_toNat_lt, UInt8.toNat_ofNat', Nat.mod_eq_of_lt h]
  rfl

theorem ofNat_eq (h : n < 256) (b : UInt8) : UInt8.ofNat n = b ↔ n = b.toNat := by
  rw [← UInt8.toNat_inj, UInt8.toNat_ofNat', Nat.mod_eq_of_lt h]

theorem tail_range (x : Nat) :
    0x80 ≤ UInt8.ofNat (0x80 + x % 64) ∧ UInt8.ofNat (0x80 + x % 64) ≤ 0xBF := by
  have hlt : 0x80 + x % 64 < 256 := by omega
  simp only [UInt8.le_iff_toNat_le, UInt8.toNat_ofNat', Nat.mod_eq_of_lt hlt,
    show (0x80 : UInt8).toNat = 0x80 from rfl, show (0xBF : UInt8).toNat = 0xBF from rfl]
  omega

theorem follows_ofNat {n m : Nat} (hn : n < 256) (hm : m < 256)
    (hlow : (if n = 0xE0 then 0xA0 else if n = 0xF0 then 0x90 else 0x80) ≤ m)
    (hhigh : m ≤ if n = 0xED then 0x9F else if n = 0xF4 then 0x8F else 0xBF)
    {more : List UInt8} (hmore : ∀ c ∈ more, 0x80 ≤ c ∧ c ≤ 0xBF) :
    follows (UInt8.ofNat n) (UInt8.ofNat m :: more) = true := by
  simp only [follows, Bool.and_eq_true, decide_eq_true_eq, all_eq_true]
  refine ⟨⟨?_, ?_⟩, hmore⟩
  · simp only [ofNat_eq hn, UInt8.le_iff_toNat_le, UInt8.toNat_ofNat', Nat.mod_eq_of_lt hm,
      show (0xE0 : UInt8).toNat = 0xE0 from rfl, show (0xF0 : UInt8).toNat = 0xF0 from rfl]
    split_ifs at hlow ⊢ <;> exact hlow
  · simp only [ofNat_eq hn, UInt8.le_iff_toNat_le, UInt8.toNat_ofNat', Nat.mod_eq_of_lt hm,
      show (0xED : UInt8).toNat = 0xED from rfl, show (0xF4 : UInt8).toNat = 0xF4 from rfl]
    split_ifs at hhigh ⊢ <;> exact hhigh

theorem high_ofNat (hn : n < 256) (h : 0x80 ≤ n) : 0x80 ≤ UInt8.ofNat n := by
  rw [UInt8.le_iff_toNat_le, UInt8.toNat_ofNat', Nat.mod_eq_of_lt hn]
  exact h

theorem utf8Char_encodeRune {value : Nat} (h : validRune value = true) :
    Utf8Char (encodeRune value) := by
  have hrange : value < 0xD800 ∨ 0xDFFF < value ∧ value ≤ 0x10FFFF := by
    simpa [validRune] using h
  simp only [encodeRune, h, if_true]
  split_ifs with hone htwo hthree
  · refine .ascii ?_
    rw [UInt8.lt_iff_toNat_lt, UInt8.toNat_ofNat', Nat.mod_eq_of_lt (by omega)]
    exact hone
  · have hlead : 0xC0 + value / 64 < 256 := by omega
    refine .wide (high_ofNat hlead (by omega)) ?_ (follows_ofNat hlead (by omega) ?_ ?_ ?_)
    · rw [announced_eq hlead, if_neg (by omega), if_neg (by omega), if_pos (by omega)]
      rfl
    · split_ifs <;> omega
    · split_ifs <;> omega
    · simp
  · have hlead : 0xE0 + value / 4096 < 256 := by omega
    refine .wide (high_ofNat hlead (by omega)) ?_ (follows_ofNat hlead (by omega) ?_ ?_ ?_)
    · rw [announced_eq hlead, if_neg (by omega), if_neg (by omega), if_neg (by omega),
        if_pos (by omega)]
      rfl
    · split_ifs <;> omega
    · split_ifs <;> omega
    · intro c hc
      obtain rfl := mem_singleton.mp hc
      exact tail_range value
  · have hlead : 0xF0 + value / 262144 < 256 := by omega
    refine .wide (high_ofNat hlead (by omega)) ?_ (follows_ofNat hlead (by omega) ?_ ?_ ?_)
    · rw [announced_eq hlead, if_neg (by omega), if_neg (by omega), if_neg (by omega),
        if_neg (by omega), if_pos (by omega)]
      rfl
    · split_ifs <;> omega
    · split_ifs <;> omega
    · intro c hc
      rcases mem_cons.mp hc with rfl | hc
      · exact tail_range (value / 64)
      · obtain rfl := mem_singleton.mp hc
        exact tail_range value

end Runes
