import Mathlib.Algebra.Ring.Nat
import Mathlib.Data.List.Basic
import Mathlib.Tactic.SplitIfs

/-!
# Runes of a byte string

A byte string is read as UTF-8 from its beginning. Where no character is encoded, one byte is
read as the replacement character, so that every string is read to its end.
-/

namespace Runes

open List

/-- A rune, and the bytes it was read from. -/
structure Rune where
  value : Nat
  bytes : List UInt8
deriving DecidableEq, Repr

/-- How many bytes a first byte announces; none, if there is no such first byte. -/
def announced (a : UInt8) : Nat :=
  if a < 0x80 then 1
  else if a < 0xC2 then 0
  else if a < 0xE0 then 2
  else if a < 0xF0 then 3
  else if a < 0xF5 then 4
  else 0

/-- Are these the bytes after a first byte? The second one has a range of its own. -/
def follows (a : UInt8) : List UInt8 → Bool
  | [] => false
  | b :: more =>
    (if a = 0xE0 then 0xA0 else if a = 0xF0 then 0x90 else 0x80) ≤ b &&
      b ≤ (if a = 0xED then 0x9F else if a = 0xF4 then 0x8F else 0xBF) &&
        more.all fun c => 0x80 ≤ c && c ≤ 0xBF

/-- The replacement character, for one byte. -/
def replacement : Nat × Nat := (0xFFFD, 1)

/-- `utf8.DecodeRuneInString`: the first rune and its number of bytes. -/
def decodeRune : List UInt8 → Nat × Nat
  | [] => (0xFFFD, 0)
  | a :: rest =>
    if a < 0x80 then (a.toNat, 1)
    else
      let n := announced a
      let tail := rest.take (n - 1)
      if tail.length + 1 = n ∧ follows a tail then
        (tail.foldl (fun value b => value * 64 + b.toNat % 64) (a.toNat % 2 ^ (7 - n)), n)
      else replacement

/-- How many UTF-16 units encode a rune. -/
def utf16Width (value : Nat) : Nat := if 0x10000 ≤ value then 2 else 1

/-! ## The first rune -/

variable {a : UInt8}

theorem decodeRune_ascii (h : a < 0x80) (rest : List UInt8) :
    decodeRune (a :: rest) = (a.toNat, 1) := if_pos h

theorem decodeRune_wide (h : 0x80 ≤ a) (rest : List UInt8) :
    decodeRune (a :: rest) =
      if (rest.take (announced a - 1)).length + 1 = announced a ∧
          follows a (rest.take (announced a - 1)) then
        ((rest.take (announced a - 1)).foldl (fun value b => value * 64 + b.toNat % 64)
          (a.toNat % 2 ^ (7 - announced a)), announced a)
      else replacement := if_neg (UInt8.not_lt.mpr h)

variable {s : List UInt8}

theorem decodeRune_size (h : s ≠ []) :
    1 ≤ (decodeRune s).2 ∧ (decodeRune s).2 ≤ s.length := by
  obtain ⟨a, rest, rfl⟩ := exists_cons_of_ne_nil h
  rw [length_cons]
  by_cases ha : a < 0x80
  · rw [decodeRune_ascii ha]
    omega
  · rw [decodeRune_wide (UInt8.not_lt.mp ha)]
    split
    · next hread =>
      have hlength := hread.1
      rw [length_take] at hlength
      omega
    · exact ⟨Nat.le_refl 1, Nat.le_add_left 1 _⟩

theorem le_of_follows {tail : List UInt8} (h : follows a tail = true) :
    ∀ b ∈ tail, 0x80 ≤ b := by
  cases tail with
  | nil => cases h
  | cons b more =>
    simp only [follows, Bool.and_eq_true, decide_eq_true_eq, all_eq_true] at h
    intro c hc
    rcases mem_cons.mp hc with rfl | hc
    · apply UInt8.le_trans _ h.1.1
      split_ifs <;> decide
    · exact (h.2 c hc).1

theorem le_value (bytes : List UInt8) (value : Nat) :
    value * 64 ^ bytes.length ≤
      bytes.foldl (fun value b => value * 64 + b.toNat % 64) value := by
  induction bytes generalizing value with
  | nil => simp
  | cons b bytes ih =>
    rw [length_cons, foldl_cons, Nat.pow_succ']
    calc value * (64 * 64 ^ bytes.length) = value * 64 * 64 ^ bytes.length := by rw [Nat.mul_assoc]
      _ ≤ (value * 64 + b.toNat % 64) * 64 ^ bytes.length :=
          Nat.mul_le_mul_right _ (Nat.le_add_right ..)
      _ ≤ _ := ih _

theorem announced_cases (h : 2 ≤ announced a) :
    (announced a = 2 ∧ 0xC2 ≤ a.toNat ∧ a.toNat < 0xE0) ∨
      (announced a = 3 ∧ 0xE0 ≤ a.toNat ∧ a.toNat < 0xF0) ∨
        announced a = 4 ∧ 0xF0 ≤ a.toNat ∧ a.toNat < 0xF5 := by
  simp only [announced, UInt8.lt_iff_toNat_lt, show (0x80 : UInt8).toNat = 0x80 from rfl,
    show (0xC2 : UInt8).toNat = 0xC2 from rfl, show (0xE0 : UInt8).toNat = 0xE0 from rfl,
    show (0xF0 : UInt8).toNat = 0xF0 from rfl, show (0xF5 : UInt8).toNat = 0xF5 from rfl] at h ⊢
  split_ifs at h ⊢ <;> omega

theorem second_range {a b : UInt8} {more : List UInt8} (h : follows a (b :: more) = true) :
    (a.toNat = 0xE0 → 0xA0 ≤ b.toNat) ∧ (a.toNat = 0xF0 → 0x90 ≤ b.toNat) ∧ b.toNat ≤ 0xBF := by
  simp only [follows, Bool.and_eq_true, decide_eq_true_eq] at h
  obtain ⟨⟨hlow, hhigh⟩, -⟩ := h
  refine ⟨?_, ?_, ?_⟩
  · intro ha
    rw [if_pos (UInt8.toNat_inj.mp ha)] at hlow
    exact hlow
  · intro ha
    obtain rfl : a = 0xF0 := UInt8.toNat_inj.mp ha
    exact hlow
  · apply Nat.le_trans hhigh
    split_ifs <;> decide

theorem lead_bits {a b : UInt8} {more : List UInt8}
    (hlength : more.length + 2 = announced a) (hfollows : follows a (b :: more) = true) :
    0x80 ≤ (a.toNat % 2 ^ (7 - announced a) * 64 + b.toNat % 64) * 64 ^ more.length := by
  obtain ⟨hthree, hfour, hhigh⟩ := second_range hfollows
  rcases announced_cases (hlength ▸ Nat.le_add_left 2 _) with
    ⟨hn, hlow, hlt⟩ | ⟨hn, hlow, hlt⟩ | ⟨hn, hlow, hlt⟩
  · have hmore : more.length = 0 := by omega
    rw [hn, hmore]
    omega
  · have hmore : more.length = 1 := by omega
    rw [hn, hmore]
    omega
  · have hmore : more.length = 2 := by omega
    rw [hn, hmore]
    omega

/-- What begins with no ASCII character is read as a rune that is none, from bytes that are
    none. -/
theorem decodeRune_high (h : 0x80 ≤ a) (rest : List UInt8) :
    0x80 ≤ (decodeRune (a :: rest)).1 ∧
      ∀ b ∈ (a :: rest).take (decodeRune (a :: rest)).2, 0x80 ≤ b := by
  rw [decodeRune_wide h]
  split
  · next hread =>
    obtain ⟨hlength, hfollows⟩ := hread
    constructor
    · cases htail : rest.take (announced a - 1) with
      | nil =>
        rw [htail] at hfollows
        cases hfollows
      | cons b more =>
        rw [htail] at hlength hfollows
        exact Nat.le_trans (lead_bits hlength hfollows) (le_value more _)
    · intro b hb
      obtain ⟨n, hn⟩ : ∃ n, announced a = n + 1 := ⟨_, hlength.symm⟩
      rw [hn, take_succ_cons] at hb
      rw [hn, Nat.add_sub_cancel] at hfollows
      rcases mem_cons.mp hb with rfl | hb
      · exact h
      · exact le_of_follows hfollows b hb
  · constructor
    · exact Nat.le_of_ble_eq_true rfl
    · intro b hb
      rw [replacement, take_succ_cons, take_zero, mem_singleton] at hb
      exact hb ▸ h

/-- What follows a string does not matter to its first rune, if it is nothing or begins with an
    ASCII character. -/
theorem decodeRune_append {s t : List UInt8} (hs : s ≠ [])
    (ht : ∀ b ∈ t.head?, b < 0x80) : decodeRune (s ++ t) = decodeRune s := by
  obtain ⟨a, rest, rfl⟩ := exists_cons_of_ne_nil hs
  rw [cons_append]
  by_cases ha : a < 0x80
  · rw [decodeRune_ascii ha, decodeRune_ascii ha]
  · rw [decodeRune_wide (UInt8.not_lt.mp ha), decodeRune_wide (UInt8.not_lt.mp ha)]
    by_cases henough : announced a - 1 ≤ rest.length
    · rw [take_append_of_le_length henough]
    · rw [if_neg, if_neg]
      · -- too few bytes are left
        rintro ⟨hlength, -⟩
        rw [length_take] at hlength
        omega
      · rintro ⟨hlength, hfollows⟩
        cases t with
        | nil =>
          rw [append_nil, length_take] at hlength
          omega
        | cons b t =>
          have hmem : b ∈ (rest ++ b :: t).take (announced a - 1) := by
            rw [take_append, mem_append]
            right
            obtain ⟨k, hk⟩ := Nat.exists_eq_add_of_lt (Nat.not_le.mp henough)
            rw [hk, show rest.length + k + 1 - rest.length = k + 1 by omega, take_succ_cons]
            exact mem_cons_self
          have hascii : b < 0x80 := ht b rfl
          exact UInt8.not_le.mpr hascii (le_of_follows hfollows b hmem)

theorem utf16Width_le (h : s ≠ []) :
    utf16Width (decodeRune s).1 ≤ (decodeRune s).2 := by
  obtain ⟨a, rest, rfl⟩ := exists_cons_of_ne_nil h
  by_cases ha : a < 0x80
  · have hlt : a.toNat < 0x10000 := Nat.lt_trans a.toNat_lt (by decide)
    have hwidth : utf16Width a.toNat = 1 := if_neg (Nat.not_le.mpr hlt)
    exact Nat.le_of_eq (by rw [decodeRune_ascii ha, hwidth])
  · rw [decodeRune_wide (UInt8.not_lt.mp ha)]
    split
    · next hread =>
      have hne : rest.take (announced a - 1) ≠ [] := by
        intro hnil
        rw [hnil] at hread
        cases hread.2
      have hpos := length_pos_iff.mpr hne
      unfold utf16Width
      split <;> omega
    · exact Nat.le_refl 1

/-! ## All of the runes -/

/-- The runes of a string, so many of them at most. -/
def runesFrom : Nat → List UInt8 → List Rune
  | 0, _ => []
  | _ + 1, [] => []
  | n + 1, a :: rest =>
    ⟨(decodeRune (a :: rest)).1, (a :: rest).take (decodeRune (a :: rest)).2⟩ ::
      runesFrom n ((a :: rest).drop (decodeRune (a :: rest)).2)

/-- The runes of a string. -/
def runes (s : List UInt8) : List Rune := runesFrom s.length s

/-- The bytes of some runes. -/
def spelled (rs : List Rune) : List UInt8 := rs.flatMap Rune.bytes

theorem runesFrom_eq {n m : Nat} (hn : s.length ≤ n) (hm : s.length ≤ m) :
    runesFrom n s = runesFrom m s := by
  induction n generalizing m s with
  | zero =>
    obtain rfl := length_eq_zero_iff.mp (Nat.le_zero.mp hn)
    cases m <;> rfl
  | succ n ih =>
    cases s with
    | nil => cases m <;> rfl
    | cons a rest =>
      obtain ⟨m, rfl⟩ := Nat.exists_eq_add_one.mpr (Nat.lt_of_lt_of_le (Nat.succ_pos _) hm)
      have hsize := (decodeRune_size (cons_ne_nil a rest)).1
      rw [runesFrom, runesFrom, ih]
      all_goals
        rw [length_drop, length_cons] at *
        omega

theorem runes_cons (h : s ≠ []) :
    runes s = ⟨(decodeRune s).1, s.take (decodeRune s).2⟩ :: runes (s.drop (decodeRune s).2) := by
  obtain ⟨a, rest, rfl⟩ := exists_cons_of_ne_nil h
  have hsize := (decodeRune_size h).1
  rw [runes, length_cons, runesFrom, runes, runesFrom_eq _ (Nat.le_refl _)]
  rw [length_drop, length_cons]
  omega

theorem runes_induction {motive : List UInt8 → Prop} (nil : motive [])
    (cons : ∀ s, s ≠ [] → motive (s.drop (decodeRune s).2) → motive s) (s : List UInt8) :
    motive s := by
  induction hn : s.length using Nat.strongRecOn generalizing s with
  | ind n ih =>
    by_cases h : s = []
    · exact h ▸ nil
    · have hsize := decodeRune_size h
      refine cons s h (ih _ ?_ _ rfl)
      rw [length_drop]
      omega

theorem spelled_runes (s : List UInt8) : spelled (runes s) = s := by
  induction s using runes_induction with
  | nil => rfl
  | cons s h ih =>
    rw [spelled] at ih ⊢
    rw [runes_cons h, flatMap_cons, ih, take_append_drop]

variable {r : Rune}

theorem rune_cases (h : r ∈ runes s) :
    (∃ a : UInt8, a < 0x80 ∧ r = ⟨a.toNat, [a]⟩) ∨
      0x80 ≤ r.value ∧ ∀ b ∈ r.bytes, 0x80 ≤ b := by
  induction s using runes_induction with
  | nil => cases h
  | cons s hs ih =>
    rw [runes_cons hs, mem_cons] at h
    rcases h with rfl | h
    · obtain ⟨a, rest, rfl⟩ := exists_cons_of_ne_nil hs
      by_cases ha : a < 0x80
      · left
        refine ⟨a, ha, ?_⟩
        rw [decodeRune_ascii ha, take_succ_cons, take_zero]
      · exact Or.inr (decodeRune_high (UInt8.not_lt.mp ha) rest)
    · exact ih h

theorem width_le_length (h : r ∈ runes s) :
    1 ≤ r.bytes.length ∧ utf16Width r.value ≤ r.bytes.length := by
  induction s using runes_induction with
  | nil => cases h
  | cons s hs ih =>
    rw [runes_cons hs, mem_cons] at h
    rcases h with rfl | h
    · have hsize := decodeRune_size hs
      have hwidth := utf16Width_le hs
      rw [length_take, Nat.min_eq_left hsize.2]
      exact ⟨hsize.1, hwidth⟩
    · exact ih h

theorem eq_ascii_of_mem (h : r ∈ runes s) (ha : a < 0x80) (hmem : a ∈ r.bytes) :
    r = ⟨a.toNat, [a]⟩ := by
  rcases rune_cases h with ⟨b, -, rfl⟩ | ⟨-, hbytes⟩
  · rw [mem_singleton.mp hmem]
  · exact absurd ha (UInt8.not_lt.mpr (hbytes a hmem))

theorem eq_ascii_of_value (h : r ∈ runes s) (ha : a < 0x80) (hvalue : r.value = a.toNat) :
    r = ⟨a.toNat, [a]⟩ := by
  rcases rune_cases h with ⟨b, -, rfl⟩ | ⟨hvalue', -⟩
  · rw [UInt8.toNat_inj.mp hvalue]
  · have hlt : a.toNat < 0x80 := UInt8.lt_iff_toNat_lt.mp ha
    omega

variable {after before : List Rune}

theorem runes_drop (h : runes s = before ++ after) :
    runes (s.drop (spelled before).length) = after := by
  induction before generalizing s with
  | nil => rw [spelled, flatMap_nil, length_nil, drop_zero, h, nil_append]
  | cons r before ih =>
    have hs : s ≠ [] := by
      rintro rfl
      cases h
    have hsize := decodeRune_size hs
    rw [runes_cons hs, cons_append, List.cons.injEq] at h
    obtain ⟨rfl, h⟩ := h
    rw [spelled, flatMap_cons, length_append, length_take,
      Nat.min_eq_left hsize.2, ← drop_drop]
    exact ih h

theorem runes_append (s : List UInt8) {t : List UInt8} (ht : ∀ b ∈ t.head?, b < 0x80) :
    runes (s ++ t) = runes s ++ runes t := by
  induction s using runes_induction with
  | nil => rfl
  | cons s hs ih =>
    have hne : s ++ t ≠ [] := append_ne_nil_of_left_ne_nil hs t
    have hsize := (decodeRune_size hs).2
    rw [runes_cons hne, runes_cons hs, decodeRune_append hs ht, take_append_of_le_length hsize,
      drop_append_of_le_length hsize, ih, cons_append]

@[simp] theorem spelled_nil : spelled [] = [] := rfl

theorem spelled_cons (r : Rune) (rs : List Rune) : spelled (r :: rs) = r.bytes ++ spelled rs :=
  flatMap_cons

theorem spelled_append (before after : List Rune) :
    spelled (before ++ after) = spelled before ++ spelled after := flatMap_append

theorem eq_of_length_spelled {before after before' after' : List Rune}
    (h : before ++ after = before' ++ after')
    (hlength : (spelled before).length = (spelled before').length)
    (hne : ∀ r ∈ before ++ after, 1 ≤ r.bytes.length) : before = before' := by
  have hnil : ∀ rs : List Rune, (∀ r ∈ rs, 1 ≤ r.bytes.length) → (spelled rs).length = 0 →
      rs = [] := by
    intro rs hrs hzero
    cases rs with
    | nil => rfl
    | cons r rs =>
      have hr := hrs r mem_cons_self
      rw [spelled, flatMap_cons, length_append] at hzero
      omega
  rcases append_eq_append_iff.mp h with ⟨rest, rfl, rfl⟩ | ⟨rest, rfl, rfl⟩
  all_goals
    rw [spelled_append, length_append] at hlength
    have hrest := hnil rest (fun r hr => hne r (by simp [hr])) (by omega)
    rw [hrest, append_nil]

theorem runes_spelled (h : runes s = before ++ after)
    (hafter : ∀ b ∈ (spelled after).head?, b < 0x80) : runes (spelled before) = before := by
  have hs : spelled before ++ spelled after = s := by
    rw [← spelled_append, ← h, spelled_runes]
  have hsplit := runes_append (spelled before) hafter
  rw [hs, h] at hsplit
  refine (eq_of_length_spelled hsplit ?_ ?_).symm
  · rw [spelled_runes]
  · intro r hr
    rw [← h] at hr
    exact (width_le_length hr).1

/-! ## Parts of a string -/

theorem decodeRune_front {s t : List UInt8} (hs : s ≠ [])
    (hsize : (decodeRune (s ++ t)).2 ≤ s.length) : decodeRune (s ++ t) = decodeRune s := by
  obtain ⟨a, rest, rfl⟩ := exists_cons_of_ne_nil hs
  rw [cons_append] at hsize ⊢
  by_cases ha : a < 0x80
  · rw [decodeRune_ascii ha, decodeRune_ascii ha]
  · rw [decodeRune_wide (UInt8.not_lt.mp ha)] at hsize ⊢
    rw [decodeRune_wide (UInt8.not_lt.mp ha)]
    by_cases henough : announced a - 1 ≤ rest.length
    · rw [take_append_of_le_length henough]
    · -- a rune that is cut is no rune, and the whole one would be too long
      have hshort : ¬ ((rest.take (announced a - 1)).length + 1 = announced a ∧
          follows a (rest.take (announced a - 1)) = true) := by
        rintro ⟨hlength, -⟩
        rw [length_take] at hlength
        omega
      rw [if_neg hshort]
      split at hsize
      · simp only [length_cons] at hsize
        omega
      · next hread => rw [if_neg hread]

theorem runes_front (h : runes s = before ++ after) :
    runes (spelled before) = before := by
  induction before generalizing s with
  | nil => rfl
  | cons r before ih =>
    have hs : s ≠ [] := by
      rintro rfl
      cases h
    have hsize := decodeRune_size hs
    have hbytes : spelled (r :: before) ++ spelled after = s := by
      rw [← spelled_append, ← h, spelled_runes]
    rw [runes_cons hs, cons_append, List.cons.injEq] at h
    obtain ⟨rfl, h⟩ := h
    have hlength : (s.take (decodeRune s).2).length = (decodeRune s).2 := by
      rw [length_take, Nat.min_eq_left hsize.2]
    rw [spelled_cons] at hbytes ⊢
    generalize hfront : s.take (decodeRune s).2 = front at hbytes hlength ⊢
    have hne : front ++ spelled before ≠ [] := by
      intro hnil
      rw [(append_eq_nil_iff.mp hnil).1] at hlength
      exact absurd hlength.symm (by simp; omega)
    have hdecode : decodeRune (front ++ spelled before) = decodeRune s := by
      rw [← decodeRune_front hne, hbytes]
      rw [hbytes, ← hlength, length_append]
      exact Nat.le_add_right ..
    rw [runes_cons hne, hdecode, ← hlength, take_left, drop_left, ih h]

end Runes
