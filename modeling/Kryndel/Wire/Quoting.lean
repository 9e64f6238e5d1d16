import Mathlib.Data.List.TakeWhile
import Kryndel.Wire.Runes

/-!
# Quoted text

White space at the ends of a byte string, and literals between double quotes. A literal ends at
the first quote that is not escaped, whatever comes behind it.
-/

namespace Quoting

open Runes List Option

/-! ## White space -/

/-- `unicode.IsSpace`. -/
def isSpace (value : Nat) : Bool :=
  [9, 10, 11, 12, 13, 32, 0x85, 0xA0, 0x1680, 0x2028, 0x2029, 0x202F, 0x205F, 0x3000].contains
    value || (0x2000 ≤ value && value ≤ 0x200A)

def isSpaceRune (r : Rune) : Bool := isSpace r.value

/-- The runes without white space behind them. -/
def trimRightRunes (rs : List Rune) : List Rune :=
  (rs.reverse.dropWhile isSpaceRune).reverse

/-- `strings.TrimSpace`. -/
def trimSpace (s : List UInt8) : List UInt8 :=
  spelled (trimRightRunes ((runes s).dropWhile isSpaceRune))

/-- `strings.TrimRightFunc` with `unicode.IsSpace`. -/
def trimRight (s : List UInt8) : List UInt8 :=
  spelled (trimRightRunes (runes s))

theorem trimRightRunes_cons (r : Rune) (rs : List Rune) :
    trimRightRunes (r :: rs) =
      if trimRightRunes rs = [] ∧ isSpaceRune r then [] else r :: trimRightRunes rs := by
  unfold trimRightRunes
  rw [reverse_cons, dropWhile_append]
  cases hdrop : rs.reverse.dropWhile isSpaceRune with
  | nil => cases hspace : isSpaceRune r <;> simp [hspace]
  | cons last front => simp

theorem trimRightRunes_of_not_space {r : Rune} (h : isSpaceRune r = false) (rs : List Rune) :
    trimRightRunes (r :: rs) = r :: trimRightRunes rs := by
  rw [trimRightRunes_cons, if_neg (by simp [h])]

theorem trimRightRunes_idem (rs : List Rune) :
    trimRightRunes (trimRightRunes rs) = trimRightRunes rs := by
  induction rs with
  | nil => rfl
  | cons r rs ih =>
    rw [trimRightRunes_cons]
    split
    · rfl
    · next h => rw [trimRightRunes_cons, ih, if_neg h]

theorem trimRightRunes_append (front : List Rune) {r : Rune} (h : isSpaceRune r = false)
    (rs : List Rune) : trimRightRunes (front ++ r :: rs) = front ++ r :: trimRightRunes rs := by
  induction front with
  | nil => exact trimRightRunes_of_not_space h rs
  | cons first front ih =>
    rw [cons_append, trimRightRunes_cons, ih, if_neg (by simp), cons_append]

theorem trimRightRunes_dropWhile (rs : List Rune) :
    trimRightRunes ((trimRightRunes rs).dropWhile isSpaceRune) =
      trimRightRunes (rs.dropWhile isSpaceRune) := by
  induction rs with
  | nil => rfl
  | cons r rs ih =>
    cases hspace : isSpaceRune r with
    | true =>
      rw [dropWhile_cons_of_pos hspace, ← ih, trimRightRunes_cons]
      split
      · next hnil => rw [hnil.1]
      · rw [dropWhile_cons_of_pos hspace]
    | false =>
      have hnot : ¬ isSpaceRune r = true := by simp [hspace]
      rw [trimRightRunes_of_not_space hspace, dropWhile_cons_of_neg hnot,
        dropWhile_cons_of_neg hnot, trimRightRunes_of_not_space hspace, trimRightRunes_idem,
        trimRightRunes_of_not_space hspace]

theorem trimRightRunes_front (rs : List Rune) : trimRightRunes rs <+: rs := by
  induction rs with
  | nil => exact prefix_refl _
  | cons r rs ih =>
    rw [trimRightRunes_cons]
    split
    · exact nil_prefix
    · exact (prefix_cons_inj r).mpr ih

variable (s : List UInt8)

theorem runes_trimRight : runes (trimRight s) = trimRightRunes (runes s) := by
  obtain ⟨after, hafter⟩ := trimRightRunes_front (runes s)
  exact runes_front hafter.symm

theorem trimRight_front : trimRight s <+: s := by
  obtain ⟨after, hafter⟩ := trimRightRunes_front (runes s)
  refine ⟨spelled after, ?_⟩
  rw [trimRight, ← spelled_append, hafter, spelled_runes]

theorem trimRight_trimRight : trimRight (trimRight s) = trimRight s := by
  rw [trimRight, runes_trimRight, trimRightRunes_idem, trimRight]

theorem trimSpace_trimRight : trimSpace (trimRight s) = trimSpace s := by
  rw [trimSpace, runes_trimRight, trimRightRunes_dropWhile, trimSpace]

/-- An ASCII character that is no space. -/
def Visible (a : UInt8) : Prop := a < 0x80 ∧ isSpace a.toNat = false

variable {a : UInt8}

theorem runes_visible (ha : a < 0x80) (s : List UInt8) :
    runes (a :: s) = ⟨a.toNat, [a]⟩ :: runes s := by
  rw [runes_cons (cons_ne_nil a s), decodeRune_ascii ha]
  rfl

theorem trimRight_append (front : List UInt8) {b : UInt8} (hb : Visible b) (s : List UInt8) :
    trimRight (front ++ b :: s) = front ++ b :: trimRight s := by
  have hascii : ∀ c ∈ (b :: s).head?, c < 0x80 := by
    intro c hc
    obtain rfl : b = c := Option.some.inj hc
    exact hb.1
  rw [trimRight, runes_append front hascii, runes_visible hb.1,
    trimRightRunes_append _ (by exact hb.2), spelled_append, spelled_runes, spelled_cons]
  rfl

theorem trimSpace_visible (ha : Visible a) (s : List UInt8) :
    trimSpace (a :: s) = trimRight (a :: s) := by
  have hnot : ¬ isSpaceRune ⟨a.toNat, [a]⟩ = true := by simp [isSpaceRune, ha.2]
  rw [trimSpace, runes_visible ha.1, dropWhile_cons_of_neg hnot, trimRight,
    runes_visible ha.1]

theorem trimSpace_space (ha : a < 0x80) (hspace : isSpace a.toNat = true) (s : List UInt8) :
    trimSpace (a :: s) = trimSpace s := by
  rw [trimSpace, runes_visible ha, dropWhile_cons_of_pos (by exact hspace), trimSpace]

/-! ## Literals -/

def hexDigit (b : UInt8) : Option Nat :=
  if 48 ≤ b ∧ b ≤ 57 then some (b.toNat - 48)
  else if 97 ≤ b ∧ b ≤ 102 then some (b.toNat - 87)
  else if 65 ≤ b ∧ b ≤ 70 then some (b.toNat - 55)
  else none

def octalDigit (b : UInt8) : Option Nat :=
  if 48 ≤ b ∧ b ≤ 55 then some (b.toNat - 48) else none

/-- The number of the first `n` digits. -/
def number (digit : UInt8 → Option Nat) (base n : Nat) (s : List UInt8) : Option Nat :=
  if s.length < n then none
  else (s.take n).foldlM (fun value b => (digit b).map (value * base + ·)) 0

/-- `utf8.ValidRune`. -/
def validRune (value : Nat) : Bool :=
  value < 0xD800 || (0xDFFF < value && value ≤ 0x10FFFF)

/-- `utf8.AppendRune`: the bytes of a rune. -/
def encodeRune (value : Nat) : List UInt8 :=
  let value := if validRune value then value else 0xFFFD
  if value < 0x80 then [UInt8.ofNat value]
  else if value < 0x800 then [UInt8.ofNat (0xC0 + value / 64), UInt8.ofNat (0x80 + value % 64)]
  else if value < 0x10000 then
    [UInt8.ofNat (0xE0 + value / 4096), UInt8.ofNat (0x80 + value / 64 % 64),
      UInt8.ofNat (0x80 + value % 64)]
  else
    [UInt8.ofNat (0xF0 + value / 262144), UInt8.ofNat (0x80 + value / 4096 % 64),
      UInt8.ofNat (0x80 + value / 64 % 64), UInt8.ofNat (0x80 + value % 64)]

/-- The escapes of one character. -/
def simpleEscape (quote c : UInt8) : Option UInt8 :=
  if c = 97 then some 7
  else if c = 98 then some 8
  else if c = 102 then some 12
  else if c = 110 then some 10
  else if c = 114 then some 13
  else if c = 116 then some 9
  else if c = 118 then some 11
  else if c = 92 then some 92
  else if c = 39 ∨ c = 34 then if c = quote then some c else none
  else none

/-- The escapes that are numbers, behind the backslash and `c`: what they stand for, and how many
    digits they have. -/
def numberEscape (c : UInt8) (s : List UInt8) : Option (List UInt8 × Nat) :=
  if c = 120 then (number hexDigit 16 2 s).map fun value => ([UInt8.ofNat value], 2)
  else if c = 117 then
    (number hexDigit 16 4 s).bind fun value =>
      if validRune value then some (encodeRune value, 4) else none
  else if c = 85 then
    (number hexDigit 16 8 s).bind fun value =>
      if validRune value then some (encodeRune value, 8) else none
  else
    (octalDigit c).bind fun first =>
      (number octalDigit 8 2 s).bind fun value =>
        if first * 64 + value ≤ 255 then some ([UInt8.ofNat (first * 64 + value)], 2) else none

/-- The part of `strconv.UnquoteChar` behind a backslash. -/
def unquoteEscape (quote : UInt8) : List UInt8 → Option (List UInt8 × Nat)
  | [] => none
  | c :: rest =>
    match simpleEscape quote c with
    | some b => some ([b], 2)
    | none => (numberEscape c rest).map fun (bytes, n) => (bytes, n + 2)

/-- `strconv.UnquoteChar` and what `strconv.Unquote` appends for it: some bytes, and how many
    have been read. -/
def unquoteChar (quote : UInt8) : List UInt8 → Option (List UInt8 × Nat)
  | [] => none
  | a :: rest =>
    if a = quote then none
    else if 0x80 ≤ a then
      some (encodeRune (decodeRune (a :: rest)).1, (decodeRune (a :: rest)).2)
    else if a ≠ 92 then some ([a], 1)
    else unquoteEscape quote rest

/-- The loop of `strconv.Unquote`, behind the first quote: the value, and what is behind the last
    quote. -/
def unquoteFrom (quote : UInt8) : Nat → List UInt8 → Option (List UInt8 × List UInt8)
  | 0, _ => none
  | _ + 1, [] => none
  | n + 1, a :: rest =>
    if a = quote then some ([], rest)
    else if a = 10 then none
    else
      (unquoteChar quote (a :: rest)).bind fun (bytes, size) =>
        (unquoteFrom quote n ((a :: rest).drop size)).map fun (value, left) =>
          (bytes ++ value, left)

/-- `strconv.Unquote`, for text between double quotes. -/
def unquote (s : List UInt8) : Option (List UInt8) :=
  match s with
  | 34 :: rest =>
    match unquoteFrom 34 rest.length rest with
    | some (value, []) => some value
    | _ => none
  | _ => none

/-! ## What follows a literal -/

section Follows

variable {digit : UInt8 → Option Nat} {base n : Nat} {quote : UInt8} {x : List UInt8}

theorem number_append (hquote : digit quote = none) {value : Nat}
    (h : number digit base n (x ++ [quote]) = some value) (t : List UInt8) :
    number digit base n (x ++ quote :: t) = some value := by
  rw [number] at h ⊢
  split at h
  · cases h
  next hlength =>
  rw [length_append, length_singleton] at hlength
  rw [if_neg (by rw [length_append, length_cons]; omega)]
  by_cases hn : n ≤ x.length
  · rw [take_append_of_le_length hn] at h ⊢
    exact h
  · -- the quote would be one of the digits
    rw [take_of_length_le (by rw [length_append, length_singleton]; omega),
      foldlM_append] at h
    obtain ⟨front, -, hlast⟩ := bind_eq_some_iff.mp h
    rw [foldlM_cons, hquote] at hlast
    cases hlast

theorem numberEscape_append {c : UInt8} (hhex : hexDigit quote = none)
    (hoctal : octalDigit quote = none) {r : List UInt8 × Nat}
    (h : numberEscape c (x ++ [quote]) = some r) (t : List UInt8) :
    numberEscape c (x ++ quote :: t) = some r := by
  unfold numberEscape at h ⊢
  split at h
  · next hc =>
    obtain ⟨value, hvalue, hr⟩ := map_eq_some_iff.mp h
    rw [if_pos hc, number_append hhex hvalue t, map_some, hr]
  next hx =>
  rw [if_neg hx]
  split at h
  · next hc =>
    obtain ⟨value, hvalue, hr⟩ := bind_eq_some_iff.mp h
    rw [if_pos hc, number_append hhex hvalue t]
    exact hr
  next hu =>
  rw [if_neg hu]
  split at h
  · next hc =>
    obtain ⟨value, hvalue, hr⟩ := bind_eq_some_iff.mp h
    rw [if_pos hc, number_append hhex hvalue t]
    exact hr
  next hU =>
  rw [if_neg hU]
  obtain ⟨first, hfirst, h⟩ := bind_eq_some_iff.mp h
  obtain ⟨value, hvalue, hr⟩ := bind_eq_some_iff.mp h
  rw [hfirst, bind_some, number_append hoctal hvalue t]
  exact hr

theorem unquoteChar_append (hhex : hexDigit quote = none) (hoctal : octalDigit quote = none)
    (hascii : quote < 0x80) (hx : x ≠ []) {r : List UInt8 × Nat} (hsize : r.2 ≤ x.length)
    (h : unquoteChar quote (x ++ [quote]) = some r) (t : List UInt8) :
    unquoteChar quote (x ++ quote :: t) = some r := by
  obtain ⟨a, rest, rfl⟩ := exists_cons_of_ne_nil hx
  have hdecode : ∀ t, decodeRune (a :: (rest ++ quote :: t)) = decodeRune (a :: rest) := by
    intro t
    rw [← cons_append, decodeRune_append hx]
    intro b hb
    obtain rfl : quote = b := Option.some.inj hb
    exact hascii
  rw [cons_append, unquoteChar] at h ⊢
  split at h
  · cases h
  next hne =>
  rw [if_neg hne]
  split at h
  · next hhigh =>
    rw [if_pos hhigh, hdecode]
    rw [hdecode] at h
    exact h
  next hlow =>
  rw [if_neg hlow]
  split at h
  · next hplain =>
    rw [if_pos hplain]
    exact h
  next hescape =>
  rw [if_neg hescape]
  cases rest with
  | nil =>
    -- an escaped quote would be two bytes
    rw [nil_append, unquoteEscape] at h
    split at h
    · cases h
      simp at hsize
    · obtain ⟨r', -, rfl⟩ := map_eq_some_iff.mp h
      simp at hsize
  | cons c rest =>
    rw [cons_append, unquoteEscape] at h ⊢
    split at h
    · exact h
    · obtain ⟨r', hr', hr⟩ := map_eq_some_iff.mp h
      rw [numberEscape_append hhex hoctal hr' t, map_some, hr]

theorem unquoteFrom_append (hhex : hexDigit quote = none) (hoctal : octalDigit quote = none)
    (hascii : quote < 0x80) {value : List UInt8}
    (h : unquoteFrom quote n (x ++ [quote]) = some (value, [])) (t : List UInt8) {m : Nat}
    (hm : n ≤ m) : unquoteFrom quote m (x ++ quote :: t) = some (value, t) := by
  induction n generalizing x value m with
  | zero => cases h
  | succ n ih =>
    obtain ⟨m, rfl⟩ := Nat.exists_eq_add_one.mpr (Nat.lt_of_lt_of_le (Nat.succ_pos n) hm)
    cases x with
    | nil =>
      rw [nil_append, unquoteFrom, if_pos rfl] at h
      cases h
      rw [nil_append, unquoteFrom, if_pos rfl]
    | cons a rest =>
      rw [cons_append, unquoteFrom] at h ⊢
      split at h
      · simp at h
      next hne =>
      rw [if_neg hne]
      split at h
      · cases h
      next hline =>
      rw [if_neg hline]
      obtain ⟨⟨bytes, size⟩, hchar, h⟩ := bind_eq_some_iff.mp h
      obtain ⟨⟨value', left⟩, hrest, hvalue⟩ := map_eq_some_iff.mp h
      rw [← cons_append] at hchar hrest ⊢
      have hsize : size ≤ (a :: rest).length := by
        by_contra hlong
        rw [drop_eq_nil_of_le (by simp at hlong ⊢; omega)] at hrest
        cases n <;> cases hrest
      rw [drop_append_of_le_length hsize] at hrest
      rw [unquoteChar_append hhex hoctal hascii (cons_ne_nil a rest) hsize hchar t,
        bind_some]
      obtain ⟨rfl, rfl⟩ := hvalue
      show Option.map _ (unquoteFrom quote m (List.drop size (a :: rest ++ quote :: t))) = _
      rw [drop_append_of_le_length hsize, ih hrest (Nat.le_of_succ_le_succ hm)]
      rfl

end Follows

end Quoting
