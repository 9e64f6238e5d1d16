import Mathlib.Data.Nat.Digits.Lemmas
import Kryndel.CBackend.JsonObjects
import Kryndel.Wire.Utf8Text

/-!
# The JSON writers of both runtimes

`k_json_write` writes strings byte by byte, and `encoding/json` writes them character by character.
What they write for numbers with a fraction or an exponent is a parameter. The keys of an object are
written in their order.
-/

namespace Kryndel

open Json Runes SortedTable List

/-! ## Strings -/

/-- A hexadecimal digit. -/
def hexChar (n : Nat) : UInt8 := UInt8.ofNat (if n < 10 then 48 + n else 87 + n)

/-- `\u%04x`. -/
def unicodeText (n : Nat) : List UInt8 :=
  [92, 117, hexChar (n / 4096 % 16), hexChar (n / 256 % 16), hexChar (n / 16 % 16),
    hexChar (n % 16)]

/-- The switch of `k_json_escape`. -/
def kJsonEscapeByte (c : UInt8) : List UInt8 :=
  if c = 34 then [92, 34]
  else if c = 92 then [92, 92]
  else if c = 8 then [92, 98]
  else if c = 12 then [92, 102]
  else if c = 10 then [92, 110]
  else if c = 13 then [92, 114]
  else if c = 9 then [92, 116]
  else if c = 60 then [92, 117, 48, 48, 51, 99]
  else if c = 62 then [92, 117, 48, 48, 51, 101]
  else if c = 38 then [92, 117, 48, 48, 50, 54]
  else if c < 0x20 then unicodeText c.toNat
  else [c]

/-- The loop of `k_json_escape`, which looks for the line separators in front of its switch. -/
def kJsonEscapeFrom : List UInt8 → List UInt8
  | 0xE2 :: 0x80 :: 0xA8 :: s => [92, 117, 50, 48, 50, 56] ++ kJsonEscapeFrom s
  | 0xE2 :: 0x80 :: 0xA9 :: s => [92, 117, 50, 48, 50, 57] ++ kJsonEscapeFrom s
  | c :: s => kJsonEscapeByte c ++ kJsonEscapeFrom s
  | [] => []

/-- `k_json_escape`. -/
def kJsonEscape (s : List UInt8) : List UInt8 := 34 :: (kJsonEscapeFrom s ++ [34])

/-- `json.Marshal` of an ASCII character: `<`, `>` and `&` are escaped as control characters are. -/
def marshalByte (b : UInt8) : List UInt8 :=
  if 0x20 ≤ b ∧ b ≠ 34 ∧ b ≠ 92 ∧ b ≠ 60 ∧ b ≠ 62 ∧ b ≠ 38 then [b]
  else if b = 92 ∨ b = 34 then [92, b]
  else if b = 8 then [92, 98]
  else if b = 12 then [92, 102]
  else if b = 10 then [92, 110]
  else if b = 13 then [92, 114]
  else if b = 9 then [92, 116]
  else [92, 117, 48, 48, hexChar (b.toNat / 16), hexChar (b.toNat % 16)]

/-- `json.Marshal` of a rune. -/
def marshalRune (r : Rune) : List UInt8 :=
  if r.value < 0x80 then marshalByte (UInt8.ofNat r.value)
  else if (r.value, r.bytes.length) = replacement then [92, 117, 102, 102, 102, 100]
  else if r.value = 0x2028 ∨ r.value = 0x2029 then
    [92, 117, 50, 48, 50, hexChar (r.value % 16)]
  else r.bytes

/-- `json.Marshal` of a string. -/
def marshalString (s : List UInt8) : List UInt8 :=
  34 :: ((runes s).flatMap marshalRune ++ [34])

/-! ## Values -/

/-- The decimal digits of a number. -/
def natText (n : Nat) : List UInt8 :=
  if n = 0 then [48] else ((Nat.digits 10 n).map fun d => UInt8.ofNat (48 + d)).reverse

/-- `%lld`, and `strconv.AppendInt`. -/
def int64Text (i : Int64) : List UInt8 :=
  if i.toInt < 0 then 45 :: natText i.toInt.natAbs else natText i.toInt.natAbs

/-- Texts with commas between them. -/
def commas : List (List UInt8) → List UInt8
  | [] => []
  | [s] => s
  | s :: texts => s ++ 44 :: commas texts

section Writer

variable (string : List UInt8 → List UInt8) (float : Float64 → List UInt8)
  (inOrder : List UInt8 → List UInt8 → Bool)

mutual

/-- A value, given how strings and floats are written, and the order of the keys. -/
def writeNode : JsonData → List UInt8
  | .null => nullText
  | .bool b => if b then trueText else falseText
  | .int i => int64Text i
  | .float f => float f
  | .number token => token
  | .string text => string text
  | .array items => 91 :: (commas (writeItems items) ++ [93])
  | .object members =>
    let sorted := (writeMembers members).insertionSort fun m m' => inOrder m.1 m'.1
    123 :: (commas (sorted.map fun m => string m.1 ++ 58 :: m.2) ++ [125])

def writeItems : List JsonData → List (List UInt8)
  | [] => []
  | item :: items => writeNode item :: writeItems items

def writeMembers : List (List UInt8 × JsonData) → List (List UInt8 × List UInt8)
  | [] => []
  | (name, item) :: members => (name, writeNode item) :: writeMembers members

end

theorem writeItems_eq (items : List JsonData) :
    writeItems string float inOrder items = items.map (writeNode string float inOrder) := by
  induction items with
  | nil => rfl
  | cons item items ih => rw [writeItems, ih, map_cons]

theorem writeMembers_eq (members : List (List UInt8 × JsonData)) :
    writeMembers string float inOrder members =
      members.map fun m => (m.1, writeNode string float inOrder m.2) := by
  induction members with
  | nil => rfl
  | cons member members ih => rw [writeMembers, ih, map_cons]

end Writer

/-- `k_json_write`. -/
def kJsonWrite (kJsonFloat : Float64 → List UInt8) : JsonData → List UInt8 :=
  writeNode kJsonEscape kJsonFloat fun s t => kJsonKeyIndexCompare s t ≠ .gt

/-- `json.Marshal`. -/
def marshal (appendFloat : Float64 → List UInt8) : JsonData → List UInt8 :=
  writeNode marshalString appendFloat fun s t => s < t ∨ s = t

/-! ## Both writers write the same -/

theorem kJsonEscapeByte_eq {b : UInt8} (h : b < 0x80) : kJsonEscapeByte b = marshalByte b := by
  have hall : ∀ n < 128, kJsonEscapeByte (UInt8.ofNat n) = marshalByte (UInt8.ofNat n) := by
    decide +kernel
  simpa using hall b.toNat (UInt8.lt_iff_toNat_lt.mp h)

theorem kJsonEscapeByte_high {b : UInt8} (h : 0x80 ≤ b) : kJsonEscapeByte b = [b] := by
  have hall : ∀ n < 256, 128 ≤ n → kJsonEscapeByte (UInt8.ofNat n) = [UInt8.ofNat n] := by
    decide +kernel
  simpa using hall b.toNat b.toNat_lt (UInt8.le_iff_toNat_le.mp h)

theorem kJsonEscapeFrom_cons {c : UInt8} (h : c ≠ 0xE2) (s : List UInt8) :
    kJsonEscapeFrom (c :: s) = kJsonEscapeByte c ++ kJsonEscapeFrom s := by
  rw [kJsonEscapeFrom]
  all_goals
    rintro s' rfl
    exact fun _ => h rfl

theorem kJsonEscapeFrom_high {c : UInt8} (high : 0x80 ≤ c) (h : c ≠ 0xE2) (s : List UInt8) :
    kJsonEscapeFrom (c :: s) = c :: kJsonEscapeFrom s := by
  rw [kJsonEscapeFrom_cons h, kJsonEscapeByte_high high]
  rfl

variable {tail : List UInt8}

theorem kJsonEscapeFrom_tail (h : ∀ b ∈ tail, 0x80 ≤ b ∧ b ≤ 0xBF) (s : List UInt8) :
    kJsonEscapeFrom (tail ++ s) = tail ++ kJsonEscapeFrom s := by
  induction tail with
  | nil => rfl
  | cons b tail ih =>
    obtain ⟨hlow, hhigh⟩ := h b mem_cons_self
    have hne : b ≠ 0xE2 := by
      rintro rfl
      exact absurd hhigh (by decide)
    rw [cons_append, kJsonEscapeFrom_high hlow hne,
      ih fun c hc => h c (mem_cons_of_mem _ hc), cons_append]

variable {a : UInt8}

theorem follows_tail (h : follows a tail = true) :
    ∀ b ∈ tail, 0x80 ≤ b ∧ b ≤ 0xBF := by
  cases tail with
  | nil => cases h
  | cons b more =>
    simp only [follows, Bool.and_eq_true, decide_eq_true_eq, all_eq_true] at h
    intro c hc
    rcases mem_cons.mp hc with rfl | hc
    · refine ⟨UInt8.le_trans ?_ h.1.1, UInt8.le_trans h.1.2 ?_⟩
      all_goals split_ifs <;> decide
    · exact h.2 c hc

theorem separator_bytes (high : 0x80 ≤ a) (length : tail.length + 1 = announced a)
    (h : follows a tail = true)
    (hvalue : (decodeRune (a :: tail)).1 = 0x2028 ∨ (decodeRune (a :: tail)).1 = 0x2029) :
    a = 0xE2 ∧ (tail = [0x80, 0xA8] ∨ tail = [0x80, 0xA9]) := by
  have hread := decodeRune_tail high length h []
  rw [append_nil] at hread
  rw [hread] at hvalue
  have htail := follows_tail h
  have htwo : 2 ≤ announced a := by
    rw [← length]
    cases tail with
    | nil => cases h
    | cons b more => exact Nat.le_add_left 2 more.length
  rcases announced_cases htwo with ⟨hn, hlow, hhigh⟩ | ⟨hn, hlow, hhigh⟩ | ⟨hn, hlow, hhigh⟩
  · obtain ⟨b, rfl⟩ := length_eq_one_iff.mp (show tail.length = 1 by omega)
    simp only [hn, foldl_cons, foldl_nil] at hvalue
    omega
  · obtain ⟨b, c, rfl⟩ := length_eq_two.mp (show tail.length = 2 by omega)
    have hb := htail b mem_cons_self
    have hc := htail c (mem_cons_of_mem _ mem_cons_self)
    simp only [hn, foldl_cons, foldl_nil] at hvalue
    simp only [UInt8.le_iff_toNat_le, UInt8.reduceToNat] at hb hc
    simp only [List.cons.injEq, and_true, ← UInt8.toNat_inj, UInt8.reduceToNat]
    omega
  · obtain ⟨b, c, d, rfl⟩ := length_eq_three.mp (show tail.length = 3 by omega)
    have hb := htail b mem_cons_self
    have hsecond := (second_range h).2.1
    simp only [hn, foldl_cons, foldl_nil] at hvalue
    simp only [UInt8.le_iff_toNat_le, UInt8.reduceToNat] at hb
    omega

theorem marshalRune_ascii (h : a < 0x80) :
    marshalRune ⟨a.toNat, [a]⟩ = marshalByte a := by
  have hvalue : a.toNat < 0x80 := UInt8.lt_iff_toNat_lt.mp h
  rw [marshalRune]
  rw [if_pos hvalue, UInt8.ofNat_toNat]

theorem marshalRune_wide (high : 0x80 ≤ a) (length : tail.length + 1 = announced a)
    (h : follows a tail = true) :
    marshalRune ⟨(decodeRune (a :: tail)).1, a :: tail⟩ =
      if (decodeRune (a :: tail)).1 = 0x2028 ∨ (decodeRune (a :: tail)).1 = 0x2029 then
        [92, 117, 50, 48, 50, hexChar ((decodeRune (a :: tail)).1 % 16)]
      else a :: tail := by
  have hwide : ¬ (decodeRune (a :: tail)).1 < 0x80 := Nat.not_lt.mpr (decodeRune_high high tail).1
  have hchar : Utf8Char (a :: tail) := .wide high length h
  have hwhole : ((decodeRune (a :: tail)).1, (a :: tail).length) ≠ replacement := by
    rw [← (decodeRune_char hchar []).2]
    exact decodeRune_ne_replacement hchar
  rw [marshalRune]
  rw [if_neg hwide, if_neg hwhole]

theorem kJsonEscapeFrom_char {piece : List UInt8} (h : Utf8Char piece) (s : List UInt8) :
    kJsonEscapeFrom (piece ++ s) =
      marshalRune ⟨(decodeRune piece).1, piece⟩ ++ kJsonEscapeFrom s := by
  cases h with
  | @ascii a h =>
    have hne : a ≠ 0xE2 := by
      rintro rfl
      exact absurd h (by decide)
    rw [decodeRune_ascii h]
    rw [marshalRune_ascii h, cons_append, nil_append, kJsonEscapeFrom_cons hne,
      kJsonEscapeByte_eq h]
  | @wide a tail high length h =>
    rw [marshalRune_wide high length h]
    split
    · next hseparator =>
      obtain ⟨rfl, rfl | rfl⟩ := separator_bytes high length h hseparator
      · rfl
      · rfl
    · next hother =>
      by_cases hlead : a = 0xE2
      · subst hlead
        have htwo : tail.length + 1 = 3 := length
        obtain ⟨b, c, rfl⟩ := length_eq_two.mp (Nat.succ.inj htwo)
        have hnot : ¬ (b = 0x80 ∧ (c = 0xA8 ∨ c = 0xA9)) := by
          rintro ⟨rfl, rfl | rfl⟩
          · exact hother (.inl rfl)
          · exact hother (.inr rfl)
        have hplain : kJsonEscapeFrom (0xE2 :: b :: c :: s) =
            kJsonEscapeByte 0xE2 ++ kJsonEscapeFrom (b :: c :: s) := by
          rw [kJsonEscapeFrom]
          · rintro s' - hs'
            cases hs'
            exact hnot ⟨rfl, .inl rfl⟩
          · rintro s' - hs'
            cases hs'
            exact hnot ⟨rfl, .inr rfl⟩
        have htail := kJsonEscapeFrom_tail (follows_tail h) s
        simp only [cons_append, nil_append] at htail ⊢
        rw [hplain, htail, kJsonEscapeByte_high high]
        rfl
      · rw [cons_append, kJsonEscapeFrom_high high hlead,
          kJsonEscapeFrom_tail (follows_tail h), cons_append]

theorem kJsonEscape_eq {s : List UInt8} (h : Utf8Text s) : kJsonEscape s = marshalString s := by
  have hchars : kJsonEscapeFrom s = (runes s).flatMap marshalRune := by
    induction h with
    | nil => rfl
    | cons h _ ih => rw [kJsonEscapeFrom_char h, ih, runes_char h, flatMap_cons]
  rw [kJsonEscape, marshalString, hchars]

/-- Values without floats, whose strings are UTF-8, and whose objects are tables. -/
inductive Canonical : JsonData → Prop where
  | null : Canonical .null
  | bool (b : Bool) : Canonical (.bool b)
  | int (i : Int64) : Canonical (.int i)
  | number {token : List UInt8} (h : Number token) (hint : Integral token)
      (large : parseInt64 token = none) : Canonical (.number token)
  | string {text : List UInt8} (h : Utf8Text text) : Canonical (.string text)
  | array {items : List JsonData} (h : ∀ item ∈ items, Canonical item) : Canonical (.array items)
  | object {members : List (List UInt8 × JsonData)} (hkeys : Increasing members)
      (hnames : ∀ m ∈ members, Utf8Text m.1) (h : ∀ m ∈ members, Canonical m.2) :
      Canonical (.object members)

theorem insertionSort_increasing {α : Type} {members : List (List UInt8 × α)}
    (h : Increasing members) {inOrder : List UInt8 → List UInt8 → Bool}
    (horder : ∀ s t : List UInt8, s < t → inOrder s t = true) :
    members.insertionSort (fun m m' => inOrder m.1 m'.1) = members :=
  List.Pairwise.insertionSort_eq (h.imp fun hless => horder _ _ hless)

theorem kJsonWrite_eq (kJsonFloat appendFloat : Float64 → List UInt8) {node : JsonData}
    (h : Canonical node) : kJsonWrite kJsonFloat node = marshal appendFloat node := by
  have hlt : ∀ s t : List UInt8, s < t → decide (kJsonKeyIndexCompare s t ≠ .gt) = true := by
    intro s t hless
    simp [kJsonKeyIndexCompare_lt hless]
  have hlt' : ∀ s t : List UInt8, s < t → decide (s < t ∨ s = t) = true := by
    intro s t hless
    simp [hless]
  rw [kJsonWrite, marshal]
  induction h with
  | null => rfl
  | bool b => rfl
  | int i => rfl
  | number h hint large => rfl
  | string h =>
    exact kJsonEscape_eq h
  | array h ih =>
    rw [writeNode, writeNode, writeItems_eq, writeItems_eq]
    congr 3
    exact map_congr_left ih
  | object hkeys hnames h ih =>
    rw [writeNode, writeNode, writeMembers_eq, writeMembers_eq]
    rw [insertionSort_increasing (hkeys.map _) hlt, insertionSort_increasing (hkeys.map _) hlt',
      map_map, map_map]
    congr 3
    apply map_congr_left
    intro m hm
    simp only [Function.comp_apply]
    rw [kJsonEscape_eq (hnames m hm), ih m hm]

end Kryndel
