import Kryndel.Lsp.Server
import Kryndel.Wire.Runes
import Mathlib.Algebra.BigOperators.Group.List.Basic
import Mathlib.Tactic.SplitIfs

/-!
# Offsets and positions

The server turns offsets in bytes into positions, which count lines and UTF-16 units, and back.
One function reads the text from its beginning, the other one looks for line feeds. A carriage
return has no width for the first of them and one unit for the second; at the end of a line
neither counts it.

A client is asked for whole texts, so that the server has the text of the client after every
change.
-/

namespace Kryndel.Lsp.Offsets

open Runes List

/-! ## The functions of the source -/

/-- The bytes of a text. -/
abbrev Text := List UInt8

/-- `Position`, with its 32 bits. -/
structure Position where
  line : UInt32
  character : UInt32
deriving DecidableEq, Repr

/-- The order of positions in a text. -/
def Position.Before (p q : Position) : Prop :=
  p.line < q.line ∨ p.line = q.line ∧ p.character < q.character

/-- `'\n'`. -/
def lineFeed : UInt8 := 10

/-- `'\r'`. -/
def carriageReturn : UInt8 := 13

/-- What the loop of `positionAt` does at a rune. -/
def advance (p : Position) (r : Nat) : Position :=
  if r = lineFeed.toNat then ⟨p.line + 1, 0⟩
  else if r ≠ carriageReturn.toNat then ⟨p.line, p.character + UInt32.ofNat (utf16Width r)⟩
  else p

/-- The loop of `positionAt` from an index on; a round goes over at least one byte. -/
def positionFrom (text : Text) (offset : Nat) : Nat → Nat → Position → Position
  | 0, _, p => p
  | rounds + 1, i, p =>
    if i < offset then
      let (r, size) := decodeRune (text.drop i)
      if size = 0 then p
      else positionFrom text offset rounds (i + size) (advance p r)
    else p

/-- `positionAt`; an offset below zero is taken as zero. -/
def positionAt (text : Text) (offset : Nat) : Position :=
  let offset := if offset > text.length then text.length else offset
  positionFrom text offset offset 0 ⟨0, 0⟩

/-- The loop of `offsetAt` over the lines: where a line begins, if the text has it. -/
def lineStartFrom (text : Text) : Nat → Nat → Option Nat
  | 0, lineStart => some lineStart
  | lines + 1, lineStart =>
    match (text.drop lineStart).idxOf? lineFeed with
    | none => none
    | some next => lineStartFrom text lines (lineStart + (next + 1))

/-- Where a line ends. -/
def lineEndAt (text : Text) (lineStart : Nat) : Nat :=
  let lineEnd := ((text.drop lineStart).idxOf? lineFeed).elim text.length (lineStart + ·)
  if lineEnd > lineStart ∧ text[lineEnd - 1]? = some carriageReturn then lineEnd - 1 else lineEnd

/-- The loop of `offsetAt` over the runes of a line; a round goes over at least one byte. -/
def offsetFrom (text : Text) (lineEnd : Nat) (character : UInt32) : Nat → Nat → UInt32 → Nat
  | 0, _, _ => lineEnd
  | rounds + 1, i, units =>
    if i < lineEnd then
      if units ≥ character then i
      else
        let (r, size) := decodeRune ((text.take lineEnd).drop i)
        if size = 0 then lineEnd
        else if units + UInt32.ofNat (utf16Width r) > character then i
        else offsetFrom text lineEnd character rounds (i + size)
          (units + UInt32.ofNat (utf16Width r))
    else lineEnd

/-- `offsetAt`. -/
def offsetAt (text : Text) (pos : Position) : Nat :=
  match lineStartFrom text pos.line.toNat 0 with
  | none => text.length
  | some lineStart =>
    offsetFrom text (lineEndAt text lineStart) pos.character text.length lineStart 0

/-! ## Texts and offsets -/

/-- An offset at which a rune begins or the text ends. -/
def Boundary (text : Text) (offset : Nat) : Prop :=
  ∃ before after, runes text = before ++ after ∧ (spelled before).length = offset

/-- No carriage return stands in front of an offset on its line. -/
def Clear (text : Text) (offset : Nat) : Prop :=
  ∀ i < offset, text[i]? = some carriageReturn →
    ∃ j < offset, i < j ∧ text[j]? = some lineFeed

instance (text : Text) (offset : Nat) : Decidable (Clear text offset) :=
  inferInstanceAs (Decidable (∀ i < offset, text[i]? = some carriageReturn →
    ∃ j < offset, i < j ∧ text[j]? = some lineFeed))

theorem Clear.mem {text : Text} {offset : Nat} (h : Clear text offset) {before middle : Text}
    (htake : text.take offset = before ++ carriageReturn :: middle) : lineFeed ∈ middle := by
  have hbyte : ∀ i, i < offset → text[i]? = (before ++ carriageReturn :: middle)[i]? := by
    intro i hi
    rw [← htake, getElem?_take_of_lt hi]
  have hlength := congrArg List.length htake
  rw [length_take, length_append, length_cons] at hlength
  have hi : before.length < offset := by omega
  obtain ⟨j, hj, hlt, hfeed⟩ := h before.length hi (by rw [hbyte _ hi]; simp)
  rw [hbyte j hj, getElem?_append_right (Nat.le_of_lt hlt)] at hfeed
  obtain ⟨k, hk⟩ := Nat.exists_eq_add_of_lt (Nat.sub_pos_of_lt hlt)
  rw [hk, Nat.zero_add, getElem?_cons_succ] at hfeed
  exact mem_of_getElem? hfeed

/-! ## Positions by runes -/

/-- A line feed, as a rune. -/
def feed : Rune := ⟨10, [lineFeed]⟩

/-- A carriage return, as a rune. -/
def carriage : Rune := ⟨13, [carriageReturn]⟩

/-- The line and the unit behind a rune, counted without a bound. -/
def place (p : Nat × Nat) (r : Rune) : Nat × Nat :=
  if r.value = 10 then (p.1 + 1, 0)
  else if r.value ≠ 13 then (p.1, p.2 + utf16Width r.value)
  else p

/-- A position of 32 bits. -/
def wrapped (p : Nat × Nat) : Position := ⟨UInt32.ofNat p.1, UInt32.ofNat p.2⟩

variable (p : Nat × Nat)

theorem advance_wrapped (r : Rune) :
    advance (wrapped p) r.value = wrapped (place p r) := by
  unfold advance place
  have hfeed : lineFeed.toNat = 10 := rfl
  have hreturn : carriageReturn.toNat = 13 := rfl
  rw [hfeed, hreturn]
  split_ifs
  · simp [wrapped]
  · simp [wrapped]
  · rfl

variable {after before : List Rune}

theorem positionFrom_eq {text : Text} {i rounds : Nat} (h : runes (text.drop i) = before ++ after)
    (hrounds : (spelled before).length ≤ rounds) (p : Nat × Nat) :
    positionFrom text (i + (spelled before).length) rounds i (wrapped p) =
      wrapped (before.foldl place p) := by
  induction before generalizing i rounds p with
  | nil => cases rounds <;> simp [positionFrom, spelled]
  | cons r before ih =>
    have hne : text.drop i ≠ [] := by
      intro hnil
      rw [hnil] at h
      cases h
    have hsize := decodeRune_size hne
    rw [runes_cons hne, cons_append, List.cons.injEq] at h
    obtain ⟨rfl, h⟩ := h
    rw [drop_drop] at h
    have hlength : ∀ rs : List Rune, (spelled
        (⟨(decodeRune (text.drop i)).1, (text.drop i).take (decodeRune (text.drop i)).2⟩ ::
          rs)).length = (decodeRune (text.drop i)).2 + (spelled rs).length := by
      intro rs
      rw [spelled, flatMap_cons, length_append, length_take,
        Nat.min_eq_left hsize.2]
      rfl
    rw [hlength] at hrounds ⊢
    obtain ⟨rounds, rfl⟩ := Nat.exists_eq_add_one.mpr (show 0 < rounds by omega)
    rw [positionFrom, if_pos (by omega)]
    simp only [if_neg (show ¬ (decodeRune (text.drop i)).2 = 0 by omega)]
    have hadvance := advance_wrapped p
      ⟨(decodeRune (text.drop i)).1, (text.drop i).take (decodeRune (text.drop i)).2⟩
    rw [hadvance, ← Nat.add_assoc, ih h (by omega), foldl_cons]

theorem positionAt_eq {text : Text} (h : runes text = before ++ after) :
    positionAt text (spelled before).length = wrapped (before.foldl place (0, 0)) := by
  have hle : (spelled before).length ≤ text.length := by
    have hspelled := spelled_runes text
    rw [h, spelled, flatMap_append] at hspelled
    rw [← hspelled, length_append]
    exact Nat.le_add_right ..
  have heq := positionFrom_eq (i := 0) (by rwa [drop_zero]) (Nat.le_refl _) (0, 0)
  rw [Nat.zero_add] at heq
  rw [positionAt, if_neg (Nat.not_lt.mpr hle)]
  exact heq

/-! ## Lines -/

/-- Whole lines, so many of them. -/
inductive Lines : List Rune → Nat → Prop
  | nil : Lines [] 0
  | cons (line : List Rune) (hline : feed ∉ line) (rest : List Rune) (n : Nat)
      (hrest : Lines rest n) : Lines (line ++ feed :: rest) (n + 1)

theorem exists_lines (rs : List Rune) : ∃ lines n rest, rs = lines ++ rest ∧ Lines lines n ∧
    feed ∉ rest := by
  induction rs with
  | nil => exact ⟨[], 0, [], rfl, .nil, not_mem_nil⟩
  | cons r rs ih =>
    obtain ⟨lines, n, rest, rfl, hlines, hrest⟩ := ih
    by_cases hr : r = feed
    · subst hr
      exact ⟨feed :: lines, n + 1, rest, rfl, .cons [] not_mem_nil lines n hlines, hrest⟩
    · cases hlines with
      | nil =>
        refine ⟨[], 0, r :: rest, rfl, .nil, ?_⟩
        rw [mem_cons, not_or]
        exact ⟨fun h => hr h.symm, hrest⟩
      | cons line hline lines n hlines =>
        refine ⟨(r :: line) ++ feed :: lines, n + 1, rest, by simp, .cons _ ?_ _ _ hlines, hrest⟩
        rw [mem_cons, not_or]
        exact ⟨fun h => hr h.symm, hline⟩

theorem not_mem_spelled {text : Text} {rs : List Rune} (hrs : ∀ r ∈ rs, r ∈ runes text)
    (h : feed ∉ rs) : lineFeed ∉ spelled rs := by
  intro hmem
  obtain ⟨r, hr, hbyte⟩ := mem_flatMap.mp hmem
  rw [eq_ascii_of_mem (hrs r hr) (by decide) hbyte] at hr
  exact h hr

theorem idxOf_feed {line rest : Text} (h : lineFeed ∉ line) :
    (line ++ lineFeed :: rest).idxOf? lineFeed = some line.length := by
  induction line with
  | nil => rfl
  | cons b line ih =>
    rw [mem_cons, not_or] at h
    rw [cons_append, idxOf?_cons, if_neg (by simpa using fun hb => h.1 hb.symm), ih h.2]
    rfl

variable {rest lines : List Rune}

theorem lineStartFrom_eq {text : Text} {n start : Nat} (hlines : Lines lines n)
    (h : runes (text.drop start) = lines ++ rest) :
    lineStartFrom text n start = some (start + (spelled lines).length) := by
  induction hlines generalizing start with
  | nil => rfl
  | cons line hline lines n _ ih =>
    have hmem : ∀ r ∈ line, r ∈ runes (text.drop start) := by
      intro r hr
      rw [h]
      simp [hr]
    have hbytes : text.drop start =
        spelled line ++ lineFeed :: (spelled lines ++ spelled rest) := by
      rw [← spelled_append, ← spelled_runes (text.drop start), h, append_assoc,
        cons_append, spelled_append, spelled_cons]
      rfl
    have hnext : runes (text.drop (start + ((spelled line).length + 1))) = lines ++ rest := by
      have hsplit : runes (text.drop start) = (line ++ [feed]) ++ (lines ++ rest) := by
        rw [h]
        simp
      have hdrop := runes_drop hsplit
      rw [drop_drop, spelled_append, length_append] at hdrop
      exact hdrop
    rw [lineStartFrom, hbytes, idxOf_feed (not_mem_spelled hmem hline)]
    have hfeed : feed.bytes.length = 1 := rfl
    simp only [ih hnext, spelled_append, spelled_cons, length_append, hfeed,
      Option.some.injEq]
    omega

/-- What is counted of a line: all but a carriage return at its end. -/
def counted (line : List Rune) : List Rune :=
  if line.getLast? = some carriage then line.dropLast else line

theorem counted_or (line : List Rune) :
    line = counted line ∧ line.getLast? ≠ some carriage ∨ line = counted line ++ [carriage] := by
  unfold counted
  split
  · next h =>
    right
    exact (dropLast_append_getLast? carriage h).symm
  · next h => exact Or.inl ⟨rfl, h⟩

theorem getLast_spelled {text : Text} {line : List Rune} (hline : ∀ r ∈ line, r ∈ runes text) :
    (spelled line).getLast? = some carriageReturn ↔ line.getLast? = some carriage := by
  rcases eq_nil_or_concat line with rfl | ⟨front, r, rfl⟩
  · simp
  · have hr := hline r (by simp)
    have hne : r.bytes ≠ [] := length_pos_iff.mp (width_le_length hr).1
    rw [concat_eq_append, spelled_append, spelled_cons, spelled_nil, append_nil,
      getLast?_append_of_ne_nil _ hne, getLast?_concat, Option.some.injEq]
    constructor
    · intro h
      exact eq_ascii_of_mem hr (by decide) (mem_of_getLast? h)
    · rintro rfl
      rfl

theorem lineEndAt_eq {text : Text} {line tail : List Rune} {start : Nat}
    (h : runes (text.drop start) = line ++ tail) (hline : feed ∉ line)
    (htail : tail = [] ∨ ∃ rest, tail = feed :: rest) (hstart : start ≤ text.length) :
    lineEndAt text start = start + (spelled (counted line)).length := by
  have hmem : ∀ r ∈ line, r ∈ runes (text.drop start) := by
    intro r hr
    rw [h]
    exact mem_append_left _ hr
  have hbytes : text.drop start = spelled line ++ spelled tail := by
    rw [← spelled_append, ← h, spelled_runes]
  have hraw : ((text.drop start).idxOf? lineFeed).elim text.length (start + ·) =
      start + (spelled line).length := by
    rcases htail with rfl | ⟨rest, rfl⟩
    · rw [spelled_nil, append_nil] at hbytes
      have hnone : (text.drop start).idxOf? lineFeed = none :=
        idxOf?_eq_none_iff.mpr (hbytes ▸ not_mem_spelled hmem hline)
      have hlength := congrArg List.length hbytes
      rw [length_drop] at hlength
      rw [hnone, Option.elim_none]
      omega
    · have hfirst : (text.drop start).idxOf? lineFeed = some (spelled line).length := by
        rw [hbytes, spelled_cons]
        exact idxOf_feed (not_mem_spelled hmem hline)
      rw [hfirst, Option.elim_some]
  have hlast : (start + (spelled line).length > start ∧
      text[start + (spelled line).length - 1]? = some carriageReturn) ↔
        line.getLast? = some carriage := by
    rw [← getLast_spelled hmem]
    by_cases hnil : spelled line = []
    · simp [hnil]
    · have hpos := length_pos_iff.mpr hnil
      have hindex : start + (spelled line).length - 1 = start + ((spelled line).length - 1) := by
        omega
      rw [hindex, ← getElem?_drop, hbytes, getElem?_append_left (by omega),
        ← getLast?_eq_getElem?]
      exact and_iff_right (by omega)
  rw [lineEndAt, hraw]
  rcases counted_or line with ⟨hcounted, hnot⟩ | hcarriage
  · rw [if_neg (hlast.not.mpr hnot), ← hcounted]
  · have hcr : line.getLast? = some carriage := by
      rw [hcarriage, getLast?_concat]
    have hone : (spelled line).length = (spelled (counted line)).length + 1 := by
      conv_lhs => rw [hcarriage]
      rw [spelled_append, length_append]
      rfl
    rw [if_pos (hlast.mpr hcr), hone]
    omega

/-- The UTF-16 units of some runes. -/
def units (rs : List Rune) : Nat := (rs.map fun r => utf16Width r.value).sum

theorem offsetFrom_eq {text : Text} {lineEnd i rounds : Nat} {character count : UInt32}
    (h : runes ((text.take lineEnd).drop i) = before ++ after)
    (hend : i + (spelled (before ++ after)).length = lineEnd)
    (hcount : count.toNat + units before = character.toNat)
    (hrounds : (spelled (before ++ after)).length ≤ rounds) :
    offsetFrom text lineEnd character rounds i count = i + (spelled before).length := by
  induction before generalizing i rounds count with
  | nil =>
    have hreached : count = character := UInt32.toNat_inj.mp hcount
    rw [spelled_nil, length_nil, Nat.add_zero]
    cases rounds with
    | zero =>
      rw [offsetFrom]
      omega
    | succ rounds =>
      rw [offsetFrom]
      by_cases hi : i < lineEnd
      · rw [if_pos hi, if_pos (by rw [hreached]; exact UInt32.le_refl _)]
      · rw [if_neg hi]
        omega
  | cons r before ih =>
    have hne : (text.take lineEnd).drop i ≠ [] := by
      intro hnil
      rw [hnil] at h
      cases h
    have hsize := decodeRune_size hne
    rw [runes_cons hne, cons_append, List.cons.injEq] at h
    obtain ⟨hr, h⟩ := h
    rw [drop_drop] at h
    have hbytes : r.bytes.length = (decodeRune ((text.take lineEnd).drop i)).2 := by
      rw [← hr, length_take, Nat.min_eq_left hsize.2]
    have hvalue : r.value = (decodeRune ((text.take lineEnd).drop i)).1 := by rw [← hr]
    have hwidth : 1 ≤ utf16Width r.value ∧ utf16Width r.value ≤ 2 := by
      unfold utf16Width
      split <;> omega
    rw [cons_append, spelled_cons, length_append, hbytes] at hend hrounds
    rw [units, map_cons, sum_cons] at hcount
    have hlt := character.toNat_lt
    have hsum : (count + UInt32.ofNat (utf16Width r.value)).toNat =
        count.toNat + utf16Width r.value := by
      rw [UInt32.toNat_add, UInt32.toNat_ofNat']
      omega
    obtain ⟨rounds, rfl⟩ := Nat.exists_eq_add_one.mpr (show 0 < rounds by omega)
    rw [offsetFrom, if_pos (by omega), if_neg (by rw [ge_iff_le, UInt32.le_iff_toNat_le]; omega)]
    simp only [if_neg (show ¬ (decodeRune ((text.take lineEnd).drop i)).2 = 0 by omega), ← hvalue]
    rw [if_neg (by rw [gt_iff_lt, UInt32.lt_iff_toNat_lt, hsum]; omega), ← hbytes,
      ih (by rw [hbytes]; exact h) (by omega) (by rw [hsum, units]; omega) (by omega),
      spelled_cons, length_append]
    omega

/-! ## The round trip -/

section RoundTrip

variable {text : Text} {rs : List Rune}

variable {r : Rune}

theorem value_feed (h : r ∈ runes text) : r.value = 10 ↔ r = feed :=
  ⟨fun hvalue => eq_ascii_of_value h (a := lineFeed) (by decide) hvalue, fun h => by rw [h]; rfl⟩

theorem value_carriage (h : r ∈ runes text) : r.value = 13 ↔ r = carriage :=
  ⟨fun hvalue => eq_ascii_of_value h (a := carriageReturn) (by decide) hvalue,
    fun h => by rw [h]; rfl⟩

theorem foldl_place_line (hrs : ∀ r ∈ rs, r ∈ runes text) (hfeed : feed ∉ rs) (p : Nat × Nat) :
    (rs.foldl place p).1 = p.1 := by
  induction rs generalizing p with
  | nil => rfl
  | cons r rs ih =>
    rw [mem_cons, not_or] at hfeed
    have hr : r.value ≠ 10 := fun h =>
      hfeed.1 ((value_feed (hrs r mem_cons_self)).mp h).symm
    rw [foldl_cons, ih (fun s hs => hrs s (mem_cons_of_mem r hs)) hfeed.2, place,
      if_neg hr]
    split <;> rfl

variable {n : Nat}

theorem foldl_place_lines (hlines : Lines rs n) (hrs : ∀ r ∈ rs, r ∈ runes text) (k : Nat) :
    rs.foldl place (k, 0) = (k + n, 0) := by
  induction hlines generalizing k with
  | nil => rfl
  | cons line hline rest n _ ih =>
    have hfirst := foldl_place_line (fun r hr => hrs r (by simp [hr])) hline (k, 0)
    have hplace : place (line.foldl place (k, 0)) feed = (k + 1, 0) := by
      rw [place, if_pos (show feed.value = 10 from rfl), hfirst]
    rw [foldl_append, foldl_cons, hplace, ih fun r hr => hrs r (by simp [hr]),
      Nat.add_right_comm, Nat.add_assoc]

theorem foldl_place_units (hrs : ∀ r ∈ rs, r ∈ runes text) (hfeed : feed ∉ rs)
    (hreturn : carriage ∉ rs) (k c : Nat) : rs.foldl place (k, c) = (k, c + units rs) := by
  induction rs generalizing c with
  | nil => rfl
  | cons r rs ih =>
    rw [mem_cons, not_or] at hfeed hreturn
    have hmem := hrs r mem_cons_self
    have hr : r.value ≠ 10 := fun h => hfeed.1 ((value_feed hmem).mp h).symm
    have hr' : r.value ≠ 13 := fun h => hreturn.1 ((value_carriage hmem).mp h).symm
    rw [foldl_cons, place, if_neg hr, if_pos hr',
      ih (fun s hs => hrs s (mem_cons_of_mem r hs)) hfeed.2 hreturn.2, units, units,
      map_cons, sum_cons, Nat.add_assoc]

theorem units_le (hrs : ∀ r ∈ rs, r ∈ runes text) : units rs ≤ (spelled rs).length := by
  induction rs with
  | nil => exact Nat.le_refl 0
  | cons r rs ih =>
    have hr := (width_le_length (hrs r mem_cons_self)).2
    have hrest := ih fun s hs => hrs s (mem_cons_of_mem r hs)
    rw [units, map_cons, sum_cons, spelled_cons, length_append]
    exact Nat.add_le_add hr hrest

theorem lines_le (hlines : Lines rs n) : n ≤ (spelled rs).length := by
  induction hlines with
  | nil => exact Nat.le_refl 0
  | cons line _ rest n _ ih =>
    have hfeed : feed.bytes.length = 1 := rfl
    rw [spelled_append, spelled_cons, length_append, length_append, hfeed]
    omega

theorem spelled_split (h : runes text = before ++ after) :
    text = spelled before ++ spelled after := by
  rw [← spelled_append, ← h, spelled_runes]

theorem take_spelled (h : runes text = before ++ after) :
    text.take (spelled before).length = spelled before := by
  conv_lhs => rw [spelled_split h]
  exact take_left

theorem carriage_not_mem (h : runes text = (before ++ rest) ++ after) (hfeed : feed ∉ rest)
    (hclear : Clear text (spelled (before ++ rest)).length) : carriage ∉ rest := by
  intro hmem
  obtain ⟨front, back, rfl⟩ := append_of_mem hmem
  have hback : ∀ r ∈ back, r ∈ runes text := by
    intro r hr
    rw [h]
    simp [hr]
  refine not_mem_spelled hback (fun hr => hfeed (by simp [hr])) ?_
  have htake : text.take (spelled (before ++ (front ++ carriage :: back))).length =
      spelled (before ++ front) ++ carriageReturn :: spelled back := by
    rw [take_spelled h, ← append_assoc, spelled_append _ (carriage :: back), spelled_cons]
    rfl
  exact hclear.mem htake

/-- The parts of a text around an offset: whole lines, a part of a line, and the runes after
    it. -/
theorem positionAt_parts (hsmall : text.length < 2 ^ 32) (h : runes text = (lines ++ rest) ++ after)
    (hlines : Lines lines n) (hfeed : feed ∉ rest) (hreturn : carriage ∉ rest) :
    (positionAt text (spelled (lines ++ rest)).length).line.toNat = n ∧
      (positionAt text (spelled (lines ++ rest)).length).character.toNat = units rest := by
  have hmem : ∀ r ∈ lines ++ rest, r ∈ runes text := by
    intro r hr
    rw [h]
    exact mem_append_left _ hr
  have hplace : (lines ++ rest).foldl place (0, 0) = (n, units rest) := by
    rw [foldl_append, foldl_place_lines hlines fun r hr => hmem r (by simp [hr]),
      foldl_place_units (fun r hr => hmem r (by simp [hr])) hfeed hreturn, Nat.zero_add,
      Nat.zero_add]
  have hlength : (spelled lines).length + (spelled rest).length ≤ text.length := by
    rw [spelled_split h, length_append, spelled_append, length_append]
    exact Nat.le_add_right ..
  have hn := lines_le hlines
  have hunits := units_le fun r hr => hmem r (mem_append_right _ hr)
  rw [positionAt_eq h, hplace, wrapped, UInt32.toNat_ofNat', UInt32.toNat_ofNat',
    Nat.mod_eq_of_lt (by omega), Nat.mod_eq_of_lt (by omega)]
  exact ⟨rfl, rfl⟩

theorem exists_line (rs : List Rune) : ∃ line tail, rs = line ++ tail ∧ feed ∉ line ∧
    (tail = [] ∨ ∃ others, tail = feed :: others) := by
  by_cases hmem : feed ∈ rs
  · obtain ⟨line, others, rfl, hline⟩ := eq_append_cons_of_mem hmem
    exact ⟨line, feed :: others, rfl, hline, Or.inr ⟨others, rfl⟩⟩
  · exact ⟨rs, [], (append_nil rs).symm, hmem, Or.inl rfl⟩

theorem counted_parts (h : runes text = (lines ++ rest) ++ after) (hfeed : feed ∉ rest)
    (hreturn : carriage ∉ rest) :
    ∃ more others, after = more ++ others ∧
      lineEndAt text (spelled lines).length =
        (spelled lines).length + (spelled (rest ++ more)).length ∧
      (∀ b ∈ (spelled others).head?, b < 0x80) := by
  obtain ⟨front, tail, rfl, hfront, htail⟩ := exists_line after
  have hdrop : runes (text.drop (spelled lines).length) = (rest ++ front) ++ tail := by
    rw [append_assoc] at h
    rw [runes_drop h, append_assoc]
  have hline : feed ∉ rest ++ front := by
    rw [mem_append, not_or]
    exact ⟨hfeed, hfront⟩
  have hstart : (spelled lines).length ≤ text.length := by
    rw [spelled_split h, length_append, spelled_append, length_append]
    omega
  have hend := lineEndAt_eq hdrop hline htail hstart
  have hascii : ∀ b ∈ (spelled tail).head?, b < 0x80 := by
    rcases htail with rfl | ⟨others, rfl⟩
    · rintro b ⟨⟩
    · rintro b ⟨⟩
      decide
  rcases counted_or (rest ++ front) with ⟨hcounted, -⟩ | hcarriage
  · rw [← hcounted] at hend
    exact ⟨front, tail, rfl, hend, hascii⟩
  · -- The carriage return at the end of the line is behind the offset.
    rcases eq_nil_or_concat front with rfl | ⟨more, r, rfl⟩
    · rw [append_nil] at hcarriage
      exact absurd (hcarriage ▸ mem_append_right _ mem_cons_self) hreturn
    · rw [concat_eq_append, ← append_assoc] at hcarriage hend
      obtain ⟨hmore, hr⟩ := append_inj' hcarriage rfl
      obtain rfl := singleton_inj.mp hr
      rw [← hmore] at hend
      refine ⟨more, carriage :: tail, by simp, hend, ?_⟩
      rintro b ⟨⟩
      decide

theorem offsetAt_positionAt (hsmall : text.length < 2 ^ 32) {offset : Nat}
    (hboundary : Boundary text offset) (hclear : Clear text offset) :
    offsetAt text (positionAt text offset) = offset := by
  obtain ⟨before, after, h, rfl⟩ := hboundary
  obtain ⟨lines, n, rest, rfl, hlines, hfeed⟩ := exists_lines before
  have hreturn := carriage_not_mem h hfeed hclear
  obtain ⟨hline, hcharacter⟩ := positionAt_parts hsmall h hlines hfeed hreturn
  obtain ⟨more, others, rfl, hend, hascii⟩ := counted_parts h hfeed hreturn
  have hstart : lineStartFrom text n 0 = some (spelled lines).length := by
    have hzero : runes (text.drop 0) = lines ++ (rest ++ (more ++ others)) := by
      rw [drop_zero, h, append_assoc]
    rw [lineStartFrom_eq hlines hzero, Nat.zero_add]
  have hdrop : runes (text.drop (spelled lines).length) = (rest ++ more) ++ others := by
    rw [append_assoc] at h
    rw [runes_drop h, append_assoc]
  -- The line is read as it is by itself, without what is behind it.
  have hcounted : runes ((text.take ((spelled lines).length + (spelled (rest ++ more)).length)).drop
      (spelled lines).length) = rest ++ more := by
    rw [drop_take, Nat.add_sub_cancel_left, spelled_split hdrop, take_left]
    exact runes_spelled hdrop hascii
  have hlength : (spelled (rest ++ more)).length ≤ text.length := by
    have hsplit := congrArg List.length (spelled_split hdrop)
    rw [length_drop, length_append] at hsplit
    omega
  have hzero : (0 : UInt32).toNat + units rest =
      (positionAt text (spelled (lines ++ rest)).length).character.toNat := by
    rw [hcharacter]
    exact Nat.zero_add _
  have hoffset := offsetFrom_eq hcounted rfl hzero hlength
  rw [offsetAt, hline, hstart]
  simp only [hend, hoffset]
  rw [spelled_append, length_append]

/-! ## The order of positions -/

/-- The order of places, line by line. -/
def Ahead (p q : Nat × Nat) : Prop := p.1 < q.1 ∨ p.1 = q.1 ∧ p.2 < q.2

theorem Ahead.trans {p q r : Nat × Nat} (h : Ahead p q) (h' : Ahead q r) : Ahead p r := by
  unfold Ahead at *
  omega

theorem place_ahead (h : r.value ≠ 13) : Ahead p (place p r) := by
  by_cases hfeed : r.value = 10
  · rw [place, if_pos hfeed]
    exact Or.inl (Nat.lt_succ_self _)
  · rw [place, if_neg hfeed, if_pos h]
    refine Or.inr ⟨rfl, ?_⟩
    unfold utf16Width
    split <;> omega

theorem foldl_place_ahead (rs : List Rune) :
    rs.foldl place p = p ∨ Ahead p (rs.foldl place p) := by
  induction rs generalizing p with
  | nil => exact Or.inl rfl
  | cons r rs ih =>
    rw [foldl_cons]
    by_cases hr : r.value = 13
    · have hsame : place p r = p := by
        rw [place, if_neg (by omega), if_neg (by simpa using hr)]
      rw [hsame]
      exact ih p
    · right
      rcases ih (place p r) with hsame | hahead
      · rw [hsame]
        exact place_ahead p hr
      · exact (place_ahead p hr).trans hahead

theorem ahead_of_mem (hr : r ∈ rs) (h : r.value ≠ 13) :
    Ahead p (rs.foldl place p) := by
  obtain ⟨front, back, rfl⟩ := append_of_mem hr
  rw [foldl_append, foldl_cons]
  have hmiddle : Ahead p (place (front.foldl place p) r) := by
    rcases foldl_place_ahead p front with hsame | hahead
    · rw [hsame]
      exact place_ahead p h
    · exact hahead.trans (place_ahead _ h)
  rcases foldl_place_ahead (place (front.foldl place p) r) back with hsame | hahead
  · rwa [hsame]
  · exact hmiddle.trans hahead

theorem place_le (hrs : ∀ r ∈ rs, r ∈ runes text) (p : Nat × Nat) :
    (rs.foldl place p).1 ≤ p.1 + (spelled rs).length ∧
      (rs.foldl place p).2 ≤ p.2 + (spelled rs).length := by
  induction rs generalizing p with
  | nil => exact ⟨Nat.le_refl _, Nat.le_refl _⟩
  | cons r rs ih =>
    obtain ⟨hone, hwidth⟩ := width_le_length (hrs r mem_cons_self)
    obtain ⟨hlines, hunits⟩ := ih (fun s hs => hrs s (mem_cons_of_mem r hs)) (place p r)
    have hstep : (place p r).1 ≤ p.1 + r.bytes.length ∧ (place p r).2 ≤ p.2 + r.bytes.length := by
      unfold place
      split
      · exact ⟨Nat.add_le_add_left hone _, Nat.zero_le _⟩
      split
      · exact ⟨Nat.le_add_right .., Nat.add_le_add_left hwidth _⟩
      · exact ⟨Nat.le_add_right .., Nat.le_add_right ..⟩
    rw [foldl_cons, spelled_cons, length_append]
    omega

theorem positionAt_before (hsmall : text.length < 2 ^ 32) {offset other : Nat}
    (hboundary : Boundary text offset) (hother : Boundary text other)
    (hclear : Clear text other) (hlt : offset < other) :
    (positionAt text offset).Before (positionAt text other) := by
  obtain ⟨before, after, h, rfl⟩ := hboundary
  obtain ⟨before', after', h', rfl⟩ := hother
  obtain ⟨middle, rfl, rfl⟩ : ∃ middle, before' = before ++ middle ∧ after = middle ++ after' := by
    rcases append_eq_append_iff.mp (h.symm.trans h') with hsplit | ⟨middle, rfl, -⟩
    · exact hsplit
    · rw [spelled_append, length_append] at hlt
      omega
  have hmem : ∀ r ∈ before ++ middle, r ∈ runes text := by
    intro r hr
    rw [h']
    exact mem_append_left _ hr
  -- If there were only carriage returns in between, the last one would be in front of the offset.
  obtain ⟨r, hr, hvalue⟩ : ∃ r ∈ middle, r.value ≠ 13 := by
    by_contra hnone
    rcases eq_nil_or_concat middle with rfl | ⟨front, r, rfl⟩
    · rw [append_nil] at hlt
      exact Nat.lt_irrefl _ hlt
    · rw [concat_eq_append] at *
      have hr : r = carriage := by
        by_contra hne
        exact hnone ⟨r, by simp, (value_carriage (hmem r (by simp))).not.mpr hne⟩
      subst hr
      have htake : text.take (spelled (before ++ (front ++ [carriage]))).length =
          spelled (before ++ front) ++ carriageReturn :: [] := by
        rw [take_spelled h', ← append_assoc, spelled_append _ [carriage]]
        rfl
      exact absurd (hclear.mem htake) not_mem_nil
  have hahead := ahead_of_mem (before.foldl place (0, 0)) hr hvalue
  rw [← foldl_append] at hahead
  have hle : (spelled before).length + (spelled middle).length ≤ text.length := by
    rw [spelled_split h', length_append, spelled_append, length_append]
    exact Nat.le_add_right ..
  have hsecond := place_le hmem (0, 0)
  rw [spelled_append, length_append] at hsecond
  rw [positionAt_eq h, positionAt_eq h', wrapped, wrapped, Position.Before,
    UInt32.lt_iff_toNat_lt, UInt32.lt_iff_toNat_lt, ← UInt32.toNat_inj]
  simp only [UInt32.toNat_ofNat']
  unfold Ahead at hahead
  omega

end RoundTrip

/-! ## The texts of a client -/

/-- A client with an open document. -/
structure Client where
  text : String
  version : Int

/-- What a client and its server do. -/
inductive Move where
  /-- The client changes its text, in some steps, and sends the text after each of them. -/
  | change (texts : List String) (version : Int)
  /-- The client saves its document, and may send the text with it. -/
  | save (included : Bool)
  /-- The server is told of another document. -/
  | elsewhere (notification : Notification)

/-- The document that a notification is about. -/
def about : Notification → String
  | .didOpen uri _ _ | .didChange uri _ _ | .didSave uri _ | .didClose uri => uri

/-- A move, if it is possible: the versions of a client increase. -/
def move {Disk : Type} (host : Host Disk) (uri : String) (s : Documents × Client) :
    Move → Option (Documents × Client)
  | .change texts version =>
    match texts.getLast? with
    | none => none
    | some text =>
      if s.2.version < version then
        some ((s.1.update host (.didChange uri texts version)).docs, ⟨text, version⟩)
      else none
  | .save included =>
    some ((s.1.update host (.didSave uri (if included then some s.2.text else none))).docs, s.2)
  | .elsewhere notification =>
    if about notification = uri then none else some ((s.1.update host notification).docs, s.2)

/-- The server has the text of the client, and no later version. -/
def Mirrors (uri : String) (s : Documents × Client) : Prop :=
  ∃ doc, s.1.find uri = some doc ∧ doc.text = s.2.text ∧ doc.version ≤ s.2.version

section Client

variable {Disk : Type} {host : Host Disk} {docs : Documents} {uri : String}

theorem find_erase_of_ne {other : String} (h : other ≠ uri) :
    (docs.erase other).find uri = docs.find uri := by
  rw [Documents.find, Documents.find, Documents.erase, find?_filter]
  congr 1
  funext doc
  by_cases hdoc : doc.uri = uri
  · simp [hdoc, Ne.symm h]
  · simp [hdoc]

theorem find_store (doc : Document) : (docs.store doc).find doc.uri = some doc := by
  have hnone : (docs.erase doc.uri).entries.find? (·.uri == doc.uri) = none := by
    rw [find?_eq_none]
    intro other hother
    simpa using of_mem_filter hother
  rw [Documents.find, Documents.store, find?_append, hnone, Option.none_or]
  simp

variable {doc : Document}

theorem find_store_of_ne (h : doc.uri ≠ uri) :
    (docs.store doc).find uri = docs.find uri := by
  have hothers : (docs.erase doc.uri).find uri = docs.find uri := find_erase_of_ne h
  rw [← hothers, Documents.find, Documents.find, Documents.store, find?_append]
  simp [h]

theorem uri_of_find (h : docs.find uri = some doc) : doc.uri = uri := by
  simpa using find?_some h

variable {version : Int}

theorem change_elsewhere {other text : String} (h : other ≠ uri) :
    (docs.change other text version).docs.find uri = docs.find uri := by
  unfold Documents.change
  cases hfind : docs.find other with
  | none => rfl
  | some doc =>
    simp only
    split
    · rfl
    · apply find_store_of_ne
      rwa [uri_of_find hfind]

theorem update_elsewhere {notification : Notification} (h : about notification ≠ uri) :
    (docs.update host notification).docs.find uri = docs.find uri := by
  cases notification with
  | didOpen other text version =>
    rw [Documents.update]
    split
    · rfl
    · exact find_store_of_ne h
  | didChange other changes version =>
    rw [Documents.update]
    split
    · rfl
    · exact change_elsewhere h
  | didSave other text =>
    cases text with
    | none => rfl
    | some text => exact change_elsewhere h
  | didClose other => exact find_erase_of_ne h

theorem change_find (hfind : docs.find uri = some doc) {text : String}
    (h : version = 0 ∨ doc.version ≤ version) :
    (docs.change uri text version).docs.find uri =
      some { doc with text, version := if version ≠ 0 then version else doc.version } := by
  have huri := uri_of_find hfind
  have hcurrent : ¬ (version ≠ 0 ∧ version < doc.version) := by omega
  rw [Documents.change, hfind]
  simp only [if_neg hcurrent]
  conv_lhs => rw [← huri]
  exact find_store { doc with text, version := if version ≠ 0 then version else doc.version }

theorem mirrors_open {path text : String} (h : (host.pathFromURI uri).filter isSource = some path) :
    Mirrors uri ((docs.update host (.didOpen uri text version)).docs, ⟨text, version⟩) := by
  refine ⟨{ uri, path, text, version }, ?_, rfl, Int.le_refl version⟩
  rw [Documents.update]
  simp only [h]
  exact find_store { uri, path, text, version }

theorem mirrors_move {s s' : Documents × Client} {m : Move} (h : Mirrors uri s)
    (hmove : move host uri s m = some s') : Mirrors uri s' := by
  obtain ⟨docs, client⟩ := s
  obtain ⟨doc, hfind, htext, hversion⟩ := h
  cases m with
  | change texts version =>
    rw [move] at hmove
    cases hlast : texts.getLast? with
    | none =>
      rw [hlast] at hmove
      cases hmove
    | some text =>
      simp only [hlast] at hmove
      split at hmove
      · next hlater =>
        cases hmove
        refine ⟨{ doc with text, version := if version ≠ 0 then version else doc.version },
          ?_, rfl, ?_⟩
        · rw [Documents.update]
          simp only [hlast]
          exact change_find hfind (Or.inr (Int.le_trans hversion (Int.le_of_lt hlater)))
        · simp only at hversion hlater ⊢
          split <;> omega
      · cases hmove
  | save included =>
    cases hmove
    cases included with
    | false => exact ⟨doc, hfind, htext, hversion⟩
    | true =>
      refine ⟨{ doc with text := client.text }, change_find hfind (Or.inl rfl), rfl, hversion⟩
  | elsewhere notification =>
    rw [move] at hmove
    split at hmove
    · cases hmove
    · next habout =>
      cases hmove
      exact ⟨doc, (update_elsewhere habout).trans hfind, htext, hversion⟩

/-- Offsets come back from their positions and keep their order, where no carriage return is in
    front of them on their line; and after any moves the server has the text of its client. -/
theorem offsets_and_texts {text : Text} (hsmall : text.length < 2 ^ 32) {earlier offset : Nat}
    (hearlier : Boundary text earlier) (hboundary : Boundary text offset)
    (hclear : Clear text offset) {path opened : String}
    (hpath : (host.pathFromURI uri).filter isSource = some path) {version : Int}
    {moves : List Move} {docs' : Documents} {client : Client}
    (hrun : Systems.run (move host uri)
      ((docs.update host (.didOpen uri opened version)).docs, ⟨opened, version⟩) moves =
        some (docs', client)) :
    offsetAt text (positionAt text offset) = offset ∧
      (earlier < offset → (positionAt text earlier).Before (positionAt text offset)) ∧
      (docs'.find uri).map (·.text) = some client.text := by
  refine ⟨offsetAt_positionAt hsmall hboundary hclear,
    positionAt_before hsmall hearlier hboundary hclear, ?_⟩
  have hstep : ∀ (s : Documents × Client) (m : Move) s', Mirrors uri s →
      move host uri s m = some s' → Mirrors uri s' := by
    intro s m s' h hmove
    exact mirrors_move h hmove
  obtain ⟨doc, hfind, htext, -⟩ := Systems.run_invariant hstep (mirrors_open hpath) hrun
  rw [hfind, Option.map_some, htext]

end Client

/-! ## Two lines, and a lone carriage return -/

/-- A host whose files are never read. -/
def mainOnly : Host Unit where
  analyse _ _ _ := none
  readFile _ _ := none
  pathFromURI uri := if uri = "file:///main.kry" then some "/main.kry" else none
  uriFromPath path := "file://" ++ path

/-- `"a\r\n😀b"`, at its end. -/
def twoLines : Text := [97, 13, 10, 0xF0, 0x9F, 0x98, 0x80, 98]

/-- A client opens a document and changes it in two steps. -/
theorem twoLines_and_change :
    offsetAt twoLines (positionAt twoLines 8) = 8 ∧
      (3 < 8 → (positionAt twoLines 3).Before (positionAt twoLines 8)) ∧
        (((Documents.empty.update mainOnly (.didOpen "file:///main.kry" "" 1)).docs.update
          mainOnly (.didChange "file:///main.kry" ["a", "ab"] 2)).docs.find
            "file:///main.kry").map (·.text) = some "ab" := by
  have hstart : Boundary twoLines 3 :=
    ⟨(runes twoLines).take 3, (runes twoLines).drop 3, by decide, by decide⟩
  have hend : Boundary twoLines 8 := ⟨runes twoLines, [], by decide, by decide⟩
  have hrun : Systems.run (move mainOnly "file:///main.kry")
      ((Documents.empty.update mainOnly (.didOpen "file:///main.kry" "" 1)).docs, ⟨"", 1⟩)
        [.change ["a", "ab"] 2] = some (((Documents.empty.update mainOnly
          (.didOpen "file:///main.kry" "" 1)).docs.update mainOnly
            (.didChange "file:///main.kry" ["a", "ab"] 2)).docs, ⟨"ab", 2⟩) := rfl
  have hpath : (mainOnly.pathFromURI "file:///main.kry").filter isSource = some "/main.kry" := by
    decide
  exact offsets_and_texts (by decide) hstart hend (by decide) hpath hrun

/-- A text with a part replaced, as a client does it. -/
def spliced (text : Text) (start stop : Position) (new : Text) : Text :=
  text.take (offsetAt text start) ++ new ++ text.drop (offsetAt text stop)

/-- As many letters as there are numbers of 32 bits take the last offset to the first place. -/
theorem offsetAt_letters {n : Nat} (hpos : 0 < n) (hwrap : UInt32.ofNat n = 0) :
    offsetAt (List.replicate n 97) (positionAt (List.replicate n 97) n) = 0 := by
  have hrunes : ∀ k, runes (List.replicate k 97) = List.replicate k ⟨97, [97]⟩ := by
    intro k
    induction k with
    | zero => rfl
    | succ k ih =>
      have hfirst := decodeRune_ascii (a := 97) (by decide) (List.replicate k 97)
      rw [replicate_succ, runes_cons (cons_ne_nil _ _), hfirst, replicate_succ]
      simp [ih]
  have hspelled : (spelled (List.replicate n ⟨97, [97]⟩)).length = n := by
    rw [← hrunes n, spelled_runes, length_replicate]
  have hplace : ∀ k c, (List.replicate k (⟨97, [97]⟩ : Rune)).foldl place (0, c) = (0, c + k) := by
    intro k
    induction k with
    | zero => exact fun c => rfl
    | succ k ih =>
      intro c
      rw [replicate_succ, foldl_cons, show place (0, c) ⟨97, [97]⟩ = (0, c + 1) from rfl,
        ih, Nat.add_right_comm, Nat.add_assoc]
  have hsplit : runes (List.replicate n 97) = List.replicate n ⟨97, [97]⟩ ++ [] := by
    rw [hrunes, append_nil]
  have hposition := positionAt_eq hsplit
  rw [hspelled, hplace, wrapped, Nat.zero_add, hwrap] at hposition
  have hend : lineEndAt (List.replicate n 97) 0 = n := by
    have hnone : (List.replicate n (97 : UInt8)).idxOf? lineFeed = none := by
      rw [idxOf?_eq_none_iff]
      intro hmem
      exact absurd (eq_of_mem_replicate hmem) (by decide)
    have hlast : (List.replicate n (97 : UInt8))[n - 1]? ≠ some carriageReturn := by
      intro hmem
      exact absurd (eq_of_mem_replicate (mem_of_getElem? hmem)) (by decide)
    rw [lineEndAt, drop_zero, hnone, Option.elim_none, length_replicate,
      if_neg fun h => hlast h.2]
  obtain ⟨m, rfl⟩ := Nat.exists_eq_add_one.mpr hpos
  have hstart : lineStartFrom (List.replicate (m + 1) 97) (UInt32.ofNat 0).toNat 0 = some 0 := rfl
  rw [hposition, offsetAt, hstart]
  simp only [hend, length_replicate]
  rw [offsetFrom, if_pos (Nat.succ_pos m), if_pos (UInt32.le_refl _)]

/-- `"a\rb"` -/
def loneReturn : Text := [97, 13, 98]

/-- Behind a lone carriage return, and behind too many letters, an offset does not come back; and
    the text of a change is taken for the whole text. -/
theorem loneReturn_and_range :
    (Boundary loneReturn 3 ∧ lineFeed ∉ loneReturn ∧
      offsetAt loneReturn (positionAt loneReturn 3) ≠ 3) ∧
    offsetAt (List.replicate (2 ^ 32) 97) (positionAt (List.replicate (2 ^ 32) 97) (2 ^ 32)) ≠
      2 ^ 32 ∧
    spliced [97, 98] ⟨0, 1⟩ ⟨0, 1⟩ [120] = [97, 120, 98] ∧
      (((Documents.empty.update mainOnly (.didOpen "file:///main.kry" "ab" 1)).docs.update mainOnly
        (.didChange "file:///main.kry" ["x"] 2)).docs.find "file:///main.kry").map (·.text) =
          some "x" := by
  refine ⟨⟨⟨runes loneReturn, [], ?_, ?_⟩, ?_, ?_⟩, ?_, ?_, ?_⟩
  · decide
  · decide
  · decide
  · decide
  · rw [offsetAt_letters (Nat.two_pow_pos 32) rfl]
    exact (Nat.two_pow_pos 32).ne
  · decide
  · decide

end Kryndel.Lsp.Offsets
