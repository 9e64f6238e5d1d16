import Mathlib.Algebra.Ring.Int.Defs
import Mathlib.Algebra.Ring.Nat
import Kryndel.Systems.Slices
import Kryndel.Values.Value

/-!
# Slicing

The slice operations on strings, by code points, and on arrays. The arguments are any
64-bit integers. What the machine computes with them is compared with what they mean
over the integers (`sliceStart`), and an access outside of the sequence is `none`.
-/

namespace Kryndel

open Systems

/-! ## The operations -/

/-- `normalizeSliceIndex`. -/
def normalizeSliceIndex (i length : Int64) : Int64 :=
  let i := if i < 0 then i + length else i
  if i < 0 then 0
  else if i > length then length
  else i

/-- The bounds that `stringSlice` and `arraySliceRange` compute. -/
def sliceBounds (start stop length : Int64) : Int64 × Int64 :=
  let start := normalizeSliceIndex start length
  let stop := normalizeSliceIndex stop length
  if stop < start then (start, start) else (start, stop)

/-- `stringSlice`. -/
def stringSlice (s : String) (start stop : Int64) : Option Value :=
  let rs := s.toList
  let (start, stop) := sliceBounds start stop (.ofNat rs.length)
  (sliceRange rs start.toInt stop.toInt).map fun part => .result true (.string (.ofList part))

/-- `make([]Value, n)`. -/
def makeValues (n : Int) : Option (List Value) :=
  if 0 ≤ n then some (.replicate n.toNat .nil) else none

/-- `arraySliceRange`. -/
def arraySliceRange (items : List Value) (start stop : Int64) : Option Value := do
  let (start, stop) := sliceBounds start stop (.ofNat items.length)
  let out ← makeValues (stop - start).toInt
  let part ← sliceRange items start.toInt stop.toInt
  let out ← copyOver out 0 part
  return .array out

/-- `substring`. -/
def substring (s : String) (start n : Int64) : Option Value :=
  let rs := s.toList
  let length := Int64.ofNat rs.length
  if start < 0 ∨ n < 0 ∨ start > length ∨ n > length - start then
    some (.result false (.string "substring range is out of bounds"))
  else
    (sliceRange rs start.toInt (start + n).toInt).map fun part =>
      .result true (.string (.ofList part))

/-- The case `array_slice` of `evalBuiltin`. -/
def arraySlice (items : List Value) (start n : Int64) : Option (Except String Value) :=
  let length := Int64.ofNat items.length
  if start < 0 ∨ n < 0 ∨ start > length ∨ n > length - start then
    some (.error "array slice range is out of bounds")
  else
    (sliceRange items start.toInt (start + n).toInt).map fun part => .ok (.array part)

/-! ## What the arguments denote -/

/-- The index that an argument denotes in a sequence: a negative one counts from the end,
    and one outside of the sequence is its nearest end. -/
def sliceIndex (i : Int64) (length : Nat) : Nat :=
  if i.toInt < 0 then (i.toInt + length).toNat else min i.toInt.toNat length

/-- The elements `i` with `start ≤ i < stop`, in order. -/
def elementsBetween {α : Type} (xs : List α) (start stop : Nat) : List α :=
  (xs.take stop).drop start

variable {α : Type}

variable (xs : List α)

theorem getElem?_elementsBetween (start stop i : Nat) :
    (elementsBetween xs start stop)[i]? = if start + i < stop then xs[start + i]? else none := by
  rw [elementsBetween, List.getElem?_drop, List.getElem?_take]

theorem sliceIndex_le (i : Int64) (length : Nat) : sliceIndex i length ≤ length := by
  rw [sliceIndex]
  split
  · omega
  · omega

/-! ## Machine arithmetic -/

section Machine

variable {length : Nat}

theorem zero_toInt : (0 : Int64).toInt = 0 := rfl

theorem toInt_add_of_fits {a b : Int64} (hlow : -2 ^ 63 ≤ a.toInt + b.toInt)
    (hhigh : a.toInt + b.toInt < 2 ^ 63) : (a + b).toInt = a.toInt + b.toInt := by
  rw [Int64.toInt_add, Int.bmod_def]
  omega

theorem toInt_sub_of_fits {a b : Int64} (hlow : -2 ^ 63 ≤ a.toInt - b.toInt)
    (hhigh : a.toInt - b.toInt < 2 ^ 63) : (a - b).toInt = a.toInt - b.toInt := by
  rw [Int64.toInt_sub, Int.bmod_def]
  omega

theorem normalizeSliceIndex_sum (hlen : length < 2 ^ 63) {i : Int64} (hi : i < 0) :
    (i + .ofNat length).toInt = i.toInt + length := by
  have hn : (Int64.ofNat length).toInt = length := Int64.toInt_ofNat_of_lt hlen
  have hlow := Int64.le_toInt i
  rw [Int64.lt_iff_toInt_lt, zero_toInt] at hi
  rw [toInt_add_of_fits (by omega) (by omega), hn]

theorem toInt_normalizeSliceIndex (hlen : length < 2 ^ 63) (i : Int64) :
    (normalizeSliceIndex i (.ofNat length)).toInt = sliceIndex i length := by
  have hn : (Int64.ofNat length).toInt = length := Int64.toInt_ofNat_of_lt hlen
  simp only [normalizeSliceIndex, sliceIndex]
  by_cases hneg : i < 0
  · have hsum := normalizeSliceIndex_sum hlen hneg
    rw [Int64.lt_iff_toInt_lt, zero_toInt] at hneg
    simp only [Int64.lt_iff_toInt_lt, gt_iff_lt, hsum, hn, zero_toInt, if_pos hneg]
    split
    · rw [zero_toInt]
      omega
    · rw [if_neg (by omega), hsum]
      omega
  · rw [if_neg hneg, if_neg hneg]
    rw [Int64.lt_iff_toInt_lt, zero_toInt] at hneg
    simp only [Int64.lt_iff_toInt_lt, gt_iff_lt, hn, if_neg hneg]
    split
    · rw [hn]
      omega
    · omega

theorem sliceBounds_eq (hlen : length < 2 ^ 63) (start stop : Int64) :
    (sliceBounds start stop (.ofNat length)).1.toInt = sliceIndex start length ∧
    (sliceBounds start stop (.ofNat length)).2.toInt =
      max (sliceIndex start length) (sliceIndex stop length) := by
  have hstart := toInt_normalizeSliceIndex hlen start
  have hstop := toInt_normalizeSliceIndex hlen stop
  simp only [sliceBounds, Int64.lt_iff_toInt_lt, hstart, hstop]
  split
  · exact ⟨hstart, by rw [hstart]; omega⟩
  · exact ⟨hstart, by rw [hstop]; omega⟩

theorem sliceRange_between {low high : Int} {start stop : Nat} (hlow : low = start)
    (hhigh : high = stop) (hle : start ≤ stop) (hin : stop ≤ xs.length) :
    sliceRange xs low high = some (elementsBetween xs start stop) := by
  have hguard : (0 : Int) ≤ low ∧ low ≤ high ∧ high ≤ xs.length := by omega
  rw [sliceRange, if_pos hguard, hlow, hhigh]
  rfl

theorem elementsBetween_max (start stop : Nat) :
    elementsBetween xs start (max start stop) = elementsBetween xs start stop := by
  apply List.ext_getElem?
  intro i
  rw [getElem?_elementsBetween, getElem?_elementsBetween]
  by_cases h : start + i < stop
  · rw [if_pos h, if_pos (by omega)]
  · rw [if_neg h, if_neg (by omega)]

theorem sliceRange_bounds (hlen : xs.length < 2 ^ 63) (start stop : Int64) :
    sliceRange xs (sliceBounds start stop (.ofNat xs.length)).1.toInt
        (sliceBounds start stop (.ofNat xs.length)).2.toInt =
      some (elementsBetween xs (sliceIndex start xs.length) (sliceIndex stop xs.length)) := by
  obtain ⟨hstart, hstop⟩ := sliceBounds_eq hlen start stop
  have hle := sliceIndex_le start xs.length
  have hle' := sliceIndex_le stop xs.length
  rw [← elementsBetween_max]
  apply sliceRange_between xs hstart
  · exact hstop
  · exact Nat.le_max_left _ _
  · exact Nat.max_le.mpr ⟨hle, hle'⟩

theorem countGuard_iff (hlen : length < 2 ^ 63) (start n : Int64) :
    ¬ (start < 0 ∨ n < 0 ∨ start > .ofNat length ∨ n > .ofNat length - start) ↔
      0 ≤ start.toInt ∧ 0 ≤ n.toInt ∧ start.toInt + n.toInt ≤ length := by
  have hlength : (Int64.ofNat length).toInt = length := Int64.toInt_ofNat_of_lt hlen
  have hhigh := Int64.toInt_lt start
  simp only [Int64.lt_iff_toInt_lt, gt_iff_lt, zero_toInt, hlength]
  by_cases hneg : start.toInt < 0
  · omega
  · have hdiff : (Int64.ofNat length - start).toInt = length - start.toInt := by
      rw [toInt_sub_of_fits (by omega) (by omega), hlength]
    omega

theorem countEnd_eq (hlen : length < 2 ^ 63) {start n : Int64}
    (h : 0 ≤ start.toInt ∧ 0 ≤ n.toInt ∧ start.toInt + n.toInt ≤ length) :
    (start + n).toInt = start.toInt + n.toInt :=
  toInt_add_of_fits (by omega) (by omega)

end Machine

/-! ## The operations give the elements between the indices -/

section Operations

theorem stringSlice_eq {s : String} (hlen : s.toList.length < 2 ^ 63) (start stop : Int64) :
    stringSlice s start stop = some (.result true (.string (.ofList
      (elementsBetween s.toList (sliceIndex start s.toList.length)
        (sliceIndex stop s.toList.length))))) := by
  simp only [stringSlice]
  rw [sliceRange_bounds s.toList hlen start stop, Option.map_some]

theorem copyOver_replicate (part : List Value) (n : Nat) (hn : part.length = n) (filler : Value) :
    copyOver (List.replicate n filler) 0 part = some part := by
  have hguard : (0 : Int) ≤ 0 ∧ (0 : Int) ≤ (List.replicate n filler).length := by omega
  rw [copyOver, if_pos hguard]
  simp [← hn]

theorem arraySliceRange_eq {items : List Value} (hlen : items.length < 2 ^ 63)
    (start stop : Int64) :
    arraySliceRange items start stop = some (.array
      (elementsBetween items (sliceIndex start items.length)
        (sliceIndex stop items.length))) := by
  obtain ⟨hstart, hstop⟩ := sliceBounds_eq hlen start stop
  have hle' := sliceIndex_le stop items.length
  -- the length of the new array does not overflow either
  have hdiff : ((sliceBounds start stop (.ofNat items.length)).2 -
      (sliceBounds start stop (.ofNat items.length)).1).toInt =
      (max (sliceIndex start items.length) (sliceIndex stop items.length) : Nat) -
        (sliceIndex start items.length : Int) := by
    rw [toInt_sub_of_fits (by omega) (by omega), hstart, hstop]
  have hcount : ((max (sliceIndex start items.length) (sliceIndex stop items.length) : Nat) -
      (sliceIndex start items.length : Int)).toNat =
      sliceIndex stop items.length - sliceIndex start items.length := by omega
  have hmake : makeValues ((sliceBounds start stop (.ofNat items.length)).2 -
      (sliceBounds start stop (.ofNat items.length)).1).toInt =
      some (.replicate (sliceIndex stop items.length - sliceIndex start items.length) .nil) := by
    rw [hdiff, makeValues, if_pos (by omega), hcount]
  simp only [arraySliceRange, hmake, sliceRange_bounds items hlen start stop,
    Option.bind_eq_bind, Option.bind_some]
  rw [copyOver_replicate]
  · rfl
  · rw [elementsBetween, List.length_drop, List.length_take]
    omega

/-- What a start and a number of elements denote: a range inside of the sequence. -/
def InRange (start n : Int64) (length : Nat) : Prop :=
  0 ≤ start.toInt ∧ 0 ≤ n.toInt ∧ start.toInt + n.toInt ≤ length

instance (start n : Int64) (length : Nat) : Decidable (InRange start n length) :=
  inferInstanceAs (Decidable (_ ∧ _ ∧ _))

theorem sliceRange_count (hlen : xs.length < 2 ^ 63) {start n : Int64}
    (h : InRange start n xs.length) :
    sliceRange xs start.toInt (start + n).toInt =
      some (elementsBetween xs start.toInt.toNat (start.toInt.toNat + n.toInt.toNat)) := by
  have hsum := countEnd_eq hlen h
  obtain ⟨hstart, hn, hin⟩ := h
  apply sliceRange_between xs
  all_goals omega

theorem substring_eq {s : String} (hlen : s.toList.length < 2 ^ 63) (start n : Int64) :
    substring s start n = some (
      if InRange start n s.toList.length then
        .result true (.string (.ofList (elementsBetween s.toList start.toInt.toNat
          (start.toInt.toNat + n.toInt.toNat))))
      else .result false (.string "substring range is out of bounds")) := by
  have hguard := countGuard_iff hlen start n
  by_cases hin : InRange start n s.toList.length
  · rw [if_pos hin, substring]
    simp only [if_neg (hguard.mpr hin), sliceRange_count s.toList hlen hin, Option.map_some]
  · rw [if_neg hin, substring]
    simp only [if_pos (Decidable.not_not.mp (mt hguard.mp hin))]

theorem arraySlice_eq {items : List Value} (hlen : items.length < 2 ^ 63) (start n : Int64) :
    arraySlice items start n = some (
      if InRange start n items.length then
        .ok (.array (elementsBetween items start.toInt.toNat
          (start.toInt.toNat + n.toInt.toNat)))
      else .error "array slice range is out of bounds") := by
  have hguard := countGuard_iff hlen start n
  by_cases hin : InRange start n items.length
  · rw [if_pos hin, arraySlice]
    simp only [if_neg (hguard.mpr hin), sliceRange_count items hlen hin, Option.map_some]
  · rw [if_neg hin, arraySlice]
    simp only [if_pos (Decidable.not_not.mp (mt hguard.mp hin))]

end Operations

/-- For all arguments the slice operations stay inside of the sequence, whose length is a
    machine integer, and give the elements between the indices in order. -/
theorem slicing_exact :
    (∀ s : String, s.toList.length < 2 ^ 63 → ∀ start stop : Int64,
      stringSlice s start stop = some (.result true (.string (.ofList
        (elementsBetween s.toList (sliceIndex start s.toList.length)
          (sliceIndex stop s.toList.length))))) ∧
      substring s start stop = some (
        if InRange start stop s.toList.length then
          .result true (.string (.ofList (elementsBetween s.toList start.toInt.toNat
            (start.toInt.toNat + stop.toInt.toNat))))
        else .result false (.string "substring range is out of bounds"))) ∧
    (∀ items : List Value, items.length < 2 ^ 63 → ∀ start stop : Int64,
      arraySliceRange items start stop = some (.array
        (elementsBetween items (sliceIndex start items.length)
          (sliceIndex stop items.length))) ∧
      arraySlice items start stop = some (
        if InRange start stop items.length then
          .ok (.array (elementsBetween items start.toInt.toNat
            (start.toInt.toNat + stop.toInt.toNat)))
        else .error "array slice range is out of bounds")) ∧
    (∀ (length : Nat) (i : Int64), length < 2 ^ 63 →
      (normalizeSliceIndex i (.ofNat length)).toInt = sliceIndex i length ∧
      (i < 0 → (i + .ofNat length).toInt = i.toInt + length)) ∧
    (∀ {α : Type} (xs : List α), xs.length < 2 ^ 63 → ∀ start stop : Int64,
      sliceRange xs (sliceBounds start stop (.ofNat xs.length)).1.toInt
          (sliceBounds start stop (.ofNat xs.length)).2.toInt =
        some (elementsBetween xs (sliceIndex start xs.length) (sliceIndex stop xs.length))) ∧
    ∀ {α : Type} (xs : List α) (start stop i : Nat),
      (elementsBetween xs start stop)[i]? =
        if start + i < stop then xs[start + i]? else none := by
  refine ⟨?_, ?_, ?_, ?_, ?_⟩
  · intro s hlen start stop
    exact ⟨stringSlice_eq hlen start stop, substring_eq hlen start stop⟩
  · intro items hlen start stop
    exact ⟨arraySliceRange_eq hlen start stop, arraySlice_eq hlen start stop⟩
  · intro length i hlen
    exact ⟨toInt_normalizeSliceIndex hlen i, fun hi => normalizeSliceIndex_sum hlen hi⟩
  · intro α xs hlen start stop
    exact sliceRange_bounds xs hlen start stop
  · intro α xs start stop i
    exact getElem?_elementsBetween xs start stop i

/-- The last two letters of a word, and an end before the start. -/
theorem slicing_word :
    (stringSlice "abc" (-2) 3 = some (.result true (.string (.ofList
        (elementsBetween "abc".toList (sliceIndex (-2) "abc".toList.length)
          (sliceIndex 3 "abc".toList.length))))) ∧
      substring "abc" (-2) 3 = some (
        if InRange (-2) 3 "abc".toList.length then
          .result true (.string (.ofList (elementsBetween "abc".toList (-2 : Int64).toInt.toNat
            ((-2 : Int64).toInt.toNat + (3 : Int64).toInt.toNat))))
        else .result false (.string "substring range is out of bounds"))) ∧
    (arraySliceRange [.nil] minInt64 maxInt64 = some (.array
        (elementsBetween [.nil] (sliceIndex minInt64 1) (sliceIndex maxInt64 1))) ∧
      arraySlice [.nil] minInt64 maxInt64 = some (
        if InRange minInt64 maxInt64 1 then
          .ok (.array (elementsBetween [.nil] minInt64.toInt.toNat
            (minInt64.toInt.toNat + maxInt64.toInt.toNat)))
        else .error "array slice range is out of bounds")) ∧
    ((normalizeSliceIndex minInt64 (.ofNat 3)).toInt = sliceIndex minInt64 3 ∧
      (minInt64 < 0 → (minInt64 + .ofNat 3).toInt = minInt64.toInt + (3 : Nat))) ∧
    sliceRange [true] (sliceBounds (-1) 9 (.ofNat 1)).1.toInt
        (sliceBounds (-1) 9 (.ofNat 1)).2.toInt =
      some (elementsBetween [true] (sliceIndex (-1) 1) (sliceIndex 9 1)) :=
  ⟨slicing_exact.1 "abc" (by decide) (-2) 3,
   slicing_exact.2.1 [.nil] (by decide) minInt64 maxInt64,
   slicing_exact.2.2.1 3 minInt64 (by decide),
   slicing_exact.2.2.2.1 [true] (by decide) (-1) 9⟩

end Kryndel
