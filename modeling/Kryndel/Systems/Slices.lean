import Mathlib.Data.List.Basic

/-!
# Slices with bounds checks

The slice operations of a language whose indices are checked: an access outside of the
slice is `none`. Indices are integers, so that a negative index is one of the failures.
-/

namespace Systems

open List

variable {α : Type}

/-- `l[i]`. -/
def elementAt (l : List α) (i : Int) : Option α :=
  if 0 ≤ i then l[i.toNat]? else none

/-- `l[i] = a`. -/
def storeAt (l : List α) (i : Int) (a : α) : Option (List α) :=
  if 0 ≤ i ∧ i < l.length then some (l.set i.toNat a) else none

/-- `l[low:high]`. -/
def sliceRange (l : List α) (low high : Int) : Option (List α) :=
  if 0 ≤ low ∧ low ≤ high ∧ high ≤ l.length then some ((l.take high.toNat).drop low.toNat)
  else none

/-- `copy(l[start:], source)`: as much of the source as there is room for. -/
def copyOver (l : List α) (start : Int) (source : List α) : Option (List α) :=
  if 0 ≤ start ∧ start ≤ l.length then
    some (l.take start.toNat ++ source.take (l.length - start.toNat) ++
      l.drop (start.toNat + source.length))
  else none

/-! ## Parts of a slice -/

theorem elementAt_append (before : List α) (a : α) (after : List α) :
    elementAt (before ++ a :: after) before.length = some a := by
  simp [elementAt]

theorem storeAt_append (before : List α) (a b : α) (after : List α) :
    storeAt (before ++ a :: after) before.length b = some (before ++ b :: after) := by
  have hin : (0 : Int) ≤ before.length ∧
      (before.length : Int) < (before ++ a :: after).length := by
    simp only [length_append, length_cons]
    omega
  rw [storeAt, if_pos hin]
  simp

theorem sliceRange_append (before middle after : List α) :
    sliceRange (before ++ middle ++ after) before.length (before.length + middle.length) =
      some middle := by
  have hin : (0 : Int) ≤ before.length ∧ (before.length : Int) ≤ before.length + middle.length ∧
      ((before.length : Int) + middle.length) ≤ (before ++ middle ++ after).length := by
    simp only [length_append]
    omega
  have hhigh : ((before.length : Int) + middle.length).toNat = (before ++ middle).length := by
    simp only [length_append]
    omega
  rw [sliceRange, if_pos hin, hhigh, take_left, Int.toNat_natCast, drop_left]

theorem sliceRange_prefix (before after : List α) :
    sliceRange (before ++ after) 0 before.length = some before := by
  have h := sliceRange_append [] before after
  simpa using h

theorem sliceRange_suffix (before after : List α) :
    sliceRange (before ++ after) before.length (before ++ after).length = some after := by
  have h := sliceRange_append before after []
  simpa using h

/-- Room for an element is made by growing the slice by one and copying what follows one
    place up. -/
theorem openGap (before after : List α) (filler a : α) :
    ((sliceRange (before ++ after ++ [filler]) before.length
        (before ++ after ++ [filler]).length).bind fun rest =>
      (copyOver (before ++ after ++ [filler]) (before.length + 1) rest).bind fun moved =>
        storeAt moved before.length a) = some (before ++ a :: after) := by
  have hrest := sliceRange_suffix before (after ++ [filler])
  rw [← append_assoc] at hrest
  rw [hrest, Option.bind_some]
  have hin : (0 : Int) ≤ (before.length : Int) + 1 ∧
      ((before.length : Int) + 1) ≤ (before ++ after ++ [filler]).length := by
    simp only [length_append, length_singleton]
    omega
  have hstart : ((before.length : Int) + 1).toNat = before.length + 1 := by omega
  rw [copyOver, if_pos hin, hstart, Option.bind_some]
  -- what stays at the gap is the first of the elements that were moved
  obtain ⟨first, others, hfirst⟩ : ∃ first others, after ++ [filler] = first :: others := by
    cases after with
    | nil => exact ⟨filler, [], rfl⟩
    | cons b bs => exact ⟨b, bs ++ [filler], rfl⟩
  have htake : (before ++ after ++ [filler]).take (before.length + 1) = before ++ [first] := by
    rw [append_assoc, hfirst, take_length_add_append]
    simp
  have hroom : (before ++ after ++ [filler]).length - (before.length + 1) = after.length := by
    simp only [length_append, length_singleton]
    omega
  have hdrop : (before ++ after ++ [filler]).drop
      (before.length + 1 + (after ++ [filler]).length) = [] := by
    apply drop_eq_nil_of_le
    simp only [length_append, length_singleton]
    omega
  rw [htake, hroom, hdrop, take_left' rfl, append_nil, append_assoc,
    singleton_append, storeAt_append]

end Systems
