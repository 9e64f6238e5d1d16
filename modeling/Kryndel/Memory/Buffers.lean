import Mathlib.Data.List.Basic

/-!
# Buffers

Code that fills arrays in place, through slices that may share them. Appending to a slice writes
into its array where there is room, and otherwise into a new one.
-/

namespace Kryndel.Buffers

open List

/-- The arrays that were made. -/
abbrev Arrays (α : Type) := List (List α)

/-- A slice from the start of an array. The nil slice has no array. -/
structure Buffer where
  array : Option Nat
  length : Nat
deriving DecidableEq, Repr

/-- The nil slice. -/
def Buffer.nil : Buffer := ⟨none, 0⟩

/-- Code that reads and writes arrays, and may panic. -/
abbrev BufferM (α : Type) := StateT (Arrays α) Option

variable {α : Type}

/-- The array of a slice, to the end of its capacity. -/
def backing (h : Arrays α) (s : Buffer) : List α :=
  (s.array.bind fun a => h[a]?).getD []

/-- The elements of a slice. -/
def elements (h : Arrays α) (s : Buffer) : List α :=
  (backing h s).take s.length

/-- The array of a slice is overwritten. -/
def store (h : Arrays α) (s : Buffer) (values : List α) : Arrays α :=
  s.array.elim h fun a => h.set a values

/-! ## Operations -/

/-- A new array, all of which is in the slice. -/
def alloc (values : List α) : BufferM α Buffer := fun h =>
  some (⟨some h.length, values.length⟩, h ++ [values])

/-- `s[j]`. -/
def load (s : Buffer) (j : Nat) : BufferM α α := fun h =>
  ((elements h s)[j]?).map fun x => (x, h)

/-- `s[j] = value`. -/
def assign (s : Buffer) (j : Nat) (value : α) : BufferM α Unit := fun h =>
  if j < (elements h s).length then some ((), store h s ((backing h s).set j value)) else none

/-- `copy(target, source)`. -/
def copy (target source : Buffer) : BufferM α Unit := fun h =>
  let moved := (elements h source).take target.length
  some ((), store h target (moved ++ (backing h target).drop moved.length))

/-- `s[:length]`. -/
def reslice (s : Buffer) (length : Nat) : BufferM α Buffer := fun h =>
  if length ≤ (backing h s).length then some (⟨s.array, length⟩, h) else none

/-- `append(s, data...)`, where a new array of some length has elements to spare. -/
def append (spare : Nat → List α) (s : Buffer) (data : List α) : BufferM α Buffer := fun h =>
  let length := s.length + data.length
  if length ≤ (backing h s).length then
    some (⟨s.array, length⟩, store h s (elements h s ++ data ++ (backing h s).drop length))
  else
    some (⟨some h.length, length⟩, h ++ [elements h s ++ data ++ spare length])

/-- `for j := range target { target[j] = f(target[j], source[j]) }`, from an index on. -/
def combineFrom (f : α → α → α) (target source : Buffer) : Nat → Nat → BufferM α Unit
  | _, 0 => pure ()
  | j, n + 1 => do
    let x ← load target j
    let y ← load source j
    assign target j (f x y)
    combineFrom f target source (j + 1) n

/-- The loop over all of a slice. -/
def combine (f : α → α → α) (target source : Buffer) : BufferM α Unit :=
  combineFrom f target source 0 target.length

/-! ## Running them -/

section Running

variable {h h' : Arrays α} {β γ : Type}

theorem bind_run {m : BufferM α β} {k : β → BufferM α γ} {b : β} (hm : m h = some (b, h')) :
    (m >>= k) h = k b h' := by
  show (m h).bind (fun p => k p.1 p.2) = _
  rw [hm]
  rfl

theorem get_run : (get : BufferM α (Arrays α)) h = some (h, h) := rfl

theorem pure_run (b : β) : (pure b : BufferM α β) h = some (b, h) := rfl

theorem alloc_run (values : List α) :
    alloc values h = some (⟨some h.length, values.length⟩, h ++ [values]) := rfl

variable {a length : Nat} {values : List α}

theorem backing_eq (hvalues : h[a]? = some values) : backing h ⟨some a, length⟩ = values := by
  simp [backing, hvalues]

theorem elements_eq (hvalues : h[a]? = some values) :
    elements h ⟨some a, length⟩ = values.take length := by
  rw [elements, backing_eq hvalues]

theorem load_run (hvalues : h[a]? = some values) {j : Nat} (hj : j < length) {x : α}
    (hx : values[j]? = some x) : load ⟨some a, length⟩ j h = some (x, h) := by
  rw [load, elements_eq hvalues, getElem?_take_of_lt hj, hx]
  rfl

theorem assign_run (hvalues : h[a]? = some values) {j : Nat} (hj : j < length)
    (hlength : length ≤ values.length) (value : α) :
    assign ⟨some a, length⟩ j value h = some ((), h.set a (values.set j value)) := by
  have helements : j < (elements h ⟨some a, length⟩).length := by
    rw [elements_eq hvalues, length_take]
    omega
  rw [assign, if_pos helements, backing_eq hvalues]
  rfl

variable {spare : Nat → List α}

theorem append_fits (hvalues : h[a]? = some values) {data : List α}
    (hroom : length + data.length ≤ values.length) :
    append spare ⟨some a, length⟩ data h =
      some (⟨some a, length + data.length⟩,
        h.set a (values.take length ++ data ++ values.drop (length + data.length))) := by
  simp only [append, backing_eq hvalues, elements_eq hvalues, if_pos hroom]
  rfl

theorem append_new {s : Buffer} {data : List α}
    (hroom : (backing h s).length < s.length + data.length) :
    append spare s data h = some (⟨some h.length, s.length + data.length⟩,
      h ++ [elements h s ++ data ++ spare (s.length + data.length)]) :=
  if_neg (Nat.not_le.mpr hroom)

theorem copy_run (hvalues : h[a]? = some values) (source : Buffer) :
    copy ⟨some a, length⟩ source h =
      some ((), h.set a ((elements h source).take length ++
        values.drop ((elements h source).take length).length)) := by
  simp only [copy, backing_eq hvalues]
  rfl

/-! ## The loop -/

variable {b : Nat} {others : List α}

theorem combineFrom_run (f : α → α → α) (hab : a ≠ b) (hvalues : h[a]? = some values)
    (hothers : h[b]? = some others) (hlength : length ≤ values.length)
    (hother : length ≤ others.length) {j n : Nat} (hj : j + n = length) :
    combineFrom f ⟨some a, length⟩ ⟨some b, length⟩ j n h =
      some ((), h.set a (values.take j ++ List.zipWith f ((values.drop j).take n)
        (others.drop j) ++ values.drop length)) := by
  induction n generalizing h values j with
  | zero =>
    have hwhole : values.take j ++ values.drop length = values := by
      rw [show j = length from hj, take_append_drop]
    have ha : a < h.length := (List.getElem?_eq_some_iff.mp hvalues).1
    rw [combineFrom, pure_run, take_zero, zipWith_nil_left, append_nil, hwhole,
      ← (List.getElem?_eq_some_iff.mp hvalues).2, set_getElem_self ha]
  | succ n ih =>
    have hx : values[j]? = some values[j] := getElem?_eq_getElem (by omega)
    have hy : others[j]? = some others[j] := getElem?_eq_getElem (by omega)
    have ha : a < h.length := (List.getElem?_eq_some_iff.mp hvalues).1
    have hvalues' : (h.set a (values.set j (f values[j] others[j])))[a]? =
        some (values.set j (f values[j] others[j])) := getElem?_set_self ha
    have hothers' : (h.set a (values.set j (f values[j] others[j])))[b]? = some others := by
      rw [getElem?_set_ne hab, hothers]
    rw [combineFrom, bind_run (load_run hvalues (by omega) hx),
      bind_run (load_run hothers (by omega) hy),
      bind_run (assign_run hvalues (by omega) hlength _),
      ih hvalues' hothers' (by rwa [length_set]) (by omega), set_set]
    -- The element that was written is the first one of the rest.
    have htake : (values.set j (f values[j] others[j])).take (j + 1) =
        values.take j ++ [f values[j] others[j]] := by
      rw [take_add_one, take_set_of_le (Nat.le_refl j),
        getElem?_set_self (by omega)]
      rfl
    have hrest : List.zipWith f ((values.drop j).take (n + 1)) (others.drop j) =
        f values[j] others[j] ::
          List.zipWith f ((values.drop (j + 1)).take n) (others.drop (j + 1)) := by
      rw [drop_eq_getElem_cons (by omega : j < values.length),
        drop_eq_getElem_cons (by omega : j < others.length), take_succ_cons,
        zipWith_cons_cons]
    rw [htake, hrest, drop_set_of_lt (Nat.lt_succ_self j), drop_set_of_lt (by omega)]
    simp

theorem combine_run (f : α → α → α) (hab : a ≠ b) (hvalues : h[a]? = some values)
    (hothers : h[b]? = some others) (hlength : values.length = length)
    (hother : length ≤ others.length) :
    combine f ⟨some a, length⟩ ⟨some b, length⟩ h =
      some ((), h.set a (List.zipWith f values others)) := by
  rw [combine, combineFrom_run f hab hvalues hothers (Nat.le_of_eq hlength.symm) hother
    (Nat.zero_add _), drop_zero, drop_zero, take_zero, nil_append, ← hlength,
    take_length, drop_length, append_nil]

/-! ## What a slice carries -/

/-- A slice carries these elements. -/
structure Carries (h : Arrays α) (s : Buffer) (values : List α) : Prop where
  length : s.length = values.length
  elements : elements h s = values

theorem carries_nil : Carries h .nil ([] : List α) := ⟨rfl, rfl⟩

theorem carries_of_prefix {before after : List α} (hvalues : h[a]? = some (before ++ after)) :
    Carries h ⟨some a, before.length⟩ before :=
  ⟨rfl, by rw [elements_eq hvalues, take_left]⟩

theorem Carries.congr {s : Buffer} (hs : Carries h s values)
    (hsame : ∀ a, s.array = some a → h'[a]? = h[a]?) : Carries h' s values := by
  refine ⟨hs.length, ?_⟩
  rw [← hs.elements, Buffers.elements, Buffers.elements, backing, backing]
  cases harray : s.array with
  | none => rfl
  | some a => rw [Option.bind_some, Option.bind_some, hsame a harray]

theorem Carries.append {s : Buffer} (hs : Carries h s values) (spare : Nat → List α)
    (data : List α) :
    ∃ s' h', append spare s data h = some (s', h') ∧ Carries h' s' (values ++ data) ∧
      h.length ≤ h'.length ∧ (∀ k < h.length, s.array ≠ some k → h'[k]? = h[k]?) ∧
        (s'.array = s.array ∨ s'.array = some h.length ∧ h.length < h'.length) := by
  have hlength : s.length + data.length = (values ++ data).length := by
    rw [length_append, hs.length]
  by_cases hroom : s.length + data.length ≤ (backing h s).length
  · refine ⟨⟨s.array, s.length + data.length⟩, _, if_pos hroom, ⟨hlength, ?_⟩, ?_, ?_, Or.inl rfl⟩
    · rw [hs.elements, Buffers.elements, backing, store]
      cases harray : s.array with
      | none =>
        rw [backing, harray] at hroom
        have hzero : s.length + data.length = 0 := Nat.le_zero.mp hroom
        have hnil : values ++ data = [] := length_eq_zero_iff.mp (hlength ▸ hzero)
        rw [hnil, hzero, take_zero]
      | some a =>
        by_cases ha : a < h.length
        · show (((h.set a _)[a]?).getD []).take (s.length + data.length) = _
          rw [getElem?_set_self ha, Option.getD_some, hlength, take_left]
        · have hout : h[a]? = none := getElem?_eq_none (Nat.not_lt.mp ha)
          rw [backing, harray, Option.bind_some, hout] at hroom
          have hzero : s.length + data.length = 0 := Nat.le_zero.mp hroom
          have hnil : values ++ data = [] := length_eq_zero_iff.mp (hlength ▸ hzero)
          rw [hnil, hzero, take_zero]
    · cases harray : s.array with
      | none =>
        rw [store, harray]
        exact Nat.le_refl _
      | some a =>
        rw [store, harray]
        exact Nat.le_of_eq (length_set ..).symm
    · intro k _ hk
      rw [store]
      cases harray : s.array with
      | none => rfl
      | some a => exact getElem?_set_ne fun h => hk (by rw [harray, h])
  · refine ⟨_, _, append_new (Nat.not_le.mp hroom), ⟨hlength, ?_⟩, ?_, ?_, Or.inr ⟨rfl, ?_⟩⟩
    · rw [elements_eq getElem?_concat_length, hs.elements, hlength, take_left]
    · rw [length_append]
      exact Nat.le_add_right ..
    · intro k hk _
      exact getElem?_append_left hk
    · rw [length_append]
      exact Nat.lt_succ_self _

end Running

end Kryndel.Buffers
