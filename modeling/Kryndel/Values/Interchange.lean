import Kryndel.Values.Collections
import Kryndel.Values.Representation
import Kryndel.Values.Typing

/-!
# Interchangeable keys

The operations of maps see a key only through its comparisons. So they cannot tell two values
that every value is compared with alike, neither as arguments nor as keys that a map has.
-/

namespace Kryndel

open Keyed List

section Keys

variable [FloatArith]

/-- Every value is compared with both alike. -/
def Interchangeable (a b : Value) : Prop := ∀ c, equalValue c a = equalValue c b

/-- Entries with the same values under interchangeable keys. -/
def SameEntries : List MapEntry → List MapEntry → Prop :=
  List.Forall₂ fun e e' => Interchangeable e.1 e'.1 ∧ e.2 = e'.2

/-- Two operations that report the same, or build the same entries. -/
def SameOutcome (m m' : Memory MapEntry)
    (run run' : Option (Except String Slice × Memory MapEntry)) : Prop :=
  (∃ text, ReportsError m run text ∧ ReportsError m' run' text) ∨
    ∃ ys ys', BuildsSlice m run ys ∧ BuildsSlice m' run' ys' ∧ SameEntries ys ys'

theorem Interchangeable.refl (a : Value) : Interchangeable a a := fun _ => rfl

theorem Interchangeable.test [BinaryFloats] {a a' k k' : Value} (h : Interchangeable a a')
    (hk : Interchangeable k k') : equalValue a k = equalValue a' k' := by
  rw [hk, equalValue_comm a k', h, equalValue_comm]

section Tables

variable [BinaryFloats] {xs xs' : List MapEntry} {k k' : Value}

theorem SameEntries.any_eq (h : SameEntries xs xs') (hk : Interchangeable k k') :
    (xs.any fun e => equalValue e.1 k) = xs'.any fun e => equalValue e.1 k' := by
  induction h with
  | nil => rfl
  | cons hentry _ ih => rw [any_cons, any_cons, hentry.1.test hk, ih]

theorem SameEntries.find_eq (h : SameEntries xs xs') (hk : Interchangeable k k') :
    find equalValue xs k = find equalValue xs' k' := by
  induction h with
  | nil => rfl
  | cons hentry _ ih => rw [find_cons, find_cons, hentry.1.test hk, hentry.2, ih]

theorem SameEntries.put (h : SameEntries xs xs') (hk : Interchangeable k k') (v : Value) :
    SameEntries (put equalValue xs k v) (put equalValue xs' k' v) := by
  rw [Keyed.put, Keyed.put, h.any_eq hk]
  split
  · rw [SameEntries, forall₂_map_left_iff, forall₂_map_right_iff]
    apply h.imp
    intro e e' hentry
    rw [hentry.1.test hk]
    split
    · exact ⟨hentry.1, rfl⟩
    · exact hentry
  · exact rel_append h (List.Forall₂.cons ⟨hk, rfl⟩ List.Forall₂.nil)

theorem SameEntries.erase (h : SameEntries xs xs') (hk : Interchangeable k k') :
    SameEntries (erase equalValue xs k) (erase equalValue xs' k') := by
  induction h with
  | nil => exact List.Forall₂.nil
  | cons hentry _ ih =>
    rw [Keyed.erase, Keyed.erase, filter_cons, filter_cons, hentry.1.test hk]
    split
    · exact List.Forall₂.cons hentry ih
    · exact ih

theorem no_key_same (xs : List MapEntry) (k : Value) :
    (∀ a ∈ xs.map (·.1), equalValue k a = false) ↔
      (xs.any fun e => equalValue e.1 k) = false := by
  rw [any_eq_false, forall_mem_map]
  apply forall₂_congr
  intro e _
  rw [Bool.not_eq_true, equalValue_comm]

theorem SameEntries.distinct_iff (h : SameEntries xs xs') :
    Distinct equalValue xs ↔ Distinct equalValue xs' := by
  induction h with
  | nil => exact Iff.rfl
  | @cons e e' xs xs' hentry hrest ih =>
    have hall : (∀ a ∈ xs.map (·.1), equalValue e.1 a = false) ↔
        ∀ a ∈ xs'.map (·.1), equalValue e'.1 a = false := by
      rw [no_key_same, no_key_same, SameEntries.any_eq hrest hentry.1]
    rw [Distinct, Distinct, map_cons, map_cons, pairwise_cons, pairwise_cons,
      hall]
    exact and_congr_right fun _ => ih

end Tables

/-! ## Operations -/

section Operations

variable [BinaryFloats] {m m' : Memory MapEntry} {s s' : Slice} {xs xs' : List MapEntry}
  {k k' : Value}

theorem mapLiteral_same (lim : Limits) (m m' : Memory MapEntry) (h : SameEntries xs xs') :
    SameOutcome m m' (mapLiteral lim xs m) (mapLiteral lim xs' m') := by
  have hrun := mapLiteral_run lim m xs
  have hrun' := mapLiteral_run lim m' xs'
  rw [← h.length_eq] at hrun'
  split at hrun
  · rename_i hdup
    rw [if_pos (mt h.distinct_iff.mpr hdup)] at hrun'
    exact Or.inl ⟨_, hrun, hrun'⟩
  · rename_i hdup
    rw [if_neg fun hdup' => hdup (mt h.distinct_iff.mp hdup')] at hrun'
    split at hrun
    · rename_i hbudget
      rw [if_pos hbudget] at hrun'
      exact Or.inl ⟨_, hrun, hrun'⟩
    · rename_i hbudget
      rw [if_neg hbudget] at hrun'
      exact Or.inr ⟨xs, xs', hrun, hrun', h⟩

theorem mapInsert_same (lim : Limits) (hs : m.elements s = some xs)
    (hs' : m'.elements s' = some xs') (h : SameEntries xs xs') (hk : Interchangeable k k')
    (v : Value) : SameOutcome m m' (mapInsert lim s k v m) (mapInsert lim s' k' v m') := by
  have hrun := mapInsert_run lim hs k v
  have hrun' := mapInsert_run lim hs' k' v
  rw [← h.find_eq hk, ← h.length_eq] at hrun'
  split at hrun
  · rename_i hfull
    rw [if_pos hfull] at hrun'
    exact Or.inl ⟨_, hrun, hrun'⟩
  · rename_i hfull
    rw [if_neg hfull] at hrun'
    exact Or.inr ⟨_, _, hrun, hrun', h.put hk v⟩

theorem mapRemove_same (hs : m.elements s = some xs) (hs' : m'.elements s' = some xs')
    (h : SameEntries xs xs') (hk : Interchangeable k k') :
    SameOutcome m m' (mapRemove s k m) (mapRemove s' k' m') :=
  Or.inr ⟨_, _, remove_builds _ hs, remove_builds _ hs', h.erase hk⟩

theorem mapGet_same (hs : m.elements s = some xs) (hs' : m'.elements s' = some xs')
    (h : SameEntries xs xs') (hk : Interchangeable k k') : mapGet m s k = mapGet m' s' k' := by
  rw [mapGet_eq hs, mapGet_eq hs', h.find_eq hk]

theorem mapContainsKey_same (hs : m.elements s = some xs) (hs' : m'.elements s' = some xs')
    (h : SameEntries xs xs') (hk : Interchangeable k k') :
    mapContainsKey m s k = mapContainsKey m' s' k' := by
  rw [mapContainsKey, mapContainsKey, hs, hs', Option.map_some, Option.map_some, h.any_eq hk]

end Operations

end Keys

/-- `Option` around `Int`, some number of times. -/
def nestedOption : Nat → Ty
  | 0 => .int
  | n + 1 => .option (nestedOption n)

/-- `struct Tag[T] { count: Int }` -/
def tagDecl : StructDecl where
  name := "Tag"
  typeParams := [⟨"T", "", default⟩]
  fields := [{ name := "count", spec := default, type := some .int }]

theorem substituteType_int (σ : TypeParams) : substituteType σ .int = .int := by
  rw [substituteType, substituteTypeAt]
  all_goals simp

end Kryndel
