import Mathlib.Data.List.Lex
import Mathlib.Order.Compare
import Kryndel.CBackend.JsonReader
import Kryndel.Json.SortedTable

/-!
# Objects of the JSON parser in the C runtime

The parser sorts the members of an object by their keys and their places, and keeps the last member
of each key. This is the table that the members make when they come one after the other.
-/

namespace Json

/-- Bytes by their numbers. -/
@[reducible] def byteOrder : LinearOrder UInt8 where
  le_refl := UInt8.le_refl
  le_trans _ _ _ := UInt8.le_trans
  lt_iff_le_not_ge a b := by
    rw [UInt8.not_le]
    exact ⟨fun h => ⟨UInt8.le_of_lt h, h⟩, fun h => h.2⟩
  le_antisymm _ _ := UInt8.le_antisymm
  le_total := UInt8.le_total
  toDecidableLE := inferInstance
  toDecidableEq := inferInstance
  toDecidableLT := inferInstance

/-- Byte strings by their first different bytes; a string comes before those that it begins. -/
scoped instance keyOrder : LinearOrder (List UInt8) :=
  letI := byteOrder
  inferInstance

end Json

namespace Kryndel

open Json SortedTable

/-! ## Keys -/

/-- `k_json_key_index_compare`. -/
def kJsonKeyIndexCompare (s t : List UInt8) : Ordering :=
  let n := min s.length t.length
  (memcmp (s.take n) (t.take n)).then (compare s.length t.length)

theorem kJsonKeyIndexCompare_cons (a b : UInt8) (s t : List UInt8) :
    kJsonKeyIndexCompare (a :: s) (b :: t) =
      (compare a.toNat b.toNat).then (kJsonKeyIndexCompare s t) := by
  have hlength : compare (s.length + 1) (t.length + 1) = compare s.length t.length := by
    simp [compare, compareOfLessAndEq]
  simp [kJsonKeyIndexCompare, memcmp, Ordering.then_assoc, hlength]

theorem kJsonKeyIndexCompare_self (s : List UInt8) : kJsonKeyIndexCompare s s = .eq := by
  induction s with
  | nil => rfl
  | cons a s ih =>
    rw [kJsonKeyIndexCompare_cons, ih, Nat.compare_eq_eq.mpr rfl]
    rfl

theorem kJsonKeyIndexCompare_lt {s t : List UInt8} (h : s < t) :
    kJsonKeyIndexCompare s t = .lt := by
  induction s generalizing t with
  | nil =>
    cases t with
    | nil => exact absurd h (lt_irrefl _)
    | cons b t => rfl
  | cons a s ih =>
    cases t with
    | nil => exact absurd h (List.not_lt_nil _)
    | cons b t =>
      rw [kJsonKeyIndexCompare_cons]
      rcases List.cons_lt_cons_iff.mp h with hless | ⟨rfl, hless⟩
      · rw [Nat.compare_eq_lt.mpr (UInt8.lt_iff_toNat_lt.mp hless)]
        rfl
      · rw [Nat.compare_eq_eq.mpr rfl, ih hless]
        rfl

theorem kJsonKeyIndexCompare_gt {s t : List UInt8} (h : t < s) :
    kJsonKeyIndexCompare s t = .gt := by
  induction s generalizing t with
  | nil => exact absurd h (List.not_lt_nil _)
  | cons a s ih =>
    cases t with
    | nil => rfl
    | cons b t =>
      rw [kJsonKeyIndexCompare_cons]
      rcases List.cons_lt_cons_iff.mp h with hless | ⟨rfl, hless⟩
      · rw [Nat.compare_eq_gt.mpr (UInt8.lt_iff_toNat_lt.mp hless)]
        rfl
      · rw [Nat.compare_eq_eq.mpr rfl, ih hless]
        rfl

theorem kJsonObjectEntryCompare_ne_gt (a b : KJsonObjectEntry) :
    kJsonObjectEntryCompare a b ≠ .gt ↔ a.1 < b.1 ∨ a.1 = b.1 ∧ a.2.2 ≤ b.2.2 := by
  have hkeys : kJsonObjectEntryCompare a b =
      (kJsonKeyIndexCompare a.1 b.1).then (compare a.2.2 b.2.2) := by
    rw [kJsonKeyIndexCompare, Ordering.then_assoc]
    rfl
  rw [hkeys]
  rcases lt_trichotomy a.1 b.1 with h | h | h
  · simp [kJsonKeyIndexCompare_lt h, h]
  · rw [h, kJsonKeyIndexCompare_self, Ordering.eq_then, Nat.compare_ne_gt]
    simp
  · simp [kJsonKeyIndexCompare_gt h, h.not_gt, h.ne']

/-! ## Members -/

variable {members : List (List UInt8 × JsonData)} {entries : List KJsonObjectEntry}

/-- The members, without their places. -/
def withoutOrder (entries : List KJsonObjectEntry) : List (List UInt8 × JsonData) :=
  entries.map fun entry => (entry.1, entry.2.1)

theorem withoutOrder_withOrder (n : Nat) (members : List (List UInt8 × JsonData)) :
    withoutOrder (withOrder n members) = members := by
  induction members generalizing n with
  | nil => rfl
  | cons entry members ih =>
    show (entry.1, entry.2) :: withoutOrder (withOrder (n + 1) members) = _
    rw [ih]

theorem le_of_mem_withOrder {n : Nat} {entry : KJsonObjectEntry}
    (h : entry ∈ withOrder n members) : n ≤ entry.2.2 := by
  induction members generalizing n with
  | nil => cases h
  | cons member members ih =>
    rcases List.mem_cons.mp h with rfl | h
    · exact Nat.le_refl n
    · exact Nat.le_of_succ_le (ih h)

theorem pairwise_withOrder (n : Nat) (members : List (List UInt8 × JsonData)) :
    (withOrder n members).Pairwise fun e f =>
      ¬ kJsonObjectEntryCompare e f ≠ .gt → e.1 ≠ f.1 := by
  induction members generalizing n with
  | nil => exact .nil
  | cons member members ih =>
    refine List.pairwise_cons.mpr ⟨?_, ih (n + 1)⟩
    intro entry hentry hgt hkey
    apply hgt
    have hplace : n + 1 ≤ entry.2.2 := le_of_mem_withOrder hentry
    exact (kJsonObjectEntryCompare_ne_gt _ _).mpr (.inr ⟨hkey, Nat.le_of_succ_le hplace⟩)

theorem kUnique_eq {out : List (List UInt8 × JsonData)}
    (hsorted : entries.Pairwise fun e f => e.1 < f.1 ∨ e.1 = f.1)
    (hout : ∀ kept ∈ out, ∀ entry ∈ entries, kept.1 < entry.1 ∨ kept.1 = entry.1)
    (hincreasing : Increasing out.reverse) :
    kUnique out entries = insertEach out.reverse (withoutOrder entries) := by
  induction entries generalizing out with
  | nil => rfl
  | cons entry entries ih =>
    obtain ⟨key, value, place⟩ := entry
    obtain ⟨hfirst, hrest⟩ := List.pairwise_cons.mp hsorted
    show _ = insertEach (SortedTable.insert (key, value) out.reverse) (withoutOrder entries)
    cases out with
    | nil =>
      refine ih hrest ?_ (List.pairwise_singleton _ _)
      intro kept hkept entry hentry
      obtain rfl := List.mem_singleton.mp hkept
      exact hfirst entry hentry
    | cons last out =>
      obtain ⟨last, value'⟩ := last
      rw [List.reverse_cons] at hincreasing ⊢
      obtain ⟨hout', hless⟩ := (increasing_concat _ _).mp hincreasing
      have hlast : last < key ∨ last = key := hout _ List.mem_cons_self _ List.mem_cons_self
      rw [kUnique]
      split
      · next hkey =>
        subst hkey
        have hplace : SortedTable.insert (last, value) (out.reverse ++ [(last, value')]) =
            out.reverse ++ [(last, value)] := insert_last hless rfl
        rw [hplace, ← List.reverse_cons]
        refine ih hrest ?_ ?_
        · intro kept hkept entry hentry
          rcases List.mem_cons.mp hkept with rfl | hkept
          · exact hfirst entry hentry
          · exact hout _ (List.mem_cons_of_mem _ hkept) entry (List.mem_cons_of_mem _ hentry)
        · rw [List.reverse_cons]
          exact (increasing_concat _ _).mpr ⟨hout', hless⟩
      · next hkey =>
        have hnew : last < key := hlast.resolve_right hkey
        have hall : ∀ kept ∈ out.reverse ++ [(last, value')], kept.1 < key := by
          intro kept hkept
          rcases List.mem_append.mp hkept with hkept | hkept
          · exact (hless kept hkept).trans hnew
          · obtain rfl := List.mem_singleton.mp hkept
            exact hnew
        rw [insert_greatest hall, ← List.reverse_cons, ← List.reverse_cons]
        refine ih hrest ?_ ?_
        · intro kept hkept entry hentry
          rcases List.mem_cons.mp hkept with rfl | hkept
          · exact hfirst entry hentry
          · exact hout _ hkept entry (List.mem_cons_of_mem _ hentry)
        · rw [List.reverse_cons, List.reverse_cons]
          exact (increasing_concat _ _).mpr ⟨hincreasing, hall⟩

theorem kObject_eq (members : List (List UInt8 × JsonData)) :
    kObject members = .object (insertEach [] members) := by
  have htotal : Std.Total fun a b : KJsonObjectEntry => kJsonObjectEntryCompare a b ≠ .gt := by
    refine ⟨fun a b => ?_⟩
    rw [kJsonObjectEntryCompare_ne_gt, kJsonObjectEntryCompare_ne_gt]
    rcases lt_trichotomy a.1 b.1 with h | h | h
    · exact .inl (.inl h)
    · rcases Nat.le_total a.2.2 b.2.2 with hplace | hplace
      · exact .inl (.inr ⟨h, hplace⟩)
      · exact .inr (.inr ⟨h.symm, hplace⟩)
    · exact .inr (.inl h)
  have htrans : IsTrans KJsonObjectEntry fun a b => kJsonObjectEntryCompare a b ≠ .gt := by
    refine ⟨fun a b c => ?_⟩
    simp only [kJsonObjectEntryCompare_ne_gt]
    rintro (hab | ⟨hab, hplace⟩) (hbc | ⟨hbc, hplace'⟩)
    · exact .inl (hab.trans hbc)
    · exact .inl (hbc ▸ hab)
    · exact .inl (hab ▸ hbc)
    · exact .inr ⟨hab.trans hbc, hplace.trans hplace'⟩
  have hsorted := List.pairwise_insertionSort
    (fun a b : KJsonObjectEntry => kJsonObjectEntryCompare a b ≠ .gt) (withOrder 0 members)
  have hkeys := hsorted.imp fun {a b} h =>
    ((kJsonObjectEntryCompare_ne_gt a b).mp h).imp_right And.left
  have hunique := @kUnique_eq _ [] hkeys (fun _ h => by cases h) List.Pairwise.nil
  rw [kObject, hunique, List.reverse_nil]
  have htable := insertEach_insertionSort (pairwise_withOrder 0 members) []
  have hdrop (entries : List KJsonObjectEntry) :
      insertEach [] (withoutOrder entries) = withoutOrder (insertEach [] entries) :=
    (map_insertEach Prod.fst [] entries).symm
  rw [hdrop, htable, ← hdrop, withoutOrder_withOrder]

end Kryndel
