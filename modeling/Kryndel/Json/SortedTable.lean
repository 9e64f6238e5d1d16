import Mathlib.Data.List.Sort
import Mathlib.Order.Basic

/-!
# Tables in the order of their keys

A table without two entries of one key, kept in the order of the keys, so that there is one list
for each finite map. Entries that come one after the other replace earlier ones of the same key.
To sort the entries first, those of one key in the order in which they came, changes nothing.
-/

namespace SortedTable

open List

variable {κ α β : Type} [LinearOrder κ]

/-- An entry, in place of the one with its key. -/
def insert (entry : κ × α) : List (κ × α) → List (κ × α)
  | [] => [entry]
  | other :: table =>
    if entry.1 < other.1 then entry :: other :: table
    else if entry.1 = other.1 then entry :: table
    else other :: insert entry table

/-- Entries, one after the other. -/
def insertEach (table entries : List (κ × α)) : List (κ × α) :=
  entries.foldl (fun table entry => insert entry table) table

/-- The keys are different and in their order. -/
def Increasing (table : List (κ × α)) : Prop := table.Pairwise fun e f => e.1 < f.1

@[simp] theorem insertEach_nil (table : List (κ × α)) : insertEach table [] = table := rfl

theorem insertEach_cons (table : List (κ × α)) (entry : κ × α) (entries : List (κ × α)) :
    insertEach table (entry :: entries) = insertEach (insert entry table) entries := rfl

/-! ## The order of insertions -/

variable {e f : κ × α}

theorem insert_comm (hne : e.1 ≠ f.1) (table : List (κ × α)) :
    insert e (insert f table) = insert f (insert e table) := by
  induction table with
  | nil =>
    rcases lt_or_gt_of_ne hne with h | h
    · simp [insert, h, h.not_gt, hne.symm]
    · simp [insert, h, h.not_gt, hne]
  | cons other table ih =>
    rcases lt_trichotomy e.1 other.1 with he | he | he <;>
      rcases lt_trichotomy f.1 other.1 with hf | hf | hf
    · rcases lt_or_gt_of_ne hne with h | h
      · simp [insert, he, hf, h, h.not_gt, hne.symm]
      · simp [insert, he, hf, h, h.not_gt, hne]
    · simp [insert, he, hf, he.not_gt, he.ne']
    · have h := he.trans hf
      simp [insert, he, hf.not_gt, hf.ne', h.not_gt, hne.symm]
    · simp [insert, he, hf, hf.not_gt, hf.ne']
    · exact absurd (he.trans hf.symm) hne
    · simp [insert, he, hf.not_gt, hf.ne']
    · have h := hf.trans he
      simp [insert, hf, he.not_gt, he.ne', h.not_gt, hne]
    · simp [insert, hf, he.not_gt, he.ne']
    · simp [insert, he.not_gt, he.ne', hf.not_gt, hf.ne', ih]

variable {entries : List (κ × α)}

variable {r : κ × α → κ × α → Prop}

theorem insertEach_orderedInsert [DecidableRel r] (hr : ∀ f ∈ entries, ¬ r e f → e.1 ≠ f.1)
    (table : List (κ × α)) :
    insertEach table (entries.orderedInsert r e) = insertEach table (e :: entries) := by
  induction entries generalizing table with
  | nil => rfl
  | cons f entries ih =>
    rw [List.orderedInsert]
    split
    · rfl
    · next h =>
      rw [insertEach_cons, ih (fun g hg => hr g (mem_cons_of_mem _ hg)), insertEach_cons,
        insertEach_cons, insertEach_cons, insert_comm (hr f mem_cons_self h)]

theorem insertEach_insertionSort [DecidableRel r]
    (hr : entries.Pairwise fun e f => ¬ r e f → e.1 ≠ f.1) (table : List (κ × α)) :
    insertEach table (entries.insertionSort r) = insertEach table entries := by
  induction entries generalizing table with
  | nil => rfl
  | cons e entries ih =>
    rw [pairwise_cons] at hr
    rw [insertionSort_cons, insertEach_orderedInsert, insertEach_cons, insertEach_cons,
      ih hr.2]
    intro f hf
    exact hr.1 f ((perm_insertionSort r entries).mem_iff.mp hf)

/-! ## Sorted tables -/

variable {table : List (κ × α)}

theorem mem_insert (h : f ∈ insert e table) :
    f = e ∨ f ∈ table := by
  induction table with
  | nil => exact .inl (mem_singleton.mp h)
  | cons other table ih =>
    rw [insert] at h
    split at h
    · exact mem_cons.mp h
    · split at h
      · rcases mem_cons.mp h with h | h
        · exact .inl h
        · exact .inr (mem_cons_of_mem _ h)
      · rcases mem_cons.mp h with rfl | h
        · exact .inr mem_cons_self
        · rcases ih h with h | h
          · exact .inl h
          · exact .inr (mem_cons_of_mem _ h)

theorem Increasing.insert (h : Increasing table) (e : κ × α) :
    Increasing (insert e table) := by
  induction table with
  | nil => exact pairwise_singleton _ _
  | cons other table ih =>
    obtain ⟨hother, htable⟩ := pairwise_cons.mp h
    rw [SortedTable.insert]
    split
    · next hlt =>
      refine pairwise_cons.mpr ⟨?_, h⟩
      intro f hf
      rcases mem_cons.mp hf with rfl | hf
      · exact hlt
      · exact hlt.trans (hother f hf)
    · next hnot =>
      split
      · next heq =>
        refine pairwise_cons.mpr ⟨?_, htable⟩
        intro f hf
        rw [heq]
        exact hother f hf
      · next hne =>
        refine pairwise_cons.mpr ⟨?_, ih htable⟩
        intro f hf
        rcases mem_insert hf with rfl | hf
        · exact lt_of_le_of_ne (not_lt.mp hnot) (Ne.symm hne)
        · exact hother f hf

theorem increasing_insertEach (h : Increasing table) (entries : List (κ × α)) :
    Increasing (insertEach table entries) := by
  induction entries generalizing table with
  | nil => exact h
  | cons e entries ih => exact ih (h.insert e)

theorem mem_insertEach (h : f ∈ insertEach table entries) : f ∈ table ∨ f ∈ entries := by
  induction entries generalizing table with
  | nil => exact .inl h
  | cons e entries ih =>
    rcases ih h with h | h
    · rcases mem_insert h with rfl | h
      · exact .inr mem_cons_self
      · exact .inl h
    · exact .inr (mem_cons_of_mem _ h)

theorem insert_greatest (h : ∀ f ∈ table, f.1 < e.1) :
    insert e table = table ++ [e] := by
  induction table with
  | nil => rfl
  | cons other table ih =>
    have hother := h other mem_cons_self
    rw [insert, if_neg hother.not_gt, if_neg hother.ne', ih fun f hf =>
      h f (mem_cons_of_mem _ hf)]
    rfl

theorem insert_last (h : ∀ g ∈ table, g.1 < e.1) (hkey : e.1 = f.1) :
    insert e (table ++ [f]) = table ++ [e] := by
  induction table with
  | nil => simp [insert, hkey]
  | cons other table ih =>
    have hother := h other mem_cons_self
    rw [cons_append, insert, if_neg hother.not_gt, if_neg hother.ne', ih fun g hg =>
      h g (mem_cons_of_mem _ hg)]
    rfl

theorem increasing_concat (table : List (κ × α)) (e : κ × α) :
    Increasing (table ++ [e]) ↔ Increasing table ∧ ∀ f ∈ table, f.1 < e.1 := by
  simp [Increasing, pairwise_append]

theorem insertEach_append_increasing {table entries : List (κ × α)}
    (h : Increasing (table ++ entries)) : insertEach table entries = table ++ entries := by
  induction entries generalizing table with
  | nil => simp
  | cons e entries ih =>
    have hless : ∀ f ∈ table, f.1 < e.1 := fun f hf =>
      (pairwise_append.mp h).2.2 f hf e mem_cons_self
    rw [insertEach_cons, insert_greatest hless, ih]
    · simp
    · simpa using h

theorem insertEach_increasing (h : Increasing entries) :
    insertEach [] entries = entries := by
  have hall := @insertEach_append_increasing κ α _ [] entries h
  rwa [nil_append] at hall

/-! ## Other values -/

theorem Increasing.map {table : List (κ × α)} (h : Increasing table) (f : α → β) :
    Increasing (table.map fun entry => (entry.1, f entry.2)) := pairwise_map.mpr h

theorem map_insert (f : α → β) (e : κ × α) (table : List (κ × α)) :
    (insert e table).map (fun entry => (entry.1, f entry.2)) =
      insert (e.1, f e.2) (table.map fun entry => (entry.1, f entry.2)) := by
  induction table with
  | nil => rfl
  | cons other table ih =>
    rw [insert, map_cons, insert]
    split
    · rfl
    · split
      · rfl
      · rw [map_cons, ih]

theorem map_insertEach (f : α → β) (table entries : List (κ × α)) :
    (insertEach table entries).map (fun entry => (entry.1, f entry.2)) =
      insertEach (table.map fun entry => (entry.1, f entry.2))
        (entries.map fun entry => (entry.1, f entry.2)) := by
  induction entries generalizing table with
  | nil => rfl
  | cons e entries ih => rw [insertEach_cons, ih, map_insert, map_cons, insertEach_cons]

end SortedTable
