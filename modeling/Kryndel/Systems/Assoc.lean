import Mathlib.Data.List.Basic
import Mathlib.Data.List.Forall2
import Mathlib.Data.List.Nodup
import Mathlib.Data.List.Perm.Basic

/-!
# Tables as lists of pairs

A table that has every key once. What is found under a key can be taken out of it.
-/

namespace Assoc

open List

variable {κ α : Type} [DecidableEq κ] {table : List (κ × α)} {k : κ} {a : α}

theorem mem_of_lookup (h : table.lookup k = some a) : (k, a) ∈ table := by
  obtain ⟨front, rest, rfl, -⟩ := lookup_eq_some_iff.mp h
  simp

theorem lookup_eq_some_iff_mem (hkeys : (table.map (·.1)).Nodup) :
    table.lookup k = some a ↔ (k, a) ∈ table := by
  refine ⟨mem_of_lookup, ?_⟩
  intro hmem
  induction table with
  | nil => cases hmem
  | cons entry table ih =>
    obtain ⟨k', a'⟩ := entry
    rw [map_cons, nodup_cons] at hkeys
    rcases mem_cons.mp hmem with heq | hmem
    · cases heq
      exact lookup_cons_self
    · have hne : k ≠ k' := by
        rintro rfl
        exact hkeys.1 (mem_map.mpr ⟨(k, a), by assumption, rfl⟩)
      rw [lookup_cons, beq_eq_false_iff_ne.mpr hne]
      exact ih hkeys.2 hmem

theorem perm_of_lookup (hkeys : (table.map (·.1)).Nodup) (h : table.lookup k = some a) :
    table.Perm ((k, a) :: table.filter (·.1 != k)) := by
  obtain ⟨front, rest, rfl, hfront⟩ := lookup_eq_some_iff.mp h
  rw [map_append, map_cons] at hkeys
  have hrest : ∀ entry ∈ rest, (entry.1 != k) = true := by
    intro entry hentry
    rw [bne_iff_ne]
    rintro rfl
    have hnot := (nodup_cons.mp (nodup_append.mp hkeys).2.1).1
    exact hnot (mem_map.mpr ⟨entry, hentry, rfl⟩)
  have hfront' : ∀ entry ∈ front, (entry.1 != k) = true := by
    intro entry hentry
    rw [bne_comm]
    simpa using hfront entry hentry
  rw [filter_append, filter_cons_of_neg (by simp), filter_eq_self.mpr hrest,
    filter_eq_self.mpr hfront']
  exact perm_middle

theorem lookup_of_full {entries : List (Nat × α)} {n : Nat}
    (hkeys : (entries.map (·.1)).Nodup) (hlt : ∀ entry ∈ entries, entry.1 < n)
    (hlength : entries.length = n) {i : Nat} (hi : i < n) : ∃ a, entries.lookup i = some a := by
  have hsubset : entries.map (·.1) ⊆ List.range n := by
    intro j hj
    obtain ⟨entry, hentry, rfl⟩ := mem_map.mp hj
    exact mem_range.mpr (hlt entry hentry)
  have hperm : (entries.map (·.1)).Perm (List.range n) := by
    apply (subperm_of_subset hkeys hsubset).perm_of_length_le
    simp [hlength]
  obtain ⟨entry, hentry, rfl⟩ := mem_map.mp (hperm.mem_iff.mpr (mem_range.mpr hi))
  exact ⟨entry.2, (lookup_eq_some_iff_mem hkeys).mpr hentry⟩

theorem mapM_of_forall {β : Type} {f : β → Option α} {keys : List β}
    (h : ∀ key ∈ keys, ∃ a, f key = some a) :
    ∃ found, keys.mapM f = some found ∧ List.Forall₂ (fun key a => f key = some a) keys found := by
  induction keys with
  | nil => exact ⟨[], rfl, List.Forall₂.nil⟩
  | cons key keys ih =>
    obtain ⟨a, ha⟩ := h key mem_cons_self
    obtain ⟨found, hfound, hall⟩ := ih fun other hother => h other (mem_cons_of_mem _ hother)
    refine ⟨a :: found, ?_, List.Forall₂.cons ha hall⟩
    rw [mapM_cons, ha, hfound]
    rfl

end Assoc
