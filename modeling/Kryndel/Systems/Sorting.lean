import Mathlib.Data.List.Sort
import Mathlib.Data.List.TakeWhile

/-!
# Unstable sorting

What a sort that need not be stable may make of a list: any rearrangement in which the keys do
not increase. The first element with some property is then one with the greatest key; which one
it is depends on the sort, unless there is only one.
-/

namespace Sorting

open List

open scoped List

variable {α β : Type} [LinearOrder β]

/-- `output` has the elements of `input`, none behind one with a smaller key. -/
def Descends (key : α → β) (input output : List α) : Prop :=
  output.Perm input ∧ output.Pairwise fun a b => key b ≤ key a

/-- A member with the property `p`; no other one has a greater key. -/
def Greatest (key : α → β) (p : α → Bool) (input : List α) (a : α) : Prop :=
  a ∈ input ∧ p a = true ∧ ∀ b ∈ input, p b = true → key b ≤ key a

section Outcomes

variable {key : α → β} {p : α → Bool} {input input' output : List α} {a b : α}

theorem Greatest.of_perm (h : Greatest key p input a) (hperm : input'.Perm input) :
    Greatest key p input' a :=
  ⟨hperm.mem_iff.mpr h.1, h.2.1, fun b hb => h.2.2 b (hperm.mem_iff.mp hb)⟩

theorem Greatest.key_eq (ha : Greatest key p input a) (hb : Greatest key p input b) :
    key a = key b :=
  le_antisymm (hb.2.2 a ha.1 ha.2.1) (ha.2.2 b hb.1 hb.2.1)

theorem Descends.find?_greatest (h : Descends key input output) (hfind : output.find? p = some a) :
    Greatest key p input a := by
  obtain ⟨hperm, hsorted⟩ := h
  obtain ⟨hp, before, after, rfl, hbefore⟩ := find?_eq_some_iff_append.mp hfind
  refine ⟨hperm.mem_iff.mp (by simp), hp, ?_⟩
  intro b hb hpb
  rw [← hperm.mem_iff] at hb
  rcases mem_append.mp hb with hb | hb
  · -- nothing before it has the property
    have hnot := hbefore b hb
    rw [hpb] at hnot
    cases hnot
  · rcases mem_cons.mp hb with rfl | hb
    · exact le_refl _
    · have hafter := (pairwise_append.mp hsorted).2.1
      exact (pairwise_cons.mp hafter).1 b hb

theorem Greatest.found_first (h : Greatest key p input a) :
    ∃ output, Descends key input output ∧ output.find? p = some a := by
  classical
  obtain ⟨hmem, hp, hgreatest⟩ := h
  -- `a` is inserted before the first one of the others that has no greater key
  let others := (input.erase a).insertionSort fun a b => key b ≤ key a
  have hothers : others.Perm (input.erase a) := perm_insertionSort _ _
  refine ⟨others.orderedInsert (fun a b => key b ≤ key a) a, ⟨?_, ?_⟩, ?_⟩
  · calc others.orderedInsert (fun a b => key b ≤ key a) a
      _ ~ a :: others := perm_orderedInsert _ _ _
      _ ~ a :: input.erase a := hothers.cons a
      _ ~ input := (perm_cons_erase hmem).symm
  · exact List.Pairwise.orderedInsert a _ (pairwise_insertionSort _ _)
  · rw [orderedInsert_eq_take_drop, find?_append, find?_eq_none.mpr, Option.none_or,
      find?_cons_of_pos hp]
    intro b hb hpb
    have hgreater := mem_takeWhile_imp hb
    have hin : b ∈ input :=
      mem_of_mem_erase (hothers.mem_iff.mp ((takeWhile_sublist _).mem hb))
    simp only [decide_eq_true_eq] at hgreater
    exact hgreater (hgreatest b hin hpb)

end Outcomes

/-! ## A sort by insertion -/

section Insertion

variable {key : α → β} {r : α → α → Prop} [DecidableRel r]

variable {s : α → α → Prop}

theorem orderedInsert_congr [DecidableRel s] {a : α} {l : List α} (h : ∀ b ∈ l, r a b ↔ s a b) :
    l.orderedInsert r a = l.orderedInsert s a := by
  induction l with
  | nil => rfl
  | cons b l ih =>
    rw [orderedInsert_cons, orderedInsert_cons,
      ih fun c hc => h c (mem_cons_of_mem _ hc), if_congr (h b mem_cons_self) rfl rfl]

theorem insertionSort_congr [DecidableRel s] {l : List α} (h : ∀ a ∈ l, ∀ b ∈ l, r a b ↔ s a b) :
    l.insertionSort r = l.insertionSort s := by
  induction l with
  | nil => rfl
  | cons a l ih =>
    rw [insertionSort_cons, insertionSort_cons,
      ih fun b hb c hc => h b (mem_cons_of_mem _ hb) c (mem_cons_of_mem _ hc)]
    apply orderedInsert_congr
    intro b hb
    rw [mem_insertionSort] at hb
    exact h a mem_cons_self b (mem_cons_of_mem _ hb)

theorem descends_insertionSort {input : List α}
    (h : ∀ a ∈ input, ∀ b ∈ input, r a b ↔ key b ≤ key a) :
    Descends key input (input.insertionSort r) := by
  rw [insertionSort_congr h]
  exact ⟨perm_insertionSort _ _, pairwise_insertionSort _ _⟩

theorem exists_greatest (key : α → β) {p : α → Bool} {input : List α}
    (h : ∃ a ∈ input, p a = true) : ∃ a, Greatest key p input a := by
  obtain ⟨a, ha, hp⟩ := h
  have hsorted : Descends key input (input.insertionSort fun a b => key b ≤ key a) :=
    descends_insertionSort fun _ _ _ _ => Iff.rfl
  cases hfirst : (input.insertionSort fun a b => key b ≤ key a).find? p with
  | none =>
    have hnot := find?_eq_none.mp hfirst a (hsorted.1.mem_iff.mpr ha)
    exact absurd hp hnot
  | some first => exact ⟨first, hsorted.find?_greatest hfirst⟩

end Insertion

end Sorting
