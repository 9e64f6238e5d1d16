import Mathlib.Data.List.Basic

/-!
# Patches

A list is written piece by piece, each piece at a place of its own. What has been written is
there unless a later piece has been written over it, and everything else is as it was.
-/

namespace Patches

open List

variable {α : Type}

/-- Some elements, and where they are written to. -/
structure Patch (α : Type) where
  start : Nat
  content : List α

namespace Patch

/-- Where a patch ends. -/
def stop (p : Patch α) : Nat := p.start + p.content.length

/-- Two patches that do not touch each other. -/
def Apart (p q : Patch α) : Prop := p.stop ≤ q.start ∨ q.stop ≤ p.start

instance (p q : Patch α) : Decidable (p.Apart q) := inferInstanceAs (Decidable (_ ∨ _))

theorem Apart.symm {p q : Patch α} (h : p.Apart q) : q.Apart p := Or.symm h

end Patch

/-- A list with a patch written over it. -/
def put (l : List α) (p : Patch α) : List α := l.take p.start ++ p.content ++ l.drop p.stop

def puts (l : List α) (ps : List (Patch α)) : List α := ps.foldl put l

/-- The elements from a place on, at most so many. -/
def slice (l : List α) (start n : Nat) : List α := (l.drop start).take n

variable {l : List α} {p q : Patch α} {ps : List (Patch α)}

theorem length_put (h : p.stop ≤ l.length) : (put l p).length = l.length := by
  have hstop : p.stop = p.start + p.content.length := rfl
  simp only [put, length_append, length_take, length_drop]
  omega

theorem length_puts (h : ∀ p ∈ ps, p.stop ≤ l.length) : (puts l ps).length = l.length := by
  induction ps generalizing l with
  | nil => rfl
  | cons p ps ih =>
    obtain ⟨hp, hps⟩ := forall_mem_cons.mp h
    have hlength := length_put hp
    exact (ih (fun q hq => hlength ▸ hps q hq)).trans hlength

theorem getElem?_put (h : p.stop ≤ l.length) (i : Nat) :
    (put l p)[i]? = if p.start ≤ i ∧ i < p.stop then p.content[i - p.start]? else l[i]? := by
  have hstop : p.stop = p.start + p.content.length := rfl
  have hstart : (l.take p.start).length = p.start := by
    rw [length_take]
    omega
  rw [put, append_assoc, getElem?_append, hstart]
  by_cases hbefore : i < p.start
  · rw [if_pos hbefore, if_neg (by omega), getElem?_take_of_lt hbefore]
  rw [if_neg hbefore, getElem?_append]
  by_cases hinside : i < p.stop
  · rw [if_pos (by omega), if_pos ⟨Nat.le_of_not_lt hbefore, hinside⟩]
  · rw [if_neg (by omega), if_neg (by omega), getElem?_drop]
    congr 1
    omega

theorem getElem?_slice (start n i : Nat) :
    (slice l start n)[i]? = if i < n then l[start + i]? else none := by
  rw [slice, getElem?_take, getElem?_drop]

theorem slice_put_self (h : p.stop ≤ l.length) :
    slice (put l p) p.start p.content.length = p.content := by
  apply ext_getElem?
  intro i
  have hstop : p.stop = p.start + p.content.length := rfl
  rw [getElem?_slice, getElem?_put h]
  split
  · rw [if_pos (by omega), Nat.add_sub_cancel_left]
  · exact (getElem?_eq_none (by omega)).symm

variable {start n : Nat}

theorem slice_put_of_apart (h : p.stop ≤ l.length) (hapart : start + n ≤ p.start ∨ p.stop ≤ start) :
    slice (put l p) start n = slice l start n := by
  apply ext_getElem?
  intro i
  rw [getElem?_slice, getElem?_slice, getElem?_put h]
  split
  · rw [if_neg (by omega)]
  · rfl

theorem slice_puts_of_apart (h : ∀ p ∈ ps, p.stop ≤ l.length)
    (hapart : ∀ p ∈ ps, start + n ≤ p.start ∨ p.stop ≤ start) :
    slice (puts l ps) start n = slice l start n := by
  induction ps generalizing l with
  | nil => rfl
  | cons p ps ih =>
    obtain ⟨hp, hps⟩ := forall_mem_cons.mp h
    obtain ⟨hapart, haparts⟩ := forall_mem_cons.mp hapart
    have hlength := length_put hp
    exact (ih (fun q hq => hlength ▸ hps q hq) haparts).trans (slice_put_of_apart hp hapart)

theorem slice_puts {before after : List (Patch α)}
    (h : ∀ q ∈ before ++ p :: after, q.stop ≤ l.length) (hapart : ∀ q ∈ after, p.Apart q) :
    slice (puts l (before ++ p :: after)) p.start p.content.length = p.content := by
  obtain ⟨hbefore, hrest⟩ := forall_mem_append.mp h
  obtain ⟨hp, hafter⟩ := forall_mem_cons.mp hrest
  have hlength := length_puts hbefore
  rw [← hlength] at hp
  have hlength' := length_put hp
  have hafter' : ∀ q ∈ after, q.stop ≤ (put (puts l before) p).length := by
    intro q hq
    rw [hlength', hlength]
    exact hafter q hq
  rw [puts, foldl_append, foldl_cons]
  exact (slice_puts_of_apart hafter' hapart).trans (slice_put_self hp)

theorem slice_puts_getElem? {k : Nat} (h : ∀ q ∈ ps, q.stop ≤ l.length) (hp : ps[k]? = some p)
    (hapart : ∀ (j : Nat) q, k < j → ps[j]? = some q → p.Apart q) :
    slice (puts l ps) p.start p.content.length = p.content := by
  obtain ⟨hk, rfl⟩ := List.getElem?_eq_some_iff.mp hp
  have hsplit : ps = ps.take k ++ ps[k] :: ps.drop (k + 1) := by
    rw [getElem_cons_drop, take_append_drop]
  have hafter : ∀ q ∈ ps.drop (k + 1), ps[k].Apart q := by
    intro q hq
    obtain ⟨i, hi⟩ := mem_iff_getElem?.mp hq
    rw [getElem?_drop] at hi
    exact hapart (k + 1 + i) q (by omega) hi
  rw [hsplit] at h
  have hslice := slice_puts h hafter
  rwa [← hsplit] at hslice

theorem slice_puts_mem (h : ∀ q ∈ ps, q.stop ≤ l.length) (hapart : ps.Pairwise Patch.Apart)
    (hp : p ∈ ps) : slice (puts l ps) p.start p.content.length = p.content := by
  obtain ⟨before, after, rfl⟩ := append_of_mem hp
  have hafter := (pairwise_append.mp hapart).2.1
  exact slice_puts h (pairwise_cons.mp hafter).1

theorem slice_slice {start n start' n' : Nat} (h : start' + n' ≤ n) :
    slice (slice l start n) start' n' = slice l (start + start') n' := by
  apply ext_getElem?
  intro i
  rw [getElem?_slice, getElem?_slice, getElem?_slice]
  split
  · rw [if_pos (by omega), Nat.add_assoc]
  · rfl

theorem slice_append_left {l' : List α} (h : start + n ≤ l.length) :
    slice (l ++ l') start n = slice l start n := by
  apply ext_getElem?
  intro i
  rw [getElem?_slice, getElem?_slice]
  split
  · rw [getElem?_append_left (by omega)]
  · rfl

theorem slice_append_right (l l' : List α) : slice (l ++ l') l.length l'.length = l' := by
  rw [slice, drop_left, take_length]

end Patches
