import Mathlib.Data.List.Basic
import Mathlib.Data.Nat.Init

/-!
# Lists in chunks

A list that is cut into blocks of one size, of which only the last may be shorter. What
changes when an element of the list is replaced, or one is added at its end, is one block.
-/

namespace Chunks

open List

variable {α : Type} {n : Nat}

/-- Blocks that make up a list: all have `n` elements, except that the last may have fewer. -/
inductive Chunked (n : Nat) : List (List α) → List α → Prop where
  | nil : Chunked n [] []
  | last (b : List α) (hpos : 0 < b.length) (hle : b.length ≤ n) : Chunked n [b] b
  | cons (b : List α) {blocks : List (List α)} {xs : List α} (hfull : b.length = n)
      (hrest : 0 < blocks.length) (h : Chunked n blocks xs) : Chunked n (b :: blocks) (b ++ xs)

namespace Chunked

variable {blocks : List (List α)} {xs : List α}

theorem flatten (h : Chunked n blocks xs) : blocks.flatten = xs := by
  induction h with
  | nil => rfl
  | last b hpos hle => simp
  | cons b hfull hrest h ih => rw [flatten_cons, ih]

variable {i : Nat} {b : List α}

theorem full (h : Chunked n blocks xs) (hi : i + 1 < blocks.length) (hb : blocks[i]? = some b) :
    b.length = n := by
  induction h generalizing i with
  | nil => cases hi
  | last b' hpos hle =>
    simp only [length_singleton] at hi
    omega
  | cons b' hfull hrest h ih =>
    cases i with
    | zero =>
      rw [getElem?_cons_zero, Option.some.injEq] at hb
      rw [← hb, hfull]
    | succ i =>
      exact ih (by simpa using hi) hb

theorem length_le (h : Chunked n blocks xs) (hb : b ∈ blocks) : b.length ≤ n := by
  induction h with
  | nil => cases hb
  | last b' hpos hle =>
    rw [mem_singleton.mp hb]
    exact hle
  | cons b' hfull hrest h ih =>
    rcases mem_cons.mp hb with rfl | hb
    · exact Nat.le_of_eq hfull
    · exact ih hb

theorem pos (h : Chunked n blocks xs) (hb : b ∈ blocks) (hn : 0 < n) :
    0 < b.length := by
  induction h with
  | nil => cases hb
  | last b' hpos hle =>
    rw [mem_singleton.mp hb]
    exact hpos
  | cons b' hfull hrest h ih =>
    rcases mem_cons.mp hb with rfl | hb
    · rwa [hfull]
    · exact ih hb

theorem length_eq (h : Chunked n blocks xs) (hn : 0 < n) :
    blocks.length = (xs.length + n - 1) / n := by
  induction h with
  | nil => rw [length_nil, length_nil, Nat.zero_add, Nat.div_eq_of_lt (by omega)]
  | last b hpos hle =>
    rw [length_singleton]
    symm
    rw [Nat.div_eq_iff hn]
    omega
  | @cons b blocks xs hfull hrest h ih =>
    have hsplit : (b ++ xs).length + n - 1 = (xs.length + n - 1) + n := by
      rw [length_append, hfull]
      omega
    rw [hsplit, Nat.add_div_right _ hn, length_cons, ih]

theorem getElem? (h : Chunked n blocks xs) (hn : 0 < n) (hi : i < xs.length) :
    ∃ b, blocks[i / n]? = some b ∧ i % n < b.length ∧ b[i % n]? = xs[i]? := by
  induction h generalizing i with
  | nil => cases hi
  | last b hpos hle =>
    have hlt : i < n := by omega
    refine ⟨b, ?_, ?_, ?_⟩
    · rw [Nat.div_eq_of_lt hlt]
      rfl
    · rwa [Nat.mod_eq_of_lt hlt]
    · rw [Nat.mod_eq_of_lt hlt]
  | cons b hfull hrest h ih =>
    by_cases hlt : i < n
    · refine ⟨b, ?_, ?_, ?_⟩
      · rw [Nat.div_eq_of_lt hlt]
        rfl
      · rw [Nat.mod_eq_of_lt hlt, hfull]
        exact hlt
      · rw [Nat.mod_eq_of_lt hlt, getElem?_append_left (by omega)]
    · rw [length_append] at hi
      have hle : n ≤ i := by omega
      obtain ⟨b', hb', hmod, hget⟩ := @ih (i - n) (by omega)
      rw [← Nat.mod_eq_sub_mod hle] at hmod hget
      refine ⟨b', ?_, hmod, ?_⟩
      · rw [Nat.div_eq_sub_div hn hle, getElem?_cons_succ]
        exact hb'
      · rw [hget, getElem?_append_right (by omega), hfull]

theorem set (h : Chunked n blocks xs) (hn : 0 < n) (hi : i < xs.length)
    (hb : blocks[i / n]? = some b) (x : α) :
    Chunked n (blocks.set (i / n) (b.set (i % n) x)) (xs.set i x) := by
  induction h generalizing i with
  | nil => cases hi
  | last b' hpos hle =>
    have hlt : i < n := by omega
    rw [Nat.div_eq_of_lt hlt, getElem?_cons_zero, Option.some.injEq] at hb
    rw [Nat.div_eq_of_lt hlt, Nat.mod_eq_of_lt hlt, set_cons_zero, ← hb]
    refine Chunked.last _ ?_ ?_ <;> rwa [length_set]
  | @cons b' blocks xs hfull hrest h ih =>
    by_cases hlt : i < n
    · rw [Nat.div_eq_of_lt hlt, getElem?_cons_zero, Option.some.injEq] at hb
      rw [Nat.div_eq_of_lt hlt, Nat.mod_eq_of_lt hlt, set_cons_zero, ← hb,
        set_append_left _ _ (by omega)]
      exact Chunked.cons _ (by rw [length_set, hfull]) hrest h
    · rw [length_append] at hi
      have hle : n ≤ i := by omega
      rw [Nat.div_eq_sub_div hn hle, getElem?_cons_succ] at hb
      have hset := @ih (i - n) (by omega) hb
      rw [← Nat.mod_eq_sub_mod hle] at hset
      rw [Nat.div_eq_sub_div hn hle, set_cons_succ, set_append_right _ _ (by omega),
        hfull]
      exact Chunked.cons b' hfull (by rwa [length_set]) hset

theorem append_last (h : Chunked n blocks xs) (hb : blocks[blocks.length - 1]? = some b)
    (hroom : b.length < n) (x : α) :
    Chunked n (blocks.set (blocks.length - 1) (b ++ [x])) (xs ++ [x]) := by
  induction h with
  | nil => cases hb
  | last b' hpos hle =>
    obtain rfl : b' = b := Option.some.inj hb
    refine Chunked.last _ (by simp) ?_
    rw [length_append]
    exact hroom
  | @cons b' blocks xs hfull hrest h ih =>
    have hlast : (b' :: blocks).length - 1 = (blocks.length - 1) + 1 := by
      rw [length_cons]
      omega
    rw [hlast, getElem?_cons_succ] at hb
    rw [hlast, set_cons_succ, append_assoc]
    exact Chunked.cons b' hfull (by rwa [length_set]) (ih hb)

theorem append_block (h : Chunked n blocks xs) (hn : 0 < n)
    (hfull : ∀ b, blocks[blocks.length - 1]? = some b → b.length = n) (x : α) :
    Chunked n (blocks ++ [[x]]) (xs ++ [x]) := by
  induction h with
  | nil => exact Chunked.last [x] Nat.one_pos hn
  | last b hpos hle =>
    exact Chunked.cons b (hfull b rfl) Nat.one_pos (Chunked.last [x] Nat.one_pos hn)
  | @cons b blocks xs hlength hrest h ih =>
    have hlast : (b :: blocks).length - 1 = (blocks.length - 1) + 1 := by
      rw [length_cons]
      omega
    rw [hlast] at hfull
    rw [append_assoc]
    exact Chunked.cons b hlength (by simp) (ih hfull)

end Chunked

end Chunks
