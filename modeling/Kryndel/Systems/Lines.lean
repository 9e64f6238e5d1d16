import Mathlib.Data.List.Basic
import Mathlib.Data.List.TakeWhile

/-!
# Texts read line by line

The operations with which readers of configuration files take a text apart: its lines, a text
without some characters at both ends, and a text without a prefix or a suffix.
-/

namespace Systems

open List

/-! ## Lines -/

/-- Line ends of two characters become line ends of one. -/
def replaceLineEnds : List Char → List Char
  | '\r' :: '\n' :: rest => '\n' :: replaceLineEnds rest
  | c :: rest => c :: replaceLineEnds rest
  | [] => []

/-- The lines of a text; the last one is what follows the last line end. -/
def readLines (text : List Char) : List (List Char) :=
  (replaceLineEnds text).splitOn '\n'

theorem replaceLineEnds_line {line : List Char} (hline : '\n' ∉ line)
    (hlast : line.getLast? ≠ some '\r') (rest : List Char) :
    replaceLineEnds (line ++ '\n' :: rest) = line ++ '\n' :: replaceLineEnds rest := by
  induction line with
  | nil => rw [nil_append, nil_append, replaceLineEnds]; simp
  | cons c line ih =>
    rw [mem_cons, not_or] at hline
    cases line with
    | nil =>
      have hc : c ≠ '\r' := by
        rintro rfl
        exact hlast rfl
      rw [singleton_append, singleton_append, replaceLineEnds]
      · rw [replaceLineEnds]
        simp
      · intro rest' hr
        exact absurd hr hc
    | cons d line =>
      have hrest := ih hline.2 (by rwa [getLast?_cons_cons] at hlast)
      rw [cons_append] at hrest
      rw [cons_append, cons_append, replaceLineEnds, hrest]
      · rfl
      · intro rest' _ hd
        rw [List.cons.injEq] at hd
        exact hline.2 (by rw [← hd.1]; exact mem_cons_self)

theorem readLines_line {line : List Char} (hline : '\n' ∉ line)
    (hlast : line.getLast? ≠ some '\r') (rest : List Char) :
    readLines (line ++ '\n' :: rest) = line :: readLines rest := by
  rw [readLines, replaceLineEnds_line hline hlast,
    splitOn_append_cons_self_of_not_mem hline, readLines]

theorem readLines_nil : readLines [] = [[]] := rfl

variable {α : Type}

theorem not_mem_of_mem_splitOn [DecidableEq α] {a : α} {text piece : List α}
    (h : piece ∈ text.splitOn a) : a ∉ piece := by
  induction text generalizing piece with
  | nil =>
    rw [splitOn_nil, mem_singleton] at h
    rw [h]
    exact not_mem_nil
  | cons b text ih =>
    rw [splitOn_cons_eq_if_modifyHead] at h
    split at h
    · rcases mem_cons.mp h with rfl | h
      · exact not_mem_nil
      · exact ih h
    · next hb =>
      obtain ⟨first, pieces, hpieces⟩ :=
        exists_cons_of_ne_nil (splitOn_ne_nil a text)
      rw [hpieces] at h ih
      rcases mem_cons.mp h with rfl | h
      · rw [mem_cons, not_or]
        exact ⟨fun heq => hb (by rw [heq]; exact beq_self_eq_true _), ih mem_cons_self⟩
      · exact ih (mem_cons_of_mem _ h)

theorem mem_splitOn_of_mem [DecidableEq α] {a b : α} {text : List α} (h : b ∈ text) :
    b = a ∨ ∃ piece ∈ text.splitOn a, b ∈ piece := by
  induction text with
  | nil => cases h
  | cons c text ih =>
    rw [splitOn_cons_eq_if_modifyHead]
    split
    · next hc =>
      rcases mem_cons.mp h with rfl | h
      · exact .inl (eq_of_beq hc)
      · obtain heq | ⟨piece, hpiece, hb⟩ := ih h
        · exact .inl heq
        · exact .inr ⟨piece, mem_cons_of_mem _ hpiece, hb⟩
    · obtain ⟨first, pieces, hpieces⟩ :=
        exists_cons_of_ne_nil (splitOn_ne_nil a text)
      rw [hpieces, modifyHead_cons]
      rw [hpieces] at ih
      rcases mem_cons.mp h with rfl | h
      · exact .inr ⟨b :: first, mem_cons_self, mem_cons_self⟩
      · obtain heq | ⟨piece, hpiece, hb⟩ := ih h
        · exact .inl heq
        · rcases mem_cons.mp hpiece with rfl | hpiece
          · exact .inr ⟨c :: piece, mem_cons_self, mem_cons_of_mem _ hb⟩
          · exact .inr ⟨piece, mem_cons_of_mem _ hpiece, hb⟩

theorem mem_of_mem_splitOn [DecidableEq α] {a b : α} {text piece : List α}
    (h : piece ∈ text.splitOn a) (hb : b ∈ piece) : b ∈ text := by
  induction text generalizing piece with
  | nil =>
    rw [splitOn_nil, mem_singleton] at h
    rw [h] at hb
    cases hb
  | cons c text ih =>
    rw [splitOn_cons_eq_if_modifyHead] at h
    split at h
    · rcases mem_cons.mp h with rfl | h
      · cases hb
      · exact mem_cons_of_mem _ (ih h hb)
    · obtain ⟨first, pieces, hpieces⟩ :=
        exists_cons_of_ne_nil (splitOn_ne_nil a text)
      rw [hpieces] at h ih
      rcases mem_cons.mp h with rfl | h
      · rcases mem_cons.mp hb with rfl | hb
        · exact mem_cons_self
        · exact mem_cons_of_mem _ (ih mem_cons_self hb)
      · exact mem_cons_of_mem _ (ih (mem_cons_of_mem _ h) hb)

theorem not_mem_readLines {text line : List Char} (h : line ∈ readLines text) : '\n' ∉ line :=
  not_mem_of_mem_splitOn h

/-! ## Trimming -/

section Trim

variable {p : Char → Bool} {text : List Char}

/-- A text without the characters at its ends that have a property. -/
def trimOf (p : Char → Bool) (text : List Char) : List Char :=
  ((text.dropWhile p).reverse.dropWhile p).reverse

theorem dropWhile_eq_self (h : ∀ c ∈ text.head?, p c = false) : text.dropWhile p = text := by
  cases text with
  | nil => rfl
  | cons c text => exact dropWhile_cons_of_neg (by simp [h c rfl])

theorem trimOf_eq_self (hfirst : ∀ c ∈ text.head?, p c = false)
    (hlast : ∀ c ∈ text.getLast?, p c = false) : trimOf p text = text := by
  rw [trimOf, dropWhile_eq_self hfirst, dropWhile_eq_self (by rwa [head?_reverse]),
    reverse_reverse]

theorem trimOf_cons {a : Char} (ha : p a = true) : trimOf p (a :: text) = trimOf p text := by
  rw [trimOf, dropWhile_cons_of_pos ha, trimOf]

theorem trimOf_concat {b : Char} (hb : p b = true) : trimOf p (text ++ [b]) = trimOf p text := by
  have hdrop : (text ++ [b]).dropWhile p = text.dropWhile p ++ [b] ∨
      text.dropWhile p = [] ∧ (text ++ [b]).dropWhile p = [] := by
    rw [dropWhile_append]
    cases hempty : text.dropWhile p with
    | nil => exact .inr ⟨rfl, by simp [hb]⟩
    | cons c rest => exact .inl rfl
  rw [trimOf, trimOf]
  rcases hdrop with h | ⟨h, h'⟩
  · rw [h, reverse_append, reverse_singleton, singleton_append,
      dropWhile_cons_of_pos hb]
  · rw [h, h']

theorem mem_trimOf {c : Char} (h : c ∈ trimOf p text) : c ∈ text := by
  rw [trimOf, mem_reverse] at h
  have h₁ := (dropWhile_sublist _).mem h
  rw [mem_reverse] at h₁
  exact (dropWhile_sublist _).mem h₁

theorem mem_or_of_mem {c : Char} (h : c ∈ text) : p c = true ∨ c ∈ trimOf p text := by
  have hdrop : ∀ {l : List Char}, c ∈ l → p c = true ∨ c ∈ l.dropWhile p := by
    intro l hc
    rw [← takeWhile_append_dropWhile (p := p) (l := l)] at hc
    rcases mem_append.mp hc with hc | hc
    · exact .inl (mem_takeWhile_imp hc)
    · exact .inr hc
  rcases hdrop h with h | h
  · exact .inl h
  · rcases hdrop (mem_reverse.mpr h) with h | h
    · exact .inl h
    · exact .inr (mem_reverse.mpr h)

end Trim

/-! ## Prefixes and suffixes -/

/-- `text` without `start`, if it begins with it. -/
def trimPrefix (start text : List Char) : List Char :=
  if start <+: text then text.drop start.length else text

/-- `text` without `tail`, if it ends with it. -/
def trimSuffix (tail text : List Char) : List Char :=
  if tail <:+ text then text.take (text.length - tail.length) else text

@[simp] theorem trimPrefix_append (start text : List Char) :
    trimPrefix start (start ++ text) = text := by
  rw [trimPrefix, if_pos (prefix_append _ _), drop_left]

@[simp] theorem trimSuffix_append (text tail : List Char) :
    trimSuffix tail (text ++ tail) = text := by
  rw [trimSuffix, if_pos (suffix_append _ _), length_append, Nat.add_sub_cancel,
    take_left]

theorem mem_trimPrefix {start text : List Char} {c : Char} (h : c ∈ trimPrefix start text) :
    c ∈ text := by
  rw [trimPrefix] at h
  split at h
  · exact mem_of_mem_drop h
  · exact h

theorem mem_trimSuffix {tail text : List Char} {c : Char} (h : c ∈ trimSuffix tail text) :
    c ∈ text := by
  rw [trimSuffix] at h
  split at h
  · exact mem_of_mem_take h
  · exact h

end Systems
