import Mathlib.Data.List.Basic

/-!
# Words of a text

A text is cut into words, the longest runs of characters that can be parts of words, and what
stands between them. A function on words changes a text word by word.
-/

namespace Words

open List

variable {α : Type} (part : α → Bool)

/-- The words of a text, after the first part of a word. -/
def wordsFrom : List α → List α → List (List α)
  | run, [] => if run.isEmpty then [] else [run]
  | run, c :: cs =>
    if part c then wordsFrom (run ++ [c]) cs
    else (if run.isEmpty then [] else [run]) ++ wordsFrom [] cs

/-- The words of a text. -/
def wordsOf (cs : List α) : List (List α) := wordsFrom part [] cs

/-- A change of words, where there may be none. -/
def changed (f : List α → List α) (run : List α) : List α :=
  if run.isEmpty then [] else f run

/-- A text with its words changed, after the first part of a word. -/
def mapFrom (f : List α → List α) : List α → List α → List α
  | run, [] => changed f run
  | run, c :: cs =>
    if part c then mapFrom f (run ++ [c]) cs else changed f run ++ c :: mapFrom f [] cs

/-- A text with its words changed. -/
def mapWords (f : List α → List α) (cs : List α) : List α := mapFrom part f [] cs

/-- A word: it is not empty, and its characters are parts of words. -/
def IsWord (w : List α) : Prop := w ≠ [] ∧ ∀ c ∈ w, part c = true

/-- No word goes on at the beginning of a text. -/
def Parted (cs : List α) : Prop := ∀ c, cs.head? = some c → part c = false

variable {part} {f g : List α → List α}

/-! ## Runs -/

theorem parted_nil : Parted part ([] : List α) := by
  intro c hc
  cases hc

variable {c : α} {cs : List α}

theorem parted_cons (h : part c = false) : Parted part (c :: cs) := by
  intro d hd
  cases hd
  exact h

theorem changed_nil (f : List α → List α) : changed f [] = [] := rfl

variable {w : List α}

theorem changed_of_ne (h : w ≠ []) : changed f w = f w :=
  if_neg (mt List.isEmpty_iff.mp h)

theorem changed_parts (hf : ∀ w, IsWord part w → IsWord part (f w)) {run : List α}
    (hrun : ∀ c ∈ run, part c = true) : ∀ c ∈ changed f run, part c = true := by
  intro c hc
  cases run with
  | nil => cases hc
  | cons d run =>
    exact (hf _ ⟨cons_ne_nil d run, hrun⟩).2 c hc

attribute [local simp] mapFrom wordsFrom in
theorem mapFrom_parts (f : List α → List α) (run cs : List α) (hw : ∀ c ∈ w, part c = true) :
    mapFrom part f run (w ++ cs) = mapFrom part f (run ++ w) cs := by
  induction w generalizing run with
  | nil => rw [nil_append, append_nil]
  | cons c w ih =>
    rw [cons_append, mapFrom, if_pos (hw c mem_cons_self),
      ih (run ++ [c]) fun d hd => hw d (mem_cons_of_mem c hd), append_assoc,
      singleton_append]

theorem wordsFrom_parts (run cs : List α) (hw : ∀ c ∈ w, part c = true) :
    wordsFrom part run (w ++ cs) = wordsFrom part (run ++ w) cs := by
  induction w generalizing run with
  | nil => rw [nil_append, append_nil]
  | cons c w ih =>
    rw [cons_append, wordsFrom, if_pos (hw c mem_cons_self),
      ih (run ++ [c]) fun d hd => hw d (mem_cons_of_mem c hd), append_assoc,
      singleton_append]

theorem mapFrom_parted (f : List α → List α) (run : List α) (h : Parted part cs) :
    mapFrom part f run cs = changed f run ++ mapWords part f cs := by
  cases cs with
  | nil => exact (append_nil _).symm
  | cons c cs =>
    have hc := h c rfl
    rw [mapWords, mapFrom, mapFrom, hc, if_neg Bool.false_ne_true, if_neg Bool.false_ne_true,
      changed_nil, nil_append]

theorem wordsFrom_parted (run : List α) (h : Parted part cs) :
    wordsFrom part run cs = (if run.isEmpty then [] else [run]) ++ wordsOf part cs := by
  cases cs with
  | nil => exact (append_nil _).symm
  | cons c cs =>
    have hc := h c rfl
    rw [wordsOf, wordsFrom, wordsFrom, hc, if_neg Bool.false_ne_true, if_neg Bool.false_ne_true]
    rfl

theorem mapWords_word (f : List α → List α) (hw : IsWord part w) (hcs : Parted part cs) :
    mapWords part f (w ++ cs) = f w ++ mapWords part f cs := by
  rw [mapWords, mapFrom_parts f [] cs hw.2, nil_append, mapFrom_parted f w hcs,
    changed_of_ne hw.1]

theorem wordsOf_word (hw : IsWord part w) (hcs : Parted part cs) :
    wordsOf part (w ++ cs) = w :: wordsOf part cs := by
  rw [wordsOf, wordsFrom_parts [] cs hw.2, nil_append, wordsFrom_parted w hcs,
    if_neg (mt List.isEmpty_iff.mp hw.1), singleton_append]

theorem mapWords_cons (f : List α → List α) (cs : List α) (hc : part c = false) :
    mapWords part f (c :: cs) = c :: mapWords part f cs := by
  rw [mapWords, mapFrom, hc, if_neg Bool.false_ne_true]
  rfl

theorem wordsOf_cons (cs : List α) (hc : part c = false) :
    wordsOf part (c :: cs) = wordsOf part cs := by
  rw [wordsOf, wordsFrom, hc, if_neg Bool.false_ne_true]
  rfl

theorem mapFrom_append_cons (f : List α → List α) (run x : List α) (rest : List α)
    (hc : part c = false) :
    mapFrom part f run (x ++ c :: rest) = mapFrom part f run x ++ c :: mapWords part f rest := by
  induction x generalizing run with
  | nil =>
    rw [nil_append, mapFrom, mapFrom, hc, if_neg Bool.false_ne_true]
    rfl
  | cons d x ih =>
    rw [cons_append, mapFrom, mapFrom]
    split
    · exact ih (run ++ [d])
    · rw [ih [], append_assoc, cons_append]

theorem mapWords_append_cons (f : List α → List α) (x : List α) (rest : List α)
    (hc : part c = false) :
    mapWords part f (x ++ c :: rest) = mapWords part f x ++ c :: mapWords part f rest :=
  mapFrom_append_cons f [] x rest hc

theorem wordsFrom_append_cons (run x : List α) (rest : List α) (hc : part c = false) :
    wordsFrom part run (x ++ c :: rest) = wordsFrom part run x ++ wordsOf part rest := by
  induction x generalizing run with
  | nil =>
    rw [nil_append, wordsFrom, wordsFrom, hc, if_neg Bool.false_ne_true]
    rfl
  | cons d x ih =>
    rw [cons_append, wordsFrom, wordsFrom]
    split
    · exact ih (run ++ [d])
    · rw [ih [], append_assoc]

theorem wordsOf_append_cons (x : List α) (rest : List α) (hc : part c = false) :
    wordsOf part (x ++ c :: rest) = wordsOf part x ++ wordsOf part rest :=
  wordsFrom_append_cons [] x rest hc

theorem mapWords_isWord (f : List α → List α) (hw : IsWord part w) :
    mapWords part f w = f w := by
  have h := mapWords_word f hw parted_nil
  rw [append_nil] at h
  exact h.trans (append_nil _)

theorem wordsOf_isWord (hw : IsWord part w) : wordsOf part w = [w] := by
  have h := wordsOf_word hw parted_nil
  rwa [append_nil] at h

/-! ## Laws -/

theorem isWord_of_mem_from {run cs w : List α} (hrun : ∀ c ∈ run, part c = true)
    (hw : w ∈ wordsFrom part run cs) : IsWord part w := by
  have hlast : ∀ r : List α, (∀ c ∈ r, part c = true) →
      w ∈ (if r.isEmpty then [] else [r]) → IsWord part w := by
    intro r hr hmem
    cases r with
    | nil => cases hmem
    | cons d r =>
      obtain rfl := mem_singleton.mp hmem
      exact ⟨cons_ne_nil d r, hr⟩
  induction cs generalizing run with
  | nil => exact hlast run hrun hw
  | cons c cs ih =>
    rw [wordsFrom] at hw
    split at hw
    · rename_i hc
      refine ih (fun d hd => ?_) hw
      rcases mem_append.mp hd with hd | hd
      · exact hrun d hd
      · obtain rfl := mem_singleton.mp hd
        exact hc
    · rcases mem_append.mp hw with hw | hw
      · exact hlast run hrun hw
      · exact ih (fun _ hd => absurd hd not_mem_nil) hw

theorem isWord_of_mem (hw : w ∈ wordsOf part cs) : IsWord part w :=
  isWord_of_mem_from (fun _ hc => absurd hc not_mem_nil) hw

theorem infix_of_mem_from {run cs w : List α} (hw : w ∈ wordsFrom part run cs) :
    w <:+: run ++ cs := by
  have hlast : ∀ r : List α, w ∈ (if r.isEmpty then [] else [r]) → w = r := by
    intro r hmem
    cases r with
    | nil => cases hmem
    | cons d r => exact mem_singleton.mp hmem
  induction cs generalizing run with
  | nil =>
    have hrun : w = run ++ [] := (hlast run hw).trans (append_nil run).symm
    subst hrun
    exact infix_refl _
  | cons c cs ih =>
    rw [wordsFrom] at hw
    split at hw
    · have hinfix := ih hw
      rwa [append_assoc, singleton_append] at hinfix
    · rcases mem_append.mp hw with hw | hw
      · rw [hlast run hw]
        exact (prefix_append run _).isInfix
      · have hinfix := ih hw
        exact hinfix.trans ((suffix_cons c cs).trans (suffix_append run _)).isInfix

theorem infix_of_mem (hw : w ∈ wordsOf part cs) : w <:+: cs :=
  infix_of_mem_from hw

theorem exists_word_of_mem_from {run cs : List α} (hc : part c = true) (hmem : c ∈ run ∨ c ∈ cs) :
    ∃ w ∈ wordsFrom part run cs, c ∈ w := by
  have hlast : ∀ r : List α, c ∈ r → r ∈ (if r.isEmpty then [] else [r]) := by
    intro r hr
    cases r with
    | nil => cases hr
    | cons d r => exact mem_singleton.mpr rfl
  induction cs generalizing run with
  | nil =>
    rcases hmem with hmem | hmem
    · exact ⟨run, hlast run hmem, hmem⟩
    · cases hmem
  | cons d cs ih =>
    rw [wordsFrom]
    split
    · apply ih
      rcases hmem with hmem | hmem
      · exact Or.inl (mem_append_left _ hmem)
      · rcases mem_cons.mp hmem with rfl | hmem
        · exact Or.inl (mem_append_right _ mem_cons_self)
        · exact Or.inr hmem
    · rename_i hd
      rcases hmem with hmem | hmem
      · exact ⟨run, mem_append_left _ (hlast run hmem), hmem⟩
      · rcases mem_cons.mp hmem with rfl | hmem
        · exact absurd hc hd
        · obtain ⟨w, hw, hcw⟩ := @ih [] (Or.inr hmem)
          exact ⟨w, mem_append_right _ hw, hcw⟩

theorem exists_word_of_mem (hc : part c = true) (hmem : c ∈ cs) :
    ∃ w ∈ wordsOf part cs, c ∈ w :=
  exists_word_of_mem_from hc (Or.inr hmem)

theorem mapWords_mapWords (hg : ∀ w, IsWord part w → IsWord part (g w)) (cs : List α) :
    mapWords part f (mapWords part g cs) = mapWords part (f ∘ g) cs := by
  have hfrom : ∀ (cs run : List α), (∀ c ∈ run, part c = true) →
      mapWords part f (mapFrom part g run cs) = mapFrom part (f ∘ g) run cs := by
    intro cs
    have hlast : ∀ (run rest : List α), (∀ c ∈ run, part c = true) → Parted part rest →
        mapWords part f (changed g run ++ rest) =
          changed (f ∘ g) run ++ mapWords part f rest := by
      intro run rest hrun hrest
      cases run with
      | nil => rfl
      | cons d run =>
        have hword := hg _ ⟨cons_ne_nil d run, hrun⟩
        rw [changed_of_ne (cons_ne_nil d run), changed_of_ne (cons_ne_nil d run),
          mapWords_word f hword hrest]
        rfl
    induction cs with
    | nil =>
      intro run hrun
      have h := hlast run [] hrun parted_nil
      rw [append_nil] at h
      exact h.trans (append_nil _)
    | cons c cs ih =>
      intro run hrun
      rw [mapFrom, mapFrom]
      split
      · rename_i hc
        apply ih
        intro d hd
        rcases mem_append.mp hd with hd | hd
        · exact hrun d hd
        · obtain rfl := mem_singleton.mp hd
          exact hc
      · rename_i hc
        rw [Bool.not_eq_true] at hc
        rw [hlast run _ hrun (parted_cons hc), mapWords_cons f _ hc,
          ih [] fun _ hd => absurd hd not_mem_nil]
  exact hfrom cs [] fun _ hc => absurd hc not_mem_nil

theorem append_parted_inj {m n x y : List α} (hm : ∀ c ∈ m, part c = true)
    (hn : ∀ c ∈ n, part c = true) (hx : Parted part x) (hy : Parted part y)
    (h : m ++ x = n ++ y) : m = n ∧ x = y := by
  have hcut : ∀ {m x : List α}, (∀ c ∈ m, part c = true) → Parted part x →
      (m ++ x).takeWhile part = m := by
    intro m x hm hx
    rw [takeWhile_append_of_pos hm]
    cases x with
    | nil => exact append_nil m
    | cons c x =>
      rw [takeWhile_cons_of_neg (by rw [hx c rfl]; exact Bool.false_ne_true),
        append_nil]
  have hsame : m = n := by rw [← hcut hm hx, h, hcut hn hy]
  rw [hsame] at h
  exact ⟨hsame, append_cancel_left h⟩

theorem mapWords_eq_self_iff (hf : ∀ w, IsWord part w → IsWord part (f w)) (cs : List α) :
    mapWords part f cs = cs ↔ ∀ w ∈ wordsOf part cs, f w = w := by
  have hlast : ∀ run : List α, changed f run = run ↔
      ∀ w ∈ (if run.isEmpty then [] else [run]), f w = w := by
    intro run
    cases run with
    | nil => simp [changed]
    | cons d run =>
      rw [changed_of_ne (cons_ne_nil d run)]
      simp
  have hfrom : ∀ (cs run : List α), (∀ c ∈ run, part c = true) →
      (mapFrom part f run cs = run ++ cs ↔ ∀ w ∈ wordsFrom part run cs, f w = w) := by
    intro cs
    induction cs with
    | nil =>
      intro run _
      rw [append_nil]
      exact hlast run
    | cons c cs ih =>
      intro run hrun
      rw [mapFrom, wordsFrom]
      split
      · rename_i hc
        rw [← ih (run ++ [c]), append_assoc, singleton_append]
        intro d hd
        rcases mem_append.mp hd with hd | hd
        · exact hrun d hd
        · obtain rfl := mem_singleton.mp hd
          exact hc
      · rename_i hc
        rw [Bool.not_eq_true] at hc
        rw [forall_mem_append, ← hlast run, ← ih [] fun _ hd => absurd hd not_mem_nil]
        constructor
        · intro h
          obtain ⟨hrun', hcs⟩ := append_parted_inj (changed_parts hf hrun) hrun (parted_cons hc)
            (parted_cons hc) h
          exact ⟨hrun', (List.cons.inj hcs).2⟩
        · rintro ⟨hrun', hcs⟩
          rw [hrun', hcs]
          rfl
  exact hfrom cs [] fun _ hc => absurd hc not_mem_nil

end Words
