import Mathlib.Data.List.Basic

/-!
# Format templates

`formatTemplate` scans a template once, with one byte of lookahead. A template
denotes a sequence of pieces, and every template denotes exactly one
(`readsAs_unique`, `ReadsAs.exists_pieces`). Formatting writes the pieces in
order: the placeholders are numbered from the left and the text of an argument
is written as it is (`formatTemplate_readsAs`).
-/

namespace Kryndel

open List

/-! ## The scanner -/

/-- The byte `{`. -/
def openBrace : UInt8 := 123

/-- The byte `}`. -/
def closeBrace : UInt8 := 125

section Scanner

variable {α : Type} (display : α → List UInt8) (args : List α) (tmpl : List UInt8)

/-- The loop of `formatTemplate` from byte `i` on, with the number of the next
    argument and what the builder holds. -/
def formatTemplateLoop (i next : Nat) (b : List UInt8) : List UInt8 :=
  if h : i < tmpl.length then
    let c := tmpl.get ⟨i, h⟩
    if c = openBrace ∧ tmpl[i + 1]? = some openBrace then
      formatTemplateLoop (i + 2) next (b ++ [openBrace])
    else if c = openBrace ∧ tmpl[i + 1]? = some closeBrace then
      match args[next]? with
      | some a => formatTemplateLoop (i + 2) (next + 1) (b ++ display a)
      -- a missing argument leaves the placeholder, and is not counted
      | none => formatTemplateLoop (i + 2) next (b ++ [openBrace, closeBrace])
    else if c = closeBrace ∧ tmpl[i + 1]? = some closeBrace then
      formatTemplateLoop (i + 2) next (b ++ [closeBrace])
    else formatTemplateLoop (i + 1) next (b ++ [c])
  else b
termination_by tmpl.length - i

/-- `formatTemplate`. How a value is displayed is a parameter. -/
def formatTemplate : List UInt8 := formatTemplateLoop display args tmpl 0 0 []

end Scanner

/-! ## What a template stands for -/

/-- A piece of a template: a byte that is written, or a placeholder. -/
inductive Piece where
  | byte (c : UInt8)
  | placeholder
deriving DecidableEq, Repr

/-- A pair of bytes that is read together. -/
inductive BracePair : UInt8 → UInt8 → Piece → Prop where
  | opening : BracePair openBrace openBrace (.byte openBrace)
  | placeholder : BracePair openBrace closeBrace .placeholder
  | closing : BracePair closeBrace closeBrace (.byte closeBrace)

/-- The pieces of a template, read from the left: a pair of braces is one piece,
    and any other byte stands for itself. -/
inductive ReadsAs : List UInt8 → List Piece → Prop where
  | nil : ReadsAs [] []
  | pair {c d : UInt8} {p : Piece} {rest : List UInt8} {ps : List Piece}
      (h : BracePair c d p) (hrest : ReadsAs rest ps) : ReadsAs (c :: d :: rest) (p :: ps)
  | byte {c : UInt8} {rest : List UInt8} {ps : List Piece}
      (h : ∀ d p, rest.head? = some d → ¬ BracePair c d p) (hrest : ReadsAs rest ps) :
      ReadsAs (c :: rest) (.byte c :: ps)

/-- The pieces written out, where the placeholder with number `k` becomes `text k`
    and the first of them has number `n`. -/
def fillPieces (text : Nat → List UInt8) : Nat → List Piece → List UInt8
  | _, [] => []
  | n, .byte c :: ps => c :: fillPieces text n ps
  | n, .placeholder :: ps => text n ++ fillPieces text (n + 1) ps

/-- What the placeholder with number `k` becomes: its argument, and `{}` where there
    is none. -/
def placeholderText {α : Type} (display : α → List UInt8) (args : List α) (k : Nat) :
    List UInt8 :=
  ((args[k]?).map display).getD [openBrace, closeBrace]

/-- A text with every brace doubled. -/
def doubleBraces : List UInt8 → List UInt8
  | [] => []
  | c :: rest =>
    if c = openBrace ∨ c = closeBrace then c :: c :: doubleBraces rest
    else c :: doubleBraces rest

/-! ## Reading is a function -/

theorem BracePair.unique {c d : UInt8} {p q : Piece} (hp : BracePair c d p)
    (hq : BracePair c d q) : p = q := by
  cases hp with
  | opening => cases hq; rfl
  | placeholder => cases hq; rfl
  | closing => cases hq; rfl

variable {ps : List Piece}

theorem readsAs_unique {tmpl : List UInt8} (hp : ReadsAs tmpl ps) :
    ∀ {qs : List Piece}, ReadsAs tmpl qs → ps = qs := by
  induction hp with
  | nil => intro qs hq; cases hq; rfl
  | pair h _ ih =>
    intro qs hq
    cases hq with
    | pair h' hrest' => rw [h.unique h', ih hrest']
    | byte h' _ => exact absurd h (h' _ _ rfl)
  | byte h _ ih =>
    intro qs hq
    cases hq with
    | pair h' _ => exact absurd h' (h _ _ rfl)
    | byte _ hrest' => rw [ih hrest']

theorem ReadsAs.exists_pieces : ∀ (n : Nat) (tmpl : List UInt8), tmpl.length ≤ n →
    ∃ ps, ReadsAs tmpl ps
  | _, [], _ => ⟨[], .nil⟩
  | n + 1, c :: rest, hlen => by
    have hrest : rest.length ≤ n := by simpa using hlen
    by_cases hpair : ∃ d p, rest.head? = some d ∧ BracePair c d p
    · obtain ⟨d, p, hd, h⟩ := hpair
      obtain ⟨after, rfl⟩ : ∃ after, rest = d :: after := head?_eq_some_iff.mp hd
      have hafter : after.length ≤ n := by
        simp only [length_cons] at hrest
        omega
      obtain ⟨ps, hps⟩ := exists_pieces n after hafter
      exact ⟨p :: ps, .pair h hps⟩
    · obtain ⟨ps, hps⟩ := exists_pieces n rest hrest
      refine ⟨.byte c :: ps, .byte ?_ hps⟩
      intro d p hd h
      exact hpair ⟨d, p, hd, h⟩

theorem readsAs_doubleBraces (s : List UInt8) : ReadsAs (doubleBraces s) (s.map .byte) := by
  induction s with
  | nil => exact .nil
  | cons c rest ih =>
    simp only [doubleBraces, map_cons]
    split
    case isTrue h =>
      rcases h with rfl | rfl
      · exact .pair .opening ih
      · exact .pair .closing ih
    case isFalse h =>
      refine .byte ?_ ih
      intro d p _ hpair
      cases hpair with
      | opening => exact h (.inl rfl)
      | placeholder => exact h (.inl rfl)
      | closing => exact h (.inr rfl)

theorem fillPieces_bytes (text : Nat → List UInt8) (n : Nat) (s : List UInt8) :
    fillPieces text n (s.map .byte) = s := by
  induction s with
  | nil => rfl
  | cons c rest ih => simp [fillPieces, ih]

/-! ## The scanner writes the pieces -/

section Correct

variable {α : Type} {display : α → List UInt8} {args : List α} {tmpl : List UInt8}

theorem getElem?_of_drop {i : Nat} {rest : List UInt8} (h : tmpl.drop i = rest) (k : Nat) :
    tmpl[i + k]? = rest[k]? := by
  rw [← h, getElem?_drop]

theorem get_of_drop {i : Nat} {c : UInt8} {rest : List UInt8} (h : tmpl.drop i = c :: rest) :
    ∃ hi : i < tmpl.length, tmpl.get ⟨i, hi⟩ = c := by
  have hbyte : tmpl[i]? = some c := getElem?_of_drop h 0
  exact List.getElem?_eq_some_iff.mp hbyte

theorem placeholderText_of_none {k : Nat} (h : args[k]? = none) :
    placeholderText display args k = [openBrace, closeBrace] := by
  simp [placeholderText, h]

theorem fillPieces_past {n m : Nat} (hn : args.length ≤ n) (hm : args.length ≤ m)
    (ps : List Piece) :
    fillPieces (placeholderText display args) n ps =
      fillPieces (placeholderText display args) m ps := by
  induction ps generalizing n m with
  | nil => rfl
  | cons p rest ih =>
    cases p with
    | byte c => simp only [fillPieces, ih hn hm]
    | placeholder =>
      have htext : ∀ k, args.length ≤ k →
          placeholderText display args k = [openBrace, closeBrace] := by
        intro k hk
        exact placeholderText_of_none (getElem?_eq_none hk)
      simp only [fillPieces, htext n hn, htext m hm]
      rw [ih (Nat.le_succ_of_le hn) (Nat.le_succ_of_le hm)]

theorem formatTemplateLoop_readsAs {rest : List UInt8} (hr : ReadsAs rest ps) :
    ∀ {i next : Nat} {b : List UInt8}, tmpl.drop i = rest →
      formatTemplateLoop display args tmpl i next b =
        b ++ fillPieces (placeholderText display args) next ps := by
  induction hr with
  | nil =>
    intro i next b hdrop
    have hend : ¬ i < tmpl.length := by
      have := drop_eq_nil_iff.mp hdrop
      omega
    rw [formatTemplateLoop, dif_neg hend]
    simp [fillPieces]
  | @pair c d p rest ps h hrest ih =>
    intro i next b hdrop
    obtain ⟨hi, hc⟩ := get_of_drop hdrop
    have hd : tmpl[i + 1]? = some d := getElem?_of_drop hdrop 1
    have hafter : tmpl.drop (i + 2) = rest := by
      rw [← drop_drop, hdrop]
      rfl
    rw [formatTemplateLoop, dif_pos hi]
    simp only [hc, hd]
    cases h with
    | opening =>
      rw [if_pos ⟨rfl, rfl⟩, ih hafter]
      simp [fillPieces]
    | placeholder =>
      rw [if_neg (by decide), if_pos ⟨rfl, rfl⟩]
      cases harg : args[next]? with
      | some a =>
        simp only
        rw [ih hafter]
        simp [fillPieces, placeholderText, harg]
      | none =>
        have hpast : args.length ≤ next := List.getElem?_eq_none_iff.mp harg
        simp only
        rw [ih hafter, fillPieces, placeholderText_of_none harg, append_assoc]
        -- the loop does not count this placeholder, the pieces do
        rw [fillPieces_past hpast (Nat.le_succ_of_le hpast)]
    | closing =>
      rw [if_neg (by decide), if_neg (by decide), if_pos ⟨rfl, rfl⟩, ih hafter]
      simp [fillPieces]
  | @byte c rest ps h hrest ih =>
    intro i next b hdrop
    obtain ⟨hi, hc⟩ := get_of_drop hdrop
    have hd : tmpl[i + 1]? = rest.head? := by
      rw [getElem?_of_drop hdrop 1, head?_eq_getElem?]
      rfl
    have hafter : tmpl.drop (i + 1) = rest := by
      rw [← drop_drop, hdrop]
      rfl
    rw [formatTemplateLoop, dif_pos hi]
    simp only [hc, hd]
    rw [if_neg, if_neg, if_neg, ih hafter]
    · simp [fillPieces]
    · rintro ⟨rfl, hhead⟩
      exact h _ _ hhead .closing
    · rintro ⟨rfl, hhead⟩
      exact h _ _ hhead .placeholder
    · rintro ⟨rfl, hhead⟩
      exact h _ _ hhead .opening

theorem formatTemplate_readsAs (h : ReadsAs tmpl ps) :
    formatTemplate display args tmpl = fillPieces (placeholderText display args) 0 ps := by
  rw [formatTemplate, formatTemplateLoop_readsAs h rfl]
  rfl

end Correct

/-- A template with the braces of a text doubled is formatted to the text. A template
    in general denotes one sequence of pieces, and formatting writes them in order, each
    placeholder as the text of the argument with its number. -/
theorem formatTemplate_correct {α : Type} (display : α → List UInt8) (args : List α) :
    (∀ s, formatTemplate display args (doubleBraces s) = s) ∧
    ∀ tmpl, ∃ ps, (∀ qs, ReadsAs tmpl qs ↔ qs = ps) ∧
      formatTemplate display args tmpl = fillPieces (placeholderText display args) 0 ps := by
  constructor
  · intro s
    rw [formatTemplate_readsAs (readsAs_doubleBraces s), fillPieces_bytes]
  · intro tmpl
    obtain ⟨ps, hps⟩ := ReadsAs.exists_pieces tmpl.length tmpl (Nat.le_refl _)
    refine ⟨ps, ?_, formatTemplate_readsAs hps⟩
    intro qs
    constructor
    · intro hqs
      exact (readsAs_unique hps hqs).symm
    · rintro rfl
      exact hps

end Kryndel
