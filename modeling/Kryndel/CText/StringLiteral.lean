import Mathlib.Data.List.Basic

/-!
# String literals in C

What the text of a string literal denotes in C11: trigraphs are replaced first, then lines are
spliced, and then the characters between the quotes are read. An octal escape has at most three
digits; a hexadecimal one goes on as long as there are digits. The reader takes one character
after the other, and its mode says what it is in the middle of.
-/

namespace CText

open Option

/-! ## The first translation phases -/

/-- The character for which two question marks and a character stand. -/
def trigraph : Char → Option Char
  | '=' => some '#'
  | '/' => some '\\'
  | '\'' => some '^'
  | '(' => some '['
  | ')' => some ']'
  | '!' => some '|'
  | '<' => some '{'
  | '>' => some '}'
  | '-' => some '~'
  | _ => none

def replaceTrigraphs : List Char → List Char
  | '?' :: '?' :: c :: rest =>
    match trigraph c with
    | some r => r :: replaceTrigraphs rest
    | none => '?' :: replaceTrigraphs ('?' :: c :: rest)
  | c :: rest => c :: replaceTrigraphs rest
  | [] => []

def spliceLines : List Char → List Char
  | '\\' :: '\n' :: rest => spliceLines rest
  | c :: rest => c :: spliceLines rest
  | [] => []

/-! ## The reader -/

/-- What the reader of a literal is in the middle of. -/
inductive Mode where
  | plain
  /-- After a backslash. -/
  | escaped
  /-- After some digits of an octal escape. -/
  | octal (digits value : Nat)
  /-- In a hexadecimal escape. -/
  | hex (started : Bool) (value : Nat)
  /-- In a universal character name that has some digits to go. -/
  | universal (left value : Nat)
  /-- After the closing quote. -/
  | done
deriving DecidableEq, Repr

/-- The byte of a simple escape sequence. -/
def simpleEscape : Char → Option UInt8
  | '\'' => some 39
  | '"' => some 34
  | '?' => some 63
  | '\\' => some 92
  | 'a' => some 7
  | 'b' => some 8
  | 'f' => some 12
  | 'n' => some 10
  | 'r' => some 13
  | 't' => some 9
  | 'v' => some 11
  | _ => none

def octalDigit (c : Char) : Option Nat :=
  if '0' ≤ c ∧ c ≤ '7' then some (c.toNat - 48) else none

def hexDigit (c : Char) : Option Nat :=
  if '0' ≤ c ∧ c ≤ '9' then some (c.toNat - 48)
  else if 'a' ≤ c ∧ c ≤ 'f' then some (c.toNat - 87)
  else if 'A' ≤ c ∧ c ≤ 'F' then some (c.toNat - 55)
  else none

/-- The bytes of a universal character name. -/
def universalName (value : Nat) : Option (List UInt8) :=
  if (0xA0 ≤ value ∨ value = 0x24 ∨ value = 0x40 ∨ value = 0x60) ∧ value.isValidChar then
    some (String.utf8EncodeChar (Char.ofNat value))
  else none

/-- A character outside of an escape sequence. -/
def plainStep (c : Char) : Option (List UInt8 × Mode) :=
  if c = '"' then some ([], .done)
  else if c = '\\' then some ([], .escaped)
  else if c = '\n' then none
  else some (String.utf8EncodeChar c, .plain)

/-- A numeric escape sequence is over, and the next character has been read. -/
def flush (value : Nat) (c : Char) : Option (List UInt8 × Mode) :=
  if value < 256 then (plainStep c).map fun out => (.ofNat value :: out.1, out.2) else none

/-- The bytes that a character completes, and the mode after it. -/
def step (mode : Mode) (c : Char) : Option (List UInt8 × Mode) :=
  match mode with
  | .plain => plainStep c
  | .escaped =>
    match simpleEscape c, octalDigit c with
    | some b, _ => some ([b], .plain)
    | none, some d => some ([], .octal 1 d)
    | none, none =>
      if c = 'x' then some ([], .hex false 0)
      else if c = 'u' then some ([], .universal 4 0)
      else if c = 'U' then some ([], .universal 8 0)
      else none
  | .octal digits value =>
    match octalDigit c with
    | some d => if digits < 3 then some ([], .octal (digits + 1) (8 * value + d)) else flush value c
    | none => flush value c
  | .hex started value =>
    match hexDigit c with
    | some d => some ([], .hex true (16 * value + d))
    | none => if started then flush value c else none
  | .universal left value =>
    match hexDigit c with
    | some d =>
      if left ≤ 1 then (universalName (16 * value + d)).map fun bytes => (bytes, .plain)
      else some ([], .universal (left - 1) (16 * value + d))
    | none => none
  | .done => none

/-- The reader on some characters. -/
def run (mode : Mode) : List Char → Option (List UInt8 × Mode)
  | [] => some ([], mode)
  | c :: rest => do
    let (bytes, mode) ← step mode c
    let (bytes', mode) ← run mode rest
    some (bytes ++ bytes', mode)

/-- The bytes up to the closing quote, if the text ends with it. -/
def read (mode : Mode) (text : List Char) : Option (List UInt8) := do
  let (bytes, mode) ← run mode text
  if mode = .done then some bytes else none

/-- The bytes that a string literal denotes. -/
def denotes (text : List Char) : Option (List UInt8) :=
  match spliceLines (replaceTrigraphs text) with
  | '"' :: rest => read .plain rest
  | _ => none

/-! ## Texts without trigraphs and line ends -/

theorem replaceTrigraphs_append {front : List Char} (h : '?' ∉ front) (rest : List Char) :
    replaceTrigraphs (front ++ rest) = front ++ replaceTrigraphs rest := by
  induction front with
  | nil => rfl
  | cons c front ih =>
    rw [List.mem_cons, not_or] at h
    rw [List.cons_append, replaceTrigraphs, ih h.2, List.cons_append]
    intro c' rest' hc
    exact absurd hc.symm h.1

theorem replaceTrigraphs_cons {c : Char} (h : c ≠ '?') (rest : List Char) :
    replaceTrigraphs (c :: rest) = c :: replaceTrigraphs rest :=
  replaceTrigraphs_append (by simpa using h.symm : '?' ∉ [c]) rest

theorem spliceLines_eq {text : List Char} (h : '\n' ∉ text) : spliceLines text = text := by
  induction text with
  | nil => rfl
  | cons c text ih =>
    rw [List.mem_cons, not_or] at h
    rw [spliceLines, ih h.2]
    intro rest _ htext
    rw [htext] at h
    exact h.2 List.mem_cons_self

/-! ## Reading piece by piece -/

theorem run_append (mode : Mode) (front rest : List Char) :
    run mode (front ++ rest) = (run mode front).bind fun out =>
      (run out.2 rest).map fun out' => (out.1 ++ out'.1, out'.2) := by
  induction front generalizing mode with
  | nil => simp [run]
  | cons c front ih =>
    rw [List.cons_append, run, run]
    cases step mode c with
    | none => rfl
    | some out =>
      simp only [bind_eq_bind, bind_some, ih]
      cases run out.2 front with
      | none => rfl
      | some out' =>
        simp only [bind_some]
        cases run out'.2 rest with
        | none => rfl
        | some out'' => simp

theorem read_append (mode : Mode) (front rest : List Char) :
    read mode (front ++ rest) = (run mode front).bind fun out =>
      (read out.2 rest).map (out.1 ++ ·) := by
  rw [read, run_append]
  cases run mode front with
  | none => rfl
  | some out =>
    simp only [bind_eq_bind, bind_some, read]
    cases run out.2 rest with
    | none => rfl
    | some out' =>
      by_cases hdone : out'.2 = .done <;> simp [hdone]

theorem read_cons (mode : Mode) (c : Char) (rest : List Char) :
    read mode (c :: rest) = (step mode c).bind fun out =>
      (read out.2 rest).map (out.1 ++ ·) := by
  have happend := read_append mode [c] rest
  rw [List.singleton_append] at happend
  rw [happend, run]
  cases step mode c with
  | none => rfl
  | some out => simp [run]

theorem read_flushed {mode : Mode} {value : Nat} (hvalue : value < 256)
    {rest : List Char} (hmode : mode ≠ .done)
    (hstep : ∀ c ∈ rest.head?, step mode c = flush value c) :
    read mode rest = (read .plain rest).map (.ofNat value :: ·) := by
  cases rest with
  | nil => simp [read, run, hmode]
  | cons c rest =>
    rw [read_cons, read_cons, hstep c rfl, flush, if_pos hvalue]
    show _ = ((plainStep c).bind _).map _
    cases plainStep c with
    | none => rfl
    | some out =>
      simp only [map_some, bind_some]
      cases read out.2 rest <;> rfl

end CText
