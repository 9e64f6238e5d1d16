import Kryndel.CText.StringLiteral

/-!
# Strings of the C backend

`cString` writes a string as a C literal, and `cObfString` as a literal of masked bytes that
`k_obf_str` unmasks at run time. Question marks are written as they are, so that two of them
and one of nine other characters form a trigraph, which the compiler replaces before it looks
for escape sequences: the backend asks for standard C11.
-/

namespace Kryndel

open CText List Option

/-! ## The writers -/

/-- The character of a byte. -/
def byteChar (c : UInt8) : Char := Char.ofNat c.toNat

/-- A digit of a number between 0 and 15, as `fmt` writes it. -/
def fmtDigit (n : Nat) : Char :=
  if n < 10 then Char.ofNat (48 + n) else Char.ofNat (87 + n)

/-- `fmt.Fprintf(&b, "\\%03o", c)`. -/
def octalEscape (c : UInt8) : List Char :=
  ['\\', fmtDigit (c.toNat / 64), fmtDigit (c.toNat / 8 % 8), fmtDigit (c.toNat % 8)]

/-- What the loop of `cString` writes for a byte. -/
def cByte (c : UInt8) : List Char :=
  if c = 34 then ['\\', '"']
  else if c = 92 then ['\\', '\\']
  else if c = 10 then ['\\', 'n']
  else if c = 13 then ['\\', 'r']
  else if c = 9 then ['\\', 't']
  else if c < 0x20 ∨ c ≥ 0x7f then octalEscape c
  else [byteChar c]

/-- `cString`. -/
def cString (s : List UInt8) : List Char :=
  '"' :: (s.flatMap cByte ++ ['"'])

/-- `byte(0x5a + (i*31) + (n*7))`. -/
def obfMask (n i : Nat) : UInt8 := .ofNat (0x5a + i * 31 + n * 7)

/-- `fmt.Fprintf(&b, "\\x%02x", c)`. -/
def hexEscape (c : UInt8) : List Char :=
  ['\\', 'x', fmtDigit (c.toNat / 16), fmtDigit (c.toNat % 16)]

/-- The loop of `cObfString` from index `i` on. -/
def cObfBytes (n : Nat) : Nat → List UInt8 → List Char
  | _, [] => []
  | i, c :: rest => hexEscape (c ^^^ obfMask n i) ++ cObfBytes n (i + 1) rest

/-- `cObfString`. -/
def cObfString (s : List UInt8) : List Char :=
  '"' :: (cObfBytes s.length 0 s ++ ['"'])

/-- `(unsigned char)(0x5a + (i*31) + (n*7))`, where `i` and `n` are `size_t`. -/
def kObfMask (n i : UInt64) : UInt8 := (0x5a + i * 31 + n * 7).toUInt8

/-- The loop of `k_obf_str` from index `i` on. -/
def kObfLoop (n : UInt64) : Nat → List UInt8 → List UInt8
  | _, [] => []
  | i, c :: rest => (c ^^^ kObfMask n (.ofNat i)) :: kObfLoop n (i + 1) rest

/-- `k_obf_str` on the first `n` bytes of a literal. -/
def kObfStr (enc : List UInt8) (n : Nat) : List UInt8 :=
  kObfLoop (.ofNat n) 0 (enc.take n)

/-- Somewhere in a string are two question marks and a character that makes a trigraph of
    them. -/
def HasTrigraph (s : List UInt8) : Prop :=
  ∃ c, (trigraph (byteChar c)).isSome ∧ [63, 63, c] <:+: s

/-! ## What the writers write -/

theorem toNat_byteChar (c : UInt8) : (byteChar c).toNat = c.toNat := by
  have hlt := c.toNat_lt
  have hvalid : c.toNat.isValidChar := Or.inl (by omega)
  rw [byteChar, Char.ofNat, dif_pos hvalid]
  rfl

theorem byteChar_eq_iff (c : UInt8) (ch : Char) : byteChar c = ch ↔ c.toNat = ch.toNat := by
  rw [← Char.toNat_inj, toNat_byteChar]

/-- A byte is written as it is, as a backslash and one character, or as a backslash and three
    octal digits. -/
inductive Written : UInt8 → List Char → Prop
  | raw (c : UInt8) (hrange : 32 ≤ c.toNat ∧ c.toNat < 127) (hquote : c ≠ 34)
      (hback : c ≠ 92) : Written c [byteChar c]
  | simple (c : UInt8) (e : Char) (hescape : simpleEscape e = some c)
      (he : e = '"' ∨ e = '\\' ∨ e = 'n' ∨ e = 'r' ∨ e = 't') : Written c ['\\', e]
  | octal (c : UInt8) (hrange : c.toNat < 32 ∨ 127 ≤ c.toNat) : Written c (octalEscape c)

theorem cByte_written (c : UInt8) : Written c (cByte c) := by
  unfold cByte
  split
  · next h => exact h ▸ .simple 34 '"' rfl (by simp)
  split
  · next h => exact h ▸ .simple 92 '\\' rfl (by simp)
  split
  · next h => exact h ▸ .simple 10 'n' rfl (by simp)
  split
  · next h => exact h ▸ .simple 13 'r' rfl (by simp)
  split
  · next h => exact h ▸ .simple 9 't' rfl (by simp)
  split
  · next hrange =>
    rw [UInt8.lt_iff_toNat_lt, ge_iff_le, UInt8.le_iff_toNat_le] at hrange
    exact .octal c hrange
  · next hquote hback _ _ _ hrange =>
    rw [UInt8.lt_iff_toNat_lt, ge_iff_le, UInt8.le_iff_toNat_le, not_or] at hrange
    have hlow : ¬ c.toNat < 32 := hrange.1
    have hhigh : ¬ 127 ≤ c.toNat := hrange.2
    exact .raw c (by omega) hquote hback

theorem fmtDigit_octal : ∀ n < 8, octalDigit (fmtDigit n) = some n := by decide

theorem fmtDigit_hex : ∀ n < 16, hexDigit (fmtDigit n) = some n := by decide

theorem fmtDigit_ne : ∀ n < 16, fmtDigit n ≠ '?' ∧ fmtDigit n ≠ '\n' := by decide

variable {c : UInt8} {text : List Char}

theorem Written.clean (h : Written c text) :
    (c ≠ 63 → '?' ∉ text) ∧ '\n' ∉ text := by
  cases h with
  | raw hrange hquote hback =>
    simp only [List.mem_singleton]
    constructor
    · intro hne heq
      have htoNat := (byteChar_eq_iff c '?').mp heq.symm
      exact hne (UInt8.toNat_inj.mp htoNat)
    · intro heq
      have htoNat : c.toNat = 10 := (byteChar_eq_iff c '\n').mp heq.symm
      omega
  | simple e hescape he =>
    rcases he with rfl | rfl | rfl | rfl | rfl <;> exact ⟨fun _ => by decide, by decide⟩
  | octal hrange =>
    have hlt := c.toNat_lt
    have h₁ := fmtDigit_ne (c.toNat / 64) (by omega)
    have h₂ := fmtDigit_ne (c.toNat / 8 % 8) (by omega)
    have h₃ := fmtDigit_ne (c.toNat % 8) (by omega)
    simp only [octalEscape, List.mem_cons, List.not_mem_nil, or_false, not_or]
    exact ⟨fun _ => ⟨by decide, h₁.1.symm, h₂.1.symm, h₃.1.symm⟩,
      by decide, h₁.2.symm, h₂.2.symm, h₃.2.symm⟩

theorem Written.head (h : Written c text) :
    text = [byteChar c] ∨ trigraph (byteChar c) = none ∧ ∃ rest, text = '\\' :: rest := by
  cases h with
  | raw => exact Or.inl rfl
  | simple e hescape he =>
    refine Or.inr ⟨?_, _, rfl⟩
    rcases he with rfl | rfl | rfl | rfl | rfl <;> cases hescape <;> rfl
  | octal hrange =>
    refine Or.inr ⟨?_, _, rfl⟩
    unfold trigraph
    split <;> first | rfl | skip
    all_goals
      next heq =>
        have htoNat := (byteChar_eq_iff c _).mp heq
        simp at htoNat
        omega

/-! ## After the first phase -/

/-- The body of a literal and its closing quote, after the trigraphs have been replaced. -/
def afterTrigraphs : List UInt8 → List Char
  | 63 :: 63 :: c :: rest =>
    match trigraph (byteChar c) with
    | some r => r :: afterTrigraphs rest
    | none => '?' :: afterTrigraphs (63 :: c :: rest)
  | c :: rest => cByte c ++ afterTrigraphs rest
  | [] => ['"']

theorem replaceTrigraphs_question {rest : List Char}
    (h : ∀ c rest', rest = '?' :: c :: rest' → trigraph c = none) :
    replaceTrigraphs ('?' :: rest) = '?' :: replaceTrigraphs rest := by
  by_cases hrest : ∃ c rest', rest = '?' :: c :: rest'
  · obtain ⟨c, rest', rfl⟩ := hrest
    rw [replaceTrigraphs, h c rest' rfl]
  · rw [replaceTrigraphs]
    intro c rest' _ heq
    exact hrest ⟨c, rest', heq⟩

theorem body_head (s : List UInt8) :
    (∃ rest, s.flatMap cByte ++ ['"'] = '"' :: rest ∨ s.flatMap cByte ++ ['"'] = '\\' :: rest) ∨
      ∃ c s', s = c :: s' ∧ cByte c = [byteChar c] := by
  cases s with
  | nil => exact Or.inl ⟨[], Or.inl rfl⟩
  | cons c s =>
    rcases (cByte_written c).head with hraw | ⟨-, rest, hback⟩
    · exact Or.inr ⟨c, s, rfl, hraw⟩
    · refine Or.inl ⟨rest ++ s.flatMap cByte ++ ['"'], Or.inr ?_⟩
      rw [flatMap_cons, hback]
      simp

attribute [local simp] afterTrigraphs in
theorem replaceTrigraphs_body (s : List UInt8) :
    replaceTrigraphs (s.flatMap cByte ++ ['"']) = afterTrigraphs s := by
  induction s using afterTrigraphs.induct with
  | case1 c rest r htri ih =>
    -- The third byte of a trigraph is written as it is.
    have hraw : cByte c = [byteChar c] := by
      rcases (cByte_written c).head with hraw | ⟨hnone, -⟩
      · exact hraw
      · rw [htri] at hnone
        cases hnone
    have hquestion : cByte 63 = ['?'] := rfl
    rw [afterTrigraphs, htri, List.flatMap_cons, List.flatMap_cons, List.flatMap_cons, hraw,
      hquestion]
    show replaceTrigraphs ('?' :: '?' :: byteChar c :: (rest.flatMap cByte ++ ['"'])) = _
    rw [replaceTrigraphs, htri, ih]
  | case2 c rest htri ih =>
    rw [afterTrigraphs, htri, flatMap_cons]
    show replaceTrigraphs ('?' :: ((63 :: c :: rest).flatMap cByte ++ ['"'])) = _
    rw [replaceTrigraphs_question, ih]
    intro c' rest' heq
    have hnext : '?' :: ((c :: rest).flatMap cByte ++ ['"']) = '?' :: c' :: rest' := heq
    rw [List.cons.injEq] at hnext
    rcases (cByte_written c).head with hraw | ⟨-, text, hback⟩
    · rw [flatMap_cons, hraw] at hnext
      obtain ⟨rfl, -⟩ := List.cons.inj hnext.2
      exact htri
    · rw [flatMap_cons, hback] at hnext
      obtain ⟨rfl, -⟩ := List.cons.inj hnext.2
      rfl
  | case3 c rest hnot ih =>
    rw [afterTrigraphs, flatMap_cons, append_assoc]
    · by_cases hc : c = 63
      · subst hc
        show replaceTrigraphs ('?' :: (rest.flatMap cByte ++ ['"'])) = '?' :: afterTrigraphs rest
        rw [replaceTrigraphs_question, ih]
        intro c' rest' heq
        rcases body_head rest with ⟨text, hquote | hback⟩ | ⟨c₂, s, rfl, hraw⟩
        · rw [hquote] at heq
          cases heq
        · rw [hback] at heq
          cases heq
        · rw [List.flatMap_cons, hraw] at heq
          obtain ⟨hfirst, hrest⟩ := List.cons.inj heq
          have hc₂ : c₂ = 63 := UInt8.toNat_inj.mp ((byteChar_eq_iff c₂ '?').mp hfirst)
          -- Another byte would have made the first case of the definition.
          cases s with
          | nil =>
            obtain ⟨rfl, -⟩ := List.cons.inj hrest
            rfl
          | cons c₃ s => exact (hnot c₃ s rfl (by rw [hc₂])).elim
      · rw [replaceTrigraphs_append ((cByte_written c).clean.1 hc), ih]
    · exact hnot
  | case4 => rfl

theorem trigraph_ne {c r : Char} (h : trigraph c = some r) : r ≠ '\n' ∧ r ≠ '?' := by
  unfold trigraph at h
  split at h <;> cases h <;> decide

theorem afterTrigraphs_clean (s : List UInt8) : '\n' ∉ afterTrigraphs s := by
  induction s using afterTrigraphs.induct with
  | case1 c rest r htri ih =>
    rw [afterTrigraphs, htri, List.mem_cons, not_or]
    exact ⟨(trigraph_ne htri).1.symm, ih⟩
  | case2 c rest htri ih =>
    rw [afterTrigraphs, htri, List.mem_cons, not_or]
    exact ⟨by decide, ih⟩
  | case3 c rest hnot ih =>
    rw [afterTrigraphs, List.mem_append, not_or]
    · exact ⟨(cByte_written c).clean.2, ih⟩
    · exact hnot
  | case4 => decide

theorem denotes_cString (s : List UInt8) :
    denotes (cString s) = read .plain (afterTrigraphs s) := by
  have hquote : replaceTrigraphs (cString s) = '"' :: afterTrigraphs s := by
    rw [cString, replaceTrigraphs_cons (by decide), replaceTrigraphs_body]
  have hsplice : spliceLines ('"' :: afterTrigraphs s) = '"' :: afterTrigraphs s := by
    apply spliceLines_eq
    rw [mem_cons, not_or]
    exact ⟨by decide, afterTrigraphs_clean s⟩
  rw [denotes, hquote, hsplice]
  rfl

/-! ## Reading what was written -/

theorem utf8_byteChar (h : c.toNat < 128) :
    String.utf8EncodeChar (byteChar c) = [c] := by
  have hval : (byteChar c).val.toNat = c.toNat := toNat_byteChar c
  unfold String.utf8EncodeChar
  simp only [hval, if_pos (by omega : c.toNat ≤ 127)]
  simp

theorem plainStep_byteChar (hrange : 32 ≤ c.toNat ∧ c.toNat < 127) (hquote : c ≠ 34)
    (hback : c ≠ 92) : plainStep (byteChar c) = some ([c], .plain) := by
  have hne (d : UInt8) (ch : Char) (hch : ch.toNat = d.toNat) (hcd : c ≠ d) :
      byteChar c ≠ ch := by
    rw [Ne, byteChar_eq_iff, hch, UInt8.toNat_inj]
    exact hcd
  have hline : byteChar c ≠ '\n' := by
    rw [Ne, byteChar_eq_iff]
    have hten : '\n'.toNat = 10 := rfl
    omega
  rw [plainStep, if_neg (hne 34 '"' rfl hquote), if_neg (hne 92 '\\' rfl hback), if_neg hline,
    utf8_byteChar (by omega)]

theorem Written.run_plain (h : Written c text) :
    run .plain text = some ([c], .plain) ∨ run .plain text = some ([], .octal 3 c.toNat) := by
  cases h with
  | raw hrange hquote hback =>
    left
    simp [run, step, plainStep_byteChar hrange hquote hback]
  | simple e hescape he =>
    left
    simp [run, step, plainStep, hescape]
  | octal hrange =>
    right
    have hlt := c.toNat_lt
    have hsum : 8 * (8 * (c.toNat / 64) + c.toNat / 8 % 8) + c.toNat % 8 = c.toNat := by omega
    have hnone : simpleEscape (fmtDigit (c.toNat / 64)) = none := by
      have hall : ∀ n < 8, simpleEscape (fmtDigit n) = none := by decide
      exact hall _ (by omega)
    simp [run, octalEscape, step, plainStep, hnone, fmtDigit_octal (c.toNat / 64) (by omega),
      fmtDigit_octal (c.toNat / 8 % 8) (by omega), fmtDigit_octal (c.toNat % 8) (by omega), hsum]

theorem step_octal_full (value : Nat) (c : Char) : step (.octal 3 value) c = flush value c := by
  rw [step]
  cases octalDigit c <;> rfl

theorem read_cByte (c : UInt8) (rest : List Char) :
    read .plain (cByte c ++ rest) = (read .plain rest).map (c :: ·) := by
  rw [read_append]
  rcases (cByte_written c).run_plain with hread | hread
  · rw [hread]
    rfl
  · rw [hread, Option.bind_some]
    have hnotdone : Mode.octal 3 c.toNat ≠ .done := by simp
    have hflushed := @read_flushed _ _ c.toNat_lt rest hnotdone fun ch _ =>
      step_octal_full c.toNat ch
    rw [hflushed, UInt8.ofNat_toNat]
    cases read .plain rest <;> rfl

/-! ## Trigraphs lose bytes -/

/-- How many more bytes a reader may give than the string has from here on, at most. -/
def debt : Mode → Nat
  | .plain => 0
  | .escaped => 3
  | .octal _ _ => 1
  | .hex _ _ => 1
  | .universal left _ => 4 - left
  | .done => 0

theorem utf8_length (c : Char) : (String.utf8EncodeChar c).length ≤ 4 := by
  unfold String.utf8EncodeChar
  simp only
  split
  · simp
  split
  · simp
  split <;> simp

variable {bytes : List UInt8} {mode : Mode}

theorem plainStep_debt {c : Char} (hascii : c.toNat < 128) (h : plainStep c = some (bytes, mode)) :
    bytes.length + debt mode ≤ if c = '\\' then 3 else 1 := by
  unfold plainStep at h
  split at h
  · cases h
    simp [debt]
  split at h
  · next hback =>
    cases h
    simp [debt, hback]
  split at h
  · cases h
  · next hback _ =>
    cases h
    have hone : (String.utf8EncodeChar c).length = 1 := by
      have hval : c.val.toNat = c.toNat := rfl
      unfold String.utf8EncodeChar
      simp only [hval, if_pos (by omega : c.toNat ≤ 127)]
      rfl
    rw [hone, if_neg hback]
    exact Nat.le_refl _

theorem flush_debt {value : Nat} {c : Char} (hascii : c.toNat < 128)
    (h : flush value c = some (bytes, mode)) :
    bytes.length + debt mode ≤ 1 + if c = '\\' then 3 else 1 := by
  unfold flush at h
  split at h
  · obtain ⟨out, hout, heq⟩ := Option.map_eq_some_iff.mp h
    cases heq
    have hle := plainStep_debt hascii (show plainStep _ = some (out.1, out.2) from hout)
    rw [List.length_cons]
    omega
  · cases h

/-- An escape sequence that has just begun gives one byte for the next character at most. -/
theorem escaped_debt {c : Char} (h : step .escaped c = some (bytes, mode)) :
    bytes.length + debt mode ≤ 1 := by
  rw [step] at h
  split at h
  · cases h
    exact Nat.le_refl _
  · cases h
    exact Nat.le_refl _
  · split at h
    · cases h
      exact Nat.le_refl _
    split at h
    · cases h
      decide
    split at h
    · cases h
      decide
    · cases h

variable {m : Mode}

theorem step_debt {c : Char} (hascii : c.toNat < 128) (h : step m c = some (bytes, mode)) :
    bytes.length + debt mode ≤ debt m + if c = '\\' then 3 else 1 := by
  have hone : 1 ≤ if c = '\\' then 3 else 1 := by split <;> omega
  cases m with
  | plain =>
    have hle := plainStep_debt hascii h
    simpa [debt] using hle
  | escaped =>
    have hle := escaped_debt h
    omega
  | octal digits value =>
    rw [step] at h
    split at h
    · split at h
      · cases h
        show 0 + 1 ≤ 1 + _
        omega
      · exact flush_debt hascii h
    · exact flush_debt hascii h
  | hex started value =>
    rw [step] at h
    split at h
    · cases h
      show 0 + 1 ≤ 1 + _
      omega
    · split at h
      · exact flush_debt hascii h
      · cases h
  | universal left value =>
    rw [step] at h
    split at h
    · split at h
      · next hleft =>
        obtain ⟨name, hname, heq⟩ := Option.map_eq_some_iff.mp h
        cases heq
        have hlength : bytes.length ≤ 4 := by
          unfold universalName at hname
          split at hname
          · cases hname
            exact utf8_length _
          · cases hname
        show bytes.length + 0 ≤ 4 - left + _
        omega
      · cases h
        show 0 + (4 - (left - 1)) ≤ 4 - left + _
        omega
    · cases h
  | done => cases h

theorem run_debt (hascii : ∀ c ∈ text, c.toNat < 128 ∧ c ≠ '\\')
    (h : run m text = some (bytes, mode)) :
    bytes.length + debt mode ≤ debt m + text.length := by
  induction text generalizing m bytes with
  | nil =>
    cases h
    simp
  | cons c text ih =>
    rw [run] at h
    cases hstep : step m c with
    | none =>
      rw [hstep] at h
      cases h
    | some out =>
      cases hrun : run out.2 text with
      | none =>
        simp only [hstep, Option.bind_eq_bind, Option.bind_some, hrun, Option.bind_none] at h
        cases h
      | some out' =>
        simp only [hstep, Option.bind_eq_bind, Option.bind_some, hrun, Option.some.injEq] at h
        cases h
        have hc := hascii c List.mem_cons_self
        have hfirst := step_debt hc.1 (show step _ _ = some (out.1, out.2) from hstep)
        rw [if_neg hc.2] at hfirst
        have hrest := ih (fun c' hc' => hascii c' (List.mem_cons_of_mem _ hc'))
          (show run _ _ = some (out'.1, out'.2) from hrun)
        simp only [List.length_append, List.length_cons]
        omega

theorem step_backslash (h : step m '\\' = some (bytes, mode)) :
    mode = .escaped ∧ bytes.length = debt m ∧ debt m ≤ 1 ∨
      m = .escaped ∧ mode = .plain ∧ bytes = [92] := by
  have hflush {value : Nat} (hf : flush value '\\' = some (bytes, mode)) :
      mode = .escaped ∧ bytes.length = 1 := by
    unfold flush at hf
    split at hf <;> cases hf
    exact ⟨rfl, rfl⟩
  cases m with
  | plain =>
    cases h
    exact Or.inl ⟨rfl, rfl, Nat.zero_le _⟩
  | escaped =>
    cases h
    exact Or.inr ⟨rfl, rfl, rfl⟩
  | octal digits value =>
    obtain ⟨hmode, hlength⟩ := hflush h
    exact Or.inl ⟨hmode, hlength, Nat.le_refl _⟩
  | hex started value =>
    cases started with
    | true =>
      obtain ⟨hmode, hlength⟩ := hflush h
      exact Or.inl ⟨hmode, hlength, Nat.le_refl _⟩
    | false => cases h
  | universal left value => cases h
  | done => cases h

theorem fmtDigit_plain : ∀ n < 16, (fmtDigit n).toNat < 128 ∧ fmtDigit n ≠ '\\' := by decide

/-- A written byte is read as one byte at most, whatever the reader was in the middle of. -/
theorem Written.debt_le (hw : Written c text) (h : run m text = some (bytes, mode)) :
    bytes.length + debt mode ≤ debt m + 1 := by
  -- A backslash and some characters, which would be an escape sequence for the plain reader.
  have hescape {rest : List Char} (hascii : ∀ c ∈ rest, c.toNat < 128)
      (hplain : ∀ bytes mode, run .plain rest = some (bytes, mode) →
        bytes.length + debt mode ≤ 3)
      (hescaped : ∀ bytes mode, run .escaped rest = some (bytes, mode) →
        bytes.length + debt mode ≤ 1)
      (hrun : run m ('\\' :: rest) = some (bytes, mode)) :
      bytes.length + debt mode ≤ debt m + 1 := by
    rw [run] at hrun
    cases hstep : step m '\\' with
    | none =>
      rw [hstep] at hrun
      cases hrun
    | some out =>
      cases hrest : run out.2 rest with
      | none =>
        simp only [hstep, Option.bind_eq_bind, Option.bind_some, hrest, Option.bind_none] at hrun
        cases hrun
      | some out' =>
        simp only [hstep, Option.bind_eq_bind, Option.bind_some, hrest, Option.some.injEq] at hrun
        cases hrun
        rw [List.length_append]
        rcases step_backslash (show step _ _ = some (out.1, out.2) from hstep) with
          ⟨hmode, hlength, -⟩ | ⟨rfl, hmode, hbytes⟩
        · rw [hmode] at hrest
          have hle := hescaped out'.1 out'.2 hrest
          omega
        · rw [hmode] at hrest
          have hle := hplain out'.1 out'.2 hrest
          rw [hbytes]
          show 1 + _ + _ ≤ 3 + 1
          omega
  cases hw with
  | raw hrange hquote hback =>
    refine run_debt ?_ h
    intro ch hch
    rw [List.mem_singleton.mp hch, toNat_byteChar, Ne, byteChar_eq_iff]
    refine ⟨by omega, ?_⟩
    intro heq
    exact hback (UInt8.toNat_inj.mp heq)
  | simple e hescaped he =>
    refine hescape ?_ ?_ ?_ h
    · intro ch hch
      rw [List.mem_singleton.mp hch]
      rcases he with rfl | rfl | rfl | rfl | rfl <;> decide
    · intro bytes mode hrun
      rcases he with rfl | rfl | rfl | rfl | rfl <;> cases hrun <;> decide
    · intro bytes mode hrun
      simp only [run, step, hescaped] at hrun
      cases hrun
      exact Nat.le_refl _
  | octal hrange =>
    have hlt := c.toNat_lt
    have h₁ := fmtDigit_plain (c.toNat / 64) (by omega)
    have h₂ := fmtDigit_plain (c.toNat / 8 % 8) (by omega)
    have h₃ := fmtDigit_plain (c.toNat % 8) (by omega)
    have hdigits : ∀ ch ∈ [fmtDigit (c.toNat / 64), fmtDigit (c.toNat / 8 % 8),
        fmtDigit (c.toNat % 8)], ch.toNat < 128 ∧ ch ≠ '\\' := by
      intro ch hch
      simp only [List.mem_cons, List.not_mem_nil, or_false] at hch
      rcases hch with rfl | rfl | rfl
      · exact h₁
      · exact h₂
      · exact h₃
    refine hescape (fun ch hch => (hdigits ch hch).1) ?_ ?_ h
    · intro bytes mode hrun
      have hle := run_debt hdigits hrun
      simpa [debt] using hle
    · intro bytes mode hrun
      have hnone : simpleEscape (fmtDigit (c.toNat / 64)) = none := by
        have hall : ∀ n < 8, simpleEscape (fmtDigit n) = none := by decide
        exact hall _ (by omega)
      simp only [run, step, hnone, fmtDigit_octal (c.toNat / 64) (by omega),
        fmtDigit_octal (c.toNat / 8 % 8) (by omega), fmtDigit_octal (c.toNat % 8) (by omega)]
        at hrun
      cases hrun
      exact Nat.le_refl _

theorem trigraph_step {c r : Char} (h : trigraph c = some r) :
    r.toNat < 128 ∧ (step .plain r = some ([], .escaped) ∨
      ∃ b, b ≠ 63 ∧ step .plain r = some ([b], .plain)) := by
  unfold trigraph at h
  split at h <;> cases h <;>
    first
    | exact ⟨by decide, Or.inl rfl⟩
    | exact ⟨by decide, Or.inr ⟨_, by decide, rfl⟩⟩

variable {s : List UInt8}

theorem read_debt (h : read m (afterTrigraphs s) = some bytes) :
    bytes.length ≤ debt m + s.length := by
  induction s using afterTrigraphs.induct generalizing m bytes with
  | case1 c rest r htri ih =>
    rw [afterTrigraphs, htri, read_cons] at h
    obtain ⟨out, hstep, hread⟩ := Option.bind_eq_some_iff.mp h
    obtain ⟨bytes', hrest, rfl⟩ := Option.map_eq_some_iff.mp hread
    have hfirst := step_debt (trigraph_step htri).1 (show step _ _ = some (out.1, out.2) from hstep)
    have hle := ih hrest
    simp only [List.length_append, List.length_cons]
    split at hfirst <;> omega
  | case2 c rest htri ih =>
    rw [afterTrigraphs, htri, read_cons] at h
    obtain ⟨out, hstep, hread⟩ := Option.bind_eq_some_iff.mp h
    obtain ⟨bytes', hrest, rfl⟩ := Option.map_eq_some_iff.mp hread
    have hfirst := step_debt (by decide) (show step _ _ = some (out.1, out.2) from hstep)
    rw [if_neg (by decide)] at hfirst
    have hle := ih hrest
    simp only [List.length_append, List.length_cons] at hle ⊢
    omega
  | case3 c rest hnot ih =>
    rw [afterTrigraphs, read_append] at h
    · obtain ⟨out, hrun, hread⟩ := Option.bind_eq_some_iff.mp h
      obtain ⟨bytes', hrest, rfl⟩ := Option.map_eq_some_iff.mp hread
      have hfirst := (cByte_written c).debt_le (show run _ _ = some (out.1, out.2) from hrun)
      have hle := ih hrest
      simp only [List.length_append, List.length_cons]
      omega
    · exact hnot
  | case4 =>
    have hquote {value : Nat} (hf : (flush value '"').bind (fun out =>
        (read out.2 []).map (out.1 ++ ·)) = some bytes) : bytes.length ≤ 1 := by
      unfold flush at hf
      split at hf <;> cases hf
      exact Nat.le_refl _
    rw [afterTrigraphs, read_cons] at h
    cases m with
    | plain =>
      cases h
      exact Nat.le_refl _
    | escaped => cases h
    | octal digits value => exact hquote h
    | hex started value =>
      cases started with
      | true => exact hquote h
      | false => cases h
    | universal left value => cases h
    | done => cases h

/-- After the backslash of a trigraph there are too few bytes, if the first one is a question
    mark. -/
theorem read_escaped (h : read .escaped (afterTrigraphs s) = some (63 :: bytes)) :
    bytes.length + 1 < s.length + 3 := by
  -- A character that the reader sees right after the backslash.
  have hfirst {c : Char} {rest : List UInt8}
      (hread : read .escaped (c :: afterTrigraphs rest) = some (63 :: bytes)) :
      bytes.length + 1 ≤ rest.length + 1 := by
    rw [read_cons] at hread
    obtain ⟨out, hstep, hread⟩ := bind_eq_some_iff.mp hread
    obtain ⟨bytes', hrest, heq⟩ := map_eq_some_iff.mp hread
    have hle := escaped_debt (show step _ _ = some (out.1, out.2) from hstep)
    have hle' := read_debt hrest
    have hlength := congrArg List.length heq
    simp only [length_append, length_cons] at hlength
    omega
  have hback {text : List Char} (hread : read .escaped ('\\' :: text) = some (63 :: bytes)) :
      False := by
    rw [read_cons] at hread
    obtain ⟨out, hstep, hread⟩ := bind_eq_some_iff.mp hread
    obtain ⟨bytes', -, heq⟩ := map_eq_some_iff.mp hread
    cases hstep
    cases heq
  cases s using afterTrigraphs.fun_cases with
  | case1 c rest r htri =>
    rw [afterTrigraphs, htri] at h
    have hle := hfirst h
    simp only [length_cons]
    omega
  | case2 c rest htri =>
    rw [afterTrigraphs, htri] at h
    have hle := hfirst h
    simp only [length_cons] at hle ⊢
    omega
  | case3 c rest hnot =>
    rw [afterTrigraphs] at h
    · rcases (cByte_written c).head with hraw | ⟨-, text, htext⟩
      · rw [hraw] at h
        have hle := hfirst h
        simp only [length_cons]
        omega
      · rw [htext] at h
        exact (hback h).elim
    · exact hnot
  | case4 => cases h

/-! ## Literals and their strings -/

theorem HasTrigraph.of_cons {b : UInt8} (h : HasTrigraph (b :: s)) :
    HasTrigraph s ∨ b = 63 ∧ ∃ c rest, s = 63 :: c :: rest ∧ (trigraph (byteChar c)).isSome := by
  obtain ⟨c, htri, hinfix⟩ := h
  rcases infix_cons_iff.mp hinfix with hprefix | hinfix
  · obtain ⟨rest, heq⟩ := hprefix
    rw [cons_append, List.cons.injEq] at heq
    exact Or.inr ⟨heq.1.symm, c, rest, heq.2.symm, htri⟩
  · exact Or.inl ⟨c, htri, hinfix⟩

theorem HasTrigraph.cons {s : List UInt8} (b : UInt8) (h : HasTrigraph s) :
    HasTrigraph (b :: s) := by
  obtain ⟨c, htri, hinfix⟩ := h
  exact ⟨c, htri, infix_cons_iff.mpr (Or.inr hinfix)⟩

theorem map_cons_eq_some {b : UInt8} {r : Option (List UInt8)} :
    r.map (b :: ·) = some (b :: s) ↔ r = some s := by
  rw [map_eq_some_iff]
  constructor
  · intro h
    obtain ⟨bytes, hr, heq⟩ := h
    rw [hr, (List.cons.inj heq).2]
  · intro h
    exact ⟨s, h, rfl⟩

theorem read_afterTrigraphs (s : List UInt8) :
    read .plain (afterTrigraphs s) = some s ↔ ¬ HasTrigraph s := by
  induction s using afterTrigraphs.induct with
  | case1 c rest r htri ih =>
    have hhas : HasTrigraph (63 :: 63 :: c :: rest) :=
      ⟨c, by rw [htri]; rfl, (prefix_append [63, 63, c] rest).isInfix⟩
    refine iff_of_false ?_ (not_not_intro hhas)
    rw [afterTrigraphs, htri, read_cons]
    rcases (trigraph_step htri).2 with hstep | ⟨b, hb, hstep⟩
    · rw [hstep]
      intro h
      obtain ⟨bytes, hread, heq⟩ := map_eq_some_iff.mp h
      rw [nil_append] at heq
      subst heq
      have hlt := read_escaped hread
      simp only [length_cons] at hlt
      omega
    · rw [hstep]
      intro h
      obtain ⟨bytes, -, heq⟩ := map_eq_some_iff.mp h
      exact hb (List.cons.inj heq).1
  | case2 c rest htri ih =>
    have hread : read .plain (afterTrigraphs (63 :: 63 :: c :: rest)) =
        (read .plain (afterTrigraphs (63 :: c :: rest))).map (63 :: ·) := by
      rw [afterTrigraphs, htri]
      exact read_cByte 63 _
    rw [hread, map_cons_eq_some, ih, not_iff_not]
    refine ⟨HasTrigraph.cons 63, ?_⟩
    intro h
    rcases h.of_cons with h | ⟨-, c', rest', heq, hsome⟩
    · exact h
    · obtain ⟨rfl, -⟩ := List.cons.inj (List.cons.inj heq).2
      rw [htri] at hsome
      cases hsome
  | case3 c rest hnot ih =>
    rw [afterTrigraphs, read_cByte, map_cons_eq_some, ih, not_iff_not]
    · refine ⟨HasTrigraph.cons c, ?_⟩
      intro h
      rcases h.of_cons with h | ⟨rfl, c', rest', rfl, -⟩
      · exact h
      · exact (hnot c' rest' rfl rfl).elim
    · exact hnot
  | case4 =>
    refine iff_of_true rfl ?_
    intro h
    obtain ⟨c, -, hinfix⟩ := h
    cases infix_nil.mp hinfix

/-! ## Masked strings -/

/-- The masked bytes of a string from index `i` on. -/
def masked (n : Nat) : Nat → List UInt8 → List UInt8
  | _, [] => []
  | i, c :: rest => (c ^^^ obfMask n i) :: masked n (i + 1) rest

theorem length_masked (n i : Nat) (s : List UInt8) : (masked n i s).length = s.length := by
  induction s generalizing i with
  | nil => rfl
  | cons c s ih => rw [masked, length_cons, ih, length_cons]

theorem kObfMask_ofNat (n i : Nat) : kObfMask (.ofNat n) (.ofNat i) = obfMask n i := by
  rw [← UInt8.toNat_inj]
  simp only [kObfMask, obfMask, UInt64.toNat_toUInt8, UInt64.toNat_add, UInt64.toNat_mul,
    UInt64.toNat_ofNat', UInt8.toNat_ofNat', UInt64.toNat_ofNat]
  omega

theorem kObfLoop_masked (n i : Nat) (s : List UInt8) :
    kObfLoop (.ofNat n) i (masked n i s) = s := by
  induction s generalizing i with
  | nil => rfl
  | cons c s ih =>
    rw [masked, kObfLoop, ih, kObfMask_ofNat, UInt8.xor_assoc, UInt8.xor_self, UInt8.xor_zero]

theorem read_hexEscape (c : UInt8) {rest : List Char}
    (hrest : ∀ ch ∈ rest.head?, hexDigit ch = none) :
    read .plain (hexEscape c ++ rest) = (read .plain rest).map (c :: ·) := by
  have hlt := c.toNat_lt
  have hsum : 16 * (c.toNat / 16) + c.toNat % 16 = c.toNat := by omega
  have hrun : run .plain (hexEscape c) = some ([], .hex true c.toNat) := by
    simp [run, hexEscape, step, plainStep, simpleEscape, octalDigit,
      fmtDigit_hex (c.toNat / 16) (by omega), fmtDigit_hex (c.toNat % 16) (by omega), hsum]
  rw [read_append, hrun, bind_some]
  have hnotdone : Mode.hex true c.toNat ≠ .done := by simp
  have hflushed := @read_flushed _ _ hlt rest hnotdone fun ch hch => by
    rw [step, hrest ch hch]
    rfl
  rw [hflushed, UInt8.ofNat_toNat]
  cases read .plain rest <;> rfl

theorem read_cObfBytes (n i : Nat) (s : List UInt8) :
    read .plain (cObfBytes n i s ++ ['"']) = some (masked n i s) := by
  induction s generalizing i with
  | nil => rfl
  | cons c s ih =>
    rw [cObfBytes, append_assoc, read_hexEscape, ih]
    · rfl
    · -- The next character is a backslash or the closing quote.
      intro ch hch
      cases s with
      | nil | cons =>
        cases hch
        rfl

theorem cObfBytes_clean (n i : Nat) (s : List UInt8) :
    '?' ∉ cObfBytes n i s ∧ '\n' ∉ cObfBytes n i s := by
  induction s generalizing i with
  | nil => exact ⟨not_mem_nil, not_mem_nil⟩
  | cons c s ih =>
    have hlt := (c ^^^ obfMask n i).toNat_lt
    have h₁ := fmtDigit_ne ((c ^^^ obfMask n i).toNat / 16) (by omega)
    have h₂ := fmtDigit_ne ((c ^^^ obfMask n i).toNat % 16) (by omega)
    simp only [cObfBytes, hexEscape, mem_append, mem_cons, not_mem_nil, or_false,
      not_or]
    exact ⟨⟨⟨by decide, by decide, h₁.1.symm, h₂.1.symm⟩, (ih (i + 1)).1⟩,
      ⟨by decide, by decide, h₁.2.symm, h₂.2.symm⟩, (ih (i + 1)).2⟩

theorem denotes_cObfString (s : List UInt8) :
    denotes (cObfString s) = some (masked s.length 0 s) := by
  have hclean := cObfBytes_clean s.length 0 s
  have hquestion : '?' ∉ cObfString s := by
    rw [cObfString, mem_cons, mem_append, not_or, not_or]
    exact ⟨by decide, hclean.1, by decide⟩
  have hline : '\n' ∉ cObfString s := by
    rw [cObfString, mem_cons, mem_append, not_or, not_or]
    exact ⟨by decide, hclean.2, by decide⟩
  have hreplaced := replaceTrigraphs_append hquestion []
  rw [append_nil, replaceTrigraphs, append_nil] at hreplaced
  rw [denotes, hreplaced, spliceLines_eq hline]
  exact read_cObfBytes s.length 0 s

/-! ## What the compiler reads -/

/-- The literal of a string denotes the string unless there is a trigraph in it; the masked
    literal always denotes the string, once it is unmasked. -/
theorem cString_denotes_iff (s : List UInt8) :
    (denotes (cString s) = some s ↔ ¬ HasTrigraph s) ∧
      (denotes (cObfString s)).map (kObfStr · s.length) = some s := by
  constructor
  · rw [denotes_cString]
    exact read_afterTrigraphs s
  · rw [denotes_cObfString, map_some, kObfStr, take_of_length_le, kObfLoop_masked]
    exact Nat.le_of_eq (length_masked s.length 0 s)

/-- The literal of `what??!` is read as `what|`. -/
theorem trigraph_misread :
    denotes (cString [119, 104, 97, 116, 63, 63, 33]) = some [119, 104, 97, 116, 124] ∧
      denotes (cString [119, 104, 97, 116, 63, 63, 33]) ≠ some [119, 104, 97, 116, 63, 63, 33] := by
  decide

end Kryndel
