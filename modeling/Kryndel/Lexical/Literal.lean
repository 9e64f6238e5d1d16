import Kryndel.Lexical.Lexer
import Kryndel.Systems.Slices

/-!
# String literals

The lexer, the decoder and the formatter each have their own list of escapes. What a
literal stands for is said once, by the bytes of its body (`LiteralBody`): the lexer cuts
out exactly such a body, the decoder writes its bytes and checks that they are UTF-8, and
what the formatter writes for a string is a body with the bytes of the string. The decoder
works on the bytes of the token; an index outside of it is `none`.
-/

namespace Kryndel

open Systems List

/-! ## The decoder and the formatter -/

/-- The bytes of a text. -/
def bytesOf (cs : List Char) : List UInt8 := cs.flatMap String.utf8EncodeChar

/-- The byte of a backslash. -/
def backslash : UInt8 := 92

/-- What `DecodeString` writes for the byte after a backslash. -/
def escapedByte (n : UInt8) : Option UInt8 :=
  match n with
  | 110 => some 10
  | 114 => some 13
  | 116 => some 9
  | 34 => some 34
  | 92 => some 92
  | _ => none

/-- The value of a hexadecimal digit. -/
def hexValue (b : UInt8) : Option Nat :=
  if 48 ≤ b ∧ b ≤ 57 then some (b.toNat - 48)
  else if 97 ≤ b ∧ b ≤ 102 then some (b.toNat - 87)
  else if 65 ≤ b ∧ b ≤ 70 then some (b.toNat - 55)
  else none

/-- `strconv.ParseUint(digits, 16, 8)`. -/
def parseHex (digits : List UInt8) : Option UInt8 :=
  if digits.isEmpty then none
  else
    match digits.foldlM (fun n d => (hexValue d).map (16 * n + ·)) 0 with
    | some n => if n < 256 then some (.ofNat n) else none
    | none => none

/-- The errors of `DecodeString`. -/
inductive DecodeError where
  | malformed
  | number (digits : List UInt8)
deriving DecidableEq, Repr

/-- The loop of `DecodeString` from byte `i` on, with what the builder holds. -/
def decodeStringLoop (raw : List UInt8) (i : Nat) (b : List UInt8) :
    Option (Except DecodeError (List UInt8)) :=
  if i < raw.length - 1 then
    match raw[i]? with
    | none => none
    | some c =>
      if c ≠ backslash then decodeStringLoop raw (i + 1) (b ++ [c])
      else
        match raw[i + 1]? with
        | none => none
        | some n =>
          match escapedByte n with
          | some e => decodeStringLoop raw (i + 2) (b ++ [e])
          | none =>
            if n = 120 then
              if i + 3 ≥ raw.length - 1 then some (.error .malformed)
              else
                match sliceRange raw (i + 2) (i + 4) with
                | none => none
                | some digits =>
                  match parseHex digits with
                  | none => some (.error (.number digits))
                  | some v => decodeStringLoop raw (i + 4) (b ++ [v])
            else some (.error .malformed)
  else some (.ok b)
termination_by raw.length - i

/-- The string with some bytes, if they are valid UTF-8. -/
def validString (bytes : List UInt8) : Except DecodeError String :=
  match String.fromUTF8? bytes.toByteArray with
  | some s => .ok s
  | none => .error .malformed

/-- `DecodeString`. -/
def decodeString (raw : List UInt8) : Option (Except DecodeError String) :=
  if raw.length < 2 then some (.error .malformed)
  else (decodeStringLoop raw 1 []).map fun
    | .ok b => validString b
    | .error e => .error e

/-- The replacements of `escapeFormat`. -/
def escapeChar (c : Char) : List Char :=
  if c = '\\' then ['\\', '\\']
  else if c = '"' then ['\\', '"']
  else if c = '\n' then ['\\', 'n']
  else if c = '\r' then ['\\', 'r']
  else if c = '\t' then ['\\', 't']
  else [c]

/-- `escapeFormat`. -/
def escapeFormat (s : String) : List Char := s.toList.flatMap escapeChar

/-- The literal that the formatter writes for a string. -/
def quoteFormat (s : String) : List Char := '"' :: (escapeFormat s ++ ['"'])

/-! ## What a literal stands for -/

/-- The characters between the quotes of a literal, with the bytes that they stand for. -/
inductive LiteralBody : List Char → List UInt8 → Prop where
  | nil : LiteralBody [] []
  | char {c : Char} {cs : List Char} {bytes : List UInt8}
      (h : c ≠ '"' ∧ c ≠ '\\' ∧ c ≠ '\n') (hrest : LiteralBody cs bytes) :
      LiteralBody (c :: cs) (bytesOf [c] ++ bytes)
  | escape {n : Char} {e : UInt8} {cs : List Char} {bytes : List UInt8}
      (h : (n, e) ∈ [('n', 10), ('r', 13), ('t', 9), ('\\', 92), ('"', (34 : UInt8))])
      (hrest : LiteralBody cs bytes) : LiteralBody ('\\' :: n :: cs) (e :: bytes)
  | hex {x y : Char} {v : UInt8} {cs : List Char} {bytes : List UInt8}
      (hx : isHex x = true) (hy : isHex y = true) (hv : parseHex (bytesOf [x, y]) = some v)
      (hrest : LiteralBody cs bytes) : LiteralBody ('\\' :: 'x' :: x :: y :: cs) (v :: bytes)

/-! ## Bytes of characters -/

theorem bytesOf_append (cs ds : List Char) : bytesOf (cs ++ ds) = bytesOf cs ++ bytesOf ds :=
  flatMap_append

theorem bytesOf_cons (c : Char) (cs : List Char) : bytesOf (c :: cs) = bytesOf [c] ++ bytesOf cs :=
  bytesOf_append [c] cs

theorem bytesOf_singleton (c : Char) : bytesOf [c] = String.utf8EncodeChar c := by
  simp [bytesOf]

variable {c : Char}

theorem bytesOf_ascii (h : c.toNat < 128) : bytesOf [c] = [.ofNat c.toNat] := by
  have hle : c.val.toNat ≤ 127 := Nat.le_of_lt_succ h
  rw [bytesOf_singleton, String.utf8EncodeChar]
  exact if_pos hle

theorem bytesOf_high (h : 128 ≤ c.toNat) : ∀ b ∈ bytesOf [c], 128 ≤ b.toNat := by
  have hgt : ¬ c.val.toNat ≤ 127 := Nat.not_le.mpr h
  rw [bytesOf_singleton]
  unfold String.utf8EncodeChar
  rw [if_neg hgt]
  intro b hb
  split at hb
  · simp only [mem_cons, not_mem_nil, or_false] at hb
    rcases hb with rfl | rfl <;> simp <;> omega
  · split at hb
    · simp only [mem_cons, not_mem_nil, or_false] at hb
      rcases hb with rfl | rfl | rfl <;> simp <;> omega
    · simp only [mem_cons, not_mem_nil, or_false] at hb
      rcases hb with rfl | rfl | rfl | rfl <;> simp <;> omega

theorem backslash_not_mem (h : c ≠ '\\') : backslash ∉ bytesOf [c] := by
  intro hmem
  by_cases hascii : c.toNat < 128
  · rw [bytesOf_ascii hascii, mem_singleton] at hmem
    have hnat := congrArg UInt8.toNat hmem
    have hback : backslash.toNat = 92 := rfl
    rw [hback, UInt8.toNat_ofNat_of_lt' (Nat.lt_trans hascii (by decide))] at hnat
    apply h
    apply Char.toNat_inj.mp
    exact hnat.symm
  · have := bytesOf_high (Nat.le_of_not_lt hascii) backslash hmem
    exact absurd this (by decide)

theorem isHex_value (h : isHex c = true) :
    bytesOf [c] = [.ofNat c.toNat] ∧ ∃ n, n < 16 ∧ hexValue (.ofNat c.toNat) = some n := by
  have hranges : (48 ≤ c.toNat ∧ c.toNat < 58) ∨ (97 ≤ c.toNat ∧ c.toNat < 103) ∨
      (65 ≤ c.toNat ∧ c.toNat < 71) := by
    simpa [isHex, isByteDigit, or_assoc] using h
  have hascii : c.toNat < 128 := by omega
  have hbyte : (UInt8.ofNat c.toNat).toNat = c.toNat :=
    UInt8.toNat_ofNat_of_lt' (Nat.lt_trans hascii (by decide))
  refine ⟨bytesOf_ascii hascii, ?_⟩
  simp only [hexValue, UInt8.le_iff_toNat_le, hbyte, UInt8.toNat_ofNat]
  rcases hranges with hdigit | hlower | hupper
  · exact ⟨c.toNat - 48, by omega, if_pos (by omega)⟩
  · refine ⟨c.toNat - 87, by omega, ?_⟩
    rw [if_neg (by omega), if_pos (by omega)]
  · refine ⟨c.toNat - 55, by omega, ?_⟩
    rw [if_neg (by omega), if_neg (by omega), if_pos (by omega)]

theorem parseHex_digits {x y : Char} (hx : isHex x = true) (hy : isHex y = true) :
    (bytesOf [x, y]).length = 2 ∧ ∃ v, parseHex (bytesOf [x, y]) = some v := by
  obtain ⟨hbx, m, hm, hvx⟩ := isHex_value hx
  obtain ⟨hby, n, hn, hvy⟩ := isHex_value hy
  rw [bytesOf_cons, hbx, hby]
  refine ⟨rfl, .ofNat (16 * m + n), ?_⟩
  have hlt : 16 * m + n < 256 := by omega
  simp [parseHex, hvx, hvy, hlt]

/-! ## The decoder on a literal -/

section Decoder

variable {raw : List UInt8}

theorem decodeStringLoop_ne_none (raw : List UInt8) (i : Nat) (b : List UInt8) :
    decodeStringLoop raw i b ≠ none := by
  fun_induction decodeStringLoop raw i b with
  | case1 i b hi hget =>
    -- the byte at `i`
    rw [List.getElem?_eq_none_iff] at hget
    omega
  | case3 i b hi c hget hback hnext =>
    -- the byte after a backslash, which is at most the closing quote
    rw [List.getElem?_eq_none_iff] at hnext
    omega
  | case6 i b hi _ _ _ hin hslice _ _ =>
    -- the two digits
    rw [sliceRange, if_pos (by omega)] at hslice
    cases hslice
  | case2 => assumption
  | case4 => assumption
  | case8 => assumption
  | _ => simp

theorem decodeString_ne_none (raw : List UInt8) : decodeString raw ≠ none := by
  rw [decodeString]
  split
  · simp
  · rw [ne_eq, Option.map_eq_none_iff]
    exact decodeStringLoop_ne_none raw 1 []

theorem decodeStringLoop_copy {pre after copied : List UInt8} (b : List UInt8)
    (hplain : backslash ∉ copied) (hafter : after ≠ []) :
    decodeStringLoop (pre ++ copied ++ after) pre.length b =
      decodeStringLoop (pre ++ copied ++ after) (pre ++ copied).length (b ++ copied) := by
  induction copied generalizing pre b with
  | nil => simp
  | cons c cs ih =>
    rw [mem_cons, not_or] at hplain
    have hpos : 0 < after.length := length_pos_of_ne_nil hafter
    have hin : pre.length < (pre ++ c :: cs ++ after).length - 1 := by
      simp only [length_append, length_cons]
      omega
    have hget : (pre ++ c :: cs ++ after)[pre.length]? = some c := by simp
    rw [decodeStringLoop, if_pos hin, hget]
    dsimp only
    rw [if_pos (Ne.symm hplain.1)]
    -- one byte further on, the rest is copied
    have hrest := @ih (pre ++ [c]) (b ++ [c]) hplain.2
    simpa using hrest

/-- The bytes between the quotes are read as what they stand for. -/
theorem decodeStringLoop_body {body : List Char} {bytes : List UInt8}
    (h : LiteralBody body bytes) : ∀ (pre b : List UInt8),
      decodeStringLoop (pre ++ bytesOf body ++ [34]) pre.length b = some (.ok (b ++ bytes)) := by
  induction h with
  | nil =>
    intro pre b
    have hend : ¬ pre.length < (pre ++ bytesOf [] ++ [34]).length - 1 := by
      simp [bytesOf]
    rw [decodeStringLoop, if_neg hend, append_nil]
  | @char c cs bytes hc _ ih =>
    intro pre b
    have hcopy := @decodeStringLoop_copy pre (bytesOf cs ++ [34]) (bytesOf [c]) b
      (backslash_not_mem hc.2.1) (by simp)
    have hrest := ih (pre ++ bytesOf [c]) (b ++ bytesOf [c])
    rw [bytesOf_cons]
    simp only [append_assoc] at hcopy hrest ⊢
    rw [hcopy, hrest]
  | @escape n e cs bytes hmem _ ih =>
    intro pre b
    -- the backslash, the escape and what it is written as
    have hbytes : bytesOf ['\\', n] = [backslash, .ofNat n.toNat] ∧
        escapedByte (.ofNat n.toNat) = some e := by
      simp only [mem_cons, not_mem_nil, or_false, Prod.mk.injEq] at hmem
      rcases hmem with ⟨rfl, rfl⟩ | ⟨rfl, rfl⟩ | ⟨rfl, rfl⟩ | ⟨rfl, rfl⟩ | ⟨rfl, rfl⟩ <;>
        exact ⟨by decide, by decide⟩
    have hsplit : bytesOf ('\\' :: n :: cs) = backslash :: .ofNat n.toNat :: bytesOf cs := by
      have := bytesOf_append ['\\', n] cs
      rw [hbytes.1] at this
      exact this
    rw [hsplit]
    have hin : pre.length <
        (pre ++ backslash :: .ofNat n.toNat :: bytesOf cs ++ [34]).length - 1 := by
      simp only [length_append, length_cons]
      omega
    rw [decodeStringLoop, if_pos hin]
    have hrest := ih (pre ++ [backslash, .ofNat n.toNat]) (b ++ [e])
    simpa [hbytes.2] using hrest
  | @hex x y v cs bytes hx hy hv _ ih =>
    intro pre b
    obtain ⟨hlen, _⟩ := parseHex_digits hx hy
    have hsplit : bytesOf ('\\' :: 'x' :: x :: y :: cs) =
        backslash :: 120 :: (bytesOf [x, y] ++ bytesOf cs) := by
      have hdigits := bytesOf_append ['\\', 'x'] ([x, y] ++ cs)
      rw [bytesOf_append [x, y] cs] at hdigits
      exact hdigits
    rw [hsplit]
    have hin : pre.length <
        (pre ++ backslash :: 120 :: (bytesOf [x, y] ++ bytesOf cs) ++ [34]).length - 1 := by
      simp only [length_append, length_cons]
      omega
    have hroom : ¬ pre.length + 3 ≥
        (pre ++ backslash :: 120 :: (bytesOf [x, y] ++ (bytesOf cs ++ [34]))).length - 1 := by
      simp only [length_append, length_cons, hlen]
      omega
    -- the digits are the two bytes after the `x`
    have hslice : sliceRange (pre ++ backslash :: 120 :: (bytesOf [x, y] ++ bytesOf cs) ++ [34])
        ((pre.length : Int) + 2) ((pre.length : Int) + 4) = some (bytesOf [x, y]) := by
      have := sliceRange_append (pre ++ [backslash, 120]) (bytesOf [x, y]) (bytesOf cs ++ [34])
      simpa [hlen, Int.add_assoc] using this
    simp only [append_assoc, cons_append] at hslice
    rw [decodeStringLoop, if_pos hin]
    have hrest := ih (pre ++ backslash :: 120 :: bytesOf [x, y]) (b ++ [v])
    have hescaped : escapedByte 120 = none := by decide
    have hpos : (pre ++ backslash :: 120 :: bytesOf [x, y]).length = pre.length + 4 := by
      simp [hlen]
    rw [hpos] at hrest
    -- the two bytes that the loop looks at first
    have hfirst :
        (pre ++ backslash :: 120 :: (bytesOf [x, y] ++ (bytesOf cs ++ [34])))[pre.length]? =
          some backslash := by simp
    have hsecond :
        (pre ++ backslash :: 120 :: (bytesOf [x, y] ++ (bytesOf cs ++ [34])))[pre.length + 1]? =
          some 120 := by simp
    simp only [append_assoc, cons_append] at hrest ⊢
    rw [hfirst, hsecond]
    dsimp only
    rw [if_neg (by simp), hescaped]
    rw [if_pos rfl, if_neg hroom, hslice]
    dsimp only
    rw [hv]
    exact hrest

theorem decodeString_literal {body : List Char} {bytes : List UInt8} (h : LiteralBody body bytes) :
    decodeString (bytesOf ('"' :: (body ++ ['"']))) = some (validString bytes) := by
  have hsplit : bytesOf ('"' :: (body ++ ['"'])) = [34] ++ bytesOf body ++ [34] := by
    rw [bytesOf_cons, bytesOf_append]
    rfl
  have hlen : ¬ ([34] ++ bytesOf body ++ [34]).length < 2 := by simp
  have hloop := decodeStringLoop_body h [34] []
  rw [hsplit, decodeString, if_neg hlen]
  rw [length_singleton] at hloop
  rw [hloop]
  rfl

end Decoder

/-! ## The lexer on a literal -/

section Scanner

variable {source : String} {lim : Limits}

theorem stringBody_literal (start : Position) (cs : List Char) (pos : Position)
    {rest : List Char} (h : stringBody source start cs pos = .ok rest) :
    ∃ body bytes, cs = body ++ '"' :: rest ∧ LiteralBody body bytes := by
  fun_induction stringBody source start cs pos with
  | case3 cs pos =>
    -- the closing quote
    cases h
    exact ⟨[], [], rfl, .nil⟩
  | case5 x y cs pos hdigits ih =>
    rw [Bool.and_eq_true] at hdigits
    obtain ⟨_, v, hv⟩ := parseHex_digits hdigits.1 hdigits.2
    obtain ⟨body, bytes, rfl, hbody⟩ := ih h
    exact ⟨_, _, rfl, .hex hdigits.1 hdigits.2 hv hbody⟩
  | case8 n cs pos _ _ hn ih =>
    obtain ⟨body, bytes, rfl, hbody⟩ := ih h
    have hmem : n ∈ ['n', 'r', 't', '\\', '"'] := by simpa using hn
    simp only [mem_cons, not_mem_nil, or_false] at hmem
    obtain ⟨e, he⟩ : ∃ e, (n, e) ∈
        [('n', 10), ('r', 13), ('t', 9), ('\\', 92), ('"', (34 : UInt8))] := by
      rcases hmem with rfl | rfl | rfl | rfl | rfl
      · exact ⟨10, by decide⟩
      · exact ⟨13, by decide⟩
      · exact ⟨9, by decide⟩
      · exact ⟨92, by decide⟩
      · exact ⟨34, by decide⟩
    exact ⟨_, _, rfl, .escape he hbody⟩
  | case10 c cs pos hnewline hquote hlone _ _ hescape ih =>
    -- a backslash would be one of the escapes
    have hback : c ≠ '\\' := by
      intro heq
      cases cs with
      | nil => exact hlone heq rfl
      | cons n cs => exact hescape n cs heq rfl
    obtain ⟨body, bytes, rfl, hbody⟩ := ih h
    exact ⟨_, _, rfl, .char ⟨hquote, hback, hnewline⟩ hbody⟩
  | _ => cases h

theorem stringBody_of_literal {body : List Char} {bytes : List UInt8} (h : LiteralBody body bytes)
    (start : Position) (rest : List Char) : ∀ pos : Position,
      stringBody source start (body ++ '"' :: rest) pos = .ok rest := by
  induction h with
  | nil =>
    intro pos
    rfl
  | @char c cs bytes hc _ ih =>
    intro pos
    obtain ⟨hquote, hback, hnewline⟩ := hc
    rw [cons_append, stringBody]
    · exact ih _
    · exact hnewline
    · exact hquote
    · intro heq
      exact absurd heq hback
    · intro a b cs' heq
      exact absurd heq hback
    · intro cs' heq
      exact absurd heq hback
    · intro n cs' heq
      exact absurd heq hback
  | @escape n e cs bytes hmem _ ih =>
    intro pos
    simp only [mem_cons, not_mem_nil, or_false, Prod.mk.injEq] at hmem
    rcases hmem with ⟨rfl, _⟩ | ⟨rfl, _⟩ | ⟨rfl, _⟩ | ⟨rfl, _⟩ | ⟨rfl, _⟩
    all_goals exact ih _
  | @hex x y v cs bytes hx hy _ _ ih =>
    intro pos
    rw [cons_append, cons_append, cons_append, cons_append, stringBody,
      if_pos (by rw [hx, hy]; rfl)]
    exact ih _

theorem wordKind_ne_string (text : List Char) : wordKind text ≠ .string := by
  have hwords : ∀ w ∈ words, w.2 ≠ .string := by decide
  unfold wordKind
  cases hword : words.lookup (String.ofList text) with
  | none => simp
  | some kind =>
    obtain ⟨l₁, l₂, hsplit, _⟩ := lookup_eq_some_iff.mp hword
    apply hwords (String.ofList text, kind)
    rw [hsplit]
    simp

theorem scan_string {cs rest : List Char} {pos : Position}
    (read : scan source lim c cs pos = .ok (some .string, rest)) :
    c = '"' ∧ stringBody source pos cs (pos.past ['"']) = .ok rest := by
  unfold scan at read
  split at read
  · cases read
  split at read
  · cases read
  split at read
  · cases comment : blockComment source lim pos 0 cs.tail (pos.past ['/', '*']) <;>
      simp [comment, Except.map] at read
  split at read
  · simp only [Except.ok.injEq, Prod.mk.injEq, Option.some.injEq] at read
    exact absurd read.1 (wordKind_ne_string _)
  split at read
  · simp only [Except.ok.injEq, Prod.mk.injEq, Option.some.injEq] at read
    exact absurd read.1 (number_plain cs).2
  split at read
  · rename_i quote
    refine ⟨by simpa using quote, ?_⟩
    cases body : stringBody source pos cs (pos.past ['"']) with
    | error d => simp [body, Except.map] at read
    | ok after => simpa [body, Except.map] using read
  · exact absurd rfl (operator_plain read).2

/-- A text of the kind `STRING` is a body between quotes. -/
def IsLiteral (text : List Char) : Prop :=
  ∃ body bytes, text = '"' :: (body ++ ['"']) ∧ LiteralBody body bytes ∧
    decodeString (bytesOf text) = some (validString bytes)

theorem lex_strings {text : String} {out : List Lexeme} (done : lex source lim text = .ok out) :
    ∀ t ∈ out, t.kind = .string → IsLiteral t.text := by
  apply lex_forall (P := fun t => t.kind = .string → IsLiteral t.text) _ _ done
  · intro c cs pos kind rest tok scanned hkind
    cases hkind
    obtain ⟨rfl, hbody⟩ := scan_string scanned
    obtain ⟨body, bytes, rfl, hliteral⟩ := stringBody_literal pos cs (pos.past ['"']) hbody
    have htext : consumed ('"' :: (body ++ '"' :: rest)) rest = '"' :: (body ++ ['"']) := by
      have := consumed_append ('"' :: (body ++ ['"'])) rest
      simpa using this
    refine ⟨body, bytes, htext, hliteral, ?_⟩
    rw [htext]
    exact decodeString_literal hliteral
  · intro tok hkind
    cases hkind

/-! ## The literal of a string -/

theorem literalBody_escapeChar (c : Char) {cs : List Char} {bytes : List UInt8}
    (hrest : LiteralBody cs bytes) : LiteralBody (escapeChar c ++ cs) (bytesOf [c] ++ bytes) := by
  unfold escapeChar
  split
  case isTrue h => rw [h]; exact .escape (by decide) hrest
  split
  case isTrue h => rw [h]; exact .escape (by decide) hrest
  split
  case isTrue h => rw [h]; exact .escape (by decide) hrest
  split
  case isTrue h => rw [h]; exact .escape (by decide) hrest
  split
  case isTrue h => rw [h]; exact .escape (by decide) hrest
  rename_i hback hquote hnewline _ _
  exact .char ⟨hquote, hback, hnewline⟩ hrest

theorem literalBody_escapeFormat (cs : List Char) :
    LiteralBody (cs.flatMap escapeChar) (bytesOf cs) := by
  induction cs with
  | nil => exact .nil
  | cons c cs ih =>
    rw [flatMap_cons, bytesOf_cons]
    exact literalBody_escapeChar c ih

theorem validString_bytesOf (s : String) : validString (bytesOf s.toList) = .ok s := by
  have hbytes : (bytesOf s.toList).toByteArray = s.toByteArray := by
    have h := String.toByteArray_ofList (l := s.toList)
    rw [String.ofList_toList] at h
    exact h.symm
  unfold validString String.fromUTF8?
  rw [hbytes, dif_pos s.isValidUTF8]
  rfl

theorem lex_quoteFormat (s : String)
    (hsize : (String.ofList (quoteFormat s)).utf8ByteSize ≤ lim.maxSourceBytes)
    (htokens : 0 < lim.maxTokens) :
    ∃ tok rest, lex source lim (String.ofList (quoteFormat s)) =
        .ok (⟨.string, quoteFormat s, tok⟩ :: rest) ∧
      ∀ t ∈ rest, t.kind = .eof := by
  have hliteral := literalBody_escapeFormat s.toList
  have hbody : stringBody source {} (escapeFormat s ++ ['"']) (Position.past {} ['"']) = .ok [] :=
    stringBody_of_literal hliteral {} [] _
  have hscan : scan source lim '"' (escapeFormat s ++ ['"']) {} = .ok (some .string, []) := by
    simp [scan, isIDStart, isDigit, digitZeros, hbody, Except.map]
  have hfuel : (quoteFormat s).length = (escapeFormat s ++ ['"']).length + 1 := rfl
  unfold lex
  rw [if_neg (Nat.not_lt.mpr hsize), String.toList_ofList, hfuel, quoteFormat, lexFrom,
    if_neg (Nat.not_le.mpr htokens), hscan]
  have htext := consumed_append ('"' :: (escapeFormat s ++ ['"'])) []
  rw [List.append_nil] at htext
  dsimp only
  rw [htext, lexFrom]
  refine ⟨_, _, rfl, ?_⟩
  intro t mem
  split at mem
  · rw [List.mem_singleton.mp mem]
  · cases mem

end Scanner

/-- The decoder never reads past the end of a token. A string token is a literal, and is
    decoded to the string with the bytes that the literal stands for, or refused when they
    are not UTF-8. The literal of a string, when it is not too long for a source, is read as
    one token that is decoded to the string. -/
theorem stringLiterals_decode (source : String) (lim : Limits) :
    (∀ raw, decodeString raw ≠ none) ∧
    (∀ text out, lex source lim text = .ok out → ∀ t ∈ out, t.kind = .string →
      ∃ body bytes, t.text = '"' :: (body ++ ['"']) ∧ LiteralBody body bytes ∧
        decodeString (bytesOf t.text) = some (validString bytes)) ∧
    ∀ s : String, (String.ofList (quoteFormat s)).utf8ByteSize ≤ lim.maxSourceBytes →
      0 < lim.maxTokens →
      ∃ tok rest, lex source lim (String.ofList (quoteFormat s)) =
          .ok (⟨.string, quoteFormat s, tok⟩ :: rest) ∧
        (∀ t ∈ rest, t.kind = .eof) ∧ decodeString (bytesOf (quoteFormat s)) = some (.ok s) := by
  refine ⟨decodeString_ne_none, ?_, ?_⟩
  · intro text out done
    exact lex_strings done
  · intro s hsize htokens
    obtain ⟨tok, rest, hlex, heof⟩ := @lex_quoteFormat source lim s hsize htokens
    refine ⟨tok, rest, hlex, heof, ?_⟩
    have hdecode := decodeString_literal (literalBody_escapeFormat s.toList)
    rw [validString_bytesOf] at hdecode
    exact hdecode

/-- The one token of a literal with each kind of escape, and the literal of a string. -/
theorem stringLiterals_decode_tab :
    (∃ body bytes, (['"', '\\', 't', '"'] : List Char) = '"' :: (body ++ ['"']) ∧
      LiteralBody body bytes ∧
      decodeString (bytesOf ['"', '\\', 't', '"']) = some (validString bytes)) ∧
    ∃ tok rest, lex "main.kry" {} (String.ofList (quoteFormat "a\tb")) =
        .ok (⟨.string, quoteFormat "a\tb", tok⟩ :: rest) ∧
      (∀ t ∈ rest, t.kind = .eof) ∧
      decodeString (bytesOf (quoteFormat "a\tb")) = some (.ok "a\tb") :=
  ⟨(stringLiterals_decode "main.kry" {}).2.1 (String.ofList ['"', '\\', 't', '"'])
      [⟨.string, ['"', '\\', 't', '"'], ⟨"main.kry", 0, 4, 1, 1⟩⟩,
        ⟨.eof, [], ⟨"main.kry", 4, 0, 1, 5⟩⟩]
      (by decide) ⟨.string, ['"', '\\', 't', '"'], ⟨"main.kry", 0, 4, 1, 1⟩⟩
      (by decide) rfl,
    (stringLiterals_decode "main.kry" {}).2.2 "a\tb" (by decide) (by decide)⟩

/-- The literal of the byte `ff` is a string token, and is not decoded. -/
theorem refused_literal :
    ¬ ∀ (text : String) (out : List Lexeme), lex "main.kry" {} text = .ok out →
      ∀ t ∈ out, t.kind = .string → ∃ s, decodeString (bytesOf t.text) = some (.ok s) := by
  intro h
  obtain ⟨s, hs⟩ := h (String.ofList ['"', '\\', 'x', 'f', 'f', '"'])
    [⟨.string, ['"', '\\', 'x', 'f', 'f', '"'], ⟨"main.kry", 0, 6, 1, 1⟩⟩,
      ⟨.eof, [], ⟨"main.kry", 6, 0, 1, 7⟩⟩]
    (by decide) ⟨.string, ['"', '\\', 'x', 'f', 'f', '"'], ⟨"main.kry", 0, 6, 1, 1⟩⟩
    (by decide) rfl
  have hbody : LiteralBody ['\\', 'x', 'f', 'f'] [255] :=
    .hex (by decide) (by decide) (by decide) .nil
  have hinvalid : validString [255] = .error .malformed := by
    unfold validString String.fromUTF8?
    rw [dif_neg (by decide)]
  have hdecode := decodeString_literal hbody
  rw [hinvalid] at hdecode
  rw [show bytesOf ['"', '\\', 'x', 'f', 'f', '"'] =
    bytesOf ('"' :: (['\\', 'x', 'f', 'f'] ++ ['"'])) from rfl, hdecode] at hs
  cases hs

end Kryndel
