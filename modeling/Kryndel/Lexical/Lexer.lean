import Kryndel.Syntax.Source

/-!
# The lexer

`Lex` cuts a source text into tokens. Each round of its loop skips some characters or
reads one token; `scan` is that round, and says which kind of token was read and what
is left of the text. Source texts are valid UTF-8, so a text is a list of characters;
offsets and lengths count bytes all the same.
-/

namespace Kryndel

/-! ## Characters -/

/-- The code points of the digit zero, as of Unicode 15. The other nine follow it. -/
def digitZeros : List Nat :=
  [0x30, 0x660, 0x6F0, 0x7C0, 0x966, 0x9E6, 0xA66, 0xAE6, 0xB66, 0xBE6, 0xC66, 0xCE6, 0xD66,
    0xDE6, 0xE50, 0xED0, 0xF20, 0x1040, 0x1090, 0x17E0, 0x1810, 0x1946, 0x19D0, 0x1A80, 0x1A90,
    0x1B50, 0x1BB0, 0x1C40, 0x1C50, 0xA620, 0xA8D0, 0xA900, 0xA9D0, 0xA9F0, 0xAA50, 0xABF0,
    0xFF10, 0x104A0, 0x10D30, 0x11066, 0x110F0, 0x11136, 0x111D0, 0x112F0, 0x11450, 0x114D0,
    0x11650, 0x116C0, 0x11730, 0x118E0, 0x11950, 0x11C50, 0x11D50, 0x11DA0, 0x11F50, 0x16A60,
    0x16AC0, 0x16B50, 0x1D7CE, 0x1D7D8, 0x1D7E2, 0x1D7EC, 0x1D7F6, 0x1E140, 0x1E2F0, 0x1E4F0,
    0x1E950, 0x1FBF0]

/-- `unicode.IsDigit`. -/
def isDigit (r : Char) : Bool :=
  digitZeros.any fun first => first ≤ r.toNat && r.toNat < first + 10

/-- `unicode.IsDigit` of a single byte. -/
def isByteDigit (r : Char) : Bool :=
  48 ≤ r.toNat && r.toNat < 58

/-- `isIDStart`. Below 128 the letters are those of ASCII. -/
def isIDStart (r : Char) : Bool :=
  r == '_' || r.isAlpha || 128 ≤ r.toNat

/-- `isIDPart`. -/
def isIDPart (r : Char) : Bool :=
  isIDStart r || isDigit r

/-- `isHex`. -/
def isHex (b : Char) : Bool :=
  isByteDigit b || (97 ≤ b.toNat && b.toNat < 103) || (65 ≤ b.toNat && b.toNat < 71)

/-- A digit of `%02x`. -/
def hexDigit (n : Nat) : Char :=
  Char.ofNat (if n < 10 then 48 + n else 87 + n)

/-- `%q` of a character. Only ASCII characters are printed so. -/
def quoteRune (r : Char) : String :=
  String.ofList <| match r with
    | '\'' => ['\'', '\\', '\'', '\'']
    | '\\' => ['\'', '\\', '\\', '\'']
    | '\t' => ['\'', '\\', 't', '\'']
    | '\r' => ['\'', '\\', 'r', '\'']
    | '\n' => ['\'', '\\', 'n', '\'']
    | _ =>
      if r.toNat = 7 then ['\'', '\\', 'a', '\'']
      else if r.toNat = 8 then ['\'', '\\', 'b', '\'']
      else if r.toNat = 11 then ['\'', '\\', 'v', '\'']
      else if r.toNat = 12 then ['\'', '\\', 'f', '\'']
      else if r.toNat < 32 ∨ r.toNat = 127 then
        ['\'', '\\', 'x', hexDigit (r.toNat / 16), hexDigit (r.toNat % 16), '\'']
      else ['\'', r, '\'']

/-! ## Tokens -/

/-- The kinds of tokens (`TokenKind`). -/
inductive TokenKind where
  | eof | id | int | float | string | fn | let_ | mut | if_ | else_ | while_ | return_ | break_
  | continue_ | true_ | false_ | nil | pub | import_ | struct | enum | match_ | for_ | in_
  | defer | unsafe_ | impl | trait | const | private_ | lparen | rparen | lbrace | rbrace
  | lbracket | rbracket | comma | colon | semicolon | arrow | fatArrow | dcolon | dot | plus
  | minus | star | slash | percent | bang | equal | eqEq | neq | less | leq | greater | geq
  | and | or | question | pipe | bitAnd | bitXor | shl | shr | bitNot
deriving DecidableEq, Repr

/-- A token with its kind and the text it covers. -/
structure Lexeme where
  kind : TokenKind
  text : List Char
  tok : Token
deriving DecidableEq, Repr

/-- `words`: the kinds of the names that are keywords. -/
def words : List (String × TokenKind) :=
  [("fn", .fn), ("let", .let_), ("mut", .mut), ("if", .if_), ("else", .else_),
    ("while", .while_), ("return", .return_), ("break", .break_), ("continue", .continue_),
    ("true", .true_), ("false", .false_), ("nil", .nil), ("pub", .pub), ("import", .import_),
    ("struct", .struct), ("enum", .enum), ("match", .match_), ("for", .for_), ("in", .in_),
    ("defer", .defer), ("unsafe", .unsafe_), ("impl", .impl), ("trait", .trait),
    ("const", .const), ("private", .private_)]

/-- The kind of a word. -/
def wordKind (text : List Char) : TokenKind :=
  (words.lookup (String.ofList text)).getD .id

/-- The operators of two characters. -/
def twoCharKind : Char → Char → Option TokenKind
  | '-', '>' => some .arrow
  | '=', '>' => some .fatArrow
  | ':', ':' => some .dcolon
  | '=', '=' => some .eqEq
  | '!', '=' => some .neq
  | '<', '=' => some .leq
  | '>', '=' => some .geq
  | '&', '&' => some .and
  | '|', '|' => some .or
  | '<', '<' => some .shl
  | '>', '>' => some .shr
  | _, _ => none

/-- The operators of one character. -/
def oneCharKind : Char → Option TokenKind
  | '(' => some .lparen
  | ')' => some .rparen
  | '{' => some .lbrace
  | '}' => some .rbrace
  | '[' => some .lbracket
  | ']' => some .rbracket
  | ',' => some .comma
  | ':' => some .colon
  | ';' => some .semicolon
  | '.' => some .dot
  | '+' => some .plus
  | '-' => some .minus
  | '*' => some .star
  | '/' => some .slash
  | '%' => some .percent
  | '!' => some .bang
  | '=' => some .equal
  | '<' => some .less
  | '>' => some .greater
  | '?' => some .question
  | '|' => some .pipe
  | '&' => some .bitAnd
  | '^' => some .bitXor
  | '~' => some .bitNot
  | _ => none

/-! ## Positions -/

/-- A place in a source text. The offset counts bytes, the column characters. -/
structure Position where
  offset : Nat := 0
  line : Nat := 1
  column : Nat := 1
deriving DecidableEq, Repr

/-- The place after some characters. -/
def Position.past (pos : Position) (cs : List Char) : Position :=
  cs.foldl (fun p c =>
    { offset := p.offset + c.utf8Size
      line := if c = '\n' then p.line + 1 else p.line
      column := if c = '\n' then 1 else p.column + 1 }) pos

/-! ## The loop -/

section Loop

variable (source : String) (lim : Limits)

/-- An error at a place. -/
def lexError (category : Category) (pos : Position) (message : String) : Diagnostic :=
  diag category source pos.line pos.column message

/-- The rest of a block comment, inside `depth + 1` opened ones. -/
def blockComment (start : Position) : Nat → List Char → Position → Except Diagnostic (List Char)
  | _, [], _ => .error (lexError source .lex start "unterminated block comment")
  | depth, '/' :: '*' :: cs, pos =>
      if lim.maxNesting < depth + 2 then
        .error (lexError source .resource pos "comment nesting limit exceeded")
      else blockComment start (depth + 1) cs (pos.past ['/', '*'])
  | depth, '*' :: '/' :: cs, pos =>
      match depth with
      | 0 => .ok cs
      | depth + 1 => blockComment start depth cs (pos.past ['*', '/'])
  | depth, c :: cs, pos => blockComment start depth cs (pos.past [c])

/-- The rest of a string literal. -/
def stringBody (start : Position) : List Char → Position → Except Diagnostic (List Char)
  | [], _ => .error (lexError source .lex start "unterminated string literal")
  | '\n' :: _, pos => .error (lexError source .lex pos "newline in string literal")
  | '"' :: cs, _ => .ok cs
  | '\\' :: [], _ => .error (lexError source .lex start "unterminated string literal")
  | '\\' :: 'x' :: a :: b :: cs, pos =>
      if isHex a && isHex b then stringBody start cs (pos.past ['\\', 'x', a, b])
      else .error (lexError source .lex start "invalid hex escape in string literal")
  | '\\' :: 'x' :: _, _ =>
      .error (lexError source .lex start "invalid hex escape in string literal")
  | '\\' :: n :: cs, pos =>
      if ['n', 'r', 't', '\\', '"'].contains n then stringBody start cs (pos.past ['\\', n])
      else .error (lexError source .lex start "unsupported escape sequence")
  | c :: cs, pos => stringBody start cs (pos.past [c])

/-- The kind of a number and what follows it. -/
def number (cs : List Char) : TokenKind × List Char :=
  match cs.dropWhile isDigit with
  | '.' :: d :: rest =>
      if isByteDigit d then (.float, rest.dropWhile isByteDigit) else (.int, '.' :: d :: rest)
  | rest => (.int, rest)

/-- An operator and what follows it. -/
def operator (c : Char) (cs : List Char) (pos : Position) :
    Except Diagnostic (Option TokenKind × List Char) :=
  match cs.head?.bind (twoCharKind c) with
  | some kind => .ok (some kind, cs.tail)
  | none =>
    match oneCharKind c with
    | some kind => .ok (some kind, cs)
    | none => .error (lexError source .lex pos ("unexpected character " ++ quoteRune c))

/-- One round of the loop of `Lex`, at a character and the ones after it: the kind of the
    token that was read, if any, and what follows. -/
def scan (c : Char) (cs : List Char) (pos : Position) :
    Except Diagnostic (Option TokenKind × List Char) :=
  if c == ' ' || c == '\t' || c == '\r' || c == '\n' then .ok (none, cs)
  else if c == '/' && cs.head? == some '/' then .ok (none, cs.dropWhile (· != '\n'))
  else if c == '/' && cs.head? == some '*' then
    (blockComment source lim pos 0 cs.tail (pos.past ['/', '*'])).map fun rest => (none, rest)
  else if isIDStart c then
    .ok (some (wordKind (c :: cs.takeWhile isIDPart)), cs.dropWhile isIDPart)
  else if isDigit c then
    .ok (some (number cs).1, (number cs).2)
  else if c == '"' then
    (stringBody source pos cs (pos.past ['"'])).map fun rest => (some .string, rest)
  else operator source c cs pos

/-- The characters of `cs` before `rest`. -/
def consumed (cs rest : List Char) : List Char :=
  cs.take (cs.length - rest.length)

/-- The loop of `Lex`, `count` tokens having been read. Every round takes a character at
    least, so as many rounds as there are characters are enough. -/
def lexFrom : Nat → List Char → Position → Nat → Except Diagnostic (List Lexeme)
  | _, [], pos, count =>
      .ok (if count < lim.maxTokens then
        [{ kind := .eof, text := [], tok := ⟨source, pos.offset, 0, pos.line, pos.column⟩ }]
      else [])
  | 0, _ :: _, _, _ => .ok []
  | fuel + 1, c :: cs, pos, count =>
      if lim.maxTokens ≤ count then
        .error (lexError source .resource pos
          ("token limit exceeded (" ++ toString lim.maxTokens ++ ")"))
      else
        match scan source lim c cs pos with
        | .error d => .error d
        | .ok (kind, rest) =>
          let text := consumed (c :: cs) rest
          let next := pos.past text
          match kind with
          | none => lexFrom fuel rest next count
          | some kind =>
            (lexFrom fuel rest next (count + 1)).map
              ({ kind, text, tok := ⟨source, pos.offset, next.offset - pos.offset, pos.line,
                pos.column⟩ } :: ·)

/-- `Lex`. -/
def lex (text : String) : Except Diagnostic (List Lexeme) :=
  if lim.maxSourceBytes < text.utf8ByteSize then
    .error (lexError source .resource {} "source exceeds configured input size limit")
  else lexFrom source lim text.toList.length text.toList {} 0

end Loop

/-! ## Names -/

/-- The text of a token that is a name. -/
def IsName (text : List Char) : Prop :=
  text ≠ [] ∧ ∀ c ∈ text, isIDPart c = true

theorem consumed_append (pre rest : List Char) : consumed (pre ++ rest) rest = pre := by
  simp [consumed]

/-- The kinds of operators and numbers, which are neither names nor strings. -/
def TokenKind.IsPlain (kind : TokenKind) : Prop :=
  kind ≠ .id ∧ kind ≠ .string

variable {kind : TokenKind}

theorem twoCharKind_plain {c d : Char} (h : twoCharKind c d = some kind) :
    kind.IsPlain := by
  unfold twoCharKind at h
  split at h <;> cases h <;> exact ⟨nofun, nofun⟩

variable {c : Char}

theorem oneCharKind_plain (h : oneCharKind c = some kind) :
    kind.IsPlain := by
  unfold oneCharKind at h
  split at h <;> cases h <;> exact ⟨nofun, nofun⟩

theorem number_plain (cs : List Char) : (number cs).1.IsPlain := by
  unfold number
  split
  · split <;> exact ⟨nofun, nofun⟩
  · exact ⟨nofun, nofun⟩

variable {pos : Position}

theorem operator_plain {source : String} {cs rest : List Char}
    (h : operator source c cs pos = .ok (some kind, rest)) : kind.IsPlain := by
  unfold operator at h
  split at h
  · rename_i two
    cases h
    obtain ⟨d, -, two⟩ := Option.bind_eq_some_iff.mp two
    exact twoCharKind_plain two
  · split at h
    · rename_i one
      cases h
      exact oneCharKind_plain one
    · cases h

theorem scan_name {source : String} {lim : Limits} {cs rest : List Char}
    (read : scan source lim c cs pos = .ok (some .id, rest)) :
    IsName (consumed (c :: cs) rest) := by
  unfold scan at read
  split at read
  · cases read
  split at read
  · cases read
  split at read
  · cases comment : blockComment source lim pos 0 cs.tail (pos.past ['/', '*']) <;>
      simp [comment, Except.map] at read
  split at read
  · rename_i start
    simp only [Except.ok.injEq, Prod.mk.injEq] at read
    obtain ⟨-, rfl⟩ := read
    have cut : c :: cs = (c :: cs.takeWhile isIDPart) ++ cs.dropWhile isIDPart := by simp
    rw [cut, consumed_append]
    refine ⟨by simp, fun d mem => ?_⟩
    rcases List.mem_cons.mp mem with rfl | mem
    · simp [isIDPart, start]
    · exact List.all_eq_true.mp List.all_takeWhile d mem
  split at read
  · simp only [Except.ok.injEq, Prod.mk.injEq, Option.some.injEq] at read
    exact absurd read.1 (number_plain cs).1
  split at read
  · cases body : stringBody source pos cs (pos.past ['"']) <;> simp [body, Except.map] at read
  · exact absurd rfl (operator_plain read).1

variable {out : List Lexeme}

variable {P : Lexeme → Prop}

/-- What holds of every token that a round reads, and of the last one, holds of all tokens. -/
theorem lexFrom_forall {source : String} {lim : Limits}
    (round : ∀ c cs pos kind rest tok, scan source lim c cs pos = .ok (some kind, rest) →
      P ⟨kind, consumed (c :: cs) rest, tok⟩) (last : ∀ tok, P ⟨.eof, [], tok⟩) {fuel count : Nat}
    {cs : List Char} (done : lexFrom source lim fuel cs pos count = .ok out) :
    ∀ t ∈ out, P t := by
  induction fuel generalizing cs pos count out with
  | zero =>
    cases cs with
    | nil =>
      simp only [lexFrom, Except.ok.injEq] at done
      subst done
      split
      · intro t mem
        rw [List.mem_singleton.mp mem]
        exact last _
      · simp
    | cons c cs =>
      simp only [lexFrom, Except.ok.injEq] at done
      subst done
      simp
  | succ fuel ih =>
    cases cs with
    | nil =>
      simp only [lexFrom, Except.ok.injEq] at done
      subst done
      split
      · intro t mem
        rw [List.mem_singleton.mp mem]
        exact last _
      · simp
    | cons c cs =>
      simp only [lexFrom] at done
      split at done
      · cases done
      split at done
      · cases done
      rename_i kind rest scanned
      split at done
      · exact ih done
      · rename_i kind
        cases more : lexFrom source lim fuel rest (pos.past (consumed (c :: cs) rest)) (count + 1)
          with
        | error d => simp [more, Except.map] at done
        | ok others =>
          simp only [more, Except.map, Except.ok.injEq] at done
          subst done
          intro t mem
          rcases List.mem_cons.mp mem with rfl | mem
          · exact round _ _ _ _ _ _ scanned
          · exact ih more t mem

theorem lex_forall {source : String} {lim : Limits}
    (round : ∀ c cs pos kind rest tok, scan source lim c cs pos = .ok (some kind, rest) →
      P ⟨kind, consumed (c :: cs) rest, tok⟩) (last : ∀ tok, P ⟨.eof, [], tok⟩) {text : String}
    (done : lex source lim text = .ok out) : ∀ t ∈ out, P t := by
  unfold lex at done
  split at done
  · cases done
  · exact lexFrom_forall round last done

theorem lex_names {source : String} {lim : Limits} {text : String}
    (done : lex source lim text = .ok out) : ∀ t ∈ out, t.kind = .id → IsName t.text := by
  apply lex_forall (P := fun t => t.kind = .id → IsName t.text) _ _ done
  · intro c cs pos kind rest tok scanned named
    cases named
    exact scan_name scanned
  · intro tok named
    cases named

end Kryndel
