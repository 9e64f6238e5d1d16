import Kryndel.Lexical.Lexer
import Kryndel.Memory.TermGraph

/-!
# Type expressions of KIR

KIR writes types as text. `parseKIRTypeExpressionUncached` gives names that begin with
`@` a name that the lexer reads, parses the text as a type of the source language,
checks that the result prints as the text, and puts the internal names back.

A specification is a tree: a name with arguments, or a function type, whose children
are its parameters and then its result.
-/

namespace Kryndel

open TermGraph List Option

/-! ## Specifications -/

/-- What a specification has besides its children. -/
structure KIRTypeLabel where
  function : Bool
  name : String
deriving DecidableEq, Repr

/-- A type specification (`TypeSpec`), less its token. The children are `Params`, and after
    them `Return` where there is one. -/
abbrev KIRTypeSpec := TermGraph.Tree KIRTypeLabel

/-- A name with arguments. -/
def namedSpec (name : String) (params : List KIRTypeSpec) : KIRTypeSpec :=
  .node { function := false, name } params

/-- A function type. -/
def functionSpec (params : List KIRTypeSpec) (ret : KIRTypeSpec) : KIRTypeSpec :=
  .node { function := true, name := "" } (params ++ [ret])

mutual

/-- `TypeSpecString`, as characters. -/
def kirTypeSpecChars : KIRTypeSpec → List Char
  | .node label children =>
      if label.function then 'f' :: 'n' :: '(' :: functionChars children
      else label.name.toList ++ argumentChars children

/-- The printed arguments of a name. -/
def argumentChars : List KIRTypeSpec → List Char
  | [] => []
  | c :: cs => '[' :: (kirTypeSpecChars c ++ moreArgumentChars cs)

/-- The printed arguments after the first one. -/
def moreArgumentChars : List KIRTypeSpec → List Char
  | [] => [']']
  | c :: cs => ',' :: ' ' :: (kirTypeSpecChars c ++ moreArgumentChars cs)

/-- The printed parameters and the printed result of a function type. -/
def functionChars : List KIRTypeSpec → List Char
  | [] => [')', ' ', '-', '>', ' ', 'N', 'i', 'l']
  | [ret] => ')' :: ' ' :: '-' :: '>' :: ' ' :: kirTypeSpecChars ret
  | p :: q :: cs =>
      kirTypeSpecChars p ++ ((if cs.isEmpty then [] else [',', ' ']) ++ functionChars (q :: cs))

end

/-- `TypeSpecString`. -/
def kirTypeSpecString (spec : KIRTypeSpec) : String :=
  String.ofList (kirTypeSpecChars spec)

/-! ## The parser -/

/-- `Parser.expect`. After a failure nothing that was parsed is used. -/
def expectKind (kind : TokenKind) : List Lexeme → Option (List Lexeme)
  | t :: rest => if t.kind = kind then some rest else none
  | [] => none

/-- `Parser.check`. -/
def checkKind (kind : TokenKind) (tokens : List Lexeme) : Bool :=
  tokens.head?.any (·.kind = kind)

mutual

/-- `Parser.typeSpec`. -/
def typeSpec : Nat → List Lexeme → Option (KIRTypeSpec × List Lexeme)
  | 0, _ => none
  | _ + 1, [] => none
  | n + 1, t :: rest =>
      if t.kind = .fn then do
        let rest ← expectKind .lparen rest
        let parsed := if checkKind .rparen rest then some ([], rest) else typeSpecs n rest
        let (params, rest) ← parsed
        let rest ← expectKind .rparen rest
        let rest ← expectKind .arrow rest
        let (ret, rest) ← typeSpec n rest
        some (functionSpec params ret, rest)
      else if t.kind = .id then
        -- `dyn Trait`
        if t.text = ['d', 'y', 'n'] ∧ checkKind .id rest then none
        else if checkKind .lbracket rest then do
          let rest := rest.tail
          let parsed := if checkKind .rbracket rest then some ([], rest) else typeSpecs n rest
          let (params, rest) ← parsed
          let rest ← expectKind .rbracket rest
          some (namedSpec (String.ofList t.text) params, rest)
        else some (namedSpec (String.ofList t.text) [], rest)
      else none

/-- Specifications with commas between them. -/
def typeSpecs : Nat → List Lexeme → Option (List KIRTypeSpec × List Lexeme)
  | 0, _ => none
  | n + 1, tokens => do
      let (spec, rest) ← typeSpec n tokens
      if checkKind .comma rest then
        let (specs, rest) ← typeSpecs n rest.tail
        some (spec :: specs, rest)
      else some ([spec], rest)

end

/-! ## Internal names -/

/-- Does `strings.Contains` find the second text in the first? -/
def containsText : List Char → List Char → Bool
  | [], part => part.isEmpty
  | c :: cs, part => part.isPrefixOf (c :: cs) || containsText cs part

/-- How the names that stand for internal names begin. -/
def internalPrefix : List Char :=
  ['K', 'I', 'R', 'I', 'n', 't', 'e', 'r', 'n', 'a', 'l', 'T', 'y', 'p', 'e']

/-- The name that stands for an internal name, with a suffix. -/
def suffixed (name : List Char) (suffix : Nat) : List Char :=
  internalPrefix ++ name ++ 'X' :: (toString suffix).toList

/-- The first name with a suffix that is not in the text. The text has fewer parts than the
    first argument. -/
def placeholder (encoded name : List Char) : Nat → Nat → List Char
  | 0, suffix => suffixed name suffix
  | fuel + 1, suffix =>
      if containsText encoded (suffixed name suffix) then
        placeholder encoded name fuel (suffix + 1)
      else suffixed name suffix

/-- The name that stands for an internal name. -/
def placeholderFor (encoded name : List Char) : List Char :=
  if containsText encoded (internalPrefix ++ name) then
    placeholder encoded name (encoded.length * encoded.length) 0
  else internalPrefix ++ name

/-- May a character stand in an internal name? -/
def isInternalPart (c : Char) : Bool :=
  !(['[', ']', '(', ')', ',', ' ', '\t', '\r', '\n'].contains c)

/-- The characters that an internal name may follow. -/
def opensName (c : Char) : Bool :=
  ['[', '(', ',', ' '].contains c

/-- The loop of `parseKIRTypeExpressionUncached` over the characters after `previous`: the
    text to parse, and what the names in it stand for. The later entries of the map come
    first. -/
def normalized (encoded : List Char) : Nat → Option Char → List Char →
    List (List Char × List Char) → Option (List Char × List (List Char × List Char))
  | _, _, [], names => some ([], names)
  | 0, _, _ :: _, _ => none
  | fuel + 1, previous, c :: rest, names =>
      if c = '@' then
        if (previous.any fun p => !opensName p) || (rest.takeWhile isInternalPart).isEmpty then none
        else
          (normalized encoded fuel (rest.takeWhile isInternalPart).getLast?
              (rest.dropWhile isInternalPart)
              ((placeholderFor encoded (rest.takeWhile isInternalPart),
                '@' :: rest.takeWhile isInternalPart) :: names)).map fun (text, names) =>
            (placeholderFor encoded (rest.takeWhile isInternalPart) ++ text, names)
      else
        (normalized encoded fuel (some c) rest names).map fun (text, names) =>
          (c :: ((if c == ',' && rest.head? != some ' ' then [' '] else []) ++ text), names)

mutual

/-- `restore`: put the internal names back. -/
def restore (names : List (List Char × List Char)) : KIRTypeSpec → KIRTypeSpec
  | .node label children =>
      .node { label with
        name := ((names.lookup label.name.toList).map String.ofList).getD label.name }
        (restoreAll names children)

/-- `restore` in some specifications. -/
def restoreAll (names : List (List Char × List Char)) : List KIRTypeSpec → List KIRTypeSpec
  | [] => []
  | c :: cs => restore names c :: restoreAll names cs

end

/-- `parseKIRTypeExpressionUncached`. -/
def parseKIRTypeExpressionUncached (encoded : String) : Option KIRTypeSpec :=
  let characters := encoded.toList
  match normalized characters characters.length none characters [] with
  | none => none
  | some (text, names) =>
    match lex "<KIR type>" {} (String.ofList text) with
    | .error _ => none
    | .ok tokens =>
      match typeSpec (2 * tokens.length) tokens with
      | none => none
      | some (spec, rest) =>
        if checkKind .eof rest ∧ kirTypeSpecChars spec = text then some (restore names spec)
        else none

example : (parseKIRTypeExpressionUncached "Map[A,fn(@0) -> T]").map kirTypeSpecString =
    some "Map[A, fn(@0) -> T]" := by decide +kernel

/-! ## Names in specifications -/

mutual

/-- The names in a specification are good ones. A function type has none, and has a
    result. -/
def Named (good : List Char → Prop) : KIRTypeSpec → Prop
  | .node label children =>
      (if label.function then label.name = "" ∧ children ≠ [] else good label.name.toList) ∧
        AllNamed good children

/-- The names in some specifications are good ones. -/
def AllNamed (good : List Char → Prop) : List KIRTypeSpec → Prop
  | [] => True
  | c :: cs => Named good c ∧ AllNamed good cs

end

variable {good : List Char → Prop}

attribute [local simp] AllNamed Named in
theorem allNamed_iff {specs : List KIRTypeSpec} :
    AllNamed good specs ↔ ∀ c ∈ specs, Named good c := by
  induction specs with
  | nil => simp [AllNamed]
  | cons c cs ih => rw [AllNamed, ih, forall_mem_cons]

/-- May a character stand in a name that is printed? -/
def isNamePart (c : Char) : Bool :=
  !(['[', ']', '(', ')', ',', ' '].contains c)

/-- A name that prints without the signs between names. -/
def PlainName (name : List Char) : Prop :=
  name ≠ [] ∧ ∀ c ∈ name, isNamePart c = true

instance (name : List Char) : Decidable (PlainName name) :=
  decidable_of_iff (name ≠ [] ∧ name.all isNamePart = true)
    (and_congr_right fun _ => all_eq_true)

variable {c : Char}

attribute [local simp] isInternalPart isNamePart in
theorem isInternalPart_of_isIDPart (part : isIDPart c = true) :
    isInternalPart c = true := by
  by_contra sign
  simp only [isInternalPart, Bool.not_eq_true', Bool.not_eq_false, contains_iff_mem,
    mem_cons, not_mem_nil, or_false] at sign
  rcases sign with rfl | rfl | rfl | rfl | rfl | rfl | rfl | rfl | rfl <;>
    exact absurd part (by decide)

theorem isNamePart_of_isInternalPart (part : isInternalPart c = true) :
    isNamePart c = true := by
  simp only [isInternalPart, isNamePart, Bool.not_eq_true', contains_eq_mem,
    mem_cons, not_mem_nil, decide_eq_false_iff_not] at part ⊢
  tauto

theorem not_opensName_of_isInternalPart (part : isInternalPart c = true) :
    opensName c = false := by
  simp only [isInternalPart, opensName, Bool.not_eq_true', contains_eq_mem,
    mem_cons, not_mem_nil, decide_eq_false_iff_not] at part ⊢
  tauto

theorem beq_comma_of_isInternalPart (part : isInternalPart c = true) : (c == ',') = false :=
  beq_eq_false_iff_ne.mpr fun comma => absurd (comma ▸ part) (by decide)

theorem allNamed_append (cs ds : List KIRTypeSpec) :
    AllNamed good (cs ++ ds) ↔ AllNamed good cs ∧ AllNamed good ds := by
  induction cs with
  | nil => simp [AllNamed]
  | cons c cs ih => simp [AllNamed, ih, and_assoc]

theorem named_functionSpec {params : List KIRTypeSpec} {ret : KIRTypeSpec}
    (all : AllNamed good params) (last : Named good ret) :
    Named good (functionSpec params ret) := by
  simp [functionSpec, Named, allNamed_append, AllNamed, all, last]

/-! ### The parser -/

/-- The names among some tokens are good ones. -/
def NamesAre (good : List Char → Prop) (tokens : List Lexeme) : Prop :=
  ∀ t ∈ tokens, t.kind = .id → good t.text

/-- The names among some tokens are names. -/
def NamesRead (tokens : List Lexeme) : Prop :=
  ∀ t ∈ tokens, t.kind = .id → IsName t.text

theorem NamesAre.tail {good : List Char → Prop} {t : Lexeme} {tokens : List Lexeme}
    (read : NamesAre good (t :: tokens)) : NamesAre good tokens :=
  fun u mem => read u (mem_cons_of_mem t mem)

theorem NamesAre.drop {tokens : List Lexeme} (read : NamesAre good tokens) :
    NamesAre good tokens.tail :=
  fun u mem => read u (mem_of_mem_tail mem)

theorem NamesAre.expect {tokens rest : List Lexeme} {kind : TokenKind} (read : NamesAre good tokens)
    (found : expectKind kind tokens = some rest) :
    NamesAre good rest := by
  unfold expectKind at found
  split at found
  · split at found
    · cases found
      exact read.tail
    · cases found
  · cases found

/-- The two parsers give specifications whose names are those of tokens, and stay in the
    tokens. -/
theorem typeSpec_names (good : List Char → Prop) (n : Nat) :
    (∀ tokens spec rest, typeSpec n tokens = some (spec, rest) → NamesAre good tokens →
      Named good spec ∧ NamesAre good rest) ∧
    ∀ tokens specs rest, typeSpecs n tokens = some (specs, rest) → NamesAre good tokens →
      AllNamed good specs ∧ NamesAre good rest := by
  induction n with
  | zero => exact ⟨by simp [typeSpec], by simp [typeSpecs]⟩
  | succ n ih =>
    obtain ⟨one, some_⟩ := ih
    -- the arguments between brackets or parentheses
    have arguments : ∀ {kind tokens params rest},
        (if checkKind kind tokens then some ([], tokens) else typeSpecs n tokens) =
          some (params, rest) → NamesAre good tokens →
          AllNamed good params ∧ NamesAre good rest := by
      intro kind tokens params rest parsed read
      split at parsed
      · cases parsed
        exact ⟨trivial, read⟩
      · exact some_ _ _ _ parsed read
    constructor
    · intro tokens spec rest parsed read
      cases tokens with
      | nil => simp [typeSpec] at parsed
      | cons t tokens =>
        rw [typeSpec] at parsed
        split at parsed
        · simp only [bind_eq_bind, bind_eq_some_iff, Prod.exists,
            Option.some.injEq, Prod.mk.injEq] at parsed
          obtain ⟨open_, e₁, params, close, e₂, arrow, e₃, result, e₄, ret, rest', e₅, rfl, rfl⟩ :=
            parsed
          obtain ⟨good, read⟩ := arguments e₂ (read.tail.expect e₁)
          obtain ⟨last, read⟩ := one _ _ _ e₅ ((read.expect e₃).expect e₄)
          exact ⟨named_functionSpec good last, read⟩
        · split at parsed
          · rename_i named
            have name : good t.text := read t mem_cons_self named
            split at parsed
            · cases parsed
            · split at parsed
              · simp only [bind_eq_bind, bind_eq_some_iff, Prod.exists,
                  Option.some.injEq, Prod.mk.injEq] at parsed
                obtain ⟨params, close, e₁, rest', e₂, rfl, rfl⟩ := parsed
                obtain ⟨good, read⟩ := arguments e₁ read.tail.drop
                exact ⟨⟨by simpa [namedSpec] using name, good⟩, read.expect e₂⟩
              · cases parsed
                exact ⟨⟨by simpa [namedSpec] using name, trivial⟩, read.tail⟩
          · cases parsed
    · intro tokens specs rest parsed read
      rw [typeSpecs] at parsed
      simp only [bind_eq_bind, bind_eq_some_iff, Prod.exists] at parsed
      obtain ⟨spec, rest', e₁, parsed⟩ := parsed
      obtain ⟨good, read⟩ := one _ _ _ e₁ read
      split at parsed
      · simp only [bind_eq_some_iff, Prod.exists, Option.some.injEq,
          Prod.mk.injEq] at parsed
        obtain ⟨others, rest'', e₂, rfl, rfl⟩ := parsed
        obtain ⟨all, read⟩ := some_ _ _ _ e₂ read.drop
        exact ⟨⟨good, all⟩, read⟩
      · cases parsed
        exact ⟨⟨good, trivial⟩, read⟩

/-! ### Internal names -/

/-- The entries of the map of internal names. -/
def NamesMapped (names : List (List Char × List Char)) : Prop :=
  ∀ p ∈ names, p.1 ≠ [] ∧ PlainName p.2

theorem suffixed_ne_nil (name : List Char) (suffix : Nat) : suffixed name suffix ≠ [] := by
  simp [suffixed]

theorem placeholder_ne_nil (encoded name : List Char) (fuel suffix : Nat) :
    placeholder encoded name fuel suffix ≠ [] := by
  induction fuel generalizing suffix with
  | zero => exact suffixed_ne_nil name suffix
  | succ fuel ih =>
    rw [placeholder]
    split
    · exact ih _
    · exact suffixed_ne_nil name suffix

theorem placeholderFor_ne_nil (encoded name : List Char) : placeholderFor encoded name ≠ [] := by
  rw [placeholderFor]
  split
  · exact placeholder_ne_nil _ _ _ _
  · simp [internalPrefix]

theorem plainName_internal (cs : List Char) : PlainName ('@' :: cs.takeWhile isInternalPart) := by
  refine ⟨by simp, fun c mem => ?_⟩
  rcases mem_cons.mp mem with rfl | mem
  · decide
  · exact isNamePart_of_isInternalPart (all_eq_true.mp all_takeWhile c mem)

variable {names' names : List (List Char × List Char)} {encoded cs text : List Char} {fuel : Nat}

variable {previous : Option Char}

theorem normalized_names (done : normalized encoded fuel previous cs names = some (text, names'))
    (mapped : NamesMapped names) : NamesMapped names' := by
  induction fuel generalizing previous cs text names with
  | zero =>
    cases cs with
    | nil =>
      cases done
      exact mapped
    | cons c cs => simp [normalized] at done
  | succ fuel ih =>
    cases cs with
    | nil =>
      cases done
      exact mapped
    | cons c rest =>
      rw [normalized] at done
      split at done
      · split at done
        · cases done
        · obtain ⟨⟨text', names''⟩, more, same⟩ := map_eq_some_iff.mp done
          cases same
          refine ih more fun p mem => ?_
          rcases mem_cons.mp mem with rfl | mem
          · exact ⟨placeholderFor_ne_nil _ _, plainName_internal rest⟩
          · exact mapped p mem
      · obtain ⟨⟨text', names''⟩, more, same⟩ := map_eq_some_iff.mp done
        cases same
        exact ih more mapped

theorem lookup_nil_of_mapped (mapped : NamesMapped names) :
    names.lookup [] = none := by
  rw [lookup_eq_none_iff]
  intro p mem
  exact bne_iff_ne.mpr fun same => (mapped p mem).1 same.symm

theorem plain_of_lookup (mapped : NamesMapped names) {name internal : List Char}
    (found : names.lookup name = some internal) :
    PlainName internal := by
  obtain ⟨before, after, split, -⟩ := lookup_eq_some_iff.mp found
  exact (mapped (name, internal) (by simp [split])).2

theorem IsName.plain {name : List Char} (named : IsName name) : PlainName name :=
  ⟨named.1, fun c mem => isNamePart_of_isInternalPart (isInternalPart_of_isIDPart (named.2 c mem))⟩

mutual

theorem named_restore {names : List (List Char × List Char)} (mapped : NamesMapped names)
    {spec : KIRTypeSpec} (named : Named IsName spec) : Named PlainName (restore names spec) := by
  cases spec with
  | node label children =>
    obtain ⟨root, inside⟩ := named
    refine ⟨?_, allNamed_restoreAll mapped inside⟩
    split
    · rename_i function
      rw [if_pos function] at root
      refine ⟨by simp [root.1, lookup_nil_of_mapped mapped], ?_⟩
      cases children with
      | nil => exact absurd rfl root.2
      | cons c cs => simp [restoreAll]
    · rename_i function
      rw [if_neg function] at root
      cases found : names.lookup label.name.toList with
      | none => exact root.plain
      | some internal => simpa using plain_of_lookup mapped found

theorem allNamed_restoreAll {names : List (List Char × List Char)} (mapped : NamesMapped names)
    {specs : List KIRTypeSpec} (named : AllNamed IsName specs) :
    AllNamed PlainName (restoreAll names specs) := by
  cases specs with
  | nil => trivial
  | cons c cs => exact ⟨named_restore mapped named.1, allNamed_restoreAll mapped named.2⟩

end

variable {spec : KIRTypeSpec}

theorem parse_steps_names
    (names_read : ∀ text tokens, lex "<KIR type>" {} text = .ok tokens → NamesAre good tokens)
    {encoded : String} (parsed : parseKIRTypeExpressionUncached encoded = some spec) :
    ∃ text names inner, normalized encoded.toList encoded.toList.length none encoded.toList [] =
      some (text, names) ∧ Named good inner ∧ kirTypeSpecChars inner = text ∧
      restore names inner = spec := by
  unfold parseKIRTypeExpressionUncached at parsed
  dsimp only at parsed
  split at parsed
  · cases parsed
  rename_i text names done
  split at parsed
  · cases parsed
  rename_i tokens lexed
  split at parsed
  · cases parsed
  rename_i inner rest read
  split at parsed
  · rename_i whole
    cases parsed
    exact ⟨text, names, inner, done,
      ((typeSpec_names good _).1 _ _ _ read (names_read _ _ lexed)).1, whole.2, rfl⟩
  · cases parsed

theorem parse_steps {encoded : String}
    (parsed : parseKIRTypeExpressionUncached encoded = some spec) :
    ∃ text names inner, normalized encoded.toList encoded.toList.length none encoded.toList [] =
      some (text, names) ∧ Named IsName inner ∧ kirTypeSpecChars inner = text ∧
      restore names inner = spec :=
  parse_steps_names (fun _ _ lexed => lex_names lexed) parsed

theorem parsed_named {encoded : String}
    (parsed : parseKIRTypeExpressionUncached encoded = some spec) : Named PlainName spec := by
  obtain ⟨text, names, inner, done, named, -, rfl⟩ := parse_steps parsed
  exact named_restore (normalized_names done (by simp [NamesMapped])) named

/-! ### Texts of a single name -/

theorem normalized_inside {previous : Char}
    (done : normalized encoded fuel (some previous) cs names = some (text, names'))
    (inside : opensName previous = false) (name : ∀ c ∈ text, isInternalPart c = true) :
    text = cs ∧ names' = names := by
  induction fuel generalizing previous cs text with
  | zero =>
    cases cs with
    | nil =>
      cases done
      exact ⟨rfl, rfl⟩
    | cons c cs => simp [normalized] at done
  | succ fuel ih =>
    cases cs with
    | nil =>
      cases done
      exact ⟨rfl, rfl⟩
    | cons c rest =>
      rw [normalized] at done
      split at done
      · simp [inside] at done
      · obtain ⟨⟨text', names''⟩, more, same⟩ := map_eq_some_iff.mp done
        cases same
        have part : isInternalPart c = true := name c mem_cons_self
        simp only [beq_comma_of_isInternalPart part, Bool.false_and, Bool.false_eq_true, if_false,
          nil_append] at name ⊢
        obtain ⟨rfl, rfl⟩ := ih more (not_opensName_of_isInternalPart part) fun d mem =>
          name d (mem_cons_of_mem c mem)
        exact ⟨rfl, rfl⟩

theorem normalized_sign {d : Char}
    (done : normalized encoded fuel previous (d :: cs) names = some (text, names'))
    (sign : isInternalPart d = false) : d ∈ text := by
  cases fuel with
  | zero => simp [normalized] at done
  | succ fuel =>
    rw [normalized] at done
    split at done
    · rename_i internal
      exact absurd (internal ▸ sign) (by decide)
    · obtain ⟨⟨text', _⟩, -, same⟩ := map_eq_some_iff.mp done
      cases same
      exact mem_cons_self

/-- A text that becomes a single name is that name, or an internal name that the name
    stands for. -/
theorem normalized_name (done : normalized encoded fuel none cs [] = some (text, names))
    (name : ∀ c ∈ text, isInternalPart c = true) :
    (text = cs ∧ names = []) ∨ names = [(text, cs)] := by
  cases cs with
  | nil =>
    cases fuel <;> cases done <;> exact Or.inl ⟨rfl, rfl⟩
  | cons c rest =>
    cases fuel with
    | zero => simp [normalized] at done
    | succ fuel =>
      rw [normalized] at done
      split at done
      · rename_i internal
        subst internal
        split at done
        · cases done
        obtain ⟨⟨text', names''⟩, more, same⟩ := map_eq_some_iff.mp done
        cases same
        right
        cases after : rest.dropWhile isInternalPart with
        | nil =>
          rw [after] at more
          have whole : rest.takeWhile isInternalPart = rest := by
            have cut := takeWhile_append_dropWhile (p := isInternalPart) (l := rest)
            rwa [after, append_nil] at cut
          cases fuel <;> cases more <;> simp [whole]
        | cons d ds =>
          have sign : isInternalPart d = false := by
            have head := head?_dropWhile_not isInternalPart rest
            simpa [after] using head
          rw [after] at more
          have part := name d (mem_append_right _ (normalized_sign more sign))
          exact absurd part (by simp [sign])
      · obtain ⟨⟨text', names''⟩, more, same⟩ := map_eq_some_iff.mp done
        cases same
        left
        have part : isInternalPart c = true := name c mem_cons_self
        simp only [beq_comma_of_isInternalPart part, Bool.false_and, Bool.false_eq_true, if_false,
          nil_append] at name ⊢
        obtain ⟨rfl, rfl⟩ := normalized_inside more (not_opensName_of_isInternalPart part)
          fun d mem => name d (mem_cons_of_mem c mem)
        exact ⟨rfl, rfl⟩

theorem parsed_name {encoded name : String}
    (parsed : parseKIRTypeExpressionUncached encoded = some (namedSpec name [])) :
    encoded = name := by
  obtain ⟨text, names, inner, done, named, printed, restored⟩ := parse_steps parsed
  obtain ⟨label, children⟩ := inner
  simp only [restore, namedSpec, TermGraph.Tree.node.injEq] at restored
  obtain ⟨root, leaf⟩ := restored
  obtain ⟨function, same⟩ : label.function = false ∧
      ((names.lookup label.name.toList).map String.ofList).getD label.name = name :=
    ⟨congrArg KIRTypeLabel.function root, congrArg KIRTypeLabel.name root⟩
  obtain rfl : children = [] := by
    cases children with
    | nil => rfl
    | cons c cs => simp [restoreAll] at leaf
  have written : text = label.name.toList := by
    rw [← printed]
    simp [kirTypeSpecChars, function, argumentChars]
  have isName : IsName label.name.toList := by
    simpa [function] using named.1
  subst written
  rcases normalized_name done fun c mem => isInternalPart_of_isIDPart (isName.2 c mem) with
    ⟨whole, rfl⟩ | rfl
  · have whole : label.name = encoded := String.toList_injective whole
    simpa [whole] using same
  · simpa using same

/-! ## Printing is injective -/

/-- What can follow a printed specification inside another one. -/
def Follows (x : List Char) : Prop :=
  ∀ d, x.head? = some d → isNamePart d = false ∧ d ≠ '[' ∧ d ≠ '('

theorem name_cancel {m n x y : List Char} (hm : ∀ c ∈ m, isNamePart c = true)
    (hn : ∀ c ∈ n, isNamePart c = true) (hx : ∀ d, x.head? = some d → isNamePart d = false)
    (hy : ∀ d, y.head? = some d → isNamePart d = false) (same : m ++ x = n ++ y) :
    m = n ∧ x = y := by
  induction m generalizing n with
  | nil =>
    cases n with
    | nil => exact ⟨rfl, same⟩
    | cons d ds =>
      have sign := hx d (by rw [show x = d :: (ds ++ y) from same]; rfl)
      exact absurd (hn d mem_cons_self) (by simp [sign])
  | cons c cs ih =>
    cases n with
    | nil =>
      have sign := hy c (by rw [show y = c :: (cs ++ x) from same.symm]; rfl)
      exact absurd (hm c mem_cons_self) (by simp [sign])
    | cons d ds =>
      obtain ⟨rfl, rest⟩ := List.cons.inj same
      obtain ⟨rfl, ends⟩ := ih (fun e mem => hm e (mem_cons_of_mem c mem))
        (fun e mem => hn e (mem_cons_of_mem c mem)) rest
      exact ⟨rfl, ends⟩

theorem kirTypeSpecChars_split {label : KIRTypeLabel} {children : List KIRTypeSpec}
    (named : Named PlainName (.node label children)) :
    ∃ name signs, kirTypeSpecChars (.node label children) = name ++ signs ∧ PlainName name ∧
      ((label.function = true ∧ name = ['f', 'n'] ∧ signs = '(' :: functionChars children) ∨
        (label.function = false ∧ name = label.name.toList ∧
          signs = argumentChars children)) := by
  cases function : label.function with
  | true =>
    exact ⟨['f', 'n'], '(' :: functionChars children, by simp [kirTypeSpecChars, function],
      ⟨by simp, by simp [isNamePart]⟩, Or.inl ⟨rfl, rfl, rfl⟩⟩
  | false =>
    have plain : PlainName label.name.toList := by simpa [function] using named.1
    exact ⟨label.name.toList, argumentChars children, by simp [kirTypeSpecChars, function],
      plain, Or.inr ⟨rfl, rfl, rfl⟩⟩

theorem head_kirTypeSpecChars (named : Named PlainName spec) (x : List Char) :
    ∃ c, (kirTypeSpecChars spec ++ x).head? = some c ∧ isNamePart c = true := by
  obtain ⟨label, children⟩ := spec
  obtain ⟨name, signs, printed, plain, -⟩ := kirTypeSpecChars_split named
  obtain ⟨c, cs, rfl⟩ := exists_cons_of_ne_nil plain.1
  exact ⟨c, by rw [printed]; rfl, plain.2 c mem_cons_self⟩

theorem follows_nil : Follows [] := by
  rintro d ⟨⟩

theorem follows_of_head {d : Char} {x : List Char}
    (sign : isNamePart d = false ∧ d ≠ '[' ∧ d ≠ '(' := by decide) : Follows (d :: x) := by
  rintro e ⟨⟩
  exact sign

theorem argumentChars_ne_parenthesis (cs : List KIRTypeSpec) {x rest : List Char}
    (hx : Follows x) (same : argumentChars cs ++ x = '(' :: rest) : False := by
  cases cs with
  | nil => exact (hx '(' (by rw [show x = _ from same]; rfl)).2.2 rfl
  | cons c cs => exact absurd (List.cons.inj same).1 (by decide)

theorem follows_more (cs : List KIRTypeSpec) (x : List Char) :
    Follows (moreArgumentChars cs ++ x) := by
  cases cs <;> exact follows_of_head

theorem functionChars_ne_result {p q t : KIRTypeSpec} {cs : List KIRTypeSpec} {x y : List Char}
    (named : Named PlainName p)
    (same : functionChars (p :: q :: cs) ++ x = functionChars [t] ++ y) : False := by
  obtain ⟨c, head, part⟩ := head_kirTypeSpecChars named
    ((if cs.isEmpty then [] else [',', ' ']) ++ functionChars (q :: cs) ++ x)
  simp only [functionChars, append_assoc, cons_append] at same head
  rw [same] at head
  cases head
  exact absurd part (by decide)

theorem follows_function (q : KIRTypeSpec) (cs : List KIRTypeSpec) (x : List Char) :
    Follows ((if cs.isEmpty then [] else [',', ' ']) ++ (functionChars (q :: cs) ++ x)) := by
  cases cs <;> exact follows_of_head

mutual

theorem kirTypeSpecChars_cancel {t u : KIRTypeSpec} {x y : List Char} (ht : Named PlainName t)
    (hu : Named PlainName u) (hx : Follows x) (hy : Follows y)
    (same : kirTypeSpecChars t ++ x = kirTypeSpecChars u ++ y) : t = u ∧ x = y := by
  cases t with
  | node label ts =>
    obtain ⟨label', us⟩ := u
    obtain ⟨m, s, printed, hm, kind⟩ := kirTypeSpecChars_split ht
    obtain ⟨n, s', printed', hn, kind'⟩ := kirTypeSpecChars_split hu
    rw [printed, printed', append_assoc, append_assoc] at same
    -- neither a bracket nor a parenthesis is part of a name
    have sign : ∀ {label : KIRTypeLabel} {cs : List KIRTypeSpec} {m s x : List Char}, Follows x →
        ((label.function = true ∧ m = ['f', 'n'] ∧ s = '(' :: functionChars cs) ∨
          (label.function = false ∧ m = label.name.toList ∧ s = argumentChars cs)) →
        ∀ d, (s ++ x).head? = some d → isNamePart d = false := by
      rintro label cs m s x hx (⟨-, -, rfl⟩ | ⟨-, -, rfl⟩) d head
      · cases head
        decide
      · cases cs with
        | nil => exact (hx d head).1
        | cons c cs =>
          cases head
          decide
    obtain ⟨rfl, rest⟩ := name_cancel hm.2 hn.2 (sign hx kind) (sign hy kind') same
    rcases kind with ⟨f, -, rfl⟩ | ⟨f, name, rfl⟩ <;> rcases kind' with ⟨f', -, rfl⟩ | ⟨f', name', rfl⟩
    · have l := ht.1
      have r := hu.1
      rw [if_pos f] at l
      rw [if_pos f'] at r
      have root : label = label' := by
        cases label
        cases label'
        simp_all
      obtain ⟨rfl, ends⟩ := functionChars_cancel ht.2 hu.2 l.2 r.2 hx hy (List.cons.inj rest).2
      exact ⟨by rw [root], ends⟩
    · exact (argumentChars_ne_parenthesis us hy rest.symm).elim
    · exact (argumentChars_ne_parenthesis ts hx rest).elim
    · have root : label = label' := by
        have names := String.toList_injective (name.symm.trans name')
        cases label
        cases label'
        simp_all
      obtain ⟨rfl, ends⟩ := argumentChars_cancel ht.2 hu.2 hx hy rest
      exact ⟨by rw [root], ends⟩

theorem argumentChars_cancel {ts us : List KIRTypeSpec} {x y : List Char}
    (ht : AllNamed PlainName ts) (hu : AllNamed PlainName us) (hx : Follows x) (hy : Follows y)
    (same : argumentChars ts ++ x = argumentChars us ++ y) : ts = us ∧ x = y := by
  cases ts with
  | nil =>
    cases us with
    | nil => exact ⟨rfl, same⟩
    | cons u us => exact absurd rfl (hx '[' (by rw [show x = _ from same]; rfl)).2.1
  | cons t ts =>
    cases us with
    | nil => exact absurd rfl (hy '[' (by rw [show y = _ from same.symm]; rfl)).2.1
    | cons u us =>
      simp only [argumentChars, cons_append, append_assoc, List.cons.injEq,
        true_and] at same
      obtain ⟨rfl, rest⟩ := kirTypeSpecChars_cancel ht.1 hu.1 (follows_more ts x)
        (follows_more us y) same
      obtain ⟨rfl, ends⟩ := moreArgumentChars_cancel ht.2 hu.2 rest
      exact ⟨rfl, ends⟩

theorem moreArgumentChars_cancel {ts us : List KIRTypeSpec} {x y : List Char}
    (ht : AllNamed PlainName ts) (hu : AllNamed PlainName us)
    (same : moreArgumentChars ts ++ x = moreArgumentChars us ++ y) : ts = us ∧ x = y := by
  cases ts with
  | nil =>
    cases us with
    | nil => exact ⟨rfl, (List.cons.inj same).2⟩
    | cons u us => exact absurd (List.cons.inj same).1 (by decide)
  | cons t ts =>
    cases us with
    | nil => exact absurd (List.cons.inj same).1 (by decide)
    | cons u us =>
      simp only [moreArgumentChars, cons_append, append_assoc, List.cons.injEq,
        true_and] at same
      obtain ⟨rfl, rest⟩ := kirTypeSpecChars_cancel ht.1 hu.1 (follows_more ts x)
        (follows_more us y) same
      obtain ⟨rfl, ends⟩ := moreArgumentChars_cancel ht.2 hu.2 rest
      exact ⟨rfl, ends⟩

theorem functionChars_cancel {ts us : List KIRTypeSpec} {x y : List Char}
    (ht : AllNamed PlainName ts) (hu : AllNamed PlainName us) (some_ : ts ≠ []) (some' : us ≠ [])
    (hx : Follows x) (hy : Follows y) (same : functionChars ts ++ x = functionChars us ++ y) :
    ts = us ∧ x = y := by
  cases ts with
  | nil => exact absurd rfl some_
  | cons t ts =>
    cases us with
    | nil => exact absurd rfl some'
    | cons u us =>
      cases ts with
      | nil =>
        cases us with
        | nil =>
          simp only [functionChars, cons_append, List.cons.injEq, true_and] at same
          obtain ⟨rfl, ends⟩ := kirTypeSpecChars_cancel ht.1 hu.1 hx hy same
          exact ⟨rfl, ends⟩
        | cons v us => exact (functionChars_ne_result hu.1 same.symm).elim
      | cons v ts =>
        cases us with
        | nil => exact (functionChars_ne_result ht.1 same).elim
        | cons w us =>
          simp only [functionChars, append_assoc] at same
          obtain ⟨rfl, rest⟩ := kirTypeSpecChars_cancel ht.1 hu.1 (follows_function v ts x)
            (follows_function w us y) same
          have inside : functionChars (v :: ts) ++ x = functionChars (w :: us) ++ y := by
            cases ts <;> cases us <;> simp_all [functionChars]
          obtain ⟨same', ends⟩ := functionChars_cancel ht.2 hu.2 nofun nofun hx hy inside
          exact ⟨by rw [same'], ends⟩

end

theorem kirTypeSpecString_injective {t u : KIRTypeSpec} (ht : Named PlainName t)
    (hu : Named PlainName u) (same : kirTypeSpecString t = kirTypeSpecString u) : t = u := by
  have chars : kirTypeSpecChars t ++ [] = kirTypeSpecChars u ++ [] := by
    simpa using String.ofList_injective same
  exact (kirTypeSpecChars_cancel ht hu follows_nil follows_nil chars).1

end Kryndel
