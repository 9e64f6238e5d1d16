import Kryndel.Kir.TypeNames

/-!
# Type expressions that are read back

What a type specification prints is lexed into tokens that the parser reads as the
specification. So a text that spells a specification is accepted as that specification, where
the lexer has room for it and no two internal names are written alike.
-/

namespace Kryndel

open TermGraph Words List

/-! ## Names -/

/-- A name that is a token. -/
def IsIdentifier (name : List Char) : Prop :=
  (∃ c cs, name = c :: cs ∧ isIDStart c = true ∧ ∀ d ∈ cs, isIDPart d = true) ∧
    wordKind name = .id

/-- A name that a type expression can have: a token, or an internal name. -/
def IsTypeName (name : List Char) : Prop :=
  IsIdentifier name ∨ ∃ part, name = '@' :: part ∧ part ≠ [] ∧ ∀ c ∈ part, isIDPart c = true

theorem IsIdentifier.isName {name : List Char} (h : IsIdentifier name) : IsName name := by
  obtain ⟨⟨c, cs, rfl, hc, hcs⟩, -⟩ := h
  refine ⟨cons_ne_nil c cs, fun d hd => ?_⟩
  rcases mem_cons.mp hd with rfl | hd
  · rw [isIDPart, hc, Bool.true_or]
  · exact hcs d hd

theorem IsTypeName.plain {name : List Char} (h : IsTypeName name) : PlainName name := by
  rcases h with h | ⟨part, rfl, -, hpart⟩
  · exact h.isName.plain
  · refine ⟨cons_ne_nil _ _, fun d hd => ?_⟩
    rcases mem_cons.mp hd with rfl | hd
    · decide
    · exact isNamePart_of_isInternalPart (isInternalPart_of_isIDPart (hpart d hd))

theorem IsTypeName.clean {name : List Char} (h : IsTypeName name) : Clean name := by
  rcases h with h | ⟨part, rfl, -, hpart⟩
  · exact clean_of_isIDPart h.isName.2
  · intro d hd
    rcases mem_cons.mp hd with rfl | hd
    · decide
    · exact clean_of_isIDPart hpart d hd

theorem wordKind_of_internalPrefix (cs : List Char) : wordKind ('K' :: cs) = .id := by
  have hnone : words.lookup (String.ofList ('K' :: cs)) = none := by
    rw [lookup_eq_none_iff]
    intro p hp
    have hall : words.all (fun p => p.1.toList.head? != some 'K') = true := by decide
    have hhead : p.1.toList.head? ≠ some 'K' := bne_iff_ne.mp (all_eq_true.mp hall p hp)
    rw [bne_iff_ne]
    intro heq
    apply hhead
    rw [← heq, String.toList_ofList]
    rfl
  rw [wordKind, hnone, Option.getD_none]

theorem isIdentifier_standIn (encoded : List Char) {name : List Char} (h : IsTypeName name) :
    IsIdentifier (standIn encoded name) := by
  rcases h with h | ⟨part, rfl, -, hpart⟩
  · have hhead : name.head? ≠ some '@' := by
      obtain ⟨⟨c, cs, rfl, hc, -⟩, -⟩ := h
      intro heq
      cases heq
      exact absurd hc (by decide)
    rwa [standIn_of_head hhead]
  · obtain ⟨tail, heq, htail⟩ := placeholderFor_eq encoded part
    have hcons : placeholderFor encoded part = 'K' :: (internalPrefix.tail ++ part ++ tail) := heq
    refine ⟨⟨_, _, hcons, by decide, fun c hc => ?_⟩, ?_⟩
    · rcases mem_append.mp hc with hc | hc
      · rcases mem_append.mp hc with hc | hc
        · have hall : internalPrefix.tail.all isIDPart = true := by decide
          exact all_eq_true.mp hall c hc
        · exact hpart c hc
      · exact htail c hc
    · rw [standIn, hcons, wordKind_of_internalPrefix]

/-! ## Tokens of a text -/

/-- The signs of type expressions that are tokens. -/
def isTypeSign (c : Char) : Bool := ['[', ']', '(', ')', ','].contains c

/-- How many tokens there are in a text: its words and its signs. -/
def tokenCount (cs : List Char) : Nat :=
  (wordsOf isNamePart cs).length + (cs.filter isTypeSign).length

variable {c : Char}

theorem tokenCount_append_cons (x : List Char) (y : List Char) (hc : isNamePart c = false) :
    tokenCount (x ++ c :: y) = tokenCount x + (if isTypeSign c then 1 else 0) + tokenCount y := by
  rw [tokenCount, tokenCount, tokenCount, wordsOf_append_cons x y hc, length_append,
    filter_append, length_append, filter_cons]
  split <;> simp <;> omega

theorem tokenCount_cons (y : List Char) (hc : isNamePart c = false) :
    tokenCount (c :: y) = (if isTypeSign c then 1 else 0) + tokenCount y := by
  have h := tokenCount_append_cons [] y hc
  rwa [show tokenCount [] = 0 from rfl, Nat.zero_add] at h

theorem tokenCount_word {w : List Char} (h : IsWord isNamePart w) : tokenCount w = 1 := by
  have hnone : w.filter isTypeSign = [] := by
    rw [filter_eq_nil_iff]
    intro c hc hsign
    have hpart := h.2 c hc
    simp only [isTypeSign, contains_iff_mem, mem_cons, not_mem_nil, or_false]
      at hsign
    rcases hsign with rfl | rfl | rfl | rfl | rfl <;> exact absurd hpart (by decide)
  rw [tokenCount, wordsOf_isWord h, hnone]
  rfl

variable {args : List KIRTypeSpec}

theorem tokenCount_namedSpec {name : String} (h : PlainName name.toList) (hne : args ≠ []) :
    tokenCount (kirTypeSpecChars (namedSpec name args)) =
      tokenCount (joined (args.map kirTypeSpecChars)) + 3 := by
  rw [chars_namedSpec name hne, tokenCount_append_cons _ _ (by decide),
    tokenCount_append_cons _ _ (by decide), tokenCount_word h, if_pos (by decide),
    if_pos (by decide), show tokenCount [] = 0 from rfl]
  omega

theorem tokenCount_functionSpec (params : List KIRTypeSpec) (ret : KIRTypeSpec) :
    tokenCount (kirTypeSpecChars (functionSpec params ret)) =
      tokenCount (joined (params.map kirTypeSpecChars)) + tokenCount (kirTypeSpecChars ret) +
        4 := by
  rw [chars_functionSpec_words, tokenCount_append_cons _ _ (by decide),
    tokenCount_word isWord_fn, tokenCount_append_cons _ _ (by decide),
    tokenCount_cons _ (by decide), tokenCount_append_cons _ _ (by decide),
    tokenCount_word isWord_arrow, if_pos (by decide), if_pos (by decide), if_neg (by decide)]
  omega

/-! ## Lexing -/

/-- The kind and the text of a token. -/
def Lexeme.key (t : Lexeme) : TokenKind × List Char := (t.kind, t.text)

/-- No name goes on at the beginning of a text. -/
def Ended (rest : List Char) : Prop := ∀ c, rest.head? = some c → isIDPart c = false

section Lexing

variable {source : String} {lim : Limits}

/-- The lexer reads a text, before what may follow it, as some tokens, where there is room for
    them and for one token more. -/
def LexesWhere (source : String) (lim : Limits) (after : List Char → Prop) (x : List Char)
    (keys : List (TokenKind × List Char)) : Prop :=
  ∀ fuel rest pos count, after rest → (x ++ rest).length ≤ fuel →
    count + keys.length < lim.maxTokens → ∃ toks fuel' pos', toks.map Lexeme.key = keys ∧
      rest.length ≤ fuel' ∧ lexFrom source lim fuel (x ++ rest) pos count =
        (lexFrom source lim fuel' rest pos' (count + keys.length)).map (toks ++ ·)

/-- It does so whatever follows. -/
abbrev Lexes (source : String) (lim : Limits) (x : List Char)
    (keys : List (TokenKind × List Char)) : Prop :=
  LexesWhere source lim (fun _ => True) x keys

theorem LexesWhere.append {after after' : List Char → Prop} {x y : List Char}
    {keys keys' : List (TokenKind × List Char)} (hx : LexesWhere source lim after x keys)
    (hy : LexesWhere source lim after' y keys') (hnext : ∀ rest, after' rest → after (y ++ rest)) :
    LexesWhere source lim after' (x ++ y) (keys ++ keys') := by
  intro fuel rest pos count hrest hfuel hroom
  rw [length_append] at hroom
  rw [append_assoc] at hfuel ⊢
  obtain ⟨toks, fuel', pos', hkeys, hfuel', hlex⟩ :=
    hx fuel (y ++ rest) pos count (hnext rest hrest) hfuel (by omega)
  obtain ⟨toks', fuel'', pos'', hkeys', hfuel'', hlex'⟩ :=
    hy fuel' rest pos' (count + keys.length) hrest hfuel' (by omega)
  refine ⟨toks ++ toks', fuel'', pos'', ?_, hfuel'', ?_⟩
  · rw [map_append, hkeys, hkeys']
  · rw [hlex, hlex', length_append, Nat.add_assoc]
    cases lexFrom source lim fuel'' rest pos'' (count + (keys.length + keys'.length)) with
    | error d => rfl
    | ok others => exact congrArg Except.ok (append_assoc toks toks' others).symm

theorem LexesWhere.weaken {after : List Char → Prop} {x : List Char}
    {keys : List (TokenKind × List Char)} (hx : Lexes source lim x keys) :
    LexesWhere source lim after x keys :=
  fun fuel rest pos count _ => hx fuel rest pos count trivial

theorem lexes_scan {after : List Char → Prop} {cs : List Char} {kind : TokenKind}
    (hscan : ∀ rest pos, after rest → scan source lim c (cs ++ rest) pos = .ok (some kind, rest)) :
    LexesWhere source lim after (c :: cs) [(kind, c :: cs)] := by
  intro fuel rest pos count hrest hfuel hroom
  cases fuel with
  | zero => cases hfuel
  | succ fuel =>
    have hcons : c :: (cs ++ rest) = (c :: cs) ++ rest := rfl
    refine ⟨[⟨kind, c :: cs, ⟨source, pos.offset, (pos.past (c :: cs)).offset - pos.offset,
      pos.line, pos.column⟩⟩], fuel, pos.past (c :: cs), rfl, ?_, ?_⟩
    · rw [length_append, length_cons] at hfuel
      omega
    · rw [cons_append, lexFrom, if_neg (by omega), hscan rest pos hrest, hcons]
      simp only [consumed_append]
      rfl

theorem lexes_nil : Lexes source lim [] [] := by
  intro fuel rest pos count _ hfuel _
  refine ⟨[], fuel, pos, rfl, hfuel, ?_⟩
  rw [length_nil, Nat.add_zero, nil_append]
  cases lexFrom source lim fuel rest pos count <;> rfl

theorem lexes_space : Lexes source lim [' '] [] := by
  intro fuel rest pos count _ hfuel hroom
  cases fuel with
  | zero => cases hfuel
  | succ fuel =>
    refine ⟨[], fuel, pos.past (consumed (' ' :: rest) rest), rfl, Nat.le_of_succ_le_succ hfuel, ?_⟩
    rw [singleton_append, lexFrom, if_neg (by omega)]
    have hscan : scan source lim ' ' rest pos = .ok (none, rest) := rfl
    rw [hscan]
    dsimp only
    cases lexFrom source lim fuel rest (pos.past (consumed (' ' :: rest) rest)) count <;> rfl

theorem lexes_sign {kind : TokenKind} (hone : oneCharKind c = some kind)
    (htwo : ∀ d, twoCharKind c d = none)
    (hsign : c ≠ ' ' ∧ c ≠ '\t' ∧ c ≠ '\r' ∧ c ≠ '\n' ∧ c ≠ '/' ∧ c ≠ '"')
    (hid : isIDStart c = false) (hdigit : isDigit c = false) :
    Lexes source lim [c] [(kind, [c])] := by
  apply lexes_scan
  intro rest pos _
  obtain ⟨hspace, htab, hreturn, hline, hslash, hquote⟩ := hsign
  have hpair : rest.head?.bind (twoCharKind c) = none := by
    rw [Option.bind_eq_none_iff]
    exact fun d _ => htwo d
  rw [List.nil_append, scan]
  simp only [beq_eq_false_iff_ne.mpr hspace, beq_eq_false_iff_ne.mpr htab,
    beq_eq_false_iff_ne.mpr hreturn, beq_eq_false_iff_ne.mpr hline,
    beq_eq_false_iff_ne.mpr hslash, beq_eq_false_iff_ne.mpr hquote, hid, hdigit, Bool.false_or,
    Bool.false_and, Bool.false_eq_true, if_false, operator, hpair, hone]

theorem lexes_arrow : Lexes source lim ['-', '>'] [(.arrow, ['-', '>'])] := by
  apply lexes_scan
  intro rest pos _
  rfl

theorem lexes_word {cs : List Char} (hc : isIDStart c = true) (hcs : ∀ d ∈ cs, isIDPart d = true) :
    LexesWhere source lim Ended (c :: cs) [(wordKind (c :: cs), c :: cs)] := by
  apply lexes_scan
  intro rest pos hrest
  have hplain : ∀ d : Char, isIDStart d = false → (c == d) = false := by
    intro d hd
    rw [beq_eq_false_iff_ne]
    rintro rfl
    rw [hc] at hd
    cases hd
  have htake : (cs ++ rest).takeWhile isIDPart = cs := by
    rw [List.takeWhile_append_of_pos hcs]
    cases rest with
    | nil => exact List.append_nil cs
    | cons d rest =>
      rw [List.takeWhile_cons_of_neg (by rw [hrest d rfl]; exact Bool.false_ne_true),
        List.append_nil]
  have hdrop : (cs ++ rest).dropWhile isIDPart = rest := by
    rw [List.dropWhile_append_of_pos hcs]
    cases rest with
    | nil => rfl
    | cons d rest =>
      exact List.dropWhile_cons_of_neg (by rw [hrest d rfl]; exact Bool.false_ne_true)
  rw [scan]
  simp only [hplain ' ' (by decide), hplain '\t' (by decide), hplain '\r' (by decide),
    hplain '\n' (by decide), hplain '/' (by decide), Bool.false_or, Bool.false_and,
    Bool.false_eq_true, if_false, hc, if_true, htake, hdrop]

end Lexing

/-! ## Reading tokens -/

/-- What may stand after the tokens of a specification. -/
def Stops (rest : List Lexeme) : Prop :=
  ∀ t, rest.head? = some t → t.kind ≠ .lbracket ∧ t.kind ≠ .id

/-- What may stand after the tokens of some specifications. -/
def StopsAll (rest : List Lexeme) : Prop :=
  Stops rest ∧ ∀ t, rest.head? = some t → t.kind ≠ .comma

/-- The tokens of a specification begin with a name, or with `fn`. -/
def Begins (keys : List (TokenKind × List Char)) : Prop :=
  ∃ key keys', keys = key :: keys' ∧ (key.1 = .fn ∨ key.1 = .id)

/-- A specification prints as some tokens, and the parser reads them as it. -/
structure SpecReadsAs (source : String) (lim : Limits) (spec : KIRTypeSpec)
    (keys : List (TokenKind × List Char)) : Prop where
  lexes : LexesWhere source lim Ended (kirTypeSpecChars spec) keys
  count : keys.length = tokenCount (kirTypeSpecChars spec)
  begins : Begins keys
  reads : ∀ n toks rest, toks.map Lexeme.key = keys → keys.length ≤ n → Stops rest →
    typeSpec n (toks ++ rest) = some (spec, rest)

/-- So do specifications with commas between them. -/
structure SpecsReadAs (source : String) (lim : Limits) (specs : List KIRTypeSpec)
    (keys : List (TokenKind × List Char)) : Prop where
  lexes : LexesWhere source lim Ended (joined (specs.map kirTypeSpecChars)) keys
  count : keys.length = tokenCount (joined (specs.map kirTypeSpecChars))
  begins : Begins keys
  reads : ∀ n toks rest, toks.map Lexeme.key = keys → keys.length + 1 ≤ n → StopsAll rest →
    typeSpecs n (toks ++ rest) = some (specs, rest)

section Reading

variable {source : String} {lim : Limits}

theorem joined_cons_cons (x y : List Char) (ys : List (List Char)) :
    joined (x :: y :: ys) = x ++ ',' :: ' ' :: joined (y :: ys) := by
  rfl

theorem checkKind_cons (kind : TokenKind) (t : Lexeme) (toks : List Lexeme) :
    checkKind kind (t :: toks) = decide (t.kind = kind) := rfl

theorem checkKind_of_begins {kind : TokenKind} {toks rest : List Lexeme}
    {keys : List (TokenKind × List Char)} (hbegins : Begins keys)
    (hkeys : toks.map Lexeme.key = keys) (hfn : kind ≠ .fn) (hid : kind ≠ .id) :
    checkKind kind (toks ++ rest) = false := by
  obtain ⟨key, keys', rfl, hkind⟩ := hbegins
  obtain ⟨t, toks', rfl, rfl, -⟩ := List.map_eq_cons_iff.mp hkeys
  rw [List.cons_append, checkKind_cons, decide_eq_false_iff_not]
  rintro rfl
  rcases hkind with h | h
  · exact hfn h
  · exact hid h

variable {rest : List Lexeme}

theorem checkKind_of_stopsAll (h : StopsAll rest) :
    checkKind .comma rest = false := by
  cases rest with
  | nil => rfl
  | cons t rest =>
    rw [checkKind_cons, decide_eq_false_iff_not]
    exact h.2 t rfl

theorem ended_sign (hc : isIDPart c = false) (rest : List Char) : Ended (c :: rest) := by
  rintro d ⟨⟩
  exact hc

variable {t : Lexeme}

theorem stops_of_kind (hbracket : t.kind ≠ .lbracket) (hid : t.kind ≠ .id) : Stops (t :: rest) := by
  rintro u ⟨⟩
  exact ⟨hbracket, hid⟩

theorem stopsAll_of_kind (hbracket : t.kind ≠ .lbracket) (hid : t.kind ≠ .id)
    (hcomma : t.kind ≠ .comma) : StopsAll (t :: rest) := by
  refine ⟨stops_of_kind hbracket hid, ?_⟩
  rintro u ⟨⟩
  exact hcomma

theorem lexes_comma : Lexes source lim [','] [(.comma, [','])] :=
  lexes_sign rfl (fun _ => rfl) (by decide) (by decide) (by decide)

theorem exists_specsReadAs {specs : List KIRTypeSpec} (hne : specs ≠ [])
    (h : ∀ spec ∈ specs, ∃ keys, SpecReadsAs source lim spec keys) :
    ∃ keys, SpecsReadAs source lim specs keys := by
  induction specs with
  | nil => exact absurd rfl hne
  | cons spec specs ih =>
    obtain ⟨keys, hspec⟩ := h spec List.mem_cons_self
    cases specs with
    | nil =>
      have hjoined : joined ([spec].map kirTypeSpecChars) = kirTypeSpecChars spec :=
        List.append_nil _
      refine ⟨keys, ⟨hjoined ▸ hspec.lexes, hjoined ▸ hspec.count, hspec.begins, ?_⟩⟩
      intro n toks rest hkeys hfuel hrest
      cases n with
      | zero => cases hfuel
      | succ n =>
        rw [typeSpecs, hspec.reads n toks rest hkeys (Nat.le_of_succ_le_succ hfuel) hrest.1]
        simp [checkKind_of_stopsAll hrest]
    | cons spec' specs =>
      obtain ⟨keys', hspecs⟩ := ih (List.cons_ne_nil _ _)
        fun s hs => h s (List.mem_cons_of_mem spec hs)
      have hjoined : joined ((spec :: spec' :: specs).map kirTypeSpecChars) =
          kirTypeSpecChars spec ++ ([','] ++ ([' '] ++
            joined ((spec' :: specs).map kirTypeSpecChars))) := joined_cons_cons _ _ _
      obtain ⟨key, keysTail, hcons, hkind⟩ := hspec.begins
      refine ⟨keys ++ ([(.comma, [','])] ++ ([] ++ keys')), ⟨?_, ?_, ?_, ?_⟩⟩
      · rw [hjoined]
        refine hspec.lexes.append (lexes_comma.append (lexes_space.append hspecs.lexes
          fun _ _ => trivial) fun _ _ => trivial) ?_
        exact fun rest _ => ended_sign (by decide) _
      · have hcount : tokenCount (joined ((spec :: spec' :: specs).map kirTypeSpecChars)) =
            keys.length + 1 + (0 + keys'.length) := by
          rw [hspec.count, hspecs.count, List.map_cons, List.map_cons, joined_cons_cons,
            tokenCount_append_cons _ _ (by decide), tokenCount_cons _ (by decide)]
          rfl
        rw [hcount, List.length_append, List.length_append, List.length_append,
          List.length_singleton, List.length_nil, Nat.add_assoc]
      · exact ⟨key, _, by rw [hcons]; rfl, hkind⟩
      · intro n toks rest hkeys hfuel hrest
        obtain ⟨toks₁, toks₂, rfl, hkeys₁, hkeys₂⟩ := List.map_eq_append_iff.mp hkeys
        obtain ⟨comma, toks₃, rfl, hcomma, hkeys₃⟩ := List.map_eq_cons_iff.mp hkeys₂
        have hkind : comma.kind = .comma := congrArg Prod.fst hcomma
        rw [List.length_append, List.length_append, List.length_singleton] at hfuel
        cases n with
        | zero => cases hfuel
        | succ n =>
          have hfirst := hspec.reads n toks₁ (comma :: (toks₃ ++ rest)) hkeys₁ (by omega)
            (stops_of_kind (by rw [hkind]; decide) (by rw [hkind]; decide))
          have hmore := hspecs.reads n toks₃ rest hkeys₃
            (by rw [hcons] at hfuel; simp at hfuel; omega) hrest
          rw [List.append_assoc, List.cons_append, typeSpecs, hfirst]
          simp [checkKind_cons, hkind, hmore]

theorem checkKind_of_stops (h : Stops rest) :
    checkKind .lbracket rest = false ∧ checkKind .id rest = false := by
  cases rest with
  | nil => exact ⟨rfl, rfl⟩
  | cons t rest =>
    obtain ⟨hbracket, hid⟩ := h t rfl
    rw [checkKind_cons, checkKind_cons, decide_eq_false_iff_not, decide_eq_false_iff_not]
    exact ⟨hbracket, hid⟩

theorem expectKind_cons {kind : TokenKind} (h : t.kind = kind) (rest : List Lexeme) :
    expectKind kind (t :: rest) = some rest := by
  rw [expectKind, if_pos h]

theorem specReadsAs_name {name : String} (h : IsIdentifier name.toList) :
    SpecReadsAs source lim (namedSpec name []) [(.id, name.toList)] := by
  have hplain := h.isName.plain
  obtain ⟨⟨c, cs, hname, hc, hcs⟩, hkind⟩ := h
  constructor
  · rw [chars_namedSpec_nil, ← hkind, hname]
    exact lexes_word hc hcs
  · rw [chars_namedSpec_nil, tokenCount_word hplain]
    rfl
  · exact ⟨_, [], rfl, Or.inr rfl⟩
  · intro n toks rest hkeys hfuel hrest
    obtain ⟨t, toks', rfl, hkey, hnil⟩ := List.map_eq_cons_iff.mp hkeys
    obtain rfl := List.map_eq_nil_iff.mp hnil
    have hid : t.kind = .id := congrArg Prod.fst hkey
    have htext : t.text = name.toList := congrArg Prod.snd hkey
    obtain ⟨hbracket, hnext⟩ := checkKind_of_stops hrest
    cases n with
    | zero => cases hfuel
    | succ n =>
      rw [List.cons_append, List.nil_append, typeSpec, if_neg (by rw [hid]; decide), if_pos hid,
        hbracket, hnext, if_neg (by simp), if_neg Bool.false_ne_true, htext, String.ofList_toList]

theorem specReadsAs_arguments {name : String} {keys : List (TokenKind × List Char)}
    (h : IsIdentifier name.toList) (hne : args ≠ []) (hargs : SpecsReadAs source lim args keys) :
    SpecReadsAs source lim (namedSpec name args)
      ([(.id, name.toList)] ++ ([(.lbracket, ['['])] ++ (keys ++ [(.rbracket, [']'])]))) := by
  have hplain := h.isName.plain
  obtain ⟨⟨c, cs, hname, hc, hcs⟩, hkind⟩ := h
  have hopen : Lexes source lim ['['] [(.lbracket, ['['])] :=
    lexes_sign rfl (fun _ => rfl) (by decide) (by decide) (by decide)
  have hclose : Lexes source lim [']'] [(.rbracket, [']'])] :=
    lexes_sign rfl (fun _ => rfl) (by decide) (by decide) (by decide)
  constructor
  · have hword : LexesWhere source lim Ended name.toList [(.id, name.toList)] := by
      rw [← hkind, hname]
      exact lexes_word hc hcs
    rw [chars_namedSpec name hne]
    refine LexesWhere.append hword (LexesWhere.append hopen (LexesWhere.append hargs.lexes
      hclose.weaken ?_) ?_) ?_
    · exact fun rest _ => ended_sign (by decide) rest
    · exact fun _ _ => trivial
    · exact fun rest _ => ended_sign (by decide) _
  · rw [tokenCount_namedSpec hplain hne, ← hargs.count]
    simp only [List.length_append, List.length_singleton]
    omega
  · exact ⟨_, _, rfl, Or.inr rfl⟩
  · intro n toks rest hkeys hfuel hrest
    obtain ⟨t, toks₁, rfl, hkey, hkeys₁⟩ := List.map_eq_cons_iff.mp hkeys
    obtain ⟨topen, toks₂, rfl, hopenKey, hkeys₂⟩ := List.map_eq_cons_iff.mp hkeys₁
    change toks₂.map Lexeme.key = keys ++ [(.rbracket, [']'])] at hkeys₂
    obtain ⟨toks₃, toks₄, rfl, hkeys₃, hkeys₄⟩ := List.map_eq_append_iff.mp hkeys₂
    obtain ⟨tclose, toks₅, rfl, hcloseKey, hnil⟩ := List.map_eq_cons_iff.mp hkeys₄
    obtain rfl := List.map_eq_nil_iff.mp hnil
    have hid : t.kind = .id := congrArg Prod.fst hkey
    have htext : t.text = name.toList := congrArg Prod.snd hkey
    have hbracket : topen.kind = .lbracket := congrArg Prod.fst hopenKey
    have hend : tclose.kind = .rbracket := congrArg Prod.fst hcloseKey
    cases n with
    | zero => cases hfuel
    | succ n =>
      have hsome := hargs.reads n toks₃ (tclose :: rest) hkeys₃
        (by simp only [List.length_append, List.length_singleton] at hfuel; omega)
        (stopsAll_of_kind (by rw [hend]; decide) (by rw [hend]; decide) (by rw [hend]; decide))
      have hfirst := @checkKind_of_begins .rbracket toks₃ (tclose :: rest) keys hargs.begins hkeys₃
        (by decide) (by decide)
      have hshape : t :: topen :: (toks₃ ++ [tclose]) ++ rest =
          t :: topen :: (toks₃ ++ tclose :: rest) := by simp
      rw [hshape, typeSpec, if_neg (by rw [hid]; decide), if_pos hid, checkKind_cons,
        checkKind_cons, hbracket, if_neg (by simp), if_pos (by simp), List.tail_cons]
      simp only [hfirst, Bool.false_eq_true, if_false, hsome, Option.bind_eq_bind,
        Option.bind_some, expectKind_cons hend, htext, String.ofList_toList]

/-- A function type, with parameters or without. -/
theorem specReadsAs_function {params : List KIRTypeSpec} {ret : KIRTypeSpec}
    {keys keys' : List (TokenKind × List Char)}
    (hparams : (params = [] ∧ keys = []) ∨ SpecsReadAs source lim params keys)
    (hret : SpecReadsAs source lim ret keys') :
    SpecReadsAs source lim (functionSpec params ret)
      ([(.fn, ['f', 'n'])] ++ ([(.lparen, ['('])] ++ (keys ++ ([(.rparen, [')'])] ++ ([] ++
        ([(.arrow, ['-', '>'])] ++ ([] ++ keys'))))))) := by
  have hfn : LexesWhere source lim Ended ['f', 'n'] [(.fn, ['f', 'n'])] := by
    have hkind : wordKind ['f', 'n'] = .fn := by decide
    apply lexes_word (by decide)
    intro d hd
    rw [List.mem_singleton.mp hd]
    decide
  have hopen : Lexes source lim ['('] [(.lparen, ['('])] :=
    lexes_sign rfl (fun _ => rfl) (by decide) (by decide) (by decide)
  have hclose : Lexes source lim [')'] [(.rparen, [')'])] :=
    lexes_sign rfl (fun _ => rfl) (by decide) (by decide) (by decide)
  have hlexes : LexesWhere source lim Ended (joined (params.map kirTypeSpecChars)) keys := by
    rcases hparams with ⟨rfl, rfl⟩ | hparams
    · exact lexes_nil.weaken
    · exact hparams.lexes
  have hcount : keys.length = tokenCount (joined (params.map kirTypeSpecChars)) := by
    rcases hparams with ⟨rfl, rfl⟩ | hparams
    · rfl
    · exact hparams.count
  -- there need not be a parameter
  have hreads : ∀ n toks t rest, toks.map Lexeme.key = keys → keys.length + 1 ≤ n →
      t.kind = .rparen → (if checkKind .rparen (toks ++ t :: rest) then some ([], toks ++ t :: rest)
        else typeSpecs n (toks ++ t :: rest)) = some (params, t :: rest) := by
    intro n toks t rest hkeys hfuel hkind
    rcases hparams with ⟨rfl, rfl⟩ | hparams
    · obtain rfl := List.map_eq_nil_iff.mp hkeys
      rw [List.nil_append, checkKind_cons, hkind, if_pos (by decide)]
    · rw [checkKind_of_begins hparams.begins hkeys (by decide) (by decide),
        if_neg Bool.false_ne_true]
      exact hparams.reads n toks (t :: rest) hkeys hfuel
        (stopsAll_of_kind (by rw [hkind]; decide) (by rw [hkind]; decide) (by rw [hkind]; decide))
  constructor
  · rw [chars_functionSpec_words]
    refine LexesWhere.append hfn (LexesWhere.append hopen (LexesWhere.append hlexes
      (LexesWhere.append hclose (LexesWhere.append lexes_space (LexesWhere.append lexes_arrow
        (LexesWhere.append lexes_space hret.lexes ?_) ?_) ?_) ?_) ?_) ?_) ?_
    · exact fun _ _ => trivial
    · exact fun _ _ => trivial
    · exact fun _ _ => trivial
    · exact fun _ _ => trivial
    · exact fun rest _ => ended_sign (by decide) _
    · exact fun _ _ => trivial
    · exact fun rest _ => ended_sign (by decide) _
  · rw [tokenCount_functionSpec, ← hcount, ← hret.count]
    simp only [List.length_append, List.length_singleton, List.length_nil]
    omega
  · exact ⟨_, _, rfl, Or.inl rfl⟩
  · intro n toks rest hkeys hfuel hrest
    obtain ⟨t, toks₁, rfl, hkey, hkeys₁⟩ := List.map_eq_cons_iff.mp hkeys
    obtain ⟨topen, toks₂, rfl, hopenKey, hkeys₂⟩ := List.map_eq_cons_iff.mp hkeys₁
    change toks₂.map Lexeme.key = keys ++ ([(.rparen, [')'])] ++ ([(.arrow, ['-', '>'])] ++ keys'))
      at hkeys₂
    obtain ⟨toks₃, toks₄, rfl, hkeys₃, hkeys₄⟩ := List.map_eq_append_iff.mp hkeys₂
    obtain ⟨tclose, toks₅, rfl, hcloseKey, hkeys₅⟩ := List.map_eq_cons_iff.mp hkeys₄
    obtain ⟨tarrow, toks₆, rfl, harrowKey, hkeys₆⟩ := List.map_eq_cons_iff.mp hkeys₅
    change toks₆.map Lexeme.key = keys' at hkeys₆
    have hkind : t.kind = .fn := congrArg Prod.fst hkey
    have hparen : topen.kind = .lparen := congrArg Prod.fst hopenKey
    have hend : tclose.kind = .rparen := congrArg Prod.fst hcloseKey
    have harrow : tarrow.kind = .arrow := congrArg Prod.fst harrowKey
    simp only [List.length_append, List.length_singleton, List.length_nil] at hfuel
    cases n with
    | zero => omega
    | succ n =>
      have hfirst := hreads n toks₃ tclose (tarrow :: (toks₆ ++ rest)) hkeys₃ (by omega) hend
      have hlast := hret.reads n toks₆ rest hkeys₆ (by omega) hrest
      have hshape : t :: topen :: (toks₃ ++ tclose :: tarrow :: toks₆) ++ rest =
          t :: topen :: (toks₃ ++ tclose :: tarrow :: (toks₆ ++ rest)) := by simp
      rw [hshape, typeSpec, if_pos hkind, expectKind_cons hparen]
      simp only [Option.bind_eq_bind, Option.bind_some, hfirst, expectKind_cons hend,
        expectKind_cons harrow, hlast]

theorem exists_specReadsAs {spec : KIRTypeSpec} (h : Named IsIdentifier spec) :
    ∃ keys, SpecReadsAs source lim spec keys := by
  refine Named.induction (P := fun spec => ∃ keys, SpecReadsAs source lim spec keys) ?_ ?_ spec h
  · intro name args hname _ ih
    by_cases hnil : args = []
    · rw [hnil]
      exact ⟨_, specReadsAs_name hname⟩
    · obtain ⟨keys, hargs⟩ := exists_specsReadAs hnil ih
      exact ⟨_, specReadsAs_arguments hname hnil hargs⟩
  · intro params ret _ ihparams _ ih
    obtain ⟨keys', hret⟩ := ih
    by_cases hnil : params = []
    · exact ⟨_, specReadsAs_function (Or.inl ⟨hnil, rfl⟩) hret⟩
    · obtain ⟨keys, hparams⟩ := exists_specsReadAs hnil ihparams
      exact ⟨_, specReadsAs_function (Or.inr hparams) hret⟩

end Reading

/-! ## Internal names where they can stand -/

/-- Internal names begin where the loop over the text lets them, and are not empty. -/
def NamesOpen : Option Char → List Char → Prop
  | _, [] => True
  | previous, c :: cs =>
    (c = '@' → (∀ p, previous = some p → opensName p = true) ∧
      ∃ d, cs.head? = some d ∧ isNamePart d = true) ∧ NamesOpen (some c) cs

section NamesOpen

variable {previous : Option Char} {w cs : List Char}

theorem NamesOpen.cons {c : Char} (hc : c ≠ '@') (h : NamesOpen (some c) cs) :
    NamesOpen previous (c :: cs) :=
  ⟨fun hat => absurd hat hc, h⟩

theorem NamesOpen.after (h : NamesOpen previous (w ++ cs)) (hne : w ≠ []) :
    NamesOpen w.getLast? cs := by
  induction w generalizing previous with
  | nil => exact absurd rfl hne
  | cons c w ih =>
    cases w with
    | nil => exact h.2
    | cons d w =>
      exact ih h.2 (List.cons_ne_nil d w)

theorem NamesOpen.opened {p : Char} (hp : opensName p = true) (h : NamesOpen previous cs) :
    NamesOpen (some p) cs := by
  cases cs with
  | nil => trivial
  | cons c cs =>
    refine ⟨fun hat => ⟨?_, (h.1 hat).2⟩, h.2⟩
    rintro q ⟨⟩
    exact hp

theorem NamesOpen.of_spaced (h : NamesOpen previous (spaced cs)) : NamesOpen previous cs := by
  induction cs generalizing previous with
  | nil => trivial
  | cons c cs ih =>
    obtain ⟨hhead, htail⟩ := h
    constructor
    · rintro rfl
      obtain ⟨hopen, d, hd, hpart⟩ := hhead rfl
      rw [show ('@' == ',') = false from rfl, Bool.false_and, if_neg Bool.false_ne_true,
        List.nil_append, spaced_head] at hd
      exact ⟨hopen, d, hd, hpart⟩
    · split at htail
      · rename_i hcomma
        have hc : c = ',' := beq_iff_eq.mp (Bool.and_eq_true_iff.mp hcomma).1
        rw [hc]
        exact NamesOpen.opened (by decide) (ih htail.2)
      · exact ih htail

theorem NamesOpen.word (hne : w ≠ []) (hw : ∀ c ∈ w, c ≠ '@')
    (hcs : ∀ q, NamesOpen (some q) cs) : NamesOpen previous (w ++ cs) := by
  induction w generalizing previous with
  | nil => exact absurd rfl hne
  | cons c w ih =>
    refine NamesOpen.cons (hw c List.mem_cons_self) ?_
    cases w with
    | nil => exact hcs c
    | cons d w => exact ih (List.cons_ne_nil d w) fun e he => hw e (List.mem_cons_of_mem c he)

theorem not_at_of_isIDPart (h : ∀ c ∈ w, isIDPart c = true) : ∀ c ∈ w, c ≠ '@' := by
  rintro c hc rfl
  exact absurd (h '@' hc) (by decide)

theorem NamesOpen.name (h : IsTypeName w) (hprevious : ∀ p, previous = some p → opensName p = true)
    (hcs : ∀ q, NamesOpen (some q) cs) : NamesOpen previous (w ++ cs) := by
  rcases h with h | ⟨part, rfl, hne, hpart⟩
  · exact NamesOpen.word h.isName.1 (not_at_of_isIDPart h.isName.2) hcs
  · refine ⟨fun _ => ⟨hprevious, ?_⟩, NamesOpen.word hne (not_at_of_isIDPart hpart) hcs⟩
    obtain ⟨c, part, rfl⟩ := List.exists_cons_of_ne_nil hne
    exact ⟨c, rfl, isNamePart_of_isInternalPart
      (isInternalPart_of_isIDPart (hpart c List.mem_cons_self))⟩

theorem NamesOpen.joined {xs : List (List Char)}
    (h : ∀ x ∈ xs, ∀ {previous rest}, (∀ p, previous = some p → opensName p = true) →
      (∀ q, NamesOpen (some q) rest) → NamesOpen previous (x ++ rest))
    (hprevious : ∀ p, previous = some p → opensName p = true) (hcs : ∀ q, NamesOpen (some q) cs)
    (hnone : xs = [] → NamesOpen previous cs) : NamesOpen previous (Kryndel.joined xs ++ cs) := by
  induction xs generalizing previous with
  | nil => exact hnone rfl
  | cons x xs ih =>
    cases xs with
    | nil =>
      rw [Kryndel.joined, List.flatMap_nil, List.append_nil]
      exact h x List.mem_cons_self hprevious hcs
    | cons y ys =>
      rw [joined_cons_cons, List.append_assoc]
      apply h x List.mem_cons_self hprevious
      intro q
      refine NamesOpen.cons (by decide) (NamesOpen.cons (by decide) ?_)
      refine ih (fun z hz => h z (List.mem_cons_of_mem x hz)) ?_ (fun hnil => by cases hnil)
      rintro p ⟨⟩
      decide

theorem namesOpen_chars {spec : KIRTypeSpec} (h : Named IsTypeName spec) :
    ∀ {previous rest}, (∀ p, previous = some p → opensName p = true) →
      (∀ q, NamesOpen (some q) rest) → NamesOpen previous (kirTypeSpecChars spec ++ rest) := by
  refine Named.induction (P := fun spec => ∀ {previous rest},
    (∀ p, previous = some p → opensName p = true) → (∀ q, NamesOpen (some q) rest) →
      NamesOpen previous (kirTypeSpecChars spec ++ rest)) ?_ ?_ spec h
  · intro name args hname _ ih previous rest hprevious hrest
    by_cases hnil : args = []
    · rw [hnil, chars_namedSpec_nil]
      exact NamesOpen.name hname hprevious hrest
    · rw [chars_namedSpec name hnil, List.append_assoc, List.cons_append, List.append_assoc]
      apply NamesOpen.name hname hprevious
      intro q
      refine NamesOpen.cons (by decide) (NamesOpen.joined ?_ ?_ ?_ ?_)
      · intro x hx
        obtain ⟨a, ha, rfl⟩ := List.mem_map.mp hx
        exact ih a ha
      · rintro p ⟨⟩
        decide
      · exact fun q => NamesOpen.cons (by decide) (hrest ']')
      · exact fun hmap => absurd (List.map_eq_nil_iff.mp hmap) hnil
  · intro params ret _ ihparams _ ih previous rest hprevious hrest
    have hafter : ∀ q, NamesOpen (some q)
        (')' :: ' ' :: '-' :: '>' :: ' ' :: (kirTypeSpecChars ret ++ rest)) := by
      intro q
      refine NamesOpen.cons (by decide) (NamesOpen.cons (by decide) (NamesOpen.cons (by decide)
        (NamesOpen.cons (by decide) (NamesOpen.cons (by decide) (ih ?_ hrest)))))
      rintro p ⟨⟩
      decide
    have hshape : kirTypeSpecChars (functionSpec params ret) ++ rest =
        'f' :: 'n' :: '(' :: (Kryndel.joined (params.map kirTypeSpecChars) ++
          (')' :: ' ' :: '-' :: '>' :: ' ' :: (kirTypeSpecChars ret ++ rest))) := by
      rw [chars_functionSpec]
      simp
    rw [hshape]
    refine NamesOpen.cons (by decide) (NamesOpen.cons (by decide) (NamesOpen.cons (by decide)
      (NamesOpen.joined ?_ ?_ hafter fun _ => hafter '(')))
    · intro x hx
      obtain ⟨q, hq, rfl⟩ := List.mem_map.mp hx
      exact ihparams q hq
    · rintro p ⟨⟩
      decide

theorem normalized_some {encoded : List Char} {fuel : Nat} (hclean : Clean cs)
    (hopen : NamesOpen previous cs) (hfuel : cs.length ≤ fuel)
    (names : List (List Char × List Char)) :
    ∃ out, normalized encoded fuel previous cs names = some out := by
  induction fuel generalizing previous cs names with
  | zero =>
    obtain rfl := List.length_eq_zero_iff.mp (Nat.le_zero.mp hfuel)
    exact ⟨_, rfl⟩
  | succ fuel ih =>
    cases cs with
    | nil => exact ⟨_, rfl⟩
    | cons c rest =>
      have hrest : Clean rest := fun d hd => hclean d (List.mem_cons_of_mem c hd)
      rw [normalized]
      split
      · rename_i hat
        obtain ⟨hprevious, d, hd, hpart⟩ := hopen.1 hat
        have hne : rest.takeWhile isInternalPart ≠ [] := by
          obtain ⟨rest, rfl⟩ : ∃ tail, rest = d :: tail := by
            cases rest with
            | nil => cases hd
            | cons e rest =>
              cases hd
              exact ⟨rest, rfl⟩
          rw [List.takeWhile_cons_of_pos
            ((isInternalPart_eq (hrest d List.mem_cons_self)).trans hpart)]
          exact List.cons_ne_nil _ _
        have hno : ¬ ((previous.any fun p => !opensName p) ||
            (rest.takeWhile isInternalPart).isEmpty) = true := by
          rw [Bool.or_eq_true, List.isEmpty_iff, not_or]
          refine ⟨?_, hne⟩
          cases previous with
          | none => exact Bool.false_ne_true
          | some p => simp [hprevious p rfl]
        rw [if_neg hno]
        have hafter : NamesOpen (rest.takeWhile isInternalPart).getLast?
            (rest.dropWhile isInternalPart) := by
          have hcut := @List.takeWhile_append_dropWhile _ isInternalPart rest
          have htail := hopen.2
          rw [← hcut] at htail
          exact htail.after hne
        have hlength := (List.dropWhile_sublist isInternalPart (l := rest)).length_le
        obtain ⟨out, hout⟩ := ih (fun e he => hrest e ((List.dropWhile_sublist _).mem he)) hafter
          (by simp only [List.length_cons] at hfuel; omega) _
        rw [hout]
        exact ⟨_, rfl⟩
      · obtain ⟨out, hout⟩ := ih hrest hopen.2 (Nat.le_of_succ_le_succ hfuel) names
        rw [hout]
        exact ⟨_, rfl⟩

end NamesOpen

/-! ## The room that is needed -/

theorem lexFrom_length {source : String} {lim : Limits} {fuel count : Nat} {cs : List Char}
    {pos : Position} {out : List Lexeme} (h : lexFrom source lim fuel cs pos count = .ok out)
    (hcount : count ≤ lim.maxTokens) : count + out.length ≤ lim.maxTokens := by
  have hend : ∀ (pos : Position) (count : Nat) (out : List Lexeme), count ≤ lim.maxTokens →
      (if count < lim.maxTokens then [Lexeme.mk .eof [] ⟨source, pos.offset, 0, pos.line,
        pos.column⟩] else []) = out → count + out.length ≤ lim.maxTokens := by
    rintro pos count out hcount rfl
    split
    · rename_i hroom
      exact hroom
    · exact hcount
  induction fuel generalizing cs pos count out with
  | zero =>
    cases cs with
    | nil => exact hend pos count out hcount (Except.ok.inj h)
    | cons c cs =>
      cases h
      exact hcount
  | succ fuel ih =>
    cases cs with
    | nil => exact hend pos count out hcount (Except.ok.inj h)
    | cons c cs =>
      rw [lexFrom] at h
      split at h
      · cases h
      · rename_i hroom
        split at h
        · cases h
        · rename_i kind rest hscan
          dsimp only at h
          split at h
          · exact ih h hcount
          · cases hmore : lexFrom source lim fuel rest (pos.past (consumed (c :: cs) rest))
              (count + 1) with
            | error d =>
              rw [hmore] at h
              cases h
            | ok others =>
              rw [hmore] at h
              cases h
              have hothers := ih hmore (by omega)
              rw [List.length_cons]
              omega

theorem length_of_expectKind {kind : TokenKind} {tokens rest : List Lexeme}
    (h : expectKind kind tokens = some rest) : tokens.length = rest.length + 1 := by
  cases tokens with
  | nil => cases h
  | cons t tokens =>
    rw [expectKind] at h
    split at h
    · cases h
      rfl
    · cases h

theorem length_of_checkKind {kind : TokenKind} {tokens : List Lexeme}
    (h : checkKind kind tokens = true) : tokens.length = tokens.tail.length + 1 := by
  cases tokens with
  | nil => cases h
  | cons t tokens => rfl

/-- The parsers read as many tokens as a specification prints, at least. -/
theorem typeSpec_count (n : Nat) :
    (∀ tokens spec rest, typeSpec n tokens = some (spec, rest) → NamesAre IsName tokens →
      tokenCount (kirTypeSpecChars spec) + rest.length ≤ tokens.length) ∧
    ∀ tokens specs rest, typeSpecs n tokens = some (specs, rest) → NamesAre IsName tokens →
      tokenCount (joined (specs.map kirTypeSpecChars)) + rest.length ≤ tokens.length := by
  induction n with
  | zero => exact ⟨by simp [typeSpec], by simp [typeSpecs]⟩
  | succ n ih =>
    obtain ⟨hone, hsome⟩ := ih
    -- the arguments between brackets or parentheses, if there are any
    have harguments : ∀ {kind tokens params rest},
        (if checkKind kind tokens then some ([], tokens) else typeSpecs n tokens) =
          some (params, rest) → NamesAre IsName tokens →
        tokenCount (joined (params.map kirTypeSpecChars)) + rest.length ≤ tokens.length := by
      intro kind tokens params rest hparsed hread
      split at hparsed
      · cases hparsed
        exact Nat.le_of_eq (Nat.zero_add _)
      · exact hsome _ _ _ hparsed hread
    have hparams : ∀ {kind tokens params rest},
        (if checkKind kind tokens then some ([], tokens) else typeSpecs n tokens) =
          some (params, rest) → NamesAre IsName tokens → NamesAre IsName rest := by
      intro kind tokens params rest hparsed hread
      split at hparsed
      · cases hparsed
        exact hread
      · exact ((typeSpec_names IsName n).2 _ _ _ hparsed hread).2
    constructor
    · intro tokens spec rest hparsed hread
      cases tokens with
      | nil => simp [typeSpec] at hparsed
      | cons t tokens =>
        rw [typeSpec] at hparsed
        split at hparsed
        · simp only [Option.bind_eq_bind, Option.bind_eq_some_iff, Prod.exists,
            Option.some.injEq, Prod.mk.injEq] at hparsed
          obtain ⟨inside, hopen, params, close, hinside, arrow, hclose, result, harrow, ret, rest',
            hret, rfl, rfl⟩ := hparsed
          have hfirst := harguments hinside (hread.tail.expect hopen)
          have hafter := (((hparams hinside (hread.tail.expect hopen)).expect hclose).expect harrow)
          have hlast := hone _ _ _ hret hafter
          have h₁ := length_of_expectKind hopen
          have h₂ := length_of_expectKind hclose
          have h₃ := length_of_expectKind harrow
          rw [tokenCount_functionSpec, List.length_cons]
          omega
        · split at hparsed
          · rename_i hid
            have hname : PlainName (String.ofList t.text).toList := by
              rw [String.toList_ofList]
              exact (hread t List.mem_cons_self hid).plain
            split at hparsed
            · cases hparsed
            · split at hparsed
              · rename_i hbracket
                simp only [Option.bind_eq_bind, Option.bind_eq_some_iff, Prod.exists,
                  Option.some.injEq, Prod.mk.injEq] at hparsed
                obtain ⟨params, close, hinside, rest', hclose, rfl, rfl⟩ := hparsed
                have hfirst := harguments hinside hread.tail.drop
                have h₁ := length_of_checkKind hbracket
                have h₂ := length_of_expectKind hclose
                rw [List.length_cons]
                by_cases hnil : params = []
                · rw [hnil, chars_namedSpec_nil, tokenCount_word hname]
                  omega
                · rw [tokenCount_namedSpec hname hnil]
                  omega
              · cases hparsed
                rw [chars_namedSpec_nil, tokenCount_word hname, List.length_cons]
                omega
          · cases hparsed
    · intro tokens specs rest hparsed hread
      rw [typeSpecs] at hparsed
      simp only [Option.bind_eq_bind, Option.bind_eq_some_iff, Prod.exists] at hparsed
      obtain ⟨spec, rest', hspec, hparsed⟩ := hparsed
      have hfirst := hone _ _ _ hspec hread
      split at hparsed
      · rename_i hcomma
        simp only [Option.bind_eq_some_iff, Prod.exists, Option.some.injEq,
          Prod.mk.injEq] at hparsed
        obtain ⟨others, rest'', hothers, rfl, rfl⟩ := hparsed
        have hafter := ((typeSpec_names IsName n).1 _ _ _ hspec hread).2
        have hmore := hsome _ _ _ hothers hafter.drop
        have h₁ := length_of_checkKind hcomma
        cases others with
        | nil =>
          rw [List.map_cons, List.map_nil, joined, List.flatMap_nil, List.append_nil]
          omega
        | cons other others =>
          rw [List.map_cons] at hmore
          rw [List.map_cons, List.map_cons, joined_cons_cons,
            tokenCount_append_cons _ _ (by decide), tokenCount_cons _ (by decide),
            if_pos (by decide), if_neg (by decide)]
          omega
      · cases hparsed
        rw [List.map_cons, List.map_nil, joined, List.flatMap_nil, List.append_nil]
        exact hfirst

/-! ## What is accepted -/

/-- The text that is parsed for a text. -/
def parsedText (encoded : List Char) : List Char :=
  mapWords isNamePart (standIn encoded) (spaced encoded)

/-- The lexer has room for the text that is parsed. -/
def Fits (encoded : List Char) : Prop :=
  (String.ofList (parsedText encoded)).utf8ByteSize ≤ ({} : Limits).maxSourceBytes ∧
    tokenCount (parsedText encoded) < ({} : Limits).maxTokens

section Accepted

variable {encoded : String} {spec : KIRTypeSpec}

theorem Named.renamed {good good' : List Char → Prop} {f : List Char → List Char} (hnil : f [] = [])
    (hf : ∀ name, good name → good' (f name)) (h : Named good spec) :
    Named good' (renamed f spec) := by
  refine Named.induction (P := fun spec => Named good' (Kryndel.renamed f spec)) ?_ ?_ spec h
  · intro name args hname _ ih
    rw [renamed_namedSpec]
    refine named_namedSpec ?_ ?_
    · rw [String.toList_ofList]
      exact hf _ hname
    · intro a ha
      obtain ⟨b, hb, rfl⟩ := List.mem_map.mp ha
      exact ih b hb
  · intro params ret _ ihparams _ ih
    rw [renamed_functionSpec hnil]
    refine named_functionSpec (allNamed_iff.mpr ?_) ih
    intro p hp
    obtain ⟨q, hq, rfl⟩ := List.mem_map.mp hp
    exact ihparams q hq

theorem clean_of_spaced (h : Named IsTypeName spec)
    (hspells : spaced encoded.toList = kirTypeSpecChars spec) : Clean encoded.toList := by
  have hall : Clean (spaced encoded.toList) :=
    hspells ▸ clean_chars (fun _ hname => hname.plain) (fun _ hname => hname.clean) h
  have hmem : ∀ (cs : List Char) (c : Char), c ∈ cs → c ∈ spaced cs := by
    intro cs
    induction cs with
    | nil => exact fun c hc => hc
    | cons d cs ih =>
      intro c hc
      rcases List.mem_cons.mp hc with rfl | hc
      · exact List.mem_cons_self
      · exact List.mem_cons_of_mem d (List.mem_append_right _ (ih c hc))
  exact fun c hc => hall c (hmem _ c hc)

theorem parsedText_eq (h : Named IsTypeName spec)
    (hspells : spaced encoded.toList = kirTypeSpecChars spec) :
    parsedText encoded.toList = kirTypeSpecChars (renamed (standIn encoded.toList) spec) := by
  rw [parsedText, hspells,
    chars_renamed (keepsSigns_standIn _) (h.mono fun _ hname => hname.plain)]

theorem normalized_of_spaced (h : Named IsTypeName spec)
    (hspells : spaced encoded.toList = kirTypeSpecChars spec) :
    normalized encoded.toList encoded.toList.length none encoded.toList [] =
      some (parsedText encoded.toList,
        (internalEntries encoded.toList (wordsOf isNamePart encoded.toList)).reverse) := by
  have hclean := clean_of_spaced h hspells
  have hopen : NamesOpen none encoded.toList := by
    apply NamesOpen.of_spaced
    rw [hspells, ← List.append_nil (kirTypeSpecChars spec)]
    exact namesOpen_chars h (by rintro p ⟨⟩) fun _ => trivial
  obtain ⟨⟨text, names⟩, hout⟩ :=
    @normalized_some none _ encoded.toList _ hclean hopen (Nat.le_refl _) []
  obtain ⟨htext, hnames⟩ := @normalized_eq _ _ _ [] _ _ _ _ hclean
    (fun _ hc => absurd hc List.not_mem_nil) (by simp) (fun hne => absurd rfl hne) hout
  rw [List.nil_append] at htext
  rw [List.append_nil] at hnames
  rw [hout, htext, hnames]
  rfl

theorem restored_eq (h : Named IsTypeName spec)
    (hspells : spaced encoded.toList = kirTypeSpecChars spec) (hclash : NoClash encoded.toList) :
    renamed (backIn encoded.toList) (renamed (standIn encoded.toList) spec) = spec := by
  have hplain : Named PlainName (renamed (standIn encoded.toList) spec) :=
    (h.renamed rfl fun _ hname => isIdentifier_standIn _ hname).mono
      fun _ hname => hname.isName.plain
  have hwords : ∀ w, IsWord isNamePart w →
      IsWord isNamePart ((backIn encoded.toList ∘ standIn encoded.toList) w) :=
    fun w hw => isWord_backIn (isWord_standIn encoded.toList hw)
  apply kirTypeSpecString_injective
  · exact hplain.renamed (keepsSigns_backIn _).empty fun _ hname => isWord_backIn hname
  · exact h.mono fun _ hname => hname.plain
  · rw [kirTypeSpecString, kirTypeSpecString, chars_renamed (keepsSigns_backIn _) hplain,
      ← parsedText_eq h hspells, parsedText,
      mapWords_mapWords fun w hw => isWord_standIn encoded.toList hw, ← hspells]
    congr 1
    rw [mapWords_eq_self_iff hwords, wordsOf_spaced]
    exact backIn_standIn_iff.mpr hclash

/-- A text that spells a specification is accepted as it just when the lexer has room, and no
    two internal names are written alike. -/
theorem parse_iff (h : Named IsTypeName spec)
    (hspells : spaced encoded.toList = kirTypeSpecChars spec) :
    parseKIRTypeExpressionUncached encoded = some spec ↔
      Fits encoded.toList ∧ NoClash encoded.toList := by
  have hident : Named IsIdentifier (renamed (standIn encoded.toList) spec) :=
    h.renamed rfl fun _ hname => isIdentifier_standIn _ hname
  have hchars := parsedText_eq h hspells
  have hnormalized := normalized_of_spaced h hspells
  constructor
  · intro hparse
    refine ⟨?_, (reprints_iff hparse).mp hspells.symm⟩
    rw [parseKIRTypeExpressionUncached] at hparse
    simp only [hnormalized] at hparse
    split at hparse
    · cases hparse
    · rename_i tokens hlex
      split at hparse
      · cases hparse
      · rename_i inner rest hread
        split at hparse
        · rename_i hwhole
          obtain ⟨heof, hsame⟩ := hwhole
          have hnames := lex_names hlex
          have hcount := (typeSpec_count _).1 _ _ _ hread hnames
          have hrest := length_of_checkKind heof
          rw [lex] at hlex
          split at hlex
          · cases hlex
          · rename_i hsize
            have hlength := lexFrom_length hlex (Nat.zero_le _)
            refine ⟨Nat.le_of_not_lt hsize, ?_⟩
            rw [← hsame]
            omega
        · cases hparse
  · rintro ⟨⟨hsize, htokens⟩, hclash⟩
    obtain ⟨keys, hreads⟩ := @exists_specReadsAs "<KIR type>" {} _ hident
    have hroom : 0 + keys.length < ({} : Limits).maxTokens := by
      rw [hreads.count, ← hchars, Nat.zero_add]
      exact htokens
    obtain ⟨toks, fuel', pos', hkeys, -, hlexes⟩ := hreads.lexes
      (parsedText encoded.toList).length [] {} 0 (by rintro c ⟨⟩)
      (by rw [List.append_nil, hchars]) hroom
    have hlex : ∃ eof : Lexeme, eof.kind = .eof ∧
        lex "<KIR type>" {} (String.ofList (parsedText encoded.toList)) = .ok (toks ++ [eof]) := by
      rw [lex, if_neg (Nat.not_lt.mpr hsize), String.toList_ofList]
      rw [List.append_nil, ← hchars] at hlexes
      rw [hlexes]
      cases fuel' <;>
      · rw [lexFrom, if_pos hroom]
        exact ⟨_, rfl, rfl⟩
    obtain ⟨eof, heof, hlex⟩ := hlex
    have hread := hreads.reads (2 * (toks ++ [eof]).length) toks [eof] hkeys
      (by rw [← hkeys, List.length_map, List.length_append]; omega)
      (stops_of_kind (by rw [heof]; decide) (by rw [heof]; decide))
    rw [parseKIRTypeExpressionUncached]
    simp only [hnormalized, hlex, hread]
    rw [if_pos ⟨by rw [checkKind_cons, heof]; rfl, hchars.symm⟩, restore_eq]
    exact congrArg some (restored_eq h hspells hclash)

theorem scan_identifier {source : String} {lim : Limits} {cs rest : List Char} {pos : Position}
    (h : scan source lim c cs pos = .ok (some .id, rest)) :
    IsIdentifier (consumed (c :: cs) rest) := by
  rw [scan] at h
  split at h
  · cases h
  split at h
  · cases h
  split at h
  · cases hcomment : blockComment source lim pos 0 cs.tail (pos.past ['/', '*']) <;>
      simp [hcomment, Except.map] at h
  split at h
  · rename_i hstart
    simp only [Except.ok.injEq, Prod.mk.injEq, Option.some.injEq] at h
    obtain ⟨hkind, rfl⟩ := h
    have hcut : c :: cs = (c :: cs.takeWhile isIDPart) ++ cs.dropWhile isIDPart := by simp
    rw [hcut, consumed_append]
    exact ⟨⟨c, _, rfl, hstart, List.all_eq_true.mp List.all_takeWhile⟩, hkind⟩
  split at h
  · simp only [Except.ok.injEq, Prod.mk.injEq, Option.some.injEq] at h
    exact absurd h.1 (number_plain cs).1
  split at h
  · cases hbody : stringBody source pos cs (pos.past ['"']) <;> simp [hbody, Except.map] at h
  · exact absurd rfl (operator_plain h).1

theorem lex_identifiers {source : String} {lim : Limits} (text : String) (tokens : List Lexeme)
    (h : lex source lim text = .ok tokens) : NamesAre IsIdentifier tokens := by
  apply lex_forall (P := fun t => t.kind = .id → IsIdentifier t.text) _ _ h
  · intro c cs pos kind rest tok hscan hid
    cases hid
    exact scan_identifier hscan
  · intro tok hid
    cases hid

theorem normalized_internal {encoded : List Char} {fuel : Nat} {previous : Option Char}
    {cs text : List Char} {names names' : List (List Char × List Char)}
    (h : normalized encoded fuel previous cs names = some (text, names'))
    (hnames : ∀ p ∈ names, p.2 ≠ ['@']) : ∀ p ∈ names', p.2 ≠ ['@'] := by
  induction fuel generalizing previous cs text names with
  | zero =>
    cases cs with
    | nil =>
      cases h
      exact hnames
    | cons c cs => cases h
  | succ fuel ih =>
    cases cs with
    | nil =>
      cases h
      exact hnames
    | cons c rest =>
      rw [normalized] at h
      split at h
      · split at h
        · cases h
        · rename_i hopen
          obtain ⟨⟨text', names''⟩, hmore, heq⟩ := Option.map_eq_some_iff.mp h
          cases heq
          refine ih hmore fun p hp => ?_
          rcases mem_cons.mp hp with rfl | hp
          · intro hempty
            apply hopen
            rw [(List.cons.inj hempty).2, isEmpty_nil, Bool.or_true]
          · exact hnames p hp
      · obtain ⟨⟨text', names''⟩, hmore, heq⟩ := Option.map_eq_some_iff.mp h
        cases heq
        exact ih hmore hnames

theorem parsed_isTypeName (h : parseKIRTypeExpressionUncached encoded = some spec) :
    Named IsTypeName spec := by
  obtain ⟨text, names, inner, hnormalized, hinner, hchars, rfl⟩ :=
    parse_steps_names lex_identifiers h
  have hclean := clean_of_normalized hnormalized (hinner.mono fun _ hname => hname.isName) hchars
  have hnonempty := normalized_internal hnormalized (fun p hp => absurd hp not_mem_nil)
  obtain ⟨-, hnames⟩ := @normalized_eq _ _ _ [] _ _ _ _ hclean
    (fun _ hc => absurd hc not_mem_nil) (by simp) (fun hne => absurd rfl hne) hnormalized
  rw [append_nil] at hnames
  have hback : putBack names = backIn encoded.toList := by rw [hnames]; rfl
  rw [restore_eq, hback]
  refine hinner.renamed (keepsSigns_backIn _).empty fun name hname => ?_
  cases hlookup : (internalEntries encoded.toList
      (wordsOf isNamePart encoded.toList)).reverse.lookup name with
  | none =>
    rw [backIn, putBack, hlookup, Option.getD_none]
    exact Or.inl hname
  | some internal =>
    obtain ⟨part, hpart, rfl, rfl⟩ := exists_of_lookup hlookup
    rw [backIn, putBack, hlookup, Option.getD_some]
    refine Or.inr ⟨part, rfl, ?_, ?_⟩
    · rintro rfl
      have hmem : (placeholderFor encoded.toList [], ['@']) ∈ names := by
        rw [hnames]
        exact mem_reverse.mpr (mem_internalEntries.mpr ⟨[], hpart, rfl, rfl⟩)
      exact hnonempty _ hmem rfl
    · intro c hc
      -- the name is a part of the token that stood for it
      obtain ⟨tail, heq, -⟩ := placeholderFor_eq encoded.toList part
      apply hname.isName.2 c
      rw [heq]
      exact mem_append_left _ (mem_append_right _ hc)

end Accepted

end Kryndel
