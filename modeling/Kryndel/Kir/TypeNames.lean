import Kryndel.Kir.TypeText
import Kryndel.Systems.Words
import Mathlib.Data.Finset.Card
import Mathlib.Data.Finset.Prod

/-!
# Names that stand for internal names

The parser of type expressions writes another name for each internal name before it parses, and
puts the internal names back afterwards. A name that is written so occurs nowhere in the text,
but two internal names can be written alike.
-/

namespace Kryndel

open TermGraph Words List Option

/-! ## Fresh names -/

theorem containsText_iff (text part : List Char) :
    containsText text part = true ↔ part <:+: text := by
  induction text with
  | nil => rw [containsText, List.isEmpty_iff, infix_nil]
  | cons c text ih =>
    rw [containsText, Bool.or_eq_true, ih, isPrefixOf_iff_prefix, infix_cons_iff]

theorem suffixed_injective {name : List Char} {i j : Nat} (h : suffixed name i = suffixed name j) :
    i = j := by
  have hdigits : (toString i).toList = (toString j).toList := by
    have hcons := append_cancel_left h
    exact (List.cons.inj hcons).2
  have hnat : Nat.toDigits 10 i = Nat.toDigits 10 j := by
    simpa only [Nat.toString_eq_repr, Nat.toList_repr] using hdigits
  have hback := congrArg (fun digits => Nat.ofDigitChars 10 digits 0) hnat
  simpa only [Nat.ofDigitChars_toDigits (by decide : 1 < 10) (Nat.le_refl 10)] using hback

theorem placeholder_cases (encoded name : List Char) (fuel suffix : Nat) :
    containsText encoded (placeholder encoded name fuel suffix) = false ∨
      ∀ i < fuel, containsText encoded (suffixed name (suffix + i)) = true := by
  induction fuel generalizing suffix with
  | zero => exact Or.inr fun i hi => absurd hi (Nat.not_lt_zero i)
  | succ fuel ih =>
    rw [placeholder]
    by_cases hfirst : containsText encoded (suffixed name suffix) = true
    · rw [if_pos hfirst]
      rcases ih (suffix + 1) with hfresh | hall
      · exact Or.inl hfresh
      · right
        intro i hi
        cases i with
        | zero => exact hfirst
        | succ i =>
          have hnext := hall i (by omega)
          rwa [Nat.add_assoc, Nat.add_comm 1 i] at hnext
    · rw [if_neg hfirst]
      exact Or.inl (Bool.eq_false_iff.mpr hfirst)

theorem not_all_contained {encoded name : List Char} (hne : encoded ≠ []) :
    ¬ ∀ i < encoded.length * encoded.length, containsText encoded (suffixed name i) = true := by
  intro hall
  have hpos : 0 < encoded.length := length_pos_iff.mpr hne
  have hplace : ∀ i : Nat, ∃ place : Nat × Nat, i < encoded.length * encoded.length →
      place.1 + place.2 ≤ encoded.length ∧ 2 ≤ place.2 ∧
        suffixed name i = (encoded.drop place.1).take place.2 := by
    intro i
    by_cases hi : i < encoded.length * encoded.length
    · obtain ⟨before, after, hsplit⟩ := (containsText_iff _ _).mp (hall i hi)
      refine ⟨(before.length, (suffixed name i).length), fun _ => ⟨?_, ?_, ?_⟩⟩
      · rw [← hsplit]
        simp
      · simp [suffixed, internalPrefix]
      · rw [← hsplit]
        simp
    · exact ⟨(0, 0), fun h => absurd h hi⟩
  choose place hplace using hplace
  have hmaps : Set.MapsTo place (Finset.range (encoded.length * encoded.length))
      (Finset.range (encoded.length - 1) ×ˢ Finset.range (encoded.length + 1) :
        Finset (Nat × Nat)) := by
    intro i hi
    obtain ⟨hend, htwo, -⟩ := hplace i (Finset.mem_range.mp hi)
    apply Finset.mem_coe.mpr
    rw [Finset.mem_product, Finset.mem_range, Finset.mem_range]
    omega
  have hcard : (Finset.range (encoded.length - 1) ×ˢ Finset.range (encoded.length + 1)).card <
      (Finset.range (encoded.length * encoded.length)).card := by
    rw [Finset.card_product, Finset.card_range, Finset.card_range, Finset.card_range]
    obtain ⟨n, hn⟩ := Nat.exists_eq_add_of_lt hpos
    rw [hn]
    simp only [Nat.zero_add, Nat.add_sub_cancel]
    calc n * (n + 1 + 1) = n * (n + 1) + n := Nat.mul_succ n (n + 1)
      _ < n * (n + 1) + (n + 1) := Nat.lt_succ_self _
      _ = (n + 1) * (n + 1) := (Nat.succ_mul n (n + 1)).symm
  obtain ⟨i, hi, j, hj, hne', hsame⟩ :=
    Finset.exists_ne_map_eq_of_card_lt_of_maps_to hcard hmaps
  apply hne'
  apply @suffixed_injective name
  rw [(hplace i (Finset.mem_range.mp hi)).2.2, (hplace j (Finset.mem_range.mp hj)).2.2, hsame]

theorem placeholderFor_fresh (encoded name : List Char) :
    containsText encoded (placeholderFor encoded name) = false := by
  rw [placeholderFor]
  split
  · rename_i hfirst
    have hne : encoded ≠ [] := by
      rintro rfl
      simp [containsText, internalPrefix] at hfirst
    rcases placeholder_cases encoded name (encoded.length * encoded.length) 0 with hfresh | hall
    · exact hfresh
    · simp only [Nat.zero_add] at hall
      exact absurd hall (not_all_contained hne)
  · rename_i hfirst
    exact Bool.eq_false_iff.mpr hfirst

/-! ## The words of a text -/

/-- A text with a space after each comma. -/
def spaced : List Char → List Char
  | [] => []
  | c :: rest =>
    c :: ((if c == ',' && rest.head? != some ' ' then [' '] else []) ++ spaced rest)

/-- What the parser writes for a word. -/
def standIn (encoded : List Char) : List Char → List Char
  | '@' :: name => placeholderFor encoded name
  | word => word

/-- The entries that the parser makes for some words. -/
def internalEntries (encoded : List Char) (ws : List (List Char)) :
    List (List Char × List Char) :=
  ws.filterMap fun
    | '@' :: name => some (placeholderFor encoded name, '@' :: name)
    | _ => none

/-- What the parser puts back for a word. -/
def putBack (names : List (List Char × List Char)) (word : List Char) : List Char :=
  (names.lookup word).getD word

/-- No two internal names of a text are written alike. -/
def NoClash (encoded : List Char) : Prop :=
  ∀ name name' : List Char, '@' :: name ∈ wordsOf isNamePart encoded →
    '@' :: name' ∈ wordsOf isNamePart encoded →
    placeholderFor encoded name = placeholderFor encoded name' → name = name'

variable {w : List Char}

theorem spaced_parts (hw : ∀ c ∈ w, isNamePart c = true) (cs : List Char) :
    spaced (w ++ cs) = w ++ spaced cs := by
  induction w with
  | nil => rfl
  | cons c w ih =>
    have hcomma : (c == ',') = false := by
      rw [beq_eq_false_iff_ne]
      rintro rfl
      exact absurd (hw ',' List.mem_cons_self) (by decide)
    rw [cons_append, spaced, hcomma, Bool.false_and, if_neg Bool.false_ne_true,
      ih fun d hd => hw d (mem_cons_of_mem c hd)]
    rfl

theorem spaced_head (cs : List Char) : (spaced cs).head? = cs.head? := by
  cases cs with
  | nil => rfl
  | cons c cs => rfl

theorem parted_spaced {cs : List Char} (h : Parted isNamePart cs) :
    Parted isNamePart (spaced cs) := by
  intro c hc
  rw [spaced_head] at hc
  exact h c hc

theorem wordsFrom_spaced (run cs : List Char) :
    wordsFrom isNamePart run (spaced cs) = wordsFrom isNamePart run cs := by
  induction cs generalizing run with
  | nil => rfl
  | cons c cs ih =>
    rw [spaced, wordsFrom, wordsFrom]
    by_cases hc : isNamePart c = true
    · have hcomma : (c == ',') = false := by
        rw [beq_eq_false_iff_ne]
        rintro rfl
        exact absurd hc (by decide)
      rw [if_pos hc, if_pos hc, hcomma, Bool.false_and, if_neg Bool.false_ne_true,
        nil_append, ih]
    · rw [if_neg hc, if_neg hc]
      congr 1
      split
      · rw [singleton_append, wordsFrom, if_neg (by decide), ih]
        rfl
      · rw [nil_append, ih]

theorem wordsOf_spaced (cs : List Char) :
    wordsOf isNamePart (spaced cs) = wordsOf isNamePart cs :=
  wordsFrom_spaced [] cs

/-! ## What is written -/

variable {c : Char}

theorem isIDPart_of_isDigit (h : c.isDigit = true) : isIDPart c = true := by
  have hbounds : 48 ≤ c.toNat ∧ c.toNat ≤ 57 := by
    rw [Char.isDigit, Bool.and_eq_true, decide_eq_true_eq, decide_eq_true_eq] at h
    exact ⟨UInt32.le_iff_toNat_le.mp h.1, UInt32.le_iff_toNat_le.mp h.2⟩
  rw [isIDPart, Bool.or_eq_true]
  right
  rw [isDigit, List.any_eq_true]
  refine ⟨0x30, List.mem_cons_self, ?_⟩
  simp only [Bool.and_eq_true, decide_eq_true_eq]
  omega

theorem suffixed_eq (name : List Char) (suffix : Nat) : ∃ tail,
    suffixed name suffix = internalPrefix ++ name ++ tail ∧ ∀ c ∈ tail, isIDPart c = true := by
  refine ⟨'X' :: (toString suffix).toList, rfl, ?_⟩
  intro c hc
  rcases mem_cons.mp hc with rfl | hc
  · decide
  · rw [Nat.toString_eq_repr, Nat.toList_repr] at hc
    exact isIDPart_of_isDigit (Nat.isDigit_of_mem_toDigits (by decide) (by decide) hc)

theorem placeholder_eq (encoded name : List Char) (fuel suffix : Nat) : ∃ tail,
    placeholder encoded name fuel suffix = internalPrefix ++ name ++ tail ∧
      ∀ c ∈ tail, isIDPart c = true := by
  induction fuel generalizing suffix with
  | zero => exact suffixed_eq name suffix
  | succ fuel ih =>
    rw [placeholder]
    split
    · exact ih (suffix + 1)
    · exact suffixed_eq name suffix

theorem placeholderFor_eq (encoded name : List Char) : ∃ tail,
    placeholderFor encoded name = internalPrefix ++ name ++ tail ∧
      ∀ c ∈ tail, isIDPart c = true := by
  rw [placeholderFor]
  split
  · exact placeholder_eq encoded name _ 0
  · exact ⟨[], (append_nil _).symm, fun _ hc => absurd hc not_mem_nil⟩

variable {name : List Char}

theorem isWord_placeholderFor (encoded : List Char) (h : ∀ c ∈ name, isNamePart c = true) :
    IsWord isNamePart (placeholderFor encoded name) := by
  obtain ⟨tail, heq, htail⟩ := placeholderFor_eq encoded name
  refine ⟨placeholderFor_ne_nil encoded name, ?_⟩
  intro c hc
  rw [heq, append_assoc] at hc
  rcases mem_append.mp hc with hc | hc
  · have hstarts : internalPrefix.all isNamePart = true := by decide
    exact all_eq_true.mp hstarts c hc
  · rcases mem_append.mp hc with hc | hc
    · exact h c hc
    · exact isNamePart_of_isInternalPart (isInternalPart_of_isIDPart (htail c hc))

theorem isWord_standIn (encoded : List Char) (h : IsWord isNamePart w) :
    IsWord isNamePart (standIn encoded w) := by
  rw [standIn.eq_def]
  split
  · rename_i name
    exact isWord_placeholderFor encoded fun c hc => h.2 c (mem_cons_of_mem '@' hc)
  · exact h

/-! ## Specifications and their words -/

theorem chars_namedSpec_nil (name : String) :
    kirTypeSpecChars (namedSpec name []) = name.toList := by
  rw [namedSpec, kirTypeSpecChars, if_neg Bool.false_ne_true, argumentChars, append_nil]

theorem joined_map_chars (c : KIRTypeSpec) (cs : List KIRTypeSpec) :
    joined ((c :: cs).map kirTypeSpecChars) =
      kirTypeSpecChars c ++ cs.flatMap fun d => ',' :: ' ' :: kirTypeSpecChars d := by
  rw [map_cons, joined, flatMap_map]

variable {args : List KIRTypeSpec}

theorem chars_namedSpec (name : String) (hne : args ≠ []) :
    kirTypeSpecChars (namedSpec name args) =
      name.toList ++ '[' :: (joined (args.map kirTypeSpecChars) ++ [']']) := by
  obtain ⟨c, cs, rfl⟩ := exists_cons_of_ne_nil hne
  rw [namedSpec, kirTypeSpecChars, if_neg Bool.false_ne_true, argumentChars,
    moreArgumentChars_eq, joined_map_chars, append_assoc]

theorem chars_functionSpec (params : List KIRTypeSpec) (ret : KIRTypeSpec) :
    kirTypeSpecChars (functionSpec params ret) =
      'f' :: 'n' :: '(' :: (joined (params.map kirTypeSpecChars) ++
        ')' :: ' ' :: '-' :: '>' :: ' ' :: kirTypeSpecChars ret) := by
  rw [functionSpec, kirTypeSpecChars, if_pos rfl]
  cases params with
  | nil => rw [nil_append, functionChars, map_nil, joined, nil_append]
  | cons p ps =>
    rw [cons_append, functionChars_eq, joined_map_chars, append_assoc, functionChars]

theorem chars_functionSpec_words (params : List KIRTypeSpec) (ret : KIRTypeSpec) :
    kirTypeSpecChars (functionSpec params ret) =
      ['f', 'n'] ++ '(' :: (joined (params.map kirTypeSpecChars) ++
        ')' :: ' ' :: (['-', '>'] ++ ' ' :: kirTypeSpecChars ret)) :=
  chars_functionSpec params ret

variable {good : List Char → Prop}

/-- Induction over the specifications whose names are good ones: a name with arguments, or
    parameters and a result. -/
theorem Named.induction {P : KIRTypeSpec → Prop}
    (hname : ∀ name args, good name.toList → (∀ a ∈ args, Named good a) → (∀ a ∈ args, P a) →
      P (namedSpec name args))
    (hfunction : ∀ params ret, (∀ p ∈ params, Named good p) → (∀ p ∈ params, P p) →
      Named good ret → P ret → P (functionSpec params ret)) :
    ∀ spec, Named good spec → P spec
  | .node label children, h => by
    have hall : ∀ c ∈ children, Named good c := allNamed_iff.mp h.2
    have hchildren : ∀ c ∈ children, P c := by
      intro c hc
      exact Named.induction hname hfunction c (hall c hc)
    obtain ⟨function, name⟩ := label
    cases function with
    | false => exact hname name children h.1 hall hchildren
    | true =>
      obtain ⟨hempty, hne⟩ := h.1
      obtain ⟨params, ret, rfl⟩ : ∃ params ret, children = params ++ [ret] :=
        ⟨_, _, (dropLast_concat_getLast hne).symm⟩
      dsimp only at hempty
      rw [hempty]
      have hlast : ret ∈ params ++ [ret] := mem_append_right _ List.mem_cons_self
      exact hfunction params ret (fun p hp => hall p (mem_append_left _ hp))
        (fun p hp => hchildren p (mem_append_left _ hp)) (hall ret hlast)
        (hchildren ret hlast)
termination_by spec => sizeOf spec

theorem named_namedSpec {name : String} (hname : good name.toList)
    (hargs : ∀ a ∈ args, Named good a) :
    Named good (namedSpec name args) :=
  ⟨hname, allNamed_iff.mpr hargs⟩

variable {spec : KIRTypeSpec}

theorem Named.mono {good good' : List Char → Prop} (himp : ∀ name, good name → good' name)
    (h : Named good spec) : Named good' spec :=
  Named.induction (fun _ _ hname _ hargs => named_namedSpec (himp _ hname) hargs)
    (fun _ _ _ hparams _ hret => named_functionSpec (allNamed_iff.mpr hparams) hret) spec h

mutual

/-- A specification with other names. -/
def renamed (f : List Char → List Char) : KIRTypeSpec → KIRTypeSpec
  | .node label children =>
      .node { label with name := String.ofList (f label.name.toList) } (renamedAll f children)

/-- Specifications with other names. -/
def renamedAll (f : List Char → List Char) : List KIRTypeSpec → List KIRTypeSpec
  | [] => []
  | c :: cs => renamed f c :: renamedAll f cs

end

theorem renamedAll_eq_map (f : List Char → List Char) (cs : List KIRTypeSpec) :
    renamedAll f cs = cs.map (renamed f) := by
  induction cs with
  | nil => rfl
  | cons c cs ih => rw [renamedAll, ih, map_cons]

theorem renamed_namedSpec (f : List Char → List Char) (name : String) (args : List KIRTypeSpec) :
    renamed f (namedSpec name args) =
      namedSpec (String.ofList (f name.toList)) (args.map (renamed f)) := by
  rw [namedSpec, renamed, renamedAll_eq_map, namedSpec]

variable {f : List Char → List Char}

theorem renamed_functionSpec (hnil : f [] = []) (params : List KIRTypeSpec) (ret : KIRTypeSpec) :
    renamed f (functionSpec params ret) =
      functionSpec (params.map (renamed f)) (renamed f ret) := by
  rw [functionSpec, renamed, renamedAll_eq_map, map_append, map_singleton, functionSpec]
  congr 2
  show String.ofList (f []) = ""
  rw [hnil, String.ofList_nil]

mutual

theorem restore_eq (names : List (List Char × List Char)) :
    ∀ spec, restore names spec = renamed (putBack names) spec
  | .node label children => by
    rw [restore, renamed, restoreAll_eq names children, putBack]
    cases names.lookup label.name.toList with
    | none => simp
    | some internal => rfl

theorem restoreAll_eq (names : List (List Char × List Char)) :
    ∀ specs, restoreAll names specs = renamedAll (putBack names) specs
  | [] => rfl
  | c :: cs => by rw [restoreAll, renamedAll, restore_eq names c, restoreAll_eq names cs]

end

/-- A change of names that leaves the words that are not names. -/
structure KeepsSigns (f : List Char → List Char) : Prop where
  empty : f [] = []
  fn : f ['f', 'n'] = ['f', 'n']
  arrow : f ['-', '>'] = ['-', '>']

theorem mapWords_joined (f : List Char → List Char) (xs : List (List Char)) :
    mapWords isNamePart f (joined xs) = joined (xs.map (mapWords isNamePart f)) := by
  have hmore : ∀ (ys : List (List Char)) (x : List Char),
      mapWords isNamePart f (x ++ ys.flatMap fun y => ',' :: ' ' :: y) =
        mapWords isNamePart f x ++
          (ys.map (mapWords isNamePart f)).flatMap fun y => ',' :: ' ' :: y := by
    intro ys
    induction ys with
    | nil => intro x; simp
    | cons y ys ih =>
      intro x
      rw [flatMap_cons, cons_append, cons_append, mapWords_append_cons f x _
        (by decide), mapWords_cons f _ (by decide), ih y]
      simp
  cases xs with
  | nil => rfl
  | cons x xs => exact hmore xs x

theorem isWord_fn : IsWord isNamePart ['f', 'n'] := by
  have hall : ['f', 'n'].all isNamePart = true := by decide
  exact ⟨cons_ne_nil _ _, all_eq_true.mp hall⟩

theorem isWord_arrow : IsWord isNamePart ['-', '>'] := by
  have hall : ['-', '>'].all isNamePart = true := by decide
  exact ⟨cons_ne_nil _ _, all_eq_true.mp hall⟩

theorem chars_renamed (hf : KeepsSigns f) (h : Named PlainName spec) :
    kirTypeSpecChars (renamed f spec) = mapWords isNamePart f (kirTypeSpecChars spec) := by
  have hmap : ∀ specs : List KIRTypeSpec, (∀ c ∈ specs, kirTypeSpecChars (renamed f c) =
        mapWords isNamePart f (kirTypeSpecChars c)) →
      joined ((specs.map (renamed f)).map kirTypeSpecChars) =
        mapWords isNamePart f (joined (specs.map kirTypeSpecChars)) := by
    intro specs hspecs
    rw [mapWords_joined, List.map_map, List.map_map]
    exact congrArg joined (List.map_congr_left hspecs)
  refine Named.induction (P := fun spec => kirTypeSpecChars (renamed f spec) =
    mapWords isNamePart f (kirTypeSpecChars spec)) ?_ ?_ spec h
  · intro name args hname hargs ih
    rw [renamed_namedSpec]
    by_cases hnil : args = []
    · rw [hnil, map_nil, chars_namedSpec_nil, chars_namedSpec_nil, String.toList_ofList,
        mapWords_isWord f hname]
    · rw [chars_namedSpec _ (map_eq_nil_iff.not.mpr hnil), chars_namedSpec _ hnil,
        hmap args ih, String.toList_ofList, mapWords_append_cons f _ _ (by decide),
        mapWords_isWord f hname, mapWords_append_cons f _ _ (by decide)]
      rfl
  · intro params ret hparams ihparams hret ih
    rw [renamed_functionSpec hf.empty, chars_functionSpec_words, chars_functionSpec_words,
      hmap params ihparams, ih, mapWords_append_cons f _ _ (by decide),
      mapWords_isWord f isWord_fn, hf.fn,
      mapWords_append_cons f _ _ (by decide), mapWords_cons f _ (by decide),
      mapWords_append_cons f _ _ (by decide), mapWords_isWord f isWord_arrow, hf.arrow]

theorem mem_wordsOf_joined {xs : List (List Char)} (h : w ∈ wordsOf isNamePart (joined xs)) :
    ∃ x ∈ xs, w ∈ wordsOf isNamePart x := by
  have hmore : ∀ (ys : List (List Char)) (x : List Char),
      w ∈ wordsOf isNamePart (x ++ ys.flatMap fun y => ',' :: ' ' :: y) →
        ∃ z ∈ x :: ys, w ∈ wordsOf isNamePart z := by
    intro ys
    induction ys with
    | nil =>
      intro x hw
      rw [flatMap_nil, append_nil] at hw
      exact ⟨x, List.mem_cons_self, hw⟩
    | cons y ys ih =>
      intro x hw
      rw [flatMap_cons, cons_append, cons_append, wordsOf_append_cons x _
        (by decide), wordsOf_cons _ (by decide), mem_append] at hw
      rcases hw with hw | hw
      · exact ⟨x, List.mem_cons_self, hw⟩
      · obtain ⟨z, hz, hw⟩ := ih y hw
        exact ⟨z, mem_cons_of_mem x hz, hw⟩
  cases xs with
  | nil => cases h
  | cons x xs => exact hmore xs x h

theorem mem_wordsOf_chars (hgood : ∀ name, good name → PlainName name) (h : Named good spec) :
    ∀ w ∈ wordsOf isNamePart (kirTypeSpecChars spec),
      w = ['f', 'n'] ∨ w = ['-', '>'] ∨ good w := by
  refine Named.induction (P := fun spec => ∀ w ∈ wordsOf isNamePart (kirTypeSpecChars spec),
    w = ['f', 'n'] ∨ w = ['-', '>'] ∨ good w) ?_ ?_ spec h
  · intro name args hname hargs ih w hw
    by_cases hnil : args = []
    · rw [hnil, chars_namedSpec_nil, wordsOf_isWord (hgood _ hname), mem_singleton] at hw
      exact Or.inr (Or.inr (hw ▸ hname))
    · rw [chars_namedSpec _ hnil, wordsOf_append_cons _ _ (by decide),
        wordsOf_isWord (hgood _ hname), wordsOf_append_cons _ _ (by decide), mem_append,
        mem_append, mem_singleton] at hw
      rcases hw with rfl | hw | hw
      · exact Or.inr (Or.inr hname)
      · obtain ⟨x, hx, hw⟩ := mem_wordsOf_joined hw
        obtain ⟨a, ha, rfl⟩ := mem_map.mp hx
        exact ih a ha w hw
      · cases hw
  · intro params ret hparams ihparams hret ih w hw
    rw [chars_functionSpec_words, wordsOf_append_cons _ _ (by decide), wordsOf_isWord isWord_fn,
      wordsOf_append_cons _ _ (by decide), wordsOf_cons _ (by decide),
      wordsOf_append_cons _ _ (by decide), wordsOf_isWord isWord_arrow, mem_append,
      mem_append, mem_append, mem_singleton, mem_singleton] at hw
    rcases hw with rfl | hw | rfl | hw
    · exact Or.inl rfl
    · obtain ⟨x, hx, hw⟩ := mem_wordsOf_joined hw
      obtain ⟨q, hq, rfl⟩ := mem_map.mp hx
      exact ihparams q hq w hw
    · exact Or.inr (Or.inl rfl)
    · exact ih w hw

/-! ## The loop over a text -/

/-- A text without the white space that ends an internal name and not a word. -/
def Clean (cs : List Char) : Prop := ∀ c ∈ cs, c ≠ '\t' ∧ c ≠ '\r' ∧ c ≠ '\n'

theorem isInternalPart_eq (h : c ≠ '\t' ∧ c ≠ '\r' ∧ c ≠ '\n') :
    isInternalPart c = isNamePart c := by
  obtain ⟨htab, hreturn, hline⟩ := h
  rw [Bool.eq_iff_iff]
  simp only [isInternalPart, isNamePart, Bool.not_eq_true', contains_eq_mem,
    mem_cons, not_mem_nil, decide_eq_false_iff_not]
  tauto

theorem takeWhile_isInternalPart {cs : List Char} (h : Clean cs) :
    cs.takeWhile isInternalPart = cs.takeWhile isNamePart ∧
      cs.dropWhile isInternalPart = cs.dropWhile isNamePart := by
  induction cs with
  | nil => exact ⟨rfl, rfl⟩
  | cons c cs ih =>
    obtain ⟨htake, hdrop⟩ := ih fun d hd => h d (mem_cons_of_mem c hd)
    rw [takeWhile_cons, takeWhile_cons, dropWhile_cons, dropWhile_cons, htake,
      hdrop, isInternalPart_eq (h c List.mem_cons_self)]
    exact ⟨rfl, rfl⟩

theorem internalEntries_append (encoded : List Char) (ws ws' : List (List Char)) :
    internalEntries encoded (ws ++ ws') =
      internalEntries encoded ws ++ internalEntries encoded ws' :=
  filterMap_append

theorem internalEntries_internal (encoded name : List Char) (ws : List (List Char)) :
    internalEntries encoded (('@' :: name) :: ws) =
      (placeholderFor encoded name, '@' :: name) :: internalEntries encoded ws :=
  filterMap_cons_some rfl

theorem standIn_of_head {encoded run : List Char} (h : run.head? ≠ some '@') :
    standIn encoded run = run := by
  rw [standIn.eq_def]
  split
  · exact absurd rfl h
  · rfl

theorem changed_standIn {encoded run : List Char} (h : run.head? ≠ some '@') :
    changed (standIn encoded) run = run := by
  cases run with
  | nil => rfl
  | cons c run => rw [changed_of_ne (cons_ne_nil c run), standIn_of_head h]

theorem internalEntries_run {encoded run : List Char} (h : run.head? ≠ some '@') :
    internalEntries encoded (if run.isEmpty then [] else [run]) = [] := by
  cases run with
  | nil => rfl
  | cons c run =>
    rw [if_neg (by simp), internalEntries, filterMap_cons]
    split
    · rfl
    · rename_i heq
      split at heq
      · rename_i hrun
        rw [hrun] at h
        exact absurd rfl h
      · cases heq

theorem normalized_end {encoded run : List Char} (h : run.head? ≠ some '@')
    (names : List (List Char × List Char)) :
    run ++ [] = mapFrom isNamePart (standIn encoded) run (spaced []) ∧
      names = (internalEntries encoded (wordsFrom isNamePart run [])).reverse ++ names := by
  rw [spaced, mapFrom, changed_standIn h, wordsFrom, internalEntries_run h]
  exact ⟨append_nil run, rfl⟩

/-- The loop writes what stands for the words, and keeps an entry for each internal name. -/
theorem normalized_eq {encoded : List Char} {fuel : Nat} {previous : Option Char}
    {run cs text : List Char} {names names' : List (List Char × List Char)} (hclean : Clean cs)
    (hparts : ∀ c ∈ run, isNamePart c = true) (hrun : run.head? ≠ some '@')
    (hprevious : run ≠ [] → ∃ p, previous = some p ∧ opensName p = false)
    (h : normalized encoded fuel previous cs names = some (text, names')) :
    run ++ text = mapFrom isNamePart (standIn encoded) run (spaced cs) ∧
      names' = (internalEntries encoded (wordsFrom isNamePart run cs)).reverse ++ names := by
  induction fuel generalizing previous run cs text names with
  | zero =>
    cases cs with
    | nil =>
      cases h
      exact normalized_end hrun _
    | cons c cs => cases h
  | succ fuel ih =>
    cases cs with
    | nil =>
      cases h
      exact normalized_end hrun _
    | cons c rest =>
      have hrest : Clean rest := fun d hd => hclean d (mem_cons_of_mem c hd)
      obtain ⟨htake, hdrop⟩ := takeWhile_isInternalPart hrest
      rw [normalized] at h
      split at h
      · rename_i hat
        subst hat
        split at h
        · cases h
        · rename_i hopen
          obtain ⟨⟨text', names''⟩, hmore, heq⟩ := map_eq_some_iff.mp h
          cases heq
          rw [htake, hdrop] at hmore
          rw [htake]
          -- an internal name begins, so no other word is being read
          have hnil : run = [] := by
            by_contra hne
            obtain ⟨p, rfl, hp⟩ := hprevious hne
            simp [hp] at hopen
          subst hnil
          have hname : IsWord isNamePart ('@' :: rest.takeWhile isNamePart) := by
            refine ⟨cons_ne_nil _ _, fun d hd => ?_⟩
            rcases mem_cons.mp hd with rfl | hd
            · decide
            · exact all_eq_true.mp all_takeWhile d hd
          have hparted : Parted isNamePart (rest.dropWhile isNamePart) := by
            intro d hd
            have hnot := head?_dropWhile_not isNamePart rest
            rw [hd] at hnot
            exact hnot
          have hcut : '@' :: rest = ('@' :: rest.takeWhile isNamePart) ++
              rest.dropWhile isNamePart := by simp
          obtain ⟨htext, hnames⟩ := @ih _ [] _ _ _
            (fun d hd => hrest d ((dropWhile_sublist _).mem hd))
            (fun _ hd => absurd hd not_mem_nil) (by simp) (fun hne => absurd rfl hne) hmore
          rw [hcut, spaced_parts hname.2]
          constructor
          · have hword := mapWords_word (standIn encoded) hname (parted_spaced hparted)
            rw [nil_append] at htext ⊢
            rw [htext]
            exact hword.symm
          · have hword := wordsOf_word hname hparted
            rw [wordsOf] at hword
            rw [hnames, hword, internalEntries_internal, reverse_cons, append_assoc]
            rfl
      · rename_i hat
        obtain ⟨⟨text', names''⟩, hmore, heq⟩ := map_eq_some_iff.mp h
        cases heq
        rw [spaced, mapFrom, wordsFrom]
        by_cases hc : isNamePart c = true
        · have hcomma : (c == ',') = false := by
            rw [beq_eq_false_iff_ne]
            rintro rfl
            exact absurd hc (by decide)
          have hinternal : isInternalPart c = true := by
            rwa [isInternalPart_eq (hclean c List.mem_cons_self)]
          have hhead : (run ++ [c]).head? ≠ some '@' := by
            cases run with
            | nil => simpa using hat
            | cons d run => exact hrun
          obtain ⟨htext, hnames⟩ := @ih _ (run ++ [c]) _ _ _ hrest
            (fun d hd => by
              rcases mem_append.mp hd with hd | hd
              · exact hparts d hd
              · exact mem_singleton.mp hd ▸ hc)
            hhead (fun _ => ⟨c, rfl, not_opensName_of_isInternalPart hinternal⟩) hmore
          rw [if_pos hc, if_pos hc, hcomma, Bool.false_and, if_neg Bool.false_ne_true,
            nil_append, nil_append]
          exact ⟨by rw [← htext]; simp, hnames⟩
        · rw [if_neg hc, if_neg hc, changed_standIn hrun, internalEntries_append,
            internalEntries_run hrun, nil_append]
          obtain ⟨htext, hnames⟩ := @ih _ [] _ _ _ hrest
            (fun _ hd => absurd hd not_mem_nil) (by simp) (fun hne => absurd rfl hne) hmore
          refine ⟨?_, hnames⟩
          rw [nil_append] at htext
          rw [htext]
          -- the space that the loop writes is between words
          split
          · rw [singleton_append, singleton_append, mapFrom, if_neg (by decide),
              changed_nil, nil_append]
          · rfl

theorem normalized_keeps {encoded : List Char} {fuel : Nat} {previous : Option Char}
    {cs text : List Char} {names names' : List (List Char × List Char)}
    (h : normalized encoded fuel previous cs names = some (text, names'))
    (hc : isInternalPart c = false) (hmem : c ∈ cs) : c ∈ text := by
  induction fuel generalizing previous cs text names with
  | zero =>
    cases cs with
    | nil => cases hmem
    | cons d cs => cases h
  | succ fuel ih =>
    cases cs with
    | nil => cases hmem
    | cons d rest =>
      rw [normalized] at h
      split at h
      · rename_i hat
        split at h
        · cases h
        · obtain ⟨⟨text', names''⟩, hmore, heq⟩ := map_eq_some_iff.mp h
          cases heq
          apply mem_append_right
          apply ih hmore
          have hrest : c ∈ rest := by
            rcases mem_cons.mp hmem with rfl | hmem
            · exact absurd (hat ▸ hc) (by decide)
            · exact hmem
          rw [← @takeWhile_append_dropWhile _ isInternalPart rest] at hrest
          rcases mem_append.mp hrest with htake | hdrop
          · have hall := all_eq_true.mp all_takeWhile c htake
            rw [hc] at hall
            cases hall
          · exact hdrop
      · obtain ⟨⟨text', names''⟩, hmore, heq⟩ := map_eq_some_iff.mp h
        cases heq
        rcases mem_cons.mp hmem with rfl | hmem
        · exact List.mem_cons_self
        · exact mem_cons_of_mem d (mem_append_right _ (ih hmore hmem))

theorem clean_of_all (h : w.all isInternalPart = true) : Clean w := by
  intro c hc
  have hpart := all_eq_true.mp h c hc
  refine ⟨?_, ?_, ?_⟩ <;>
  · rintro rfl
    exact absurd hpart (by decide)

theorem clean_of_isIDPart (h : ∀ c ∈ name, isIDPart c = true) : Clean name :=
  clean_of_all (all_eq_true.mpr fun c hc => isInternalPart_of_isIDPart (h c hc))

theorem clean_chars (hgood : ∀ name, good name → PlainName name)
    (hclean : ∀ name, good name → Clean name) (h : Named good spec) :
    Clean (kirTypeSpecChars spec) := by
  intro c hc
  by_cases hpart : isNamePart c = true
  · obtain ⟨w, hw, hcw⟩ := exists_word_of_mem hpart hc
    rcases mem_wordsOf_chars hgood h w hw with rfl | rfl | hname
    · exact clean_of_all (by decide) c hcw
    · exact clean_of_all (by decide) c hcw
    · exact hclean w hname c hcw
  · refine ⟨?_, ?_, ?_⟩ <;>
    · rintro rfl
      exact hpart (by decide)

theorem clean_of_normalized {encoded text : List Char} {fuel : Nat}
    {names : List (List Char × List Char)}
    (h : normalized encoded fuel none encoded [] = some (text, names)) (hspec : Named IsName spec)
    (hchars : kirTypeSpecChars spec = text) : Clean encoded := by
  have htext : Clean text :=
    hchars ▸ clean_chars (fun _ hname => hname.plain) (fun _ hname => clean_of_isIDPart hname.2)
      hspec
  intro c hc
  by_cases hpart : isInternalPart c = true
  · refine ⟨?_, ?_, ?_⟩ <;>
    · rintro rfl
      exact absurd hpart (by decide)
  · exact htext c (normalized_keeps h (Bool.eq_false_iff.mpr hpart) hc)

/-! ## What is put back -/

section PutBack

variable {encoded : List Char}

theorem mem_internalEntries {ws : List (List Char)} {key internal : List Char} :
    (key, internal) ∈ internalEntries encoded ws ↔
      ∃ name, '@' :: name ∈ ws ∧ key = placeholderFor encoded name ∧ internal = '@' :: name := by
  rw [internalEntries, mem_filterMap]
  constructor
  · rintro ⟨w, hw, heq⟩
    split at heq
    · rename_i name
      cases heq
      exact ⟨name, hw, rfl, rfl⟩
    · cases heq
  · rintro ⟨name, hw, rfl, rfl⟩
    exact ⟨_, hw, rfl⟩

/-- What the parser puts back in a text, by the entries that it made. -/
abbrev backIn (encoded : List Char) : List Char → List Char :=
  putBack (internalEntries encoded (wordsOf isNamePart encoded)).reverse

theorem exists_of_lookup {word internal : List Char}
    (h : (internalEntries encoded (wordsOf isNamePart encoded)).reverse.lookup word =
      some internal) :
    ∃ name, '@' :: name ∈ wordsOf isNamePart encoded ∧ word = placeholderFor encoded name ∧
      internal = '@' :: name := by
  obtain ⟨before, after, hsplit, -⟩ := lookup_eq_some_iff.mp h
  have hmem : (word, internal) ∈
      (internalEntries encoded (wordsOf isNamePart encoded)).reverse := by
    rw [hsplit]
    exact mem_append_right _ List.mem_cons_self
  exact mem_internalEntries.mp (mem_reverse.mp hmem)

theorem backIn_of_infix {word : List Char} (h : word <:+: encoded) :
    backIn encoded word = word := by
  cases hlookup : (internalEntries encoded (wordsOf isNamePart encoded)).reverse.lookup word with
  | none => rw [backIn, putBack, hlookup, getD_none]
  | some internal =>
    obtain ⟨name, -, rfl, -⟩ := exists_of_lookup hlookup
    have hfresh := placeholderFor_fresh encoded name
    rw [(containsText_iff _ _).mpr h] at hfresh
    cases hfresh

theorem backIn_placeholderFor (h : '@' :: name ∈ wordsOf isNamePart encoded) :
    ∃ name', '@' :: name' ∈ wordsOf isNamePart encoded ∧
      placeholderFor encoded name = placeholderFor encoded name' ∧
      backIn encoded (placeholderFor encoded name) = '@' :: name' := by
  cases hlookup : (internalEntries encoded (wordsOf isNamePart encoded)).reverse.lookup
      (placeholderFor encoded name) with
  | none =>
    have hnone := lookup_eq_none_iff.mp hlookup (placeholderFor encoded name, '@' :: name)
      (mem_reverse.mpr (mem_internalEntries.mpr ⟨name, h, rfl, rfl⟩))
    simp at hnone
  | some internal =>
    obtain ⟨name', hname', heq, rfl⟩ := exists_of_lookup hlookup
    exact ⟨name', hname', heq, by rw [backIn, putBack, hlookup, getD_some]⟩

theorem backIn_standIn_iff :
    (∀ w ∈ wordsOf isNamePart encoded, backIn encoded (standIn encoded w) = w) ↔
      NoClash encoded := by
  constructor
  · intro hall name name' hname hname' heq
    have hback := hall _ hname
    have hback' := hall _ hname'
    simp only [standIn] at hback hback'
    rw [heq, hback'] at hback
    exact (List.cons.inj hback).2.symm
  · intro hclash w hw
    rw [standIn.eq_def]
    split
    · rename_i name
      obtain ⟨name', hname', heq, hback⟩ := backIn_placeholderFor hw
      rw [hback, hclash name name' hw hname' heq]
    · exact backIn_of_infix (infix_of_mem hw)

theorem backIn_signs (h : w.head? ≠ some 'K') : backIn encoded w = w := by
  cases hlookup : (internalEntries encoded (wordsOf isNamePart encoded)).reverse.lookup w with
  | none => rw [backIn, putBack, hlookup, getD_none]
  | some internal =>
    obtain ⟨name, -, rfl, -⟩ := exists_of_lookup hlookup
    obtain ⟨tail, heq, -⟩ := placeholderFor_eq encoded name
    exact absurd (by rw [heq]; rfl) h

theorem keepsSigns_backIn (encoded : List Char) : KeepsSigns (backIn encoded) where
  empty := backIn_signs (by decide)
  fn := backIn_signs (by decide)
  arrow := backIn_signs (by decide)

theorem keepsSigns_standIn (encoded : List Char) : KeepsSigns (standIn encoded) where
  empty := rfl
  fn := rfl
  arrow := rfl

theorem isWord_backIn (h : IsWord isNamePart w) :
    IsWord isNamePart (backIn encoded w) := by
  cases hlookup : (internalEntries encoded (wordsOf isNamePart encoded)).reverse.lookup w with
  | none => rwa [backIn, putBack, hlookup, getD_none]
  | some internal =>
    obtain ⟨name, hname, -, rfl⟩ := exists_of_lookup hlookup
    rw [backIn, putBack, hlookup, getD_some]
    exact isWord_of_mem hname

end PutBack

/-- A text that is accepted prints again, but for spaces after commas, just when no two of its
    internal names are written alike. -/
theorem reprints_iff {encoded : String} (h : parseKIRTypeExpressionUncached encoded = some spec) :
    kirTypeSpecChars spec = spaced encoded.toList ↔ NoClash encoded.toList := by
  obtain ⟨text, names, inner, hnormalized, hinner, hchars, rfl⟩ := parse_steps h
  have hclean := clean_of_normalized hnormalized hinner hchars
  obtain ⟨htext, hnames⟩ := @normalized_eq _ _ _ [] _ _ _ _ hclean
    (fun _ hc => absurd hc not_mem_nil) (by simp) (fun hne => absurd rfl hne) hnormalized
  rw [nil_append] at htext
  rw [append_nil] at hnames
  have hback : putBack names = backIn encoded.toList := by rw [hnames]; rfl
  have hwords : ∀ w, IsWord isNamePart w →
      IsWord isNamePart ((backIn encoded.toList ∘ standIn encoded.toList) w) :=
    fun w hw => isWord_backIn (isWord_standIn encoded.toList hw)
  rw [restore_eq, hback, chars_renamed (keepsSigns_backIn _)
    (hinner.mono fun _ hname => hname.plain), hchars, htext]
  show mapWords isNamePart _ (mapWords isNamePart _ _) = _ ↔ _
  rw [mapWords_mapWords fun w hw => isWord_standIn encoded.toList hw,
    mapWords_eq_self_iff hwords, wordsOf_spaced]
  exact backIn_standIn_iff

end Kryndel
