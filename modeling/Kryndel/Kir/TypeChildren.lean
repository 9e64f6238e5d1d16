import Kryndel.Kir.TypeSplit
import Kryndel.Kir.TypeTokens

/-!
# The children of a type expression

Three scanners take an encoded type apart. A type can be encoded with a space after a comma or
without, so a scanner is right about a text when it finds the children as they print, and the
text that it is given spells the type.
-/

namespace Kryndel

open TermGraph Words List Option

/-! ## The scanner for arguments -/

/-- The loop of `splitKIRGenericArguments`, inside numbers of brackets and of parentheses and
    after the characters of a piece. -/
def genericArguments : Nat → Nat → List Char → List Char → Option (List (List Char))
  | square, round, piece, [] =>
      if square = 0 ∧ round = 0 ∧ trimSpace piece ≠ [] then some [trimSpace piece] else none
  | square, round, piece, c :: rest =>
      if c = '[' then genericArguments (square + 1) round (piece ++ [c]) rest
      else if c = ']' then
        if square = 0 then none else genericArguments (square - 1) round (piece ++ [c]) rest
      else if c = '(' then genericArguments square (round + 1) (piece ++ [c]) rest
      else if c = ')' then
        if round = 0 then none else genericArguments square (round - 1) (piece ++ [c]) rest
      else if c = ',' ∧ square = 0 ∧ round = 0 then
        if trimSpace piece = [] then none
        else (genericArguments 0 0 [] rest).map (trimSpace piece :: ·)
      else genericArguments square round (piece ++ [c]) rest

/-- `splitKIRGenericArguments` -/
def splitKIRGenericArguments (encoded name : String) : Option (List String) :=
  if (name.toList ++ ['[']).isPrefixOf encoded.toList ∧ encoded.toList.getLast? = some ']' then
    let inner := (encoded.toList.drop (name.toList ++ ['[']).length).dropLast
    if inner = [] then none
    else (genericArguments 0 0 [] inner).map fun arguments => arguments.map String.ofList
  else none

example : splitKIRGenericArguments "Map[fn(A, B) -> C,D]" "Map" =
    some ["fn(A, B) -> C", "D"] := by decide

section Generic

variable {square round : Nat} {piece x : List Char}

variable {found : List (List Char)}

/-- What the scanner for arguments finds, the scanner of function types finds before a
    parenthesis. -/
theorem functionParameters_of_genericArguments
    (h : genericArguments square round piece x = some found) :
    functionParameters (round + 1) square piece (x ++ [')']) = some (found, []) := by
  induction x generalizing square round piece found with
  | nil =>
    rw [genericArguments] at h
    split at h
    · rename_i hend
      obtain ⟨rfl, rfl, hne⟩ := hend
      cases h
      rw [nil_append, functionParameters_close, if_neg hne]
    · cases h
  | cons c rest ih =>
    rw [genericArguments] at h
    rw [cons_append, functionParameters]
    split at h
    · rename_i hopen
      rw [if_pos hopen]
      exact ih h
    rename_i hopen
    rw [if_neg hopen]
    split at h
    · rename_i hclose
      rw [if_pos hclose]
      split at h
      · cases h
      · rename_i hpos
        rw [if_neg hpos]
        exact ih h
    rename_i hclose
    rw [if_neg hclose]
    split at h
    · rename_i hopen'
      rw [if_pos hopen']
      exact ih h
    rename_i hopen'
    rw [if_neg hopen']
    split at h
    · rename_i hclose'
      split at h
      · cases h
      · rename_i hpos
        obtain ⟨m, rfl⟩ := Nat.exists_eq_succ_of_ne_zero hpos
        rw [if_pos hclose', if_neg (by omega)]
        exact ih h
    rename_i hclose'
    rw [if_neg hclose']
    split at h
    · rename_i hcomma
      obtain ⟨hcomma, rfl, rfl⟩ := hcomma
      rw [if_pos ⟨hcomma, rfl, rfl⟩]
      split at h
      · cases h
      · rename_i hne
        obtain ⟨found', hfound, heq⟩ := map_eq_some_iff.mp h
        cases heq
        rw [if_neg hne, ih hfound, map_some]
    · rename_i hcomma
      rw [if_neg fun hc => hcomma ⟨hc.1, hc.2.2, by omega⟩]
      exact ih h

theorem trimSpace_ne_nil {c : Char} {cs : List Char} (hc : c ∈ cs)
    (hspace : isSpaceRune c = false) : trimSpace cs ≠ [] := by
  intro hnil
  rw [trimSpace, reverse_eq_nil_iff, dropWhile_eq_nil_iff] at hnil
  have hall : ∀ d ∈ cs.dropWhile isSpaceRune, isSpaceRune d = true :=
    fun d hd => hnil d (mem_reverse.mpr hd)
  rw [← @takeWhile_append_dropWhile _ isSpaceRune cs] at hc
  rcases mem_append.mp hc with hc | hc
  · rw [all_eq_true.mp all_takeWhile c hc] at hspace
    cases hspace
  · rw [hall c hc] at hspace
    cases hspace

/-- The other way, if the text ends with a character of the last piece. -/
theorem genericArguments_of_functionParameters {d : Char} (hlast : (piece ++ x).getLast? = some d)
    (hspace : isSpaceRune d = false) (hd : d ≠ ',')
    (h : functionParameters (round + 1) square piece (x ++ [')']) = some (found, [])) :
    genericArguments square round piece x = some found := by
  induction x generalizing square round piece found with
  | nil =>
    rw [append_nil] at hlast
    have hne := trimSpace_ne_nil (mem_of_getLast? hlast) hspace
    rw [nil_append, functionParameters, if_neg (by decide), if_neg (by decide),
      if_neg (by decide), if_pos rfl, if_neg hne] at h
    split at h
    · rename_i hround
      split at h
      · rename_i hsquare
        cases h
        rw [genericArguments, if_pos ⟨hsquare, Nat.succ.inj hround, hne⟩]
      · cases h
    · cases h
  | cons c rest ih =>
    have hnext : (piece ++ [c] ++ rest).getLast? = some d := by
      rwa [append_assoc, singleton_append]
    rw [cons_append, functionParameters] at h
    rw [genericArguments]
    split at h
    · rename_i hopen
      rw [if_pos hopen]
      exact ih hnext h
    rename_i hopen
    rw [if_neg hopen]
    split at h
    · rename_i hclose
      rw [if_pos hclose]
      split at h
      · cases h
      · rename_i hpos
        rw [if_neg hpos]
        exact ih hnext h
    rename_i hclose
    rw [if_neg hclose]
    split at h
    · rename_i hopen'
      rw [if_pos hopen']
      exact ih hnext h
    rename_i hopen'
    rw [if_neg hopen']
    split at h
    · rename_i hclose'
      rw [if_pos hclose']
      split at h
      · -- a parenthesis that closes no other would end the parameters before the last one
        split at h
        · have hrest := congrArg (fun out => out.map Prod.snd) h
          simp at hrest
        · cases h
      · rename_i hround
        obtain ⟨m, rfl⟩ := Nat.exists_eq_succ_of_ne_zero fun hzero : round = 0 =>
          hround (congrArg Nat.succ hzero)
        exact ih hnext h
    rename_i hclose'
    rw [if_neg hclose']
    split at h
    · rename_i hcomma
      obtain ⟨rfl, hround, rfl⟩ := hcomma
      obtain rfl : round = 0 := Nat.succ.inj hround
      rw [if_pos ⟨rfl, rfl, rfl⟩]
      split at h
      · cases h
      · rename_i hne
        obtain ⟨⟨found', after⟩, hfound, heq⟩ := map_eq_some_iff.mp h
        cases heq
        have hrest : ([] ++ rest).getLast? = some d := by
          cases rest with
          | nil =>
            rw [append_nil, getLast?_append_of_ne_nil _ (cons_ne_nil _ _)] at hnext
            exact absurd (Option.some.inj hnext).symm hd
          | cons e rest =>
            rwa [getLast?_append_of_ne_nil _ (cons_ne_nil _ _)] at hnext
        rw [if_neg hne, ih hrest hfound, map_some]
    · rename_i hcomma
      rw [if_neg fun hc => hcomma ⟨hc.1, by omega, hc.2.1⟩]
      exact ih hnext h

end Generic

/-! ## Texts that spell specifications -/

/-- Pieces with commas between them, and a space after a comma or none. -/
inductive Loose : List Char → List (List Char) → Prop
  | nil : Loose [] []
  | one (x : List Char) : Loose x [x]
  | more (x : List Char) {gap y : List Char} {z : List Char} {pieces : List (List Char)}
      (hgap : gap = [] ∨ gap = [' ']) (hrest : Loose y (z :: pieces)) :
      Loose (x ++ ',' :: (gap ++ y)) (x :: z :: pieces)

section Spelling

theorem spaced_split {cs u v : List Char} (h : spaced cs = u ++ v) (hv : v.head? ≠ some ' ') :
    ∃ x y, cs = x ++ y ∧ spaced x = u ∧ spaced y = v := by
  induction cs generalizing u with
  | nil =>
    obtain ⟨rfl, rfl⟩ := append_eq_nil_iff.mp h.symm
    exact ⟨[], [], rfl, rfl, rfl⟩
  | cons c cs ih =>
    cases u with
    | nil => exact ⟨[], c :: cs, rfl, rfl, h⟩
    | cons d u =>
      rw [spaced, cons_append] at h
      obtain ⟨hhead, htail⟩ := List.cons.inj h
      subst hhead
      by_cases hgap : (c == ',' && cs.head? != some ' ') = true
      · rw [if_pos hgap] at htail
        cases u with
        | nil =>
          rw [nil_append] at htail
          rw [← htail] at hv
          exact absurd rfl hv
        | cons e u =>
          obtain ⟨hspace, hmore⟩ := List.cons.inj htail
          subst hspace
          obtain ⟨x, y, rfl, rfl, rfl⟩ := ih hmore
          refine ⟨c :: x, y, rfl, ?_, rfl⟩
          have hgap' : (c == ',' && x.head? != some ' ') = true := by
            cases x with
            | nil =>
              rw [Bool.and_eq_true] at hgap ⊢
              exact ⟨hgap.1, rfl⟩
            | cons f x => exact hgap
          rw [spaced, if_pos hgap']
          rfl
      · rw [if_neg hgap, nil_append] at htail
        obtain ⟨x, y, rfl, rfl, rfl⟩ := ih htail
        refine ⟨c :: x, y, rfl, ?_, rfl⟩
        have hgap' : ¬ (c == ',' && x.head? != some ' ') = true := by
          cases x with
          | nil =>
            -- the space after the comma would be in the second text
            rw [nil_append] at hgap
            intro hcomma
            apply hgap
            rw [Bool.and_eq_true] at hcomma ⊢
            rw [spaced_head] at hv
            exact ⟨hcomma.1, bne_iff_ne.mpr hv⟩
          | cons f x => exact hgap
        rw [spaced, if_neg hgap']
        rfl

theorem spaced_cons_of_ne {c : Char} (h : c ≠ ',') (cs : List Char) :
    spaced (c :: cs) = c :: spaced cs := by
  rw [spaced, beq_eq_false_iff_ne.mpr h, Bool.false_and, if_neg Bool.false_ne_true,
    nil_append]

theorem spaced_begins {w : List Char} (hw : ∀ c ∈ w, c ≠ ',') {cs v : List Char}
    (h : spaced cs = w ++ v) : ∃ y, cs = w ++ y ∧ spaced y = v := by
  induction w generalizing cs with
  | nil => exact ⟨cs, rfl, h⟩
  | cons c w ih =>
    cases cs with
    | nil => cases h
    | cons d cs =>
      have hd : d = c := by
        exact (List.cons.inj h).1
      subst hd
      have hne := hw d mem_cons_self
      rw [spaced_cons_of_ne hne, cons_append] at h
      obtain ⟨y, rfl, hy⟩ := ih (fun e he => hw e (mem_cons_of_mem d he)) (List.cons.inj h).2
      exact ⟨y, rfl, hy⟩

theorem spaced_append (x : List Char) {y : List Char} (hy : y.head? ≠ some ' ') :
    spaced (x ++ y) = spaced x ++ spaced y := by
  induction x with
  | nil => rfl
  | cons c x ih =>
    have hhead : ((x ++ y).head? != some ' ') = (x.head? != some ' ') := by
      cases x with
      | nil =>
        rw [nil_append, bne_iff_ne.mpr hy]
        rfl
      | cons d x => rfl
    rw [cons_append, spaced, spaced, hhead, ih, cons_append, append_assoc]

theorem spaced_joined {xs : List (List Char)} (h : ∀ x ∈ xs, spaced x = x) :
    spaced (joined xs) = joined xs := by
  induction xs with
  | nil => rfl
  | cons x xs ih =>
    have hx := h x mem_cons_self
    cases xs with
    | nil => rwa [joined, flatMap_nil, append_nil]
    | cons z zs =>
      have hrest := ih fun w hw => h w (mem_cons_of_mem x hw)
      rw [joined_cons_cons, spaced_append x (by simp), hx, spaced, if_neg (by simp),
        nil_append, spaced_cons_of_ne (by decide), hrest]

theorem spaced_chars {spec : KIRTypeSpec} (h : Named PlainName spec) :
    spaced (kirTypeSpecChars spec) = kirTypeSpecChars spec := by
  have hmap : ∀ specs : List KIRTypeSpec,
      (∀ c ∈ specs, spaced (kirTypeSpecChars c) = kirTypeSpecChars c) →
      spaced (joined (specs.map kirTypeSpecChars)) = joined (specs.map kirTypeSpecChars) := by
    intro specs hspecs
    apply spaced_joined
    intro x hx
    obtain ⟨c, hc, rfl⟩ := mem_map.mp hx
    exact hspecs c hc
  refine Named.induction (P := fun spec =>
    spaced (kirTypeSpecChars spec) = kirTypeSpecChars spec) ?_ ?_ spec h
  · intro name args hname _ ih
    have hself : spaced name.toList = name.toList := by
      have hparts := spaced_parts hname.2 []
      rwa [append_nil, spaced, append_nil] at hparts
    by_cases hnil : args = []
    · rwa [hnil, chars_namedSpec_nil]
    · rw [chars_namedSpec name hnil, spaced_append _ (by simp), hself,
        spaced_cons_of_ne (by decide), spaced_append _ (by simp), hmap args ih]
      rfl
  · intro params ret _ ihparams _ ih
    rw [chars_functionSpec, spaced_cons_of_ne (by decide), spaced_cons_of_ne (by decide),
      spaced_cons_of_ne (by decide), spaced_append _ (by simp), hmap params ihparams,
      spaced_cons_of_ne (by decide), spaced_cons_of_ne (by decide), spaced_cons_of_ne (by decide),
      spaced_cons_of_ne (by decide), spaced_cons_of_ne (by decide), ih]

theorem spaced_eq_nil {cs : List Char} (h : spaced cs = []) : cs = [] := by
  cases cs with
  | nil => rfl
  | cons c cs => cases h

theorem loose_of_spaced {i : List Char} {xs : List (List Char)} (h : spaced i = joined xs) :
    ∃ pieces, Loose i pieces ∧ pieces.map spaced = xs := by
  induction xs generalizing i with
  | nil => exact ⟨[], spaced_eq_nil h ▸ Loose.nil, rfl⟩
  | cons x xs ih =>
    cases xs with
    | nil =>
      rw [joined, flatMap_nil, append_nil] at h
      exact ⟨[i], Loose.one i, by rw [map_singleton, h]⟩
    | cons z zs =>
      obtain ⟨p, y, rfl, hp, hy⟩ := spaced_split h (by simp)
      cases y with
      | nil => cases hy
      | cons c y =>
        obtain ⟨rfl, hy⟩ := List.cons.inj hy
        -- the space is in the text, or it was put there
        have hgap : ∃ gap y', y = gap ++ y' ∧ (gap = [] ∨ gap = [' ']) ∧
            spaced y' = joined (z :: zs) := by
          by_cases hhead : y.head? = some ' '
          · obtain ⟨y', rfl⟩ : ∃ y', y = ' ' :: y' := by
              cases y with
              | nil => cases hhead
              | cons d y =>
                cases hhead
                exact ⟨y, rfl⟩
            exact ⟨[' '], y', rfl, Or.inr rfl, (List.cons.inj hy).2⟩
          · rw [if_pos (by simp [hhead])] at hy
            exact ⟨[], y, rfl, Or.inl rfl, (List.cons.inj hy).2⟩
        obtain ⟨gap, y', rfl, hgap, hy'⟩ := hgap
        obtain ⟨pieces, hpieces, hmap⟩ := ih hy'
        cases pieces with
        | nil => cases hmap
        | cons q pieces =>
          refine ⟨p :: q :: pieces, Loose.more p hgap hpieces, ?_⟩
          rw [map_cons, hmap, hp]

variable {text : List Char}

theorem PlainName.no_comma {name : List Char} (h : PlainName name) : ∀ c ∈ name, c ≠ ',' :=
  fun c hc => (h.not_sign c hc).2.2.2.2

theorem spells_name {name : String} (hname : PlainName name.toList)
    (h : spaced text = kirTypeSpecChars (namedSpec name [])) : text = name.toList := by
  obtain ⟨y, rfl, hy⟩ := spaced_begins hname.no_comma h
  rw [spaced_eq_nil hy, append_nil]

theorem spells_arguments {name : String} {args : List KIRTypeSpec} (hname : PlainName name.toList)
    (hne : args ≠ []) (h : spaced text = kirTypeSpecChars (namedSpec name args)) :
    ∃ inner pieces, text = name.toList ++ '[' :: (inner ++ [']']) ∧ Loose inner pieces ∧
      pieces.map spaced = args.map kirTypeSpecChars := by
  rw [chars_namedSpec name hne] at h
  obtain ⟨y, rfl, hy⟩ := spaced_begins hname.no_comma h
  obtain ⟨z, rfl, hz⟩ := @spaced_begins ['['] (by simp) _ _ hy
  obtain ⟨inner, w, rfl, hinner, hw⟩ := spaced_split hz (by simp)
  obtain ⟨v, rfl, hv⟩ := @spaced_begins [']'] (by simp) w [] hw
  obtain ⟨pieces, hpieces, hmap⟩ := loose_of_spaced hinner
  exact ⟨inner, pieces, by rw [spaced_eq_nil hv]; rfl, hpieces, hmap⟩

theorem spells_function {params : List KIRTypeSpec} {ret : KIRTypeSpec}
    (h : spaced text = kirTypeSpecChars (functionSpec params ret)) :
    ∃ inner pieces result, text = 'f' :: 'n' :: '(' :: (inner ++
        ')' :: ' ' :: '-' :: '>' :: ' ' :: result) ∧ Loose inner pieces ∧
      pieces.map spaced = params.map kirTypeSpecChars ∧ spaced result = kirTypeSpecChars ret := by
  rw [chars_functionSpec] at h
  obtain ⟨y, rfl, hy⟩ := @spaced_begins ['f', 'n', '('] (by simp) _ _ h
  obtain ⟨inner, z, rfl, hinner, hz⟩ := spaced_split hy (by simp)
  obtain ⟨result, rfl, hresult⟩ := @spaced_begins [')', ' ', '-', '>', ' '] (by simp) _ _ hz
  obtain ⟨pieces, hpieces, hmap⟩ := loose_of_spaced hinner
  exact ⟨inner, pieces, result, rfl, hpieces, hmap, hresult⟩

theorem spells_piece {pieces : List (List Char)} {specs : List KIRTypeSpec} {P : List Char → Prop}
    (hmap : pieces.map spaced = specs.map kirTypeSpecChars)
    (h : ∀ spec ∈ specs, ∀ text, spaced text = kirTypeSpecChars spec → P text) :
    ∀ piece ∈ pieces, P piece := by
  intro piece hpiece
  have hmem : spaced piece ∈ specs.map kirTypeSpecChars := hmap ▸ mem_map_of_mem hpiece
  obtain ⟨spec, hspec, hchars⟩ := mem_map.mp hmem
  exact h spec hspec piece hchars.symm

end Spelling

/-! ## Scanning texts that spell specifications -/

mutual

/-- The commas of a specification that no bracket encloses. -/
def specCommas : KIRTypeSpec → Nat
  | .node label children =>
      if label.function then allSpecCommas children + (children.length - 2) else 0

/-- Those of some specifications. -/
def allSpecCommas : List KIRTypeSpec → Nat
  | [] => 0
  | c :: cs => specCommas c + allSpecCommas cs

end

section Scanning

variable {inner : List Char} {pieces : List (List Char)}

theorem allSpecCommas_eq_sum (specs : List KIRTypeSpec) :
    allSpecCommas specs = (specs.map specCommas).sum := by
  induction specs with
  | nil => rfl
  | cons c cs ih => rw [allSpecCommas, ih, map_cons, sum_cons]

theorem specCommas_functionSpec (params : List KIRTypeSpec) (ret : KIRTypeSpec) :
    specCommas (functionSpec params ret) =
      (params.map specCommas).sum + (params.length - 1) + specCommas ret := by
  rw [functionSpec, specCommas, if_pos rfl, allSpecCommas_eq_sum, map_append, sum_append,
    length_append, map_singleton, sum_singleton, length_singleton]
  omega

theorem specCommas_namedSpec (name : String) (args : List KIRTypeSpec) :
    specCommas (namedSpec name args) = 0 := by
  rw [namedSpec, specCommas, if_neg Bool.false_ne_true]

variable {commas : List Nat}

theorem Loose.scans (h : Loose inner pieces) (hpieces : List.Forall₂ Scans pieces commas) :
    Scans inner (commas.sum + (pieces.length - 1)) := by
  induction h generalizing commas with
  | nil =>
    cases hpieces
    exact .nil
  | one x =>
    obtain ⟨n, hn, rfl⟩ : ∃ n, Scans x n ∧ commas = [n] := by
      cases hpieces with
      | cons hx hrest =>
        cases hrest
        exact ⟨_, hx, rfl⟩
    exact hn
  | @more x gap y z pieces hgap hrest ih =>
    cases hpieces with
    | @cons _ n _ commas hx hall =>
      have hspace : Scans gap 0 := by
        rcases hgap with rfl | rfl
        · exact .nil
        · exact .char (by decide) (by decide) (by decide)
      have hscans := hx.append (Scans.comma.append (hspace.append (ih hall)))
      have hcount : (n :: commas).sum + ((x :: z :: pieces).length - 1) =
          n + (1 + (0 + (commas.sum + ((z :: pieces).length - 1)))) := by
        simp only [sum_cons, length_cons]
        omega
      rw [hcount]
      exact hscans

theorem Loose.passes (h : Loose inner pieces) (hpieces : ∀ x ∈ pieces, Passes x) :
    PassesInside inner := by
  induction h with
  | nil => exact .nil
  | one x => exact Passes.inside (hpieces x mem_cons_self)
  | @more x gap y z pieces hgap hrest ih =>
    have hspace : PassesInside gap := by
      rcases hgap with rfl | rfl
      · exact .nil
      · exact Passes.inside (Passes.char (by decide))
    have hall := ih fun w hw => hpieces w (mem_cons_of_mem x hw)
    exact (Passes.inside (hpieces x mem_cons_self)).append
      (PassesInside.comma.append (hspace.append hall))

theorem scans_pieces {specs : List KIRTypeSpec}
    (hspecs : ∀ c ∈ specs, ∀ text, spaced text = kirTypeSpecChars c → Scans text (specCommas c))
    (hmap : pieces.map spaced = specs.map kirTypeSpecChars) :
    List.Forall₂ Scans pieces (specs.map specCommas) := by
  induction specs generalizing pieces with
  | nil =>
    rw [map_eq_nil_iff.mp hmap]
    exact .nil
  | cons c cs ih =>
    obtain ⟨x, xs, rfl, hx, hxs⟩ := map_eq_cons_iff.mp hmap
    exact .cons (hspecs c mem_cons_self x hx)
      (ih (fun d hd => hspecs d (mem_cons_of_mem c hd)) hxs)

/-- The scanner of containers goes over a text that spells a specification, and splits it at its
    open commas. -/
theorem scans_of_spells {spec : KIRTypeSpec} (h : Named PlainName spec) :
    ∀ text, spaced text = kirTypeSpecChars spec → Scans text (specCommas spec) := by
  refine Named.induction (P := fun spec => ∀ text, spaced text = kirTypeSpecChars spec →
    Scans text (specCommas spec)) ?_ ?_ spec h
  · intro name args hname _ ih text htext
    have hplain : Scans name.toList 0 := .chars fun c hc =>
      have hsign := hname.not_sign c hc
      ⟨hsign.1, hsign.2.1, hsign.2.2.2.2⟩
    by_cases hnil : args = []
    · subst hnil
      rwa [spells_name hname htext]
    · obtain ⟨inner, pieces, rfl, hloose, hmap⟩ := spells_arguments hname hnil htext
      exact hplain.append (Scans.brackets (hloose.scans (scans_pieces ih hmap)))
  · intro params ret _ ihparams _ ih text htext
    obtain ⟨inner, pieces, result, rfl, hloose, hmap, hresult⟩ := spells_function htext
    have hfn : Scans ['f', 'n', '('] 0 := .chars (by simp)
    have harrow : Scans [')', ' ', '-', '>', ' '] 0 := .chars (by simp)
    have hscans := hfn.append ((hloose.scans (scans_pieces ihparams hmap)).append
      (harrow.append (ih result hresult)))
    have hlength : pieces.length = params.length := by
      have hlen := congrArg List.length hmap
      rwa [length_map, length_map] at hlen
    have hcount : specCommas (functionSpec params ret) =
        0 + ((params.map specCommas).sum + (pieces.length - 1) + (0 + specCommas ret)) := by
      rw [specCommas_functionSpec, hlength]
      omega
    rw [hcount]
    exact hscans

theorem passes_of_spells {spec : KIRTypeSpec} (h : Named PlainName spec) :
    ∀ text, spaced text = kirTypeSpecChars spec → Passes text := by
  refine Named.induction (P := fun spec => ∀ text, spaced text = kirTypeSpecChars spec →
    Passes text) ?_ ?_ spec h
  · intro name args hname _ ih text htext
    have hplain : Passes name.toList := .chars hname.not_sign
    by_cases hnil : args = []
    · subst hnil
      rwa [spells_name hname htext]
    · obtain ⟨inner, pieces, rfl, hloose, hmap⟩ := spells_arguments hname hnil htext
      exact PassesWhere.append hplain (Passes.brackets (hloose.passes (spells_piece hmap ih)))
  · intro params ret _ ihparams _ ih text htext
    obtain ⟨inner, pieces, result, rfl, hloose, hmap, hresult⟩ := spells_function htext
    have hfn : Passes ['f', 'n'] := .chars (by simp)
    have harrow : Passes [' ', '-', '>', ' '] := .chars (by simp)
    have hparams := Passes.parentheses (hloose.passes (spells_piece hmap ihparams))
    have hall := (hfn.append hparams).append (harrow.append (ih result hresult))
    simpa using hall

/-! ### Pieces -/

variable {gap : List Char}

theorem trimSpace_gap (hgap : gap = [] ∨ gap = [' ']) (x : List Char) :
    trimSpace (gap ++ x) = trimSpace x := by
  rcases hgap with rfl | rfl
  · rfl
  · exact trimSpace_cons (by decide) x

theorem Loose.containerArguments (h : Loose inner pieces) (hne : pieces ≠ [])
    (hpieces : ∀ x ∈ pieces, Scans x 0) (hgap : gap = [] ∨ gap = [' ']) :
    Kryndel.containerArguments 0 gap inner = some (pieces.map trimSpace) := by
  induction h generalizing gap with
  | nil => exact absurd rfl hne
  | one x =>
    have hwhole := (hpieces x mem_cons_self).whole rfl gap []
    rw [append_nil] at hwhole
    rw [hwhole, Kryndel.containerArguments, if_pos rfl, trimSpace_gap hgap, map_singleton]
  | @more x gap' y z pieces hgap' hrest ih =>
    have hspace : Scans gap' 0 := by
      rcases hgap' with rfl | rfl
      · exact .nil
      · exact .char (by decide) (by decide) (by decide)
    have hmore := ih (cons_ne_nil z pieces)
      (fun w hw => hpieces w (mem_cons_of_mem x hw)) hgap'
    rw [(hpieces x mem_cons_self).whole rfl, containerArguments_comma, hspace.whole rfl,
      nil_append, hmore, trimSpace_gap hgap]
    rfl

theorem scans_zero (h : List.Forall₂ Scans pieces commas) (hzero : ∀ n ∈ commas, n = 0) :
    ∀ x ∈ pieces, Scans x 0 := by
  induction h with
  | nil => exact fun x hx => absurd hx not_mem_nil
  | @cons x n pieces commas hx hrest ih =>
    intro y hy
    rcases mem_cons.mp hy with rfl | hy
    · exact hzero n mem_cons_self ▸ hx
    · exact ih (fun m hm => hzero m (mem_cons_of_mem n hm)) y hy

/-- The scanner of containers finds just the trimmed pieces, where none has an open comma. -/
theorem Loose.containerArguments_iff {xs : List (List Char)} (h : Loose inner pieces)
    (hne : pieces ≠ []) (hpieces : List.Forall₂ Scans pieces commas)
    (hlength : xs.length = pieces.length) :
    Kryndel.containerArguments 0 [] inner = some xs ↔
      (∀ n ∈ commas, n = 0) ∧ pieces.map trimSpace = xs := by
  have hzero := scans_zero hpieces
  constructor
  · intro hfound
    obtain ⟨piece', hcount⟩ := (h.scans hpieces).outside [] []
    rw [append_nil, hfound, Kryndel.containerArguments] at hcount
    have hpos := length_pos_iff.mpr hne
    have hsum : commas.sum = 0 := by
      split at hcount
      · simp only [map_some, Option.some.injEq, length_singleton] at hcount
        omega
      · cases hcount
    have hall := List.sum_eq_zero_iff_forall_eq_nat.mp hsum
    refine ⟨hall, ?_⟩
    rw [h.containerArguments hne (hzero hall) (Or.inl rfl)] at hfound
    exact Option.some.inj hfound
  · rintro ⟨hall, rfl⟩
    exact h.containerArguments hne (hzero hall) (Or.inl rfl)

theorem Loose.functionParameters_iff {xs : List (List Char)} (h : Loose inner pieces)
    (hpieces : ∀ x ∈ pieces, Passes x) (hxs : ∀ x ∈ xs, x ≠ [])
    (hlength : xs.length = pieces.length) (hgap : gap = [] ∨ gap = [' ']) (after : List Char) :
    functionParameters 1 0 gap (inner ++ ')' :: after) = some (xs, after) ↔
      pieces.map trimSpace = xs := by
  induction h generalizing xs gap with
  | nil =>
    obtain rfl := length_eq_zero_iff.mp hlength
    have hempty : trimSpace gap = [] := by
      have htrim := trimSpace_gap hgap []
      rwa [append_nil] at htrim
    rw [nil_append, functionParameters_close, if_pos hempty]
    exact iff_of_true rfl rfl
  | one x =>
    obtain ⟨w, rfl⟩ := length_eq_one_iff.mp hlength
    have hw := hxs w mem_cons_self
    rw [hpieces x mem_cons_self _ _ _ _ (Nat.le_refl 1) trivial, functionParameters_close,
      trimSpace_gap hgap]
    by_cases hempty : trimSpace x = []
    · simp [hempty, hw.symm]
    · simp [hempty]
  | @more x gap' y z pieces hgap' hrest ih =>
    obtain ⟨w, ws, rfl⟩ : ∃ w ws, xs = w :: ws := by
      cases xs with
      | nil => cases hlength
      | cons w ws => exact ⟨w, ws, rfl⟩
    have hw := hxs w mem_cons_self
    have hspace : Passes gap' := by
      rcases hgap' with rfl | rfl
      · exact .nil
      · exact Passes.char (by decide)
    have hmore := ih (fun v hv => hpieces v (mem_cons_of_mem x hv))
      (fun v hv => hxs v (mem_cons_of_mem w hv)) (Nat.succ.inj hlength) hgap'
    have hshape : x ++ ',' :: (gap' ++ y) ++ ')' :: after =
        x ++ ',' :: (gap' ++ (y ++ ')' :: after)) := by simp
    rw [hshape, hpieces x mem_cons_self _ _ _ _ (Nat.le_refl 1) trivial,
      functionParameters_comma, trimSpace_gap hgap,
      hspace _ _ _ _ (Nat.le_refl 1) trivial, nil_append]
    by_cases hempty : trimSpace x = []
    · simp [hempty, hw.symm]
    · rw [if_neg hempty, map_cons, List.cons.injEq, ← hmore]
      constructor
      · intro hfound
        obtain ⟨⟨found, after'⟩, hfound', heq⟩ := map_eq_some_iff.mp hfound
        cases heq
        exact ⟨rfl, hfound'⟩
      · rintro ⟨rfl, hfound⟩
        rw [hfound, map_some]

theorem Loose.functionParameters_after (h : Loose inner pieces) (hpieces : ∀ x ∈ pieces, Passes x)
    {gap after rest : List Char} {found : List (List Char)}
    (hfound : functionParameters 1 0 gap (inner ++ ')' :: after) = some (found, rest)) :
    rest = after := by
  induction h generalizing gap found with
  | nil =>
    cases hfound
    rfl
  | one x =>
    rw [hpieces x mem_cons_self _ _ _ _ (Nat.le_refl 1) trivial,
      functionParameters_close] at hfound
    cases hfound
    rfl
  | @more x gap' y z pieces hgap' hrest ih =>
    have hspace : Passes gap' := by
      rcases hgap' with rfl | rfl
      · exact .nil
      · exact Passes.char (by decide)
    have hshape : x ++ ',' :: (gap' ++ y) ++ ')' :: after =
        x ++ ',' :: (gap' ++ (y ++ ')' :: after)) := by simp
    rw [hshape, hpieces x mem_cons_self _ _ _ _ (Nat.le_refl 1) trivial,
      functionParameters_comma, hspace _ _ _ _ (Nat.le_refl 1) trivial] at hfound
    split at hfound
    · cases hfound
    · obtain ⟨⟨found', rest'⟩, hmore, heq⟩ := map_eq_some_iff.mp hfound
      cases heq
      exact ih (fun v hv => hpieces v (mem_cons_of_mem x hv)) hmore

end Scanning

/-! ## What the scanners find -/

theorem length_le_spaced (cs : List Char) : cs.length ≤ (spaced cs).length := by
  induction cs with
  | nil => exact Nat.le_refl _
  | cons c cs ih =>
    rw [spaced, length_cons, length_cons, length_append]
    omega

theorem trimSpace_sublist (cs : List Char) : (trimSpace cs).Sublist cs := by
  have hback := dropWhile_sublist isSpaceRune (l := (cs.dropWhile isSpaceRune).reverse)
  have hreverse := reverse_sublist.mpr hback
  rw [reverse_reverse] at hreverse
  exact hreverse.trans (dropWhile_sublist isSpaceRune)

theorem trimSpace_eq_spaced_iff (cs : List Char) :
    trimSpace cs = spaced cs ↔ spaced cs = cs ∧ trimSpace cs = cs := by
  constructor
  · intro h
    have hsame : trimSpace cs = cs := by
      apply (trimSpace_sublist cs).eq_of_length_le
      rw [h]
      exact length_le_spaced cs
    exact ⟨h.symm.trans hsame, hsame⟩
  · rintro ⟨hspaced, htrim⟩
    rw [htrim, hspaced]

theorem trimmed_pieces_iff {pieces xs : List (List Char)} (hmap : pieces.map spaced = xs) :
    pieces.map trimSpace = xs ↔ pieces = xs ∧ ∀ x ∈ xs, trimSpace x = x := by
  subst hmap
  constructor
  · intro h
    have hall := map_inj_left.mp h
    have hsame : pieces.map spaced = pieces :=
      map_eq_self_iff.mpr fun x hx => ((trimSpace_eq_spaced_iff x).mp (hall x hx)).1
    rw [hsame]
    exact ⟨rfl, fun x hx => ((trimSpace_eq_spaced_iff x).mp (hall x hx)).2⟩
  · rintro ⟨hsame, htrim⟩
    rw [← hsame] at htrim ⊢
    exact map_eq_self_iff.mpr htrim

variable {spec : KIRTypeSpec}

theorem getLast_chars (h : Named PlainName spec) :
    ∃ d, (kirTypeSpecChars spec).getLast? = some d ∧ d ≠ ',' := by
  refine Named.induction (P := fun spec => ∃ d, (kirTypeSpecChars spec).getLast? = some d ∧
    d ≠ ',') ?_ ?_ spec h
  · intro name args hname _ _
    by_cases hnil : args = []
    · rw [hnil, chars_namedSpec_nil]
      obtain ⟨d, hd⟩ : ∃ d, name.toList.getLast? = some d :=
        ⟨_, getLast?_eq_some_getLast hname.1⟩
      exact ⟨d, hd, hname.no_comma d (mem_of_getLast? hd)⟩
    · rw [chars_namedSpec name hnil, ← cons_append, ← append_assoc]
      exact ⟨']', getLast?_concat, by decide⟩
  · intro params ret _ _ _ ih
    obtain ⟨d, hd, hcomma⟩ := ih
    refine ⟨d, ?_, hcomma⟩
    have hne : kirTypeSpecChars ret ≠ [] := by
      rintro hnil
      rw [hnil] at hd
      cases hd
    have hshape : kirTypeSpecChars (functionSpec params ret) =
        ('f' :: 'n' :: '(' :: (joined (params.map kirTypeSpecChars) ++
          [')', ' ', '-', '>', ' '])) ++ kirTypeSpecChars ret := by
      rw [chars_functionSpec]
      simp
    rw [hshape, getLast?_append_of_ne_nil _ hne, hd]

theorem chars_ne_nil (h : Named PlainName spec) :
    kirTypeSpecChars spec ≠ [] := by
  intro hnil
  obtain ⟨d, hd, -⟩ := getLast_chars h
  rw [hnil] at hd
  cases hd

theorem Loose.getLast {inner : List Char} {pieces : List (List Char)} (h : Loose inner pieces)
    (hne : pieces ≠ []) (hpieces : ∀ x ∈ pieces, x ≠ []) :
    ∃ x ∈ pieces, inner.getLast? = x.getLast? := by
  induction h with
  | nil => exact absurd rfl hne
  | one x => exact ⟨x, mem_cons_self, rfl⟩
  | @more x gap y z pieces hgap hrest ih =>
    have hall : ∀ w ∈ z :: pieces, w ≠ [] := fun w hw => hpieces w (mem_cons_of_mem x hw)
    obtain ⟨w, hw, hlast⟩ := ih (cons_ne_nil z pieces) hall
    have hy : y ≠ [] := by
      rintro rfl
      exact hall w hw (getLast?_eq_none_iff.mp hlast.symm)
    refine ⟨w, mem_cons_of_mem x hw, ?_⟩
    rw [← hlast, getLast?_append_of_ne_nil _ (cons_ne_nil _ _), ← cons_append,
      getLast?_append_of_ne_nil _ hy]

theorem not_space_of_trimmed {x : List Char} {d : Char} (htrim : trimSpace x = x)
    (hlast : x.getLast? = some d) : isSpaceRune d = false := by
  have hhead := head?_dropWhile_not isSpaceRune (x.dropWhile isSpaceRune).reverse
  have hreverse : ((x.dropWhile isSpaceRune).reverse.dropWhile isSpaceRune) = x.reverse := by
    rw [← reverse_reverse (List.dropWhile _ _)]
    exact congrArg List.reverse htrim
  rw [hreverse, head?_reverse, hlast] at hhead
  exact hhead

section Finding

variable {inner : List Char} {pieces xs : List (List Char)}

theorem Loose.genericArguments_iff (h : Loose inner pieces) (hmap : pieces.map spaced = xs)
    (hpieces : ∀ x ∈ pieces, Passes x) (hne : xs ≠ [])
    (hxs : ∀ x ∈ xs, ∃ d, x.getLast? = some d ∧ d ≠ ',') :
    genericArguments 0 0 [] inner = some xs ↔ pieces.map trimSpace = xs := by
  have hxs' : ∀ x ∈ xs, x ≠ [] := by
    rintro x hx rfl
    obtain ⟨d, hd, -⟩ := hxs [] hx
    cases hd
  have hlength : xs.length = pieces.length := by rw [← hmap, length_map]
  rw [← h.functionParameters_iff hpieces hxs' hlength (Or.inl rfl) []]
  constructor
  · exact functionParameters_of_genericArguments
  · intro hfound
    obtain ⟨rfl, htrim⟩ := (trimmed_pieces_iff hmap).mp
      ((h.functionParameters_iff hpieces hxs' hlength (Or.inl rfl) []).mp hfound)
    obtain ⟨x, hx, hlast⟩ := h.getLast hne hxs'
    obtain ⟨d, hd, hcomma⟩ := hxs x hx
    rw [hd] at hlast
    exact genericArguments_of_functionParameters hlast (not_space_of_trimmed (htrim x hx) hd)
      hcomma hfound

end Finding

/-! ## Right splits -/

/-- The text of a specification has no white space at its ends. -/
def SpecTrimmed (spec : KIRTypeSpec) : Prop :=
  trimSpace (kirTypeSpecChars spec) = kirTypeSpecChars spec

/-- The scanners find what they are for in an encoded type: the parameters and the result of a
    function type, the arguments of a name, and nothing in a name alone. -/
def SplitsRight (encoded : String) : KIRTypeSpec → Prop
  | .node label children =>
    if label.function then
      ∃ params ret, children = params ++ [ret] ∧ parseKIRFunctionType encoded =
        some (params.map kirTypeSpecString, kirTypeSpecString ret)
    else if children = [] then
      splitKIRGenericArguments encoded label.name = none ∧ parseKIRContainerType encoded = none
    else
      splitKIRGenericArguments encoded label.name = some (children.map kirTypeSpecString) ∧
        parseKIRContainerType encoded = some (label.name, children.map kirTypeSpecString)

/-- Only spaces after the commas between the children are missing in a text, and the children
    have no white space at their ends. The scanner of containers needs children without open
    commas. -/
def SplitsAt (encoded : List Char) : KIRTypeSpec → Prop
  | .node label children =>
    (∀ c ∈ children, SpecTrimmed c) ∧
      if label.function then
        ∃ params ret inner, children = params ++ [ret] ∧
          encoded = 'f' :: 'n' :: '(' :: (inner ++
            ')' :: ' ' :: '-' :: '>' :: ' ' :: kirTypeSpecChars ret) ∧
          Loose inner (params.map kirTypeSpecChars)
      else if children = [] then True
      else
        (∃ inner, encoded = label.name.toList ++ '[' :: (inner ++ [']']) ∧
          Loose inner (children.map kirTypeSpecChars)) ∧ ∀ c ∈ children, specCommas c = 0

section SplitsRight

variable {encoded : String}

variable {specs : List KIRTypeSpec}

theorem map_spaced_chars (h : ∀ c ∈ specs, Named PlainName c) :
    (specs.map kirTypeSpecChars).map spaced = specs.map kirTypeSpecChars := by
  rw [List.map_map]
  exact List.map_congr_left fun c hc => spaced_chars (h c hc)

theorem map_specString_inj {found : List (List Char)} :
    found.map String.ofList = specs.map kirTypeSpecString ↔ found = specs.map kirTypeSpecChars := by
  constructor
  · intro h
    have htoList := congrArg (List.map String.toList) h
    simpa [Function.comp_def, kirTypeSpecString] using htoList
  · rintro rfl
    simp [Function.comp_def, kirTypeSpecString]

theorem splits_name {name : String} (hname : PlainName name.toList)
    (hspells : spaced encoded.toList = kirTypeSpecChars (namedSpec name [])) :
    splitKIRGenericArguments encoded name = none ∧ parseKIRContainerType encoded = none := by
  have htext := spells_name hname hspells
  constructor
  · rw [splitKIRGenericArguments, htext, if_neg]
    rintro ⟨hstarts, -⟩
    have hlength := (List.isPrefixOf_iff_prefix.mp hstarts).length_le
    rw [length_append, length_singleton] at hlength
    omega
  · have hdrop : name.toList.dropWhile (· != '[') = [] :=
      dropWhile_eq_nil_iff.mpr fun c hc => bne_iff_ne.mpr (hname.not_sign c hc).1
    rw [parseKIRContainerType, htext, hdrop]

section Arguments

variable {name : String} {args : List KIRTypeSpec} {inner : List Char}

theorem inner_ne_nil (hname : PlainName name.toList) (hne : args ≠ [])
    (hargs : ∀ a ∈ args, Named PlainName a)
    (hspells : spaced encoded.toList = kirTypeSpecChars (namedSpec name args))
    (htext : encoded.toList = name.toList ++ '[' :: (inner ++ [']'])) : inner ≠ [] := by
  rintro rfl
  obtain ⟨a, as, rfl⟩ := exists_cons_of_ne_nil hne
  rw [htext, chars_namedSpec name hne, spaced_parts hname.2, map_cons, joined] at hspells
  have hlength := congrArg List.length (append_cancel_left hspells)
  have hpos := length_pos_iff.mpr (chars_ne_nil (hargs a mem_cons_self))
  rw [nil_append, show spaced ['[', ']'] = ['[', ']'] from rfl] at hlength
  simp only [length_cons, length_nil, length_append] at hlength
  omega

theorem splitKIRGenericArguments_eq
    (htext : encoded.toList = name.toList ++ '[' :: (inner ++ [']'])) (hne : inner ≠ []) :
    splitKIRGenericArguments encoded name =
      (genericArguments 0 0 [] inner).map fun arguments => arguments.map String.ofList := by
  have hshape : name.toList ++ '[' :: (inner ++ [']']) =
      name.toList ++ ['['] ++ (inner ++ [']']) := by simp
  have hstarts : (name.toList ++ ['[']).isPrefixOf encoded.toList = true := by
    rw [List.isPrefixOf_iff_prefix, htext, hshape]
    exact prefix_append _ _
  have hlast : encoded.toList.getLast? = some ']' := by
    rw [htext, hshape, ← append_assoc]
    exact getLast?_concat
  have hdrop : (encoded.toList.drop (name.toList ++ ['[']).length).dropLast = inner := by
    rw [htext, hshape, drop_left, dropLast_concat]
  rw [splitKIRGenericArguments, if_pos ⟨hstarts, hlast⟩, hdrop, if_neg hne]

theorem parseKIRContainerType_eq (hname : PlainName name.toList)
    (htext : encoded.toList = name.toList ++ '[' :: (inner ++ [']'])) (hne : inner ≠ []) :
    parseKIRContainerType encoded =
      (containerArguments 0 [] inner).map fun arguments =>
        (name, arguments.map String.ofList) := by
  obtain ⟨htake, hdrop⟩ := span_name hname (inner ++ [']'])
  rw [parseKIRContainerType, htext, htake, hdrop]
  simp [hname.1, hne, String.ofList_toList]

theorem splits_pieces_iff {pieces : List (List Char)} (hname : PlainName name.toList)
    (hne : args ≠ []) (hargs : ∀ a ∈ args, Named PlainName a)
    (htext : encoded.toList = name.toList ++ '[' :: (inner ++ [']'])) (hinner : inner ≠ [])
    (hloose : Loose inner pieces) (hmap : pieces.map spaced = args.map kirTypeSpecChars) :
    (splitKIRGenericArguments encoded name = some (args.map kirTypeSpecString) ↔
      pieces.map trimSpace = args.map kirTypeSpecChars) ∧
    (parseKIRContainerType encoded = some (name, args.map kirTypeSpecString) ↔
      (∀ a ∈ args, specCommas a = 0) ∧ pieces.map trimSpace = args.map kirTypeSpecChars) := by
  have hpasses := spells_piece hmap fun a ha => passes_of_spells (hargs a ha)
  have hscans := scans_pieces (fun a ha => scans_of_spells (hargs a ha)) hmap
  have hlength : (args.map kirTypeSpecChars).length = pieces.length := by
    rw [← hmap, length_map]
  have hpieces : pieces ≠ [] := by
    rintro rfl
    exact hne (map_eq_nil_iff.mp hmap.symm)
  have hlast : ∀ x ∈ args.map kirTypeSpecChars, ∃ d, x.getLast? = some d ∧ d ≠ ',' := by
    intro x hx
    obtain ⟨a, ha, rfl⟩ := mem_map.mp hx
    exact getLast_chars (hargs a ha)
  constructor
  · rw [splitKIRGenericArguments_eq htext hinner, map_eq_some_iff,
      ← hloose.genericArguments_iff hmap hpasses (map_eq_nil_iff.not.mpr hne) hlast]
    constructor
    · rintro ⟨found, hfound, heq⟩
      rw [hfound, map_specString_inj.mp heq]
    · exact fun hfound => ⟨_, hfound, map_specString_inj.mpr rfl⟩
  · rw [parseKIRContainerType_eq hname htext hinner, map_eq_some_iff]
    have hcommas : (∀ a ∈ args, specCommas a = 0) ↔ ∀ n ∈ args.map specCommas, n = 0 := by
      rw [List.forall_mem_map]
    rw [hcommas, ← hloose.containerArguments_iff hpieces hscans hlength]
    constructor
    · rintro ⟨found, hfound, heq⟩
      rw [hfound, map_specString_inj.mp (congrArg Prod.snd heq)]
    · exact fun hfound => ⟨_, hfound, by rw [map_specString_inj.mpr rfl]⟩

/-- The scanners find the arguments of a name just when the text spells it but for spaces after
    the commas between them, and they have no white space at their ends and, for the scanner of
    containers, no open commas. -/
theorem splits_arguments_iff (hname : PlainName name.toList) (hne : args ≠ [])
    (hargs : ∀ a ∈ args, Named PlainName a)
    (hspells : spaced encoded.toList = kirTypeSpecChars (namedSpec name args)) :
    splitKIRGenericArguments encoded name = some (args.map kirTypeSpecString) ∧
        parseKIRContainerType encoded = some (name, args.map kirTypeSpecString) ↔
      (∀ a ∈ args, SpecTrimmed a) ∧ (∃ inner, encoded.toList =
        name.toList ++ '[' :: (inner ++ [']']) ∧ Loose inner (args.map kirTypeSpecChars)) ∧
        ∀ a ∈ args, specCommas a = 0 := by
  have hnil := fun inner => @inner_ne_nil encoded name args inner hname hne hargs hspells
  constructor
  · rintro ⟨hsplit, hcontainer⟩
    obtain ⟨inner, pieces, htext, hloose, hmap⟩ := spells_arguments hname hne hspells
    obtain ⟨hgeneric, hcommas⟩ :=
      splits_pieces_iff hname hne hargs htext (hnil inner htext) hloose hmap
    obtain ⟨rfl, htrim⟩ := (trimmed_pieces_iff hmap).mp (hgeneric.mp hsplit)
    exact ⟨fun a ha => htrim _ (mem_map_of_mem ha), ⟨inner, htext, hloose⟩,
      (hcommas.mp hcontainer).1⟩
  · rintro ⟨htrim, ⟨inner, htext, hloose⟩, hcommas⟩
    have hself := map_spaced_chars hargs
    have htrimmed : (args.map kirTypeSpecChars).map trimSpace = args.map kirTypeSpecChars := by
      refine (trimmed_pieces_iff hself).mpr ⟨rfl, ?_⟩
      intro x hx
      obtain ⟨a, ha, rfl⟩ := mem_map.mp hx
      exact htrim a ha
    obtain ⟨hgeneric, hcontainer⟩ :=
      splits_pieces_iff hname hne hargs htext (hnil inner htext) hloose hself
    exact ⟨hgeneric.mpr htrimmed, hcontainer.mpr ⟨hcommas, htrimmed⟩⟩

end Arguments

/-- The scanner of function types finds the parameters and the result just when the text spells
    it but for spaces after the commas between the parameters, and they have no white space at
    their ends. -/
theorem splits_function_iff {params : List KIRTypeSpec} {ret : KIRTypeSpec}
    (hparams : ∀ p ∈ params, Named PlainName p) (hret : Named PlainName ret)
    (hspells : spaced encoded.toList = kirTypeSpecChars (functionSpec params ret)) :
    parseKIRFunctionType encoded = some (params.map kirTypeSpecString, kirTypeSpecString ret) ↔
      (∀ c ∈ params ++ [ret], SpecTrimmed c) ∧ ∃ inner, encoded.toList =
        'f' :: 'n' :: '(' :: (inner ++ ')' :: ' ' :: '-' :: '>' :: ' ' :: kirTypeSpecChars ret) ∧
        Loose inner (params.map kirTypeSpecChars) := by
  have hnames : ∀ x ∈ params.map kirTypeSpecChars, x ≠ [] := by
    intro x hx
    obtain ⟨p, hp, rfl⟩ := mem_map.mp hx
    exact chars_ne_nil (hparams p hp)
  have hpieces : ∀ {pieces : List (List Char)}, pieces.map spaced = params.map kirTypeSpecChars →
      (params.map kirTypeSpecChars).length = pieces.length ∧ ∀ piece ∈ pieces, Passes piece := by
    intro pieces hmap
    refine ⟨by rw [← hmap, length_map], ?_⟩
    exact spells_piece hmap fun p hp => passes_of_spells (hparams p hp)
  obtain ⟨inner, pieces, result, htext, hloose, hmap, hresult⟩ := spells_function hspells
  constructor
  · intro hparse
    rw [parseKIRFunctionType, htext] at hparse
    simp only [bind_eq_some_iff, map_eq_some_iff, Prod.mk.injEq,
      Prod.exists] at hparse
    obtain ⟨found, rest, hfound, result', hresult', hparams', hret'⟩ := hparse
    obtain ⟨hlength, hpasses⟩ := hpieces hmap
    obtain rfl := hloose.functionParameters_after hpasses hfound
    rw [map_specString_inj.mp hparams', hloose.functionParameters_iff hpasses hnames hlength
      (Or.inl rfl), trimmed_pieces_iff hmap] at hfound
    obtain ⟨rfl, htrim⟩ := hfound
    rw [functionResult_eq] at hresult'
    split at hresult'
    · cases hresult'
    · have hsame : trimSpace result = spaced result := by
        rw [hresult, Option.some.inj hresult']
        exact String.ofList_injective hret'
      obtain ⟨hspaced, htrimmed⟩ := (trimSpace_eq_spaced_iff result).mp hsame
      have hrest : result = kirTypeSpecChars ret := by rw [← hresult, hspaced]
      refine ⟨?_, inner, by rw [← hrest]; exact htext, hloose⟩
      intro c hc
      rcases mem_append.mp hc with hc | hc
      · exact htrim _ (mem_map_of_mem hc)
      · rw [mem_singleton.mp hc, SpecTrimmed, ← hrest]
        exact htrimmed
  · rintro ⟨htrim, inner', htext', hloose'⟩
    have hself := map_spaced_chars hparams
    obtain ⟨hlength, hpasses⟩ := hpieces hself
    have htrimmed : (params.map kirTypeSpecChars).map trimSpace = params.map kirTypeSpecChars := by
      refine (trimmed_pieces_iff hself).mpr ⟨rfl, ?_⟩
      intro x hx
      obtain ⟨p, hp, rfl⟩ := mem_map.mp hx
      exact htrim p (mem_append_left _ hp)
    have hfound := (hloose'.functionParameters_iff hpasses hnames hlength (Or.inl rfl)
      (' ' :: '-' :: '>' :: ' ' :: kirTypeSpecChars ret)).mpr htrimmed
    have hlast : trimSpace (kirTypeSpecChars ret) = kirTypeSpecChars ret :=
      htrim ret (mem_append_right _ mem_cons_self)
    rw [parseKIRFunctionType, htext']
    simp only [hfound, bind_some, functionResult_eq, hlast, if_neg (chars_ne_nil hret),
      map_some, map_specString_inj.mpr rfl]
    rfl

theorem splitsRight_iff (h : Named PlainName spec)
    (hspells : spaced encoded.toList = kirTypeSpecChars spec) :
    SplitsRight encoded spec ↔ SplitsAt encoded.toList spec := by
  revert hspells
  refine Named.induction (P := fun spec => spaced encoded.toList = kirTypeSpecChars spec →
    (SplitsRight encoded spec ↔ SplitsAt encoded.toList spec)) ?_ ?_ spec h
  · intro name args hname hargs _ hspells
    rw [namedSpec, SplitsRight, SplitsAt, if_neg Bool.false_ne_true, if_neg Bool.false_ne_true]
    by_cases hnil : args = []
    · subst hnil
      rw [if_pos rfl, if_pos rfl]
      exact iff_of_true (splits_name hname hspells)
        ⟨fun _ hc => absurd hc not_mem_nil, trivial⟩
    · rw [if_neg hnil, if_neg hnil]
      exact splits_arguments_iff hname hnil hargs hspells
  · intro params ret hparams _ hret _ hspells
    have hsplits := splits_function_iff hparams hret hspells
    constructor
    · rintro ⟨params', ret', heq, hparse⟩
      obtain ⟨rfl, hlast⟩ := append_inj' heq rfl
      obtain rfl := singleton_inj.mp hlast
      obtain ⟨htrim, inner, htext, hloose⟩ := hsplits.mp hparse
      exact ⟨htrim, params, ret, inner, rfl, htext, hloose⟩
    · rintro ⟨htrim, params', ret', inner, heq, htext, hloose⟩
      obtain ⟨rfl, hlast⟩ := append_inj' heq rfl
      obtain rfl := singleton_inj.mp hlast
      exact ⟨params, ret, rfl, hsplits.mpr ⟨htrim, inner, htext, hloose⟩⟩

end SplitsRight

/-- What a specification prints is read back as it just when the lexer has room for it and no two
    of its internal names are written alike. A text that is accepted prints again, but for spaces
    after commas, and is split into the children of its type just when no two of its internal
    names are written alike, only spaces after the commas between the children are missing, and
    the children are such that the scanners find them. -/
theorem typeExpressions_iff (spec : KIRTypeSpec) :
    (Named IsTypeName spec →
      (parseKIRTypeExpressionUncached (kirTypeSpecString spec) = some spec ↔
        Fits (kirTypeSpecChars spec) ∧ NoClash (kirTypeSpecChars spec))) ∧
    ∀ encoded, parseKIRTypeExpressionUncached encoded = some spec → Named IsTypeName spec ∧
      (kirTypeSpecChars spec = spaced encoded.toList ∧ SplitsRight encoded spec ↔
        NoClash encoded.toList ∧ SplitsAt encoded.toList spec) := by
  constructor
  · intro hspec
    have hspells : spaced (kirTypeSpecString spec).toList = kirTypeSpecChars spec := by
      rw [kirTypeSpecString, String.toList_ofList,
        spaced_chars (hspec.mono fun _ hname => hname.plain)]
    have hiff := parse_iff hspec hspells
    rwa [kirTypeSpecString, String.toList_ofList] at hiff
  · intro encoded hparse
    refine ⟨parsed_isTypeName hparse, ?_⟩
    rw [reprints_iff hparse]
    have hsplits : NoClash encoded.toList →
        (SplitsRight encoded spec ↔ SplitsAt encoded.toList spec) := fun hclash =>
      splitsRight_iff (parsed_named hparse) ((reprints_iff hparse).mpr hclash).symm
    exact and_congr_right hsplits

/-! ## A map of functions, and names that are confused -/

theorem isIdentifier_of_all {name : List Char} (hstart : name.head?.any isIDStart = true)
    (hparts : name.all isIDPart = true) (hkind : wordKind name = .id) : IsIdentifier name := by
  cases name with
  | nil => cases hstart
  | cons c cs =>
    exact ⟨⟨c, cs, rfl, hstart, fun d hd =>
      all_eq_true.mp hparts d (mem_cons_of_mem c hd)⟩, hkind⟩

/-- `Map[A, fn(@0) -> T]` -/
def mapOfFunctions : KIRTypeSpec :=
  namedSpec "Map" [namedSpec "A" [], functionSpec [namedSpec "@0" []] (namedSpec "T" [])]

theorem isTypeName_mapOfFunctions : Named IsTypeName mapOfFunctions := by
  have hmap : IsIdentifier "Map".toList := isIdentifier_of_all (by decide) (by decide) (by decide)
  have ha : IsIdentifier "A".toList := isIdentifier_of_all (by decide) (by decide) (by decide)
  have ht : IsIdentifier "T".toList := isIdentifier_of_all (by decide) (by decide) (by decide)
  have hinternal : IsTypeName "@0".toList :=
    Or.inr ⟨['0'], rfl, cons_ne_nil _ _, all_eq_true.mp (by decide)⟩
  refine named_namedSpec (Or.inl hmap) (allNamed_iff.mp ⟨⟨Or.inl ha, trivial⟩, ?_, trivial⟩)
  exact named_functionSpec ⟨⟨hinternal, trivial⟩, trivial⟩ ⟨Or.inl ht, trivial⟩

theorem typeExpressions_map :
    (parseKIRTypeExpressionUncached (kirTypeSpecString mapOfFunctions) = some mapOfFunctions ↔
      Fits (kirTypeSpecChars mapOfFunctions) ∧ NoClash (kirTypeSpecChars mapOfFunctions)) ∧
    Named IsTypeName mapOfFunctions ∧
    (kirTypeSpecChars mapOfFunctions = spaced "Map[A,fn(@0) -> T]".toList ∧
        SplitsRight "Map[A,fn(@0) -> T]" mapOfFunctions ↔
      NoClash "Map[A,fn(@0) -> T]".toList ∧ SplitsAt "Map[A,fn(@0) -> T]".toList mapOfFunctions) :=
  ⟨(typeExpressions_iff mapOfFunctions).1 isTypeName_mapOfFunctions,
    (typeExpressions_iff mapOfFunctions).2 "Map[A,fn(@0) -> T]" (by decide +kernel)⟩

/-- An ordinary name can make the parser write one internal name as another. -/
theorem internal_names_confused :
    ∃ spec, Named IsTypeName spec ∧
      kirTypeSpecString spec = "P[KIRInternalTypea, @a, @aX0]" ∧
      parseKIRTypeExpressionUncached (kirTypeSpecString spec) ≠ some spec ∧
      (parseKIRTypeExpressionUncached (kirTypeSpecString spec)).map kirTypeSpecString =
        some "P[KIRInternalTypea, @aX0, @aX0]" := by
  have hp : IsIdentifier "P".toList := isIdentifier_of_all (by decide) (by decide) (by decide)
  have hk : IsIdentifier "KIRInternalTypea".toList :=
    isIdentifier_of_all (by decide) (by decide) (by decide)
  have ha : IsTypeName "@a".toList :=
    Or.inr ⟨['a'], rfl, cons_ne_nil _ _, all_eq_true.mp (by decide)⟩
  have hx : IsTypeName "@aX0".toList :=
    Or.inr ⟨['a', 'X', '0'], rfl, cons_ne_nil _ _, all_eq_true.mp (by decide)⟩
  refine ⟨namedSpec "P" [namedSpec "KIRInternalTypea" [], namedSpec "@a" [],
    namedSpec "@aX0" []], ?_, by decide +kernel, by decide +kernel, by decide +kernel⟩
  exact named_namedSpec (Or.inl hp) (allNamed_iff.mp ⟨⟨Or.inl hk, trivial⟩, ⟨ha, trivial⟩,
    ⟨hx, trivial⟩, trivial⟩)

end Kryndel
