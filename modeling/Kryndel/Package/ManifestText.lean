import Kryndel.Package.Manifest
import Kryndel.Package.Resolution
import Kryndel.Syntax.Source

/-!
# Manifests that are written are read again

What has been read from a manifest is free of comments, line ends and quotes, so that it can be
written and read again. A version that is added is not checked before it is written: the text
that is left behind is a manifest just for those versions that can be read.
-/

namespace Kryndel

open Systems List Option

/-! ## Characters of versions and constraints -/

/-- A character that a version or a constraint may have. -/
def IsVersionChar (c : Char) : Prop :=
  isSpaceRune c = true ∨ c.isDigit = true ∨ c ∈ ['v', '.', '*', '>', '=', '^', '~']

variable {c : Char}

theorem IsVersionChar.plain (h : IsVersionChar c) : c ≠ '#' ∧ c ≠ '"' := by
  constructor
  all_goals
    rintro rfl
    revert h
    simp [IsVersionChar]
    decide

theorem versionChars_of_trimSpace {text : List Char}
    (h : ∀ c ∈ trimSpace text, IsVersionChar c) : ∀ c ∈ text, IsVersionChar c := by
  intro c hc
  rcases mem_or_of_mem (p := isSpaceRune) hc with hspace | hin
  · exact .inl hspace
  · exact h c hin

theorem digits_of_parseComponent {part : List Char} {n : UInt64}
    (h : parseComponent part = some n) : ∀ c ∈ part, IsVersionChar c := by
  intro c hc
  rw [parseComponent] at h
  split at h
  · cases h
  · rw [parseUint] at h
    split at h
    · cases h
    · next hall =>
      simp only [Bool.or_eq_true, Bool.not_eq_true', not_or, Bool.not_eq_false,
        List.all_eq_true] at hall
      exact .inr (.inl (hall.2 c hc))

theorem chars_of_parseSemanticVersion {raw : String} {v : SemanticVersion}
    (h : parseSemanticVersion raw = some v) : ∀ c ∈ raw.toList, IsVersionChar c := by
  apply versionChars_of_trimSpace
  intro c hc
  simp only [parseSemanticVersion] at h
  split at h
  · next major minor patch hparts =>
    obtain ⟨x, hmajor, h⟩ := Option.bind_eq_some_iff.mp h
    obtain ⟨y, hminor, h⟩ := Option.bind_eq_some_iff.mp h
    obtain ⟨z, hpatch, -⟩ := Option.bind_eq_some_iff.mp h
    have hbody : ∀ d ∈ (if (trimSpace raw.toList).head? == some 'v' then
        (trimSpace raw.toList).tail else trimSpace raw.toList), IsVersionChar d := by
      intro d hd
      obtain rfl | ⟨piece, hpiece, hdpiece⟩ := mem_splitOn_of_mem (a := '.') hd
      · exact .inr (.inr (by simp))
      · rw [hparts] at hpiece
        simp only [List.mem_cons, List.not_mem_nil, or_false] at hpiece
        rcases hpiece with rfl | rfl | rfl
        · exact digits_of_parseComponent hmajor d hdpiece
        · exact digits_of_parseComponent hminor d hdpiece
        · exact digits_of_parseComponent hpatch d hdpiece
    split at hbody
    · next hhead =>
      cases hvalue : trimSpace raw.toList with
      | nil =>
        rw [hvalue] at hc
        cases hc
      | cons d rest =>
        rw [hvalue] at hc hhead hbody
        rcases List.mem_cons.mp hc with rfl | hc
        · rw [List.head?_cons, beq_iff_eq, Option.some.injEq] at hhead
          rw [hhead]
          exact .inr (.inr (by simp))
        · exact hbody c hc
    · exact hbody c hc
  · cases h

theorem chars_of_parseVersionConstraint {raw : String} {v : VersionConstraint}
    (h : parseVersionConstraint raw = some v) : ∀ c ∈ raw.toList, IsVersionChar c := by
  apply versionChars_of_trimSpace
  intro c hc
  -- the base of a constraint, with the spaces around it
  have hbase : ∀ {operator : ConstraintOperator} {base : List Char},
      (parseSemanticVersion (String.ofList base)).map (VersionConstraint.mk operator) = some v →
        ∀ d ∈ base, IsVersionChar d := by
    intro operator base h
    obtain ⟨version, hversion, -⟩ := Option.map_eq_some_iff.mp h
    have hchars := chars_of_parseSemanticVersion hversion
    rwa [String.toList_ofList] at hchars
  simp only [parseVersionConstraint] at h
  split at h
  · next hvalue =>
    rw [hvalue, List.mem_singleton] at hc
    rw [hc]
    exact .inr (.inr (by simp))
  · next base hvalue =>
    rw [hvalue, List.mem_cons, List.mem_cons] at hc
    rcases hc with rfl | rfl | hc
    · exact .inr (.inr (by simp))
    · exact .inr (.inr (by simp))
    · exact versionChars_of_trimSpace (hbase h) c hc
  · next base hvalue =>
    rw [hvalue, List.mem_cons] at hc
    rcases hc with rfl | hc
    · exact .inr (.inr (by simp))
    · exact versionChars_of_trimSpace (hbase h) c hc
  · next base hvalue =>
    rw [hvalue, List.mem_cons] at hc
    rcases hc with rfl | hc
    · exact .inr (.inr (by simp))
    · exact versionChars_of_trimSpace (hbase h) c hc
  · exact hbase h c hc

/-! ## One line -/

/-- The manifest is replaced, and the section stays. -/
def ManifestReader.put (st : ManifestReader) (m : ProjectManifest) : ManifestReader :=
  { st with manifest := m }

/-- A text that stays as it is when it is written between quotes. -/
def Plain (value : String) : Prop :=
  ∀ c ∈ value.toList, c ≠ '#' ∧ c ≠ '"' ∧ c ≠ '\n'

/-- A text that stays as it is when it is written before an equals sign. -/
def PlainKey (key : String) : Prop :=
  key ≠ "" ∧ ∀ c ∈ key.toList, c.isAlphanum = true ∨ c = '-' ∨ c = '_'

/-- The line of an entry. -/
def entryLine (key value : String) : List Char :=
  key.toList ++ ([' ', '=', ' ', '"'] ++ (value.toList ++ ['"']))

theorem formatEntry_eq (key value : String) :
    formatEntry key value = entryLine key value ++ ['\n'] := by
  have hmiddle : " = \"".toList = [' ', '=', ' ', '"'] := rfl
  have hend : "\"\n".toList = ['"', '\n'] := rfl
  simp [formatEntry, entryLine, hmiddle, hend]

theorem isSpaceRune_of_visible (hlow : 33 ≤ c.toNat) (hhigh : c.toNat ≤ 126) :
    isSpaceRune c = false := by
  simp only [isSpaceRune, List.contains_eq_mem, List.mem_cons, List.not_mem_nil, or_false,
    Bool.or_eq_false_iff, decide_eq_false_iff_not, Bool.and_eq_false_iff, not_or]
  omega

theorem PlainKey.char {key : String} (h : PlainKey key) {c : Char} (hc : c ∈ key.toList) :
    isSpaceRune c = false ∧ c ≠ '#' ∧ c ≠ '=' ∧ c ≠ '[' ∧ c ≠ '\n' := by
  have hrange : 45 ≤ c.toNat ∧ c.toNat ≤ 122 ∧ c.toNat ≠ 61 ∧ c.toNat ≠ 91 := by
    rcases h.2 c hc with halnum | rfl | rfl
    · have hval : c.toNat = c.val.toNat := rfl
      change ((decide (c.val ≥ 65 ∧ c.val ≤ 90) || decide (c.val ≥ 97) &&
        decide (c.val ≤ 122)) || decide (c.val ≥ 48) && decide (c.val ≤ 57)) = true at halnum
      simp only [Bool.or_eq_true, Bool.and_eq_true, decide_eq_true_eq, ge_iff_le,
        UInt32.le_iff_toNat_le] at halnum
      simp at halnum
      omega
    · decide
    · decide
  refine ⟨isSpaceRune_of_visible (by omega) (by omega), ?_, ?_, ?_, ?_⟩
  all_goals
    rintro rfl
    revert hrange
    decide

theorem trimSpace_eq_trimOf : trimSpace = trimOf isSpaceRune := rfl

variable {value key : String}

/-- The line of an entry is read as this entry. -/
theorem readManifestLine_entry {st : ManifestReader} (hkey : PlainKey key) (hvalue : Plain value) :
    readManifestLine st (entryLine key value) =
      (setEntry st.sectionName st.manifest key value).map st.put := by
  obtain ⟨first, others, hchars⟩ : ∃ first others, key.toList = first :: others := by
    cases h : key.toList with
    | nil => exact absurd (String.toList_eq_nil_iff.mp h) hkey.1
    | cons first others => exact ⟨first, others, rfl⟩
  have hfirst := hkey.char (by rw [hchars]; exact List.mem_cons_self)
  -- there is no comment, and no space around the line
  have hcut : (entryLine key value).takeWhile (· ≠ '#') = entryLine key value := by
    rw [List.takeWhile_eq_self_iff]
    intro c hc
    simp only [entryLine, List.mem_append, List.mem_cons, List.not_mem_nil, or_false] at hc
    rw [decide_eq_true_eq]
    rcases hc with hc | (rfl | rfl | rfl | rfl) | hc | rfl
    · exact (hkey.char hc).2.1
    · decide
    · decide
    · decide
    · decide
    · exact (hvalue c hc).1
    · decide
  have htrim : trimSpace (entryLine key value) = entryLine key value := by
    apply trimOf_eq_self
    · intro c hc
      rw [entryLine, hchars, List.cons_append, List.head?_cons, Option.mem_some_iff] at hc
      rw [← hc]
      exact hfirst.1
    · intro c hc
      rw [entryLine, ← List.append_assoc, ← List.append_assoc, List.getLast?_concat,
        Option.mem_some_iff] at hc
      rw [← hc]
      decide
  have hsplit : entryLine key value = (key.toList ++ [' ']) ++ '=' :: (' ' :: '"' ::
      (value.toList ++ ['"'])) := by
    simp [entryLine]
  -- the first equals sign is the one behind the key
  have hbefore : ∀ c ∈ key.toList ++ [' '], decide (c ≠ '=') = true := by
    intro c hc
    rw [decide_eq_true_eq]
    rcases List.mem_append.mp hc with hc | hc
    · exact (hkey.char hc).2.2.1
    · rw [List.mem_singleton.mp hc]
      decide
  have hkeyText : trimSpace (key.toList ++ [' ']) = key.toList := by
    rw [trimSpace_eq_trimOf, trimOf_concat (by decide)]
    apply trimOf_eq_self
    · exact fun c hc => (hkey.char (List.mem_of_mem_head? hc)).1
    · exact fun c hc => (hkey.char (List.mem_of_getLast? hc)).1
  have hvalueText : trimOf isQuote (trimSpace (' ' :: '"' :: (value.toList ++ ['"']))) =
      value.toList := by
    rw [trimSpace_eq_trimOf, trimOf_cons (by decide), trimOf_eq_self (p := isSpaceRune),
      trimOf_cons (by decide), trimOf_concat (by decide)]
    · have hnot : ∀ c ∈ value.toList, isQuote c = false := by
        intro c hc
        rw [isQuote, beq_eq_false_iff_ne]
        exact (hvalue c hc).2.1
      apply trimOf_eq_self
      · exact fun c hc => hnot c (List.mem_of_mem_head? hc)
      · exact fun c hc => hnot c (List.mem_of_getLast? hc)
    · intro c hc
      rw [List.head?_cons, Option.mem_some_iff] at hc
      rw [← hc]
      decide
    · intro c hc
      rw [← List.cons_append, List.getLast?_concat, Option.mem_some_iff] at hc
      rw [← hc]
      decide
  have hopen : ¬ ((entryLine key value).head? = some '[' ∧
      (entryLine key value).getLast? = some ']') := by
    intro h
    rw [entryLine, hchars, List.cons_append, List.head?_cons, Option.some.injEq] at h
    exact hfirst.2.2.2.1 h.1
  rw [readManifestLine, hcut, htrim, if_neg (by simp [entryLine]), if_neg hopen, hsplit,
    List.dropWhile_append_of_pos hbefore, List.takeWhile_append_of_pos hbefore,
    List.dropWhile_cons_of_neg (by decide), List.takeWhile_cons_of_neg (by decide)]
  simp only [List.append_nil, hkeyText, hvalueText, String.ofList_toList]
  cases setEntry st.sectionName st.manifest key value <;> rfl

/-! ## Headings and blank lines -/

/-- The line of a heading. -/
def headingLine (name : List Char) : List Char :=
  '[' :: (name ++ [']'])

variable {name : List Char}

theorem readManifestLine_heading {st : ManifestReader} (hname : '#' ∉ name)
    (hfirst : (name.head?.all fun c => !isBracket c) = true)
    (hlast : (name.getLast?.all fun c => !isBracket c) = true) :
    readManifestLine st (headingLine name) = .ok { st with sectionName := name } := by
  have hends : ∀ {o : Option Char}, (o.all fun c => !isBracket c) = true →
      ∀ c ∈ o, isBracket c = false := by
    intro o h c hc
    subst hc
    simpa using h
  have hcut : (headingLine name).takeWhile (· ≠ '#') = headingLine name := by
    rw [List.takeWhile_eq_self_iff]
    intro c hc
    simp only [headingLine, List.mem_append, List.mem_cons, List.not_mem_nil, or_false] at hc
    rw [decide_eq_true_eq]
    rcases hc with rfl | hc | rfl
    · decide
    · rintro rfl
      exact hname hc
    · decide
  have htrim : trimSpace (headingLine name) = headingLine name := by
    rw [trimSpace_eq_trimOf]
    apply trimOf_eq_self
    · intro c hc
      rw [headingLine, List.head?_cons, Option.mem_some_iff] at hc
      rw [← hc]
      decide
    · intro c hc
      rw [headingLine, ← List.cons_append, List.getLast?_concat, Option.mem_some_iff] at hc
      rw [← hc]
      decide
  have hbrackets : (headingLine name).head? = some '[' ∧
      (headingLine name).getLast? = some ']' := by
    refine ⟨rfl, ?_⟩
    rw [headingLine, ← List.cons_append, List.getLast?_concat]
  rw [readManifestLine, hcut, htrim, if_neg (by simp [headingLine]), if_pos hbrackets, headingLine,
    trimOf_cons (by decide), trimOf_concat (by decide), trimOf_eq_self (hends hfirst) (hends hlast)]

/-! ## Parts of a text -/

/-- Whatever follows it, the text consists of lines that take the reader from one state to
    another. -/
def Takes (text : List Char) (st st' : ManifestReader) : Prop :=
  ∃ lines, (∀ rest, readLines (text ++ rest) = lines ++ readLines rest) ∧
    lines.foldlM readManifestLine st = .ok st'

theorem Takes.refl (st : ManifestReader) : Takes [] st st :=
  ⟨[], fun _ => rfl, rfl⟩

theorem Takes.append {text text' : List Char} {st st' st'' : ManifestReader}
    (h : Takes text st st') (h' : Takes text' st' st'') : Takes (text ++ text') st st'' := by
  obtain ⟨lines, hlines, hfold⟩ := h
  obtain ⟨lines', hlines', hfold'⟩ := h'
  refine ⟨lines ++ lines', fun rest => ?_, ?_⟩
  · rw [List.append_assoc, hlines, hlines', List.append_assoc]
  · rw [List.foldlM_append, hfold]
    exact hfold'

theorem takes_line {line : List Char} {st st' : ManifestReader} (hline : '\n' ∉ line)
    (hlast : line.getLast? ≠ some '\r') (h : readManifestLine st line = .ok st') :
    Takes (line ++ ['\n']) st st' := by
  refine ⟨[line], fun rest => ?_, ?_⟩
  · rw [List.append_assoc, List.singleton_append, readLines_line hline hlast]
    rfl
  · rw [List.foldlM_cons, h]
    rfl

theorem takes_blank (st : ManifestReader) : Takes ['\n'] st st :=
  @takes_line [] _ _ List.not_mem_nil (by simp) rfl

theorem takes_heading {name : List Char} (st : ManifestReader) (hcomment : '#' ∉ name)
    (hline : '\n' ∉ name) (hfirst : (name.head?.all fun c => !isBracket c) = true)
    (hlast : (name.getLast?.all fun c => !isBracket c) = true) :
    Takes (headingLine name ++ ['\n']) st { st with sectionName := name } := by
  apply takes_line
  · simp only [headingLine, List.mem_append, List.mem_cons, List.not_mem_nil, or_false, not_or]
    exact ⟨by decide, hline, by decide⟩
  · rw [headingLine, ← List.cons_append, List.getLast?_concat]
    decide
  · exact readManifestLine_heading hcomment hfirst hlast

theorem takes_entry {st : ManifestReader} {m : ProjectManifest} (hkey : PlainKey key)
    (hvalue : Plain value) (hset : setEntry st.sectionName st.manifest key value = .ok m) :
    Takes (formatEntry key value) st (st.put m) := by
  rw [formatEntry_eq]
  apply takes_line
  · simp only [entryLine, List.mem_append, List.mem_cons, List.not_mem_nil, or_false, not_or]
    exact ⟨fun h => (hkey.char h).2.2.2.2 rfl, by decide, fun h => (hvalue _ h).2.2 rfl, by decide⟩
  · rw [entryLine, ← List.append_assoc, ← List.append_assoc, List.getLast?_concat]
    decide
  · rw [readManifestLine_entry hkey hvalue, hset]
    rfl

/-! ## What the parts of a manifest are read as -/

/-- Some keys of a map, put into another one. -/
def insertAll {β : Type} (value : String → β) (keys : List String) (m : StringMap β) :
    StringMap β :=
  keys.foldl (fun m key => m.insert key (value key)) m

variable {β : Type}

theorem lookup_insertAll (value : String → β) (keys : List String) (m : StringMap β)
    (key : String) :
    (insertAll value keys m).lookup key =
      if key ∈ keys then some (value key) else m.lookup key := by
  induction keys generalizing m with
  | nil => simp [insertAll]
  | cons first keys ih =>
    rw [insertAll, List.foldl_cons, ← insertAll, ih]
    by_cases hin : key ∈ keys
    · rw [if_pos hin, if_pos (List.mem_cons_of_mem _ hin)]
    · rw [if_neg hin]
      by_cases hfirst : key = first
      · rw [hfirst, AList.lookup_insert, if_pos List.mem_cons_self]
      · rw [AList.lookup_insert_ne hfirst, if_neg (by simp [hfirst, hin])]

theorem lookup_insertAll_sortedKeys (m : StringMap β) (default : β) (key : String) :
    (insertAll (fun key => (m.lookup key).getD default) (sortedKeys m) ∅).lookup key =
      m.lookup key := by
  rw [lookup_insertAll]
  split
  · next hin =>
    rw [sortedKeys, List.mem_insertionSort] at hin
    obtain ⟨value, hvalue⟩ := Option.isSome_iff_exists.mp
      (AList.lookup_isSome.mpr (AList.mem_keys.mpr hin))
    rw [hvalue, Option.getD_some]
  · next hout =>
    rw [sortedKeys, List.mem_insertionSort, ← AList.mem_keys] at hout
    rw [AList.lookup_eq_none.mpr hout, AList.lookup_empty]

/-- The section of the dependencies for a target. -/
def targetSection (target : String) : List Char :=
  targetStart ++ (target.toList ++ targetEnd)

theorem targetOfSection_targetSection (target : String) :
    targetOfSection (targetSection target) = some target := by
  have hends : targetStart <+: targetSection target ∧ targetEnd <:+ targetSection target :=
    ⟨⟨target.toList ++ targetEnd, rfl⟩, ⟨targetStart ++ target.toList, List.append_assoc _ _ _⟩⟩
  rw [targetOfSection, if_pos hends, targetSection, trimPrefix_append, trimSuffix_append,
    String.ofList_toList]

theorem targetStart_eq : targetStart = ['t', 'a', 'r', 'g', 'e', 't', '.'] := by
  unfold targetStart
  rfl

theorem targetSection_ne (target : String) :
    targetSection target ≠ "package".toList ∧ targetSection target ≠ "dependencies".toList := by
  have hpackage : "package".toList = ['p', 'a', 'c', 'k', 'a', 'g', 'e'] := rfl
  have hdependencies : "dependencies".toList =
      ['d', 'e', 'p', 'e', 'n', 'd', 'e', 'n', 'c', 'i', 'e', 's'] := rfl
  rw [targetSection, targetStart_eq, hpackage, hdependencies]
  simp

/-- Dependencies that can be written. -/
def DependenciesPlain (dependencies : StringMap String) : Prop :=
  ∀ key value, dependencies.lookup key = some value → PlainKey key ∧ Plain value

section Entries

variable {dependencies : StringMap String}

theorem DependenciesPlain.entry (h : DependenciesPlain dependencies) (hkey : key ∈ dependencies) :
    PlainKey key ∧ Plain ((dependencies.lookup key).getD "") := by
  obtain ⟨value, hvalue⟩ := Option.isSome_iff_exists.mp (AList.lookup_isSome.mpr hkey)
  rw [hvalue]
  exact h key value hvalue

theorem takes_dependencies (hplain : DependenciesPlain dependencies) {st : ManifestReader}
    (hsection : st.sectionName = "dependencies".toList) {keys : List String}
    (hkeys : ∀ key ∈ keys, key ∈ dependencies) :
    Takes (keys.flatMap fun key => formatEntry key ((dependencies.lookup key).getD "")) st
      (st.put { st.manifest with
        dependencies := insertAll (fun key => (dependencies.lookup key).getD "") keys
          st.manifest.dependencies }) := by
  induction keys generalizing st with
  | nil => exact Takes.refl st
  | cons key keys ih =>
    have hentry := hplain.entry (hkeys key List.mem_cons_self)
    have hset : setEntry st.sectionName st.manifest key ((dependencies.lookup key).getD "") =
        .ok { st.manifest with
          dependencies := st.manifest.dependencies.insert key
            ((dependencies.lookup key).getD "") } := by
      rw [hsection, setEntry, if_neg (by decide), if_pos rfl]
    exact (takes_entry hentry.1 hentry.2 hset).append
      (ih hsection fun k hk => hkeys k (List.mem_cons_of_mem _ hk))

theorem takes_targetEntries (hplain : DependenciesPlain dependencies) {st : ManifestReader}
    {target : String} (hsection : st.sectionName = targetSection target) {keys : List String}
    (hne : keys ≠ []) (hkeys : ∀ key ∈ keys, key ∈ dependencies) :
    Takes (keys.flatMap fun key => formatEntry key ((dependencies.lookup key).getD "")) st
      (st.put { st.manifest with
        targetDependencies := st.manifest.targetDependencies.insert target
          (insertAll (fun key => (dependencies.lookup key).getD "") keys
            ((st.manifest.targetDependencies.lookup target).getD ∅)) }) := by
  induction keys generalizing st with
  | nil => exact absurd rfl hne
  | cons key keys ih =>
    have hentry := hplain.entry (hkeys key List.mem_cons_self)
    have hset : setEntry st.sectionName st.manifest key ((dependencies.lookup key).getD "") =
        .ok { st.manifest with
          targetDependencies := st.manifest.targetDependencies.insert target
            (((st.manifest.targetDependencies.lookup target).getD ∅).insert key
              ((dependencies.lookup key).getD "")) } := by
      rw [hsection, setEntry, if_neg (targetSection_ne target).1,
        if_neg (targetSection_ne target).2, targetOfSection_targetSection]
    have hfirst := takes_entry hentry.1 hentry.2 hset
    rw [List.flatMap_cons]
    cases keys with
    | nil =>
      rw [List.flatMap_nil, List.append_nil]
      exact hfirst
    | cons next keys =>
      -- each further entry writes the map for the target again
      have hrest := @ih (st.put { st.manifest with
        targetDependencies := st.manifest.targetDependencies.insert target
          (((st.manifest.targetDependencies.lookup target).getD ∅).insert key
            ((dependencies.lookup key).getD "")) }) hsection
        (by simp) fun k hk => hkeys k (List.mem_cons_of_mem _ hk)
      simp only [ManifestReader.put, AList.lookup_insert, Option.getD_some,
        AList.insert_insert] at hrest
      exact hfirst.append hrest

end Entries

/-- The dependencies that are read where `dependencies` have been written. -/
def rewritten (dependencies : StringMap String) : StringMap String :=
  insertAll (fun key => (dependencies.lookup key).getD "") (sortedKeys dependencies) ∅

/-- A target that can be written, with its dependencies: there is at least one. -/
structure TargetPlain (target : String) (dependencies : StringMap String) : Prop where
  plain : DependenciesPlain dependencies
  comment : '#' ∉ target.toList
  line : '\n' ∉ target.toList
  some_entry : sortedKeys dependencies ≠ []

theorem mem_of_mem_sortedKeys {m : StringMap β} (h : key ∈ sortedKeys m) : key ∈ m := by
  rw [sortedKeys, List.mem_insertionSort] at h
  exact AList.mem_keys.mpr h

theorem takes_targetHeading {target : String} (st : ManifestReader)
    (hcomment : '#' ∉ target.toList) (hline : '\n' ∉ target.toList) :
    Takes ("\n[target.".toList ++ target.toList ++ ".dependencies]\n".toList) st
      { st with sectionName := targetSection target } := by
  have hstart : "\n[target.".toList = '\n' :: '[' :: targetStart := by
    unfold targetStart
    rfl
  have hend : ".dependencies]\n".toList = targetEnd ++ [']', '\n'] := by
    unfold targetEnd
    rfl
  have htargetEnd : targetEnd =
      ['.', 'd', 'e', 'p', 'e', 'n', 'd', 'e', 'n', 'c', 'i', 'e'] ++ ['s'] := by
    unfold targetEnd
    rfl
  have htext : "\n[target.".toList ++ target.toList ++ ".dependencies]\n".toList =
      ['\n'] ++ (headingLine (targetSection target) ++ ['\n']) := by
    rw [hstart, hend]
    simp [headingLine, targetSection]
  rw [htext]
  refine (takes_blank st).append (takes_heading st ?_ ?_ ?_ ?_)
  · rw [targetSection, targetStart_eq, htargetEnd]
    simp [hcomment]
  · rw [targetSection, targetStart_eq, htargetEnd]
    simp [hline]
  · rw [targetSection, targetStart_eq, List.cons_append, List.head?_cons]
    decide
  · rw [targetSection, htargetEnd, ← List.append_assoc, ← List.append_assoc, List.getLast?_concat]
    decide

theorem takes_targets {targets : List String} {value : String → StringMap String}
    (hplain : ∀ target ∈ targets, TargetPlain target (value target)) (hnodup : targets.Nodup)
    {st : ManifestReader}
    (hfresh : ∀ target ∈ targets, st.manifest.targetDependencies.lookup target = none) :
    ∃ name, Takes (targets.flatMap fun target =>
        "\n[target.".toList ++ target.toList ++ ".dependencies]\n".toList ++
          formatDependencies (value target)) st
      ⟨name, { st.manifest with
        targetDependencies := insertAll (fun target => rewritten (value target)) targets
          st.manifest.targetDependencies }⟩ := by
  induction targets generalizing st with
  | nil => exact ⟨st.sectionName, Takes.refl st⟩
  | cons target targets ih =>
    obtain ⟨hplainTarget, hcomment, hline, hentry⟩ := hplain target List.mem_cons_self
    rw [List.nodup_cons] at hnodup
    have hheading := takes_targetHeading st hcomment hline
    have hentries := @takes_targetEntries _ hplainTarget
      { st with sectionName := targetSection target } target rfl _ hentry
      fun key hkey => mem_of_mem_sortedKeys hkey
    have hempty : (st.manifest.targetDependencies.lookup target).getD ∅ = ∅ := by
      rw [hfresh target List.mem_cons_self]
      rfl
    obtain ⟨name, hrest⟩ := @ih (fun t ht => hplain t (List.mem_cons_of_mem _ ht)) hnodup.2
      ⟨targetSection target, { st.manifest with
        targetDependencies := st.manifest.targetDependencies.insert target
          (rewritten (value target)) }⟩ (by
        intro t ht
        have hother : t ≠ target := by
          intro heq
          exact hnodup.1 (heq ▸ ht)
        rw [AList.lookup_insert_ne hother]
        exact hfresh t (List.mem_cons_of_mem _ ht))
    refine ⟨name, ?_⟩
    simp only [ManifestReader.put, hempty] at hentries
    rw [List.flatMap_cons]
    exact (hheading.append hentries).append hrest

/-! ## Manifests that can be written -/

/-- Dependencies that pass the checks and have no line ends in them. -/
def DependenciesSound (dependencies : StringMap String) : Prop :=
  ∀ key value, dependencies.lookup key = some value → validPackageName key = true ∧
    (parseVersionConstraint value).isSome ∧ '\n' ∉ value.toList

/-- A manifest that passes the checks, with fields that stand in one line. -/
structure ManifestSound (m : ProjectManifest) : Prop where
  name : validPackageName m.name = true
  version : validVersion m.version = true ∧ '\n' ∉ m.version.toList
  kryndel : (parseVersionConstraint m.kryndel).isSome ∧ '\n' ∉ m.kryndel.toList
  language : m.languageVersion = currentLanguageVersion
  dependencies : DependenciesSound m.dependencies
  targets : ∀ target dependencies, m.targetDependencies.lookup target = some dependencies →
    DependenciesSound dependencies ∧ '#' ∉ target.toList ∧ '\n' ∉ target.toList ∧
      sortedKeys dependencies ≠ []

/-- Maps with the same entries. -/
def SameMap (a b : StringMap String) : Prop :=
  ∀ key, a.lookup key = b.lookup key

/-- Manifests with the same fields and entries. -/
structure SameManifest (a b : ProjectManifest) : Prop where
  name : a.name = b.name
  version : a.version = b.version
  kryndel : a.kryndel = b.kryndel
  language : a.languageVersion = b.languageVersion
  dependencies : SameMap a.dependencies b.dependencies
  targets : ∀ target,
    Option.Rel SameMap (a.targetDependencies.lookup target) (b.targetDependencies.lookup target)

section Sound

variable {dependencies : StringMap String} {m : ProjectManifest}

theorem plainKey_of_valid {name : String} (h : validPackageName name = true) : PlainKey name := by
  simp only [validPackageName, Bool.and_eq_true, Bool.not_eq_true', String.isEmpty_eq_false_iff,
    List.all_eq_true, Bool.or_eq_true, beq_iff_eq] at h
  refine ⟨h.1.1, fun c hc => ?_⟩
  rcases h.2 c hc with (hc | hc) | hc
  · exact .inr (.inl hc)
  · exact .inr (.inr hc)
  · exact .inl hc

theorem plain_of_valid {name : String} (h : validPackageName name = true) : Plain name := by
  intro c hc
  have hchar := (plainKey_of_valid h).char hc
  refine ⟨hchar.2.1, ?_, hchar.2.2.2.2⟩
  rintro rfl
  rcases (plainKey_of_valid h).2 '"' hc with h | h | h <;> revert h <;> decide

theorem plain_of_versionChars (h : ∀ c ∈ value.toList, IsVersionChar c)
    (hline : '\n' ∉ value.toList) : Plain value := by
  intro c hc
  refine ⟨(h c hc).plain.1, (h c hc).plain.2, ?_⟩
  rintro rfl
  exact hline hc

theorem plain_of_constraint (h : (parseVersionConstraint value).isSome)
    (hline : '\n' ∉ value.toList) : Plain value := by
  obtain ⟨c, hc⟩ := isSome_iff_exists.mp h
  exact plain_of_versionChars (chars_of_parseVersionConstraint hc) hline

theorem DependenciesSound.plain (h : DependenciesSound dependencies) :
    DependenciesPlain dependencies := by
  intro key value hvalue
  obtain ⟨hkey, hconstraint, hline⟩ := h key value hvalue
  exact ⟨plainKey_of_valid hkey, plain_of_constraint hconstraint hline⟩

theorem forM_eq_ok {α ε : Type} {f : α → Except ε Unit} {l : List α} :
    l.forM f = .ok () ↔ ∀ a ∈ l, f a = .ok () := by
  induction l with
  | nil => simp [pure, Except.pure]
  | cons a l ih =>
    show (f a >>= fun _ => l.forM f) = _ ↔ _
    rw [bind_eq_ok_iff, forall_mem_cons, ← ih]
    constructor
    · intro h
      obtain ⟨_, ha, hl⟩ := h
      exact ⟨ha, hl⟩
    · intro h
      exact ⟨(), h⟩

theorem validateDependencyConstraints_eq_ok : validateDependencyConstraints dependencies = .ok () ↔
    ∀ key value, dependencies.lookup key = some value → validPackageName key = true ∧
      (parseVersionConstraint value).isSome := by
  have hentry : ∀ key value,
      (⟨key, value⟩ : Sigma fun _ : String => String) ∈ dependencies.entries ↔
      dependencies.lookup key = some value := fun key value => AList.mem_lookup_iff.symm
  rw [validateDependencyConstraints, forM_eq_ok]
  constructor
  · intro h key value hvalue
    have hchecks := h ⟨key, value⟩ ((hentry key value).mpr hvalue)
    by_cases hname : validPackageName key = true
    · by_cases hconstraint : (parseVersionConstraint value).isSome
      · exact ⟨hname, hconstraint⟩
      · rw [not_isSome_iff_eq_none] at hconstraint
        simp [hname, hconstraint, throw, throwThe, MonadExceptOf.throw] at hchecks
    · simp [hname, throw, throwThe, MonadExceptOf.throw, bind, Except.bind] at hchecks
  · intro h entry hmem
    obtain ⟨hname, hconstraint⟩ := h entry.1 entry.2 ((hentry entry.1 entry.2).mp hmem)
    obtain ⟨c, hc⟩ := isSome_iff_exists.mp hconstraint
    simp [hname, hc, pure, Except.pure]

theorem validated_of_same {dependencies' : StringMap String} (h : DependenciesSound dependencies)
    (hsame : SameMap dependencies' dependencies) :
    validateDependencyConstraints dependencies' = .ok () := by
  rw [validateDependencyConstraints_eq_ok]
  intro key value hvalue
  rw [hsame key] at hvalue
  obtain ⟨hkey, hconstraint, -⟩ := h key value hvalue
  exact ⟨hkey, hconstraint⟩

theorem ProjectManifest.checkLanguage_eq_ok {version : String} :
    ProjectManifest.checkLanguage version = .ok () ↔ version = currentLanguageVersion := by
  constructor
  · intro h
    rw [ProjectManifest.checkLanguage] at h
    split at h
    · cases h
    · split at h
      · cases h
      · next heq => exact not_not.mp heq
  · intro h
    have hvalid : ProjectManifest.validLanguage currentLanguageVersion = true := by decide
    simp [ProjectManifest.checkLanguage, h, hvalid]

theorem checkManifest_eq_ok : checkManifest m = .ok () ↔
    validPackageName m.name = true ∧ validVersion m.version = true ∧
      (parseVersionConstraint m.kryndel).isSome ∧
      validateDependencyConstraints m.dependencies = .ok () ∧
      (∀ target dependencies, m.targetDependencies.lookup target = some dependencies →
        validateDependencyConstraints dependencies = .ok ()) ∧
      m.languageVersion = currentLanguageVersion := by
  have hrest : (do
      (validateDependencyConstraints m.dependencies).mapError ManifestError.dependency
      m.targetDependencies.entries.forM fun entry =>
        (validateDependencyConstraints entry.2).mapError (ManifestError.targetDependency entry.1)
      ProjectManifest.checkLanguage m.languageVersion) = .ok () ↔
      validateDependencyConstraints m.dependencies = .ok () ∧
      (∀ target dependencies, m.targetDependencies.lookup target = some dependencies →
        validateDependencyConstraints dependencies = .ok ()) ∧
      m.languageVersion = currentLanguageVersion := by
    simp only [bind_eq_ok_iff, mapError_eq_ok, ProjectManifest.checkLanguage_eq_ok]
    constructor
    · intro h
      obtain ⟨_, hdependencies, _, htargets, hlanguage⟩ := h
      refine ⟨hdependencies, fun target dependencies hlookup => ?_, hlanguage⟩
      have htarget := forM_eq_ok.mp htargets ⟨target, dependencies⟩
        (AList.mem_lookup_iff.mp hlookup)
      exact mapError_eq_ok.mp htarget
    · intro h
      obtain ⟨hdependencies, htargets, hlanguage⟩ := h
      refine ⟨(), hdependencies, (), forM_eq_ok.mpr fun entry hentry => ?_, hlanguage⟩
      exact mapError_eq_ok.mpr (htargets entry.1 entry.2 (AList.mem_lookup_iff.mpr hentry))
  rw [← hrest, checkManifest]
  by_cases hname : validPackageName m.name = true
  · by_cases hversion : validVersion m.version = true
    · cases hkryndel : parseVersionConstraint m.kryndel with
      | none =>
        by_cases hempty : m.kryndel = "" <;>
          simp [hname, hversion, hempty, throw, throwThe, MonadExceptOf.throw, bind, Except.bind]
      | some c =>
        have hsome : m.kryndel ≠ "" := by
          intro hempty
          have hnone : parseVersionConstraint "" = none := by decide
          rw [hempty, hnone] at hkryndel
          cases hkryndel
        simp [hname, hversion, hsome]
    · simp [hname, hversion, throw, throwThe, MonadExceptOf.throw, bind, Except.bind]
  · simp [hname, throw, throwThe, MonadExceptOf.throw, bind, Except.bind]

theorem takes_packageEntry {st : ManifestReader} {m' : ProjectManifest}
    (hsection : st.sectionName = "package".toList) (hkey : validPackageName key = true)
    (hvalue : Plain value) (hset : setEntry "package".toList st.manifest key value = .ok m') :
    Takes (formatEntry key value) st (st.put m') := by
  apply takes_entry (plainKey_of_valid hkey) hvalue
  rw [hsection, hset]

/-- What is written is read again. -/
theorem parse_format (h : ManifestSound m) :
    ∃ m', parseManifest (formatManifest m) = .ok m' ∧ SameManifest m' m := by
  have hlanguage : (if m.languageVersion = "" then currentLanguageVersion
      else m.languageVersion) = currentLanguageVersion := by
    rw [h.language]
    decide
  have hversion : Plain m.version := by
    obtain ⟨v, hv⟩ := isSome_iff_exists.mp h.version.1
    exact plain_of_versionChars (chars_of_parseSemanticVersion hv) h.version.2
  have hkryndel := plain_of_constraint h.kryndel.1 h.kryndel.2
  have hpackage : Takes "[package]\n".toList {} { sectionName := "package".toList } :=
    @takes_heading "package".toList {} (by decide) (by decide) (by decide) (by decide)
  have hname : Takes (formatEntry "name" m.name) { sectionName := "package".toList }
      ⟨"package".toList, { name := m.name }⟩ :=
    takes_packageEntry rfl (by decide) (plain_of_valid h.name) (by simp [setEntry])
  have hversion' : Takes (formatEntry "version" m.version) ⟨"package".toList, { name := m.name }⟩
      ⟨"package".toList, { name := m.name, version := m.version }⟩ :=
    takes_packageEntry rfl (by decide) hversion (by simp [setEntry])
  have hkryndel' : Takes (formatEntry "kryndel" m.kryndel)
      ⟨"package".toList, { name := m.name, version := m.version }⟩
      ⟨"package".toList, { name := m.name, version := m.version, kryndel := m.kryndel }⟩ :=
    takes_packageEntry rfl (by decide) hkryndel (by simp [setEntry])
  have hlanguage' : Takes (formatEntry "language_version" currentLanguageVersion)
      ⟨"package".toList, { name := m.name, version := m.version, kryndel := m.kryndel }⟩
      ⟨"package".toList, { name := m.name, version := m.version, kryndel := m.kryndel }⟩ :=
    takes_packageEntry rfl (by decide)
      (plain_of_constraint (by decide) (by decide)) (by simp [setEntry])
  have hheading : Takes "\n[dependencies]\n".toList
      ⟨"package".toList, { name := m.name, version := m.version, kryndel := m.kryndel }⟩
      ⟨"dependencies".toList, { name := m.name, version := m.version, kryndel := m.kryndel }⟩ :=
    (takes_blank _).append (@takes_heading "dependencies".toList _ (by decide) (by decide)
      (by decide) (by decide))
  have hdependencies : Takes (formatDependencies m.dependencies)
      ⟨"dependencies".toList, { name := m.name, version := m.version, kryndel := m.kryndel }⟩
      ⟨"dependencies".toList, {
        name := m.name, version := m.version, kryndel := m.kryndel
        dependencies := rewritten m.dependencies }⟩ :=
    takes_dependencies h.dependencies.plain rfl fun key hkey => mem_of_mem_sortedKeys hkey
  have htargetPlain : ∀ target ∈ sortedKeys m.targetDependencies,
      TargetPlain target ((m.targetDependencies.lookup target).getD ∅) := by
    intro target htarget
    obtain ⟨dependencies, hlookup⟩ := isSome_iff_exists.mp
      (AList.lookup_isSome.mpr (mem_of_mem_sortedKeys htarget))
    obtain ⟨hsound, hcomment, hline, hne⟩ := h.targets target dependencies hlookup
    rw [hlookup, getD_some]
    exact ⟨hsound.plain, hcomment, hline, hne⟩
  have hnodup : (sortedKeys m.targetDependencies).Nodup :=
    (perm_insertionSort _ _).nodup_iff.mpr m.targetDependencies.keys_nodup
  obtain ⟨name, htargets⟩ := @takes_targets (sortedKeys m.targetDependencies)
    (fun target => (m.targetDependencies.lookup target).getD ∅) htargetPlain hnodup
    ⟨"dependencies".toList, {
      name := m.name, version := m.version, kryndel := m.kryndel,
      dependencies := rewritten m.dependencies }⟩ fun target _ => AList.lookup_empty target
  have hall := ((((((hpackage.append hname).append hversion').append hkryndel').append
    hlanguage').append hheading).append hdependencies).append htargets
  obtain ⟨lines, hlines, hfold⟩ := hall
  have hread : readLines (formatManifest m) = lines ++ [[]] := by
    have hnil := hlines []
    rw [append_nil, readLines_nil] at hnil
    rw [← hnil]
    apply congrArg
    unfold formatManifest
    simp only [hlanguage]
  have hsame : ∀ target, Option.Rel SameMap
      ((insertAll (fun target => rewritten ((m.targetDependencies.lookup target).getD ∅))
        (sortedKeys m.targetDependencies) ∅).lookup target)
      (m.targetDependencies.lookup target) := by
    intro target
    rw [lookup_insertAll]
    split
    · next hin =>
      obtain ⟨dependencies, hlookup⟩ := isSome_iff_exists.mp
        (AList.lookup_isSome.mpr (mem_of_mem_sortedKeys hin))
      rw [hlookup, getD_some]
      exact .some fun key => lookup_insertAll_sortedKeys dependencies "" key
    · next hout =>
      rw [sortedKeys, mem_insertionSort, ← AList.mem_keys] at hout
      rw [AList.lookup_empty, AList.lookup_eq_none.mpr hout]
      exact .none
  have hchecked : checkManifest {
      name := m.name, version := m.version, kryndel := m.kryndel
      dependencies := rewritten m.dependencies
      targetDependencies :=
        insertAll (fun target => rewritten ((m.targetDependencies.lookup target).getD ∅))
          (sortedKeys m.targetDependencies) ∅ } = .ok () := by
    refine checkManifest_eq_ok.mpr ⟨h.name, h.version.1, h.kryndel.1, ?_, ?_, rfl⟩
    · exact validated_of_same h.dependencies fun key => lookup_insertAll_sortedKeys _ _ key
    · intro target dependencies hlookup
      have hrel := hsame target
      rw [hlookup] at hrel
      cases hlookup' : m.targetDependencies.lookup target with
      | none =>
        rw [hlookup'] at hrel
        cases hrel
      | some dependencies' =>
        rw [hlookup'] at hrel
        cases hrel with
        | some hmaps => exact validated_of_same (h.targets target dependencies' hlookup').1 hmaps
  refine ⟨{
    name := m.name, version := m.version, kryndel := m.kryndel
    dependencies := rewritten m.dependencies
    targetDependencies :=
      insertAll (fun target => rewritten ((m.targetDependencies.lookup target).getD ∅))
        (sortedKeys m.targetDependencies) ∅ }, ?_, rfl, rfl, rfl, h.language.symm,
    fun key => lookup_insertAll_sortedKeys _ "" key, hsame⟩
  rw [parseManifest, hread, foldlM_append, hfold]
  show (checkManifest _ >>= fun _ => pure _) = _
  rw [hchecked]
  rfl

end Sound

/-! ## What is read -/

/-- Dependencies without line ends. -/
def DependenciesInLine (dependencies : StringMap String) : Prop :=
  ∀ key value, dependencies.lookup key = some value → '\n' ∉ value.toList

/-- A manifest whose parts come from single lines without comments. -/
structure ManifestInLine (m : ProjectManifest) : Prop where
  version : '\n' ∉ m.version.toList
  kryndel : '\n' ∉ m.kryndel.toList
  dependencies : DependenciesInLine m.dependencies
  targets : ∀ target dependencies, m.targetDependencies.lookup target = some dependencies →
    DependenciesInLine dependencies ∧ '#' ∉ target.toList ∧ '\n' ∉ target.toList ∧
      ∃ key, key ∈ dependencies

section Read

variable {m m' : ProjectManifest} {st st' : ManifestReader}

theorem DependenciesInLine.insert {dependencies : StringMap String}
    (h : DependenciesInLine dependencies) (hvalue : '\n' ∉ value.toList) :
    DependenciesInLine (dependencies.insert key value) := by
  intro key' value' hlookup
  by_cases hkey : key' = key
  · rw [hkey, AList.lookup_insert] at hlookup
    rw [← Option.some.inj hlookup]
    exact hvalue
  · rw [AList.lookup_insert_ne hkey] at hlookup
    exact h key' value' hlookup

theorem mem_targetOfSection {target : String} (h : targetOfSection name = some target)
    (hc : c ∈ target.toList) : c ∈ name := by
  rw [targetOfSection] at h
  split at h
  · rw [← Option.some.inj h, String.toList_ofList] at hc
    exact mem_trimPrefix (mem_trimSuffix hc)
  · cases h

theorem ManifestInLine.setEntry (h : ManifestInLine m) (hname : '#' ∉ name ∧ '\n' ∉ name)
    (hvalue : '\n' ∉ value.toList) (hset : setEntry name m key value = .ok m') :
    ManifestInLine m' := by
  unfold Kryndel.setEntry at hset
  split at hset
  · -- the package
    split at hset
    · cases hset
      exact ⟨h.version, h.kryndel, h.dependencies, h.targets⟩
    · split at hset
      · cases hset
        exact ⟨hvalue, h.kryndel, h.dependencies, h.targets⟩
      · split at hset
        · cases hset
          exact ⟨h.version, hvalue, h.dependencies, h.targets⟩
        · split at hset
          · cases hset
            exact ⟨h.version, h.kryndel, h.dependencies, h.targets⟩
          · cases hset
  · split at hset
    · -- the dependencies
      cases hset
      exact ⟨h.version, h.kryndel, h.dependencies.insert hvalue, h.targets⟩
    · split at hset
      · -- the dependencies for a target
        next target htarget =>
        cases hset
        refine ⟨h.version, h.kryndel, h.dependencies, ?_⟩
        intro target' dependencies hlookup
        by_cases hsame : target' = target
        · rw [hsame, AList.lookup_insert] at hlookup
          rw [← Option.some.inj hlookup, hsame]
          refine ⟨?_, fun hc => hname.1 (mem_targetOfSection htarget hc),
            fun hc => hname.2 (mem_targetOfSection htarget hc), key, by simp⟩
          apply DependenciesInLine.insert _ hvalue
          cases hbefore : m.targetDependencies.lookup target with
          | none =>
            intro key value hempty
            rw [getD_none, AList.lookup_empty] at hempty
            cases hempty
          | some before => exact (h.targets target before hbefore).1
        · rw [AList.lookup_insert_ne hsame] at hlookup
          exact h.targets target' dependencies hlookup
      · cases hset

/-- What has been read, with a section that stands in one line. -/
def ReaderInLine (st : ManifestReader) : Prop :=
  ManifestInLine st.manifest ∧ '#' ∉ st.sectionName ∧ '\n' ∉ st.sectionName

theorem ReaderInLine.line (h : ReaderInLine st) {raw : List Char} (hraw : '\n' ∉ raw)
    (hread : readManifestLine st raw = .ok st') : ReaderInLine st' := by
  have hin : ∀ {c : Char}, c ∈ trimSpace (raw.takeWhile (· ≠ '#')) → c ∈ raw ∧ c ≠ '#' := by
    intro c hc
    have hcut := mem_trimOf hc
    exact ⟨(takeWhile_sublist _).mem hcut, by simpa using mem_takeWhile_imp hcut⟩
  simp only [readManifestLine] at hread
  split at hread
  · cases hread
    exact h
  · split at hread
    · cases hread
      refine ⟨h.1, fun hc => ?_, fun hc => ?_⟩
      · exact (hin (mem_trimOf hc)).2 rfl
      · exact hraw (hin (mem_trimOf hc)).1
    · split at hread
      · cases hread
      · next _ rest hrest =>
        obtain ⟨manifest, hset, hread⟩ := bind_eq_ok_iff.mp hread
        cases hread
        refine ⟨h.1.setEntry h.2 ?_ hset, h.2⟩
        rw [String.toList_ofList]
        intro hc
        have hline : '\n' ∈ trimSpace (raw.takeWhile (· ≠ '#')) := by
          apply (dropWhile_sublist _).mem
          rw [hrest]
          exact mem_cons_of_mem _ (mem_trimOf (mem_trimOf hc))
        exact hraw (hin hline).1

theorem ReaderInLine.lines (h : ReaderInLine st) {lines : List (List Char)}
    (hlines : ∀ line ∈ lines, '\n' ∉ line) (hread : lines.foldlM readManifestLine st = .ok st') :
    ReaderInLine st' := by
  induction lines generalizing st with
  | nil =>
    cases hread
    exact h
  | cons line lines ih =>
    obtain ⟨next, hfirst, hread⟩ := bind_eq_ok_iff.mp hread
    exact ih (h.line (hlines line mem_cons_self) hfirst)
      (fun l hl => hlines l (mem_cons_of_mem _ hl)) hread

theorem readerInLine_empty : ReaderInLine {} := by
  refine ⟨⟨not_mem_nil, not_mem_nil, ?_, ?_⟩, not_mem_nil, not_mem_nil⟩
  · intro key value hlookup
    cases hlookup
  · intro target dependencies hlookup
    cases hlookup

theorem dependenciesSound_of_inLine {dependencies : StringMap String}
    (h : DependenciesInLine dependencies)
    (hchecked : validateDependencyConstraints dependencies = .ok ()) :
    DependenciesSound dependencies := by
  intro key value hlookup
  obtain ⟨hkey, hconstraint⟩ := validateDependencyConstraints_eq_ok.mp hchecked key value hlookup
  exact ⟨hkey, hconstraint, h key value hlookup⟩

theorem parseManifest_sound {text : List Char} (h : parseManifest text = .ok m) :
    ManifestSound m := by
  simp only [parseManifest, bind_eq_ok_iff] at h
  obtain ⟨st, hread, _, hchecked, h⟩ := h
  cases h
  have hinline := readerInLine_empty.lines (fun line hline => not_mem_readLines hline) hread
  obtain ⟨hname, hversion, hkryndel, hdependencies, htargets, hlanguage⟩ :=
    checkManifest_eq_ok.mp hchecked
  refine ⟨hname, ⟨hversion, hinline.1.version⟩, ⟨hkryndel, hinline.1.kryndel⟩, hlanguage,
    dependenciesSound_of_inLine hinline.1.dependencies hdependencies, ?_⟩
  intro target dependencies hlookup
  obtain ⟨hlines, hcomment, hline, key, hkey⟩ := hinline.1.targets target dependencies hlookup
  refine ⟨dependenciesSound_of_inLine hlines (htargets target dependencies hlookup), hcomment,
    hline, ?_⟩
  intro hempty
  have hmem : key ∈ sortedKeys dependencies := by
    rw [sortedKeys, mem_insertionSort]
    exact AList.mem_keys.mp hkey
  rw [hempty] at hmem
  cases hmem

end Read

/-! ## Adding a dependency -/

/-- A version that can be read as a constraint, and stands in one line. -/
def AcceptedVersion (version : String) : Prop :=
  (parseVersionConstraint (dependencyVersion version)).isSome ∧
    '\n' ∉ (dependencyVersion version).toList

theorem ManifestSound.withDependency {m : ProjectManifest} (h : ManifestSound m)
    {name version : String} (hname : validPackageName name = true)
    (hversion : (parseVersionConstraint version).isSome ∧ '\n' ∉ version.toList) :
    ManifestSound (m.withDependency name version) := by
  refine ⟨h.name, h.version, h.kryndel, h.language, ?_, h.targets⟩
  intro key value hlookup
  rw [ProjectManifest.withDependency] at hlookup
  by_cases hkey : key = name
  · rw [hkey, AList.lookup_insert] at hlookup
    rw [hkey, ← Option.some.inj hlookup]
    exact ⟨hname, hversion⟩
  · rw [AList.lookup_insert_ne hkey] at hlookup
    exact h.dependencies key value hlookup

/-- A manifest that is read is written so that it is read again. After a dependency has been
    added to it, this is so exactly where the version can be read as a constraint and stands in
    one line: the version is not checked. -/
theorem manifest_roundTrip {text : List Char} {m : ProjectManifest}
    (h : parseManifest text = .ok m) :
    (∃ m', parseManifest (formatManifest m) = .ok m' ∧ SameManifest m' m) ∧
      ∀ name version written, addDependency text name version = .ok written →
        ((∃ m', parseManifest written = .ok m' ∧
            SameManifest m' (m.withDependency name (dependencyVersion version))) ↔
          AcceptedVersion version) := by
  have hsound := parseManifest_sound h
  refine ⟨parse_format hsound, ?_⟩
  intro name version written hadded
  have hname : validPackageName name = true := by
    by_contra hinvalid
    rw [Bool.not_eq_true] at hinvalid
    simp [addDependency, hinvalid, throw, throwThe, MonadExceptOf.throw, bind, Except.bind]
      at hadded
  have hwritten : written = formatManifest (m.withDependency name (dependencyVersion version)) := by
    simp [addDependency, hname, h, bind, Except.bind, pure, Except.pure] at hadded
    exact hadded.symm
  rw [hwritten]
  constructor
  · -- the entry that is read has passed the checks
    intro hread
    obtain ⟨m', hparsed, hsame⟩ := hread
    have hlookup : m'.dependencies.lookup name = some (dependencyVersion version) := by
      rw [hsame.dependencies name]
      exact AList.lookup_insert _
    obtain ⟨-, hconstraint, hline⟩ :=
      (parseManifest_sound hparsed).dependencies name _ hlookup
    exact ⟨hconstraint, hline⟩
  · intro haccepted
    exact parse_format (hsound.withDependency hname haccepted)

/-- The manifest of a project without dependencies. -/
def demoManifest : List Char :=
  "[package]\nname = \"demo\"\nversion = \"0.1.0\" # first\nkryndel = \">=1.3.0\"\n".toList

/-- A version that is not a constraint is written, and the project cannot be read any more. -/
theorem unchecked_version_written :
    (∃ m, parseManifest demoManifest = .ok m) ∧
      ∃ written, addDependency demoManifest "util" "latest" = .ok written ∧
        ∀ m, parseManifest written ≠ .ok m := by
  have hread : (parseManifest demoManifest).toOption.isSome = true := by decide
  have hwritten : ((addDependency demoManifest "util" "latest").map fun written =>
      (parseManifest written).toOption.isSome).toOption = some false := by
    decide
  constructor
  · cases h : parseManifest demoManifest with
    | error e =>
      rw [h] at hread
      cases hread
    | ok m => exact ⟨m, rfl⟩
  · cases h : addDependency demoManifest "util" "latest" with
    | error e =>
      rw [h] at hwritten
      cases hwritten
    | ok written =>
      refine ⟨written, rfl, fun m hm => ?_⟩
      rw [h, Except.map, hm] at hwritten
      cases hwritten

/-- A version that is a constraint is added. -/
theorem demo_dependency_added :
    ∃ m written m', parseManifest demoManifest = .ok m ∧
      addDependency demoManifest "util" "^1.0.0" = .ok written ∧
      parseManifest written = .ok m' ∧ SameManifest m' (m.withDependency "util" "^1.0.0") := by
  have hread : (parseManifest demoManifest).toOption.isSome = true := by decide
  cases h : parseManifest demoManifest with
  | error e =>
    rw [h] at hread
    cases hread
  | ok m =>
    have hadded : addDependency demoManifest "util" "^1.0.0" =
        .ok (formatManifest (m.withDependency "util" "^1.0.0")) := by
      have hname : validPackageName "util" = true := by decide
      have hversion : dependencyVersion "^1.0.0" = "^1.0.0" := by decide
      simp [addDependency, hname, h, hversion, bind, Except.bind, pure, Except.pure]
    obtain ⟨m', hm', hsame⟩ :=
      ((manifest_roundTrip h).2 "util" "^1.0.0" _ hadded).mpr ⟨by decide, by decide⟩
    exact ⟨m, _, m', rfl, hadded, hm', hsame⟩

end Kryndel
