import Kryndel.CBackend.JsonCanonical

/-!
# `json_parse` in both runtimes

The C runtime parses a text by itself, and the other runtime leaves this to `encoding/json`, whose
numbers it normalises. `encoding/json` is taken to read the grammar, and to keep the last of several
members of one key. Both scan the text first for arrays and objects that are nested too deep.
-/

namespace Kryndel

open Json Runes Quoting SortedTable List

/-! ## Nesting -/

/-- The loop over a text that counts the brackets outside of strings. -/
def exceedsFrom (maxDepth : Int) : Nat → Bool → Bool → List UInt8 → Bool
  | _, _, _, [] => false
  | depth, inString, escaped, c :: s =>
    if inString then
      if escaped then exceedsFrom maxDepth depth inString false s
      else if c = 92 then exceedsFrom maxDepth depth inString true s
      else if c = 34 then exceedsFrom maxDepth depth false escaped s
      else exceedsFrom maxDepth depth inString escaped s
    else if c = 34 then exceedsFrom maxDepth depth true escaped s
    else if c = 91 ∨ c = 123 then
      if maxDepth < (depth + 1 : Nat) then true
      else exceedsFrom maxDepth (depth + 1) inString escaped s
    else if c = 93 ∨ c = 125 then exceedsFrom maxDepth (depth - 1) inString escaped s
    else exceedsFrom maxDepth depth inString escaped s

/-- `jsonExceedsNestingDepth`. -/
def jsonExceedsNestingDepth (text : List UInt8) (maxDepth : Int) : Bool :=
  exceedsFrom maxDepth 0 false false text

/-- `maxJSONNestingDepth`. -/
def maxJSONNestingDepth : Nat := 256

/-- `k_json_exceeds_nesting_depth`. -/
def kJsonExceedsNestingDepth (text : List UInt8) : Bool :=
  exceedsFrom kMaxJsonNestingDepth 0 false false text

section Nesting

variable {maxDepth : Int}

/-- Bytes outside of strings that are neither brackets nor quotes. -/
def isPlain (b : UInt8) : Prop := b ≠ 34 ∧ b ≠ 91 ∧ b ≠ 123 ∧ b ≠ 93 ∧ b ≠ 125

instance (b : UInt8) : Decidable (isPlain b) := inferInstanceAs (Decidable (_ ∧ _))

variable {s : List UInt8}

theorem isPlain_all (h : (s.all fun b => decide (isPlain b)) = true) :
    ∀ b ∈ s, isPlain b := by
  intro b hb
  exact of_decide_eq_true (all_eq_true.mp h b hb)

theorem exceeds_plain {s : List UInt8} (h : ∀ b ∈ s, isPlain b) (depth : Nat) (rest : List UInt8) :
    exceedsFrom maxDepth depth false false (s ++ rest) =
      exceedsFrom maxDepth depth false false rest := by
  induction s with
  | nil => rfl
  | cons b s ih =>
    obtain ⟨hquote, hopen, hopen', hclose, hclose'⟩ := h b mem_cons_self
    rw [cons_append, exceedsFrom, if_neg Bool.false_ne_true, if_neg hquote,
      if_neg (not_or.mpr ⟨hopen, hopen'⟩), if_neg (not_or.mpr ⟨hclose, hclose'⟩),
      ih fun c hc => h c (mem_cons_of_mem _ hc)]

theorem exceeds_inString {s : List UInt8} (h : ∀ b ∈ s, b ≠ 34 ∧ b ≠ 92) (depth : Nat)
    (rest : List UInt8) :
    exceedsFrom maxDepth depth true false (s ++ rest) =
      exceedsFrom maxDepth depth true false rest := by
  induction s with
  | nil => rfl
  | cons b s ih =>
    obtain ⟨hquote, hescape⟩ := h b mem_cons_self
    rw [cons_append, exceedsFrom, if_pos rfl, if_neg Bool.false_ne_true, if_neg hescape,
      if_neg hquote, ih fun c hc => h c (mem_cons_of_mem _ hc)]

theorem exceeds_escape (c : UInt8) (depth : Nat) (rest : List UInt8) :
    exceedsFrom maxDepth depth true false (92 :: c :: rest) =
      exceedsFrom maxDepth depth true false rest := by
  rw [exceedsFrom, if_pos rfl, if_neg Bool.false_ne_true, if_pos rfl, exceedsFrom, if_pos rfl,
    if_pos rfl]

theorem isPlain_space (h : Space s) : ∀ b ∈ s, isPlain b := by
  intro b hb
  have hspace := h b hb
  simp only [Json.isSpace, Bool.or_eq_true, beq_iff_eq] at hspace
  rcases hspace with ((rfl | rfl) | rfl) | rfl <;> decide

variable {b : UInt8}

theorem isPlain_digit (h : isDecimal b = true) : isPlain b := by
  refine ⟨?_, ?_, ?_, ?_, ?_⟩
  all_goals
    rintro rfl
    revert h
    decide

theorem isPlain_number {token : List UInt8} (h : Number token) : ∀ b ∈ token, isPlain b := by
  obtain ⟨sign, hint, hfrac, hexp⟩ := h
  intro b hb
  simp only [mem_append] at hb
  rcases hb with ((hb | hb) | hb) | hb
  · rcases sign with rfl | rfl
    · cases hb
    · rw [mem_singleton.mp hb]
      decide
  · exact isPlain_digit (intPart_digits hint b hb)
  · cases hfrac with
    | none => cases hb
    | digits h =>
      rcases mem_cons.mp hb with rfl | hb
      · decide
      · exact isPlain_digit (h.2 b hb)
  · cases hexp with
    | none => cases hb
    | digits letter signed h =>
      rw [cons_append, mem_cons, mem_append] at hb
      rcases hb with rfl | hb | hb
      · rcases letter with rfl | rfl <;> decide
      · rcases signed with rfl | rfl | rfl
        · cases hb
        all_goals
          rw [mem_singleton.mp hb]
          decide
      · exact isPlain_digit (h.2 b hb)

theorem hex4_digits {s s' : List UInt8} {value : Nat} (h : hex4 s = some (value, s')) :
    ∃ digits, s = digits ++ s' ∧ ∀ b ∈ digits, b ≠ 34 ∧ b ≠ 92 := by
  have hdigit {b : UInt8} {d : Nat} (hd : Quoting.hexDigit b = some d) : b ≠ 34 ∧ b ≠ 92 := by
    refine ⟨?_, ?_⟩
    all_goals
      rintro rfl
      cases hd
  obtain ⟨a, b, c, d, rfl⟩ := hex4_eq_some h
  refine ⟨[a, b, c, d], rfl, ?_⟩
  simp only [hex4, Option.bind_eq_bind, Option.bind_eq_some_iff] at h
  obtain ⟨a', ha, b', hb, c', hc, d', hd, -⟩ := h
  intro x hx
  simp only [mem_cons, not_mem_nil, or_false] at hx
  rcases hx with rfl | rfl | rfl | rfl
  · exact hdigit ha
  · exact hdigit hb
  · exact hdigit hc
  · exact hdigit hd

theorem exceeds_unicode {s piece s' : List UInt8} (h : UnicodeEscape s piece s') (depth : Nat)
    (rest : List UInt8) :
    exceedsFrom maxDepth depth true false (s ++ rest) =
      exceedsFrom maxDepth depth true false (s' ++ rest) := by
  have hhex {t t' : List UInt8} {value : Nat} (h : hex4 t = some (value, t')) (rest : List UInt8) :
      exceedsFrom maxDepth depth true false (t ++ rest) =
        exceedsFrom maxDepth depth true false (t' ++ rest) := by
    obtain ⟨digits, rfl, hdigits⟩ := hex4_digits h
    rw [append_assoc, exceeds_inString hdigits]
  cases h with
  | whole hex high low => exact hhex hex rest
  | pair hex high hex' low =>
    rw [hhex hex, cons_append, cons_append, exceeds_escape, hhex hex']
  | lone hex half => exact hhex hex rest

theorem exceeds_chars {s text : List UInt8} (h : Chars s text) (depth : Nat) (rest : List UInt8) :
    exceedsFrom maxDepth depth true false (s ++ 34 :: rest) =
      exceedsFrom maxDepth depth false false rest := by
  induction h with
  | nil =>
    rw [nil_append, exceedsFrom, if_pos rfl, if_neg Bool.false_ne_true, if_neg (by decide),
      if_pos rfl]
  | @ascii b s text control narrow plain hrest ih =>
    have hone := @exceeds_inString maxDepth [b]
      (fun c hc => (mem_singleton.mp hc) ▸ plain) depth (s ++ 34 :: rest)
    rw [cons_append, ← ih]
    exact hone
  | @wide b s text high hrest ih =>
    have hbytes := (decodeRune_high high s).2
    have hwhole : b :: s ++ 34 :: rest = (b :: s).take (decodeRune (b :: s)).2 ++
        ((b :: s).drop (decodeRune (b :: s)).2 ++ 34 :: rest) := by
      rw [← append_assoc, take_append_drop]
    rw [hwhole, exceeds_inString, ih]
    intro c hc
    have hc := hbytes c hc
    refine ⟨?_, ?_⟩
    all_goals
      rintro rfl
      revert hc
      decide
  | escape known hrest ih =>
    rw [cons_append, cons_append, exceeds_escape, ih]
  | unicode h hrest ih =>
    rw [cons_append, cons_append, exceeds_escape, exceeds_unicode h, ih]

theorem exceeds_quoted {s text : List UInt8} (h : Chars s text) (depth : Nat) (rest : List UInt8) :
    exceedsFrom maxDepth depth false false (34 :: (s ++ 34 :: rest)) =
      exceedsFrom maxDepth depth false false rest := by
  rw [exceedsFrom, if_neg Bool.false_ne_true, if_pos rfl, exceeds_chars h]

theorem exceeds_open (h : b = 91 ∨ b = 123) (depth : Nat) (rest : List UInt8) :
    exceedsFrom maxDepth depth false false (b :: rest) =
      (decide (maxDepth < (depth + 1 : Nat)) ||
        exceedsFrom maxDepth (depth + 1) false false rest) := by
  have hquote : b ≠ 34 := by
    rintro rfl
    revert h
    decide
  rw [exceedsFrom, if_neg Bool.false_ne_true, if_neg hquote, if_pos h]
  split
  · next hdeep => rw [decide_eq_true hdeep, Bool.true_or]
  · next hdeep => rw [decide_eq_false hdeep, Bool.false_or]

theorem exceeds_close (h : b = 93 ∨ b = 125) (depth : Nat) (rest : List UInt8) :
    exceedsFrom maxDepth (depth + 1) false false (b :: rest) =
      exceedsFrom maxDepth depth false false rest := by
  have hother : b ≠ 34 ∧ ¬ (b = 91 ∨ b = 123) := by
    rcases h with rfl | rfl <;> decide
  rw [exceedsFrom, if_neg Bool.false_ne_true, if_neg hother.1, if_neg hother.2, if_pos h,
    Nat.add_sub_cancel]

/-- Do some brackets go deeper than the limit, if so many of them are nested behind so many? -/
def nestsBeyond (maxDepth : Int) (depth inner : Nat) : Bool :=
  decide (0 < inner ∧ maxDepth < (depth + inner : Nat))

theorem nestsBeyond_zero (depth : Nat) : nestsBeyond maxDepth depth 0 = false := by
  simp [nestsBeyond]

theorem nestsBeyond_succ (depth inner : Nat) :
    nestsBeyond maxDepth depth (inner + 1) =
      (decide (maxDepth < (depth + 1 : Nat)) || nestsBeyond maxDepth (depth + 1) inner) := by
  rw [nestsBeyond, nestsBeyond, ← Bool.decide_or]
  refine decide_eq_decide.mpr ?_
  omega

theorem nestsBeyond_max (depth d d' : Nat) :
    nestsBeyond maxDepth depth (max d d') =
      (nestsBeyond maxDepth depth d || nestsBeyond maxDepth depth d') := by
  rw [nestsBeyond, nestsBeyond, nestsBeyond, ← Bool.decide_or]
  refine decide_eq_decide.mpr ?_
  omega

theorem exceeds_brackets {opening closing : UInt8} (hopen : opening = 91 ∨ opening = 123)
    (hclose : closing = 93 ∨ closing = 125) {inner : Nat}
    (h : ∀ depth rest, exceedsFrom maxDepth depth false false (s ++ rest) =
      (nestsBeyond maxDepth depth inner || exceedsFrom maxDepth depth false false rest))
    (depth : Nat) (rest : List UInt8) :
    exceedsFrom maxDepth depth false false (opening :: (s ++ [closing]) ++ rest) =
      (nestsBeyond maxDepth depth (inner + 1) || exceedsFrom maxDepth depth false false rest) := by
  rw [cons_append, exceeds_open hopen, append_assoc, h, cons_append, nil_append,
    exceeds_close hclose, nestsBeyond_succ, Bool.or_assoc]

theorem exceeds_key {key name : List UInt8} (h : MemberKey key name) (depth : Nat)
    (rest : List UInt8) :
    exceedsFrom maxDepth depth false false (key ++ rest) =
      exceedsFrom maxDepth depth false false rest := by
  obtain ⟨hname, hmiddle, hafter⟩ := h
  next s middle after =>
  have hplain : ∀ b ∈ middle ++ 58 :: after, isPlain b := by
    intro b hb
    rcases mem_append.mp hb with hb | hb
    · exact isPlain_space hmiddle b hb
    · rcases mem_cons.mp hb with rfl | hb
      · decide
      · exact isPlain_space hafter b hb
  have hwhole : 34 :: s ++ 34 :: (middle ++ 58 :: after) ++ rest =
      34 :: (s ++ 34 :: (middle ++ 58 :: after ++ rest)) := by simp
  rw [hwhole, exceeds_quoted hname, exceeds_plain hplain]

/-- A value is too deep, or it does not count. -/
theorem exceeds_spells {c : List UInt8} {tree : Tree} (h : Spells c tree) :
    ∀ depth rest, exceedsFrom maxDepth depth false false (c ++ rest) =
      (nestsBeyond maxDepth depth tree.depth || exceedsFrom maxDepth depth false false rest) := by
  have hplain {s : List UInt8} (h : ∀ b ∈ s, isPlain b) (depth : Nat) (rest : List UInt8) :
      exceedsFrom maxDepth depth false false (s ++ rest) =
        (nestsBeyond maxDepth depth 0 || exceedsFrom maxDepth depth false false rest) := by
    rw [exceeds_plain h, nestsBeyond_zero, Bool.false_or]
  have hcomma (depth : Nat) (rest : List UInt8) : exceedsFrom maxDepth depth false false
      (44 :: rest) = exceedsFrom maxDepth depth false false rest :=
    @exceeds_plain maxDepth [44] (isPlain_all rfl) depth rest
  refine @Spells.rec
    (fun c tree _ => ∀ depth rest,
      exceedsFrom maxDepth depth false false (c ++ rest) =
        (nestsBeyond maxDepth depth tree.depth || exceedsFrom maxDepth depth false false rest))
    (fun c items _ => ∀ depth rest,
      exceedsFrom maxDepth depth false false (c ++ rest) =
        (nestsBeyond maxDepth depth (depths items) || exceedsFrom maxDepth depth false false rest))
    (fun c members _ => ∀ depth rest,
      exceedsFrom maxDepth depth false false (c ++ rest) =
        (nestsBeyond maxDepth depth (depthsOfMembers members) ||
          exceedsFrom maxDepth depth false false rest))
    ?null ?true ?false ?number ?string ?noItems ?array ?noMembers ?object ?lastItem ?consItem
    ?lastMember ?consMember c tree h
  case null => exact hplain (isPlain_all rfl)
  case true => exact hplain (isPlain_all rfl)
  case false => exact hplain (isPlain_all rfl)
  case number => exact fun h => hplain (isPlain_number h)
  case string =>
    intro s text h depth rest
    have hwhole : 34 :: (s ++ [34]) ++ rest = 34 :: (s ++ 34 :: rest) := by simp
    rw [hwhole, exceeds_quoted h]
    exact hplain (isPlain_all (s := []) rfl) depth rest
  case noItems =>
    exact fun h => exceeds_brackets (.inl rfl) (.inl rfl) (hplain (isPlain_space h))
  case array =>
    exact fun h ih => exceeds_brackets (.inl rfl) (.inl rfl) ih
  case noMembers =>
    exact fun h => exceeds_brackets (.inr rfl) (.inr rfl) (hplain (isPlain_space h))
  case object =>
    exact fun h ih => exceeds_brackets (.inr rfl) (.inr rfl) ih
  case lastItem =>
    intro before s after item hbefore h hafter ih depth rest
    rw [append_assoc, append_assoc, exceeds_plain (isPlain_space hbefore),
      ih depth _, exceeds_plain (isPlain_space hafter), depths, depths, Nat.max_zero]
  case consItem =>
    intro before s after more item items hbefore h hafter hrest ih ihrest depth rest
    have hwhole : before ++ s ++ after ++ 44 :: more ++ rest =
        before ++ (s ++ (after ++ 44 :: (more ++ rest))) := by simp
    rw [hwhole, exceeds_plain (isPlain_space hbefore), ih depth _,
      exceeds_plain (isPlain_space hafter), hcomma, ihrest depth rest, ← Bool.or_assoc,
      ← nestsBeyond_max, depths]
  case lastMember =>
    intro before key s after name item hbefore hkey h hafter ih depth rest
    have hwhole : before ++ key ++ s ++ after ++ rest =
        before ++ (key ++ (s ++ (after ++ rest))) := by simp
    rw [hwhole, exceeds_plain (isPlain_space hbefore), exceeds_key hkey, ih depth _,
      exceeds_plain (isPlain_space hafter), depthsOfMembers, depthsOfMembers, Nat.max_zero]
  case consMember =>
    intro before key s after more name item members hbefore hkey h hafter hrest ih ihrest depth rest
    have hwhole : before ++ key ++ s ++ after ++ 44 :: more ++ rest =
        before ++ (key ++ (s ++ (after ++ 44 :: (more ++ rest)))) := by simp
    rw [hwhole, exceeds_plain (isPlain_space hbefore), exceeds_key hkey, ih depth _,
      exceeds_plain (isPlain_space hafter), hcomma, ihrest depth rest, ← Bool.or_assoc,
      ← nestsBeyond_max, depthsOfMembers]

theorem exceeds_text {t : List UInt8} {tree : Tree} (h : Text t tree) :
    exceedsFrom maxDepth 0 false false t = decide (0 < tree.depth ∧ maxDepth < tree.depth) := by
  obtain ⟨hbefore, h, hafter⟩ := h
  next before s after =>
  have hend : exceedsFrom maxDepth 0 false false after = false := by
    have hplain := @exceeds_plain maxDepth after (isPlain_space hafter) 0 []
    rwa [append_nil] at hplain
  rw [append_assoc, exceeds_plain (isPlain_space hbefore), exceeds_spells h, hend,
    Bool.or_false, nestsBeyond, Nat.zero_add]

theorem exceeds_text_nat {t : List UInt8} {tree : Tree} (h : Text t tree) (limit : Nat) :
    exceedsFrom limit 0 false false t = decide (limit < tree.depth) := by
  rw [exceeds_text h]
  refine decide_eq_decide.mpr ?_
  omega

/-- A text is refused exactly if it has brackets that are nested deeper than the limit, whatever
    its strings contain. -/
theorem jsonExceedsNestingDepth_iff {text : List UInt8} {tree : Tree} (h : Text text tree)
    (maxDepth : Int) :
    jsonExceedsNestingDepth text maxDepth = true ↔ 0 < tree.depth ∧ maxDepth < tree.depth := by
  rw [jsonExceedsNestingDepth, exceeds_text h, decide_eq_true_eq]

/-- `["\"["]`. -/
theorem jsonExceedsNestingDepth_quoted :
    jsonExceedsNestingDepth [91, 34, 92, 34, 91, 34, 93] 1 = true ↔
      0 < (Tree.array [.string [34, 91]]).depth ∧
        (1 : Int) < (Tree.array [.string [34, 91]]).depth := by
  have space : Space [] := fun b hb => by cases hb
  have chars : Chars [92, 34, 91] [34, 91] :=
    .escape (by decide) (.ascii (by decide) (by decide) (by decide) .nil)
  have items : Items [34, 92, 34, 91, 34] [.string [34, 91]] :=
    @Items.last [] _ [] _ space (.string chars) space
  exact jsonExceedsNestingDepth_iff (@Text.mk [] _ [] _ space (.array items) space) 1

/-- No limit below zero refuses a text without brackets. -/
theorem jsonExceedsNestingDepth_negative :
    Text nullText .null ∧ jsonExceedsNestingDepth nullText (-1) = false ∧
      (-1 : Int) < Tree.null.depth := by
  have space : Space [] := fun b hb => by cases hb
  exact ⟨@Text.mk [] _ [] _ space .null space, by decide, by decide⟩

end Nesting

/-! ## The C runtime -/

/-- `k_json_parse`: the value and its canonical text. Every call of `k_json_value` has read a byte
    since the call around it, or since that call's own caller had, so that the fuel is enough. -/
def kJsonParse (strtod : List UInt8 → Option Float64) (kJsonFloat : Float64 → List UInt8)
    (limit : Int) (text : List UInt8) : Except String (JsonData × List UInt8) :=
  if limit < 0 ∨ limit < text.length then .error "JSON input exceeds configured limit"
  else if kJsonExceedsNestingDepth text then .error "JSON nesting exceeds configured limit"
  else
    match kJsonValue strtod (2 * text.length) 0 text with
    | none => .error "invalid JSON"
    | some (node, rest) =>
      if kJsonWs rest = [] then .ok (node, kJsonWrite kJsonFloat node)
      else .error "invalid JSON"

section CRuntime

variable (strtod : List UInt8 → Option Float64) (kJsonFloat : Float64 → List UInt8)

theorem kJsonWs_space_end {w : List UInt8} (hw : Space w) : kJsonWs w = [] := by
  have hws := @kJsonWs_space w [] hw (by simp)
  rwa [append_nil] at hws

theorem kJsonValue_text {t : List UInt8} {tree : Tree} (h : Text t tree)
    (hdepth : tree.depth ≤ kMaxJsonNestingDepth) :
    ∃ rest, kJsonValue strtod (2 * t.length) 0 t = some (kNode strtod tree, rest) ∧
      kJsonWs rest = [] := by
  obtain ⟨hbefore, h, hafter⟩ := h
  next before s after =>
  have hstops : StopsNumber after := by
    have hspace := stops_space hafter (s := []) (fun b hb => by cases hb)
    rwa [append_nil] at hspace
  refine ⟨after, ?_, kJsonWs_space_end hafter⟩
  refine kJsonValue_complete s.length s tree (Nat.le_refl _) h _ 0 before after ?_ ?_ hbefore hstops
  · simp only [length_append]
    omega
  · rw [Nat.zero_add]
    exact hdepth

theorem text_of_kJsonValue {n : Nat} {t rest : List UInt8} {node : JsonData}
    (h : kJsonValue strtod n 0 t = some (node, rest)) (hrest : kJsonWs rest = []) :
    ∃ tree, Text t tree := by
  obtain ⟨w, c, tree, rfl, hw, hc, -⟩ := kJsonValue_sound n 0 t node rest h
  obtain ⟨after, hafter, hspace⟩ := exists_space rest
  rw [hrest, append_nil] at hspace
  exact ⟨tree, .mk hw hc (hspace ▸ hafter)⟩

theorem kJsonParse_text {limit : Int} {t : List UInt8} {tree : Tree} (h : Text t tree)
    (hlimit : ¬ limit < t.length) :
    kJsonParse strtod kJsonFloat limit t =
      if kMaxJsonNestingDepth < tree.depth then .error "JSON nesting exceeds configured limit"
      else .ok (kNode strtod tree, kJsonWrite kJsonFloat (kNode strtod tree)) := by
  have hpositive : ¬ limit < 0 := by omega
  rw [kJsonParse, if_neg (not_or.mpr ⟨hpositive, hlimit⟩), kJsonExceedsNestingDepth,
    exceeds_text_nat h]
  by_cases hdeep : kMaxJsonNestingDepth < tree.depth
  · rw [decide_eq_true hdeep, if_pos rfl, if_pos hdeep]
  · obtain ⟨rest, hvalue, hrest⟩ := kJsonValue_text strtod h (Nat.not_lt.mp hdeep)
    rw [decide_eq_false hdeep, if_neg Bool.false_ne_true, if_neg hdeep, hvalue]
    simp only
    rw [if_pos hrest]

theorem kJsonParse_invalid {limit : Int} {t : List UInt8} (h : ¬ ∃ tree, Text t tree)
    (hlimit : ¬ limit < t.length) :
    kJsonParse strtod kJsonFloat limit t =
      if kJsonExceedsNestingDepth t then .error "JSON nesting exceeds configured limit"
      else .error "invalid JSON" := by
  have hpositive : ¬ limit < 0 := by omega
  rw [kJsonParse, if_neg (not_or.mpr ⟨hpositive, hlimit⟩)]
  congr 1
  split
  · rfl
  · next node rest hvalue =>
    rw [if_neg fun hrest => h (text_of_kJsonValue strtod hvalue hrest)]

end CRuntime

/-! ## The other runtime -/

open Classical in
/-- `json.Valid`, and the decoder that keeps numbers as they are: what the text stands for. -/
noncomputable def jsonDecode (text : List UInt8) : Option Tree :=
  if h : ∃ tree, Text text tree then some h.choose else none

mutual

/-- The value that the decoder makes: a member replaces earlier ones of its key. -/
def decoded : Tree → JsonData
  | .null => .null
  | .bool b => .bool b
  | .number token => .number token
  | .string text => .string text
  | .array items => .array (decodedItems items)
  | .object members => .object (insertEach [] (decodedMembers members))

def decodedItems : List Tree → List JsonData
  | [] => []
  | item :: items => decoded item :: decodedItems items

def decodedMembers : List (List UInt8 × Tree) → List (List UInt8 × JsonData)
  | [] => []
  | (name, item) :: members => (name, decoded item) :: decodedMembers members

end

section Normalising

variable (parseFloat : List UInt8 → Option Float64)

/-- The case of `normalizeJSON` for numbers. `strconv.ParseInt` refuses a point and an exponent. -/
def normalizeNumber (token : List UInt8) : JsonData :=
  match if hasFraction token then none else parseInt64 token with
  | some i => .int i
  | none =>
    if hasFraction token then ((parseFloat token).map .float).getD (.number token)
    else .number token

mutual

/-- `normalizeJSON`. -/
def normalizeJSON : JsonData → JsonData
  | .number token => normalizeNumber parseFloat token
  | .array items => .array (normalizeItems items)
  | .object members => .object (normalizeMembers members)
  | node => node

def normalizeItems : List JsonData → List JsonData
  | [] => []
  | item :: items => normalizeJSON item :: normalizeItems items

def normalizeMembers : List (List UInt8 × JsonData) → List (List UInt8 × JsonData)
  | [] => []
  | (name, item) :: members => (name, normalizeJSON item) :: normalizeMembers members

end

theorem normalizeMembers_eq (members : List (List UInt8 × JsonData)) :
    normalizeMembers parseFloat members =
      members.map fun m => (m.1, normalizeJSON parseFloat m.2) := by
  induction members with
  | nil => rfl
  | cons member members ih => rw [normalizeMembers, ih, map_cons]

end Normalising

/-- `json_parse`. -/
noncomputable def jsonParse (parseFloat : List UInt8 → Option Float64)
    (appendFloat : Float64 → List UInt8) (limit : Int) (text : List UInt8) :
    Except String (JsonData × List UInt8) :=
  if limit < text.length then .error "JSON input exceeds configured limit"
  else if jsonExceedsNestingDepth text maxJSONNestingDepth then
    .error "JSON nesting exceeds configured limit"
  else
    match jsonDecode text with
    | none => .error "invalid JSON"
    | some tree =>
      let normalized := normalizeJSON parseFloat (decoded tree)
      .ok (normalized, marshal appendFloat normalized)

section Normalised

variable (strtod parseFloat : List UInt8 → Option Float64)

theorem normalizeNumber_eq {token : List UInt8} (h : Integral token) :
    normalizeNumber parseFloat token = kJsonNumber strtod token (hasFraction token) := by
  have hfraction := (hasFraction_eq_false token).mpr h
  rw [normalizeNumber, kJsonNumber, hfraction]
  cases parseInt64 token with
  | none => rfl
  | some i => rfl

mutual

theorem normalize_decoded : (tree : Tree) → (∀ token ∈ tree.tokens, Integral token) →
    normalizeJSON parseFloat (decoded tree) = kNode strtod tree
  | .null, _ => rfl
  | .bool b, _ => rfl
  | .number token, h => by
    exact normalizeNumber_eq strtod parseFloat (h token mem_cons_self)
  | .string text, _ => rfl
  | .array items, h => by
    rw [decoded, normalizeJSON, kNode, normalize_decodedItems items h]
  | .object members, h => by
    rw [decoded, normalizeJSON, kNode, kObject_eq, normalizeMembers_eq, map_insertEach,
      map_nil, ← normalizeMembers_eq, normalize_decodedMembers members h]

theorem normalize_decodedItems : (items : List Tree) →
    (∀ token ∈ tokensOfItems items, Integral token) →
    normalizeItems parseFloat (decodedItems items) = kNodes strtod items
  | [], _ => rfl
  | item :: items, h => by
    rw [decodedItems, normalizeItems, kNodes,
      normalize_decoded item fun token htoken => h token (mem_append_left _ htoken),
      normalize_decodedItems items fun token htoken => h token (mem_append_right _ htoken)]

theorem normalize_decodedMembers : (members : List (List UInt8 × Tree)) →
    (∀ token ∈ tokensOfMembers members, Integral token) →
    normalizeMembers parseFloat (decodedMembers members) = kNamed strtod members
  | [], _ => rfl
  | (name, item) :: members, h => by
    rw [decodedMembers, normalizeMembers, kNamed,
      normalize_decoded item fun token htoken => h token (mem_append_left _ htoken),
      normalize_decodedMembers members fun token htoken => h token (mem_append_right _ htoken)]

end

end Normalised

/-! ## Both runtimes -/

/-- The integer that a value stands for. -/
def JsonData.integer : JsonData → Option Int
  | .int i => some i.toInt
  | .number token => some (decimalInt token)
  | _ => none

theorem integer_kNode (strtod : List UInt8 → Option Float64) {token : List UInt8}
    (h : Integral token) : (kNode strtod (.number token)).integer = some (decimalInt token) := by
  rw [kNode, kJsonNumber, (hasFraction_eq_false token).mpr h, if_neg Bool.false_ne_true]
  rw [parseInt64]
  split
  · next hrange =>
    have hexact : (Int64.ofInt (decimalInt token)).toInt = decimalInt token :=
      Int64.toInt_ofInt_of_le hrange.1 (Int.lt_of_le_sub_one hrange.2)
    exact congrArg some hexact
  · rfl

theorem jsonDecode_eq_some {t : List UInt8} {tree : Tree} (h : jsonDecode t = some tree) :
    Text t tree := by
  rw [jsonDecode] at h
  split at h
  · next hex =>
    cases h
    exact hex.choose_spec
  · cases h

theorem jsonDecode_eq_none {t : List UInt8} (h : jsonDecode t = none) : ¬ ∃ tree, Text t tree := by
  rw [jsonDecode] at h
  split at h
  · cases h
  · next hno => exact hno

section Refinement

variable {strtod parseFloat : List UInt8 → Option Float64}
  {kJsonFloat appendFloat : Float64 → List UInt8} {limit : Int} {t : List UInt8}

theorem kJsonParse_eq_jsonParse
    (hint : ∀ tree, Text t tree → ∀ token ∈ tree.tokens, Integral token) :
    kJsonParse strtod kJsonFloat limit t = jsonParse parseFloat appendFloat limit t := by
  by_cases hlimit : limit < t.length
  · rw [kJsonParse, jsonParse, if_pos (.inr hlimit), if_pos hlimit]
  rw [jsonParse, if_neg hlimit, jsonExceedsNestingDepth, maxJSONNestingDepth]
  cases hdecode : jsonDecode t with
  | none => exact kJsonParse_invalid strtod kJsonFloat (jsonDecode_eq_none hdecode) hlimit
  | some tree =>
    have htext := jsonDecode_eq_some hdecode
    have htokens := hint tree htext
    have hcanonical := (canonical_text strtod htext htokens).1
    rw [kJsonParse_text strtod kJsonFloat htext hlimit, exceeds_text_nat htext]
    simp only [decide_eq_true_eq, normalize_decoded strtod parseFloat tree htokens,
      kJsonWrite_eq kJsonFloat appendFloat hcanonical]
    rfl

theorem kJsonParse_canonical
    (hint : ∀ tree, Text t tree → ∀ token ∈ tree.tokens, Integral token) {node : JsonData}
    {text : List UInt8} (h : kJsonParse strtod kJsonFloat limit t = .ok (node, text))
    (hshort : text.length ≤ limit) :
    kJsonParse strtod kJsonFloat limit text = .ok (node, text) := by
  have hlimit : ¬ limit < t.length := by
    intro hlong
    rw [kJsonParse, if_pos (.inr hlong)] at h
    cases h
  by_cases htext : ∃ tree, Text t tree
  · obtain ⟨tree, htext⟩ := htext
    rw [kJsonParse_text strtod kJsonFloat htext hlimit] at h
    split at h
    · cases h
    · next hdeep =>
      cases h
      obtain ⟨hcanonical, hdepth⟩ := canonical_text strtod htext (hint tree htext)
      have hwritten := spells_kJsonWrite kJsonFloat hcanonical
      have hagain := Text.mk Space.nil hwritten Space.nil
      rw [nil_append, append_nil] at hagain
      rw [kJsonParse_text strtod kJsonFloat hagain (by omega), if_neg (by omega),
        kNode_asTree strtod hcanonical]
  · rw [kJsonParse_invalid strtod kJsonFloat htext hlimit] at h
    split at h
    · cases h
    · cases h

/-- For texts whose numbers have no fraction and no exponent, the C runtime accepts what the other
    runtime accepts, with the same value and the same canonical text, and keeps integers of any
    size. If the canonical text is within the limit, it is parsed to the same value and text. -/
theorem kJsonParse_refines (strtod parseFloat : List UInt8 → Option Float64)
    (kJsonFloat appendFloat : Float64 → List UInt8) (limit : Int) (t : List UInt8)
    (hint : ∀ tree, Text t tree → ∀ token ∈ tree.tokens, Integral token) :
    kJsonParse strtod kJsonFloat limit t = jsonParse parseFloat appendFloat limit t ∧
      (∀ tree, Text t tree → ∀ token ∈ tree.tokens,
        (kNode strtod (.number token)).integer = some (decimalInt token)) ∧
      ∀ node text, kJsonParse strtod kJsonFloat limit t = .ok (node, text) →
        text.length ≤ limit → kJsonParse strtod kJsonFloat limit text = .ok (node, text) :=
  ⟨kJsonParse_eq_jsonParse hint,
    fun tree htext token htoken => integer_kNode strtod (hint tree htext token htoken),
    fun _ _ h hshort => kJsonParse_canonical hint h hshort⟩

/-- `{"a":1,"a":[9223372036854775808,"\ud83d"]}`: a key that comes twice, a large integer, and half
    of a surrogate pair. -/
def largeText : List UInt8 :=
  [123, 34, 97, 34, 58, 49, 44, 34, 97, 34, 58, 91, 57, 50, 50, 51, 51, 55, 50, 48, 51, 54, 56, 53,
    52, 55, 55, 53, 56, 48, 56, 44, 34, 92, 117, 100, 56, 51, 100, 34, 93, 125]

theorem kJsonParse_refines_largeText :
    kJsonParse (fun _ => none) (fun _ => []) 4096 largeText =
        jsonParse (fun _ => none) (fun _ => []) 4096 largeText ∧
      (∀ tree, Text largeText tree → ∀ token ∈ tree.tokens,
        (kNode (fun _ => none) (.number token)).integer = some (decimalInt token)) ∧
      ∀ node text, kJsonParse (fun _ => none) (fun _ => []) 4096 largeText = .ok (node, text) →
        text.length ≤ (4096 : Int) →
        kJsonParse (fun _ => none) (fun _ => []) 4096 text = .ok (node, text) :=
  kJsonParse_refines (fun _ => none) (fun _ => none) (fun _ => []) (fun _ => []) 4096 largeText
    fun _ h => h.integral ((hasFraction_eq_false _).mp rfl)

/-- `"<"`, whose canonical text is longer than the limit that the text just keeps to. -/
theorem kJsonParse_not_canonical :
    ¬ ∀ (strtod parseFloat : List UInt8 → Option Float64)
      (kJsonFloat appendFloat : Float64 → List UInt8) (limit : Int) (t : List UInt8),
      (∀ tree, Text t tree → ∀ token ∈ tree.tokens, Integral token) →
      kJsonParse strtod kJsonFloat limit t = jsonParse parseFloat appendFloat limit t ∧
        (∀ tree, Text t tree → ∀ token ∈ tree.tokens,
          (kNode strtod (.number token)).integer = some (decimalInt token)) ∧
        ∀ node text, kJsonParse strtod kJsonFloat limit t = .ok (node, text) →
          kJsonParse strtod kJsonFloat limit text = .ok (node, text) := by
  intro hall
  have hagain := (hall (fun _ => none) (fun _ => none) (fun _ => []) (fun _ => []) 3 [34, 60, 34]
    fun _ h => h.integral ((hasFraction_eq_false _).mp rfl)).2.2 (.string [60])
    [34, 92, 117, 48, 48, 51, 99, 34] rfl
  have hrefused : kJsonParse (fun _ => none) (fun _ => []) 3 [34, 92, 117, 48, 48, 51, 99, 34] =
      .error "JSON input exceeds configured limit" := rfl
  rw [hrefused] at hagain
  cases hagain

end Refinement

end Kryndel
