import Kryndel.Wire.Quoting

/-!
# The grammar of JSON

JSON texts as byte strings, and the trees that they stand for. Strings are read as `encoding/json`
reads them: what is no UTF-8, and an escape that is half of a surrogate pair without the other
half, stand for the replacement character. Numbers are kept as tokens.
-/

namespace Json

open Runes Quoting Option

/-- What a text stands for: numbers by their tokens, and the members of objects as they come. -/
inductive Tree where
  | null
  | bool (b : Bool)
  | number (token : List UInt8)
  | string (text : List UInt8)
  | array (items : List Tree)
  | object (members : List (List UInt8 × Tree))

/-! ## White space -/

def isSpace (b : UInt8) : Bool := b == 32 || b == 9 || b == 10 || b == 13

def Space (s : List UInt8) : Prop := ∀ b ∈ s, isSpace b = true

/-! ## Numbers -/

def isDecimal (b : UInt8) : Bool := 48 ≤ b && b ≤ 57

def Digits (s : List UInt8) : Prop := s ≠ [] ∧ ∀ b ∈ s, isDecimal b = true

inductive IntPart : List UInt8 → Prop where
  | zero : IntPart [48]
  | digits {b : UInt8} {s : List UInt8} (first : isDecimal b = true) (positive : b ≠ 48)
      (rest : ∀ b ∈ s, isDecimal b = true) : IntPart (b :: s)

/-- `.` and digits, or nothing. -/
inductive FracPart : List UInt8 → Prop where
  | none : FracPart []
  | digits {s : List UInt8} (h : Digits s) : FracPart (46 :: s)

/-- `e` or `E`, a sign and digits, or nothing. -/
inductive ExpPart : List UInt8 → Prop where
  | none : ExpPart []
  | digits {e : UInt8} {sign s : List UInt8} (letter : e = 101 ∨ e = 69)
      (signed : sign = [] ∨ sign = [43] ∨ sign = [45]) (h : Digits s) : ExpPart (e :: sign ++ s)

inductive Number : List UInt8 → Prop where
  | mk {minus int frac exp : List UInt8} (sign : minus = [] ∨ minus = [45]) (hint : IntPart int)
      (hfrac : FracPart frac) (hexp : ExpPart exp) : Number (minus ++ int ++ frac ++ exp)

/-- Neither a fraction nor an exponent. -/
def Integral (token : List UInt8) : Prop := ∀ b ∈ token, b ≠ 46 ∧ b ≠ 101 ∧ b ≠ 69

/-! ## Strings -/

/-- The four digits of an escape, and what comes behind them. -/
def hex4 : List UInt8 → Option (Nat × List UInt8)
  | a :: b :: c :: d :: s => do
    let a ← hexDigit a
    let b ← hexDigit b
    let c ← hexDigit c
    let d ← hexDigit d
    some (((a * 16 + b) * 16 + c) * 16 + d, s)
  | _ => none

/-- The escapes of one character. -/
def charEscape (c : UInt8) : Option UInt8 :=
  if c = 34 ∨ c = 92 ∨ c = 47 then some c
  else if c = 98 then some 8
  else if c = 102 then some 12
  else if c = 110 then some 10
  else if c = 114 then some 13
  else if c = 116 then some 9
  else none

def isHigh (value : Nat) : Bool := 0xD800 ≤ value && value ≤ 0xDBFF

def isLow (value : Nat) : Bool := 0xDC00 ≤ value && value ≤ 0xDFFF

/-- The character of a surrogate pair. -/
def paired (high low : Nat) : Nat := 0x10000 + high % 1024 * 1024 + low % 1024

/-- Does a string begin with the escape of a second half? -/
def beginsLow : List UInt8 → Bool
  | 92 :: 117 :: s => ((hex4 s).map fun found => isLow found.1).getD false
  | _ => false

/-- The bytes of the replacement character. -/
def replaced : List UInt8 := [0xEF, 0xBF, 0xBD]

/-- The first character of a string that begins with no ASCII character. -/
def firstText (s : List UInt8) : List UInt8 :=
  if decodeRune s = replacement then replaced else s.take (decodeRune s).2

/-- What comes behind `\u`: the text of the escape, and what is left. A second half belongs to a
    first one in front of it. -/
inductive UnicodeEscape : List UInt8 → List UInt8 → List UInt8 → Prop where
  | whole {value : Nat} {s s' : List UInt8} (hex : hex4 s = some (value, s'))
      (high : isHigh value = false) (low : isLow value = false) :
      UnicodeEscape s (encodeRune value) s'
  | pair {first second : Nat} {s s' s'' : List UInt8}
      (hex : hex4 s = some (first, 92 :: 117 :: s')) (high : isHigh first = true)
      (hex' : hex4 s' = some (second, s'')) (low : isLow second = true) :
      UnicodeEscape s (encodeRune (paired first second)) s''
  | lone {value : Nat} {s s' : List UInt8} (hex : hex4 s = some (value, s'))
      (half : isLow value = true ∨ isHigh value = true ∧ beginsLow s' = false) :
      UnicodeEscape s replaced s'

/-- The characters between the quotes of a string, and the text that they stand for. -/
inductive Chars : List UInt8 → List UInt8 → Prop where
  | nil : Chars [] []
  | ascii {b : UInt8} {s text : List UInt8} (control : 0x20 ≤ b) (narrow : b < 0x80)
      (plain : b ≠ 34 ∧ b ≠ 92) (rest : Chars s text) : Chars (b :: s) (b :: text)
  | wide {b : UInt8} {s text : List UInt8} (high : 0x80 ≤ b)
      (rest : Chars ((b :: s).drop (decodeRune (b :: s)).2) text) :
      Chars (b :: s) (firstText (b :: s) ++ text)
  | escape {c b : UInt8} {s text : List UInt8} (known : charEscape c = some b)
      (rest : Chars s text) : Chars (92 :: c :: s) (b :: text)
  | unicode {s piece s' text : List UInt8} (h : UnicodeEscape s piece s')
      (rest : Chars s' text) : Chars (92 :: 117 :: s) (piece ++ text)

/-! ## Values -/

/-- The bytes of `true`, `false` and `null`. -/
def trueText : List UInt8 := [116, 114, 117, 101]

def falseText : List UInt8 := [102, 97, 108, 115, 101]

def nullText : List UInt8 := [110, 117, 108, 108]

/-- The key of a member and the colon behind it. -/
inductive MemberKey : List UInt8 → List UInt8 → Prop where
  | mk {s name middle after : List UInt8} (h : Chars s name) (hmiddle : Space middle)
      (hafter : Space after) : MemberKey (34 :: s ++ 34 :: (middle ++ 58 :: after)) name

mutual

/-- The bytes of a value, and what they stand for. -/
inductive Spells : List UInt8 → Tree → Prop where
  | null : Spells nullText .null
  | true : Spells trueText (.bool true)
  | false : Spells falseText (.bool false)
  | number {token : List UInt8} (h : Number token) : Spells token (.number token)
  | string {s text : List UInt8} (h : Chars s text) : Spells (34 :: (s ++ [34])) (.string text)
  | noItems {s : List UInt8} (h : Space s) : Spells (91 :: (s ++ [93])) (.array [])
  | array {s : List UInt8} {items : List Tree} (h : Items s items) :
      Spells (91 :: (s ++ [93])) (.array items)
  | noMembers {s : List UInt8} (h : Space s) : Spells (123 :: (s ++ [125])) (.object [])
  | object {s : List UInt8} {members : List (List UInt8 × Tree)} (h : Members s members) :
      Spells (123 :: (s ++ [125])) (.object members)

/-- Values with commas between them. -/
inductive Items : List UInt8 → List Tree → Prop where
  | last {before s after : List UInt8} {item : Tree} (hbefore : Space before) (h : Spells s item)
      (hafter : Space after) : Items (before ++ s ++ after) [item]
  | cons {before s after rest : List UInt8} {item : Tree} {items : List Tree}
      (hbefore : Space before) (h : Spells s item) (hafter : Space after)
      (hrest : Items rest items) : Items (before ++ s ++ after ++ 44 :: rest) (item :: items)

/-- Members with commas between them. -/
inductive Members : List UInt8 → List (List UInt8 × Tree) → Prop where
  | last {before key s after : List UInt8} {name : List UInt8} {item : Tree}
      (hbefore : Space before) (hkey : MemberKey key name) (h : Spells s item)
      (hafter : Space after) : Members (before ++ key ++ s ++ after) [(name, item)]
  | cons {before key s after rest : List UInt8} {name : List UInt8} {item : Tree}
      {members : List (List UInt8 × Tree)} (hbefore : Space before) (hkey : MemberKey key name)
      (h : Spells s item) (hafter : Space after) (hrest : Members rest members) :
      Members (before ++ key ++ s ++ after ++ 44 :: rest) ((name, item) :: members)

end

/-- A value with white space around it. -/
inductive Text : List UInt8 → Tree → Prop where
  | mk {before s after : List UInt8} {tree : Tree} (hbefore : Space before) (h : Spells s tree)
      (hafter : Space after) : Text (before ++ s ++ after) tree

/-! ## Escapes -/

theorem hex4_eq_some {s s' : List UInt8} {value : Nat} (h : hex4 s = some (value, s')) :
    ∃ a b c d, s = a :: b :: c :: d :: s' := by
  rcases s with _ | ⟨a, _ | ⟨b, _ | ⟨c, _ | ⟨d, s⟩⟩⟩⟩
  · cases h
  · cases h
  · cases h
  · cases h
  · refine ⟨a, b, c, d, ?_⟩
    simp only [hex4, bind_eq_bind, bind_eq_some_iff, Option.some.injEq,
      Prod.mk.injEq] at h
    obtain ⟨_, _, _, _, _, _, _, _, -, rfl⟩ := h
    rfl

theorem hex4_append {s s' : List UInt8} {value : Nat} (h : hex4 s = some (value, s'))
    (t : List UInt8) : hex4 (s ++ t) = some (value, s' ++ t) := by
  obtain ⟨a, b, c, d, rfl⟩ := hex4_eq_some h
  simp only [hex4, bind_eq_bind, bind_eq_some_iff, Option.some.injEq, Prod.mk.injEq,
    List.cons_append] at h ⊢
  obtain ⟨a', ha, b', hb, c', hc, d', hd, hvalue, -⟩ := h
  exact ⟨a', ha, b', hb, c', hc, d', hd, hvalue, trivial⟩

theorem hex4_front {s c t : List UInt8} {value : Nat} (h : hex4 s = some (value, c ++ t)) :
    ∃ s', s = s' ++ t ∧ hex4 s' = some (value, c) := by
  obtain ⟨a, b, d, e, rfl⟩ := hex4_eq_some h
  refine ⟨a :: b :: d :: e :: c, rfl, ?_⟩
  simp only [hex4, bind_eq_bind, bind_eq_some_iff, Option.some.injEq,
    Prod.mk.injEq] at h ⊢
  obtain ⟨a', ha, b', hb, c', hc, d', hd, hvalue, -⟩ := h
  exact ⟨a', ha, b', hb, c', hc, d', hd, hvalue, trivial⟩

theorem hex4_lt {s s' : List UInt8} {value : Nat} (h : hex4 s = some (value, s')) :
    value < 0x10000 := by
  have hdigit {b : UInt8} {d : Nat} (hd : hexDigit b = some d) : d < 16 := by
    simp only [hexDigit, UInt8.le_iff_toNat_le, UInt8.reduceToNat] at hd
    split_ifs at hd <;> cases hd <;> omega
  obtain ⟨a, b, c, d, rfl⟩ := hex4_eq_some h
  simp only [hex4, bind_eq_bind, bind_eq_some_iff, Option.some.injEq,
    Prod.mk.injEq] at h
  obtain ⟨a', ha, b', hb, c', hc, d', hd, rfl, -⟩ := h
  have := hdigit ha
  have := hdigit hb
  have := hdigit hc
  have := hdigit hd
  omega

theorem validRune_iff (value : Nat) :
    validRune value = true ↔ value < 0xD800 ∨ 0xDFFF < value ∧ value ≤ 0x10FFFF := by
  simp [validRune]

theorem validRune_paired (first second : Nat) : validRune (paired first second) = true := by
  rw [validRune_iff, paired]
  omega

theorem validRune_whole {s s' : List UInt8} {value : Nat} (h : hex4 s = some (value, s'))
    (high : isHigh value = false) (low : isLow value = false) : validRune value = true := by
  have hlt := hex4_lt h
  simp only [isHigh, isLow, Bool.and_eq_false_iff, decide_eq_false_iff_not] at high low
  rw [validRune_iff]
  omega

theorem beginsLow_append {s : List UInt8} (h : beginsLow s = true) (t : List UInt8) :
    beginsLow (s ++ t) = true := by
  unfold beginsLow at h
  split at h
  · next s =>
    cases hhex : hex4 s with
    | none => simp [hhex] at h
    | some found =>
      simpa [beginsLow, hex4_append hhex, hhex] using h
  · cases h

theorem UnicodeEscape.length_le {s piece s' : List UInt8} (h : UnicodeEscape s piece s') :
    s'.length ≤ s.length := by
  have hlength {s s' : List UInt8} {value : Nat} (h : hex4 s = some (value, s')) :
      s'.length ≤ s.length := by
    obtain ⟨a, b, c, d, rfl⟩ := hex4_eq_some h
    simp only [List.length_cons]
    omega
  cases h with
  | whole hex _ _ => exact hlength hex
  | pair hex _ hex' _ =>
    have hfirst := hlength hex
    have hsecond := hlength hex'
    simp only [List.length_cons] at hfirst
    omega
  | lone hex _ => exact hlength hex

theorem UnicodeEscape.front {s piece c t : List UInt8} (h : UnicodeEscape s piece (c ++ t)) :
    ∃ s', s = s' ++ t ∧ UnicodeEscape s' piece c := by
  generalize hleft : c ++ t = left at h
  cases h with
  | whole hex high low =>
    subst hleft
    obtain ⟨s', hs, hex⟩ := hex4_front hex
    exact ⟨s', hs, .whole hex high low⟩
  | pair hex high hex' low =>
    subst hleft
    obtain ⟨s₂, rfl, hsecond⟩ := hex4_front hex'
    obtain ⟨s₁, hs, hfirst⟩ := @hex4_front _ (92 :: 117 :: s₂) _ _ hex
    exact ⟨s₁, hs, .pair hfirst high hsecond low⟩
  | lone hex half =>
    subst hleft
    obtain ⟨s', hs, hex⟩ := hex4_front hex
    refine ⟨s', hs, .lone hex (half.imp_right fun ⟨hhigh, hlow⟩ => ⟨hhigh, ?_⟩)⟩
    by_contra hbegins
    rw [Bool.not_eq_false] at hbegins
    rw [beginsLow_append hbegins t] at hlow
    cases hlow

theorem Chars.hex4 {s text : List UInt8} (h : Chars (92 :: 117 :: s) text) :
    ∃ found, Json.hex4 s = some found := by
  cases h with
  | ascii _ _ plain _ => exact absurd rfl plain.2
  | wide high _ => exact absurd high (by decide)
  | escape known _ => simp [charEscape] at known
  | unicode h _ =>
    cases h with
    | whole hex _ _ | pair hex _ _ _ | lone hex _ => exact ⟨_, hex⟩

/-! ## White space -/

theorem Space.nil : Space [] := by
  intro b hb
  cases hb

theorem Space.append {v w : List UInt8} (hv : Space v) (hw : Space w) : Space (v ++ w) := by
  intro b hb
  rcases List.mem_append.mp hb with hb | hb
  · exact hv b hb
  · exact hw b hb

theorem Items.space {w s : List UInt8} {items : List Tree} (hw : Space w) (h : Items s items) :
    Items (w ++ s) items := by
  cases h with
  | @last before _ _ _ hbefore h hafter =>
    simpa only [List.append_assoc] using Items.last (hw.append hbefore) h hafter
  | @cons before _ _ _ _ _ hbefore h hafter hrest =>
    simpa only [List.append_assoc] using Items.cons (hw.append hbefore) h hafter hrest

theorem Members.space {w s : List UInt8} {members : List (List UInt8 × Tree)} (hw : Space w)
    (h : Members s members) : Members (w ++ s) members := by
  cases h with
  | last hbefore hkey h hafter =>
    simpa only [List.append_assoc] using Members.last (hw.append hbefore) hkey h hafter
  | cons hbefore hkey h hafter hrest =>
    simpa only [List.append_assoc] using Members.cons (hw.append hbefore) hkey h hafter hrest

end Json
