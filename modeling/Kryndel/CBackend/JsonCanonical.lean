import Kryndel.CBackend.JsonValues
import Kryndel.CBackend.JsonWriter

/-!
# Canonical JSON texts

What the parser reads of a text without fractions and exponents is canonical, and what the writer
makes of it stands for the same value again.
-/

namespace Json

open Runes Quoting List

mutual

/-- The numbers of a tree. -/
def Tree.tokens : Tree → List (List UInt8)
  | .number token => [token]
  | .array items => tokensOfItems items
  | .object members => tokensOfMembers members
  | _ => []

def tokensOfItems : List Tree → List (List UInt8)
  | [] => []
  | item :: items => item.tokens ++ tokensOfItems items

def tokensOfMembers : List (List UInt8 × Tree) → List (List UInt8)
  | [] => []
  | (_, item) :: members => item.tokens ++ tokensOfMembers members

end

theorem mem_of_mem_tokens {c : List UInt8} {tree : Tree} (h : Spells c tree) :
    ∀ token ∈ tree.tokens, ∀ b ∈ token, b ∈ c := by
  refine @Spells.rec
    (fun c tree _ => ∀ token ∈ tree.tokens, ∀ b ∈ token, b ∈ c)
    (fun c items _ => ∀ token ∈ tokensOfItems items, ∀ b ∈ token, b ∈ c)
    (fun c members _ => ∀ token ∈ tokensOfMembers members, ∀ b ∈ token, b ∈ c)
    ?null ?true ?false ?number ?string ?noItems ?array ?noMembers ?object ?lastItem ?consItem
    ?lastMember ?consMember c tree h
  case null | true | false => exact fun token htoken => (List.not_mem_nil htoken).elim
  case string | noItems | noMembers =>
    exact fun _ token htoken => (List.not_mem_nil htoken).elim
  case number =>
    intro token h other hother b hb
    exact List.mem_singleton.mp hother ▸ hb
  case array | object =>
    intro s items h ih token htoken b hb
    exact List.mem_cons_of_mem _ (List.mem_append_left _ (ih token htoken b hb))
  case lastItem =>
    intro before s after item hbefore h hafter ih token htoken b hb
    rw [tokensOfItems, tokensOfItems, List.append_nil] at htoken
    exact List.mem_append_left _ (List.mem_append_right _ (ih token htoken b hb))
  case consItem =>
    intro before s after rest item items hbefore h hafter hrest ih ihrest token htoken b hb
    rcases mem_append.mp htoken with htoken | htoken
    · exact List.mem_append_left _
        (List.mem_append_left _ (List.mem_append_right _ (ih token htoken b hb)))
    · exact List.mem_append_right _ (List.mem_cons_of_mem _ (ihrest token htoken b hb))
  case lastMember =>
    intro before key s after name item hbefore hkey h hafter ih token htoken b hb
    rw [tokensOfMembers, tokensOfMembers, List.append_nil] at htoken
    exact List.mem_append_left _ (List.mem_append_right _ (ih token htoken b hb))
  case consMember =>
    intro before key s after rest name item members hbefore hkey h hafter hrest ih ihrest token
      htoken b hb
    rcases mem_append.mp htoken with htoken | htoken
    · exact List.mem_append_left _
        (List.mem_append_left _ (List.mem_append_right _ (ih token htoken b hb)))
    · exact List.mem_append_right _ (List.mem_cons_of_mem _ (ihrest token htoken b hb))

theorem Text.integral {t : List UInt8} {tree : Tree} (h : Text t tree) (ht : Integral t) :
    ∀ token ∈ tree.tokens, Integral token := by
  obtain ⟨-, hspells, -⟩ := h
  intro token htoken b hb
  have hmem := mem_of_mem_tokens hspells token htoken b hb
  exact ht b (List.mem_append_left _ (List.mem_append_right _ hmem))

/-! ## Strings -/

theorem charEscape_ascii {c b : UInt8} (h : charEscape c = some b) : b < 0x80 := by
  rw [charEscape] at h
  split_ifs at h with h0
  · cases h
    rcases h0 with rfl | rfl | rfl <;> decide
  all_goals
    cases h
    decide

theorem utf8Char_replaced : Utf8Char replaced := .wide (by decide) (by decide) (by decide)

theorem UnicodeEscape.utf8Char {s piece s' : List UInt8} (h : UnicodeEscape s piece s') :
    Utf8Char piece := by
  cases h with
  | whole hex high low => exact utf8Char_encodeRune (validRune_whole hex high low)
  | pair hex high hex' low => exact utf8Char_encodeRune (validRune_paired _ _)
  | lone hex half => exact utf8Char_replaced

theorem Chars.utf8Text {s text : List UInt8} (h : Chars s text) : Utf8Text text := by
  induction h with
  | nil => exact .nil
  | ascii control narrow plain rest ih => exact .cons (.ascii narrow) ih
  | @wide b s text high rest ih =>
    refine .cons ?_ ih
    rw [firstText]
    split
    · exact utf8Char_replaced
    · next hread => exact utf8Char_first high hread
  | escape known rest ih => exact .cons (.ascii (charEscape_ascii known)) ih
  | unicode h rest ih => exact .cons h.utf8Char ih

end Json

namespace Kryndel

open Json Runes Quoting SortedTable

mutual

/-- What the canonical text of a value stands for. -/
def JsonData.asTree : JsonData → Tree
  | .null => .null
  | .bool b => .bool b
  | .int i => .number (int64Text i)
  | .float _ => .null
  | .number token => .number token
  | .string text => .string text
  | .array items => .array (asItems items)
  | .object members => .object (asMembers members)

def asItems : List JsonData → List Tree
  | [] => []
  | item :: items => item.asTree :: asItems items

def asMembers : List (List UInt8 × JsonData) → List (List UInt8 × Tree)
  | [] => []
  | (name, item) :: members => (name, item.asTree) :: asMembers members

end

theorem asItems_eq (items : List JsonData) : asItems items = items.map JsonData.asTree := by
  induction items with
  | nil => rfl
  | cons item items ih => rw [asItems, ih, List.map_cons]

theorem asMembers_eq (members : List (List UInt8 × JsonData)) :
    asMembers members = members.map fun m => (m.1, m.2.asTree) := by
  induction members with
  | nil => rfl
  | cons member members ih => rw [asMembers, ih, List.map_cons]

theorem kNodes_eq (strtod : List UInt8 → Option Float64) (items : List Tree) :
    kNodes strtod items = items.map (kNode strtod) := by
  induction items with
  | nil => rfl
  | cons item items ih => rw [kNodes, ih, List.map_cons]

theorem kNamed_eq (strtod : List UInt8 → Option Float64) (members : List (List UInt8 × Tree)) :
    kNamed strtod members = members.map fun m => (m.1, kNode strtod m.2) := by
  induction members with
  | nil => rfl
  | cons member members ih => rw [kNamed, ih, List.map_cons]

variable {d : Nat}

theorem depths_le {items : List Tree} :
    depths items ≤ d ↔ ∀ item ∈ items, item.depth ≤ d := by
  induction items with
  | nil => simp [depths]
  | cons item items ih => simp [depths, ih]

theorem depthsOfMembers_le {members : List (List UInt8 × Tree)} :
    depthsOfMembers members ≤ d ↔ ∀ m ∈ members, m.2.depth ≤ d := by
  induction members with
  | nil => simp [depthsOfMembers]
  | cons member members ih => simp [depthsOfMembers, ih]

/-! ## What is read is canonical -/

variable (strtod : List UInt8 → Option Float64)

theorem canonical_kJsonNumber {token : List UInt8} (h : Number token) (hint : Integral token) :
    Canonical (kJsonNumber strtod token (hasFraction token)) ∧
      (kJsonNumber strtod token (hasFraction token)).asTree.depth = 0 := by
  rw [kJsonNumber, (hasFraction_eq_false token).mpr hint]
  cases hlarge : parseInt64 token with
  | none => exact ⟨.number h hint hlarge, rfl⟩
  | some i => exact ⟨.int i, rfl⟩

/-- What is read is canonical, and not deeper than the text. -/
theorem canonical_kNode {c : List UInt8} {tree : Tree} (h : Spells c tree)
    (hint : ∀ token ∈ tree.tokens, Integral token) :
    Canonical (kNode strtod tree) ∧ (kNode strtod tree).asTree.depth ≤ tree.depth := by
  refine @Spells.rec
    (fun c tree _ => (∀ token ∈ tree.tokens, Integral token) →
      Canonical (kNode strtod tree) ∧ (kNode strtod tree).asTree.depth ≤ tree.depth)
    (fun c items _ => (∀ token ∈ tokensOfItems items, Integral token) →
      ∀ node ∈ kNodes strtod items, Canonical node ∧ node.asTree.depth ≤ depths items)
    (fun c members _ => (∀ token ∈ tokensOfMembers members, Integral token) →
      ∀ m ∈ kNamed strtod members, Utf8Text m.1 ∧ Canonical m.2 ∧
        m.2.asTree.depth ≤ depthsOfMembers members)
    ?null ?true ?false ?number ?string ?noItems ?array ?noMembers ?object ?lastItem ?consItem
    ?lastMember ?consMember c tree h hint
  case null => exact fun _ => ⟨.null, Nat.le_refl _⟩
  case true => exact fun _ => ⟨.bool true, Nat.le_refl _⟩
  case false => exact fun _ => ⟨.bool false, Nat.le_refl _⟩
  case number =>
    intro token h hint
    obtain ⟨hcanonical, hdepth⟩ :=
      canonical_kJsonNumber strtod h (hint token List.mem_cons_self)
    exact ⟨hcanonical, Nat.le_of_eq hdepth⟩
  case string => exact fun h _ => ⟨.string h.utf8Text, Nat.le_refl _⟩
  case noItems => exact fun _ _ => ⟨.array fun _ h => (List.not_mem_nil h).elim, Nat.le_refl _⟩
  case array =>
    intro s items h ih hint
    have hitems := ih hint
    refine ⟨.array fun item hitem => (hitems item hitem).1, ?_⟩
    rw [kNode, JsonData.asTree, Tree.depth, Tree.depth, asItems_eq]
    refine Nat.succ_le_succ (depths_le.mpr ?_)
    intro item hitem
    obtain ⟨node, hnode, rfl⟩ := List.mem_map.mp hitem
    exact (hitems node hnode).2
  case noMembers =>
    intro s h hint
    refine ⟨.object List.Pairwise.nil ?_ ?_, Nat.le_refl _⟩
    all_goals exact fun m hm => (List.not_mem_nil hm).elim
  case object =>
    intro s members h ih hint
    have hmembers := ih hint
    have hsub : ∀ m ∈ insertEach [] (kNamed strtod members), m ∈ kNamed strtod members :=
      fun m hm => (mem_insertEach hm).resolve_left List.not_mem_nil
    rw [kNode, kObject_eq]
    refine ⟨.object (increasing_insertEach List.Pairwise.nil _)
      (fun m hm => (hmembers m (hsub m hm)).1) fun m hm => (hmembers m (hsub m hm)).2.1, ?_⟩
    rw [JsonData.asTree, Tree.depth, Tree.depth, asMembers_eq]
    refine Nat.succ_le_succ (depthsOfMembers_le.mpr ?_)
    intro m hm
    obtain ⟨m', hm', rfl⟩ := List.mem_map.mp hm
    exact (hmembers m' (hsub m' hm')).2.2
  case lastItem =>
    intro before s after item hbefore h hafter ih hint node hnode
    obtain rfl := List.mem_singleton.mp hnode
    have hitem := ih fun token htoken => hint token (List.mem_append_left _ htoken)
    exact ⟨hitem.1, hitem.2.trans (Nat.le_max_left _ _)⟩
  case consItem =>
    intro before s after rest item items hbefore h hafter hrest ih ihrest hint node hnode
    rcases List.mem_cons.mp hnode with rfl | hnode
    · have hitem := ih fun token htoken => hint token (List.mem_append_left _ htoken)
      exact ⟨hitem.1, hitem.2.trans (Nat.le_max_left _ _)⟩
    · have hitems := ihrest (fun token htoken => hint token (List.mem_append_right _ htoken)) node
        hnode
      exact ⟨hitems.1, hitems.2.trans (Nat.le_max_right _ _)⟩
  case lastMember =>
    intro before key s after name item hbefore hkey h hafter ih hint m hm
    obtain rfl := List.mem_singleton.mp hm
    have hitem := ih fun token htoken => hint token (List.mem_append_left _ htoken)
    obtain ⟨hname, -, -⟩ := hkey
    exact ⟨hname.utf8Text, hitem.1, hitem.2.trans (Nat.le_max_left _ _)⟩
  case consMember =>
    intro before key s after rest name item members hbefore hkey h hafter hrest ih ihrest hint m hm
    rcases List.mem_cons.mp hm with rfl | hm
    · have hitem := ih fun token htoken => hint token (List.mem_append_left _ htoken)
      obtain ⟨hname, -, -⟩ := hkey
      exact ⟨hname.utf8Text, hitem.1, hitem.2.trans (Nat.le_max_left _ _)⟩
    · have hmembers := ihrest (fun token htoken => hint token (List.mem_append_right _ htoken)) m hm
      exact ⟨hmembers.1, hmembers.2.1, hmembers.2.2.trans (Nat.le_max_right _ _)⟩

theorem canonical_text {t : List UInt8} {tree : Tree} (h : Text t tree)
    (hint : ∀ token ∈ tree.tokens, Integral token) :
    Canonical (kNode strtod tree) ∧ (kNode strtod tree).asTree.depth ≤ tree.depth := by
  obtain ⟨-, hspells, -⟩ := h
  exact canonical_kNode strtod hspells hint

/-! ## What is written is read again -/

variable {s text : List UInt8}

theorem chars_unicodeText {n : Nat} (h : n < 0x80) (rest : Chars s text) :
    Chars (92 :: 117 :: 48 :: 48 :: hexChar (n / 16) :: hexChar (n % 16) :: s)
      (UInt8.ofNat n :: text) := by
  have hall : ∀ n < 0x80, Quoting.hexDigit (hexChar (n / 16)) = some (n / 16) ∧
      Quoting.hexDigit (hexChar (n % 16)) = some (n % 16) := by
    decide +kernel
  obtain ⟨hhigh, hlow⟩ := hall n h
  have hhex : hex4 (48 :: 48 :: hexChar (n / 16) :: hexChar (n % 16) :: s) = some (n, s) := by
    have hzero : Quoting.hexDigit 48 = some 0 := rfl
    simp only [hex4, hzero, hhigh, hlow, Option.bind_eq_bind, Option.bind_some]
    rw [show ((0 * 16 + 0) * 16 + n / 16) * 16 + n % 16 = n by omega]
  have hvalid : validRune n = true := (validRune_iff n).mpr (.inl (by omega))
  have hencode : encodeRune n = [UInt8.ofNat n] := by
    simp [encodeRune, hvalid, if_pos h]
  have hescape : UnicodeEscape (48 :: 48 :: hexChar (n / 16) :: hexChar (n % 16) :: s)
      (encodeRune n) s := by
    refine .whole hhex ?_ ?_
    · simp only [isHigh, Bool.and_eq_false_iff, decide_eq_false_iff_not]
      omega
    · simp only [isLow, Bool.and_eq_false_iff, decide_eq_false_iff_not]
      omega
  rw [hencode] at hescape
  exact .unicode hescape rest

theorem chars_marshalByte {b : UInt8} (hb : b < 0x80) (rest : Chars s text) :
    Chars (marshalByte b ++ s) (b :: text) := by
  rw [marshalByte]
  split
  · next hplain => exact .ascii hplain.1 hb ⟨hplain.2.1, hplain.2.2.1⟩ rest
  split
  · next hquote => 
    refine .escape ?_ rest
    rcases hquote with rfl | rfl <;> rfl
  split
  · next h => exact h ▸ .escape rfl rest
  split
  · next h => exact h ▸ .escape rfl rest
  split
  · next h => exact h ▸ .escape rfl rest
  split
  · next h => exact h ▸ .escape rfl rest
  split
  · next h => exact h ▸ .escape rfl rest
  · have hchars := chars_unicodeText (UInt8.lt_iff_toNat_lt.mp hb) rest
    rwa [UInt8.ofNat_toNat] at hchars

theorem chars_marshalRune {piece : List UInt8} (h : Utf8Char piece) (rest : Chars s text) :
    Chars (marshalRune ⟨(decodeRune piece).1, piece⟩ ++ s) (piece ++ text) := by
  cases h with
  | ascii h =>
    rw [decodeRune_ascii h]
    rw [marshalRune_ascii h]
    exact chars_marshalByte h rest
  | @wide a tail high length h =>
    rw [marshalRune_wide high length h]
    split
    · next hseparator =>
      have hescape (value : Nat) {s' : List UInt8} (hhex : hex4 s' = some (value, s))
          (hvalue : value = 0x2028 ∨ value = 0x2029) :
          Chars (92 :: 117 :: s') (encodeRune value ++ text) := by
        refine .unicode (.whole hhex ?_ ?_) rest
        all_goals rcases hvalue with rfl | rfl <;> rfl
      obtain ⟨rfl, rfl | rfl⟩ := separator_bytes high length h hseparator
      · exact hescape 0x2028 rfl (.inl rfl)
      · exact hescape 0x2029 rfl (.inr rfl)
    · have hchar : Utf8Char (a :: tail) := .wide high length h
      have hread := decodeRune_char hchar s
      have hwhole := decodeRune_ne_replacement hchar
      have hfirst : firstText (a :: (tail ++ s)) = a :: tail := by
        rw [firstText, ← List.cons_append, hread.1, if_neg hwhole, hread.2, List.take_left]
      have hchars : Chars (a :: (tail ++ s)) (firstText (a :: (tail ++ s)) ++ text) := by
        refine .wide high ?_
        rw [← List.cons_append, hread.1, hread.2, List.drop_left]
        exact rest
      rwa [hfirst] at hchars

theorem chars_kJsonEscapeFrom (h : Utf8Text text) :
    Chars (kJsonEscapeFrom text) text := by
  induction h with
  | nil => exact .nil
  | cons h rest ih =>
    rw [kJsonEscapeFrom_char h]
    exact chars_marshalRune h ih

/-! ## Numbers -/

theorem digitByte_toNat (h : d < 10) : (UInt8.ofNat (48 + d)).toNat = 48 + d := by
  rw [UInt8.toNat_ofNat', Nat.mod_eq_of_lt (by omega)]

theorem isDecimal_digitByte (h : d < 10) : isDecimal (UInt8.ofNat (48 + d)) = true := by
  simp only [isDecimal, Bool.and_eq_true, decide_eq_true_eq, UInt8.le_iff_toNat_le,
    digitByte_toNat h, UInt8.reduceToNat]
  omega

variable (n : Nat)

theorem intPart_natText : IntPart (natText n) := by
  rw [natText]
  split
  · exact .zero
  · next hpos =>
    have hne : Nat.digits 10 n ≠ [] := Nat.digits_ne_nil_iff_ne_zero.mpr hpos
    have hlast : (Nat.digits 10 n).getLast hne ≠ 0 := Nat.getLast_digit_ne_zero 10 hpos
    have hdigits : ∀ d ∈ Nat.digits 10 n, d < 10 := fun d hd =>
      Nat.digits_lt_base (by decide) hd
    rw [← List.dropLast_append_getLast hne] at hdigits ⊢
    rw [List.map_append, List.reverse_append]
    have hten := hdigits _ (List.mem_append_right _ List.mem_cons_self)
    refine .digits (isDecimal_digitByte hten) ?_ ?_
    · intro hzero
      have hvalue := congrArg UInt8.toNat hzero
      rw [digitByte_toNat hten] at hvalue
      exact hlast (Nat.add_left_cancel hvalue)
    · intro b hb
      obtain ⟨d, hd, rfl⟩ := List.mem_map.mp (List.mem_reverse.mp hb)
      exact isDecimal_digitByte (hdigits d (List.mem_append_left _ hd))

theorem decimalNat_digits {digits : List Nat} (h : ∀ d ∈ digits, d < 10) :
    decimalNat (digits.map fun d => UInt8.ofNat (48 + d)).reverse = Nat.ofDigits 10 digits := by
  rw [decimalNat, List.foldl_reverse]
  induction digits with
  | nil => rfl
  | cons d digits ih =>
    rw [List.map_cons, List.foldr_cons, ih fun d hd => h d (List.mem_cons_of_mem _ hd),
      Nat.ofDigits_cons, digitByte_toNat (h d List.mem_cons_self)]
    omega

theorem decimalNat_natText : decimalNat (natText n) = n := by
  rw [natText]
  split
  · next h => exact h ▸ rfl
  · rw [decimalNat_digits fun d hd => Nat.digits_lt_base (by decide) hd, Nat.ofDigits_digits]

theorem decimalInt_natText : decimalInt (natText n) = n := by
  have hdigits := intPart_digits (intPart_natText n)
  have hplain : decimalInt (natText n) = decimalNat (natText n) := by
    rw [decimalInt]
    intro digits hminus
    have hfirst := hdigits 45 (hminus ▸ List.mem_cons_self)
    revert hfirst
    decide
  rw [hplain, decimalNat_natText]

theorem decimalInt_int64Text (i : Int64) : decimalInt (int64Text i) = i.toInt := by
  rw [int64Text]
  split
  · next hneg =>
    show -(decimalNat (natText i.toInt.natAbs) : Int) = i.toInt
    rw [decimalNat_natText]
    omega
  · rw [decimalInt_natText]
    omega

theorem parseInt64_int64Text (i : Int64) : parseInt64 (int64Text i) = some i := by
  have hlow := i.le_toInt
  have hhigh := i.toInt_lt
  have hvalue := decimalInt_int64Text i
  rw [parseInt64, hvalue, if_pos (by omega), Int64.ofInt_toInt]

theorem integral_natText : Integral (natText n) := by
  intro b hb
  have hdigit := intPart_digits (intPart_natText n) b hb
  refine ⟨?_, ?_, ?_⟩
  all_goals
    rintro rfl
    revert hdigit
    decide

theorem number_int64Text (i : Int64) : Number (int64Text i) ∧ Integral (int64Text i) := by
  have hnumber (minus : List UInt8) (sign : minus = [] ∨ minus = [45]) (n : Nat) :
      Number (minus ++ natText n) := by
    have hmk := Number.mk sign (intPart_natText n) .none .none
    rwa [List.append_nil, List.append_nil] at hmk
  rw [int64Text]
  split
  · refine ⟨hnumber [45] (.inr rfl) _, ?_⟩
    intro b hb
    rcases List.mem_cons.mp hb with rfl | hb
    · decide
    · exact integral_natText _ b hb
  · exact ⟨hnumber [] (.inl rfl) _, integral_natText _⟩

/-! ## Values -/

theorem items_commas {α : Type} {text : α → List UInt8} {tree : α → Tree} {items : List α}
    (hne : items ≠ []) (h : ∀ item ∈ items, Spells (text item) (tree item)) :
    Items (commas (items.map text)) (items.map tree) := by
  induction items with
  | nil => exact absurd rfl hne
  | cons item items ih =>
    have hitem := h item List.mem_cons_self
    cases items with
    | nil =>
      have hlast := Items.last Space.nil hitem Space.nil
      rwa [List.append_nil] at hlast
    | cons item' items =>
      have hrest := ih (List.cons_ne_nil _ _) fun i hi => h i (List.mem_cons_of_mem _ hi)
      have hcons := Items.cons Space.nil hitem Space.nil hrest
      rwa [List.append_nil] at hcons

theorem named_kJsonEscape {name : List UInt8} (h : Utf8Text name) :
    MemberKey (kJsonEscape name ++ [58]) name := by
  have hnamed := MemberKey.mk (chars_kJsonEscapeFrom h) Space.nil Space.nil
  rw [kJsonEscape]
  simpa using hnamed

theorem members_commas {α : Type} {name text : α → List UInt8} {tree : α → Tree} {members : List α}
    (hne : members ≠ []) (hnames : ∀ m ∈ members, Utf8Text (name m))
    (h : ∀ m ∈ members, Spells (text m) (tree m)) :
    Members (commas (members.map fun m => kJsonEscape (name m) ++ 58 :: text m))
      (members.map fun m => (name m, tree m)) := by
  induction members with
  | nil => exact absurd rfl hne
  | cons m members ih =>
    have hm := h m List.mem_cons_self
    have hname := named_kJsonEscape (hnames m List.mem_cons_self)
    cases members with
    | nil =>
      have hlast := Members.last Space.nil hname hm Space.nil
      simpa [commas] using hlast
    | cons m' members =>
      have hrest := ih (List.cons_ne_nil _ _) (fun i hi => hnames i (List.mem_cons_of_mem _ hi))
        fun i hi => h i (List.mem_cons_of_mem _ hi)
      have hcons := Members.cons Space.nil hname hm Space.nil hrest
      simpa [commas] using hcons

theorem spells_kJsonWrite (kJsonFloat : Float64 → List UInt8) {node : JsonData}
    (h : Canonical node) : Spells (kJsonWrite kJsonFloat node) node.asTree := by
  have hlt : ∀ s t : List UInt8, s < t → decide (kJsonKeyIndexCompare s t ≠ .gt) = true := by
    intro s t hless
    simp [kJsonKeyIndexCompare_lt hless]
  rw [kJsonWrite]
  induction h with
  | null => exact .null
  | bool b =>
    cases b
    · exact .false
    · exact .true
  | int i => exact .number (number_int64Text i).1
  | number h hint large => exact .number h
  | string h => exact .string (chars_kJsonEscapeFrom h)
  | @array items h ih =>
    rw [writeNode, writeItems_eq, JsonData.asTree, asItems_eq]
    by_cases hne : items = []
    · subst hne
      exact .noItems .nil
    · exact .array (items_commas hne ih)
  | @object members hkeys hnames h ih =>
    rw [writeNode, writeMembers_eq, JsonData.asTree, asMembers_eq,
      insertionSort_increasing (hkeys.map _) hlt, List.map_map]
    by_cases hne : members = []
    · subst hne
      exact .noMembers .nil
    · exact .object (members_commas hne hnames ih)

theorem kNode_asTree {node : JsonData} (h : Canonical node) : kNode strtod node.asTree = node := by
  induction h with
  | null => rfl
  | bool b => rfl
  | int i =>
    rw [JsonData.asTree, kNode, kJsonNumber,
      (hasFraction_eq_false _).mpr (number_int64Text i).2, parseInt64_int64Text]
    rfl
  | number h hint large =>
    rw [JsonData.asTree, kNode, kJsonNumber, (hasFraction_eq_false _).mpr hint, large]
    rfl
  | string h => rfl
  | @array items h ih =>
    rw [JsonData.asTree, kNode, kNodes_eq, asItems_eq, List.map_map]
    have hitems : items.map (kNode strtod ∘ JsonData.asTree) = items.map id :=
      List.map_congr_left ih
    rw [hitems, List.map_id]
  | @object members hkeys hnames h ih =>
    rw [JsonData.asTree, kNode, kObject_eq, kNamed_eq, asMembers_eq, List.map_map]
    have hmembers : members.map ((fun m : List UInt8 × Tree => (m.1, kNode strtod m.2)) ∘
        fun m => (m.1, m.2.asTree)) = members.map id :=
      List.map_congr_left fun m hm => congrArg (Prod.mk m.1) (ih m hm)
    rw [hmembers, List.map_id, insertEach_increasing hkeys]

end Kryndel
