import Kryndel.CBackend.JsonNumbers
import Kryndel.CBackend.JsonStrings

/-!
# Values of the JSON parser in the C runtime

`k_json_value` reads the values of the grammar, and nothing else.
-/

namespace Json

mutual

/-- How many arrays and objects are inside of each other. -/
def Tree.depth : Tree → Nat
  | .array items => depths items + 1
  | .object members => depthsOfMembers members + 1
  | _ => 0

def depths : List Tree → Nat
  | [] => 0
  | item :: items => max item.depth (depths items)

def depthsOfMembers : List (List UInt8 × Tree) → Nat
  | [] => 0
  | (_, item) :: members => max item.depth (depthsOfMembers members)

end

/-- Does a token have a fraction or an exponent? -/
def hasFraction (token : List UInt8) : Bool := token.any fun b => b == 46 || b == 101 || b == 69

theorem hasFraction_eq_false (token : List UInt8) : hasFraction token = false ↔ Integral token := by
  simp [hasFraction, Integral, and_assoc]

end Json

namespace Kryndel

open Json

/-! ## White space -/

theorem kJsonWs_space {w s : List UInt8} (hw : Space w) (hs : ∀ b ∈ s.head?, isSpace b = false) :
    kJsonWs (w ++ s) = s := by
  induction w with
  | nil =>
    cases s with
    | nil => rfl
    | cons b s => exact List.dropWhile_cons_of_neg (by simp [hs b rfl])
  | cons b w ih =>
    rw [List.cons_append, kJsonWs, List.dropWhile_cons_of_pos (hw b List.mem_cons_self)]
    exact ih fun c hc => hw c (List.mem_cons_of_mem _ hc)

theorem exists_space (s : List UInt8) : ∃ w, Space w ∧ s = w ++ kJsonWs s :=
  ⟨s.takeWhile isSpace, fun _ hb => List.mem_takeWhile_imp hb, List.takeWhile_append_dropWhile.symm⟩

theorem stops_space {w s : List UInt8} (hw : Space w) (hs : StopsNumber s) :
    StopsNumber (w ++ s) := by
  cases w with
  | nil => exact hs
  | cons b w =>
    intro c hc
    cases hc
    have hspace := hw b List.mem_cons_self
    simp only [isSpace, Bool.or_eq_true, beq_iff_eq] at hspace
    rcases hspace with ((rfl | rfl) | rfl) | rfl <;> decide

theorem stops_cons {b : UInt8} (h : isDecimal b = false ∧ b ≠ 46 ∧ b ≠ 101 ∧ b ≠ 69)
    (s : List UInt8) : StopsNumber (b :: s) := by
  intro c hc
  cases hc
  exact h

/-! ## Trees -/

section Nodes

variable (strtod : List UInt8 → Option Float64)

mutual

/-- The value of the runtime for a tree. -/
def kNode : Tree → JsonData
  | .null => .null
  | .bool b => .bool b
  | .number token => kJsonNumber strtod token (hasFraction token)
  | .string text => .string text
  | .array items => .array (kNodes items)
  | .object members => kObject (kNamed members)

def kNodes : List Tree → List JsonData
  | [] => []
  | item :: items => kNode item :: kNodes items

def kNamed : List (List UInt8 × Tree) → List (List UInt8 × JsonData)
  | [] => []
  | (name, item) :: members => (name, kNode item) :: kNamed members

end

theorem isf_eq {token : List UInt8} {isf : Bool} (h : isf = false ↔ Integral token) :
    isf = hasFraction token := by
  rw [← hasFraction_eq_false] at h
  cases isf with
  | false => exact (h.mp rfl).symm
  | true =>
    cases hfraction : hasFraction token with
    | true => rfl
    | false => exact h.mpr hfraction

/-! ## What is read -/

variable {strtod}

theorem kJsonLiteral_sound {literal s rest : List UInt8} {literalNode node : JsonData}
    (h : kJsonLiteral literal literalNode s = some (node, rest)) :
    s = literal ++ rest ∧ literalNode = node := by
  rw [kJsonLiteral] at h
  split at h
  · next hfront =>
    cases h
    obtain ⟨t, rfl⟩ := List.isPrefixOf_iff_prefix.mp hfront
    rw [List.drop_left]
    exact ⟨rfl, rfl⟩
  · cases h

/-- What a call with some fuel reads. -/
def SoundValues (strtod : List UInt8 → Option Float64) (n : Nat) : Prop :=
  ∀ depth s node rest, kJsonValue strtod n depth s = some (node, rest) →
    ∃ w c tree, s = w ++ c ++ rest ∧ Space w ∧ Spells c tree ∧ kNode strtod tree = node

def SoundItems (strtod : List UInt8 → Option Float64) (n : Nat) : Prop :=
  ∀ depth s nodes rest, kJsonItems strtod n depth s = some (nodes, rest) →
    ∃ c items, s = c ++ 93 :: rest ∧ Items c items ∧ kNodes strtod items = nodes

def SoundMembers (strtod : List UInt8 → Option Float64) (n : Nat) : Prop :=
  ∀ depth s nodes rest, kJsonMembers strtod n depth s = some (nodes, rest) →
    ∃ c members, s = c ++ 125 :: rest ∧ Members c members ∧ kNamed strtod members = nodes

variable {n : Nat}

theorem soundItems_succ (hvalues : SoundValues strtod n) (hitems : SoundItems strtod n) :
    SoundItems strtod (n + 1) := by
  intro depth s nodes rest h
  rw [kJsonItems, Option.bind_eq_some_iff] at h
  obtain ⟨⟨node, s₁⟩, hvalue, h⟩ := h
  obtain ⟨w, c, tree, rfl, hw, hc, rfl⟩ := hvalues _ _ _ _ hvalue
  obtain ⟨after, hafter, hs⟩ := exists_space s₁
  simp only at h
  split at h
  · next s₂ hws =>
    simp only [Option.map_eq_some_iff, Prod.exists, Prod.mk.injEq] at h
    obtain ⟨nodes', rest', hread, rfl, rfl⟩ := h
    obtain ⟨c', items, rfl, hc', rfl⟩ := hitems _ _ _ _ hread
    refine ⟨w ++ c ++ after ++ 44 :: c', tree :: items, ?_, .cons hw hc hafter hc', rfl⟩
    rw [hs, hws]
    simp
  · next s₂ hws =>
    cases h
    refine ⟨w ++ c ++ after, [tree], ?_, .last hw hc hafter, rfl⟩
    rw [hs, hws]
    simp
  · cases h

theorem soundMembers_succ (hvalues : SoundValues strtod n) (hmembers : SoundMembers strtod n) :
    SoundMembers strtod (n + 1) := by
  intro depth s nodes rest h
  rw [kJsonMembers] at h
  obtain ⟨before, hbefore, hs⟩ := exists_space s
  split at h
  next s₁ hws =>
    rw [Option.bind_eq_some_iff] at h
    obtain ⟨⟨name, s₂⟩, hname, h⟩ := h
    obtain ⟨key, rfl, hkey⟩ := kJsonString_sound hname
    obtain ⟨middle, hmiddle, hs₂⟩ := exists_space s₂
    simp only at h
    split at h
    next s₃ hws₂ =>
      rw [Option.bind_eq_some_iff] at h
      obtain ⟨⟨node, s₄⟩, hvalue, h⟩ := h
      obtain ⟨w, c, tree, rfl, hw, hc, rfl⟩ := hvalues _ _ _ _ hvalue
      obtain ⟨after, hafter, hs₄⟩ := exists_space s₄
      have hnamed : MemberKey (34 :: key ++ 34 :: (middle ++ 58 :: w)) name := .mk hkey hmiddle hw
      split at h
      · next s₅ hws₄ =>
        simp only [Option.map_eq_some_iff, Prod.exists, Prod.mk.injEq] at h
        obtain ⟨nodes', rest', hread, rfl, rfl⟩ := h
        obtain ⟨c', members, rfl, hc', rfl⟩ := hmembers _ _ _ _ hread
        refine ⟨_, (name, tree) :: members, ?_, .cons hbefore hnamed hc hafter hc', rfl⟩
        rw [hs, hws, hs₂, hws₂, hs₄, hws₄]
        simp
      · next s₅ hws₄ =>
        cases h
        refine ⟨_, [(name, tree)], ?_, .last hbefore hnamed hc hafter, rfl⟩
        rw [hs, hws, hs₂, hws₂, hs₄, hws₄]
        simp
      · cases h
    · cases h
  · cases h

theorem soundValues_succ (hitems : SoundItems strtod n) (hmembers : SoundMembers strtod n) :
    SoundValues strtod (n + 1) := by
  intro depth s node rest h
  obtain ⟨w, hw, hs⟩ := exists_space s
  rw [kJsonValue] at h
  suffices hread : ∃ c tree, kJsonWs s = c ++ rest ∧ Spells c tree ∧ kNode strtod tree = node by
    obtain ⟨c, tree, hws, hc, hnode⟩ := hread
    refine ⟨w, c, tree, ?_, hw, hc, hnode⟩
    rw [hs, hws, List.append_assoc]
  cases hws : kJsonWs s with
  | nil =>
    rw [hws] at h
    cases h
  | cons a t =>
    rw [hws] at h
    simp only at h
    obtain ⟨inner, hinner, ht⟩ := exists_space t
    split at h
    · next ha =>
      subst ha
      split at h
      · cases h
      split at h
      · next left hleft =>
        cases h
        refine ⟨123 :: (inner ++ [125]), .object [], ?_, .noMembers hinner, ?_⟩
        · rw [ht, hleft]
          simp
        · rfl
      · simp only [Option.map_eq_some_iff, Prod.exists, Prod.mk.injEq] at h
        obtain ⟨nodes, rest', hread, rfl, rfl⟩ := h
        obtain ⟨c, members, hleft, hc, rfl⟩ := hmembers _ _ _ _ hread
        refine ⟨123 :: (inner ++ c ++ [125]), .object members, ?_, .object (hc.space hinner), rfl⟩
        rw [ht, hleft]
        simp
    split at h
    · next ha =>
      subst ha
      split at h
      · cases h
      split at h
      · next left hleft =>
        cases h
        refine ⟨91 :: (inner ++ [93]), .array [], ?_, .noItems hinner, rfl⟩
        rw [ht, hleft]
        simp
      · simp only [Option.map_eq_some_iff, Prod.exists, Prod.mk.injEq] at h
        obtain ⟨nodes, rest', hread, rfl, rfl⟩ := h
        obtain ⟨c, items, hleft, hc, rfl⟩ := hitems _ _ _ _ hread
        refine ⟨91 :: (inner ++ c ++ [93]), .array items, ?_, .array (hc.space hinner), rfl⟩
        rw [ht, hleft]
        simp
    split at h
    · next ha =>
      subst ha
      simp only [Option.map_eq_some_iff, Prod.exists, Prod.mk.injEq] at h
      obtain ⟨text, rest', hread, rfl, rfl⟩ := h
      obtain ⟨c, rfl, hc⟩ := kJsonString_sound hread
      exact ⟨34 :: (c ++ [34]), .string text, by simp, .string hc, rfl⟩
    split at h
    · obtain ⟨hliteral, rfl⟩ := kJsonLiteral_sound h
      exact ⟨_, _, hliteral, .true, rfl⟩
    split at h
    · obtain ⟨hliteral, rfl⟩ := kJsonLiteral_sound h
      exact ⟨_, _, hliteral, .false, rfl⟩
    split at h
    · obtain ⟨hliteral, rfl⟩ := kJsonLiteral_sound h
      exact ⟨_, _, hliteral, .null, rfl⟩
    · simp only [Option.map_eq_some_iff, Prod.exists, Prod.mk.injEq] at h
      obtain ⟨token, isf, rest', hread, rfl, rfl⟩ := h
      obtain ⟨htoken, hnumber, hisf⟩ := kJsonNumberToken_sound hread
      refine ⟨token, .number token, htoken, .number hnumber, ?_⟩
      rw [kNode, isf_eq hisf]

theorem kJsonValue_sound (n : Nat) : SoundValues strtod n := by
  suffices h : SoundValues strtod n ∧ SoundItems strtod n ∧ SoundMembers strtod n from h.1
  induction n with
  | zero =>
    refine ⟨?_, ?_, ?_⟩
    · intro depth s node rest h
      cases h
    all_goals
      intro depth s nodes rest h
      cases h
  | succ n ih =>
    exact ⟨soundValues_succ ih.2.1 ih.2.2, soundItems_succ ih.1 ih.2.1,
      soundMembers_succ ih.1 ih.2.2⟩

/-! ## All values are read -/

theorem number_head {token : List UInt8} (h : Number token) :
    ∃ b t, token = b :: t ∧ (isDecimal b = true ∨ b = 45) := by
  obtain ⟨rfl | rfl, hint, hfrac, hexp⟩ := h
  · cases hint with
    | zero => exact ⟨48, _, rfl, .inl rfl⟩
    | digits first _ _ => exact ⟨_, _, rfl, .inl first⟩
  · exact ⟨45, _, rfl, .inr rfl⟩

variable {c : List UInt8}

theorem spells_head {tree : Tree} (h : Spells c tree) :
    ∃ b t, c = b :: t ∧ isSpace b = false ∧ b ≠ 93 := by
  cases h with
  | null | true | false | string | noItems | array | noMembers | object =>
    exact ⟨_, _, rfl, by decide⟩
  | number h =>
    obtain ⟨b, t, rfl, hb⟩ := number_head h
    refine ⟨b, t, rfl, ?_, ?_⟩
    · by_contra hspace
      simp only [isSpace, Bool.not_eq_false, Bool.or_eq_true, beq_iff_eq] at hspace
      rcases hspace with ((rfl | rfl) | rfl) | rfl <;> revert hb <;> decide
    · rintro rfl
      revert hb
      decide

theorem kJsonWs_spells {w c rest : List UInt8} {tree : Tree} (hw : Space w) (h : Spells c tree) :
    kJsonWs (w ++ c ++ rest) = c ++ rest := by
  obtain ⟨b, t, rfl, hb, -⟩ := spells_head h
  rw [List.append_assoc]
  apply kJsonWs_space hw
  intro b' hb'
  cases hb'
  exact hb

theorem kJsonLiteral_complete (literal : List UInt8) (node : JsonData) (rest : List UInt8) :
    kJsonLiteral literal node (literal ++ rest) = some (node, rest) := by
  rw [kJsonLiteral, if_pos (List.isPrefixOf_iff_prefix.mpr (List.prefix_append literal rest)),
    List.drop_left]

/-- What a call reads, given values of some length. -/
def AcceptsValues (strtod : List UInt8 → Option Float64) (k : Nat) : Prop :=
  ∀ c tree, c.length ≤ k → Spells c tree → ∀ n depth w rest, 2 * c.length ≤ n →
    depth + tree.depth ≤ kMaxJsonNestingDepth → Space w → StopsNumber rest →
    kJsonValue strtod n depth (w ++ c ++ rest) = some (kNode strtod tree, rest)

def AcceptsItems (strtod : List UInt8 → Option Float64) (k : Nat) : Prop :=
  ∀ c items, c.length ≤ k → Items c items → ∀ n depth rest, 2 * c.length < n →
    depth + depths items ≤ kMaxJsonNestingDepth →
    kJsonItems strtod n depth (c ++ 93 :: rest) = some (kNodes strtod items, rest)

def AcceptsMembers (strtod : List UInt8 → Option Float64) (k : Nat) : Prop :=
  ∀ c members, c.length ≤ k → Members c members → ∀ n depth rest, 2 * c.length < n →
    depth + depthsOfMembers members ≤ kMaxJsonNestingDepth →
    kJsonMembers strtod n depth (c ++ 125 :: rest) = some (kNamed strtod members, rest)

theorem kJsonWs_mark {w : List UInt8} (hw : Space w) {b : UInt8} (hb : isSpace b = false)
    (s : List UInt8) : kJsonWs (w ++ b :: s) = b :: s := by
  apply kJsonWs_space hw
  intro b' hb'
  cases hb'
  exact hb

theorem items_front {items : List Tree} (h : Items c items) (t : List UInt8) :
    ∃ c', kJsonWs (c ++ t) = c' ++ t ∧ Items c' items ∧ c'.length ≤ c.length ∧
      ∃ b s, c' = b :: s ∧ b ≠ 93 := by
  cases h with
  | @last before s after item hbefore h hafter =>
    obtain ⟨b, u, rfl, hb, hne⟩ := spells_head h
    refine ⟨b :: u ++ after, ?_, .last .nil h hafter, ?_, b, _, rfl, hne⟩
    · simp only [List.append_assoc, List.cons_append]
      exact kJsonWs_mark hbefore hb _
    · simp only [List.length_append]
      omega
  | @cons before s after more item items hbefore h hafter hrest =>
    obtain ⟨b, u, rfl, hb, hne⟩ := spells_head h
    refine ⟨b :: u ++ after ++ 44 :: more, ?_, .cons .nil h hafter hrest, ?_, b, _,
      rfl, hne⟩
    · simp only [List.append_assoc, List.cons_append]
      exact kJsonWs_mark hbefore hb _
    · simp only [List.length_append]
      omega

theorem memberKey_head {key name : List UInt8} (h : MemberKey key name) :
    ∃ s, key = 34 :: s := by
  obtain ⟨hname, hmiddle, hafter⟩ := h
  exact ⟨_, rfl⟩

theorem members_front {members : List (List UInt8 × Tree)} (h : Members c members)
    (t : List UInt8) :
    ∃ c', kJsonWs (c ++ t) = c' ++ t ∧ Members c' members ∧
      c'.length ≤ c.length ∧ ∃ s, c' = 34 :: s := by
  cases h with
  | @last before key s after name item hbefore hkey h hafter =>
    obtain ⟨t', rfl⟩ := memberKey_head hkey
    refine ⟨34 :: t' ++ s ++ after, ?_, .last .nil hkey h hafter, ?_, _, rfl⟩
    · simp only [List.append_assoc, List.cons_append]
      exact kJsonWs_mark hbefore (by decide) _
    · simp only [List.length_append]
      omega
  | @cons before key s after more name item members hbefore hkey h hafter hrest =>
    obtain ⟨t', rfl⟩ := memberKey_head hkey
    refine ⟨34 :: t' ++ s ++ after ++ 44 :: more, ?_, .cons .nil hkey h hafter hrest, ?_, _, rfl⟩
    · simp only [List.append_assoc, List.cons_append]
      exact kJsonWs_mark hbefore (by decide) _
    · simp only [List.length_append]
      omega

variable {k : Nat}

theorem acceptsItems_step (hvalues : AcceptsValues strtod k)
    (hitems : ∀ l < k, AcceptsItems strtod l) : AcceptsItems strtod k := by
  intro c items hk h n depth rest hn hdepth
  obtain ⟨n, rfl⟩ := Nat.exists_eq_add_one.mpr (Nat.zero_lt_of_lt hn)
  cases h with
  | @last before s after item hbefore h hafter =>
    simp only [List.length_append] at hk hn
    simp only [depths, Nat.max_zero] at hdepth
    have hstops : StopsNumber (after ++ 93 :: rest) :=
      stops_space hafter (stops_cons (by decide) rest)
    have hread := hvalues s item (by omega) h n depth before (after ++ 93 :: rest) (by omega)
      hdepth hbefore hstops
    rw [kJsonItems, List.append_assoc, hread, Option.bind_some]
    simp only [kJsonWs_mark hafter (by decide : isSpace 93 = false)]
    rfl
  | @cons before s after more item items hbefore h hafter hrest =>
    simp only [List.length_append, List.length_cons] at hk hn
    simp only [depths] at hdepth
    have hstops : StopsNumber (after ++ 44 :: (more ++ 93 :: rest)) :=
      stops_space hafter (stops_cons (by decide) _)
    have hread := hvalues s item (by omega) h n depth before (after ++ 44 :: (more ++ 93 :: rest))
      (by omega) (by omega) hbefore hstops
    have hmore := hitems more.length (by omega) more items (Nat.le_refl _) hrest n depth rest
      (by omega) (by omega)
    have hwhole : before ++ s ++ after ++ 44 :: more ++ 93 :: rest =
        before ++ s ++ (after ++ 44 :: (more ++ 93 :: rest)) := by simp
    rw [kJsonItems, hwhole, hread, Option.bind_some]
    simp only [kJsonWs_mark hafter (by decide : isSpace 44 = false), hmore]
    rfl

theorem acceptsMembers_step (hvalues : AcceptsValues strtod k)
    (hmembers : ∀ l < k, AcceptsMembers strtod l) : AcceptsMembers strtod k := by
  intro c members hk h n depth rest hn hdepth
  obtain ⟨n, rfl⟩ := Nat.exists_eq_add_one.mpr (Nat.zero_lt_of_lt hn)
  cases h with
  | @last before key s after name item hbefore hkey h hafter =>
    obtain ⟨hname, hmiddle, hw⟩ := hkey
    next key middle w =>
    simp only [List.length_append, List.length_cons] at hk hn
    simp only [depthsOfMembers, Nat.max_zero] at hdepth
    have hstops : StopsNumber (after ++ 125 :: rest) :=
      stops_space hafter (stops_cons (by decide) rest)
    have hread := hvalues s item (by omega) h n depth w (after ++ 125 :: rest) (by omega)
      hdepth hw hstops
    have hwhole : before ++ (34 :: key ++ 34 :: (middle ++ 58 :: w)) ++ s ++ after ++ 125 :: rest =
        before ++ 34 :: (key ++ 34 :: (middle ++ 58 :: (w ++ s ++ (after ++ 125 :: rest)))) := by
      simp
    rw [kJsonMembers, hwhole, kJsonWs_mark hbefore (by decide)]
    simp only
    rw [kJsonString_complete hname (Nat.lt_succ_of_le (List.sublist_append_left _ _).length_le)]
    simp only [Option.bind_some, kJsonWs_mark hmiddle (by decide : isSpace 58 = false), hread,
      kJsonWs_mark hafter (by decide : isSpace 125 = false)]
    rfl
  | @cons before key s after more name item members hbefore hkey h hafter hrest =>
    obtain ⟨hname, hmiddle, hw⟩ := hkey
    next key middle w =>
    simp only [List.length_append, List.length_cons] at hk hn
    simp only [depthsOfMembers] at hdepth
    have hstops : StopsNumber (after ++ 44 :: (more ++ 125 :: rest)) :=
      stops_space hafter (stops_cons (by decide) _)
    have hread := hvalues s item (by omega) h n depth w (after ++ 44 :: (more ++ 125 :: rest))
      (by omega) (by omega) hw hstops
    have hmore := hmembers more.length (by omega) more members (Nat.le_refl _) hrest n depth rest
      (by omega) (by omega)
    have hwhole : before ++ (34 :: key ++ 34 :: (middle ++ 58 :: w)) ++ s ++ after ++ 44 :: more ++
        125 :: rest = before ++ 34 :: (key ++ 34 :: (middle ++ 58 ::
          (w ++ s ++ (after ++ 44 :: (more ++ 125 :: rest))))) := by simp
    rw [kJsonMembers, hwhole, kJsonWs_mark hbefore (by decide)]
    simp only
    rw [kJsonString_complete hname (Nat.lt_succ_of_le (List.sublist_append_left _ _).length_le)]
    simp only [Option.bind_some, kJsonWs_mark hmiddle (by decide : isSpace 58 = false), hread,
      kJsonWs_mark hafter (by decide : isSpace 44 = false), hmore]
    rfl

theorem acceptsValues_step (hitems : ∀ l < k, AcceptsItems strtod l)
    (hmembers : ∀ l < k, AcceptsMembers strtod l) : AcceptsValues strtod k := by
  intro c tree hk h n depth w rest hn hdepth hw hrest
  have hws := @kJsonWs_spells w c rest tree hw h
  have hlength : 0 < c.length := by
    obtain ⟨b, t, rfl, -⟩ := spells_head h
    simp
  obtain ⟨n, rfl⟩ := Nat.exists_eq_add_one.mpr (show 0 < n by omega)
  rw [kJsonValue, hws]
  cases h with
  | null => exact kJsonLiteral_complete nullText .null rest
  | true => exact kJsonLiteral_complete trueText (.bool true) rest
  | false => exact kJsonLiteral_complete falseText (.bool false) rest
  | @number token h =>
    obtain ⟨b, t, rfl, hb⟩ := number_head h
    obtain ⟨isf, hread, hisf⟩ := kJsonNumberToken_complete h hrest
    have hnot (x : UInt8) (hx : isDecimal x = false ∧ x ≠ 45) : b ≠ x := by
      rintro rfl
      rcases hb with hb | hb
      · rw [hx.1] at hb
        cases hb
      · exact hx.2 hb
    simp only [List.cons_append] at hread ⊢
    rw [if_neg (hnot 123 (by decide)), if_neg (hnot 91 (by decide)), if_neg (hnot 34 (by decide)),
      if_neg (hnot 116 (by decide)), if_neg (hnot 102 (by decide)), if_neg (hnot 110 (by decide)),
      hread, isf_eq hisf]
    rfl
  | @string s text h =>
    have hfuel : s.length < (s ++ [34] ++ rest).length + 1 := by
      rw [List.append_assoc]
      exact Nat.lt_succ_of_le (List.sublist_append_left _ _).length_le
    have hread := kJsonString_complete h hfuel rest
    have hwhole : s ++ [34] ++ rest = s ++ 34 :: rest := by simp
    show (kJsonString ((s ++ [34] ++ rest).length + 1) (s ++ [34] ++ rest)).map _ = _
    rw [hwhole] at hread ⊢
    rw [hread]
    rfl
  | @noItems s h =>
    have hwhole : s ++ [93] ++ rest = s ++ 93 :: rest := by simp
    have hdeep : ¬ kMaxJsonNestingDepth ≤ depth := by
      simp only [Tree.depth] at hdepth
      omega
    rw [List.cons_append, hwhole]
    simp only
    rw [if_neg (by decide), if_pos trivial, if_neg hdeep, kJsonWs_mark h (by decide)]
    rfl
  | @array s items h =>
    have hwhole : s ++ [93] ++ rest = s ++ 93 :: rest := by simp
    simp only [Tree.depth] at hdepth
    simp only [List.length_cons, List.length_append] at hn hk
    rw [List.cons_append, hwhole]
    simp only
    obtain ⟨c', hfront, hc', hle, b, u, hcons, hne⟩ := items_front h (93 :: rest)
    have hread := hitems c'.length (by omega) c' items (Nat.le_refl _) hc' n (depth + 1) rest
      (by omega) (by omega)
    rw [if_neg (by decide), if_pos trivial, if_neg (by omega), hfront]
    rw [hcons] at hread ⊢
    split
    · next hclose =>
      cases hclose
      exact absurd rfl hne
    · rw [hread]
      rfl
  | @noMembers s h =>
    have hwhole : s ++ [125] ++ rest = s ++ 125 :: rest := by simp
    have hdeep : ¬ kMaxJsonNestingDepth ≤ depth := by
      simp only [Tree.depth] at hdepth
      omega
    rw [List.cons_append, hwhole]
    simp only
    rw [if_pos trivial, if_neg hdeep, kJsonWs_mark h (by decide)]
    rfl
  | @object s members h =>
    have hwhole : s ++ [125] ++ rest = s ++ 125 :: rest := by simp
    simp only [Tree.depth] at hdepth
    simp only [List.length_cons, List.length_append] at hn hk
    rw [List.cons_append, hwhole]
    simp only
    obtain ⟨c', hfront, hc', hle, u, hcons⟩ := members_front h (125 :: rest)
    have hread := hmembers c'.length (by omega) c' members (Nat.le_refl _) hc' n (depth + 1) rest
      (by omega) (by omega)
    rw [if_pos trivial, if_neg (by omega), hfront]
    rw [hcons] at hread ⊢
    show (kJsonMembers strtod n (depth + 1) (34 :: u ++ 125 :: rest)).map _ = _
    rw [hread]
    rfl

theorem kJsonValue_complete (k : Nat) : AcceptsValues strtod k := by
  suffices h : AcceptsValues strtod k ∧ AcceptsItems strtod k ∧ AcceptsMembers strtod k from h.1
  induction k using Nat.strongRecOn with
  | ind k ih =>
    have hvalues : AcceptsValues strtod k :=
      acceptsValues_step (fun l hl => (ih l hl).2.1) fun l hl => (ih l hl).2.2
    exact ⟨hvalues, acceptsItems_step hvalues fun l hl => (ih l hl).2.1,
      acceptsMembers_step hvalues fun l hl => (ih l hl).2.2⟩

end Nodes

end Kryndel
