import Kryndel.CBackend.JsonReader

/-!
# Strings of the JSON parser in the C runtime

`k_json_string` reads the characters of the grammar up to the quote.
-/

namespace Kryndel

open Json Runes Quoting List Option

theorem kHexDigit_eq (c : UInt8) : kHexDigit c = Quoting.hexDigit c := by
  simp only [kHexDigit, Quoting.hexDigit, UInt8.le_iff_toNat_le]
  split_ifs
  · rfl
  · next h =>
    have hlow : 97 ≤ c.toNat := h.1
    congr 1
    omega
  · next h =>
    have hlow : 65 ≤ c.toNat := h.1
    congr 1
    omega
  · rfl

theorem kJsonHex4_eq (s : List UInt8) : kJsonHex4 s = hex4 s := by
  rcases s with _ | ⟨a, _ | ⟨b, _ | ⟨c, _ | ⟨d, s⟩⟩⟩⟩
  · rfl
  · rfl
  · rfl
  · rfl
  · rw [kJsonHex4, if_neg (by simp)]
    simp only [kJsonHex, kHexDigit_eq, hex4]
    cases Quoting.hexDigit a <;> cases Quoting.hexDigit b <;> cases Quoting.hexDigit c <;>
      cases Quoting.hexDigit d <;> simp

theorem mark_eq (mark : Nat) {k x : Nat} (h : x < 2 ^ k) : 2 ^ k * mark ||| x = 2 ^ k * mark + x :=
  (Nat.two_pow_add_eq_or_of_lt h mark).symm

theorem kJsonPutUtf8_eq {cp : Nat} (h : validRune cp = true) : kJsonPutUtf8 cp = encodeRune cp := by
  have hmask (x : Nat) : x &&& 0x3F = x % 64 := Nat.and_two_pow_sub_one_eq_mod x 6
  have hlow (x : Nat) : 0x80 ||| x % 64 = 0x80 + x % 64 :=
    @mark_eq 2 6 (x % 64) (Nat.mod_lt x (by decide))
  have hcp : cp ≤ 0x10FFFF := by
    rw [validRune_iff] at h
    omega
  simp only [kJsonPutUtf8, encodeRune, h, if_true, hmask, hlow, Nat.shiftRight_eq_div_pow]
  split_ifs
  · rfl
  · rw [show 0xC0 ||| cp / 2 ^ 6 = 0xC0 + cp / 2 ^ 6 from @mark_eq 3 6 (cp / 2 ^ 6) (by omega)]
    rfl
  · rw [show 0xE0 ||| cp / 2 ^ 12 = 0xE0 + cp / 2 ^ 12 from @mark_eq 7 5 (cp / 2 ^ 12) (by omega)]
    rfl
  · rw [show 0xF0 ||| cp / 2 ^ 18 = 0xF0 + cp / 2 ^ 18 from @mark_eq 15 4 (cp / 2 ^ 18) (by omega)]
    rfl

theorem kJsonPutUtf8_replaced : kJsonPutUtf8 0xFFFD = replaced := by decide

theorem goesOn_iff (b : UInt8) : goesOn b = true ↔ 0x80 ≤ b.toNat ∧ b.toNat ≤ 0xBF := by
  have hall : ∀ n < 256, n &&& 0xC0 = 0x80 ↔ 0x80 ≤ n ∧ n ≤ 0xBF := by decide +kernel
  rw [goesOn, beq_iff_eq, ← UInt8.toNat_inj, UInt8.toNat_and]
  exact hall b.toNat b.toNat_lt

/-- The bytes that may come second. -/
def isSecond (a b : UInt8) : Prop :=
  (if a = 0xE0 then 0xA0 else if a = 0xF0 then 0x90 else 0x80) ≤ b.toNat ∧
    b.toNat ≤ (if a = 0xED then 0x9F else if a = 0xF4 then 0x8F else 0xBF)

instance (a b : UInt8) : Decidable (isSecond a b) := inferInstanceAs (Decidable (_ ∧ _))

theorem follows_iff (a b : UInt8) (more : List UInt8) :
    follows a (b :: more) = true ↔ isSecond a b ∧ ∀ c ∈ more, goesOn c = true := by
  simp only [follows, isSecond, goesOn_iff, Bool.and_eq_true, decide_eq_true_eq, List.all_eq_true,
    UInt8.le_iff_toNat_le]
  refine and_congr (and_congr ?_ ?_) ?_
  · split_ifs <;> rfl
  · split_ifs <;> rfl
  · simp

/-- Is there a whole character? -/
def ReadsWhole (a : UInt8) (s : List UInt8) : Prop :=
  (s.take (announced a - 1)).length + 1 = announced a ∧ follows a (s.take (announced a - 1)) = true

instance (a : UInt8) (s : List UInt8) : Decidable (ReadsWhole a s) :=
  inferInstanceAs (Decidable (_ ∧ _))

theorem reads_two {a : UInt8} (h : announced a = 2) (s : List UInt8) :
    ReadsWhole a s ↔ ∃ b s', s = b :: s' ∧ isSecond a b := by
  rw [ReadsWhole, h]
  rcases s with _ | ⟨b, s⟩
  · simp
  · simp [follows_iff]

theorem reads_three {a : UInt8} (h : announced a = 3) (s : List UInt8) :
    ReadsWhole a s ↔ ∃ b c s', s = b :: c :: s' ∧ isSecond a b ∧ goesOn c = true := by
  rw [ReadsWhole, h]
  rcases s with _ | ⟨b, _ | ⟨c, s⟩⟩
  · simp
  · simp
  · simp [follows_iff]

theorem reads_four {a : UInt8} (h : announced a = 4) (s : List UInt8) :
    ReadsWhole a s ↔ ∃ b c d s', s = b :: c :: d :: s' ∧ isSecond a b ∧ goesOn c = true ∧
      goesOn d = true := by
  rw [ReadsWhole, h]
  rcases s with _ | ⟨b, _ | ⟨c, _ | ⟨d, s⟩⟩⟩
  · simp
  · simp
  · simp
  · simp [follows_iff]

theorem isSecond_iff {a : UInt8} (h : a ≠ 0xE0 ∧ a ≠ 0xF0 ∧ a ≠ 0xED ∧ a ≠ 0xF4) (b : UInt8) :
    isSecond a b ↔ goesOn b = true := by
  rw [isSecond, if_neg h.1, if_neg h.2.1, if_neg h.2.2.1, if_neg h.2.2.2, goesOn_iff]

section Sequences

variable {a : UInt8} {second : UInt8 → Bool} (hsecond : ∀ b, second b = true ↔ isSecond a b)

include hsecond

theorem sequenceOf2_eq (hn : announced a = 2) (s : List UInt8) :
    sequenceOf2 second s = if ReadsWhole a s then announced a else 0 := by
  rcases s with _ | ⟨b, s⟩
  · simp [sequenceOf2, reads_two hn]
  · simp [sequenceOf2, reads_two hn, hsecond, hn]

theorem sequenceOf3_eq (hn : announced a = 3) (s : List UInt8) :
    sequenceOf3 second s = if ReadsWhole a s then announced a else 0 := by
  rcases s with _ | ⟨b, _ | ⟨c, s⟩⟩
  · simp [sequenceOf3, reads_three hn]
  · simp [sequenceOf3, reads_three hn]
  · simp [sequenceOf3, reads_three hn, hsecond, hn]

theorem sequenceOf4_eq (hn : announced a = 4) (s : List UInt8) :
    sequenceOf4 second s = if ReadsWhole a s then announced a else 0 := by
  rcases s with _ | ⟨b, _ | ⟨c, _ | ⟨d, s⟩⟩⟩
  · simp [sequenceOf4, reads_four hn]
  · simp [sequenceOf4, reads_four hn]
  · simp [sequenceOf4, reads_four hn]
  · simp [sequenceOf4, reads_four hn, hsecond, hn, and_assoc]

end Sequences

theorem kJsonUtf8Sequence_reads {a : UInt8} (h : 0x80 ≤ a) (s : List UInt8) :
    kJsonUtf8Sequence (a :: s) = if ReadsWhole a s then announced a else 0 := by
  rw [kJsonUtf8Sequence]
  simp only [UInt8.le_iff_toNat_le, UInt8.reduceToNat, ← UInt8.toNat_inj] at h ⊢
  have hannounced : announced a = if a.toNat < 0x80 then 1 else if a.toNat < 0xC2 then 0
      else if a.toNat < 0xE0 then 2 else if a.toNat < 0xF0 then 3 else if a.toNat < 0xF5 then 4
      else 0 := by
    simp [announced, UInt8.lt_iff_toNat_lt]
  have hplain (hne : a.toNat ≠ 0xE0 ∧ a.toNat ≠ 0xF0 ∧ a.toNat ≠ 0xED ∧ a.toNat ≠ 0xF4)
      (b : UInt8) : isSecond a b ↔ goesOn b = true := by
    apply isSecond_iff
    simpa only [ne_eq, ← UInt8.toNat_inj, UInt8.reduceToNat] using hne
  generalize hr : (if ReadsWhole a s then announced a else 0) = r
  split_ifs with h1 h2 h3 h4 h5 h6 h7 <;> rw [← hr]
  · exact sequenceOf2_eq (fun b => (hplain (by omega) b).symm)
      (by rw [hannounced]; split_ifs <;> omega) s
  · obtain rfl : a = 0xE0 := UInt8.toNat_inj.mp h2
    exact sequenceOf3_eq (fun b => by simp [isSecond]) rfl s
  · exact sequenceOf3_eq (fun b => (hplain (by omega) b).symm)
      (by rw [hannounced]; split_ifs <;> omega) s
  · obtain rfl : a = 0xED := UInt8.toNat_inj.mp h4
    exact sequenceOf3_eq (fun b => by simp [isSecond]) rfl s
  · obtain rfl : a = 0xF0 := UInt8.toNat_inj.mp h5
    exact sequenceOf4_eq (fun b => by simp [isSecond]) rfl s
  · exact sequenceOf4_eq (fun b => (hplain (by omega) b).symm)
      (by rw [hannounced]; split_ifs <;> omega) s
  · obtain rfl : a = 0xF4 := UInt8.toNat_inj.mp h7
    exact sequenceOf4_eq (fun b => by simp [isSecond]) rfl s
  · have hn : announced a = 0 := by rw [hannounced]; split_ifs <;> omega
    rw [hn, ite_self]

theorem kJsonUtf8Sequence_eq {a : UInt8} (h : 0x80 ≤ a) (s : List UInt8) :
    kJsonUtf8Sequence (a :: s) =
      if decodeRune (a :: s) = replacement then 0 else (decodeRune (a :: s)).2 := by
  obtain ⟨value, hdecode⟩ : ∃ value, decodeRune (a :: s) =
      if ReadsWhole a s then (value, announced a) else replacement := ⟨_, decodeRune_wide h s⟩
  rw [kJsonUtf8Sequence_reads h, hdecode]
  by_cases hr : ReadsWhole a s
  · have hne : ∀ value : Nat, (value, announced a) ≠ replacement := by
      intro value heq
      have hone : announced a = 1 := congrArg Prod.snd heq
      have hread := hr
      rw [ReadsWhole, hone] at hread
      exact absurd hread.2 (by simp [follows])
    rw [if_pos hr, if_pos hr, if_neg (hne _)]
  · rw [if_neg hr, if_neg hr, if_pos rfl]

/-! ## Escapes -/

theorem kJsonEscapeChar_eq (e : UInt8) : kJsonEscapeChar e = charEscape e := by
  by_cases h34 : e = 34
  · subst h34
    rfl
  by_cases h92 : e = 92
  · subst h92
    rfl
  by_cases h47 : e = 47
  · subst h47
    rfl
  rw [kJsonEscapeChar, charEscape, if_neg h34, if_neg h92, if_neg h47,
    if_neg (not_or.mpr ⟨h34, not_or.mpr ⟨h92, h47⟩⟩)]

theorem paired_eq {first second : Nat} (high : isHigh first = true) (low : isLow second = true) :
    paired first second = 0x10000 + (first - 0xD800) <<< 10 + (second - 0xDC00) := by
  simp only [isHigh, isLow, Bool.and_eq_true, decide_eq_true_eq] at high low
  rw [Nat.shiftLeft_eq, paired]
  omega

theorem kJsonUnicode_sound {s s' : List UInt8} {cp : Nat} (h : kJsonUnicode s = some (cp, s')) :
    UnicodeEscape s (kJsonPutUtf8 cp) s' := by
  rw [kJsonUnicode, kJsonHex4_eq] at h
  cases hhex : hex4 s with
  | none => simp [hhex] at h
  | some found =>
    obtain ⟨value, left⟩ := found
    simp only [hhex, bind_eq_bind, bind_some] at h
    split at h
    · next hhigh =>
      have high : isHigh value = true := by simpa [isHigh] using hhigh
      split at h
      · next left =>
        rw [kJsonHex4_eq] at h
        cases hhex' : hex4 left with
        | none => simp [hhex'] at h
        | some found =>
          obtain ⟨value', left'⟩ := found
          simp only [hhex', bind_some] at h
          split at h
          · next hlow =>
            have low : isLow value' = true := by simpa [isLow] using hlow
            simp only [Option.some.injEq, Prod.mk.injEq] at h
            obtain ⟨hcp, rfl⟩ := h
            rw [← hcp, ← paired_eq high low, kJsonPutUtf8_eq (validRune_paired _ _)]
            exact .pair hhex high hhex' low
          · next hlow =>
            cases h
            refine .lone hhex (.inr ⟨high, ?_⟩)
            simpa [beginsLow, hhex', isLow] using hlow
      · next hnot =>
        cases h
        rw [kJsonPutUtf8_replaced]
        refine .lone hhex (.inr ⟨high, ?_⟩)
        unfold beginsLow
        split
        · next left => exact absurd rfl (hnot left)
        · rfl
    · next hhigh =>
      have high : isHigh value = false := by simpa [isHigh] using hhigh
      split at h
      · next hlow =>
        have low : isLow value = true := by simpa [isLow] using hlow
        cases h
        rw [kJsonPutUtf8_replaced]
        exact .lone hhex (.inl low)
      · next hlow =>
        have low : isLow value = false := by simpa [isLow] using hlow
        cases h
        rw [kJsonPutUtf8_eq (validRune_whole hhex high low)]
        exact .whole hhex high low

theorem kJsonUnicode_complete {s piece c text : List UInt8} (h : UnicodeEscape s piece c)
    (hrest : Chars c text) (t : List UInt8) :
    ∃ cp, kJsonUnicode (s ++ 34 :: t) = some (cp, c ++ 34 :: t) ∧ kJsonPutUtf8 cp = piece := by
  cases h with
  | @whole value _ _ hex high low =>
    have hhigh : ¬ (0xD800 ≤ value ∧ value ≤ 0xDBFF) := by simpa [isHigh] using high
    have hlow : ¬ (0xDC00 ≤ value ∧ value ≤ 0xDFFF) := by simpa [isLow] using low
    refine ⟨value, ?_, kJsonPutUtf8_eq (validRune_whole hex high low)⟩
    simp [kJsonUnicode, kJsonHex4_eq, hex4_append hex, hhigh, hlow]
  | @pair first second _ s₂ _ hex high hex' low =>
    have hhigh : 0xD800 ≤ first ∧ first ≤ 0xDBFF := by simpa [isHigh] using high
    have hlow : 0xDC00 ≤ second ∧ second ≤ 0xDFFF := by simpa [isLow] using low
    refine ⟨paired first second, ?_, kJsonPutUtf8_eq (validRune_paired first second)⟩
    simp [kJsonUnicode, kJsonHex4_eq, hex4_append hex, hex4_append hex', paired_eq high low,
      if_pos hhigh, if_pos hlow]
  | @lone value _ _ hex half =>
    refine ⟨0xFFFD, ?_, kJsonPutUtf8_replaced⟩
    by_cases hhigh : 0xD800 ≤ value ∧ value ≤ 0xDBFF
    · have hbegins : beginsLow c = false := by
        rcases half with hlow | half
        · simp only [isLow, Bool.and_eq_true, decide_eq_true_eq] at hlow
          omega
        · exact half.2
      have hvalue := hex4_append hex (34 :: t)
      rcases c with _ | ⟨a, _ | ⟨b, c⟩⟩
      · simp [kJsonUnicode, kJsonHex4_eq, hvalue, hhigh]
      · by_cases ha : a = 92
        · subst ha
          exact absurd hrest (by rintro ⟨⟩ <;> simp at *)
        · simp [kJsonUnicode, kJsonHex4_eq, hvalue, hhigh, ha]
      · by_cases hu : a = 92 ∧ b = 117
        · obtain ⟨rfl, rfl⟩ := hu
          obtain ⟨⟨value', c'⟩, hhex'⟩ := hrest.hex4
          have hlow : ¬ (0xDC00 ≤ value' ∧ value' ≤ 0xDFFF) := by
            simpa [beginsLow, hhex', isLow] using hbegins
          simp [kJsonUnicode, kJsonHex4_eq, hvalue, hhigh, hex4_append hhex', hlow]
        · rcases not_and_or.mp hu with ha | hb
          · simp [kJsonUnicode, kJsonHex4_eq, hvalue, hhigh, ha]
          · simp [kJsonUnicode, kJsonHex4_eq, hvalue, hhigh, hb]
    · have hlow : 0xDC00 ≤ value ∧ value ≤ 0xDFFF := by
        rcases half with hlow | half
        · simpa [isLow] using hlow
        · exact absurd (by simpa [isHigh] using half.1) hhigh
      simp [kJsonUnicode, kJsonHex4_eq, hex4_append hex, hhigh, hlow]

/-! ## Strings -/

theorem sequence_zero {a : UInt8} (high : 0x80 ≤ a) {s : List UInt8} :
    kJsonUtf8Sequence (a :: s) = 0 ↔ decodeRune (a :: s) = replacement := by
  rw [kJsonUtf8Sequence_eq high]
  have hsize := (decodeRune_size (cons_ne_nil a s)).1
  constructor
  · intro h
    by_contra hne
    rw [if_neg hne] at h
    omega
  · intro h
    rw [if_pos h]

theorem chars_replaced {a : UInt8} (high : 0x80 ≤ a) {c t text : List UInt8}
    (hzero : kJsonUtf8Sequence (a :: (c ++ 34 :: t)) = 0) (h : Chars c text) :
    Chars (a :: c) (kJsonPutUtf8 0xFFFD ++ text) := by
  have hdecode : decodeRune (a :: c) = replacement := by
    rw [← (sequence_zero high).mp hzero]
    exact (@decodeRune_append (a :: c) (34 :: t) (by simp) (by simp)).symm
  have hwide := @Chars.wide a c text high (by rw [hdecode]; exact h)
  rwa [firstText, if_pos hdecode, ← kJsonPutUtf8_replaced] at hwide

theorem chars_kept {a : UInt8} (high : 0x80 ≤ a) {s c t text : List UInt8}
    (hzero : kJsonUtf8Sequence (a :: s) ≠ 0)
    (hdrop : (a :: s).drop (kJsonUtf8Sequence (a :: s)) = c ++ 34 :: t) (h : Chars c text) :
    Chars ((a :: s).take (kJsonUtf8Sequence (a :: s)) ++ c)
      ((a :: s).take (kJsonUtf8Sequence (a :: s)) ++ text) := by
  have hne : decodeRune (a :: s) ≠ replacement := (sequence_zero high).not.mp hzero
  have hsize := decodeRune_size (cons_ne_nil a s)
  have hsequence := kJsonUtf8Sequence_eq high s
  rw [if_neg hne] at hsequence
  rw [hsequence] at hdrop ⊢
  obtain ⟨k, hk⟩ := Nat.exists_eq_add_of_le' hsize.1
  have hwhole : (a :: s).take (decodeRune (a :: s)).2 ++ c ++ 34 :: t = a :: s := by
    rw [append_assoc, ← hdrop, take_append_drop]
  have hcons : (a :: s).take (decodeRune (a :: s)).2 ++ c = a :: (s.take k ++ c) := by
    rw [hk, take_succ_cons, cons_append]
  have hlength : ((a :: s).take (decodeRune (a :: s)).2).length = (decodeRune (a :: s)).2 := by
    rw [length_take, Nat.min_eq_left hsize.2]
  have hdecode : decodeRune (a :: (s.take k ++ c)) = decodeRune (a :: s) := by
    have happend := @decodeRune_append (a :: (s.take k ++ c)) (34 :: t) (by simp) (by simp)
    rw [← happend, ← hcons, hwhole]
  have hwide := @Chars.wide a (s.take k ++ c) text high (by
    rw [hdecode, ← hcons, drop_left' hlength]
    exact h)
  rw [firstText, hdecode, if_neg hne, ← hcons, take_left' hlength] at hwide
  exact hwide

theorem kJsonString_sound {n : Nat} {s text rest : List UInt8}
    (h : kJsonString n s = some (text, rest)) : ∃ c, s = c ++ 34 :: rest ∧ Chars c text := by
  induction n generalizing s text with
  | zero => cases h
  | succ n ih =>
    rcases s with _ | ⟨a, s⟩
    · cases h
    unfold kJsonString at h
    split at h
    · next ha =>
      cases h
      exact ⟨[], by rw [ha]; rfl, .nil⟩
    split at h
    · next ha =>
      subst ha
      rcases s with _ | ⟨e, s⟩
      · cases h
      simp only at h
      split at h
      · next he =>
        subst he
        simp only [bind_eq_bind, bind_eq_some_iff, Prod.exists, Option.some.injEq,
          Prod.mk.injEq] at h
        obtain ⟨cp, left, hcp, text', rest', hread, rfl, rfl⟩ := h
        obtain ⟨c, rfl, hc⟩ := ih hread
        obtain ⟨c', rfl, hescape⟩ := (kJsonUnicode_sound hcp).front
        exact ⟨92 :: 117 :: c', rfl, .unicode hescape hc⟩
      · simp only [bind_eq_bind, bind_eq_some_iff, Prod.exists, Option.some.injEq,
          Prod.mk.injEq] at h
        obtain ⟨b, hb, text', rest', hread, rfl, rfl⟩ := h
        obtain ⟨c, rfl, hc⟩ := ih hread
        rw [kJsonEscapeChar_eq] at hb
        exact ⟨92 :: e :: c, rfl, .escape hb hc⟩
    · next hquote hbackslash =>
      split at h
      · cases h
      next hcontrol =>
      split at h
      · next hnarrow =>
        simp only [bind_eq_bind, bind_eq_some_iff, Prod.exists, Option.some.injEq,
          Prod.mk.injEq] at h
        obtain ⟨text', rest', hread, rfl, rfl⟩ := h
        obtain ⟨c, rfl, hc⟩ := ih hread
        exact ⟨a :: c, rfl, .ascii (UInt8.not_lt.mp hcontrol) hnarrow ⟨hquote, hbackslash⟩ hc⟩
      next hwide =>
      have hhigh : 0x80 ≤ a := UInt8.not_lt.mp hwide
      split at h
      · next hzero =>
        simp only [bind_eq_bind, bind_eq_some_iff, Prod.exists, Option.some.injEq,
          Prod.mk.injEq] at h
        obtain ⟨text', rest', hread, rfl, rfl⟩ := h
        obtain ⟨c, rfl, hc⟩ := ih hread
        exact ⟨a :: c, rfl, chars_replaced hhigh hzero hc⟩
      · next hzero =>
        simp only [bind_eq_bind, bind_eq_some_iff, Prod.exists, Option.some.injEq,
          Prod.mk.injEq] at h
        obtain ⟨text', rest', hread, rfl, rfl⟩ := h
        obtain ⟨c, hdrop, hc⟩ := ih hread
        refine ⟨(a :: s).take (kJsonUtf8Sequence (a :: s)) ++ c, ?_, ?_⟩
        · rw [append_assoc, ← hdrop, take_append_drop]
        · exact chars_kept hhigh hzero hdrop hc

/-- All characters are read, and the quote. -/
theorem kJsonString_complete {c text : List UInt8} (h : Chars c text) {n : Nat} (hn : c.length < n)
    (t : List UInt8) : kJsonString n (c ++ 34 :: t) = some (text, t) := by
  induction h generalizing n with
  | nil =>
    obtain ⟨n, rfl⟩ := Nat.exists_eq_add_one.mpr hn
    rfl
  | @ascii b s text control narrow plain rest ih =>
    obtain ⟨n, rfl⟩ := Nat.exists_eq_add_one.mpr (Nat.zero_lt_of_lt hn)
    have hread := ih (n := n) (by rw [length_cons] at hn; omega)
    rw [cons_append]
    unfold kJsonString
    rw [if_neg plain.1, if_neg plain.2, if_neg (UInt8.not_lt.mpr control), if_pos narrow, hread]
    rfl
  | @wide b s text high rest ih =>
    obtain ⟨n, rfl⟩ := Nat.exists_eq_add_one.mpr (Nat.zero_lt_of_lt hn)
    have hsize := decodeRune_size (cons_ne_nil b s)
    have hread := ih (n := n) (by
      rw [length_drop]
      rw [length_cons] at *
      omega)
    have hdecode : decodeRune (b :: (s ++ 34 :: t)) = decodeRune (b :: s) :=
      @decodeRune_append (b :: s) (34 :: t) (by simp) (by simp)
    have hnot (x : UInt8) (hx : x < 0x80) : b ≠ x := by
      rintro rfl
      exact absurd hx (UInt8.not_lt.mpr high)
    have hcontrol : ¬ b < 0x20 := fun hlt =>
      absurd (UInt8.lt_trans hlt (by decide)) (UInt8.not_lt.mpr high)
    rw [cons_append]
    unfold kJsonString
    rw [if_neg (hnot 34 (by decide)), if_neg (hnot 92 (by decide)), if_neg hcontrol,
      if_neg (UInt8.not_lt.mpr high), kJsonUtf8Sequence_eq high, hdecode, firstText]
    by_cases hreplaced : decodeRune (b :: s) = replacement
    · rw [hreplaced] at hread
      have hread : kJsonString n (s ++ 34 :: t) = some (text, t) := hread
      rw [if_pos hreplaced, if_pos rfl, if_pos hreplaced, kJsonPutUtf8_replaced, hread]
      rfl
    · rw [if_neg hreplaced, if_neg (Nat.pos_iff_ne_zero.mp hsize.1), if_neg hreplaced,
        ← cons_append, drop_append_of_le_length hsize.2,
        take_append_of_le_length hsize.2, hread]
      rfl
  | @escape e b s text known rest ih =>
    obtain ⟨n, rfl⟩ := Nat.exists_eq_add_one.mpr (Nat.zero_lt_of_lt hn)
    have hread := ih (n := n) (by rw [length_cons, length_cons] at hn; omega)
    have hu : e ≠ 117 := by
      rintro rfl
      simp [charEscape] at known
    show kJsonString (n + 1) (92 :: e :: (s ++ 34 :: t)) = _
    unfold kJsonString
    rw [if_neg (by decide), if_pos rfl]
    simp only
    rw [if_neg hu, kJsonEscapeChar_eq, known, hread]
    rfl
  | @unicode s piece s' text h rest ih =>
    obtain ⟨n, rfl⟩ := Nat.exists_eq_add_one.mpr (Nat.zero_lt_of_lt hn)
    have hread := ih (n := n) (by
      have hlength := h.length_le
      rw [length_cons, length_cons] at hn
      omega)
    obtain ⟨cp, hcp, rfl⟩ := kJsonUnicode_complete h rest t
    show kJsonString (n + 1) (92 :: 117 :: (s ++ 34 :: t)) = _
    unfold kJsonString
    rw [if_neg (by decide), if_pos rfl]
    simp only [if_true]
    rw [hcp]
    simp only [bind_eq_bind, bind_some]
    rw [hread]
    rfl

end Kryndel
