import Kryndel.CBackend.JsonReader

/-!
# Numbers of the JSON parser in the C runtime

`k_json_number` reads one token of the grammar, as long as it can be.
-/

namespace Kryndel

open Json List

/-- A string that does not go on with a number. -/
def StopsNumber (s : List UInt8) : Prop :=
  ∀ b ∈ s.head?, isDecimal b = false ∧ b ≠ 46 ∧ b ≠ 101 ∧ b ≠ 69

theorem isDecimal_iff (b : UInt8) : isDecimal b = true ↔ ¬ (b < 48 ∨ b > 57) := by
  simp [isDecimal]

theorem takeWhile_digits {s : List UInt8} (h : ∀ b ∈ s, isDecimal b = true) {t : List UInt8}
    (ht : ∀ b ∈ t.head?, isDecimal b = false) :
    (s ++ t).takeWhile isDecimal = s ∧ (s ++ t).dropWhile isDecimal = t := by
  induction s with
  | nil =>
    cases t with
    | nil => exact ⟨rfl, rfl⟩
    | cons b t =>
      have hb := ht b rfl
      exact ⟨takeWhile_cons_of_neg (by simp [hb]), dropWhile_cons_of_neg (by simp [hb])⟩
  | cons b s ih =>
    have hb := h b mem_cons_self
    obtain ⟨htake, hdrop⟩ := ih fun c hc => h c (mem_cons_of_mem _ hc)
    rw [cons_append, takeWhile_cons_of_pos hb, dropWhile_cons_of_pos hb, htake,
      hdrop]
    exact ⟨rfl, rfl⟩

/-! ## Parts -/

theorem kJsonDigits_sound {s digits rest : List UInt8} (h : kJsonDigits s = some (digits, rest)) :
    s = digits ++ rest ∧ Digits digits := by
  rcases s with _ | ⟨b, s⟩
  · cases h
  rw [kJsonDigits] at h
  split at h
  · cases h
  · next hb =>
    cases h
    refine ⟨(takeWhile_append_dropWhile).symm, ?_, fun c hc => mem_takeWhile_imp hc⟩
    rw [takeWhile_cons_of_pos ((isDecimal_iff b).mpr hb)]
    exact cons_ne_nil _ _

theorem kJsonDigits_complete {digits rest : List UInt8} (h : Digits digits)
    (hrest : ∀ b ∈ rest.head?, isDecimal b = false) :
    kJsonDigits (digits ++ rest) = some (digits, rest) := by
  obtain ⟨hne, hdigits⟩ := h
  obtain ⟨b, s, rfl⟩ := exists_cons_of_ne_nil hne
  have hb := (isDecimal_iff b).mp (hdigits b mem_cons_self)
  obtain ⟨htake, hdrop⟩ := takeWhile_digits hdigits hrest
  rw [cons_append] at *
  rw [kJsonDigits, if_neg hb, htake, hdrop]

theorem kJsonIntPart_sound {s int rest : List UInt8} (h : kJsonIntPart s = some (int, rest)) :
    s = int ++ rest ∧ IntPart int := by
  rcases s with _ | ⟨b, s⟩
  · cases h
  rw [kJsonIntPart] at h
  split at h
  · cases h
  next hb =>
  split at h
  · next hzero =>
    cases h
    exact ⟨by rw [hzero]; rfl, .zero⟩
  · next hzero =>
    cases h
    have hdigit := (isDecimal_iff b).mpr hb
    refine ⟨(takeWhile_append_dropWhile).symm, ?_⟩
    rw [takeWhile_cons_of_pos hdigit]
    exact .digits hdigit hzero fun c hc => mem_takeWhile_imp hc

theorem kJsonIntPart_complete {int rest : List UInt8} (h : IntPart int)
    (hrest : ∀ b ∈ rest.head?, isDecimal b = false) :
    kJsonIntPart (int ++ rest) = some (int, rest) := by
  cases h with
  | zero => rfl
  | @digits b s first positive digits =>
    have hall : ∀ c ∈ b :: s, isDecimal c = true := by
      intro c hc
      rcases mem_cons.mp hc with rfl | hc
      · exact first
      · exact digits c hc
    obtain ⟨htake, hdrop⟩ := takeWhile_digits hall hrest
    rw [cons_append] at *
    rw [kJsonIntPart, if_neg ((isDecimal_iff b).mp first), if_neg positive, htake, hdrop]

theorem kJsonFracPart_sound {s frac rest : List UInt8} (h : kJsonFracPart s = some (frac, rest)) :
    s = frac ++ rest ∧ FracPart frac := by
  unfold kJsonFracPart at h
  split at h
  · next s =>
    simp only [Option.map_eq_some_iff, Prod.exists, Prod.mk.injEq] at h
    obtain ⟨digits, rest', hdigits, rfl, rfl⟩ := h
    obtain ⟨rfl, h⟩ := kJsonDigits_sound hdigits
    exact ⟨rfl, .digits h⟩
  · cases h
    exact ⟨rfl, .none⟩

theorem kJsonFracPart_complete {frac rest : List UInt8} (h : FracPart frac)
    (hrest : ∀ b ∈ rest.head?, isDecimal b = false ∧ b ≠ 46) :
    kJsonFracPart (frac ++ rest) = some (frac, rest) := by
  cases h with
  | none =>
    rw [nil_append, kJsonFracPart]
    rintro s rfl
    exact (hrest 46 rfl).2 rfl
  | digits h =>
    rw [cons_append, kJsonFracPart, kJsonDigits_complete h fun b hb => (hrest b hb).1]
    rfl

theorem kJsonExpPart_sound {s exp rest : List UInt8} (h : kJsonExpPart s = some (exp, rest)) :
    s = exp ++ rest ∧ ExpPart exp := by
  rcases s with _ | ⟨e, s⟩
  · cases h
    exact ⟨rfl, .none⟩
  rw [kJsonExpPart] at h
  split at h
  · next he =>
    simp only [Option.map_eq_some_iff, Prod.exists, Prod.mk.injEq] at h
    obtain ⟨digits, rest', hdigits, rfl, rfl⟩ := h
    obtain ⟨hs, hdigits⟩ := kJsonDigits_sound hdigits
    have hsign : s = (kJsonSign s).1 ++ (kJsonSign s).2 ∧
        ((kJsonSign s).1 = [] ∨ (kJsonSign s).1 = [43] ∨ (kJsonSign s).1 = [45]) := by
      rcases s with _ | ⟨b, s⟩
      · exact ⟨rfl, .inl rfl⟩
      · rw [kJsonSign]
        split
        · next hb => exact ⟨rfl, .inr (by simpa using hb)⟩
        · exact ⟨rfl, .inl rfl⟩
    refine ⟨?_, .digits he hsign.2 hdigits⟩
    rw [append_assoc, ← hs, cons_append, ← hsign.1]
  · cases h
    exact ⟨rfl, .none⟩

theorem kJsonExpPart_complete {exp rest : List UInt8} (h : ExpPart exp) (hrest : StopsNumber rest) :
    kJsonExpPart (exp ++ rest) = some (exp, rest) := by
  cases h with
  | none =>
    rcases rest with _ | ⟨b, rest⟩
    · rfl
    · have hb := hrest b rfl
      rw [nil_append, kJsonExpPart, if_neg (not_or.mpr hb.2.2)]
  | @digits e sign s letter signed h =>
    have hsign : kJsonSign (sign ++ s ++ rest) = (sign, s ++ rest) := by
      rcases signed with rfl | rfl | rfl
      · obtain ⟨b, s, rfl⟩ := exists_cons_of_ne_nil h.1
        have hb := h.2 b mem_cons_self
        have hnot : ¬ (b = 43 ∨ b = 45) := by
          rintro (rfl | rfl) <;> cases hb
        rw [nil_append, cons_append, kJsonSign, if_neg hnot]
      · rfl
      · rfl
    rw [cons_append, cons_append, kJsonExpPart, if_pos letter, hsign,
      kJsonDigits_complete h fun b hb => (hrest b hb).1]
    rfl

/-! ## Tokens -/

theorem intPart_digits {int : List UInt8} (h : IntPart int) :
    ∀ b ∈ int, isDecimal b = true := by
  cases h with
  | zero =>
    intro b hb
    rw [mem_singleton.mp hb]
    rfl
  | digits first _ rest =>
    intro b hb
    rcases mem_cons.mp hb with rfl | hb
    · exact first
    · exact rest b hb

theorem parts_empty_iff {minus int frac exp : List UInt8} (sign : minus = [] ∨ minus = [45])
    (hint : IntPart int) (hfrac : FracPart frac) (hexp : ExpPart exp) :
    (!frac.isEmpty || !exp.isEmpty) = false ↔ Integral (minus ++ int ++ frac ++ exp) := by
  constructor
  · intro h
    obtain ⟨rfl, rfl⟩ : frac = [] ∧ exp = [] := by simpa using h
    intro b hb
    simp only [append_nil, mem_append] at hb
    rcases hb with hb | hb
    · rcases sign with rfl | rfl
      · cases hb
      · rw [mem_singleton.mp hb]
        decide
    · have hdigit := intPart_digits hint b hb
      refine ⟨?_, ?_, ?_⟩ <;> rintro rfl <;> cases hdigit
  · intro h
    have hfrac' : frac = [] := by
      cases hfrac with
      | none => rfl
      | digits _ => exact absurd rfl (h 46 (by simp)).1
    have hexp' : exp = [] := by
      cases hexp with
      | none => rfl
      | @digits e _ _ letter _ _ =>
        have he := h e (by simp)
        rcases letter with rfl | rfl
        · exact absurd rfl he.2.1
        · exact absurd rfl he.2.2
    simp [hfrac', hexp']

theorem kJsonNumberToken_sound {s token rest : List UInt8} {isf : Bool}
    (h : kJsonNumberToken s = some (token, isf, rest)) : s = token ++ rest ∧ Number token ∧
      (isf = false ↔ Integral token) := by
  simp only [kJsonNumberToken, Option.bind_eq_bind, Option.bind_eq_some_iff, Prod.exists,
    Option.some.injEq, Prod.mk.injEq] at h
  obtain ⟨int, s₁, hint, frac, s₂, hfrac, exp, s₃, hexp, rfl, rfl, rfl⟩ := h
  obtain ⟨hs, intPart⟩ := kJsonIntPart_sound hint
  obtain ⟨rfl, fracPart⟩ := kJsonFracPart_sound hfrac
  obtain ⟨rfl, expPart⟩ := kJsonExpPart_sound hexp
  have sign : s.take (if s.head? = some 45 then 1 else 0) = [] ∨
      s.take (if s.head? = some 45 then 1 else 0) = [45] := by
    split
    · next hhead =>
      obtain ⟨s', rfl⟩ := head?_eq_some_iff.mp hhead
      exact .inr rfl
    · exact .inl rfl
  refine ⟨?_, .mk sign intPart fracPart expPart, parts_empty_iff sign intPart fracPart expPart⟩
  simp only [append_assoc]
  rw [← hs, take_append_drop]

theorem kJsonNumberToken_complete {token rest : List UInt8} (h : Number token)
    (hrest : StopsNumber rest) : ∃ isf, kJsonNumberToken (token ++ rest) = some (token, isf, rest) ∧
      (isf = false ↔ Integral token) := by
  obtain ⟨sign, hint, hfrac, hexp⟩ := h
  next minus int frac exp =>
  have hafterExp : ∀ b ∈ (exp ++ rest).head?, isDecimal b = false ∧ b ≠ 46 := by
    cases hexp with
    | none => exact fun b hb => ⟨(hrest b hb).1, (hrest b hb).2.1⟩
    | digits letter _ _ =>
      intro b hb
      cases hb
      rcases letter with rfl | rfl <;> decide
  have hafterFrac : ∀ b ∈ (frac ++ (exp ++ rest)).head?, isDecimal b = false := by
    cases hfrac with
    | none => exact fun b hb => (hafterExp b hb).1
    | digits _ =>
      intro b hb
      cases hb
      rfl
  have hwhole : minus ++ int ++ frac ++ exp ++ rest =
      minus ++ (int ++ (frac ++ (exp ++ rest))) := by
    simp
  have hcut :
      ((if (minus ++ (int ++ (frac ++ (exp ++ rest)))).head? = some 45 then 1 else 0) : Nat) =
      minus.length := by
    rcases sign with rfl | rfl
    · apply if_neg
      intro hhead
      have hdigit : isDecimal 45 = true := by
        apply intPart_digits hint
        cases hint with
        | zero => cases hhead
        | digits _ _ _ =>
          cases hhead
          exact mem_cons_self
      cases hdigit
    · rfl
  refine ⟨!frac.isEmpty || !exp.isEmpty, ?_, parts_empty_iff sign hint hfrac hexp⟩
  rw [hwhole]
  simp only [kJsonNumberToken, hcut, take_left, drop_left,
    kJsonIntPart_complete hint hafterFrac, kJsonFracPart_complete hfrac hafterExp,
    kJsonExpPart_complete hexp hrest, Option.bind_eq_bind, Option.bind_some]

end Kryndel
