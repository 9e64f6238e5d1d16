import Mathlib.Data.Set.Card

/-!
# Random integers of a range

`randomInt` draws from an inclusive range of 64-bit integers. The size of the range is computed
modulo `2^64`: up to `2^63` the bounded generator is asked, above it samples of 64 bits are
rejected until one is below a multiple of the size. A size of just `2^63` is no positive
argument of the bounded generator.

The generator is a parameter; `Int63n` panics on an argument that is not positive.
-/

namespace Kryndel.RandomInt

/-! ## The function of the source -/

/-- `rand.Rand`: what the generator gives in a state, and its next state. -/
structure Rng (σ : Type) where
  uint64 : σ → UInt64 × σ
  int63n : (n : Int64) → σ → Int64 × σ

/-- `Int63n` is in `[0, n)` for a positive argument. -/
def Rng.Bounded {σ : Type} (G : Rng σ) : Prop :=
  ∀ n rng, 0 < n → 0 ≤ (G.int63n n rng).1 ∧ (G.int63n n rng).1 < n

/-- How a call ends. -/
inductive Outcome (σ : Type) where
  | returned (value : Int64) (rng : σ)
  | failed (text : String)
  /-- `Int63n` was called with an argument that is not positive. -/
  | panicked
  /-- The samples have run out; the call still asks for one. -/
  | sampling
deriving DecidableEq, Repr

variable {σ : Type} (G : Rng σ)

/-- `uint64(max) - uint64(min) + 1`. -/
def span (min max : Int64) : UInt64 := max.toUInt64 - min.toUInt64 + 1

/-- `^uint64(0) - (^uint64(0) % span)`. -/
def limit (span : UInt64) : UInt64 := ~~~0 - ~~~0 % span

/-- `int64(uint64(min) + sample%span)`. -/
def ofSample (min max : Int64) (sample : UInt64) : Int64 :=
  (min.toUInt64 + sample % span min max).toInt64

/-- The rejection sampling, for so many samples at most. -/
def sampleBelow (limit : UInt64) : Nat → σ → Option (UInt64 × σ)
  | 0, _ => none
  | samples + 1, rng =>
    if (G.uint64 rng).1 < limit then some (G.uint64 rng)
    else sampleBelow limit samples (G.uint64 rng).2

/-- `randomInt`; a handle that is not there is nil. -/
def randomInt (samples : Nat) (h : Option σ) (min max : Int64) : Outcome σ :=
  match h with
  | none => .failed "invalid Random handle"
  | some rng =>
    if max < min then .failed "random_int requires min <= max"
    else if min = -9223372036854775808 ∧ max = 9223372036854775807 then
      .returned ((G.uint64 rng).1 ^^^ 9223372036854775808).toInt64 (G.uint64 rng).2
    else if span min max ≤ 9223372036854775808 then
      if 0 < (span min max).toInt64 then
        .returned (min + (G.int63n (span min max).toInt64 rng).1)
          (G.int63n (span min max).toInt64 rng).2
      else .panicked
    else
      match sampleBelow G (limit (span min max)) samples rng with
      | some (sample, rng) => .returned (ofSample min max sample) rng
      | none => .sampling

/-- The samples that are accepted and give a value. -/
def samplesOf (min max value : Int64) : Set UInt64 :=
  {sample | sample < limit (span min max) ∧ ofSample min max sample = value}

/-- The state of the generator after so many samples. -/
def after : Nat → σ → σ
  | 0, rng => rng
  | n + 1, rng => after n (G.uint64 rng).2

/-- What is asked of `randomInt` on a range, whatever the state of the generator. -/
structure Fair (min max : Int64) : Prop where
  positive : ∀ samples rng, randomInt G samples (some rng) min max ≠ .panicked
  within : ∀ samples rng value rng',
    randomInt G samples (some rng) min max = .returned value rng' → min ≤ value ∧ value ≤ max
  /-- A call returns that comes to a sample below the limit, or needs none. -/
  returns : ∀ rng, (9223372036854775808 < span min max →
      ∃ n, (G.uint64 (after G n rng)).1 < limit (span min max)) →
    ∃ samples, ∀ more, samples ≤ more →
      ∃ value rng', randomInt G more (some rng) min max = .returned value rng'
  /-- On the rejection path the values have equally many samples. -/
  even : 9223372036854775808 < span min max → ∀ v w : Int64, min ≤ v → v ≤ max → min ≤ w → w ≤ max →
    (samplesOf min max v).ncard = (samplesOf min max w).ncard

/-! ## Arithmetic modulo 2^64 -/

theorem toInt_eq_bmod (x : Int64) : x.toInt = (x.toUInt64.toNat : Int).bmod (2 ^ 64) :=
  BitVec.toInt_eq_toNat_bmod x.toBitVec

theorem toNat_toUInt64 (x : Int64) : (x.toUInt64.toNat : Int) = x.toInt % 2 ^ 64 := by
  have hlt := x.toUInt64.toNat_lt
  rw [toInt_eq_bmod, Int.bmod_def]
  split <;> omega

theorem toInt_add_toInt64 {min : Int64} {x : UInt64} (h : min.toInt + x.toNat < 2 ^ 63) :
    (min.toUInt64 + x).toInt64.toInt = min.toInt + x.toNat := by
  have hmin := toNat_toUInt64 min
  have hx := x.toNat_lt
  have hlow := min.le_toInt
  rw [toInt_eq_bmod, UInt64.toUInt64_toInt64, UInt64.toNat_add, Int.bmod_def]
  split <;> omega

/-- How many values a range has. -/
def size (min max : Int64) : Int := max.toInt - min.toInt + 1

theorem size_le (min max : Int64) : size min max ≤ 2 ^ 64 := by
  have hmin := min.le_toInt
  have hmax := max.toInt_lt
  unfold size
  omega

theorem size_eq_iff {min max : Int64} :
    size min max = 2 ^ 64 ↔ min = -9223372036854775808 ∧ max = 9223372036854775807 := by
  have hmin := min.le_toInt
  have hmax := max.toInt_lt
  have hleast : (-9223372036854775808 : Int64).toInt = -2 ^ 63 := by decide
  have hgreatest : (9223372036854775807 : Int64).toInt = 2 ^ 63 - 1 := by decide
  rw [← Int64.toInt_inj, ← Int64.toInt_inj, hleast, hgreatest, size]
  omega

theorem toNat_span {min max : Int64} (hle : min ≤ max) (hsize : size min max < 2 ^ 64) :
    ((span min max).toNat : Int) = size min max := by
  have hmin := toNat_toUInt64 min
  have hmax := toNat_toUInt64 max
  have hle' := Int64.le_iff_toInt_le.mp hle
  have hone : (1 : UInt64).toNat = 1 := rfl
  unfold size at hsize ⊢
  rw [span, UInt64.toNat_add, UInt64.toNat_sub, hone]
  omega

theorem limit_span {span : UInt64} (h : 9223372036854775808 < span) : limit span = span := by
  have hall : (~~~0 : UInt64).toNat = 2 ^ 64 - 1 := rfl
  have hspan : 2 ^ 63 < span.toNat := UInt64.lt_iff_toNat_lt.mp h
  have hlt := span.toNat_lt
  have hmod : (2 ^ 64 - 1) % span.toNat = 2 ^ 64 - 1 - span.toNat := by
    rw [Nat.mod_eq_sub_mod (by omega), Nat.mod_eq_of_lt (by omega)]
  apply UInt64.toNat_inj.mp
  rw [limit, UInt64.toNat_sub, UInt64.toNat_mod, hall, hmod]
  omega

/-! ## The samples -/

theorem sampleBelow_lt {bound : UInt64} {samples : Nat} {rng : σ} {found : UInt64 × σ}
    (h : sampleBelow G bound samples rng = some found) : found.1 < bound := by
  induction samples generalizing rng with
  | zero => cases h
  | succ samples ih =>
    rw [sampleBelow] at h
    split at h
    · next hlt =>
      cases h
      exact hlt
    · exact ih h

theorem sampleBelow_finds {bound : UInt64} {rng : σ} {n : Nat}
    (h : (G.uint64 (after G n rng)).1 < bound) {samples : Nat} (hmore : n < samples) :
    ∃ found, sampleBelow G bound samples rng = some found := by
  induction n generalizing rng samples with
  | zero =>
    obtain ⟨samples, rfl⟩ := Nat.exists_eq_add_one.mpr hmore
    exact ⟨_, if_pos h⟩
  | succ n ih =>
    obtain ⟨samples, rfl⟩ := Nat.exists_eq_add_one.mpr (Nat.zero_lt_of_lt hmore)
    rw [sampleBelow]
    split
    · exact ⟨_, rfl⟩
    · exact ih h (Nat.lt_of_succ_lt_succ hmore)

section Ranges

variable {min max : Int64}

theorem toInt_ofSample (hle : min ≤ max) (hsize : size min max < 2 ^ 64) (sample : UInt64) :
    (ofSample min max sample).toInt = min.toInt + (sample % span min max).toNat ∧
      ((sample % span min max).toNat : Int) < size min max := by
  have hspan := toNat_span hle hsize
  have hle' := Int64.le_iff_toInt_le.mp hle
  have hmax := max.toInt_lt
  have hlt : (sample % span min max).toNat < (span min max).toNat := by
    rw [UInt64.toNat_mod]
    apply Nat.mod_lt
    unfold size at hspan
    omega
  refine ⟨toInt_add_toInt64 ?_, by omega⟩
  unfold size at hspan
  omega

/-- On the rejection path a value of the range has one sample, its distance from the least. -/
theorem samplesOf_eq (hle : min ≤ max) (hsize : size min max < 2 ^ 64)
    (hspan : 9223372036854775808 < span min max) {value : Int64} (hlow : min ≤ value)
    (hhigh : value ≤ max) : samplesOf min max value = {value.toUInt64 - min.toUInt64} := by
  have hnat := toNat_span hle hsize
  have hlow' := Int64.le_iff_toInt_le.mp hlow
  have hhigh' := Int64.le_iff_toInt_le.mp hhigh
  have hmin := toNat_toUInt64 min
  have hvalue := toNat_toUInt64 value
  have hdist : ((value.toUInt64 - min.toUInt64).toNat : Int) = value.toInt - min.toInt := by
    have hbelow := value.toInt_lt
    have habove := min.le_toInt
    rw [UInt64.toNat_sub]
    omega
  ext sample
  have hof := (toInt_ofSample hle hsize sample).1
  have hsmall : sample < span min max → (sample % span min max).toNat = sample.toNat :=
    fun h => by rw [UInt64.toNat_mod, Nat.mod_eq_of_lt (UInt64.lt_iff_toNat_lt.mp h)]
  simp only [samplesOf, limit_span hspan, Set.mem_ofPred_eq, Set.mem_singleton_iff]
  constructor
  · rintro ⟨hlt, rfl⟩
    apply UInt64.toNat_inj.mp
    have hsame := hsmall hlt
    omega
  · rintro rfl
    have hlt : value.toUInt64 - min.toUInt64 < span min max := by
      rw [UInt64.lt_iff_toNat_lt]
      unfold size at hnat
      omega
    refine ⟨hlt, Int64.toInt_inj.mp ?_⟩
    rw [hof, hsmall hlt, hdist]
    omega

end Ranges

/-! ## The ranges on which the function is right -/

theorem randomInt_panicked {min max : Int64} (hsize : size min max = 2 ^ 63) (samples : Nat)
    (rng : σ) : randomInt G samples (some rng) min max = .panicked := by
  have hle : min.toInt ≤ max.toInt := by
    unfold size at hsize
    omega
  have hnat := toNat_span (Int64.le_iff_toInt_le.mpr hle) (by omega)
  have hspan : span min max = 9223372036854775808 := by
    apply UInt64.toNat_inj.mp
    rw [hsize] at hnat
    exact Int.ofNat.inj hnat
  have hnot : ¬ max < min := by
    rw [Int64.lt_iff_toInt_lt]
    omega
  have hpart : ¬ (min = -9223372036854775808 ∧ max = 9223372036854775807) := by
    rw [← size_eq_iff]
    omega
  have hneg : ¬ (0 < (9223372036854775808 : UInt64).toInt64) := by decide
  simp only [randomInt, if_neg hnot, if_neg hpart, hspan, UInt64.le_refl, if_true, if_neg hneg]

variable {G} in
theorem fair_of_small (hG : G.Bounded) {min max : Int64} (hle : min ≤ max)
    (hsize : size min max < 2 ^ 63) : Fair G min max := by
  have hle' := Int64.le_iff_toInt_le.mp hle
  have hnat := toNat_span hle (by omega)
  have hnot : ¬ max < min := Int64.not_lt.mpr hle
  have hpart : ¬ (min = -9223372036854775808 ∧ max = 9223372036854775807) := by
    rw [← size_eq_iff]
    omega
  have hspan : span min max ≤ 9223372036854775808 := by
    rw [UInt64.le_iff_toNat_le]
    have hbound : (9223372036854775808 : UInt64).toNat = 2 ^ 63 := rfl
    omega
  have hint : (span min max).toInt64.toInt = size min max := by
    rw [toInt_eq_bmod, UInt64.toUInt64_toInt64, hnat]
    exact Int.bmod_eq_of_le (by unfold size; omega) (by omega)
  have hpos : 0 < (span min max).toInt64 := by
    rw [Int64.lt_iff_toInt_lt, hint, Int64.toInt_zero, size]
    omega
  have hrun : ∀ samples rng, randomInt G samples (some rng) min max =
      .returned (min + (G.int63n (span min max).toInt64 rng).1)
        (G.int63n (span min max).toInt64 rng).2 := by
    intro samples rng
    simp only [randomInt, if_neg hnot, if_neg hpart, if_pos hspan, if_pos hpos]
  refine ⟨?_, ?_, ?_, ?_⟩
  · intro samples rng h
    rw [hrun] at h
    cases h
  · intro samples rng value rng' h
    rw [hrun] at h
    obtain ⟨hlow, hhigh⟩ := hG _ rng hpos
    rw [Int64.le_iff_toInt_le, Int64.toInt_zero] at hlow
    rw [Int64.lt_iff_toInt_lt, hint] at hhigh
    have hmin := min.le_toInt
    have hmax := max.toInt_lt
    have hvalue : value.toInt = min.toInt + (G.int63n (span min max).toInt64 rng).1.toInt := by
      rw [← (Outcome.returned.inj h).1, Int64.toInt_add]
      unfold size at hhigh
      exact Int.bmod_eq_of_le (by omega) (by omega)
    unfold size at hhigh
    rw [Int64.le_iff_toInt_le, Int64.le_iff_toInt_le]
    omega
  · intro rng _
    exact ⟨0, fun more _ => ⟨_, _, hrun more rng⟩⟩
  · intro hlarge
    exact absurd hspan (UInt64.not_le.mpr hlarge)

theorem fair_of_large {min max : Int64} (hle : min ≤ max) (hlow : 2 ^ 63 < size min max)
    (hsize : size min max < 2 ^ 64) : Fair G min max := by
  have hnat := toNat_span hle hsize
  have hnot : ¬ max < min := Int64.not_lt.mpr hle
  have hpart : ¬ (min = -9223372036854775808 ∧ max = 9223372036854775807) := by
    rw [← size_eq_iff]
    omega
  have hspan : 9223372036854775808 < span min max := by
    rw [UInt64.lt_iff_toNat_lt]
    have hbound : (9223372036854775808 : UInt64).toNat = 2 ^ 63 := rfl
    omega
  have hrun : ∀ samples rng, randomInt G samples (some rng) min max =
      match sampleBelow G (limit (span min max)) samples rng with
      | some (sample, rng) => .returned (ofSample min max sample) rng
      | none => .sampling := by
    intro samples rng
    simp only [randomInt, if_neg hnot, if_neg hpart, if_neg (UInt64.not_le.mpr hspan)]
  refine ⟨?_, ?_, ?_, ?_⟩
  · intro samples rng h
    rw [hrun] at h
    cases hfound : sampleBelow G (limit (span min max)) samples rng with
    | none => simp [hfound] at h
    | some found => simp [hfound] at h
  · intro samples rng value rng' h
    rw [hrun] at h
    cases hfound : sampleBelow G (limit (span min max)) samples rng with
    | none => simp [hfound] at h
    | some found =>
      rw [hfound] at h
      obtain ⟨hvalue, hbelow⟩ := toInt_ofSample hle hsize found.1
      rw [← (Outcome.returned.inj h).1, Int64.le_iff_toInt_le, Int64.le_iff_toInt_le, hvalue]
      unfold size at hbelow
      omega
  · intro rng hstream
    obtain ⟨n, hn⟩ := hstream hspan
    refine ⟨n + 1, fun more hmore => ?_⟩
    obtain ⟨found, hfound⟩ := sampleBelow_finds G hn hmore
    exact ⟨_, _, by rw [hrun, hfound]⟩
  · intro _ v w hv hv' hw hw'
    rw [samplesOf_eq hle hsize hspan hv hv', samplesOf_eq hle hsize hspan hw hw',
      Set.ncard_singleton, Set.ncard_singleton]

theorem fair_of_whole : Fair G (-9223372036854775808) 9223372036854775807 := by
  have hrun : ∀ samples rng,
      randomInt G samples (some rng) (-9223372036854775808) 9223372036854775807 =
        .returned ((G.uint64 rng).1 ^^^ 9223372036854775808).toInt64 (G.uint64 rng).2 := by
    intro samples rng
    have hnot : ¬ ((9223372036854775807 : Int64) < -9223372036854775808) := by decide
    simp only [randomInt, if_neg hnot, and_self, if_true]
  refine ⟨?_, ?_, ?_, ?_⟩
  · intro samples rng h
    cases h
  · intro samples rng value rng' _
    have hmin := value.le_toInt
    have hmax := value.toInt_lt
    have hleast : (-9223372036854775808 : Int64).toInt = -2 ^ 63 := by decide
    have hgreatest : (9223372036854775807 : Int64).toInt = 2 ^ 63 - 1 := by decide
    rw [Int64.le_iff_toInt_le, Int64.le_iff_toInt_le, hleast, hgreatest]
    omega
  · intro rng _
    exact ⟨0, fun more _ => ⟨_, _, hrun more rng⟩⟩
  · intro hlarge
    exact absurd hlarge (by decide)

/-- A range is served as it should be just when it does not have `2^63` values. -/
theorem fair_iff {min max : Int64} (hle : min ≤ max) :
    (∀ (σ : Type) (G : Rng σ), G.Bounded → Fair G min max) ↔ size min max ≠ 2 ^ 63 := by
  constructor
  · intro hall hsize
    -- Any generator will do.
    let G : Rng Unit := ⟨fun _ => (0, ()), fun _ _ => (0, ())⟩
    have hG : G.Bounded := fun n _ hn => ⟨Int64.le_refl 0, hn⟩
    exact (hall Unit G hG).positive 0 () (randomInt_panicked G hsize 0 ())
  · intro hsize σ G hG
    rcases lt_trichotomy (size min max) (2 ^ 63) with hsmall | hsame | hlarge
    · exact fair_of_small hG hle hsmall
    · exact absurd hsame hsize
    · rcases (size_le min max).lt_or_eq with hpart | hwhole
      · exact fair_of_large G hle hlarge hpart
      · obtain ⟨rfl, rfl⟩ := size_eq_iff.mp hwhole
        exact fair_of_whole G

/-- The dice of a game are fair. -/
theorem fair_dice : (1 : Int64) ≤ 6 ∧ ∀ (σ : Type) (G : Rng σ), G.Bounded → Fair G 1 6 :=
  ⟨by decide, (fair_iff (by decide)).mpr (by decide)⟩

/-- There is no random number that is not negative: the call panics. -/
theorem natural_panics :
    ¬ ∀ (min max : Int64), min ≤ max → ∀ (σ : Type) (G : Rng σ), G.Bounded → Fair G min max := by
  intro hall
  let G : Rng Unit := ⟨fun _ => (0, ()), fun _ _ => (0, ())⟩
  have hG : G.Bounded := fun n _ hn => ⟨Int64.le_refl 0, hn⟩
  have hpanic : randomInt G 0 (some ()) 0 9223372036854775807 = .panicked := by decide
  exact (hall 0 9223372036854775807 (by decide) Unit G hG).positive 0 () hpanic

end Kryndel.RandomInt
