import Kryndel.Discord.RateLimiter

/-!
# What the rate limiter keeps to

As long as an allowance runs the limiter has recorded a reset that is no earlier, and no more
remains than the allowance has left. A response can break that: where an earlier reset is
recorded that is still to come it is kept, also against a longer time to wait; where the time of
a response is earlier, it replaces the recorded one; and where a response does not name its
bucket, nothing is recorded of it.
-/

namespace Kryndel.Discord

open RateLimiter

/-! ## The specification -/

/-- A request passes only if its application is not to be left alone and each allowance of its
    bucket that still runs has something left; and none has been exceeded. -/
structure LimiterRun.Obeys (s : LimiterRun) : Prop where
  banned : ∀ appKey routeKey, s.passes appKey routeKey = true →
    ∀ ban ∈ s.bans, ban.1 = appKey → ban.2 ≤ s.now
  allowed : ∀ appKey routeKey, s.passes appKey routeKey = true →
    ∀ a ∈ s.allowances, a.bucket = s.limiter.bucketOf appKey routeKey → s.now < a.ends →
      a.passed < a.allowed
  passed : ∀ a ∈ s.allowances, a.passed ≤ a.allowed

/-- A response that leaves no allowance uncovered: its reset, and a recorded one that is still to
    come, are not before the end of any allowance of its bucket that runs. -/
@[mk_iff]
structure RespectfulResponse (arithmetic : SecondsArithmetic) (s : LimiterRun) (o : Observation)
    (windowEnd : Nat) : Prop where
  /-- The time to wait is not rounded down. -/
  global : o.limited = true → o.isGlobal = true →
    o.retryAfter ≤ arithmetic.duration (arithmetic.seconds o.retryAfter)
  named : o.response.bucket ≠ "" → ∀ a ∈ s.said o windowEnd ++ s.allowances,
    a.bucket = o.bucketID → s.now < a.ends → a.ends ≤ o.resetAt arithmetic ∧
      ∀ old ∈ s.limiter.buckets o.bucketID, o.now < old.resetAt → a.ends ≤ old.resetAt
  /-- Without the name of a bucket, the bucket of the route is exhausted for so long anyway. -/
  unnamed : o.response.bucket = "" → ∀ a ∈ s.said o windowEnd, s.now < a.ends →
    ∃ old ∈ s.limiter.buckets a.bucket, old.remaining ≤ 0 ∧ a.ends ≤ old.resetAt

instance (arithmetic : SecondsArithmetic) (s : LimiterRun) (o : Observation) (windowEnd : Nat) :
    Decidable (RespectfulResponse arithmetic s o windowEnd) :=
  decidable_of_iff' _ (respectfulResponse_iff arithmetic s o windowEnd)

/-- The condition on a move. -/
def LimiterRun.Respects (arithmetic : SecondsArithmetic) (s : LimiterRun) : LimiterMove → Prop
  | .respond o windowEnd => RespectfulResponse arithmetic s o windowEnd
  | _ => True

/-! ## Buckets -/

theorem bucketID_ne (appKey hash routeKey : String) : bucketID appKey hash routeKey ≠ "" := by
  intro h
  have hlength := congrArg String.length h
  rw [bucketID, String.length_append, String.length_append, String.length_append] at hlength
  have hbar : "|".length = 1 := rfl
  have hempty : "".length = 0 := rfl
  omega

theorem Observation.remaining_nonneg (o : Observation) : 0 ≤ o.remaining := by
  unfold Observation.remaining
  split
  · exact Int.le_refl 0
  cases o.response.remaining with
  | none => exact Int.le_refl 0
  | some remaining =>
    simp only
    split
    · exact Int.le_refl 0
    · next h => exact Int.not_lt.mp h

section Merge

variable {old : Option RateBucket} {now : Nat} {remaining : Int} {resetAt : Nat}

theorem merge_remaining_nonneg (hnew : 0 ≤ remaining)
    (hold : ∀ bucket, old = some bucket → 0 ≤ bucket.remaining) :
    0 ≤ (RateBucket.merge old now remaining resetAt).remaining := by
  cases old with
  | none => exact hnew
  | some bucket =>
    rw [RateBucket.merge]
    split
    · exact hold bucket rfl
    · exact hnew

variable (old now remaining resetAt) in
theorem merge_remaining_le :
    (RateBucket.merge old now remaining resetAt).remaining ≤ remaining := by
  cases old with
  | none => exact Int.le_refl _
  | some bucket =>
    rw [RateBucket.merge]
    split
    · next h => exact Int.le_of_lt h.2
    · exact Int.le_refl _

theorem merge_remaining_le_old {bucket : RateBucket} (hold : old = some bucket)
    (hopen : now < bucket.resetAt) (remaining : Int) (resetAt : Nat) :
    (RateBucket.merge old now remaining resetAt).remaining ≤ bucket.remaining := by
  rw [hold, RateBucket.merge]
  split
  · exact Int.le_refl _
  · next h => exact Int.not_lt.mp fun hlt => h ⟨hopen, hlt⟩

theorem le_merge_resetAt {ends : Nat} (hnew : ends ≤ resetAt)
    (hold : ∀ bucket, old = some bucket → now < bucket.resetAt → ends ≤ bucket.resetAt) :
    ends ≤ (RateBucket.merge old now remaining resetAt).resetAt := by
  cases old with
  | none => exact hnew
  | some bucket =>
    rw [RateBucket.merge]
    simp only
    split
    · next h => exact hold bucket rfl h.1
    · exact hnew

end Merge

/-! ## Covered allowances -/

/-- An allowance is covered by the record of its bucket. -/
def RateLimiter.Covers (limiter : RateLimiter) (a : Allowance) : Prop :=
  a.bucket ≠ "" ∧ ∃ bucket, limiter.buckets a.bucket = some bucket ∧ a.ends ≤ bucket.resetAt ∧
    (a.passed : Int) + bucket.remaining ≤ a.allowed

/-- The invariant of the runs. -/
structure LimiterRun.Inv (s : LimiterRun) : Prop where
  bans : ∀ ban ∈ s.bans, ban.2 ≤ s.limiter.globalUntil ban.1
  nonneg : ∀ id bucket, s.limiter.buckets id = some bucket → 0 ≤ bucket.remaining
  covered : ∀ a ∈ s.allowances, s.now < a.ends → s.limiter.Covers a
  passed : ∀ a ∈ s.allowances, a.passed ≤ a.allowed

section Attempts

variable {s : LimiterRun} {appKey routeKey : String}

theorem globalUntil_le (h : s.passes appKey routeKey = true) :
    s.limiter.globalUntil appKey ≤ s.now := by
  have hle : s.limiter.waitUntil appKey routeKey ≤ s.now := of_decide_eq_true h
  refine Nat.le_trans ?_ hle
  rw [waitUntil]
  split
  · split
    · split
      · next hlater => exact Nat.le_of_lt hlater.2
      · exact Nat.le_refl _
    · exact Nat.le_refl _
  · exact Nat.le_refl _

theorem remaining_pos {bucket : RateBucket} (h : s.passes appKey routeKey = true)
    (hne : s.limiter.bucketOf appKey routeKey ≠ "")
    (hbucket : s.limiter.buckets (s.limiter.bucketOf appKey routeKey) = some bucket)
    (hopen : s.now < bucket.resetAt) : 0 < bucket.remaining := by
  by_contra hnone
  have hle : s.limiter.waitUntil appKey routeKey ≤ s.now := of_decide_eq_true h
  have hlater : bucket.remaining ≤ 0 ∧ bucket.resetAt > s.limiter.globalUntil appKey :=
    ⟨Int.not_lt.mp hnone, Nat.lt_of_le_of_lt (globalUntil_le h) hopen⟩
  rw [waitUntil] at hle
  simp only [if_pos hne, hbucket, if_pos hlater] at hle
  exact Nat.not_lt.mpr hle hopen

theorem passed_lt (hinv : s.Inv) (h : s.passes appKey routeKey = true) {a : Allowance}
    (ha : a ∈ s.allowances) (hbucket : a.bucket = s.limiter.bucketOf appKey routeKey)
    (hlive : s.now < a.ends) : a.passed < a.allowed := by
  obtain ⟨hne, bucket, hfind, hends, hleft⟩ := hinv.covered a ha hlive
  rw [hbucket] at hne hfind
  have hpos := remaining_pos h hne hfind (Nat.lt_of_lt_of_le hlive hends)
  omega

theorem take_buckets (limiter : RateLimiter) (id : String) :
    (limiter.take appKey routeKey).buckets id = limiter.buckets id ∨
      id = limiter.bucketOf appKey routeKey ∧ ∃ bucket, limiter.buckets id = some bucket ∧
        0 < bucket.remaining ∧ (limiter.take appKey routeKey).buckets id =
          some { bucket with remaining := bucket.remaining - 1 } := by
  unfold take
  simp only
  split
  · cases hfind : limiter.buckets (limiter.bucketOf appKey routeKey) with
    | none => exact Or.inl rfl
    | some bucket =>
      simp only
      split
      · next hpos =>
        by_cases hid : id = limiter.bucketOf appKey routeKey
        · subst hid
          exact Or.inr ⟨rfl, bucket, hfind, hpos, Function.update_self _ _ _⟩
        · exact Or.inl (Function.update_of_ne hid _ _)
      · exact Or.inl rfl
  · exact Or.inl rfl

theorem take_globalUntil (limiter : RateLimiter) :
    (limiter.take appKey routeKey).globalUntil = limiter.globalUntil := by
  unfold take
  simp only
  split
  · split
    · split <;> rfl
    · rfl
  · rfl

theorem take_counts {bucket : RateBucket} (h : s.passes appKey routeKey = true)
    (hne : s.limiter.bucketOf appKey routeKey ≠ "")
    (hbucket : s.limiter.buckets (s.limiter.bucketOf appKey routeKey) = some bucket)
    (hopen : s.now < bucket.resetAt) :
    (s.limiter.take appKey routeKey).buckets (s.limiter.bucketOf appKey routeKey) =
      some { bucket with remaining := bucket.remaining - 1 } := by
  have hpos := remaining_pos h hne hbucket hopen
  rw [take]
  simp only [if_pos hne, hbucket, if_pos hpos]
  exact Function.update_self _ _ _

theorem inv_attempt (hinv : s.Inv) (h : s.passes appKey routeKey = true) : LimiterRun.Inv { s with
    limiter := s.limiter.take appKey routeKey
    allowances := s.allowances.map (.pass s.now (s.limiter.bucketOf appKey routeKey)) } where
  bans ban hban := by
    rw [take_globalUntil]
    exact hinv.bans ban hban
  nonneg id bucket hfind := by
    rcases take_buckets s.limiter id with hsame | ⟨-, old, hold, hpos, hnew⟩
    · exact hinv.nonneg id bucket (hsame.symm.trans hfind)
    · obtain rfl := Option.some.inj (hnew.symm.trans hfind)
      exact Int.le_sub_one_of_lt hpos
  covered a' ha' hlive := by
    obtain ⟨a, ha, rfl⟩ := List.mem_map.mp ha'
    unfold Allowance.pass at hlive ⊢
    split
    · next hcounted =>
      obtain ⟨hne, bucket, hfind, hends, hleft⟩ := hinv.covered a ha hcounted.2
      refine ⟨hne, { bucket with remaining := bucket.remaining - 1 }, ?_, hends, ?_⟩
      · rw [hcounted.1] at hne hfind ⊢
        exact take_counts h hne hfind (Nat.lt_of_lt_of_le hcounted.2 hends)
      · push_cast
        omega
    · next hother =>
      rw [if_neg hother] at hlive
      obtain ⟨hne, bucket, hfind, hends, hleft⟩ := hinv.covered a ha hlive
      refine ⟨hne, bucket, ?_, hends, hleft⟩
      rcases take_buckets s.limiter a.bucket with hsame | ⟨hbucket, -⟩
      · rw [hsame, hfind]
      · exact absurd ⟨hbucket, hlive⟩ hother
  passed a' ha' := by
    obtain ⟨a, ha, rfl⟩ := List.mem_map.mp ha'
    unfold Allowance.pass
    split
    · next hcounted => exact passed_lt hinv h ha hcounted.1 hcounted.2
    · exact hinv.passed a ha

end Attempts

section Responses

variable (arithmetic : SecondsArithmetic) {s : LimiterRun} {o : Observation}

variable (limiter : RateLimiter)

theorem observe_globalUntil (o : Observation) :
    (limiter.observe arithmetic o).globalUntil =
      if o.isGlobal ∧ o.resetAt arithmetic > limiter.globalUntil o.appKey then
        Function.update limiter.globalUntil o.appKey (o.resetAt arithmetic)
      else limiter.globalUntil := by
  rw [observe]
  split <;> split <;> rfl

theorem observe_buckets (o : Observation) :
    (limiter.observe arithmetic o).buckets =
      if o.response.bucket = "" then limiter.buckets
      else Function.update limiter.buckets o.bucketID (some (RateBucket.merge
        (limiter.buckets o.bucketID) o.now o.remaining (o.resetAt arithmetic))) := by
  rw [observe]
  split <;> split <;> rfl

theorem le_observe_globalUntil (o : Observation) (appKey : String) :
    limiter.globalUntil appKey ≤ (limiter.observe arithmetic o).globalUntil appKey := by
  rw [observe_globalUntil]
  split
  · next h =>
    by_cases happ : appKey = o.appKey
    · subst happ
      rw [Function.update_self]
      exact Nat.le_of_lt h.2
    · rw [Function.update_of_ne happ]
  · exact Nat.le_refl _

theorem resetAt_le_globalUntil (h : o.isGlobal = true) :
    o.resetAt arithmetic ≤ (limiter.observe arithmetic o).globalUntil o.appKey := by
  rw [observe_globalUntil]
  split
  · rw [Function.update_self]
  · next hnot => exact Nat.not_lt.mp fun hlt => hnot ⟨h, hlt⟩

theorem mem_said {windowEnd : Nat} {a : Allowance} (h : a ∈ s.said o windowEnd) :
    a.passed = 0 ∧ (a.bucket = o.bucketID ∧ o.response.bucket ≠ "" ∧ o.remaining ≤ a.allowed ∨
      o.response.bucket = "" ∧ a.bucket ≠ "" ∧ a.allowed = 0) := by
  unfold LimiterRun.said at h
  split at h
  · next hlimited =>
    split at h
    · cases h
    · next hbucket =>
      rw [List.mem_singleton] at h
      subst h
      refine ⟨rfl, ?_⟩
      have hzero : o.remaining ≤ 0 := by
        rw [Observation.remaining, if_pos hlimited]
      rw [not_or, LimiterRun.limitedBucket] at hbucket
      rw [LimiterRun.limitedBucket]
      by_cases hnamed : o.response.bucket = ""
      · rw [if_pos hnamed] at hbucket ⊢
        exact Or.inr ⟨hnamed, hbucket.2, rfl⟩
      · rw [if_neg hnamed]
        exact Or.inl ⟨rfl, hnamed, hzero⟩
  · next hlimited =>
    split at h
    · cases h
    · next hnamed =>
      obtain ⟨remaining, hremaining, rfl⟩ := List.mem_map.mp h
      rw [Option.mem_toList, Option.filter_eq_some_iff] at hremaining
      have hnonneg : 0 ≤ remaining := of_decide_eq_true hremaining.2
      refine ⟨rfl, Or.inl ⟨rfl, hnamed, ?_⟩⟩
      rw [Observation.remaining, if_neg hlimited, hremaining.1]
      simp only [if_neg (Int.not_lt.mpr hnonneg)]
      exact Int.self_le_toNat remaining

/-- A response under the condition keeps the invariant. -/
theorem inv_respond {windowEnd : Nat} (hinv : s.Inv) (htime : o.now ≤ s.now)
    (h : RespectfulResponse arithmetic s o windowEnd) : LimiterRun.Inv { s with
      limiter := s.limiter.observe arithmetic o
      allowances := s.said o windowEnd ++ s.allowances
      bans := LimiterRun.saidOfAll o ++ s.bans } where
  bans ban hban := by
    rcases List.mem_append.mp hban with hnew | hold
    · unfold LimiterRun.saidOfAll at hnew
      split at hnew
      · next hsaid =>
        rw [List.mem_singleton] at hnew
        subst hnew
        refine Nat.le_trans ?_ (resetAt_le_globalUntil arithmetic s.limiter hsaid.2)
        rw [Observation.resetAt, Observation.resetAfter, if_pos hsaid.1]
        exact Nat.add_le_add_left (h.global hsaid.1 hsaid.2) _
      · cases hnew
    · exact Nat.le_trans (hinv.bans ban hold) (le_observe_globalUntil arithmetic _ _ _)
  nonneg id bucket hfind := by
    rw [observe_buckets] at hfind
    split at hfind
    · exact hinv.nonneg id bucket hfind
    · by_cases hid : id = o.bucketID
      · subst hid
        rw [Function.update_self] at hfind
        obtain rfl := Option.some.inj hfind
        exact merge_remaining_nonneg o.remaining_nonneg (hinv.nonneg _)
      · rw [Function.update_of_ne hid] at hfind
        exact hinv.nonneg id bucket hfind
  covered a ha hlive := by
    have hbuckets := observe_buckets arithmetic s.limiter o
    by_cases hnamed : o.response.bucket = ""
    · rw [if_pos hnamed] at hbuckets
      unfold RateLimiter.Covers
      rw [hbuckets]
      rcases List.mem_append.mp ha with hnew | hold
      · obtain ⟨hpassed, ⟨-, hbucket, -⟩ | ⟨-, hne, hallowed⟩⟩ := mem_said hnew
        · exact absurd hnamed hbucket
        · obtain ⟨old, hfind, hnone, hends⟩ := h.unnamed hnamed a hnew hlive
          refine ⟨hne, old, hfind, hends, ?_⟩
          rw [hpassed, hallowed]
          simpa using hnone
      · exact hinv.covered a hold hlive
    · rw [if_neg hnamed] at hbuckets
      by_cases hbucket : a.bucket = o.bucketID
      · obtain ⟨hends, hopen⟩ := h.named hnamed a ha hbucket hlive
        refine ⟨by rw [hbucket]; exact bucketID_ne _ _ _, RateBucket.merge
          (s.limiter.buckets o.bucketID) o.now o.remaining (o.resetAt arithmetic), ?_,
            le_merge_resetAt hends hopen, ?_⟩
        · rw [hbucket, hbuckets, Function.update_self]
        rcases List.mem_append.mp ha with hnew | hold
        · obtain ⟨hpassed, ⟨-, -, hallowed⟩ | ⟨hunnamed, -⟩⟩ := mem_said hnew
          · rw [hpassed]
            have hle := Int.le_trans (merge_remaining_le (s.limiter.buckets o.bucketID) o.now
              o.remaining (o.resetAt arithmetic)) hallowed
            simpa using hle
          · exact absurd hunnamed hnamed
        · -- The allowance is covered by the old record, whose reset is to come.
          obtain ⟨-, old, hfind, holdEnds, hleft⟩ := hinv.covered a hold hlive
          rw [hbucket] at hfind
          have hopenOld : o.now < old.resetAt :=
            Nat.lt_of_le_of_lt htime (Nat.lt_of_lt_of_le hlive holdEnds)
          have hle := merge_remaining_le_old hfind hopenOld o.remaining (o.resetAt arithmetic)
          omega
      · rcases List.mem_append.mp ha with hnew | hold
        · obtain ⟨-, ⟨hsame, -⟩ | ⟨hunnamed, -⟩⟩ := mem_said hnew
          · exact absurd hsame hbucket
          · exact absurd hunnamed hnamed
        · obtain ⟨hne, old, hfind, hends, hleft⟩ := hinv.covered a hold hlive
          refine ⟨hne, old, ?_, hends, hleft⟩
          rw [hbuckets, Function.update_of_ne hbucket, hfind]
  passed a ha := by
    rcases List.mem_append.mp ha with hnew | hold
    · rw [(mem_said hnew).1]
      exact Nat.zero_le _
    · exact hinv.passed a hold

end Responses

/-! ## Runs -/

section Runs

variable (arithmetic : SecondsArithmetic)

theorem covered_step {s s' : LimiterRun} {m : LimiterMove} (hinv : s.Inv)
    (hrespects : s.Respects arithmetic m) (hstep : s.step arithmetic m = some s') : s'.Inv := by
  cases m with
  | attempt appKey routeKey =>
    rw [LimiterRun.step] at hstep
    split at hstep
    · next h =>
      cases hstep
      exact inv_attempt hinv h
    · cases hstep
      exact hinv
  | respond o windowEnd =>
    rw [LimiterRun.step] at hstep
    split at hstep
    · next htime =>
      cases hstep
      exact inv_respond arithmetic hinv htime hrespects
    · cases hstep
  | elapse duration =>
    cases hstep
    exact {
      bans := hinv.bans
      nonneg := hinv.nonneg
      covered := fun a ha hlive =>
        hinv.covered a ha (Nat.lt_of_le_of_lt (Nat.le_add_right _ _) hlive)
      passed := hinv.passed }

theorem inv_start : LimiterRun.Inv {} where
  bans _ hban := by cases hban
  nonneg _ _ hfind := by cases hfind
  covered _ ha := by cases ha
  passed _ ha := by cases ha

/-- In every run of such responses the requests that pass are those that may. -/
theorem limits_obeyed {moves : List LimiterMove} {s : LimiterRun}
    (hrespects : Systems.Meets (LimiterRun.step arithmetic) (LimiterRun.Respects arithmetic) {}
      moves) (hrun : Systems.run (LimiterRun.step arithmetic) {} moves = some s) : s.Obeys := by
  have hinv : s.Inv := Systems.run_preserves
    (fun _ _ _ hinv hrespects hstep => covered_step arithmetic hinv hrespects hstep) inv_start
      hrespects hrun
  exact {
    banned := by
      intro appKey routeKey hpasses ban hban happ
      subst happ
      exact Nat.le_trans (hinv.bans ban hban) (globalUntil_le hpasses)
    allowed := by
      intro appKey routeKey hpasses a ha hbucket hlive
      exact passed_lt hinv hpasses ha hbucket hlive
    passed := hinv.passed }

end Runs

/-! ## A short window and a longer time to wait -/

/-- Whole nanoseconds, without rounding. -/
def exactSeconds : SecondsArithmetic where
  seconds d := (d : Rat) / 1000000000
  duration x := (x.num * 1000000000 / x.den).toNat

/-- A response in a window of one second. -/
def oneSecond : Observation where
  appKey := "app"
  routeKey := "gateway|"
  response := { statusCode := 200, resetAfter := 1, remaining := some 5, bucket := "b" }
  now := 0

/-- A 429 response about the same bucket, with a time to wait in seconds. -/
def limitedFor (seconds : Nat) : Observation where
  appKey := "app"
  routeKey := "gateway|"
  response := { statusCode := 429, bucket := "b" }
  retryAfter := seconds * 1000000000
  now := 0

/-- Both responses, and the time until the window ends. -/
def bothResponses (seconds : Nat) : List LimiterMove :=
  [.respond oneSecond 1000000000, .respond (limitedFor seconds) 0, .elapse 1000000000]

/-- The state after them. -/
def afterBoth (seconds : Nat) : LimiterRun :=
  { limiter :=
      (newRateLimiter.observe exactSeconds oneSecond).observe exactSeconds (limitedFor seconds)
    now := 1000000000
    allowances := [{ bucket := oneSecond.bucketID, ends := seconds * 1000000000, allowed := 0 },
      { bucket := oneSecond.bucketID, ends := 1000000000, allowed := 5 }] }

/-- Where both say one second, nothing passes before it is over. -/
theorem oneSecond_obeyed : (afterBoth 1).Obeys := by
  have hfirst : RespectfulResponse exactSeconds {} oneSecond 1000000000 := by decide +kernel
  have hsecond : RespectfulResponse exactSeconds
      { limiter := newRateLimiter.observe exactSeconds oneSecond
        allowances := [{ bucket := oneSecond.bucketID, ends := 1000000000, allowed := 5 }] }
      (limitedFor 1) 0 := by decide +kernel
  have hrespects : Systems.Meets (LimiterRun.step exactSeconds)
      (LimiterRun.Respects exactSeconds) {} (bothResponses 1) := by
    refine ⟨hfirst, ?_⟩
    rintro s ⟨⟩
    refine ⟨hsecond, ?_⟩
    rintro s ⟨⟩
    exact ⟨trivial, fun _ _ => trivial⟩
  have hrun : Systems.run (LimiterRun.step exactSeconds) {} (bothResponses 1) =
      some (afterBoth 1) := rfl
  exact limits_obeyed exactSeconds hrespects hrun

/-- Where five seconds are to be waited, a request passes after one. -/
theorem five_seconds_cut : ¬ ∀ (moves : List LimiterMove) (s : LimiterRun),
    Systems.run (LimiterRun.step exactSeconds) {} moves = some s → s.Obeys := by
  intro hall
  have hrun : Systems.run (LimiterRun.step exactSeconds) {} (bothResponses 5) =
      some (afterBoth 5) := rfl
  have hpasses : (afterBoth 5).passes "app" "gateway|" = true := by decide +kernel
  have hlive := (hall _ _ hrun).allowed "app" "gateway|" hpasses _ List.mem_cons_self
    (by decide +kernel) (by decide +kernel)
  exact Nat.lt_irrefl 0 hlive

end Kryndel.Discord
