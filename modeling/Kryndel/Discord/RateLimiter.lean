import Kryndel.Systems.Run
import Mathlib.Data.Rat.Floor
import Mathlib.Data.String.Basic
import Mathlib.Logic.Function.Basic

/-!
# The rate limiter of the Discord runtime

A request waits until the limiter lets it pass. A route is given its bucket by the headers of a
response, and a bucket what remains of it and when it is reset. All requests and responses of a
runtime share one limiter, whose lock is taken for each round of a wait and for each response.

A response is observed by the clock as it was read before the lock was taken. Beside the limiter
stands what the responses have said: how long a route or all of them are to be left alone, and
how many requests of a bucket may pass until the end of the window that the server answered in.
A server knows that end; the header is only about it.

## References

- `discord_http.go`: `wait`, `observe`
-/

namespace Kryndel.Discord

/-! ## The limiter -/

/-- `discordRateBucket` -/
structure RateBucket where
  remaining : Int
  resetAt : Nat
deriving DecidableEq, Repr

/-- `discordRateLimiter`; times are nanoseconds, and the zero time is never in the future. -/
structure RateLimiter where
  routeBucket : String → String
  buckets : String → Option RateBucket
  globalUntil : String → Nat

/-- `newDiscordRateLimiter` -/
def newRateLimiter : RateLimiter := ⟨fun _ => "", fun _ => none, fun _ => 0⟩

/-- The arithmetic of durations and seconds, in floating point. -/
structure SecondsArithmetic where
  /-- `Duration.Seconds` -/
  seconds : Nat → Rat
  /-- `time.Duration(seconds * float64(time.Second))`, of seconds that are not negative. -/
  duration : Rat → Nat

/-- The headers of a response about limits. -/
structure LimitResponse where
  statusCode : Nat
  /-- `X-RateLimit-Reset-After`, as it is parsed: zero where it is missing or is no number. -/
  resetAfter : Rat := 0
  /-- `X-RateLimit-Remaining`, if it is a number of 64 bits. -/
  remaining : Option Int := none
  /-- `X-RateLimit-Bucket` -/
  bucket : String := ""
  /-- `X-RateLimit-Scope` -/
  scope : String := ""
  /-- `X-RateLimit-Global` -/
  globalHeader : String := ""

namespace RateLimiter

/-- `appKey + "|" + routeKey` -/
def lookupKey (appKey routeKey : String) : String := appKey ++ "|" ++ routeKey

/-- `strings.SplitN(routeKey, "|", 2)[1]`; a route key has a bar. -/
def majorPart (routeKey : String) : String :=
  String.ofList (routeKey.toList.dropWhile (· != '|')).tail

/-- `bucketID` -/
def bucketID (appKey hash routeKey : String) : String :=
  appKey ++ "|" ++ hash ++ "|" ++ majorPart routeKey

/-- The bucket that a route is known to have. -/
def bucketOf (limiter : RateLimiter) (appKey routeKey : String) : String :=
  limiter.routeBucket (lookupKey appKey routeKey)

/-- `until`, as a round of `wait` computes it. -/
def waitUntil (limiter : RateLimiter) (appKey routeKey : String) : Nat :=
  let deadline := limiter.globalUntil appKey
  let bucketID := limiter.bucketOf appKey routeKey
  if bucketID ≠ "" then
    match limiter.buckets bucketID with
    | some bucket =>
      if bucket.remaining ≤ 0 ∧ bucket.resetAt > deadline then bucket.resetAt else deadline
    | none => deadline
  else deadline

/-- What `wait` does when it lets a request pass. -/
def take (limiter : RateLimiter) (appKey routeKey : String) : RateLimiter :=
  let bucketID := limiter.bucketOf appKey routeKey
  if bucketID ≠ "" then
    match limiter.buckets bucketID with
    | some bucket =>
      if bucket.remaining > 0 then
        { limiter with
          buckets := Function.update limiter.buckets bucketID
            (some { bucket with remaining := bucket.remaining - 1 }) }
      else limiter
    | none => limiter
  else limiter

/-- `strings.EqualFold` with `"global"`. -/
def isGlobalScope (scope : String) : Bool := scope.toList.map Char.toLower == "global".toList

end RateLimiter

/-- What `observe` is called with, and the clock that it reads. -/
structure Observation where
  appKey : String
  routeKey : String
  response : LimitResponse
  retryAfter : Nat := 0
  global : Bool := false
  now : Nat

namespace Observation

variable (arithmetic : SecondsArithmetic) (o : Observation)

/-- A 429 response that says when to try again. -/
def limited : Bool := o.response.statusCode == 429 && o.retryAfter > 0

/-- `global` -/
def isGlobal : Bool :=
  o.global || RateLimiter.isGlobalScope o.response.scope ||
    o.limited && o.response.globalHeader == "true"

/-- `remaining` -/
def remaining : Int :=
  if o.limited then 0
  else
    match o.response.remaining with
    | none => 0
    | some remaining => if remaining < 0 then 0 else remaining

/-- `resetAfter` -/
def resetAfter : Rat :=
  if o.limited then arithmetic.seconds o.retryAfter
  else if o.response.resetAfter < 0 ∨ o.response.resetAfter > 3600 then 0
  else o.response.resetAfter

/-- `resetAt`, before it is compared with the recorded one. -/
def resetAt : Nat := o.now + arithmetic.duration (o.resetAfter arithmetic)

/-- `bucketID` -/
def bucketID : String := RateLimiter.bucketID o.appKey o.response.bucket o.routeKey

end Observation

/-- What `observe` records of a bucket. -/
def RateBucket.merge (old : Option RateBucket) (now : Nat) (remaining : Int) (resetAt : Nat) :
    RateBucket :=
  match old with
  | none => ⟨remaining, resetAt⟩
  | some old =>
    { resetAt := if old.resetAt > now ∧ old.resetAt < resetAt then old.resetAt else resetAt
      remaining := if old.resetAt > now ∧ old.remaining < remaining then old.remaining
        else remaining }

/-- `observe` -/
def RateLimiter.observe (arithmetic : SecondsArithmetic) (limiter : RateLimiter)
    (o : Observation) : RateLimiter :=
  let resetAt := o.resetAt arithmetic
  let limiter := if o.isGlobal ∧ resetAt > limiter.globalUntil o.appKey then
      { limiter with globalUntil := Function.update limiter.globalUntil o.appKey resetAt }
    else limiter
  if o.response.bucket = "" then limiter
  else
    { limiter with
      routeBucket := Function.update limiter.routeBucket (lookupKey o.appKey o.routeKey)
        o.bucketID
      buckets := Function.update limiter.buckets o.bucketID
        (some (RateBucket.merge (limiter.buckets o.bucketID) o.now o.remaining resetAt)) }

/-! ## Runs -/

/-- What a response has said of a bucket: so many requests may pass until some time. -/
structure Allowance where
  bucket : String
  ends : Nat
  allowed : Nat
  passed : Nat := 0

/-- A limiter, the time, the allowances, and until when applications are to be left alone. -/
structure LimiterRun where
  limiter : RateLimiter := newRateLimiter
  now : Nat := 0
  allowances : List Allowance := []
  bans : List (String × Nat) := []

/-- What happens to a limiter. -/
inductive LimiterMove where
  /-- A round of a wait. -/
  | attempt (appKey routeKey : String)
  /-- A response, which was sent in a window of the server with some end, and observed by a clock
      that had been read some time ago. -/
  | respond (o : Observation) (windowEnd : Nat)
  | elapse (duration : Nat)

/-- A request passes. -/
def Allowance.pass (now : Nat) (bucket : String) (a : Allowance) : Allowance :=
  if a.bucket = bucket ∧ now < a.ends then { a with passed := a.passed + 1 } else a

namespace LimiterRun

/-- Does a round of a wait let its request pass? -/
def passes (s : LimiterRun) (appKey routeKey : String) : Bool :=
  s.limiter.waitUntil appKey routeKey ≤ s.now

/-- The bucket that a 429 response is about: the one it names, or the one its route has. -/
def limitedBucket (s : LimiterRun) (o : Observation) : String :=
  if o.response.bucket = "" then s.limiter.bucketOf o.appKey o.routeKey else o.bucketID

/-- What a response says of a bucket: nothing may pass for a time, or so many until the window
    ends. -/
def said (s : LimiterRun) (o : Observation) (windowEnd : Nat) : List Allowance :=
  if o.limited then
    if o.isGlobal ∨ s.limitedBucket o = "" then []
    else [{ bucket := s.limitedBucket o, ends := o.now + o.retryAfter, allowed := 0 }]
  else if o.response.bucket = "" then []
  else (o.response.remaining.filter (0 ≤ ·)).toList.map fun remaining =>
    { bucket := o.bucketID, ends := windowEnd, allowed := remaining.toNat }

/-- What a response says of all routes of an application. -/
def saidOfAll (o : Observation) : List (String × Nat) :=
  if o.limited ∧ o.isGlobal then [(o.appKey, o.now + o.retryAfter)] else []

/-- A move is made. The clock of a response is one that has been read. -/
def step (arithmetic : SecondsArithmetic) (s : LimiterRun) : LimiterMove → Option LimiterRun
  | .attempt appKey routeKey =>
    if s.passes appKey routeKey then
      some { s with
        limiter := s.limiter.take appKey routeKey
        allowances := s.allowances.map (.pass s.now (s.limiter.bucketOf appKey routeKey)) }
    else some s
  | .respond o windowEnd =>
    if o.now ≤ s.now then
      some { s with
        limiter := s.limiter.observe arithmetic o
        allowances := s.said o windowEnd ++ s.allowances
        bans := saidOfAll o ++ s.bans }
    else none
  | .elapse duration => some { s with now := s.now + duration }

end LimiterRun

end Kryndel.Discord
