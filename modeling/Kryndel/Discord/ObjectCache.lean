import Kryndel.Systems.Recency
import Kryndel.Systems.Run
import Mathlib.Data.List.Nodup
import Mathlib.Data.List.Perm.Basic
import Mathlib.Data.String.Basic

/-!
# The object cache of the Discord runtime

The cache keeps a bounded number of objects, each until it has not been used for some time. What
has not been used for longest goes when there is no room; it is looked for by the times at which
the objects were used.

A call has the time at which it is made. The order in which the source ranges over the table is
arbitrary. The uses of the objects are written down beside the cache.

## References

- `discord_cache.go`
-/

namespace Kryndel.Discord

/-! ## The cache -/

/-- `discordCacheEntry` -/
structure CacheEntry (V : Type) where
  value : V
  seen : Nat
deriving DecidableEq, Repr

/-- `discordObjectCache`: at most one entry for each key. -/
structure ObjectCache (V : Type) where
  entries : List (String × CacheEntry V)
  capacity : Nat
  ttl : Nat
  distinct : (entries.map (·.1)).Nodup
  capacity_pos : 0 < capacity
  ttl_pos : 0 < ttl

/-- An order in which the table is ranged over. -/
structure RangeOrder (V : Type) where
  order : List (String × CacheEntry V) → List (String × CacheEntry V)
  perm : ∀ entries, (order entries).Perm entries

/-- `30 * time.Minute` -/
def defaultTTL : Nat := 30 * 60 * 1000000000

/-- `newDiscordObjectCache` -/
def newObjectCache (V : Type) (capacity ttl : Int) : ObjectCache V where
  entries := []
  capacity := if capacity < 1 then 1 else capacity.toNat
  ttl := if ttl ≤ 0 then defaultTTL else ttl.toNat
  distinct := List.nodup_nil
  capacity_pos := by split <;> omega
  ttl_pos := by
    split
    · decide
    · omega

/-- `validDiscordCacheKind` -/
def validCacheKind (kind : String) : Bool :=
  ["guild", "channel", "thread", "message", "user", "member", "role", "voice_state", "emoji",
    "sticker", "stage_instance", "scheduled_event"].contains kind

/-- `allDecimalDiscordID` -/
def allDecimalID (id : List Char) : Bool :=
  !(id.isEmpty || id.length > 20) && id.all fun c => '0' ≤ c && c ≤ '9'

/-- `validDiscordCacheID` -/
def validCacheID (id : String) : Bool :=
  let parts := id.toList.splitOn ':'
  !(parts.length < 1 || parts.length > 2) && parts.all fun part =>
    !(part.length > 20 || !allDecimalID part)

/-- `discordCacheKey` -/
def cacheKey (kind id : String) : String := kind ++ ":" ++ id

namespace ObjectCache

variable {V : Type}

/-- `delete(c.entries, key)` for the keys of which something holds. -/
def drop (cache : ObjectCache V) (p : String × CacheEntry V → Bool) : ObjectCache V :=
  { cache with
    entries := cache.entries.filter fun entry => !p entry
    distinct := cache.distinct.sublist (List.filter_sublist.map _) }

/-- `c.entries[key] = entry` -/
def store (cache : ObjectCache V) (key : String) (entry : CacheEntry V) : ObjectCache V :=
  { cache with
    entries := (key, entry) :: (cache.drop (·.1 == key)).entries
    distinct := by
      rw [List.map_cons, List.nodup_cons]
      refine ⟨?_, (cache.drop (·.1 == key)).distinct⟩
      intro hmem
      obtain ⟨other, hother, hkey⟩ := List.mem_map.mp hmem
      have hne := List.of_mem_filter hother
      simp [hkey] at hne }

/-- `now.Sub(entry.seen) >= c.ttl` -/
def expired (cache : ObjectCache V) (now : Nat) (entry : CacheEntry V) : Bool :=
  now - entry.seen ≥ cache.ttl

/-- What the scan of `setLocked` does at an entry. -/
def older (oldest : String × Nat) (candidate : String × CacheEntry V) : String × Nat :=
  if oldest.1 = "" ∨ candidate.2.seen < oldest.2 then (candidate.1, candidate.2.seen) else oldest

/-- The entry that the scan of `setLocked` finds. -/
def oldestKey (entries : List (String × CacheEntry V)) : String :=
  (entries.foldl older ("", 0)).1

/-- The loop of `setLocked` that makes room; a round deletes an entry. -/
def makeRoom (order : RangeOrder V) : Nat → ObjectCache V → ObjectCache V
  | 0, cache => cache
  | rounds + 1, cache =>
    if cache.entries.length > cache.capacity then
      makeRoom order rounds (cache.drop (·.1 == oldestKey (order.order cache.entries)))
    else cache

/-- The part of `setLocked` in front of that loop. -/
def enter (cache : ObjectCache V) (now : Nat) (key : String) (value : V) : ObjectCache V :=
  (cache.drop fun entry => cache.expired now entry.2).store key ⟨value, now⟩

/-- `setLocked` -/
def setLocked (cache : ObjectCache V) (order : RangeOrder V) (now : Nat) (kind id : String)
    (value : V) : ObjectCache V :=
  let cache := cache.enter now (cacheKey kind id) value
  makeRoom order cache.entries.length cache

/-- `get`; the clock is read again for the entry that is found. -/
def get (cache : ObjectCache V) (now pause : Nat) (kind id : String) : ObjectCache V × Option V :=
  let key := cacheKey kind id
  match cache.entries.lookup key with
  | none => (cache, none)
  | some entry =>
    if cache.expired now entry then (cache.drop (·.1 == key), none)
    else (cache.store key { entry with seen := now + pause }, some entry.value)

/-- `delete` -/
def delete (cache : ObjectCache V) (kind id : String) : ObjectCache V :=
  cache.drop (·.1 == cacheKey kind id)

/-- `clear` -/
def clear (cache : ObjectCache V) : ObjectCache V := cache.drop fun _ => true

end ObjectCache

/-! ## Runs -/

/-- A cache, the time, and the uses of its objects so far. -/
structure CacheRun (V : Type) where
  cache : ObjectCache V
  now : Nat := 0
  uses : List (String × Nat) := []

/-- The calls. -/
inductive CacheCall (V : Type) where
  | put (kind id : String) (value : V)
  | get (kind id : String) (pause : Nat)
  | delete (kind id : String)
  | clear
  | wait (duration : Nat)

/-- Is the value of a `put` taken? Its text is to be one of an object and of at most 1 MiB, and
    the object is to have no other ID. -/
def putAllowed {V : Type} (fits : String → V → Bool) (kind id : String) (value : V) : Bool :=
  validCacheKind kind && validCacheID id && fits id value

/-- What a `get` returns in a state. -/
def CacheRun.answer {V : Type} (s : CacheRun V) (kind id : String) : Option V :=
  (s.cache.get s.now 0 kind id).2

/-- A call is made. -/
def CacheRun.step {V : Type} (fits : String → V → Bool) (s : CacheRun V)
    (call : CacheCall V × RangeOrder V) : Option (CacheRun V) :=
  match call.1 with
  | .put kind id value =>
    if putAllowed fits kind id value then
      some { s with
        cache := s.cache.setLocked call.2 s.now kind id value
        uses := (cacheKey kind id, s.now) :: s.uses }
    else some s
  | .get kind id pause =>
    some { cache := (s.cache.get s.now pause kind id).1
           now := s.now + pause
           uses := if (s.answer kind id).isSome then (cacheKey kind id, s.now + pause) :: s.uses
             else s.uses }
  | .delete kind id => some { s with cache := s.cache.delete kind id }
  | .clear => some { s with cache := s.cache.clear }
  | .wait duration => some { s with now := s.now + duration }

end Kryndel.Discord
