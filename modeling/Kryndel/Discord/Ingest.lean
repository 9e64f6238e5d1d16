import Kryndel.Discord.Objects

/-!
# Events and the guilds they are about

An event is a list of actions on the cache. Beside the cache stands which of its objects have
become part of which guild, and which of them should be gone because their guild has been
deleted, until it is created again.

## References

- `discord_cache.go`: `merge`, `deleteGuild`, `ingest`
-/

namespace Kryndel.Discord

/-! ## Deleting a guild -/

/-- `strings.Cut(key, ":")` -/
def cut (key : String) : Option (String × String) :=
  if key.toList.contains ':' then
    some (String.ofList (key.toList.takeWhile (· != ':')),
      String.ofList (key.toList.dropWhile (· != ':')).tail)
  else none

/-- The kinds of what is stored under the ID of a guild and one of its own. -/
def compositeKinds : List String := ["member", "role", "emoji", "sticker", "voice_state"]

namespace ObjectCache

/-- An entry whose object has the ID of a guild. -/
def hasGuild (floatText : String → Option String) (guildID : String)
    (entry : String × CacheEntry JsonObject) : Bool :=
  storedID floatText (fieldOf entry.2.value "guild_id") == some guildID

/-- `channelIDs` -/
def guildChannels (floatText : String → Option String) (cache : ObjectCache JsonObject)
    (guildID : String) : List String :=
  cache.entries.filterMap fun entry => (cut entry.1).bind fun (kind, id) =>
    if (kind = "channel" ∨ kind = "thread") ∧ hasGuild floatText guildID entry then some id
    else none

/-- Does `deleteGuild` delete an entry? -/
def ofGuild (floatText : String → Option String) (channelIDs : List String) (guildID : String)
    (entry : String × CacheEntry JsonObject) : Bool :=
  (cut entry.1).elim false fun (kind, id) =>
    (kind == "guild" && id == guildID) ||
      (compositeKinds.contains kind && (guildID ++ ":").toList.isPrefixOf id.toList) ||
        hasGuild floatText guildID entry ||
          (kind == "message" && (storedID floatText (fieldOf entry.2.value "channel_id")).any
            channelIDs.contains)

/-- `deleteGuild` -/
def deleteGuild (floatText : String → Option String) (cache : ObjectCache JsonObject)
    (guildID : String) : ObjectCache JsonObject :=
  cache.drop (ofGuild floatText (cache.guildChannels floatText guildID) guildID)

/-- The entry that an update is merged into, if it is there and not too old. -/
def live {V : Type} (cache : ObjectCache V) (now : Nat) (key : String) : Option (CacheEntry V) :=
  (cache.entries.lookup key).filter fun entry => !cache.expired now entry

end ObjectCache

/-! ## Actions -/

/-- What an encoding and a reading of numbers do: `len` of `json.Marshal`, and the text that
    `discordJSONID` makes of a number that is read as a floating-point number. -/
structure JsonCodec where
  size : JsonObject → Nat
  floatText : String → Option String

/-- What is around an action: how long after the last one it begins, how long `merge` takes
    between its two readings of the clock, and the order of the table. -/
structure ActionTiming where
  wait : Nat := 0
  pause : Nat := 0
  order : RangeOrder JsonObject

/-- An object that is stored has at most 1 MiB. -/
def maxObject : Nat := 2 ^ 20

/-- An action, at some time, with the error that it gives. -/
def ObjectCache.perform (codec : JsonCodec) (cache : ObjectCache JsonObject) (now : Nat)
    (timing : ActionTiming) : CacheAction → ObjectCache JsonObject × Option String
  | .save kind id item merge _ =>
    if codec.size item > maxObject then
      (cache.delete kind id, some "Discord cache object exceeds 1 MiB")
    else if merge then
      let update := (cache.live now (cacheKey kind id)).elim item fun previous =>
        mergeFields previous.value item
      if codec.size update > maxObject then
        (cache.delete kind id, some "merged Discord cache object exceeds 1 MiB")
      else (cache.setLocked timing.order (now + timing.pause) kind id update, none)
    else (cache.setLocked timing.order now kind id item, none)
  | .remove kind id => (cache.delete kind id, none)
  | .removeGuild id => (cache.deleteGuild codec.floatText id, none)

/-! ## Runs -/

/-- Where an object belongs. -/
inductive Belongs where
  | nowhere
  | to (guild : String)
  /-- Its guild has been deleted. -/
  | removedWith (guild : String)
deriving DecidableEq

/-- A cache, the time, and where the objects under its keys belong. -/
structure GuildRun where
  cache : ObjectCache JsonObject
  now : Nat := 0
  belongs : String → Belongs := fun _ => .nowhere

/-- What happens to a cache. -/
inductive GuildMove where
  /-- An event, or the error of a payload that is no object. -/
  | event (name : String) (payload : Except String JsonObject) (timings : List ActionTiming)
  | read (kind id : String) (pause : Nat)
  | wait (duration : Nat)

namespace GuildRun

/-- Where an object belongs that is saved: an update does not bring back what should be gone, and
    leaves an object in its guild, if it says nothing of one. -/
def joined (old : Belongs) (isLive merge : Bool) : Part → Belongs
  | .untracked => .nowhere
  | .ofGuild guild =>
    let fresh := guild.elim .nowhere .to
    if merge && isLive then
      match old with
      | .removedWith gone => .removedWith gone
      | old => guild.elim old .to
    else fresh

/-- The objects of a guild should be gone. -/
def remove (guild : String) (old : Belongs) : Belongs :=
  if old = .to guild then .removedWith guild else old

/-- A guild is created again. -/
def create (guild : Option String) (old : Belongs) : Belongs :=
  if guild.any fun guild => old = .removedWith guild then .nowhere else old

/-- An action is performed. -/
def act (codec : JsonCodec) (s : GuildRun) (timing : ActionTiming) (action : CacheAction) :
    GuildRun where
  cache := (s.cache.perform codec (s.now + timing.wait) timing action).1
  now := s.now + timing.wait + timing.pause
  belongs :=
    match action with
    | .save kind id _ merge part =>
      Function.update s.belongs (cacheKey kind id) (joined (s.belongs (cacheKey kind id))
        (s.cache.live (s.now + timing.wait) (cacheKey kind id)).isSome merge part)
    | .remove _ _ => s.belongs
    | .removeGuild guild => fun key => remove guild (s.belongs key)

/-- An event is handled. -/
def handle (codec : JsonCodec) (s : GuildRun) (name : String) (object : JsonObject)
    (timings : List ActionTiming) : GuildRun :=
  let s := if name = "GUILD_CREATE" then
      { s with belongs := fun key => create (idOf (fieldOf object "id")) (s.belongs key) }
    else s
  ((actions name object).zip timings).foldl (fun s entry => s.act codec entry.2 entry.1) s

/-- A move is made. Each action of an event has its timing. -/
def step (codec : JsonCodec) (s : GuildRun) : GuildMove → Option GuildRun
  | .event _ (.error _) _ => some s
  | .event name (.ok object) timings =>
    if timings.length = (actions name object).length then some (s.handle codec name object timings)
    else none
  | .read kind id pause =>
    some { s with cache := (s.cache.get s.now pause kind id).1, now := s.now + pause }
  | .wait duration => some { s with now := s.now + duration }

end GuildRun

end Kryndel.Discord
