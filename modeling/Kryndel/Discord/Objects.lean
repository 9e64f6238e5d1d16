import Kryndel.Discord.ObjectCache
import Kryndel.Systems.Keyed

/-!
# The objects that the gateway sends

A dispatch of the gateway is an object, and the objects in it that are cached are stored under
their kinds and IDs. What belongs to a guild by its ID is stored under the IDs of both; a channel
or a thread is stored under its own ID, and its guild is looked for in the object itself.

An ID is read in two ways: numbers are kept as they are written when a dispatch comes, and are
read as floating-point numbers when a guild is deleted.

## References

- `discord_cache.go`: `merge`, `deleteGuild`, `ingest`
-/

namespace Kryndel.Discord

/-! ## Objects -/

/-- A value, as it is decoded with `UseNumber`; numbers are as they are written. -/
inductive JsonValue where
  | null
  | bool (b : Bool)
  | num (text : String)
  | str (s : String)
  | arr (elements : List JsonValue)
  | obj (fields : List (String × JsonValue))

/-- An object, as a table. -/
abbrev JsonObject := List (String × JsonValue)

/-- The value of a key. -/
def fieldOf (object : JsonObject) (key : String) : Option JsonValue :=
  Keyed.find (· == ·) object key

/-- `object[key] = value` -/
def setField (object : JsonObject) (key : String) (value : JsonValue) : JsonObject :=
  Keyed.put (· == ·) object key value

mutual

/-- `mergeDiscordJSONObject`. The source ranges over an update in any order; here it is from the
    end. -/
def mergeFields (existing : JsonObject) : List (String × JsonValue) → JsonObject
  | [] => existing
  | field :: update => mergeField (mergeFields existing update) field

def mergeField (existing : JsonObject) : String × JsonValue → JsonObject
  | (key, value) => setField existing key (mergeValue (fieldOf existing key) value)

/-- Objects are merged, and other values replaced. -/
def mergeValue (existing : Option JsonValue) : JsonValue → JsonValue
  | .obj update =>
    match existing with
    | some (.obj fields) => .obj (mergeFields fields update)
    | _ => .obj update
  | value => value

end

/-! ## IDs -/

/-- The text of an ID, whether or not it is one. -/
def idText : Option JsonValue → String
  | some (.str s) => s
  | some (.num text) => text
  | _ => ""

/-- `discordJSONID`, of a value in a dispatch. -/
def idOf (value : Option JsonValue) : Option String :=
  if allDecimalID (idText value).toList then some (idText value) else none

/-- `discordJSONID`, of a value in the cache: a number is read as a floating-point number, and
    its text may change by that. -/
def storedID (floatText : String → Option String) : Option JsonValue → Option String
  | some (.str s) => if allDecimalID s.toList then some s else none
  | some (.num text) => floatText text
  | _ => none

/-- `compositeID`, if there are both IDs. -/
def compositeID (guild item : Option JsonValue) : Option (String × String) :=
  match idOf guild, idOf item with
  | some guildID, some itemID => some (guildID, guildID ++ ":" ++ itemID)
  | _, _ => none

/-- `value.(map[string]any)` -/
def asObject : Option JsonValue → Option JsonObject
  | some (.obj fields) => some fields
  | _ => none

/-- `value.([]any)`; nothing, if it is none. -/
def asArray : Option JsonValue → List JsonValue
  | some (.arr elements) => elements
  | _ => []

/-! ## Events -/

/-- Does an object become part of a guild by being saved, and of which one? The source does not
    keep this. -/
inductive Part where
  | untracked
  | ofGuild (guild : Option String)
deriving DecidableEq

/-- What an event does to the cache. -/
inductive CacheAction where
  | save (kind id : String) (item : JsonObject) (merge : Bool) (part : Part)
  | remove (kind id : String)
  | removeGuild (id : String)

/-- `saveObject` -/
def saveObject (kind : String) (value : Option JsonValue) (merge : Bool) (part : Part) :
    List CacheAction :=
  match asObject value with
  | none => []
  | some item =>
    match idOf (fieldOf item "id") with
    | none => []
    | some id => [.save kind id item merge part]

/-- The object of a member that is saved: it has the ID of its user, and a guild. -/
def memberItem (guild : Option JsonValue) (item : JsonObject) : Option JsonObject :=
  (asObject (fieldOf item "user")).map fun user =>
    let member := setField item "id" ((fieldOf user "id").getD .null)
    if (fieldOf member "guild_id").isSome then member
    else setField member "guild_id" (guild.getD .null)

/-- `saveComposite` -/
def saveComposite (kind : String) (guild value : Option JsonValue) (merge : Bool) :
    List CacheAction :=
  match (asObject value).bind fun item =>
      if kind = "member" then memberItem guild item else some item with
  | none => []
  | some item =>
    match compositeID guild (fieldOf item "id") with
    | none => []
    | some (guildID, id) => [.save kind id item merge (.ofGuild guildID)]

/-- `deleteObject` -/
def deleteObject (kind : String) (value : Option JsonValue) : List CacheAction :=
  match idOf value with
  | none => []
  | some id => [.remove kind id]

/-- The user of a member. -/
def userOf (member : Option JsonValue) : Option JsonValue :=
  (asObject member).bind fun fields => fieldOf fields "user"

/-- The tables of a guild, and the kinds of their elements. -/
def guildTables : List (String × String) :=
  [("channels", "channel"), ("threads", "thread"), ("roles", "role"), ("members", "member"),
    ("emojis", "emoji"), ("stickers", "sticker"), ("stage_instances", "stage_instance"),
    ("guild_scheduled_events", "scheduled_event")]

/-- What the creation of a guild does about an element of one of its tables. -/
def guildItem (guild : Option JsonValue) (kind : String) (item : JsonValue) : List CacheAction :=
  if kind = "member" then
    saveComposite kind guild (some item) false ++
      saveObject "user" (userOf (some item)) false .untracked
  else if kind = "channel" ∨ kind = "thread" then
    saveObject kind (some item) false (.ofGuild (idOf guild))
  else if kind = "stage_instance" ∨ kind = "scheduled_event" then
    saveObject kind (some item) false .untracked
  else saveComposite kind guild (some item) false

/-- A channel or a thread by itself. -/
def saveChannel (kind : String) (object : JsonObject) (merge : Bool) : List CacheAction :=
  saveObject kind (some (.obj object)) merge (.ofGuild (idOf (fieldOf object "guild_id")))

/-- A dispatch about a member. -/
def saveMember (object : JsonObject) (merge : Bool) : List CacheAction :=
  if (asObject (fieldOf object "user")).isSome then
    saveComposite "member" (fieldOf object "guild_id") (some (.obj object)) merge ++
      saveObject "user" (fieldOf object "user") merge .untracked
  else []

/-- A dispatch about the voice state of a user, who may have left. -/
def saveVoiceState (object : JsonObject) : List CacheAction :=
  match compositeID (fieldOf object "guild_id") (fieldOf object "user_id") with
  | none => []
  | some (guildID, id) =>
    if idText (fieldOf object "channel_id") = "" then [.remove "voice_state" id]
    else [.save "voice_state" id object false (.ofGuild guildID)]

/-- The events of `ingest`, and what they do. -/
def actions (event : String) (object : JsonObject) : List CacheAction :=
  match event with
  | "READY" => saveObject "user" (fieldOf object "user") false .untracked
  | "GUILD_CREATE" =>
    saveObject "guild" (some (.obj object)) false .untracked ++
      guildTables.flatMap fun table =>
        (asArray (fieldOf object table.1)).flatMap (guildItem (fieldOf object "id") table.2)
  | "GUILD_UPDATE" => saveObject "guild" (some (.obj object)) true .untracked
  | "GUILD_DELETE" =>
    match fieldOf object "unavailable" with
    | some (.bool true) => []
    | _ => (idOf (fieldOf object "id")).toList.map .removeGuild
  | "CHANNEL_CREATE" => saveChannel "channel" object false
  | "CHANNEL_UPDATE" => saveChannel "channel" object true
  | "CHANNEL_DELETE" => deleteObject "channel" (fieldOf object "id")
  | "THREAD_CREATE" => saveChannel "thread" object false
  | "THREAD_UPDATE" => saveChannel "thread" object true
  | "THREAD_DELETE" => deleteObject "thread" (fieldOf object "id")
  | "MESSAGE_CREATE" => saveObject "message" (some (.obj object)) false .untracked
  | "MESSAGE_UPDATE" => saveObject "message" (some (.obj object)) true .untracked
  | "MESSAGE_DELETE" => deleteObject "message" (fieldOf object "id")
  | "MESSAGE_DELETE_BULK" =>
    (asArray (fieldOf object "ids")).flatMap fun id => deleteObject "message" (some id)
  | "GUILD_MEMBER_ADD" => saveMember object false
  | "GUILD_MEMBER_UPDATE" => saveMember object true
  | "GUILD_MEMBERS_CHUNK" =>
    match idOf (fieldOf object "guild_id") with
    | none => []
    | some guildID =>
      (asArray (fieldOf object "members")).flatMap fun member =>
        saveComposite "member" (some (.str guildID)) (some member) false ++
          saveObject "user" (userOf (some member)) false .untracked
  | "GUILD_MEMBER_REMOVE" =>
    match (asObject (fieldOf object "user")).bind fun user =>
        compositeID (fieldOf object "guild_id") (fieldOf user "id") with
    | none => []
    | some (_, id) => [.remove "member" id]
  | "USER_UPDATE" => saveObject "user" (some (.obj object)) true .untracked
  | "VOICE_STATE_UPDATE" => saveVoiceState object
  | "GUILD_ROLE_CREATE" =>
    saveComposite "role" (fieldOf object "guild_id") (fieldOf object "role") false
  | "GUILD_ROLE_UPDATE" =>
    saveComposite "role" (fieldOf object "guild_id") (fieldOf object "role") true
  | "GUILD_ROLE_DELETE" =>
    match compositeID (fieldOf object "guild_id") (fieldOf object "role_id") with
    | none => []
    | some (_, id) => [.remove "role" id]
  | _ => []

end Kryndel.Discord
