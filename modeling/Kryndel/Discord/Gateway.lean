import Kryndel.Systems.Run
import Mathlib.Algebra.BigOperators.Group.List.Basic
import Mathlib.Algebra.Ring.Nat
import Mathlib.Data.List.Nodup
import Mathlib.Data.Rat.Defs

/-!
# Member queries of the Discord gateway

A member request that is accepted waits for its chunks under a nonce. The chunks come in any
order. When all are there the members are joined in the order of the chunk indexes; a request
whose chunks do not fit together, that is rate limited, or that is too old ends in a failure,
which is kept until it is taken.

Every request that is accepted has a number here that the source does not have, and what has
been answered is kept beside the state. The order in which the source ranges over its tables
decides the order of failures only; here it is the order of the lists.

## References

- `discord_gateway.go`
-/

namespace Kryndel.Discord

/-! ## State -/

def memberChunkRequestTTL : Int := 10 * 60 * 1000000000

def fullMemberRequestInterval : Int := 30 * 1000000000

def gatewayEventWindow : Int := 60 * 1000000000

def gatewayEventLimit : Nat := 110

def memberChunkPendingLimit : Nat := 64

def memberChunkAggregateLimit : Nat := 32 * 1024 * 1024

/-- `discordMemberChunkPart` -/
structure ChunkPart where
  members : List String
  notFound : List String
  presences : List String
  bytes : Nat

/-- `discordMemberChunkRequest`, with its number. -/
structure ChunkRequest where
  number : Nat
  guildID : String
  chunkCount : Nat := 0
  chunks : List (Nat × ChunkPart) := []
  bytes : Nat := 0
  createdAt : Int

/-- `discordGatewayMemberQueryFailure`. Encoding one cannot fail. -/
structure QueryFailure where
  guildID : String
  nonce : String
  reason : String
  retryAfter : Option Rat := none

/-- `discordGatewayMemberQueryResult` -/
structure QueryResult where
  guildID : String
  nonce : String
  members : List String
  notFound : List String
  presences : List String

/-- `discordGatewayState`; the failures come with the numbers of their requests. A runtime
    that has none yet behaves as it does with this one. -/
structure GatewayState where
  socket : Option Nat := none
  intents : Int := 0
  chunks : List (String × ChunkRequest) := []
  chunkBytes : Nat := 0
  fullListAt : List (String × Int) := []
  outboundEvents : List Int := []
  failures : List (Nat × QueryFailure) := []

namespace GatewayState

/-- `removeDiscordMemberChunkRequestLocked`. The accounted bytes do not go below zero. -/
def removeRequest (state : GatewayState) (nonce : String) : GatewayState :=
  match state.chunks.lookup nonce with
  | none => state
  | some request =>
      { state with
        chunkBytes := state.chunkBytes - request.bytes
        chunks := state.chunks.filter (·.1 != nonce) }

/-- A request ends in a failure. -/
def failRequest (state : GatewayState) (nonce : String) (request : ChunkRequest) (reason : String)
    (retryAfter : Option Rat) : GatewayState :=
  let state : GatewayState := { state with
    failures := state.failures ++
      [(request.number, { guildID := request.guildID, nonce, reason, retryAfter })] }
  state.removeRequest nonce

/-- Is a request too old? -/
def isExpired (now : Int) (request : ChunkRequest) : Bool :=
  now - request.createdAt > memberChunkRequestTTL

/-- `expireDiscordMemberChunkRequestsLocked` -/
def expire (state : GatewayState) (now : Int) : GatewayState :=
  (state.chunks.filter fun entry => isExpired now entry.2).foldl
    (fun state entry => state.failRequest entry.1 entry.2 "timeout" none) state

end GatewayState

/-! ## Chunks -/

/-- `validDiscordSnowflakeString` -/
def validSnowflake (value : String) : Bool :=
  let cs := value.toList
  !(cs.isEmpty || cs.length > 20 || (cs.length > 1 && cs.head? == some '0')) &&
    cs.all (fun c => '0' ≤ c && c ≤ '9') &&
    cs.foldl (fun n c => 10 * n + (c.toNat - '0'.toNat)) 0 < 2 ^ 64

/-- `discordGatewayMemberChunkEvent` -/
structure ChunkEvent where
  guildID : String
  nonce : String
  chunkIndex : Option Int
  chunkCount : Option Int
  members : List String
  notFound : List String
  presences : List String

/-- The index and the number of the chunks, if they are valid. -/
def ChunkEvent.metadata (event : ChunkEvent) : Option (Nat × Nat) :=
  match event.chunkIndex, event.chunkCount with
  | some index, some count =>
      if !validSnowflake event.guildID || count < 1 || count > 4096 || index < 0 ||
          index ≥ count then none
      else some (index.toNat, count.toNat)
  | _, _ => none

def ChunkEvent.values (event : ChunkEvent) : List String :=
  event.members ++ event.notFound ++ event.presences

def ChunkEvent.part (event : ChunkEvent) : ChunkPart where
  members := event.members
  notFound := event.notFound
  presences := event.presences
  bytes := (event.values.map (·.utf8ByteSize)).sum + 64

/-- `json.Valid` and `json.Marshal`, of a request and of a result. -/
structure Json (Request : Type) where
  valid : String → Bool
  requestSize : Request → Nat
  encodeResult : QueryResult → Option String

/-- What the handler of chunks does: the chunk that it stores, and the request that it answers,
    are those of the numbered requests. -/
structure ChunkOutcome where
  state : GatewayState
  reply : Except String String
  stored : Option (Nat × Nat × ChunkPart) := none
  answered : Option (Nat × QueryResult) := none

/-- The parts of a request in the order of their indexes, if all are there. -/
def ChunkRequest.parts (request : ChunkRequest) : Option (List ChunkPart) :=
  (List.range request.chunkCount).mapM fun index => request.chunks.lookup index

/-- The result of some parts. -/
def ChunkRequest.result (request : ChunkRequest) (nonce : String) (parts : List ChunkPart) :
    QueryResult where
  guildID := request.guildID
  nonce := nonce
  members := parts.flatMap (·.members)
  notFound := parts.flatMap (·.notFound)
  presences := parts.flatMap (·.presences)

/-- A request with one more chunk. -/
def ChunkRequest.store (request : ChunkRequest) (index count : Nat) (part : ChunkPart) :
    ChunkRequest :=
  { request with
    chunkCount := count
    chunks := request.chunks ++ [(index, part)]
    bytes := request.bytes + part.bytes }

section Handlers

variable {Request : Type} (json : Json Request)

/-- The end of `discordGatewayMemberChunkResult`, for a request that has all its chunks. -/
def completeRequest (state : GatewayState) (nonce : String) (request : ChunkRequest)
    (parts : List ChunkPart) : ChunkOutcome :=
  let result := request.result nonce parts
  let removed := state.removeRequest nonce
  let failed (reason message : String) : ChunkOutcome :=
    { state := { removed with
        failures := removed.failures ++
          [(request.number, { guildID := result.guildID, nonce := result.nonce, reason })] }
      reply := .error message }
  match json.encodeResult result with
  | none => failed "result_encoding_failed" "could not encode completed Discord member query"
  | some encoded =>
      if encoded.utf8ByteSize > memberChunkAggregateLimit then
        failed "aggregate_limit_exceeded"
          "completed Discord member query exceeds the 32 MiB aggregation limit"
      else { state := removed, reply := .ok encoded, answered := some (request.number, result) }

/-- `discordGatewayMemberChunkResult`, from where the request is looked up. -/
def storeChunk (state : GatewayState) (event : ChunkEvent) (index count : Nat) : ChunkOutcome :=
  match state.chunks.lookup event.nonce with
  | none => { state, reply := .ok "" }
  | some request =>
      if request.guildID ≠ event.guildID ∨ (request.chunkCount ≠ 0 ∧ request.chunkCount ≠ count) then
        { state := state.failRequest event.nonce request "chunk_metadata_mismatch" none
          reply := .error "Discord member chunks do not match their request" }
      else if (request.chunks.lookup index).isSome then { state, reply := .ok "" }
      else if request.bytes + event.part.bytes > memberChunkAggregateLimit ∨
          state.chunkBytes + event.part.bytes > memberChunkAggregateLimit then
        { state := state.failRequest event.nonce request "aggregate_limit_exceeded" none
          reply := .error "Discord member query exceeds the 32 MiB aggregation limit" }
      else
        let updated := request.store index count event.part
        let state' : GatewayState := { state with
          chunks := (event.nonce, updated) :: state.chunks.filter (·.1 != event.nonce)
          chunkBytes := state.chunkBytes + event.part.bytes }
        let stored := some (request.number, index, event.part)
        if updated.chunks.length ≠ count then { state := state', reply := .ok "", stored }
        else
          match updated.parts with
          | none => { state := state', reply := .ok "", stored }
          | some parts => { completeRequest json state' event.nonce updated parts with stored }

/-- `discordGatewayMemberChunkResult` -/
def memberChunkResult (state : GatewayState) (payload : Option ChunkEvent) (now : Int) :
    ChunkOutcome :=
  match payload with
  | none => { state, reply := .ok "" }
  | some event =>
      if event.nonce = "" then { state, reply := .ok "" }
      else
        match event.metadata with
        | none => { state, reply := .error "Discord member chunk metadata is invalid" }
        | some (index, count) =>
            if !event.values.all json.valid then
              { state, reply := .error "Discord member chunk contains invalid JSON" }
            else storeChunk json (state.expire now) event index count

end Handlers

/-! ## Other handlers -/

/-- `discordGatewayRateLimitEvent` -/
structure RateLimitEvent where
  opcode : Int
  retryAfter : Option Rat
  guildID : String
  nonce : String

/-- `discordGatewayRateLimitResult` -/
def rateLimitResult (state : GatewayState) (payload : Option RateLimitEvent) (now : Int) :
    GatewayState × Except String String :=
  match payload with
  | none => (state, .ok "")
  | some event =>
      if event.opcode ≠ 8 ∨ event.nonce = "" then (state, .ok "")
      else if !validSnowflake event.guildID || event.retryAfter.all (· < 0) then
        (state, .error "Discord member-query rate-limit event is invalid")
      else
        let state := state.expire now
        match state.chunks.lookup event.nonce with
        | none => (state, .ok "")
        | some request =>
            if request.guildID ≠ event.guildID then (state, .ok "")
            else (state.failRequest event.nonce request "rate_limited" event.retryAfter, .ok "")

/-- `discordGatewayTakeMemberQueryFailures` -/
def takeMemberQueryFailures (state : GatewayState) (now : Int) :
    GatewayState × List (Nat × QueryFailure) :=
  let state := state.expire now
  ({ state with failures := [] }, state.failures)

/-- `discordGatewayBindSession` -/
def bindSession (closed : Nat → Bool) (state : GatewayState) (socket : Nat) (intents now : Int) :
    GatewayState × Except String Unit :=
  if closed socket then
    (state, .error "Discord Gateway session requires an open WebSocket")
  else if intents < 0 then (state, .error "Discord Gateway intent mask is invalid")
  else if state.socket.any fun active => !closed active then
    (state, .error "a Discord Gateway session is already active in this runtime")
  else
    ({ state with
       socket := some socket, intents := intents, chunks := [], chunkBytes := 0
       outboundEvents := [now], failures := [] }, .ok ())

/-- `discordGatewayUnbindSession` -/
def unbindSession (state : GatewayState) : GatewayState × List (Nat × QueryFailure) :=
  ({ state with
     socket := none, intents := 0, chunks := [], chunkBytes := 0, outboundEvents := []
     failures := [] },
    state.failures ++ state.chunks.map fun entry =>
      (entry.2.number,
        { guildID := entry.2.guildID, nonce := entry.1, reason := "session_ended" }))

/-! ## Requests -/

/-- The arguments of `discordGatewayRequestMembers`. -/
structure MemberRequest where
  guildID : String
  query : String
  limit : Int
  userIDs : List String
  presences : Bool
  nonce : String
  allMembers : Bool

/-- What is wrong with the arguments, if anything is. Texts are valid UTF-8 here. -/
def MemberRequest.error (args : MemberRequest) : Option String :=
  if !validSnowflake args.guildID then some "guild_id must be a valid Discord snowflake"
  else if args.allMembers then
    if args.query ≠ "" ∨ args.userIDs.length ≠ 0 ∨ args.limit ≠ 0 then
      some "requesting all guild members requires an empty query, no user IDs, and limit 0"
    else none
  else if args.userIDs.length ≠ 0 then
    if args.query ≠ "" ∨ args.userIDs.length > 100 then
      some "member ID requests require an empty query and between 1 and 100 user IDs"
    else if !args.userIDs.all validSnowflake then
      some "user_ids must contain valid Discord snowflakes"
    else if !decide args.userIDs.Nodup then some "user_ids must be unique"
    else none
  else if args.query = "" ∨ args.limit < 1 ∨ args.limit > 100 then
    some "member prefix requests require a non-empty query and a limit from 1 to 100"
  else none

/-- The arguments that are sent: a request for some members asks for at most a hundred. -/
def MemberRequest.sent (args : MemberRequest) (nonce : String) : MemberRequest :=
  { args with
    nonce
    limit := if !args.allMembers && args.userIDs.length ≠ 0 then 100 else args.limit }

/-- `validDiscordMemberChunkNonce` -/
def validNonce (nonce : String) : Bool :=
  nonce ≠ "" && nonce.utf8ByteSize ≤ 32 && !nonce.toList.contains '\x00'

/-- The events of the last window. -/
def activeEvents (events : List Int) (now : Int) : List Int :=
  events.filter fun sentAt => now - sentAt < gatewayEventWindow

/-- Is a bit of the intent mask missing? -/
def lacksIntent (intents : Int) (bit : Nat) : Bool := intents.toNat / 2 ^ bit % 2 == 0

/-- `discordGatewayRequestMembers`, from where the state is locked. The request is given a
    number; it is accepted if the socket can send it. -/
def sendRequest (closed : Nat → Bool) (state : GatewayState) (args : MemberRequest)
    (nonce : String) (number : Nat) (now : Int) (sent : Option String) :
    GatewayState × Except String String :=
  let state := state.expire now
  if state.socket.all closed then
    (state, .error "Discord member requests are only available during Bot.run Gateway callbacks")
  else if args.allMembers && lacksIntent state.intents 1 then
    (state, .error "requesting all guild members requires the GuildMembers intent")
  else if args.presences && lacksIntent state.intents 8 then
    (state, .error "requesting member presences requires the GuildPresences intent")
  else
    let state := { state with
      fullListAt := state.fullListAt.filter fun entry => now - entry.2 < fullMemberRequestInterval }
    if args.allMembers && (state.fullListAt.lookup args.guildID).isSome then
      (state, .error "a full member-list request was sent for this guild within the last 30 seconds")
    else
      let state := { state with outboundEvents := activeEvents state.outboundEvents now }
      if state.outboundEvents.length ≥ gatewayEventLimit then
        (state,
          .error "Discord Gateway outgoing event limit reached; retry after the current 60-second window")
      else if (state.chunks.lookup nonce).isSome then
        (state, .error "a Discord member request with this nonce is already pending")
      else if state.chunks.length ≥ memberChunkPendingLimit then
        (state, .error "too many Discord member requests are pending")
      else
        let state := { state with
          chunks := state.chunks ++ [(nonce, { number, guildID := args.guildID, createdAt := now })]
          outboundEvents := state.outboundEvents ++ [now]
          fullListAt :=
            if args.allMembers then
              (args.guildID, now) :: state.fullListAt.filter (·.1 != args.guildID)
            else state.fullListAt }
        match sent with
        | some error =>
            (state.removeRequest nonce, .error ("Discord Gateway member request failed: " ++ error))
        | none => (state, .ok nonce)

/-- `discordGatewayRequestMembers`, with the nonce that is generated where none is given, and
    the error of the socket, if it has one. -/
def requestMembers (json : Json MemberRequest) (maxSourceBytes : Nat) (closed : Nat → Bool)
    (state : GatewayState) (args : MemberRequest) (generated : Option String) (number : Nat)
    (now : Int) (sent : Option String) : GatewayState × Except String String :=
  match args.error with
  | some message => (state, .error message)
  | none =>
      if args.nonce ≠ "" ∧ !validNonce args.nonce then
        (state, .error "Discord Gateway member request nonce must not exceed 32 bytes")
      else
        match if args.nonce = "" then generated else some args.nonce with
        | none => (state, .error "could not generate a Discord Gateway member request nonce")
        | some nonce =>
            if json.requestSize (args.sent nonce) > maxSourceBytes then
              (state, .error "Discord Gateway member request exceeds configured input limit")
            else sendRequest closed state args nonce number now sent

/-- The part of `discordGatewaySend` that concerns the state. -/
def gatewaySend (closed : Nat → Bool) (state : GatewayState) (now : Int) : GatewayState :=
  if state.socket.all closed then state
  else
    let active := activeEvents state.outboundEvents now
    if active.length ≥ gatewayEventLimit then { state with outboundEvents := active }
    else { state with outboundEvents := active ++ [now] }

end Kryndel.Discord
