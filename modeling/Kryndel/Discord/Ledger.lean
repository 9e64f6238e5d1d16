import Kryndel.Discord.Gateway
import Kryndel.Systems.Assoc

/-!
# The ledger of member queries

Every request that is accepted is in one place at any time: it is pending, or it has a
failure that waits to be taken, or it has been answered. A handler moves requests from one
place to the next. Only binding a socket, where the last session was not unbound, forgets
pending requests and failures.
-/

namespace Kryndel.Discord

open List

/-! ## Pending requests -/

/-- The numbers of the requests that are pending. -/
def GatewayState.pending (state : GatewayState) : List Nat := state.chunks.map (·.2.number)

/-- The numbers of the requests with a failure. -/
def GatewayState.failed (state : GatewayState) : List Nat := state.failures.map (·.1)

/-- A request holds the chunks that were received for it. -/
structure ChunkRequest.Holds (request : ChunkRequest) (received : List (Nat × ChunkPart)) :
    Prop where
  received : request.chunks = received
  distinct : (request.chunks.map (·.1)).Nodup
  inBounds : ∀ entry ∈ request.chunks, entry.1 < request.chunkCount
  bytes : request.bytes = (request.chunks.map (·.2.bytes)).sum

/-- A request waits for more chunks. -/
def ChunkRequest.Waiting (request : ChunkRequest) : Prop :=
  request.chunks.length < request.chunkCount ∨ request.chunks = []

/-- What holds of a pending request. -/
structure ChunkRequest.Valid (request : ChunkRequest) (received : List (Nat × ChunkPart)) :
    Prop where
  holds : request.Holds received
  waiting : request.Waiting

/-- What holds of the pending requests and the accounted bytes. -/
structure GatewayState.Valid (state : GatewayState)
    (received : Nat → List (Nat × ChunkPart)) : Prop where
  distinct : (state.chunks.map (·.1)).Nodup
  numbers : state.pending.Nodup
  requests : ∀ entry ∈ state.chunks, entry.2.Valid (received entry.2.number)
  bytes : state.chunkBytes = (state.chunks.map (·.2.bytes)).sum
  bound : state.chunkBytes ≤ memberChunkAggregateLimit

section Pending

variable {state : GatewayState} {received : Nat → List (Nat × ChunkPart)} {nonce : String}
  {request : ChunkRequest}

variable {state' : GatewayState}

theorem GatewayState.Valid.congr (h : state.Valid received) (hchunks : state'.chunks = state.chunks)
    (hbytes : state'.chunkBytes = state.chunkBytes) :
    state'.Valid received where
  distinct := by rw [hchunks]; exact h.distinct
  numbers := by rw [GatewayState.pending, hchunks]; exact h.numbers
  requests := by rw [hchunks]; exact h.requests
  bytes := by rw [hchunks, hbytes]; exact h.bytes
  bound := by rw [hbytes]; exact h.bound

theorem removeRequest_of_lookup (h : state.chunks.lookup nonce = some request) :
    state.removeRequest nonce = { state with
      chunkBytes := state.chunkBytes - request.bytes
      chunks := state.chunks.filter (·.1 != nonce) } := by
  rw [GatewayState.removeRequest, h]

theorem GatewayState.Valid.perm (h : state.Valid received)
    (hlookup : state.chunks.lookup nonce = some request) :
    state.chunks.Perm ((nonce, request) :: state.chunks.filter (·.1 != nonce)) :=
  Assoc.perm_of_lookup h.distinct hlookup

theorem GatewayState.Valid.bytes_removed (h : state.Valid received)
    (hlookup : state.chunks.lookup nonce = some request) :
    state.chunkBytes =
      request.bytes + ((state.chunks.filter (·.1 != nonce)).map (·.2.bytes)).sum := by
  rw [h.bytes, ((h.perm hlookup).map _).sum_eq, map_cons, sum_cons]

theorem GatewayState.Valid.filter (h : state.Valid received) (keep : String × ChunkRequest → Bool)
    (hchunks : state'.chunks = state.chunks.filter keep)
    (hbytes : state'.chunkBytes = ((state.chunks.filter keep).map (·.2.bytes)).sum)
    (hbound : state'.chunkBytes ≤ state.chunkBytes) : state'.Valid received where
  distinct := by
    rw [hchunks]
    exact h.distinct.sublist (filter_sublist.map _)
  numbers := by
    rw [GatewayState.pending, hchunks]
    exact h.numbers.sublist (filter_sublist.map _)
  requests := by
    rw [hchunks]
    intro entry hentry
    exact h.requests entry (mem_of_mem_filter hentry)
  bytes := by rw [hchunks, hbytes]
  bound := hbound.trans h.bound

theorem GatewayState.Valid.removeRequest (h : state.Valid received)
    (hlookup : state.chunks.lookup nonce = some request) :
    (state.removeRequest nonce).Valid received := by
  have hbytes := h.bytes_removed hlookup
  rw [removeRequest_of_lookup hlookup]
  refine h.filter (·.1 != nonce) rfl ?_ (Nat.sub_le _ _)
  show state.chunkBytes - request.bytes = _
  omega

/-- The numbers that a state holds. -/
def GatewayState.held (state : GatewayState) : List Nat := state.pending ++ state.failed

theorem GatewayState.Valid.held_removeRequest (h : state.Valid received)
    (hlookup : state.chunks.lookup nonce = some request) :
    state.held.Perm (request.number :: (state.removeRequest nonce).held) := by
  have hpending := (h.perm hlookup).map (·.2.number)
  rw [removeRequest_of_lookup hlookup]
  exact hpending.append_right state.failed

theorem failRequest_spec (h : state.Valid received)
    (hlookup : state.chunks.lookup nonce = some request) (reason : String)
    (retryAfter : Option Rat) :
    (state.failRequest nonce request reason retryAfter).Valid received ∧
      state.held.Perm (state.failRequest nonce request reason retryAfter).held ∧
      (state.failRequest nonce request reason retryAfter).chunks =
        state.chunks.filter (·.1 != nonce) := by
  have hremoved := h.removeRequest hlookup
  have hheld := h.held_removeRequest hlookup
  have hequal : state.failRequest nonce request reason retryAfter =
      { state.removeRequest nonce with
        failures := state.failures ++
          [(request.number, { guildID := request.guildID, nonce, reason, retryAfter })] } := by
    rw [GatewayState.failRequest, removeRequest_of_lookup hlookup, GatewayState.removeRequest,
      hlookup]
  rw [hequal]
  refine ⟨hremoved.congr rfl rfl, ?_, by rw [removeRequest_of_lookup hlookup]⟩
  have hfailed : (state.removeRequest nonce).failed = state.failed := by
    rw [removeRequest_of_lookup hlookup]
    rfl
  refine hheld.trans ?_
  rw [GatewayState.held, hfailed, GatewayState.held]
  simp only [GatewayState.failed, map_append, map_cons, map_nil]
  rw [← append_assoc, ← singleton_append]
  exact perm_append_comm

end Pending

/-! ## Expiry -/

section Expiry

variable {received : Nat → List (Nat × ChunkPart)}

theorem failRequests_spec {state : GatewayState} (h : state.Valid received)
    (entries : List (String × ChunkRequest)) (hkeys : (entries.map (·.1)).Nodup)
    (hsubset : ∀ entry ∈ entries, entry ∈ state.chunks) (reason : String) :
    (entries.foldl (fun state entry => state.failRequest entry.1 entry.2 reason none)
      state).Valid received ∧
    state.held.Perm (entries.foldl (fun state entry =>
      state.failRequest entry.1 entry.2 reason none) state).held ∧
    (entries.foldl (fun state entry => state.failRequest entry.1 entry.2 reason none)
      state).chunks = state.chunks.filter fun entry => !(entries.map (·.1)).contains entry.1 := by
  induction entries generalizing state with
  | nil => exact ⟨h, List.Perm.refl _, by simp⟩
  | cons entry entries ih =>
    obtain ⟨nonce, request⟩ := entry
    rw [map_cons, nodup_cons] at hkeys
    have hlookup : state.chunks.lookup nonce = some request :=
      (Assoc.lookup_eq_some_iff_mem h.distinct).mpr (hsubset _ mem_cons_self)
    obtain ⟨hvalid, hheld, hchunks⟩ := failRequest_spec h hlookup reason none
    have hsubset' : ∀ entry ∈ entries, entry ∈ (state.failRequest nonce request reason none).chunks := by
      intro entry hentry
      rw [hchunks, mem_filter]
      refine ⟨hsubset entry (mem_cons_of_mem _ hentry), ?_⟩
      rw [bne_iff_ne]
      intro heq
      exact hkeys.1 (mem_map.mpr ⟨entry, hentry, heq⟩)
    obtain ⟨hvalid', hheld', hchunks'⟩ := ih hvalid hkeys.2 hsubset'
    refine ⟨hvalid', hheld.trans hheld', ?_⟩
    rw [foldl_cons, hchunks', hchunks, filter_filter]
    congr
    funext entry
    rw [map_cons, contains_cons, Bool.not_or, Bool.and_comm]
    rfl

theorem expire_spec {state : GatewayState} (h : state.Valid received) (now : Int) :
    (state.expire now).Valid received ∧ state.held.Perm (state.expire now).held ∧
      (state.expire now).chunks =
        state.chunks.filter fun entry => !GatewayState.isExpired now entry.2 := by
  have hkeys : ((state.chunks.filter fun entry =>
      GatewayState.isExpired now entry.2).map (·.1)).Nodup :=
    h.distinct.sublist (filter_sublist.map _)
  obtain ⟨hvalid, hheld, hchunks⟩ := failRequests_spec h _ hkeys
    (fun entry hentry => mem_of_mem_filter hentry) "timeout"
  refine ⟨hvalid, hheld, ?_⟩
  rw [GatewayState.expire, hchunks]
  apply filter_congr
  intro entry hentry
  congr 1
  rw [Bool.eq_iff_iff, contains_iff_mem, mem_map]
  constructor
  · rintro ⟨other, hother, heq⟩
    obtain ⟨hmem, hexpired⟩ := mem_filter.mp hother
    rw [inj_on_of_nodup_map h.distinct hentry hmem heq.symm]
    exact hexpired
  · intro hexpired
    exact ⟨entry, mem_filter.mpr ⟨hentry, hexpired⟩, rfl⟩

end Expiry

/-! ## Chunks -/

/-- A result of the chunks that were received, each once, in the order of their indexes. -/
def ResultOf (received : List (Nat × ChunkPart)) (result : QueryResult) : Prop :=
  ∃ parts : List ChunkPart, received.Perm ((List.range parts.length).zip parts) ∧
    result.members = parts.flatMap (·.members) ∧
    result.notFound = parts.flatMap (·.notFound) ∧
    result.presences = parts.flatMap (·.presences)

/-- What is received with one more chunk. -/
def receive (received : Nat → List (Nat × ChunkPart)) :
    Option (Nat × Nat × ChunkPart) → Nat → List (Nat × ChunkPart)
  | none, number => received number
  | some (number', index, part), number =>
      if number = number' then received number ++ [(index, part)] else received number

/-- What the handler of chunks leaves: a valid state, in which the requests are those from
    before except for the one that is answered, with a result of all its chunks. -/
structure ChunkOutcome.Sound (outcome : ChunkOutcome) (state : GatewayState)
    (received : Nat → List (Nat × ChunkPart)) : Prop where
  valid : outcome.state.Valid (receive received outcome.stored)
  held : state.held.Perm ((outcome.answered.map (·.1)).toList ++ outcome.state.held)
  result : ∀ number result, outcome.answered = some (number, result) →
    ResultOf (receive received outcome.stored number) result
  stored : ∀ number index part, outcome.stored = some (number, index, part) →
    number ∈ state.held

section Chunks

variable {state : GatewayState} {received : Nat → List (Nat × ChunkPart)}

variable {state' : GatewayState}

theorem ChunkOutcome.Sound.of_held (hvalid : state'.Valid received)
    (hheld : state.held.Perm state'.held) (reply : Except String String) :
    ChunkOutcome.Sound { state := state', reply } state received where
  valid := hvalid
  held := hheld
  result := by
    intro number result h
    cases h
  stored := by
    intro number index part h
    cases h

theorem parts_of_full {request : ChunkRequest} (hdistinct : (request.chunks.map (·.1)).Nodup)
    (hinBounds : ∀ entry ∈ request.chunks, entry.1 < request.chunkCount)
    (hfull : request.chunks.length = request.chunkCount) :
    ∃ parts, request.parts = some parts ∧
      request.chunks.Perm ((List.range parts.length).zip parts) := by
  have heach : ∀ index ∈ List.range request.chunkCount,
      ∃ part, request.chunks.lookup index = some part := fun index hindex =>
    Assoc.lookup_of_full hdistinct hinBounds hfull (mem_range.mp hindex)
  obtain ⟨parts, hparts, hall⟩ := Assoc.mapM_of_forall heach
  have hlength : parts.length = request.chunkCount := by
    rw [← hall.length_eq, length_range]
  refine ⟨parts, hparts, ?_⟩
  have hsubset : request.chunks ⊆ (List.range parts.length).zip parts := by
    rintro ⟨index, part⟩ hentry
    have hlt : index < parts.length := by
      rw [hlength]
      exact hinBounds _ hentry
    have hfound := (forall₂_iff_get.mp hall).2 index (by simpa [← hlength] using hlt) hlt
    rw [get_eq_getElem, get_eq_getElem, getElem_range,
      (Assoc.lookup_eq_some_iff_mem hdistinct).mpr hentry, Option.some.injEq] at hfound
    have hmem := getElem_mem (l := (List.range parts.length).zip parts) (n := index)
      (by simpa using hlt)
    rwa [getElem_zip, getElem_range, ← hfound] at hmem
  apply (subperm_of_subset (List.Nodup.of_map _ hdistinct) hsubset).perm_of_length_le
  simp [hlength, hfull]

variable {index count : Nat}

theorem ChunkRequest.Holds.store {request : ChunkRequest} {chunks : List (Nat × ChunkPart)}
    (h : request.Holds chunks) (hindex : index < count)
    (hcount : request.chunkCount = 0 ∨ request.chunkCount = count)
    (hnew : request.chunks.lookup index = none) (part : ChunkPart) :
    (request.store index count part).Holds (chunks ++ [(index, part)]) where
  received := by
    rw [ChunkRequest.store, h.received]
  distinct := by
    rw [ChunkRequest.store, map_append, nodup_append]
    refine ⟨h.distinct, nodup_singleton _, ?_⟩
    intro old hold other hother heq
    obtain ⟨entry, hentry, rfl⟩ := mem_map.mp hold
    rw [map_cons, map_nil, mem_singleton] at hother
    have hfound := (Assoc.lookup_eq_some_iff_mem h.distinct).mpr hentry
    rw [heq, hother, hnew] at hfound
    cases hfound
  inBounds := by
    intro entry hentry
    rcases mem_append.mp hentry with hold | hnew'
    · -- A request with a chunk knows how many there are.
      have hlt := h.inBounds entry hold
      show entry.1 < count
      omega
    · rw [mem_singleton.mp hnew']
      exact hindex
  bytes := by
    simp [ChunkRequest.store, h.bytes]

theorem GatewayState.Valid.receive (h : state.Valid received) {number : Nat}
    (hnot : number ∉ state.pending) (index : Nat) (part : ChunkPart) :
    state.Valid (receive received (some (number, index, part))) where
  distinct := h.distinct
  numbers := h.numbers
  requests := by
    intro entry hentry
    have hne : entry.2.number ≠ number := by
      rintro rfl
      exact hnot (mem_map_of_mem hentry)
    rw [Discord.receive, if_neg hne]
    exact h.requests entry hentry
  bytes := h.bytes
  bound := h.bound

variable {nonce : String} {request : ChunkRequest}

theorem GatewayState.Valid.not_pending (h : state.Valid received)
    (hlookup : state.chunks.lookup nonce = some request) :
    request.number ∉ (state.removeRequest nonce).pending := by
  have hall : (state.chunks.map (·.2.number)).Nodup := h.numbers
  have hnumbers := ((h.perm hlookup).map (·.2.number)).nodup_iff.mp hall
  rw [removeRequest_of_lookup hlookup]
  exact (nodup_cons.mp hnumbers).1

theorem GatewayState.Valid.put (h : state.Valid received)
    (hlookup : state.chunks.lookup nonce = some request) {part : ChunkPart}
    (hholds : (request.store index count part).Holds
      (received request.number ++ [(index, part)]))
    (hwaiting : (request.store index count part).Waiting)
    (hbound : state.chunkBytes + part.bytes ≤ memberChunkAggregateLimit) :
    ({ state with
       chunks := (nonce, request.store index count part) :: state.chunks.filter (·.1 != nonce)
       chunkBytes := state.chunkBytes + part.bytes } : GatewayState).Valid
      (Discord.receive received (some (request.number, index, part))) := by
  have hrest := (h.removeRequest hlookup).receive (h.not_pending hlookup) index part
  rw [removeRequest_of_lookup hlookup] at hrest
  have hbytes := h.bytes_removed hlookup
  refine ⟨?_, ?_, ?_, ?_, hbound⟩
  · exact ((h.perm hlookup).map (·.1)).nodup_iff.mp h.distinct
  · have hnumbers : (state.chunks.map (·.2.number)).Nodup := h.numbers
    exact ((h.perm hlookup).map (·.2.number)).nodup_iff.mp hnumbers
  · intro entry hentry
    rcases mem_cons.mp hentry with rfl | hentry
    · show (request.store index count part).Valid
        (Discord.receive received (some (request.number, index, part)) request.number)
      rw [Discord.receive, if_pos rfl]
      exact ⟨hholds, hwaiting⟩
    · exact hrest.requests entry hentry
  · simp only [map_cons, sum_cons, ChunkRequest.store]
    omega

theorem removeRequest_put (hlookup : state.chunks.lookup nonce = some request)
    (index count : Nat) (part : ChunkPart) :
    ({ state with
       chunks := (nonce, request.store index count part) :: state.chunks.filter (·.1 != nonce)
       chunkBytes := state.chunkBytes + part.bytes } : GatewayState).removeRequest nonce =
      state.removeRequest nonce := by
  rw [removeRequest_of_lookup hlookup, removeRequest_of_lookup lookup_cons_self]
  simp [ChunkRequest.store, Nat.add_sub_add_right]

theorem completeRequest_spec {Request : Type} (json : Json Request) (h : state.Valid received)
    (hlookup : state.chunks.lookup nonce = some request) {part : ChunkPart} {parts : List ChunkPart}
    (hparts : (received request.number ++ [(index, part)]).Perm
      ((List.range parts.length).zip parts))
    (hstate : state'.removeRequest nonce = state.removeRequest nonce) :
    ChunkOutcome.Sound
      { completeRequest json state' nonce (request.store index count part) parts with
        stored := some (request.number, index, part) } state received := by
  have hvalid := (h.removeRequest hlookup).receive (h.not_pending hlookup) index part
  have hheld := h.held_removeRequest hlookup
  have hmember : request.number ∈ state.held := hheld.mem_iff.mpr mem_cons_self
  have hstored : ∀ number index' part', some (request.number, index, part) =
      some (number, index', part') → number ∈ state.held := by
    intro number index' part' heq
    cases heq
    exact hmember
  have hfail : ∀ (failure : QueryFailure) (reply : Except String String),
      ChunkOutcome.Sound
        { state := { state.removeRequest nonce with
            failures := (state.removeRequest nonce).failures ++ [(request.number, failure)] }
          reply, stored := some (request.number, index, part) } state received := by
    intro failure reply
    refine ⟨hvalid.congr rfl rfl, ?_, ?_, hstored⟩
    · refine hheld.trans ?_
      show (request.number :: ((state.removeRequest nonce).pending ++ _)).Perm
        ([] ++ ((state.removeRequest nonce).pending ++ _))
      rw [GatewayState.failed, GatewayState.failed, map_append, nil_append,
        ← append_assoc, ← singleton_append]
      exact perm_append_comm
    · intro number result heq
      cases heq
  rw [completeRequest, hstate]
  split
  · exact hfail _ _
  · split
    · exact hfail _ _
    · refine ⟨hvalid, hheld, ?_, hstored⟩
      intro number result heq
      cases heq
      refine ⟨parts, ?_, rfl, rfl, rfl⟩
      show (Discord.receive received (some (request.number, index, part)) request.number).Perm _
      rw [Discord.receive, if_pos rfl]
      exact hparts

theorem storeChunk_spec {Request : Type} (json : Json Request) (h : state.Valid received)
    (event : ChunkEvent) (hindex : index < count) :
    (storeChunk json state event index count).Sound state received := by
  rw [storeChunk]
  split
  · exact ChunkOutcome.Sound.of_held h (List.Perm.refl _) _
  · rename_i request hlookup
    split
    · obtain ⟨hvalid, hheld, -⟩ := failRequest_spec h hlookup "chunk_metadata_mismatch" none
      exact ChunkOutcome.Sound.of_held hvalid hheld _
    · rename_i hmatches
      split
      · exact ChunkOutcome.Sound.of_held h (List.Perm.refl _) _
      · rename_i hnew
        split
        · obtain ⟨hvalid, hheld, -⟩ := failRequest_spec h hlookup "aggregate_limit_exceeded" none
          exact ChunkOutcome.Sound.of_held hvalid hheld _
        · rename_i hbound
          have hrequest : request.Valid (received request.number) :=
            h.requests _ (Assoc.mem_of_lookup hlookup)
          have hholds := hrequest.holds.store hindex (by omega)
            (Option.not_isSome_iff_eq_none.mp hnew) event.part
          have hfull : (request.store index count event.part).chunks.length ≤ count := by
            have hsubset : (request.store index count event.part).chunks.map (·.1) ⊆
                List.range count := by
              intro i hi
              obtain ⟨entry, hentry, rfl⟩ := mem_map.mp hi
              exact mem_range.mpr (hholds.inBounds entry hentry)
            have hlength := (subperm_of_subset hholds.distinct hsubset).length_le
            simpa using hlength
          dsimp only
          split
          · rename_i hmissing
            refine ⟨h.put hlookup hholds (Or.inl (by show _ < count; omega)) (by omega), ?_, ?_, ?_⟩
            · have hpending := (h.perm hlookup).map (·.2.number)
              exact hpending.append_right state.failed
            · intro number result heq
              cases heq
            · intro number index' part heq
              cases heq
              exact mem_append_left _ (mem_map_of_mem (Assoc.mem_of_lookup hlookup))
          · rename_i hcomplete
            obtain ⟨parts, hparts, hperm⟩ := parts_of_full hholds.distinct hholds.inBounds
              (by show _ = count; omega)
            rw [hparts]
            rw [hholds.received] at hperm
            exact completeRequest_spec json h hlookup hperm (removeRequest_put hlookup _ _ _)

end Chunks

/-! ## Requests and rate limits -/

section Requests

variable {state : GatewayState} {received : Nat → List (Nat × ChunkPart)}

variable {state' : GatewayState}

theorem GatewayState.Valid.add (h : state.Valid received) {nonce : String}
    (hnew : state.chunks.lookup nonce = none) {request : ChunkRequest}
    (hnumber : request.number ∉ state.pending) (hreceived : received request.number = [])
    (hchunks : request.chunks = []) (hzero : request.bytes = 0)
    (hstate : state'.chunks = state.chunks ++ [(nonce, request)])
    (hbytes : state'.chunkBytes = state.chunkBytes) : state'.Valid received where
  distinct := by
    rw [hstate, map_append, nodup_append]
    refine ⟨h.distinct, nodup_singleton _, ?_⟩
    intro old hold other hother heq
    obtain ⟨entry, hentry, rfl⟩ := mem_map.mp hold
    rw [map_cons, map_nil, mem_singleton] at hother
    have hfound := (Assoc.lookup_eq_some_iff_mem h.distinct).mpr hentry
    rw [heq, hother, hnew] at hfound
    cases hfound
  numbers := by
    rw [GatewayState.pending, hstate, map_append]
    have hperm : (state.chunks.map (·.2.number) ++ [request.number]).Perm
        (request.number :: state.pending) := perm_append_singleton _ _
    exact hperm.nodup_iff.mpr (nodup_cons.mpr ⟨hnumber, h.numbers⟩)
  requests := by
    rw [hstate]
    intro entry hentry
    rcases mem_append.mp hentry with hold | hadded
    · exact h.requests entry hold
    · rw [mem_singleton.mp hadded]
      refine ⟨⟨?_, ?_, ?_, ?_⟩, Or.inr hchunks⟩ <;> simp [hchunks, hreceived, hzero]
  bytes := by simp [hstate, hbytes, hzero, h.bytes]
  bound := by rw [hbytes]; exact h.bound

/-- What becomes of the requests when one more is sent: it is pending if it is accepted. -/
structure Sent (state : GatewayState) (number : Nat) (received : Nat → List (Nat × ChunkPart))
    (sent : GatewayState × Except String String) : Prop where
  valid : sent.1.Valid received
  held : sent.1.held.Perm (if sent.2.isOk then number :: state.held else state.held)

variable {number : Nat}

variable {expired : GatewayState}

theorem Sent.refused (hvalid : expired.Valid received) (hheld : state.held.Perm expired.held)
    (hchunks : state'.chunks = expired.chunks) (hbytes : state'.chunkBytes = expired.chunkBytes)
    (hfailures : state'.failures = expired.failures) (message : String) :
    Sent state number received (state', .error message) := by
  refine ⟨hvalid.congr hchunks hbytes, ?_⟩
  rw [GatewayState.held, GatewayState.pending, GatewayState.failed, hchunks, hfailures]
  exact hheld.symm

theorem Sent.added {nonce : String} (guildID : String) (createdAt : Int)
    (hvalid : expired.Valid received) (hheld : state.held.Perm expired.held)
    (hnew : expired.chunks.lookup nonce = none) (hnumber : number ∉ state.held)
    (hreceived : received number = [])
    (hchunks : state'.chunks = expired.chunks ++ [(nonce, { number := number, guildID, createdAt })])
    (hbytes : state'.chunkBytes = expired.chunkBytes)
    (hfailures : state'.failures = expired.failures) :
    Sent state number received (state', .ok nonce) ∧ ∀ message,
      Sent state number received (state'.removeRequest nonce, .error message) := by
  have hpending : number ∉ expired.pending := fun hmem =>
    hnumber (hheld.mem_iff.mpr (mem_append_left _ hmem))
  have hvalid' : state'.Valid received :=
    hvalid.add hnew hpending hreceived rfl rfl hchunks hbytes
  have hheld' : state'.held.Perm (number :: state.held) := by
    rw [GatewayState.held, GatewayState.pending, GatewayState.failed, hchunks, hfailures,
      map_append]
    refine List.Perm.trans ?_ (hheld.symm.cons number)
    exact (perm_append_singleton number expired.pending).append_right expired.failed
  have hlookup : state'.chunks.lookup nonce = some { number := number, guildID, createdAt } := by
    rw [hchunks, lookup_append, hnew]
    simp
  refine ⟨⟨hvalid', hheld'⟩, fun message => ⟨hvalid'.removeRequest hlookup, ?_⟩⟩
  exact ((hvalid'.held_removeRequest hlookup).symm.trans hheld').cons_inv

theorem sendRequest_spec (h : state.Valid received) (closed : Nat → Bool) (args : MemberRequest)
    (nonce : String) (hnumber : number ∉ state.held) (hreceived : received number = []) (now : Int)
    (sent : Option String) :
    Sent state number received (sendRequest closed state args nonce number now sent) := by
  obtain ⟨hvalid, hheld, -⟩ := expire_spec h now
  rw [sendRequest]
  split
  · apply Sent.refused hvalid hheld <;> rfl
  · split
    · apply Sent.refused hvalid hheld <;> rfl
    · split
      · apply Sent.refused hvalid hheld <;> rfl
      · dsimp only
        split
        · apply Sent.refused hvalid hheld <;> rfl
        · split
          · apply Sent.refused hvalid hheld <;> rfl
          · split
            · apply Sent.refused hvalid hheld <;> rfl
            · rename_i hnonce
              have hnew := Option.not_isSome_iff_eq_none.mp hnonce
              split
              · apply Sent.refused hvalid hheld <;> rfl
              · split
                · refine (Sent.added args.guildID now hvalid hheld hnew hnumber hreceived ?_ ?_ ?_).2 _ <;> rfl
                · refine (Sent.added args.guildID now hvalid hheld hnew hnumber hreceived ?_ ?_ ?_).1 <;> rfl

theorem requestMembers_spec (json : Json MemberRequest) (maxSourceBytes : Nat)
    (h : state.Valid received) (closed : Nat → Bool) (args : MemberRequest)
    (generated : Option String) (hnumber : number ∉ state.held) (hreceived : received number = [])
    (now : Int) (sent : Option String) :
    Sent state number received
      (requestMembers json maxSourceBytes closed state args generated number now sent) := by
  have hsame : ∀ message, Sent state number received (state, .error message) :=
    fun message => Sent.refused h (List.Perm.refl _) rfl rfl rfl message
  rw [requestMembers]
  split
  · exact hsame _
  · split
    · exact hsame _
    · split
      · exact hsame _
      · split
        · exact hsame _
        · exact sendRequest_spec h closed args _ hnumber hreceived now sent

theorem rateLimitResult_spec (h : state.Valid received) (payload : Option RateLimitEvent)
    (now : Int) : (rateLimitResult state payload now).1.Valid received ∧
      state.held.Perm (rateLimitResult state payload now).1.held := by
  obtain ⟨hvalid, hheld, -⟩ := expire_spec h now
  unfold rateLimitResult
  split
  · exact ⟨h, List.Perm.refl _⟩
  · split
    · exact ⟨h, List.Perm.refl _⟩
    · split
      · exact ⟨h, List.Perm.refl _⟩
      · dsimp only
        split
        · exact ⟨hvalid, hheld⟩
        · rename_i request hlookup
          split
          · exact ⟨hvalid, hheld⟩
          · obtain ⟨hvalid', hheld', -⟩ := failRequest_spec hvalid hlookup "rate_limited" _
            exact ⟨hvalid', hheld.trans hheld'⟩

theorem memberChunkResult_spec {Request : Type} (json : Json Request) (h : state.Valid received)
    (payload : Option ChunkEvent) (now : Int) :
    (memberChunkResult json state payload now).Sound state received := by
  have hsame : ∀ reply, ChunkOutcome.Sound { state, reply } state received :=
    fun reply => ChunkOutcome.Sound.of_held h (List.Perm.refl _) reply
  unfold memberChunkResult
  split
  · exact hsame _
  · split
    · exact hsame _
    · split
      · exact hsame _
      · rename_i event _ _ index count hmetadata
        split
        · exact hsame _
        · obtain ⟨hvalid, hheld, -⟩ := expire_spec h now
          have hindex : index < count := by
            rw [ChunkEvent.metadata] at hmetadata
            split at hmetadata
            · split at hmetadata
              · cases hmetadata
              · rename_i hbounds
                cases hmetadata
                simp only [Bool.or_eq_true, decide_eq_true_eq, not_or] at hbounds
                omega
            · cases hmetadata
          obtain ⟨hvalid', hheld', hresult, hstored⟩ := storeChunk_spec json hvalid event hindex
          refine ⟨hvalid', hheld.trans hheld', hresult, ?_⟩
          intro number index' part heq
          exact hheld.mem_iff.mpr (hstored number index' part heq)

end Requests

/-! ## The system -/

/-- A gateway with its sockets. The chunks that were stored, the results that were given and
    the failures that were taken are kept with the numbers of their requests. -/
structure GatewaySystem where
  state : GatewayState := {}
  closed : Nat → Bool := fun _ => false
  accepted : Nat := 0
  stored : List (Nat × Nat × ChunkPart) := []
  results : List (Nat × QueryResult) := []
  taken : List (Nat × QueryFailure) := []

/-- A handler is called, or a socket closes. -/
inductive GatewayEvent where
  | request (args : MemberRequest) (generated : Option String) (now : Int) (sent : Option String)
  | chunk (payload : Option ChunkEvent) (now : Int)
  | rateLimit (payload : Option RateLimitEvent) (now : Int)
  | take (now : Int)
  | bind (socket : Nat) (intents now : Int)
  | unbind
  | send (now : Int)
  | close (socket : Nat)

section System

variable (json : Json MemberRequest) (maxSourceBytes : Nat)

/-- An event. A request that is accepted gets the next number. -/
def GatewaySystem.step (s : GatewaySystem) : GatewayEvent → Option GatewaySystem
  | .request args generated now sent =>
      let outcome := requestMembers json maxSourceBytes s.closed s.state args generated s.accepted
        now sent
      some { s with
        state := outcome.1
        accepted := if outcome.2.isOk then s.accepted + 1 else s.accepted }
  | .chunk payload now =>
      let outcome := memberChunkResult json s.state payload now
      some { s with
        state := outcome.state
        stored := s.stored ++ outcome.stored.toList
        results := s.results ++ outcome.answered.toList }
  | .rateLimit payload now => some { s with state := (rateLimitResult s.state payload now).1 }
  | .take now =>
      let outcome := takeMemberQueryFailures s.state now
      some { s with state := outcome.1, taken := s.taken ++ outcome.2 }
  | .bind socket intents now =>
      some { s with state := (bindSession s.closed s.state socket intents now).1 }
  | .unbind =>
      let outcome := unbindSession s.state
      some { s with state := outcome.1, taken := s.taken ++ outcome.2 }
  | .send now => some { s with state := gatewaySend s.closed s.state now }
  | .close socket => some { s with closed := fun other => other == socket || s.closed other }

/-- The chunks that were stored for a request. -/
def receivedOf (stored : List (Nat × Nat × ChunkPart)) (number : Nat) : List (Nat × ChunkPart) :=
  stored.filterMap fun entry => if number = entry.1 then some entry.2 else none

/-- The requests that have been answered, with a result or with a failure that was taken. -/
def GatewaySystem.answered (s : GatewaySystem) : List Nat :=
  s.results.map (·.1) ++ s.taken.map (·.1)

/-- The places of the requests. -/
def GatewaySystem.numbers (s : GatewaySystem) : List Nat := s.state.held ++ s.answered

/-- Every accepted request is in one place: it is pending and waits for chunks, has a failure,
    or was answered. Results are complete, and the accounted bytes are those of the chunks of
    the pending requests. -/
structure GatewaySystem.Delivered (s : GatewaySystem) : Prop where
  once : s.numbers.Perm (List.range s.accepted)
  waiting : ∀ entry ∈ s.state.chunks, entry.2.Waiting
  results : ∀ entry ∈ s.results, ResultOf (receivedOf s.stored entry.1) entry.2
  bytes : s.state.chunkBytes =
    (s.state.chunks.map fun entry => (entry.2.chunks.map (·.2.bytes)).sum).sum
  bound : s.state.chunkBytes ≤ memberChunkAggregateLimit

/-- A socket is bound where requests are pending or failures wait to be taken. -/
def GatewaySystem.forgets (s : GatewaySystem) : GatewayEvent → Bool
  | .bind socket intents _ =>
      !s.closed socket && 0 ≤ intents && s.state.socket.all s.closed &&
        !(s.state.chunks.isEmpty && s.state.failures.isEmpty)
  | _ => false

/-- What holds in every run. -/
structure GatewaySystem.Valid (s : GatewaySystem) : Prop where
  state : s.state.Valid (receivedOf s.stored)
  numbers : s.numbers.Nodup
  below : ∀ number ∈ s.numbers, number < s.accepted
  stored : ∀ entry ∈ s.stored, entry.1 < s.accepted
  results : ∀ entry ∈ s.results, ResultOf (receivedOf s.stored entry.1) entry.2

theorem receivedOf_append (stored : List (Nat × Nat × ChunkPart))
    (more : Option (Nat × Nat × ChunkPart)) :
    receivedOf (stored ++ more.toList) = receive (receivedOf stored) more := by
  funext number
  cases more with
  | none => simp [receive, receivedOf]
  | some entry =>
    obtain ⟨number', index, part⟩ := entry
    by_cases hsame : number = number' <;> simp [receive, receivedOf, hsame]

/-! ## Steps -/

/-- Where the requests go in an event: they stay in place or move on, and one more comes; or
    the ones that are held are forgotten. -/
inductive Moves (s : GatewaySystem) (event : GatewayEvent) (s' : GatewaySystem) : Prop where
  | stay (kept : s.forgets event = false) (same : s'.accepted = s.accepted)
      (numbers : s.numbers.Perm s'.numbers) : Moves s event s'
  | add (kept : s.forgets event = false) (next : s'.accepted = s.accepted + 1)
      (numbers : s'.numbers.Perm (s.accepted :: s.numbers)) : Moves s event s'
  | forget (forgets : s.forgets event = true) (same : s'.accepted = s.accepted)
      (held : s.state.held ≠ []) (numbers : s.numbers.Perm (s.state.held ++ s'.numbers)) :
      Moves s event s'

section Step

variable {s s' : GatewaySystem} {event : GatewayEvent}

theorem ResultOf.receive {received : Nat → List (Nat × ChunkPart)} {number : Nat}
    {result : QueryResult} (h : ResultOf (received number) result)
    {stored : Option (Nat × Nat × ChunkPart)}
    (hne : ∀ number' index part, stored = some (number', index, part) → number ≠ number') :
    ResultOf (Discord.receive received stored number) result := by
  cases stored with
  | none => exact h
  | some entry =>
    obtain ⟨number', index, part⟩ := entry
    rw [Discord.receive, if_neg (hne number' index part rfl)]
    exact h

theorem Moves.of_held {event : GatewayEvent} (hkept : s.forgets event = false)
    {state : GatewayState} (hheld : s.state.held.Perm state.held) :
    Moves s event { s with state } :=
  Moves.stay hkept rfl (hheld.append_right s.answered)

variable {json maxSourceBytes}

theorem GatewaySystem.Valid.of_state (h : s.Valid) {state : GatewayState} {accepted : Nat}
    (hstate : state.Valid (receivedOf s.stored)) (hle : s.accepted ≤ accepted)
    (hnumbers : (state.held ++ s.answered).Nodup)
    (hbelow : ∀ number ∈ state.held ++ s.answered, number < accepted) :
    GatewaySystem.Valid { s with state, accepted } where
  state := hstate
  numbers := hnumbers
  below := hbelow
  stored := fun entry hentry => lt_of_lt_of_le (h.stored entry hentry) hle
  results := h.results

theorem GatewaySystem.Valid.of_held (h : s.Valid) {state : GatewayState}
    (hstate : state.Valid (receivedOf s.stored)) (hheld : s.state.held.Perm state.held) :
    GatewaySystem.Valid { s with state } := by
  have hperm : s.numbers.Perm (state.held ++ s.answered) := hheld.append_right s.answered
  refine h.of_state hstate (le_refl _) (hperm.nodup_iff.mp h.numbers) ?_
  intro number hnumber
  exact h.below number (hperm.mem_iff.mpr hnumber)

theorem GatewaySystem.Valid.of_taken (h : s.Valid) {state : GatewayState}
    {failures : List (Nat × QueryFailure)} (hstate : state.Valid (receivedOf s.stored))
    (hheld : s.state.held.Perm (state.held ++ failures.map (·.1))) (event : GatewayEvent)
    (hkept : s.forgets event = false) :
    GatewaySystem.Valid { s with state, taken := s.taken ++ failures } ∧
      Moves s event { s with state, taken := s.taken ++ failures } := by
  have hperm : s.numbers.Perm
      (GatewaySystem.numbers { s with state, taken := s.taken ++ failures }) := by
    apply perm_iff_count.mpr
    intro number
    have hcount := hheld.count_eq number
    simp only [GatewaySystem.numbers, GatewaySystem.answered, map_append,
      count_append] at hcount ⊢
    omega
  refine ⟨⟨hstate, hperm.nodup_iff.mp h.numbers, ?_, h.stored, h.results⟩,
    Moves.stay hkept rfl hperm⟩
  intro number hnumber
  exact h.below number (hperm.mem_iff.mpr hnumber)

theorem step_request (h : s.Valid) (args : MemberRequest) (generated : Option String) (now : Int)
    (sent : Option String)
    (hstep : s.step json maxSourceBytes (.request args generated now sent) = some s') :
    s'.Valid ∧ Moves s (.request args generated now sent) s' := by
  have hfresh : s.accepted ∉ s.state.held := fun hmem =>
    lt_irrefl _ (h.below s.accepted (mem_append_left _ hmem))
  have hreceived : receivedOf s.stored s.accepted = [] := by
    rw [receivedOf, filterMap_eq_nil_iff]
    intro entry hentry
    exact if_neg (h.stored entry hentry).ne'
  obtain ⟨hvalid, hheld⟩ := requestMembers_spec json maxSourceBytes h.state s.closed args generated
    hfresh hreceived now sent
  cases hstep
  by_cases hok : (requestMembers json maxSourceBytes s.closed s.state args generated s.accepted
      now sent).2.isOk = true
  · rw [if_pos hok] at hheld
    have hperm := hheld.append_right s.answered
    have hnew : s.accepted ∉ s.numbers := fun hmem => lt_irrefl _ (h.below _ hmem)
    simp only [hok, if_true]
    refine ⟨h.of_state hvalid (Nat.le_succ _) ?_ ?_, Moves.add rfl rfl hperm⟩
    · exact hperm.nodup_iff.mpr (nodup_cons.mpr ⟨hnew, h.numbers⟩)
    · intro number hnumber
      rcases mem_cons.mp (hperm.mem_iff.mp hnumber) with rfl | hold
      · exact Nat.lt_succ_self _
      · exact Nat.lt_succ_of_lt (h.below number hold)
  · rw [if_neg hok] at hheld
    simp only [hok, Bool.false_eq_true, if_false]
    exact ⟨h.of_held hvalid hheld.symm, Moves.of_held rfl hheld.symm⟩

theorem step_chunk (h : s.Valid) (payload : Option ChunkEvent) (now : Int)
    (hstep : s.step json maxSourceBytes (.chunk payload now) = some s') :
    s'.Valid ∧ Moves s (.chunk payload now) s' := by
  obtain ⟨hvalid, hheld, hresult, hstored⟩ := memberChunkResult_spec json h.state payload now
  cases hstep
  generalize memberChunkResult json s.state payload now = outcome at hvalid hheld hresult hstored ⊢
  have hperm : s.numbers.Perm (GatewaySystem.numbers { s with
      state := outcome.state
      stored := s.stored ++ outcome.stored.toList
      results := s.results ++ outcome.answered.toList }) := by
    apply perm_iff_count.mpr
    intro number
    have hcount := hheld.count_eq number
    have hanswered : outcome.answered.toList.map (·.1) =
        (outcome.answered.map (·.1)).toList := by
      cases outcome.answered <;> rfl
    simp only [GatewaySystem.numbers, GatewaySystem.answered, map_append,
      count_append, hanswered] at hcount ⊢
    omega
  refine ⟨⟨?_, hperm.nodup_iff.mp h.numbers, ?_, ?_, ?_⟩, Moves.stay rfl rfl hperm⟩
  · rw [receivedOf_append]
    exact hvalid
  · intro number hnumber
    exact h.below number (hperm.mem_iff.mpr hnumber)
  · intro entry hentry
    rcases mem_append.mp hentry with hold | hnew
    · exact h.stored entry hold
    · obtain ⟨number, index, part⟩ := entry
      exact h.below number
        (mem_append_left _ (hstored number index part (Option.mem_toList.mp hnew)))
  · intro entry hentry
    rw [receivedOf_append]
    rcases mem_append.mp hentry with hold | hnew
    · refine (h.results entry hold).receive ?_
      rintro number index part heq rfl
      -- A request that takes a chunk is held, so it has no result yet.
      have hdisjoint := disjoint_of_nodup_append h.numbers
      exact hdisjoint (hstored _ index part heq)
        (mem_append_left _ (mem_map_of_mem hold))
    · exact hresult entry.1 entry.2 (Option.mem_toList.mp hnew)

theorem step_bind (h : s.Valid) (socket : Nat) (intents now : Int)
    (hstep : s.step json maxSourceBytes (.bind socket intents now) = some s') :
    s'.Valid ∧ Moves s (.bind socket intents now) s' := by
  cases hstep
  rw [bindSession]
  have hsame : ∀ message, s.forgets (.bind socket intents now) = false →
      GatewaySystem.Valid { s with state := (s.state, message).1 } ∧
        Moves s (.bind socket intents now) { s with state := (s.state, message).1 } :=
    fun (message : Except String Unit) hkept =>
      ⟨h.of_held h.state (List.Perm.refl _), Moves.of_held hkept (List.Perm.refl _)⟩
  split
  · rename_i hclosed
    exact hsame _ (by simp [GatewaySystem.forgets, hclosed])
  · split
    · rename_i hintents
      exact hsame _ (by simp [GatewaySystem.forgets, Int.not_le.mpr hintents])
    · split
      · rename_i hactive
        refine hsame _ ?_
        cases hsocket : s.state.socket with
        | none => simp [hsocket] at hactive
        | some active =>
          rw [hsocket, Option.any_some, Bool.not_eq_true'] at hactive
          simp [GatewaySystem.forgets, hsocket, hactive]
      · rename_i hclosed hintents hactive
        have hbound : ∀ socket', s.state.socket = some socket' → s.closed socket' = true := by
          intro socket' hsocket
          simpa [hsocket] using hactive
        have hforgets : s.forgets (.bind socket intents now) =
            !(s.state.chunks.isEmpty && s.state.failures.isEmpty) := by
          have hall : s.state.socket.all s.closed = true := by
            cases hsocket : s.state.socket with
            | none => rfl
            | some active => exact hbound active hsocket
          simp [GatewaySystem.forgets, hclosed, hall, Int.not_lt.mp hintents]
        have hanswered : s.answered.Nodup :=
          (sublist_append_right s.state.held s.answered).nodup h.numbers
        refine ⟨h.of_state ?_ (le_refl _) hanswered fun number hnumber =>
          h.below number (mem_append_right _ hnumber), ?_⟩
        · exact ⟨nodup_nil, nodup_nil, by simp, rfl, Nat.zero_le _⟩
        · by_cases hempty : (s.state.chunks.isEmpty && s.state.failures.isEmpty) = true
          · rw [Bool.and_eq_true, List.isEmpty_iff, List.isEmpty_iff] at hempty
            refine Moves.stay (by simp [hforgets, hempty]) rfl ?_
            rw [GatewaySystem.numbers, GatewayState.held, GatewayState.pending,
              GatewayState.failed, hempty.1, hempty.2]
            exact List.Perm.refl _
          · refine Moves.forget (by rw [hforgets, Bool.eq_false_iff.mpr hempty]; rfl) rfl ?_
              (List.Perm.refl _)
            intro hheld
            rw [GatewayState.held, GatewayState.pending, GatewayState.failed,
              append_eq_nil_iff, map_eq_nil_iff, map_eq_nil_iff] at hheld
            simp [hheld] at hempty

theorem step_spec (h : s.Valid) {event : GatewayEvent}
    (hstep : s.step json maxSourceBytes event = some s') : s'.Valid ∧ Moves s event s' := by
  cases event with
  | request args generated now sent => exact step_request h args generated now sent hstep
  | chunk payload now => exact step_chunk h payload now hstep
  | rateLimit payload now =>
    cases hstep
    obtain ⟨hvalid, hheld⟩ := rateLimitResult_spec h.state payload now
    exact ⟨h.of_held hvalid hheld, Moves.of_held rfl hheld⟩
  | take now =>
    cases hstep
    obtain ⟨hvalid, hheld, -⟩ := expire_spec h.state now
    have htaken : s.state.held.Perm ((takeMemberQueryFailures s.state now).1.held ++
        (takeMemberQueryFailures s.state now).2.map (·.1)) := by
      simpa [GatewayState.held, takeMemberQueryFailures, GatewayState.pending,
        GatewayState.failed] using hheld
    have hvalid' : (takeMemberQueryFailures s.state now).1.Valid (receivedOf s.stored) :=
      hvalid.congr rfl rfl
    exact h.of_taken hvalid' htaken (.take now) rfl
  | bind socket intents now => exact step_bind h socket intents now hstep
  | unbind =>
    cases hstep
    have hvalid : (unbindSession s.state).1.Valid (receivedOf s.stored) :=
      ⟨nodup_nil, nodup_nil, by simp [unbindSession], rfl, Nat.zero_le _⟩
    have htaken : s.state.held.Perm ((unbindSession s.state).1.held ++
        (unbindSession s.state).2.map (·.1)) := by
      rw [unbindSession, map_append, map_map]
      exact perm_append_comm
    exact h.of_taken hvalid htaken .unbind rfl
  | send now =>
    cases hstep
    have hchunks : (gatewaySend s.closed s.state now).chunks = s.state.chunks ∧
        (gatewaySend s.closed s.state now).chunkBytes = s.state.chunkBytes ∧
        (gatewaySend s.closed s.state now).failures = s.state.failures := by
      rw [gatewaySend]
      split
      · exact ⟨rfl, rfl, rfl⟩
      · dsimp only
        split <;> exact ⟨rfl, rfl, rfl⟩
    have hheld : s.state.held.Perm (gatewaySend s.closed s.state now).held := by
      rw [GatewayState.held, GatewayState.held, GatewayState.pending, GatewayState.pending,
        GatewayState.failed, GatewayState.failed, hchunks.1, hchunks.2.2]
    exact ⟨h.of_held (h.state.congr hchunks.1 hchunks.2.1) hheld, Moves.of_held rfl hheld⟩
  | close socket =>
    cases hstep
    exact ⟨⟨h.state, h.numbers, h.below, h.stored, h.results⟩,
      Moves.stay rfl rfl (List.Perm.refl _)⟩

theorem once_step_iff (hmoves : Moves s event s') (hnumbers : s.numbers.Perm (List.range s.accepted)) :
    s'.numbers.Perm (List.range s'.accepted) ↔ s.forgets event = false := by
  cases hmoves with
  | stay kept same numbers =>
    rw [same]
    exact ⟨fun _ => kept, fun _ => numbers.symm.trans hnumbers⟩
  | add kept next numbers =>
    rw [next, range_succ]
    refine ⟨fun _ => kept, fun _ => (numbers.trans (hnumbers.cons _)).trans ?_⟩
    exact (perm_append_singleton _ _).symm
  | forget forgets same held numbers =>
    rw [same, forgets]
    refine ⟨fun hperm => ?_, fun hcontra => by cases hcontra⟩
    -- The requests that were held are missing.
    have hlength := (numbers.symm.trans (hnumbers.trans hperm.symm)).length_eq
    rw [length_append] at hlength
    exact absurd (length_eq_zero_iff.mp (by omega)) held

theorem GatewaySystem.Valid.delivered_iff (h : s.Valid) :
    s.Delivered ↔ s.numbers.Perm (List.range s.accepted) := by
  refine ⟨fun hdelivered => hdelivered.once, fun honce => ⟨honce, ?_, h.results, ?_, h.state.bound⟩⟩
  · exact fun entry hentry => (h.state.requests entry hentry).waiting
  · rw [h.state.bytes]
    congr 1
    exact map_congr_left fun entry hentry => (h.state.requests entry hentry).holds.bytes

theorem GatewaySystem.initial_valid : ({} : GatewaySystem).Valid where
  state := ⟨nodup_nil, nodup_nil, by simp, rfl, Nat.zero_le _⟩
  numbers := nodup_nil
  below := by
    intro number hnumber
    cases hnumber
  stored := by
    intro entry hentry
    cases hentry
  results := by
    intro entry hentry
    cases hentry

theorem step_total (s : GatewaySystem) (event : GatewayEvent) :
    ∃ s', s.step json maxSourceBytes event = some s' := by
  cases event <;> exact ⟨_, rfl⟩

theorem take_expired (h : s.Valid) {now : Int}
    (hstep : s.step json maxSourceBytes (.take now) = some s') {entry : String × ChunkRequest}
    (hentry : entry ∈ s.state.chunks) (hexpired : GatewayState.isExpired now entry.2 = true) :
    entry.2.number ∈ s'.taken.map (·.1) := by
  obtain ⟨-, hheld, hchunks⟩ := expire_spec h.state now
  cases hstep
  rw [map_append]
  refine mem_append_right _ ?_
  have hmem : entry.2.number ∈ (s.state.expire now).held :=
    hheld.mem_iff.mp (mem_append_left _ (mem_map_of_mem hentry))
  rcases mem_append.mp hmem with hpending | hfailed
  · -- The numbers of the requests are distinct, and this one is not among those that are left.
    obtain ⟨other, hother, hnumber⟩ := mem_map.mp hpending
    rw [hchunks, mem_filter] at hother
    have hsame := inj_on_of_nodup_map h.state.numbers hother.1 hentry hnumber
    rw [hsame, hexpired] at hother
    exact absurd hother.2 (by simp)
  · exact hfailed

end Step

end System

/-! ## A session that is not unbound -/

/-- A request is pending when its socket closes, and another socket is bound. -/
def rebound : List GatewayEvent :=
  [.bind 0 0 0,
    .request { guildID := "1", query := "a", limit := 1, userIDs := [], presences := false
               nonce := "n", allMembers := false } none 1 none,
    .close 0, .bind 1 0 2]

end Kryndel.Discord
