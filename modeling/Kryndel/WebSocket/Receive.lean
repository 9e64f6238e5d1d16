import Kryndel.Systems.Run
import Kryndel.WebSocket.Frames

/-!
# Receiving from a WebSocket

One reader at a time takes frames from the connection and puts them together to a message. It
goes on when the caller that started it has given up waiting; the next caller waits for the
same reader. Bytes come in chunks of any size, and the reader takes them one at a time, so
that a caller can give up between any two of them. The context of the program is not
cancelled, and the program does not close the connection.

## References

- `websocket.go`: `receiveMessageTimeout`, `receiveMessageRaw`, `receiveTextTimeout`,
  `receiveBinaryTimeout`
-/

namespace Kryndel.WebSocket

open Reading Systems List

/-! ## From frames to messages -/

/-- A message, as `receiveMessageRaw` returns it. -/
structure Message where
  opcode : UInt8
  payload : List UInt8
deriving DecidableEq, Repr

/-- What a receive returns. -/
abbrev Outcome := Except String Message

/-- What the reader keeps of a message while it waits for the rest. -/
structure Assembly where
  messageOpcode : UInt8 := 0
  message : List UInt8 := []
  collecting : Bool := false

/-- What the reader does about a frame: it goes on, it answers a ping and goes on, it returns, or
it closes the connection and returns. -/
inductive Turn where
  | again (a : Assembly)
  | pong (payload : List UInt8)
  | leave (outcome : Outcome)
  | shut (error : String)

/-- The error of a frame that closes the connection. -/
def closeError : List UInt8 → String
  | [] => "WebSocket peer closed with code 1005: "
  | [_] => "WebSocket close frame has a one-byte payload"
  | high :: low :: reasonBytes =>
    let code := ofBigEndian [high, low]
    match String.fromUTF8? ⟨reasonBytes.toArray⟩ with
    | none => s!"WebSocket close reason is not UTF-8 (code {code})"
    | some reason => s!"WebSocket peer closed with code {code}: {reason}"

/-- The cases of `receiveMessageRaw`. -/
def assemble (max : Nat) (a : Assembly) (f : Frame) : Turn :=
  if f.opcode = 0x8 ∨ f.opcode = 0x9 ∨ f.opcode = 0xA then
    if f.fin = false ∨ f.payload.length > 125 then
      .leave (.error "invalid fragmented or oversized WebSocket control frame")
    else if f.opcode = 0x9 then .pong f.payload
    else if f.opcode = 0xA then .again a
    else .shut (closeError f.payload)
  else if f.opcode = 0x0 then
    if a.collecting = false then .leave (.error "unexpected WebSocket continuation frame")
    else if (f.payload.length : Int) > max - a.message.length then
      .leave (.error "WebSocket message exceeds configured limit")
    else if f.fin then .leave (.ok ⟨a.messageOpcode, a.message ++ f.payload⟩)
    else .again { a with message := a.message ++ f.payload }
  else if f.opcode = 0x1 ∨ f.opcode = 0x2 then
    if a.collecting then
      .leave (.error "new WebSocket data frame before the previous message finished")
    else if f.fin then .leave (.ok ⟨f.opcode, f.payload⟩)
    else if f.payload.length > max then
      .leave (.error "WebSocket message exceeds configured limit")
    else .again ⟨f.opcode, f.payload, true⟩
  else .leave (.error s!"unsupported WebSocket frame opcode {f.opcode}")

/-! ## The connection -/

/-- The reader of a connection is reading a frame, or it has put its result into the channel. -/
inductive PendingRead where
  | reading (frame : Reader UInt8 (Except String Frame)) (a : Assembly)
  | finished (outcome : Outcome)

/-- The start of `receiveMessageRaw`. -/
def PendingRead.start (max : Nat) : PendingRead := .reading (receiveFrame max) {}

/-- The loop of `receiveMessageRaw`, until it waits for a byte or is done, and whether it has
closed the connection. A pong is written, or this fails. -/
def goOn (max : Nat) (pongError : Option String) :
    Reader UInt8 (Except String Frame) → Assembly → PendingRead × Bool
  | .need next, a => (.reading (.need next) a, false)
  | .done (.error error), _ => (.finished (.error error), true)
  | .done (.ok f), a =>
    match assemble max a f with
    | .again a' => (.reading (receiveFrame max) a', false)
    | .pong _ =>
      match pongError with
      | none => (.reading (receiveFrame max) a, false)
      | some error => (.finished (.error error), false)
    | .leave outcome => (.finished outcome, false)
    | .shut error => (.finished (.error error), true)

/-- The messages that a program can ask for. -/
inductive Kind where
  | text
  | binary
deriving DecidableEq, Repr

def Kind.opcode : Kind → UInt8
  | text => 0x1
  | binary => 0x2

/-- `receiveTextTimeout` and `receiveBinaryTimeout`, after `receiveMessageTimeout`. -/
def Kind.reply : Kind → Outcome → Except String (List UInt8)
  | _, .error error => .error error
  | text, .ok m =>
    if m.opcode ≠ 0x1 then .error "WebSocket message is binary; use websocket_receive_binary"
    else if (String.fromUTF8? ⟨m.payload.toArray⟩).isNone then
      .error "WebSocket text frame is not UTF-8"
    else .ok m.payload
  | binary, .ok m =>
    if m.opcode ≠ 0x2 then .error "WebSocket message is text; use websocket_receive"
    else .ok m.payload

/-- A caller that waits, with a time limit or without one. -/
structure Caller where
  kind : Kind
  timed : Bool
deriving DecidableEq, Repr

/-- A connection: the bytes that wait to be read, the reader, and the caller that waits for it.
All that has arrived and all that callers have been told is written down. -/
structure Conn where
  buffer : List UInt8 := []
  pendingRead : Option PendingRead := none
  closed : Bool := false
  caller : Option Caller := none
  arrived : List UInt8 := []
  results : List (Kind × Outcome) := []

/-- What can happen: bytes arrive, a caller comes, the reader takes a byte, the caller gets the
result, or it gives up. -/
inductive Move where
  | arrive (chunk : List UInt8)
  | call (caller : Caller)
  | work (pongError : Option String)
  | deliver
  | timeOut

/-- One move. Only one caller is let in at a time. -/
def step (max : Nat) (s : Conn) : Move → Option Conn
  | .arrive chunk => some { s with buffer := s.buffer ++ chunk, arrived := s.arrived ++ chunk }
  | .call caller =>
    if s.caller.isSome then none
    else if s.closed then
      some { s with results := s.results ++ [(caller.kind, .error "WebSocket handle is closed")] }
    else some { s with
      caller := some caller, pendingRead := some (s.pendingRead.getD (.start max)) }
  | .work pongError =>
    match s.pendingRead, s.buffer with
    | some (.reading (.need next) a), b :: rest =>
      let after := goOn max pongError (next b) a
      some { s with
        buffer := rest, pendingRead := some after.1, closed := s.closed || after.2 }
    | _, _ => none
  | .deliver =>
    match s.caller, s.pendingRead with
    | some caller, some (.finished outcome) => some { s with
      pendingRead := none, caller := none, results := s.results ++ [(caller.kind, outcome)] }
    | _, _ => none
  | .timeOut =>
    match s.caller with
    | some caller =>
      if caller.timed then some { s with
        caller := none
        results := s.results ++ [(caller.kind, .error "WebSocket receive timed out")] }
      else none
    | none => none

/-- Pongs are written. -/
def Move.Ponged : Move → Prop
  | .work pongError => pongError = none
  | _ => True

/-! ## What the bytes say -/

/-- Where the readers stand, one after the other: in a frame, or the connection is closed. -/
abbrev Position := Option (Reader UInt8 (Except String Frame) × Assembly)

def Position.start (max : Nat) : Position := some (receiveFrame max, {})

/-- The position after a turn of the reader, and what it has returned. -/
def Position.next (max : Nat) : PendingRead × Bool → Position × List Outcome
  | (.reading r a, _) => (some (r, a), [])
  | (.finished outcome, closed) => (if closed then none else start max, [outcome])

/-- One byte is read. -/
def Position.advance (max : Nat) (p : Position) (b : UInt8) : Position × List Outcome :=
  match p with
  | some (.need next, a) => Position.next max (goOn max none (next b) a)
  | _ => (p, [])

/-- Some bytes are read, by as many readers as it takes. -/
def drain (max : Nat) (p : Position) : List UInt8 → Position × List Outcome
  | [] => (p, [])
  | b :: bytes =>
    let here := p.advance max b
    let later := drain max here.1 bytes
    (later.1, here.2 ++ later.2)

/-- The messages among some results. -/
def successes (outcomes : List Outcome) : List Message := outcomes.filterMap Except.toOption

theorem successes_append (os os' : List Outcome) :
    successes (os ++ os') = successes os ++ successes os' :=
  filterMap_append ..

theorem successes_error (error : String) : successes [.error error] = [] := rfl

attribute [local simp] drain in
theorem drain_append (max : Nat) (p : Position) (bytes bytes' : List UInt8) :
    drain max p (bytes ++ bytes') =
      ((drain max (drain max p bytes).1 bytes').1,
        (drain max p bytes).2 ++ (drain max (drain max p bytes).1 bytes').2) := by
  induction bytes generalizing p with
  | nil => rfl
  | cons b bytes ih =>
    rw [cons_append, drain, ih]
    simp only [drain, append_assoc]

theorem drain_closed (max : Nat) (bytes : List UInt8) : drain max none bytes = (none, []) := by
  induction bytes with
  | nil => rfl
  | cons b bytes ih => simp only [drain, Position.advance, ih, append_nil]

/-! ## The connection and its bytes -/

/-- Where the reader stands, or will stand when it is started. -/
def Position.of (max : Nat) (closed : Bool) (pendingRead : Option PendingRead) : Position :=
  if closed then none
  else match pendingRead with
    | some (.reading r a) => some (r, a)
    | _ => start max

theorem Position.of_closed (max : Nat) (pendingRead : Option PendingRead) :
    Position.of max true pendingRead = none := rfl

/-- A result that has not been fetched yet. -/
def waiting : Option PendingRead → List Outcome
  | some (.finished outcome) => [outcome]
  | _ => []

/-- The messages that callers have got. -/
def received (results : List (Kind × Outcome)) : List Message := successes (results.map (·.2))

theorem received_concat (results : List (Kind × Outcome)) (kind : Kind) (outcome : Outcome) :
    received (results ++ [(kind, outcome)]) = received results ++ successes [outcome] := by
  rw [received, map_append, successes_append]
  rfl

theorem received_error (results : List (Kind × Outcome)) (kind : Kind) (error : String) :
    received (results ++ [(kind, .error error)]) = received results := by
  rw [received_concat, successes_error, append_nil]

/-- What the reader and the connection are to each other: a closed one has no reader that reads,
and no message that waits; who reads waits for a byte. -/
structure Settled (closed : Bool) (pendingRead : Option PendingRead) : Prop where
  reading : ∀ r a, pendingRead = some (.reading r a) → closed = false ∧ ∃ next, r = .need next
  finished : closed = true → successes (waiting pendingRead) = []

theorem Settled.reads {r : Reader UInt8 (Except String Frame)} (h : ∃ next, r = .need next)
    (a : Assembly) : Settled false (some (.reading r a)) where
  reading := by
    intro r a h'
    cases h'
    exact ⟨rfl, h⟩
  finished := by
    intro h
    cases h

theorem Settled.none (closed : Bool) : Settled closed none where
  reading := by
    intro r a h
    cases h
  finished _ := rfl

theorem Settled.leaves (outcome : Outcome) : Settled false (some (.finished outcome)) where
  reading := by
    intro r a h
    cases h
  finished := by
    intro h
    cases h

theorem Settled.shuts (error : String) : Settled true (some (.finished (.error error))) where
  reading := by
    intro r a h
    cases h
  finished _ := rfl

theorem receiveFrame_need (max : Nat) : ∃ next, receiveFrame max = .need next := ⟨_, rfl⟩

attribute [local simp] goOn assemble in
theorem settled_goOn (max : Nat) (pongError : Option String)
    (r : Reader UInt8 (Except String Frame)) (a : Assembly) :
    Settled (goOn max pongError r a).2 (some (goOn max pongError r a).1) := by
  have hstart := receiveFrame_need max
  unfold goOn
  split
  · exact Settled.reads ⟨_, rfl⟩ _
  · exact Settled.shuts _
  split
  · exact Settled.reads hstart _
  · split
    · exact Settled.reads hstart _
    · exact Settled.leaves _
  · exact Settled.leaves _
  · exact Settled.shuts _

theorem position_next (max : Nat) (r : Reader UInt8 (Except String Frame)) (a : Assembly) :
    (Position.next max (goOn max none r a)).1 =
      Position.of max (goOn max none r a).2 (some (goOn max none r a).1) := by
  cases hnext : goOn max none r a with
  | mk pendingRead closed =>
    cases pendingRead with
    | finished outcome => rfl
    | reading r' a' =>
      have hsettled := settled_goOn max none r a
      rw [hnext] at hsettled
      obtain ⟨rfl, -⟩ := hsettled.reading r' a' rfl
      rfl

theorem waiting_next (max : Nat) (answer : PendingRead × Bool) :
    (Position.next max answer).2 = waiting (some answer.1) := by
  obtain ⟨pendingRead, closed⟩ := answer
  cases pendingRead <;> rfl

namespace Conn

/-- Some bytes have been read, and the rest of what has arrived has not. -/
structure Follows (max : Nat) (s : Conn) (consumed : List UInt8) : Prop where
  arrived : s.arrived = consumed ++ s.buffer
  position : (drain max (.start max) consumed).1 = Position.of max s.closed s.pendingRead
  messages : successes (drain max (.start max) consumed).2 =
    received s.results ++ successes (waiting s.pendingRead)
  settled : Settled s.closed s.pendingRead
  caller : s.caller.isSome = true → s.pendingRead.isSome = true

theorem follows_start (max : Nat) : Follows max {} [] where
  arrived := rfl
  position := rfl
  messages := rfl
  settled := Settled.none false
  caller := by
    intro h
    cases h

variable {max : Nat} {s s' : Conn} {consumed : List UInt8}

attribute [local simp] step in
theorem follows_call (h : Follows max s consumed) {caller : Caller}
    (hstep : step max s (.call caller) = some s') : Follows max s' consumed := by
  rw [step] at hstep
  split at hstep
  · cases hstep
  split at hstep
  · cases hstep
    exact ⟨h.arrived, h.position, by rw [h.messages, received_error], h.settled, h.caller⟩
  · next hopen =>
    cases hstep
    rw [Bool.not_eq_true] at hopen
    have hposition := h.position
    have hmessages := h.messages
    have hsettled := h.settled
    cases hpending : s.pendingRead with
    | some r =>
      rw [hpending] at hposition hmessages hsettled
      exact ⟨h.arrived, hposition, hmessages, hsettled, fun _ => rfl⟩
    | none =>
      -- the reader is where the next one would have begun
      rw [hpending, hopen] at hposition
      rw [hpending] at hmessages
      refine ⟨h.arrived, ?_, hmessages, ?_, fun _ => rfl⟩
      · rw [hopen]
        exact hposition
      · rw [hopen]
        exact Settled.reads (receiveFrame_need max) _

theorem follows_work (h : Follows max s consumed)
    (hstep : step max s (.work none) = some s') : ∃ b, Follows max s' (consumed ++ [b]) := by
  rw [step] at hstep
  split at hstep
  case h_2 => cases hstep
  case h_1 next a b rest hpending hbuffer =>
    cases hstep
    obtain ⟨hopen, -⟩ := h.settled.reading _ _ hpending
    have hposition : (drain max (.start max) consumed).1 = some (.need next, a) := by
      rw [h.position, hopen, hpending]
      rfl
    have hdrain : drain max (.start max) (consumed ++ [b]) =
        ((Position.next max (goOn max none (next b) a)).1,
          (drain max (.start max) consumed).2 ++
            (Position.next max (goOn max none (next b) a)).2) := by
      rw [drain_append, hposition]
      simp only [drain, Position.advance, append_nil]
    refine ⟨b, ?_, ?_, ?_, ?_, fun _ => rfl⟩
    · rw [h.arrived, hbuffer, append_assoc]
      rfl
    · rw [hdrain, position_next, hopen, Bool.false_or]
    · rw [hdrain, successes_append, h.messages, hpending, waiting_next]
      exact congrArg (· ++ _) (append_nil _)
    · rw [hopen, Bool.false_or]
      exact settled_goOn max none (next b) a

theorem follows_deliver (h : Follows max s consumed)
    (hstep : step max s .deliver = some s') : Follows max s' consumed := by
  rw [step] at hstep
  split at hstep
  case h_2 => cases hstep
  case h_1 caller outcome hcaller hpending =>
    cases hstep
    refine ⟨h.arrived, ?_, ?_, Settled.none _, fun hcaller => by cases hcaller⟩
    · rw [h.position, hpending]
      rfl
    · rw [h.messages, received_concat, hpending]
      exact (append_nil _).symm

theorem follows_timeOut (h : Follows max s consumed)
    (hstep : step max s .timeOut = some s') : Follows max s' consumed := by
  rw [step] at hstep
  split at hstep
  case h_2 => cases hstep
  case h_1 caller hcaller =>
    split at hstep
    · cases hstep
      exact ⟨h.arrived, h.position, by rw [h.messages, received_error], h.settled,
        fun hcaller => by cases hcaller⟩
    · cases hstep

theorem follows_step (h : Follows max s consumed) {move : Move} (hponged : move.Ponged)
    (hstep : step max s move = some s') : ∃ more, Follows max s' (consumed ++ more) := by
  cases move with
  | arrive chunk =>
    cases hstep
    refine ⟨[], ?_⟩
    rw [append_nil]
    exact ⟨by rw [h.arrived, append_assoc], h.position, h.messages, h.settled, h.caller⟩
  | call caller => exact ⟨[], by rw [append_nil]; exact follows_call h hstep⟩
  | work pongError =>
    obtain rfl : pongError = none := hponged
    obtain ⟨b, hb⟩ := follows_work h hstep
    exact ⟨[b], hb⟩
  | deliver => exact ⟨[], by rw [append_nil]; exact follows_deliver h hstep⟩
  | timeOut => exact ⟨[], by rw [append_nil]; exact follows_timeOut h hstep⟩

theorem follows_run (h : Follows max s consumed) {moves : List Move}
    (hponged : ∀ move ∈ moves, move.Ponged) (hrun : run (step max) s moves = some s') :
    ∃ more, Follows max s' (consumed ++ more) := by
  induction moves generalizing s consumed with
  | nil =>
    cases hrun
    exact ⟨[], by rwa [append_nil]⟩
  | cons move moves ih =>
    obtain ⟨s₁, hstep, hrest⟩ := run_cons_some hrun
    obtain ⟨more, hmore⟩ := follows_step h (hponged move mem_cons_self) hstep
    obtain ⟨later, hlater⟩ :=
      ih hmore (fun move hmove => hponged move (mem_cons_of_mem _ hmove)) hrest
    exact ⟨more ++ later, by rwa [append_assoc] at hlater⟩

theorem closed_run (h : Follows max s consumed) (hclosed : s.closed = true) {moves : List Move}
    (hponged : ∀ move ∈ moves, move.Ponged) (hrun : run (step max) s moves = some s') :
    received s'.results ++ successes (waiting s'.pendingRead) =
      received s.results ++ successes (waiting s.pendingRead) := by
  obtain ⟨more, hmore⟩ := follows_run h hponged hrun
  rw [← hmore.messages, ← h.messages, drain_append, h.position, hclosed, Position.of_closed,
    drain_closed, append_nil]

/-! ## Nobody is stuck -/

theorem gets_ready (h : Follows max s consumed) (hopen : s.closed = false) :
    ∃ moves s', (∀ move ∈ moves, move.Ponged) ∧ run (step max) s moves = some s' ∧
      s'.arrived = s.arrived ∧ s'.buffer = s.buffer ∧
        ∃ next a, s'.pendingRead = some (.reading (.need next) a) := by
  let caller : Caller := ⟨.text, false⟩
  obtain ⟨next, hnext⟩ := receiveFrame_need max
  have hstart : PendingRead.start max = .reading (.need next) {} := by
    rw [← hnext]
    rfl
  have hcaller := h.caller
  have hreading := h.settled.reading
  obtain ⟨buffer, pendingRead, closed, waits, arrived, results⟩ := s
  cases hopen
  cases pendingRead with
  | none =>
    cases waits with
    | some _ => cases hcaller rfl
    | none =>
      refine ⟨[.call caller], _, ?_, rfl, rfl, rfl, next, {}, congrArg some hstart⟩
      exact forall_mem_singleton.mpr trivial
  | some r =>
    cases r with
    | reading r a =>
      obtain ⟨-, next', rfl⟩ := hreading r a rfl
      exact ⟨[], _, forall_mem_nil _, rfl, rfl, rfl, next', a, rfl⟩
    | finished outcome =>
      cases waits with
      | some _ =>
        refine ⟨[.deliver, .call caller], _, ?_, rfl, rfl, rfl, next, {}, congrArg some hstart⟩
        simp [Move.Ponged]
      | none =>
        refine ⟨[.call caller, .deliver, .call caller], _, ?_, rfl, rfl, rfl, next, {},
          congrArg some hstart⟩
        simp [Move.Ponged]

theorem reads_all {size : Nat} (h : Follows max s consumed) (hsize : s.buffer.length = size) :
    ∃ moves s', (∀ move ∈ moves, move.Ponged) ∧ run (step max) s moves = some s' ∧
      s'.arrived = s.arrived ∧ (s'.buffer = [] ∨ s'.closed = true) ∧
        successes (waiting s'.pendingRead) = [] := by
  induction size generalizing s consumed with
  | zero =>
    by_cases hclosed : s.closed = true
    · exact ⟨[], s, forall_mem_nil _, rfl, rfl, Or.inr hclosed, h.settled.finished hclosed⟩
    · obtain ⟨moves, s', hponged, hrun, harrived, hbuffer, next, a, hpending⟩ :=
        gets_ready h (Bool.eq_false_of_not_eq_true hclosed)
      refine ⟨moves, s', hponged, hrun, harrived, Or.inl ?_, ?_⟩
      · rw [hbuffer, length_eq_zero_iff.mp hsize]
      · rw [hpending]
        rfl
  | succ size ih =>
    by_cases hclosed : s.closed = true
    · exact ⟨[], s, forall_mem_nil _, rfl, rfl, Or.inr hclosed, h.settled.finished hclosed⟩
    · obtain ⟨moves, s₁, hponged, hrun, harrived, hbuffer, next, a, hpending⟩ :=
        gets_ready h (Bool.eq_false_of_not_eq_true hclosed)
      obtain ⟨b, rest, hrest⟩ := exists_cons_of_length_eq_add_one (hbuffer ▸ hsize)
      obtain ⟨s₂, hstep, hbuffer₂, harrived₂⟩ : ∃ s₂, step max s₁ (.work none) = some s₂ ∧
          s₂.buffer = rest ∧ s₂.arrived = s₁.arrived := by
        rw [step, hpending, hrest]
        exact ⟨_, rfl, rfl, rfl⟩
      obtain ⟨more, hfollows⟩ := follows_run h hponged hrun
      obtain ⟨b', hfollows₂⟩ := follows_work hfollows hstep
      have hsize₂ : s₂.buffer.length = size := by
        have hlength := hbuffer ▸ hsize
        rw [hrest, length_cons] at hlength
        rw [hbuffer₂]
        omega
      obtain ⟨later, s', hponged', hrun', harrived', hdone⟩ := ih hfollows₂ hsize₂
      refine ⟨moves ++ .work none :: later, s', ?_, ?_, ?_, hdone⟩
      · intro move hmove
        rcases mem_append.mp hmove with hmove | hmove
        · exact hponged move hmove
        rcases mem_cons.mp hmove with rfl | hmove
        · rfl
        · exact hponged' move hmove
      · rw [run_append, hrun, Option.bind_some, run_cons hstep, hrun']
      · rw [harrived', harrived₂, harrived]

end Conn

end Kryndel.WebSocket
