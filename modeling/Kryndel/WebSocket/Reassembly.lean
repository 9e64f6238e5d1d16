import Kryndel.WebSocket.Receive

/-!
# Messages over a WebSocket

A server sends text and binary messages, each of them as one frame or as several, with control
frames in front of any of them. The program receives the messages within the limit, each once and
in the order they were sent in, however the bytes come in and however often a caller gives up in
between. A frame that is longer than the limit closes the connection, even if messages follow it
that are not, and so does the server's own frame for that.
-/

namespace Kryndel.WebSocket

open Reading Systems List

/-! ## What a server sends -/

/-- The frames that are not parts of messages. -/
inductive ControlKind where
  | close
  | ping
  | pong
deriving DecidableEq, Repr

def ControlKind.opcode : ControlKind → UInt8
  | close => 0x8
  | ping => 0x9
  | pong => 0xA

theorem ControlKind.opcode_range (kind : ControlKind) : 8 ≤ kind.opcode ∧ kind.opcode < 16 := by
  cases kind <;> decide

/-- A control frame. -/
structure Control where
  kind : ControlKind
  payload : List UInt8
  short : payload.length ≤ 125

def Control.frame (c : Control) : Frame := ⟨true, c.kind.opcode, c.payload⟩

/-- A part of a message, and the control frames in front of it. -/
structure Fragment where
  before : List Control
  payload : List UInt8
  short : payload.length < 2 ^ 63

/-- The frame of a part of a message. -/
def Fragment.frame (x : Fragment) (opcode : UInt8) (fin : Bool) : Frame := ⟨fin, opcode, x.payload⟩

def Fragment.frames (x : Fragment) (opcode : UInt8) (fin : Bool) : List Frame :=
  x.before.map Control.frame ++ [x.frame opcode fin]

/-- The frames after the first one. -/
def continuations : List Fragment → List Frame
  | [] => []
  | x :: rest => x.frames 0x0 rest.isEmpty ++ continuations rest

/-- A message in its parts. -/
structure Sent where
  kind : Kind
  first : Fragment
  rest : List Fragment

namespace Sent

def frames (m : Sent) : List Frame :=
  m.first.frames m.kind.opcode m.rest.isEmpty ++ continuations m.rest

def message (m : Sent) : Message where
  opcode := m.kind.opcode
  payload := m.first.payload ++ m.rest.flatMap Fragment.payload

end Sent

/-- The frames of some messages, and of what comes after them. -/
def streamFrames (sent : List Sent) (after : List Control) : List Frame :=
  sent.flatMap Sent.frames ++ after.map Control.frame

def streamBytes (sent : List Sent) (after : List Control) : List UInt8 :=
  (streamFrames sent after).flatMap encodeFrame

/-- A frame that closes the connection. -/
def Frame.Ends (max : Nat) (f : Frame) : Prop := max < f.payload.length ∨ f.opcode = 0x8

instance (max : Nat) (f : Frame) : Decidable (f.Ends max) :=
  inferInstanceAs (Decidable (_ ∨ _))

/-- A message whose frames leave the connection open. -/
def Sent.Whole (max : Nat) (m : Sent) : Prop := ∀ f ∈ m.frames, ¬f.Ends max

instance (max : Nat) (m : Sent) : Decidable (m.Whole max) :=
  inferInstanceAs (Decidable (∀ f ∈ m.frames, ¬f.Ends max))

/-- The messages that a program receives: those within the limit, up to the first frame that
closes the connection. -/
def delivered (max : Nat) (sent : List Sent) : List Message :=
  ((sent.takeWhile fun m => m.Whole max).map Sent.message).filter fun m => m.payload.length ≤ max

/-! ## Frame by frame -/

/-- The reader between two frames, if the connection is open. -/
def Position.between (max : Nat) (a : Option Assembly) : Position :=
  a.map fun a => (receiveFrame max, a)

/-- What a whole frame says. -/
def turn (max : Nat) (a : Option Assembly) (f : Frame) : Option Assembly × List Outcome :=
  match a with
  | none => (none, [])
  | some a =>
    if max < f.payload.length then (none, [.error "WebSocket frame exceeds configured limit"])
    else match assemble max a f with
      | .again a' => (some a', [])
      | .pong _ => (some a, [])
      | .leave outcome => (some {}, [outcome])
      | .shut error => (none, [.error error])

/-- What some frames say. -/
def turns (max : Nat) (a : Option Assembly) : List Frame → Option Assembly × List Outcome
  | [] => (a, [])
  | f :: fs =>
    let here := turn max a f
    let later := turns max here.1 fs
    (later.1, here.2 ++ later.2)

theorem turns_append (max : Nat) (a : Option Assembly) (fs fs' : List Frame) :
    turns max a (fs ++ fs') =
      ((turns max (turns max a fs).1 fs').1,
        (turns max a fs).2 ++ (turns max (turns max a fs).1 fs').2) := by
  induction fs generalizing a with
  | nil => rfl
  | cons f fs ih =>
    rw [cons_append, turns, ih]
    simp only [turns, append_assoc]

theorem drain_takes (max : Nat) {r : Reader UInt8 (Except String Frame)} {bytes : List UInt8}
    {answer : Except String Frame} (h : Takes r bytes answer) (hneed : ∃ next, r = .need next)
    (a : Assembly) :
    drain max (some (r, a)) bytes = Position.next max (goOn max none (.done answer) a) := by
  induction h with
  | done _ =>
    obtain ⟨next, hnext⟩ := hneed
    cases hnext
  | @need next b bytes answer h ih =>
    rw [drain, Position.advance]
    cases hnext : next b with
    | done answer' =>
      rw [hnext] at h
      cases h
      simp only [drain, append_nil]
    | need next' =>
      simp only [goOn, Position.next, nil_append]
      rw [← hnext]
      exact ih ⟨next', hnext⟩

variable {f : Frame}

theorem drain_frame (max : Nat) (hf : f.Lawful) (a : Option Assembly) :
    drain max (.between max a) (encodeFrame f) =
      (Position.between max (turn max a f).1, (turn max a f).2) := by
  cases a with
  | none => exact drain_closed max _
  | some a =>
    rw [turn]
    split
    · next hlong =>
      have hheader := drain_takes max (takes_long hf hlong) (receiveFrame_need max) a
      rw [encodeFrame, drain_append]
      simp only [Position.between, Option.map_some]
      rw [hheader]
      simp only [goOn, Position.next, if_true, drain_closed, append_nil, Option.map_none]
    · next hle =>
      have hframe := drain_takes max (takes_encodeFrame hf (Nat.le_of_not_lt hle))
        (receiveFrame_need max) a
      simp only [Position.between, Option.map_some]
      rw [hframe, goOn]
      cases assemble max a f <;> rfl

variable {fs : List Frame}

theorem drain_frames (max : Nat) (hfs : ∀ f ∈ fs, f.Lawful) (a : Option Assembly) :
    drain max (.between max a) (fs.flatMap encodeFrame) =
      (Position.between max (turns max a fs).1, (turns max a fs).2) := by
  induction fs generalizing a with
  | nil => rfl
  | cons f fs ih =>
    obtain ⟨hf, hfs⟩ := forall_mem_cons.mp hfs
    rw [flatMap_cons, drain_append, drain_frame max hf, ih hfs, turns]

/-! ## Message by message -/

theorem turns_closed (max : Nat) (fs : List Frame) : turns max none fs = (none, []) := by
  induction fs with
  | nil => rfl
  | cons f fs ih => simp only [turns, turn, ih, append_nil]

variable {max : Nat}

theorem turn_control {c : Control} (h : ¬c.frame.Ends max) (a : Assembly) :
    turn max (some a) c.frame = (some a, []) := by
  obtain ⟨kind, payload, hshort⟩ := c
  obtain ⟨hle, hopcode⟩ := not_or.mp h
  rw [turn, if_neg hle]
  cases kind with
  | close => cases hopcode rfl
  | ping | pong => simp [assemble, Control.frame, ControlKind.opcode, Nat.not_lt.mpr hshort]

theorem turn_ends (hf : f.Lawful) (h : f.Ends max) (a : Option Assembly) :
    (turn max a f).1 = none := by
  cases a with
  | none => rfl
  | some a =>
    rw [turn]
    split
    · rfl
    · next hle =>
      have hopcode := h.resolve_left hle
      obtain ⟨hfin, hshort⟩ := hf.control (by rw [hopcode]; decide)
      simp [assemble, hopcode, hfin, Nat.not_lt.mpr hshort]

theorem turns_ends (hfs : ∀ f ∈ fs, f.Lawful) (h : ∃ f ∈ fs, f.Ends max) (a : Option Assembly) :
    (turns max a fs).1 = none := by
  induction fs generalizing a with
  | nil =>
    obtain ⟨f, hf, -⟩ := h
    cases hf
  | cons f fs ih =>
    obtain ⟨hf, hfs⟩ := forall_mem_cons.mp hfs
    rw [turns]
    by_cases hends : f.Ends max
    · rw [turn_ends hf hends, turns_closed]
    · obtain ⟨f', hf', hends'⟩ := h
      rcases mem_cons.mp hf' with rfl | hf'
      · cases hends hends'
      · exact ih hfs ⟨f', hf', hends'⟩ _

/-- A frame in the middle of a message, or between messages. -/
def Frame.Inside (f : Frame) : Prop := f.fin = false ∨ 8 ≤ f.opcode

theorem not_inside_of_assemble {a : Assembly} {m : Message}
    (h : assemble max a f = .leave (.ok m)) :
    ¬f.Inside := by
  have hdata : f.fin = true ∧ (f.opcode = 0x0 ∨ f.opcode = 0x1 ∨ f.opcode = 0x2) := by
    unfold assemble at h
    split_ifs at h <;> simp_all
  obtain ⟨hfin, hopcode⟩ := hdata
  rintro (hrest | hcontrol)
  · rw [hfin] at hrest
    cases hrest
  · rcases hopcode with hopcode | hopcode | hopcode <;>
      exact absurd (hopcode ▸ hcontrol) (by decide)

theorem turn_inside (h : f.Inside) (a : Option Assembly) :
    successes (turn max a f).2 = [] := by
  cases a with
  | none => rfl
  | some a =>
    rw [turn]
    split
    · rfl
    · cases hassemble : assemble max a f with
      | again => rfl
      | pong => rfl
      | shut => rfl
      | leave outcome =>
        cases outcome with
        | error => rfl
        | ok m => cases not_inside_of_assemble hassemble h

theorem turns_inside (h : ∀ f ∈ fs, f.Inside) (a : Option Assembly) :
    successes (turns max a fs).2 = [] := by
  induction fs generalizing a with
  | nil => rfl
  | cons f fs ih =>
    obtain ⟨hf, hfs⟩ := forall_mem_cons.mp h
    rw [turns, successes_append, turn_inside hf, ih hfs]
    rfl

theorem inside_control (c : Control) : c.frame.Inside := Or.inr c.kind.opcode_range.1

theorem lawful_control (c : Control) : c.frame.Lawful where
  opcode := c.kind.opcode_range.2
  length := Nat.lt_of_le_of_lt c.short (by decide)
  control _ := ⟨rfl, c.short⟩

theorem lawful_fragment (x : Fragment) {opcode : UInt8} (h : opcode < 8) (fin : Bool) :
    ∀ f ∈ x.frames opcode fin, f.Lawful := by
  intro f hf
  rcases mem_append.mp hf with hf | hf
  · obtain ⟨c, -, rfl⟩ := mem_map.mp hf
    exact lawful_control c
  · obtain rfl := mem_singleton.mp hf
    exact ⟨UInt8.lt_trans h (by decide), x.short, fun hge => absurd hge (UInt8.not_le.mpr h)⟩

theorem lawful_continuations (rest : List Fragment) : ∀ f ∈ continuations rest, f.Lawful := by
  induction rest with
  | nil => exact forall_mem_nil _
  | cons x rest ih =>
    intro f hf
    rcases mem_append.mp hf with hf | hf
    · exact lawful_fragment x (by decide) _ f hf
    · exact ih f hf

theorem Sent.lawful (m : Sent) : ∀ f ∈ m.frames, f.Lawful := by
  intro f hf
  rcases mem_append.mp hf with hf | hf
  · exact lawful_fragment m.first (by cases m.kind <;> decide) _ f hf
  · exact lawful_continuations m.rest f hf

theorem lawful_stream (sent : List Sent) (after : List Control) :
    ∀ f ∈ streamFrames sent after, f.Lawful := by
  intro f hf
  rcases mem_append.mp hf with hf | hf
  · obtain ⟨m, -, hf⟩ := mem_flatMap.mp hf
    exact m.lawful f hf
  · obtain ⟨c, -, rfl⟩ := mem_map.mp hf
    exact lawful_control c

/-! ## Messages that are cut off -/

theorem inside_before (x : Fragment) : ∀ f ∈ x.before.map Control.frame, f.Inside := by
  intro f hf
  obtain ⟨c, -, rfl⟩ := mem_map.mp hf
  exact inside_control c

theorem inside_fragment (x : Fragment) (opcode : UInt8) :
    ∀ f ∈ x.frames opcode false, f.Inside := by
  intro f hf
  rcases mem_append.mp hf with hf | hf
  · exact inside_before x f hf
  · obtain rfl := mem_singleton.mp hf
    exact Or.inl rfl

theorem inside_continuations (x : Fragment) (rest : List Fragment) :
    ∃ init last, continuations (x :: rest) = init ++ [last] ∧ ∀ f ∈ init, f.Inside := by
  induction rest generalizing x with
  | nil => exact ⟨x.before.map Control.frame, _, append_nil _, inside_before x⟩
  | cons y rest ih =>
    obtain ⟨init, last, heq, hinit⟩ := ih y
    refine ⟨x.frames 0x0 false ++ init, last, ?_, ?_⟩
    · rw [continuations, heq, append_assoc]
      rfl
    · exact forall_mem_append.mpr ⟨inside_fragment x 0x0, hinit⟩

theorem Sent.inside (m : Sent) :
    ∃ init last, m.frames = init ++ [last] ∧ ∀ f ∈ init, f.Inside := by
  obtain ⟨kind, first, rest⟩ := m
  cases rest with
  | nil => exact ⟨first.before.map Control.frame, _, append_nil _, inside_before first⟩
  | cons x rest =>
    obtain ⟨init, last, heq, hinit⟩ := inside_continuations x rest
    refine ⟨first.frames kind.opcode false ++ init, last, ?_, ?_⟩
    · rw [frames, heq, append_assoc]
      rfl
    · exact forall_mem_append.mpr ⟨inside_fragment first kind.opcode, hinit⟩

theorem turn_ends_quiet (h : f.Ends max) (a : Option Assembly) :
    successes (turn max a f).2 = [] := by
  cases a with
  | none => rfl
  | some a =>
    rcases h with hlong | hopcode
    · rw [turn, if_pos hlong]
      rfl
    · exact turn_inside (Or.inr (by rw [hopcode]; decide)) _

/-- Where a frame closes the connection inside of a message, the message is not received. -/
theorem turns_cut {m : Sent} (h : ¬m.Whole max) (a : Option Assembly) :
    (turns max a m.frames).1 = none ∧ successes (turns max a m.frames).2 = [] := by
  have hends : ∃ f ∈ m.frames, f.Ends max := by
    simpa [Sent.Whole] using h
  refine ⟨turns_ends m.lawful hends a, ?_⟩
  obtain ⟨init, last, heq, hinit⟩ := m.inside
  have hlawful := m.lawful
  rw [heq] at hends hlawful ⊢
  have hlast : successes (turn max (turns max a init).1 last).2 = [] := by
    obtain ⟨f, hf, hends⟩ := hends
    rcases mem_append.mp hf with hf | hf
    · rw [turns_ends (fun f hf => hlawful f (mem_append_left _ hf)) ⟨f, hf, hends⟩]
      rfl
    · obtain rfl := mem_singleton.mp hf
      exact turn_ends_quiet hends _
  rw [turns_append, successes_append, turns_inside hinit]
  simpa [turns] using hlast

/-! ## Messages that are not -/

variable {x : Fragment}

theorem turns_fragment {opcode : UInt8} {fin : Bool} (h : ∀ f ∈ x.frames opcode fin, ¬f.Ends max)
    (a : Assembly) :
    turns max (some a) (x.frames opcode fin) = turn max (some a) (x.frame opcode fin) := by
  have hbefore : ∀ cs : List Control, (∀ c ∈ cs, ¬c.frame.Ends max) →
      turns max (some a) (cs.map Control.frame) = (some a, []) := by
    intro cs hcs
    induction cs with
    | nil => rfl
    | cons c cs ih =>
      obtain ⟨hc, hcs⟩ := forall_mem_cons.mp hcs
      rw [map_cons, turns, turn_control hc, ih hcs]
      rfl
  rw [Fragment.frames, turns_append, hbefore]
  · simp [turns]
  · intro c hc
    exact h c.frame (mem_append_left _ (mem_map_of_mem hc))

variable {rest : List Fragment}

theorem turns_spilled (h : ∀ f ∈ continuations rest, ¬f.Ends max) :
    (turns max (some {}) (continuations rest)).1 = some {} ∧
      successes (turns max (some {}) (continuations rest)).2 = [] := by
  induction rest with
  | nil => exact ⟨rfl, rfl⟩
  | cons x rest ih =>
    obtain ⟨hx, hrest⟩ := forall_mem_append.mp h
    obtain ⟨hend, hquiet⟩ := ih hrest
    have hle := (not_or.mp (hx (x.frame 0x0 rest.isEmpty)
      (mem_append_right _ (mem_singleton_self _)))).1
    have hturn : turn max (some {}) (x.frame 0x0 rest.isEmpty) =
        (some {}, [.error "unexpected WebSocket continuation frame"]) := by
      rw [turn, if_neg hle]
      rfl
    rw [continuations, turns_append, turns_fragment hx, hturn]
    exact ⟨hend, by rw [successes_append, hquiet]; rfl⟩

theorem turn_collecting {fin : Bool} (opcode : UInt8) (message : List UInt8)
    (h : ¬(x.frame 0x0 fin).Ends max) :
    turn max (some ⟨opcode, message, true⟩) (x.frame 0x0 fin) =
      if max < message.length + x.payload.length then
        (some {}, [.error "WebSocket message exceeds configured limit"])
      else if fin then (some {}, [.ok ⟨opcode, message ++ x.payload⟩])
      else (some ⟨opcode, message ++ x.payload, true⟩, []) := by
  rw [turn, if_neg (not_or.mp h).1]
  by_cases hlong : max < message.length + x.payload.length
  · have hint : (x.payload.length : Int) > max - message.length := by omega
    simp [assemble, Fragment.frame, hlong, hint]
  · have hint : ¬(x.payload.length : Int) > max - message.length := by omega
    cases fin <;> simp [assemble, Fragment.frame, hlong, hint]

theorem turns_collecting {opcode : UInt8} {message : List UInt8}
    (h : ∀ f ∈ continuations (x :: rest), ¬f.Ends max) :
    (turns max (some ⟨opcode, message, true⟩) (continuations (x :: rest))).1 = some {} ∧
      successes (turns max (some ⟨opcode, message, true⟩) (continuations (x :: rest))).2 =
        [⟨opcode, message ++ (x :: rest).flatMap Fragment.payload⟩].filter
          fun m => m.payload.length ≤ max := by
  induction rest generalizing message x with
  | nil =>
    have hx : ∀ f ∈ x.frames 0x0 true, ¬f.Ends max := (forall_mem_append.mp h).1
    have hturn := turn_collecting opcode message
      (hx (x.frame 0x0 true) (mem_append_right _ (mem_singleton_self _)))
    rw [continuations, continuations, append_nil, isEmpty_nil, turns_fragment hx, hturn,
      flatMap_cons, flatMap_nil, append_nil]
    by_cases hlong : max < message.length + x.payload.length
    · rw [if_pos hlong, filter_cons_of_neg (by simpa using hlong)]
      exact ⟨rfl, rfl⟩
    · rw [if_neg hlong, filter_cons_of_pos (by simpa using hlong)]
      exact ⟨rfl, rfl⟩
  | cons y rest ih =>
    obtain ⟨hx, hrest⟩ : (∀ f ∈ x.frames 0x0 false, ¬f.Ends max) ∧
        ∀ f ∈ continuations (y :: rest), ¬f.Ends max := forall_mem_append.mp h
    have hturn := turn_collecting opcode message
      (hx (x.frame 0x0 false) (mem_append_right _ (mem_singleton_self _)))
    rw [continuations, isEmpty_cons, turns_append, turns_fragment hx, hturn,
      flatMap_cons]
    by_cases hlong : max < message.length + x.payload.length
    · -- what follows is given up as well
      obtain ⟨hend, hquiet⟩ := turns_spilled hrest
      rw [if_pos hlong, filter_cons_of_neg (by simp; omega)]
      exact ⟨hend, by rw [successes_append, hquiet]; rfl⟩
    · rw [if_neg hlong, ← append_assoc]
      exact ih hrest

theorem turns_whole {m : Sent} (h : m.Whole max) :
    (turns max (some {}) m.frames).1 = some {} ∧
      successes (turns max (some {}) m.frames).2 =
        [m.message].filter fun m => m.payload.length ≤ max := by
  obtain ⟨kind, first, rest⟩ := m
  obtain ⟨hfirst, hrest⟩ := forall_mem_append.mp h
  have hle : ¬max < first.payload.length := (not_or.mp (hfirst (first.frame kind.opcode _)
    (mem_append_right _ (mem_singleton_self _)))).1
  have hturn : turn max (some {}) (first.frame kind.opcode rest.isEmpty) =
      if rest.isEmpty then (some {}, [.ok ⟨kind.opcode, first.payload⟩])
      else (some ⟨kind.opcode, first.payload, true⟩, []) := by
    rw [turn, if_neg (show ¬max < (first.frame kind.opcode rest.isEmpty).payload.length from hle)]
    cases kind <;> cases rest.isEmpty <;> simp [assemble, Fragment.frame, Kind.opcode, hle]
  rw [Sent.frames, turns_append, turns_fragment hfirst, hturn]
  cases rest with
  | nil =>
    rw [Sent.message, flatMap_nil, append_nil,
      filter_cons_of_pos (by simpa using hle)]
    exact ⟨rfl, rfl⟩
  | cons x rest => exact turns_collecting hrest

/-! ## All that is sent -/

theorem turns_stream (max : Nat) (sent : List Sent) (after : List Control) :
    successes (turns max (some {}) (streamFrames sent after)).2 = delivered max sent := by
  induction sent with
  | nil =>
    apply turns_inside
    intro f hf
    obtain ⟨c, -, rfl⟩ := mem_map.mp hf
    exact inside_control c
  | cons m sent ih =>
    have hframes : streamFrames (m :: sent) after = m.frames ++ streamFrames sent after := by
      rw [streamFrames, flatMap_cons, append_assoc]
      rfl
    rw [hframes, turns_append, successes_append]
    by_cases hm : m.Whole max
    · obtain ⟨hend, hmessage⟩ := turns_whole hm
      rw [hend, hmessage, ih, delivered, delivered, takeWhile_cons_of_pos (by simpa using hm),
        map_cons, ← filter_append]
      rfl
    · obtain ⟨hend, hquiet⟩ := turns_cut hm (some {})
      rw [hend, hquiet, turns_closed, delivered, takeWhile_cons_of_neg (by simpa using hm)]
      rfl

theorem drain_stream (max : Nat) (sent : List Sent) (after : List Control) :
    successes (drain max (.start max) (streamBytes sent after)).2 = delivered max sent := by
  have hdrain := drain_frames max (lawful_stream sent after) (some {})
  rw [streamBytes, show Position.start max = Position.between max (some {}) from rfl, hdrain]
  exact turns_stream max sent after

theorem follows_stream {s : Conn} {consumed rest bytes : List UInt8} (h : s.Follows max consumed)
    (hbytes : s.arrived ++ rest = bytes) :
    received s.results ++ successes (waiting s.pendingRead) <+:
        successes (drain max (.start max) bytes).2 ∧
      (rest = [] → s.buffer = [] ∨ s.closed = true →
        received s.results ++ successes (waiting s.pendingRead) =
          successes (drain max (.start max) bytes).2) := by
  rw [← hbytes, h.arrived, append_assoc, drain_append, successes_append, h.messages,
    h.position]
  refine ⟨prefix_append _ _, ?_⟩
  rintro rfl (hbuffer | hclosed)
  · rw [hbuffer]
    exact (append_nil _).symm
  · rw [hclosed, Position.of_closed, drain_closed]
    exact (append_nil _).symm

/-- Whatever a server sends, in whatever pieces it arrives, and whichever callers give up: if
pongs are written, callers get the messages within the limit, up to a frame that closes the
connection, in their order. None is missing when all has been read or the connection is closed,
and nothing can keep callers from getting all of them. -/
theorem delivered_received (max : Nat) (sent : List Sent) (after : List Control)
    (moves : List Move) (s : Conn) (hponged : ∀ move ∈ moves, move.Ponged)
    (hrun : run (step max) {} moves = some s) (hbytes : s.arrived <+: streamBytes sent after) :
    received s.results <+: delivered max sent ∧
      (s.arrived = streamBytes sent after →
        (s.buffer = [] ∨ s.closed = true →
          received s.results ++ successes (waiting s.pendingRead) = delivered max sent) ∧
        ∃ later s', (∀ move ∈ later, move.Ponged) ∧ run (step max) s later = some s' ∧
          received s'.results = delivered max sent) := by
  obtain ⟨consumed, hfollows⟩ := Conn.follows_run (Conn.follows_start max) hponged hrun
  obtain ⟨rest, hrest⟩ := hbytes
  obtain ⟨hpart, hall⟩ := follows_stream hfollows hrest
  rw [drain_stream] at hpart hall
  refine ⟨(prefix_append _ _).trans hpart, fun harrived => ?_⟩
  obtain rfl : rest = [] := by
    rw [harrived] at hrest
    exact append_right_eq_self.mp hrest
  refine ⟨hall rfl, ?_⟩
  obtain ⟨later, s', hlater, hrun', harrived', hdone, hquiet⟩ := Conn.reads_all hfollows rfl
  obtain ⟨more, hfollows'⟩ := Conn.follows_run hfollows hlater hrun'
  have hend := (follows_stream hfollows' (harrived' ▸ hrest)).2 rfl hdone
  rw [hquiet, append_nil, drain_stream] at hend
  exact ⟨later, s', hlater, hrun', hend⟩

/-- One message in two parts, with a ping between them. -/
def parted : Sent where
  kind := .text
  first := ⟨[], [0x61], by decide⟩
  rest := [⟨[⟨.ping, [], by decide⟩], [0x62], by decide⟩]

/-- A caller gives up inside of the first part; the next one gets the whole message. -/
def pausedMoves : List Move :=
  [.arrive [0x01, 0x01], .call ⟨.text, true⟩, .work none, .work none, .timeOut,
    .arrive [0x61, 0x89, 0x00], .work none, .work none, .arrive [0x80, 0x01, 0x62], .work none,
    .call ⟨.text, true⟩, .work none, .work none, .work none, .deliver]

theorem parted_received : ∃ s, run (step 2) {} pausedMoves = some s ∧
    received s.results <+: delivered 2 [parted] ∧
      received s.results = [⟨0x1, [0x61, 0x62]⟩] := by
  have hponged : ∀ move ∈ pausedMoves, move.Ponged := by
    simp [pausedMoves, Move.Ponged]
  exact ⟨_, rfl, (delivered_received 2 [parted] [] pausedMoves _ hponged rfl
    ⟨[], by decide⟩).1, rfl⟩

/-! ## A frame that is too long -/

/-- A message of two bytes and one of a single byte. -/
def longAndShort : List Sent :=
  [⟨.text, ⟨[], [0x61, 0x62], by decide⟩, []⟩, ⟨.text, ⟨[], [0x63], by decide⟩, []⟩]

/-- If only one byte is allowed, the second message is allowed, but it is never received. -/
theorem short_not_received : (longAndShort.map fun m => m.message.payload.length) = [2, 1] ∧
    ∃ moves s, run (step 1) {} moves = some s ∧ s.arrived = streamBytes longAndShort [] ∧
      ∀ later s', (∀ move ∈ later, move.Ponged) → run (step 1) s later = some s' →
        received s'.results = [] := by
  let moves : List Move :=
    [.arrive (streamBytes longAndShort []), .call ⟨.text, false⟩, .work none, .work none, .deliver]
  have hponged : ∀ move ∈ moves, move.Ponged := by
    simp [moves, Move.Ponged]
  obtain ⟨s, hrun, harrived, hclosed, hnothing⟩ : ∃ s, run (step 1) {} moves = some s ∧
      s.arrived = streamBytes longAndShort [] ∧ s.closed = true ∧
        received s.results ++ successes (waiting s.pendingRead) = [] :=
    ⟨_, rfl, rfl, rfl, rfl⟩
  obtain ⟨consumed, hfollows⟩ := Conn.follows_run (Conn.follows_start 1) hponged hrun
  refine ⟨rfl, moves, s, hrun, harrived, ?_⟩
  intro later s' hlater hrun'
  have hclosed' := Conn.closed_run hfollows hclosed hlater hrun'
  rw [hnothing] at hclosed'
  exact (append_eq_nil_iff.mp hclosed').1

end Kryndel.WebSocket
