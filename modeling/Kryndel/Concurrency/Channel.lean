import Kryndel.Systems.Run
import Kryndel.Values.Copyable
import Mathlib.Logic.Function.Basic

/-!
# Channels

Threads that send to a channel, receive from it and close it. A call checks its arguments,
and most sends look whether the channel is closed; then it waits in a select, which takes
any of its cases that is ready. Other threads can move between the two.

## References

- `runtime.go`: `Channel`, `actor_send` to `actor_close`, `thread_send` to `thread_close`
-/

namespace Kryndel

/-! ## Channels and selects -/

/-- `Channel`: the buffer of `Data`, and whether `Done` is closed. `Closed` is set together
    with it, under a lock. -/
structure Channel where
  data : List Value := []
  capacity : Nat
  closed : Bool := false

/-- `newChannel` -/
def newChannel (capacity : Nat) : Channel := { capacity := max capacity 1 }

/-- `Channel.close` -/
def Channel.close (c : Channel) : Channel := { c with closed := true }

/-- `Channel.isClosed` -/
def Channel.isClosed (c : Channel) : Bool := c.closed

/-- The cases of a select. -/
inductive SelectCase where
  | data | done | context | timer | default
deriving DecidableEq, Repr

/-- What a builtin gives: a value, or a diagnostic. -/
abbrev BuiltinReply := Except String Value

/-- A builtin that sends. -/
structure SendBuiltin where
  timeout : Option Int64 := none
  notCopyable : String
  /-- What it gives when it finds the channel closed before its select, if it looks. -/
  closed : Option BuiltinReply
  select : List (SelectCase × BuiltinReply)

/-- A builtin that receives. -/
structure ReceiveBuiltin where
  timeout : Option Int64 := none
  select : Value → List (SelectCase × BuiltinReply)

/-- `resVal` with a text, for a failure. -/
def failed (text : String) : BuiltinReply := .ok (.result false (.string text))

def actorSend : SendBuiltin where
  notCopyable := "actor send requires a recursively Copy value"
  closed := some (.error "closed actor mailbox")
  select := [(.data, .ok .nil), (.done, .error "closed actor mailbox"),
    (.context, .error "actor send cancelled")]

def threadSend : SendBuiltin where
  notCopyable := "thread send requires a recursively Copy value"
  closed := some (.error "closed channel")
  select := [(.data, .ok .nil), (.done, .error "closed channel"),
    (.context, .error "send cancelled")]

def threadTrySend : SendBuiltin where
  notCopyable := "thread send requires a recursively Copy value"
  closed := some (failed "closed")
  select := [(.data, .ok (.result true .nil)), (.default, failed "full")]

-- This one does not look whether the channel is closed.
def threadSendTimeout (ms : Int64) : SendBuiltin where
  timeout := some ms
  notCopyable := "thread send requires a recursively Copy value"
  closed := none
  select := [(.data, .ok (.result true .nil)), (.done, failed "closed"),
    (.timer, failed "timeout")]

def actorTryReceive : ReceiveBuiltin where
  select v := [(.data, .ok (.result true v)), (.done, failed "closed"),
    (.default, failed "empty")]

def actorReceiveTimeout (ms : Int64) : ReceiveBuiltin where
  timeout := some ms
  select v := [(.data, .ok v), (.done, .error "closed actor mailbox"),
    (.timer, .error "actor receive timed out")]

def threadReceive : ReceiveBuiltin where
  select v := [(.data, .ok v), (.done, .error "closed channel"),
    (.context, .error "receive cancelled")]

def threadTryReceive : ReceiveBuiltin where
  select v := [(.data, .ok (.result true v)), (.done, failed "closed"),
    (.default, failed "empty")]

def threadReceiveTimeout (ms : Int64) : ReceiveBuiltin where
  timeout := some ms
  select v := [(.data, .ok v), (.done, .error "closed channel"),
    (.timer, .error "channel receive timed out")]

/-- The builtins that send. -/
inductive SendKind where
  | actorSend | threadSend | threadTrySend
  | threadSendTimeout (ms : Int64)

/-- The builtins that receive. -/
inductive ReceiveKind where
  | actorTryReceive
  | actorReceiveTimeout (ms : Int64)
  | threadReceive | threadTryReceive
  | threadReceiveTimeout (ms : Int64)

def SendKind.builtin : SendKind → SendBuiltin
  | .actorSend => Kryndel.actorSend
  | .threadSend => Kryndel.threadSend
  | .threadTrySend => Kryndel.threadTrySend
  | .threadSendTimeout ms => Kryndel.threadSendTimeout ms

def ReceiveKind.builtin : ReceiveKind → ReceiveBuiltin
  | .actorTryReceive => Kryndel.actorTryReceive
  | .actorReceiveTimeout ms => Kryndel.actorReceiveTimeout ms
  | .threadReceive => Kryndel.threadReceive
  | .threadTryReceive => Kryndel.threadTryReceive
  | .threadReceiveTimeout ms => Kryndel.threadReceiveTimeout ms

/-- A call of a builtin. -/
inductive ChannelCall where
  | send (kind : SendKind) (value : Value)
  | receive (kind : ReceiveKind)

/-- The timeout of a call, if it has one. -/
def ChannelCall.timeout : ChannelCall → Option Int64
  | .send kind _ => kind.builtin.timeout
  | .receive kind => kind.builtin.timeout

/-- What a call gives before it comes to its select, if it does not come to it. -/
def ChannelCall.start (c : Channel) (call : ChannelCall) : Option BuiltinReply :=
  if call.timeout.any (· < 0) then some (.error "timeout duration cannot be negative")
  else
    match call with
    | .send kind value =>
        if !copyableValue value then some (.error kind.builtin.notCopyable)
        else if c.isClosed then kind.builtin.closed
        else none
    | .receive _ => none

/-- Can a call communicate with the channel? -/
def Channel.communicates (c : Channel) : ChannelCall → Bool
  | .send _ _ => c.data.length < c.capacity
  | .receive _ => !c.data.isEmpty

/-- The cases of a call, and what it gives in each of them. A value that is received is the
    first one of the buffer. -/
def ChannelCall.select (c : Channel) : ChannelCall → List (SelectCase × BuiltinReply)
  | .send kind _ => kind.builtin.select
  | .receive kind => kind.builtin.select (c.data.headD .nil)

/-- Is a case other than `default` ready? The context may be done at any time, and a timer
    may have fired. -/
def Channel.ready (c : Channel) (call : ChannelCall) : SelectCase → Bool
  | .data => c.communicates call
  | .done => c.closed
  | .context | .timer => true
  | .default => false

/-- Can a select take a case? The default is for when no other case is ready. -/
def Channel.enabled (c : Channel) (call : ChannelCall) : SelectCase → Bool
  | .default => !(call.select c).any fun entry => c.ready call entry.1
  | case => c.ready call case

/-- The channel after a call has taken a case. -/
def Channel.after (c : Channel) : ChannelCall → SelectCase → Channel
  | .send _ value, .data => { c with data := c.data ++ [cloneValue value] }
  | .receive _, .data => { c with data := c.data.tail }
  | _, _ => c

/-! ## Threads -/

/-- What has happened: a call is completed, in its select or before it, or the channel is
    closed. -/
inductive ChannelEvent where
  | completed (call : ChannelCall) (case : Option SelectCase) (reply : BuiltinReply)
  | close

/-- A channel with the calls of the threads that wait in a select. -/
structure ChannelSystem where
  channel : Channel
  waiting : Nat → Option ChannelCall := fun _ => none
  log : List ChannelEvent := []

/-- A move of a thread. -/
inductive ChannelMove where
  | call (thread : Nat) (call : ChannelCall)
  | select (thread : Nat) (case : SelectCase)
  | close

/-- The moves. A select that has been waiting takes its case in a move of its own, so a
    run of the program, in which it takes it at once, is one of the runs here. -/
def ChannelSystem.step (s : ChannelSystem) : ChannelMove → Option ChannelSystem
  | .call thread call =>
      match s.waiting thread with
      | some _ => none
      | none =>
          match call.start s.channel with
          | some reply => some { s with log := s.log ++ [.completed call none reply] }
          | none => some { s with waiting := Function.update s.waiting thread (some call) }
  | .select thread case => do
      let call ← s.waiting thread
      let reply ← (call.select s.channel).lookup case
      if s.channel.enabled call case then
        some { channel := s.channel.after call case
               waiting := Function.update s.waiting thread none
               log := s.log ++ [.completed call (some case) reply] }
      else none
  | .close => some { s with channel := s.channel.close, log := s.log ++ [.close] }

/-- A channel that no one has used. -/
def ChannelSystem.initial (capacity : Nat) : ChannelSystem := { channel := newChannel capacity }

end Kryndel
