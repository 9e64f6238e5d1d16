import Kryndel.Concurrency.Channel

/-!
# Delivery through channels

Values come out of a channel in the order in which they went in, whatever the threads do.
That closing a channel ends its sends, and that a receive says `closed` only when nothing is
left to receive, depends on which case a select takes when two are ready: a channel that is
closed and can still communicate lets it take either.
-/

namespace Kryndel

open List Option

/-! ## Reports -/

/-- Does a reply report that a send has succeeded? -/
def reportsSent : BuiltinReply → Bool
  | .ok .nil | .ok (.result true .nil) => true
  | _ => false

/-- Does a receive report that the channel is closed? -/
def ReceiveKind.reportsClosed : ReceiveKind → BuiltinReply → Bool
  | .actorTryReceive, .ok (.result false (.string text))
  | .threadTryReceive, .ok (.result false (.string text)) => text == "closed"
  | .actorReceiveTimeout _, .error text => text == "closed actor mailbox"
  | .threadReceive, .error text | .threadReceiveTimeout _, .error text => text == "closed channel"
  | _, _ => false

/-- The value that a receive reports. -/
def ReceiveKind.reported : ReceiveKind → BuiltinReply → Option Value
  | .actorTryReceive, .ok (.result true v) | .threadTryReceive, .ok (.result true v) => some v
  | .actorReceiveTimeout _, .ok v | .threadReceive, .ok v | .threadReceiveTimeout _, .ok v => some v
  | _, _ => none

/-- The value of a send that has reported success. -/
def ChannelEvent.sent : ChannelEvent → Option Value
  | .completed (.send _ value) _ reply => if reportsSent reply then some (cloneValue value) else none
  | _ => none

/-- The value that a receive has reported. -/
def ChannelEvent.received : ChannelEvent → Option Value
  | .completed (.receive kind) _ reply => kind.reported reply
  | _ => none

/-- Has a receive reported that the channel is closed? -/
def ChannelEvent.reportsClosed : ChannelEvent → Bool
  | .completed (.receive kind) _ reply => kind.reportsClosed reply
  | _ => false

/-- The values whose sends have reported success. -/
def accepted (log : List ChannelEvent) : List Value := log.filterMap ChannelEvent.sent

/-- The values that have been received. -/
def received (log : List ChannelEvent) : List Value := log.filterMap ChannelEvent.received

/-- At every moment the values received are the first ones of those sent, each once and in
    order; no send succeeds after a close; and a receive that reports `closed` leaves nothing
    undelivered. -/
structure Delivery (log : List ChannelEvent) : Prop where
  inOrder : ∀ before, before <+: log → received before <+: accepted before
  afterClose : ∀ before event, before ++ [event] <+: log → ChannelEvent.close ∈ before →
    event.sent = none
  drained : ∀ before event, before ++ [event] <+: log → event.reportsClosed = true →
    received before = accepted before

theorem Delivery.nil : Delivery [] where
  inOrder := by
    intro before hbefore
    rw [prefix_nil.mp hbefore]
    exact prefix_refl _
  afterClose := by
    intro before event hbefore
    simp at hbefore
  drained := by
    intro before event hbefore
    simp at hbefore

variable {event : ChannelEvent}

theorem Delivery.snoc {log : List ChannelEvent} (h : Delivery log)
    (hinOrder : received (log ++ [event]) <+: accepted (log ++ [event]))
    (hafterClose : ChannelEvent.close ∈ log → event.sent = none)
    (hdrained : event.reportsClosed = true → received log = accepted log) :
    Delivery (log ++ [event]) where
  inOrder := by
    intro before hbefore
    rcases prefix_concat_iff.mp hbefore with rfl | hbefore
    · exact hinOrder
    · exact h.inOrder before hbefore
  afterClose := by
    intro before event' hbefore hclose
    rcases prefix_concat_iff.mp hbefore with heq | hbefore
    · obtain ⟨rfl, hlast⟩ := append_inj' heq rfl
      obtain rfl := singleton_inj.mp hlast
      exact hafterClose hclose
    · exact h.afterClose before event' hbefore hclose
  drained := by
    intro before event' hbefore hreports
    rcases prefix_concat_iff.mp hbefore with heq | hbefore
    · obtain ⟨rfl, hlast⟩ := append_inj' heq rfl
      obtain rfl := singleton_inj.mp hlast
      exact hdrained hreports
    · exact h.drained before event' hbefore hreports

/-! ## What the builtins report -/

variable {case : SelectCase} {reply : BuiltinReply}

theorem SendKind.reportsSent_select (kind : SendKind)
    (h : kind.builtin.select.lookup case = some reply) :
    reportsSent reply = true ↔ case = .data := by
  cases kind <;> cases case <;> cases h <;> decide

theorem SendKind.reportsSent_closed (kind : SendKind) (h : kind.builtin.closed = some reply) :
    reportsSent reply = false := by
  cases kind <;> cases h <;> rfl

theorem SendKind.select_data (kind : SendKind) :
    ∃ reply, kind.builtin.select.lookup .data = some reply := by
  cases kind <;> exact ⟨_, rfl⟩

theorem ReceiveKind.reportsClosed_select (kind : ReceiveKind) {v : Value}
    (h : (kind.builtin.select v).lookup case = some reply) :
    kind.reportsClosed reply = true ↔ case = .done := by
  cases kind <;> cases case <;> cases h <;>
    simp [ReceiveKind.reportsClosed, failed]

theorem ReceiveKind.reported_select (kind : ReceiveKind) {v : Value}
    (h : (kind.builtin.select v).lookup case = some reply) :
    kind.reported reply = if case = .data then some v else none := by
  cases kind <;> cases case <;> cases h <;> rfl

theorem ReceiveKind.select_done (kind : ReceiveKind) (v : Value) :
    ∃ reply, (kind.builtin.select v).lookup .done = some reply := by
  cases kind <;> exact ⟨_, rfl⟩

variable {call : ChannelCall}

theorem ChannelCall.start_reports {c : Channel} (h : call.start c = some reply)
    (case : Option SelectCase) :
    (ChannelEvent.completed call case reply).sent = none ∧
      (ChannelEvent.completed call case reply).received = none ∧
      (ChannelEvent.completed call case reply).reportsClosed = false := by
  cases call with
  | send kind value =>
    have hsent : reportsSent reply = false := by
      simp only [ChannelCall.start] at h
      split at h
      · cases h
        rfl
      · split at h
        · cases h
          rfl
        · split at h
          · exact kind.reportsSent_closed h
          · cases h
    refine ⟨?_, rfl, rfl⟩
    rw [ChannelEvent.sent, hsent]
    rfl
  | receive kind =>
    simp only [ChannelCall.start] at h
    split at h
    · cases h
      cases kind <;> refine ⟨rfl, rfl, ?_⟩ <;>
        simp [ChannelEvent.reportsClosed, ReceiveKind.reportsClosed]
    · cases h

/-! ## Invariant -/

/-- What holds in every run: what has been sent and not received is in the buffer. -/
structure ChannelSystem.Accounted (s : ChannelSystem) : Prop where
  split : accepted s.log = received s.log ++ s.channel.data
  closed : s.channel.closed = true ↔ ChannelEvent.close ∈ s.log

/-- The select of a thread does not have its communication ready on a closed channel. -/
def ChannelSystem.clear (s : ChannelSystem) : ChannelMove → Bool
  | .select thread _ =>
      match s.waiting thread with
      | some call => !(s.channel.closed && s.channel.communicates call)
      | none => true
  | _ => true

theorem accepted_snoc (log : List ChannelEvent) (event : ChannelEvent) :
    accepted (log ++ [event]) = accepted log ++ event.sent.toList := by
  cases h : event.sent <;> simp [h, accepted]

theorem received_snoc (log : List ChannelEvent) (event : ChannelEvent) :
    received (log ++ [event]) = received log ++ event.received.toList := by
  cases h : event.received <;> simp [h, received]

variable {s : ChannelSystem}

theorem ChannelSystem.Accounted.silent (h : s.Accounted) (hsent : event.sent = none)
    (hreceived : event.received = none) (hclose : event ≠ .close)
    (waiting : Nat → Option ChannelCall) :
    ChannelSystem.Accounted ⟨s.channel, waiting, s.log ++ [event]⟩ where
  split := by
    rw [accepted_snoc, received_snoc, hsent, hreceived, toList_none, append_nil,
      append_nil, h.split]
  closed := by
    rw [mem_append, mem_singleton, h.closed]
    simp [Ne.symm hclose]

theorem Channel.communicates_of_enabled {c : Channel} (h : c.enabled call .data = true) :
    c.communicates call = true := h

theorem ChannelSystem.Accounted.select (h : s.Accounted)
    (hreply : (call.select s.channel).lookup case = some reply)
    (henabled : s.channel.enabled call case = true) (waiting : Nat → Option ChannelCall) :
    ChannelSystem.Accounted
      ⟨s.channel.after call case, waiting, s.log ++ [.completed call (some case) reply]⟩ := by
  have hclosed : (s.channel.after call case).closed = s.channel.closed := by
    cases call <;> cases case <;> rfl
  refine ⟨?_, ?_⟩
  · cases call with
    | send kind value =>
      have hsent := kind.reportsSent_select hreply
      rw [accepted_snoc, received_snoc, h.split]
      by_cases hdata : case = .data
      · subst hdata
        simp [ChannelEvent.sent, ChannelEvent.received, hsent.mpr rfl, Channel.after]
      · have hafter : s.channel.after (.send kind value) case = s.channel := by
          cases case <;> first | rfl | exact absurd rfl hdata
        have hnot : reportsSent reply = false := by
          rw [← Bool.not_eq_true, hsent]
          exact hdata
        simp [ChannelEvent.sent, ChannelEvent.received, hnot, hafter]
    | receive kind =>
      have hreported := kind.reported_select hreply
      rw [accepted_snoc, received_snoc, h.split]
      by_cases hdata : case = .data
      · subst hdata
        have hnonempty := Channel.communicates_of_enabled henabled
        obtain ⟨v, rest, hrest⟩ : ∃ v rest, s.channel.data = v :: rest := by
          cases hdata : s.channel.data with
          | nil => simp [Channel.communicates, hdata] at hnonempty
          | cons v rest => exact ⟨v, rest, rfl⟩
        simp [ChannelEvent.sent, ChannelEvent.received, hreported, Channel.after, hrest]
      · have hafter : s.channel.after (.receive kind) case = s.channel := by
          cases case <;> first | rfl | exact absurd rfl hdata
        simp [ChannelEvent.sent, ChannelEvent.received, hreported, hdata, hafter]
  · rw [hclosed, h.closed]
    simp

theorem ChannelSystem.Accounted.step {s s' : ChannelSystem} (h : s.Accounted) {move : ChannelMove}
    (hstep : s.step move = some s') : s'.Accounted := by
  cases move with
  | call thread call =>
    rw [ChannelSystem.step] at hstep
    split at hstep
    · cases hstep
    · split at hstep
      · rename_i reply hstart
        cases hstep
        obtain ⟨hsent, hreceived, -⟩ := ChannelCall.start_reports hstart none
        exact h.silent hsent hreceived (fun hclosed => by cases hclosed) s.waiting
      · cases hstep
        exact ⟨h.split, h.closed⟩
  | select thread case =>
    obtain ⟨call, hcall, hstep⟩ := bind_eq_some_iff.mp hstep
    obtain ⟨reply, hreply, hstep⟩ := bind_eq_some_iff.mp hstep
    split at hstep
    · rename_i henabled
      cases hstep
      exact h.select hreply henabled _
    · cases hstep
  | close =>
    cases hstep
    refine ⟨?_, ?_⟩
    · rw [accepted_snoc, received_snoc]
      simp [ChannelEvent.sent, ChannelEvent.received, h.split, Channel.close]
    · simp [Channel.close]

/-! ## Delivery along runs -/

theorem Delivery.step {s s' : ChannelSystem} (h : s.Accounted) (h' : s'.Accounted)
    (hdelivery : Delivery s.log) {event : ChannelEvent} (hlog : s'.log = s.log ++ [event])
    (hclose : s.channel.closed = true → event.sent = none)
    (hdrained : event.reportsClosed = true → s.channel.data = []) : Delivery s'.log := by
  have hsplit' := h'.split
  rw [hlog] at hsplit' ⊢
  refine hdelivery.snoc ?_ ?_ ?_
  · rw [hsplit']
    exact prefix_append _ _
  · intro hmem
    exact hclose (h.closed.mpr hmem)
  · intro hreports
    rw [h.split, hdrained hreports, append_nil]

variable {thread : Nat}

theorem ChannelSystem.delivery_select {s s' : ChannelSystem} (h : s.Accounted)
    (hdelivery : Delivery s.log) (hclear : s.clear (.select thread case) = true)
    (hstep : s.step (.select thread case) = some s') : Delivery s'.log := by
  have h' := h.step hstep
  obtain ⟨call, hcall, hstep⟩ := bind_eq_some_iff.mp hstep
  obtain ⟨reply, hreply, hstep⟩ := bind_eq_some_iff.mp hstep
  simp only [ChannelSystem.clear, hcall, Bool.not_eq_true', Bool.and_eq_false_iff] at hclear
  split at hstep
  · rename_i henabled
    cases hstep
    refine hdelivery.step h h' rfl ?_ ?_
    · intro hclosed
      cases call with
      | send kind value =>
        -- The channel is closed, so the select cannot have sent.
        have hcase : case ≠ .data := by
          rintro rfl
          have hcommunicates := Channel.communicates_of_enabled henabled
          simp [hclosed, hcommunicates] at hclear
        have hnot : reportsSent reply = false := by
          rw [← Bool.not_eq_true, kind.reportsSent_select hreply]
          exact hcase
        rw [ChannelEvent.sent, hnot]
        rfl
      | receive kind => rfl
    · intro hreports
      cases call with
      | send kind value => cases hreports
      | receive kind =>
        have hdone : case = .done := (kind.reportsClosed_select hreply).mp hreports
        subst hdone
        have hclosed : s.channel.closed = true := henabled
        simpa [hclosed, Channel.communicates] using hclear
  · cases hstep

theorem ChannelSystem.delivery_step {s s' : ChannelSystem} (h : s.Accounted)
    (hdelivery : Delivery s.log) {move : ChannelMove} (hclear : s.clear move = true)
    (hstep : s.step move = some s') : Delivery s'.log := by
  cases move with
  | call thread call =>
    have h' := h.step hstep
    rw [ChannelSystem.step] at hstep
    split at hstep
    · cases hstep
    · split at hstep
      · rename_i reply hstart
        cases hstep
        obtain ⟨hsent, -, hreports⟩ := ChannelCall.start_reports hstart none
        refine hdelivery.step h h' rfl (fun _ => hsent) ?_
        intro hcontra
        rw [hreports] at hcontra
        cases hcontra
      · cases hstep
        exact hdelivery
  | select thread case => exact ChannelSystem.delivery_select h hdelivery hclear hstep
  | close =>
    have h' := h.step hstep
    cases hstep
    refine hdelivery.step h h' rfl (fun _ => rfl) ?_
    intro hreports
    cases hreports

theorem ChannelSystem.step_select (hcall : s.waiting thread = some call)
    (hreply : (call.select s.channel).lookup case = some reply)
    (henabled : s.channel.enabled call case = true) :
    s.step (.select thread case) = some
      { channel := s.channel.after call case, waiting := Function.update s.waiting thread none
        log := s.log ++ [.completed call (some case) reply] } := by
  rw [ChannelSystem.step, hcall, bind_eq_bind, bind_some, hreply,
    bind_eq_bind, bind_some, if_pos henabled]

theorem ChannelSystem.delivery_breaks (h : s.Accounted)
    (hclear : s.clear (.select thread .data) = false) :
    ∃ case s', s.step (.select thread case) = some s' ∧ ¬ Delivery s'.log := by
  rw [ChannelSystem.clear] at hclear
  split at hclear
  · rename_i call hcall
    rw [Bool.not_eq_false', Bool.and_eq_true] at hclear
    obtain ⟨hclosed, hcommunicates⟩ := hclear
    cases call with
    | send kind value =>
      obtain ⟨reply, hreply⟩ := kind.select_data
      refine ⟨.data, _, ChannelSystem.step_select hcall hreply hcommunicates, ?_⟩
      intro hdelivery
      have hsent := hdelivery.afterClose s.log _ (prefix_refl _) (h.closed.mp hclosed)
      rw [ChannelEvent.sent, (kind.reportsSent_select hreply).mpr rfl] at hsent
      cases hsent
    | receive kind =>
      obtain ⟨reply, hreply⟩ := kind.select_done (s.channel.data.headD .nil)
      refine ⟨.done, _, ChannelSystem.step_select hcall hreply hclosed, ?_⟩
      intro hdelivery
      have hdrained := hdelivery.drained s.log _ (prefix_refl _)
        ((kind.reportsClosed_select hreply).mpr rfl)
      rw [h.split, self_eq_append_right] at hdrained
      simp [Channel.communicates, hdrained] at hcommunicates
  · cases hclear

theorem ChannelSystem.Accounted.initial (capacity : Nat) :
    (ChannelSystem.initial capacity).Accounted where
  split := rfl
  closed := by simp [ChannelSystem.initial, newChannel]

/-- Channels deliver in every run in which no select finds the channel closed while it could
    still communicate. After such a run, the selects that do not find it so are the ones that
    keep delivery whichever case they take. -/
theorem channel_delivers (capacity : Nat) (moves : List ChannelMove) (s : ChannelSystem)
    (hrun : Systems.run ChannelSystem.step (.initial capacity) moves = some s)
    (hclear : Systems.Meets ChannelSystem.step (fun s move => s.clear move = true)
      (.initial capacity) moves) :
    Delivery s.log ∧ ∀ thread, s.clear (.select thread .data) = true ↔
      ∀ case s', s.step (.select thread case) = some s' → Delivery s'.log := by
  have hvalid : s.Accounted ∧ Delivery s.log := by
    refine Systems.run_preserves (P := fun s => s.Accounted ∧ Delivery s.log) ?_ ?_ hclear hrun
    · rintro s move s' ⟨haccounted, hdelivery⟩ hclear hstep
      exact ⟨haccounted.step hstep, ChannelSystem.delivery_step haccounted hdelivery hclear hstep⟩
    · exact ⟨ChannelSystem.Accounted.initial capacity, Delivery.nil⟩
  refine ⟨hvalid.2, ?_⟩
  intro thread
  constructor
  · intro hclear case s' hstep
    have hclear' : s.clear (.select thread case) = true := hclear
    exact ChannelSystem.delivery_select hvalid.1 hvalid.2 hclear' hstep
  · intro hall
    by_contra hclear
    obtain ⟨case, s', hstep, hbreaks⟩ :=
      ChannelSystem.delivery_breaks hvalid.1 (Bool.eq_false_iff.mpr hclear)
    exact hbreaks (hall case s' hstep)

/-- A value is sent and the channel is closed before a receive comes to its select, where
    `Data` and `Done` are both ready. -/
def undelivered : List ChannelMove :=
  [.call 0 (.send .threadSend (.int 1)), .select 0 .data, .close,
    .call 1 (.receive .threadReceive), .select 1 .done]

theorem undelivered_breaks : ¬ ∀ capacity moves s,
    Systems.run ChannelSystem.step (.initial capacity) moves = some s → Delivery s.log := by
  intro hall
  have hdelivery := hall 1 undelivered _ rfl
  have hdrained := hdelivery.drained _ (.completed (.receive .threadReceive) (some .done)
    (.error "closed channel")) (prefix_refl _) rfl
  cases hdrained

/-- The same value is received before the channel is closed. -/
def receivedInTime : List ChannelMove :=
  [.call 0 (.send .threadSend (.int 1)), .select 0 .data, .call 1 (.receive .threadReceive),
    .select 1 .data, .close, .call 1 (.receive .threadReceive), .select 1 .done]

theorem channel_delivers_in_time :
    ∃ s, Systems.run ChannelSystem.step (.initial 1) receivedInTime = some s ∧
      Delivery s.log ∧ ∀ thread, s.clear (.select thread .data) = true ↔
        ∀ case s', s.step (.select thread case) = some s' → Delivery s'.log := by
  refine ⟨_, rfl, channel_delivers 1 receivedInTime _ rfl ?_⟩
  repeat refine ⟨rfl, fun s' hstep => ?_⟩; cases hstep
  trivial

end Kryndel
