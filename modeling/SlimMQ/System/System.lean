import SlimMQ.Broker.Forwarding
import SlimMQ.Broker.Suppression
import SlimMQ.Client.Soundness

/-!
# The system of a broker and its clients

One broker and a client session at every address, over a network that may lose, duplicate, delay and
reorder datagrams, but neither forges nor alters them: whatever has been sent to a party may be
delivered to it at any later time, any number of times or not at all. The broker handles one
datagram in a step; what it sends in an iteration can be delivered when the iteration is over. A
session makes the steps of its two threads in any order.

The invariant ties the parties together. What the broker has done for the messages of a client are
the facts that the client's session relies on; the sessions send releases only for messages with a
pending entry, so that the broker makes an entry only for a message that it passes on.

## Main definitions

* `System`, `Event`, `System.step`: the system, its events and its steps
* `System.facts`: what the broker has done for the messages of a client
* `System.Inv`: the invariant

## Main results

* `System.inv_broker`, `System.inv_session`: a step of either party keeps the invariant
* `System.inv_of_execute`: it holds in every reachable state
-/

namespace SlimMQ

open Buffer EventLoop

/-- The state of the system: the broker, whether it runs, all its outputs so far, all datagrams
that the clients have sent to it, and the sessions by their addresses. -/
structure System where
  broker : Broker
  brokerUp : Bool
  log : List BrokerOutput
  sent : List (SockaddrIn × Datagram)
  sessions : SockaddrIn → Session

/-- The state at the start: an empty broker, and a new session at each address. -/
def System.init : System where
  broker := brokerInit
  brokerUp := true
  log := []
  sent := []
  sessions := fun _ => Session.init

/-- What happens in the system. -/
inductive Event
  /-- The broker gets a datagram. -/
  | broker (r : Reception)
  /-- Something happens in the session at an address. -/
  | session (a : SockaddrIn) (e : SessionEvent)

/-- The datagram that an output sends to an address. -/
def BrokerOutput.datagramTo (a : SockaddrIn) : BrokerOutput → Option Datagram
  | .forward dest bytes => if dest = a then some bytes else none
  | .reply dest bytes => if dest = a then some bytes else none
  | .publish _ _ => none

namespace System

/-- All datagrams that the broker has sent to an address. -/
def inbox (s : System) (a : SockaddrIn) : List Datagram :=
  s.log.filterMap (BrokerOutput.datagramTo a)

/-- The system after an iteration of the broker. -/
def afterBroker (s : System) (r : Reception) : System :=
  let res := brokerIteration s.broker r
  { s with broker := res.state, brokerUp := res.running, log := s.log ++ res.outputs }

/-- The system after a step of a session that sends some datagrams. -/
def afterSession (s : System) (a : SockaddrIn) (p : Session) (ds : List Datagram) : System :=
  { s with sessions := Function.update s.sessions a p, sent := s.sent ++ ds.map (a, ·) }

/-- **One step of the system.** -/
def step (s : System) : Event → Option System
  | .broker r =>
    if s.brokerUp = true ∧ (r.clientAddr, r.datagram) ∈ s.sent then some (s.afterBroker r) else none
  | .session a e =>
    ((s.sessions a).step (s.inbox a) e).map fun r => s.afterSession a r.1 r.2

/-- What the broker has done for the messages of the client at an address. -/
def facts (s : System) (a : SockaddrIn) : Facts where
  called id := publishCalls (a, id) s.log ≠ []
  pending id := (pendingTableGet s.broker.table (a, id)).isSome
  completed id := pendingTableGet s.broker.table (a, id) = some .completed

/-- Each session has taken fewer than `2 ^ 32` message ids. -/
def FewIds (s : System) : Prop := ∀ a, (s.sessions a).issued < 2 ^ 32

end System

/-- The call of `publish_to_subscribers` that passes a message on. -/
def Message.call (m : Message) : PublishCall := ⟨m.header, m.topic, m.data⟩

/-- **The invariant of the system.** -/
structure System.Inv (s : System) : Prop where
  /-- The records of each session are true to what the broker has done. -/
  sessions : ∀ a, (s.sessions a).Sound (s.facts a)
  /-- Each client has sent only what it may. -/
  sent : ∀ x ∈ s.sent, Sendable (s.facts x.1) (s.sessions x.1).started x.2
  /-- The broker has sent to each client only what is true. -/
  inbox : ∀ a, ∀ d ∈ s.inbox a, Inboxed (s.facts a) d
  /-- The broker has passed on only messages of the clients. -/
  calls : ∀ k, ∀ c ∈ publishCalls k s.log, ∃ m ∈ (s.sessions k.1).started, c = m.call
  /-- It has passed on no QoS 2 message twice. -/
  passedOnce : ∀ k, PassedOnce k s.broker s.log
  /-- An entry is there exactly for what it has passed on. -/
  entries : ∀ k, (pendingTableGet s.broker.table k).isSome ↔ PassedOn k s.log

namespace System

variable {s : System} {a : SockaddrIn}

theorem inv_init : System.init.Inv where
  sessions a := Session.sound_init _
  sent := by simp [System.init]
  inbox := by simp [System.init, System.inbox]
  calls := by simp [System.init]
  passedOnce k := ⟨by simp [System.init, brokerInit], fun _ => rfl, Nat.zero_le 1⟩
  entries k := by simp [System.init, brokerInit, PassedOn, qos2Calls]

end System

/-! ## What the broker receives -/

variable {s : System} {r : Reception} {F : Facts} {started : List Message}

/-- A PUBLISH that a client may send is one of its messages, and is passed on as such. -/
theorem Sendable.call_eq (h : Sendable F started r.datagram)
    (hwf : ∀ m ∈ started, m.WellFormed) (hp : r.Publishes) : ∃ m ∈ started, r.call = m.call := by
  cases h with
  | publish m hm hd =>
    refine ⟨m, hm, ?_⟩
    obtain ⟨-, hheader, htopic, hdata⟩ := (hwf m hm).published hd
    rw [Reception.call, Message.call, hheader, htopic, hdata]
  | release h bs hd ht hf =>
    have := hp.2
    rw [Received.header_of_append hd, ht] at this
    cases this
  | subscribe h bs hd ht =>
    have := hp.2
    rw [Received.header_of_append hd, ht] at this
    cases this

/-- A control message that a client may send is for a message with a pending entry. -/
theorem Sendable.pending_of_control (h : Sendable F started r.datagram)
    (hwf : ∀ m ∈ started, m.WellFormed) (ht : r.header.msgType = msgControl) :
    F.pending r.header.msgId := by
  cases h with
  | publish m hm hd =>
    -- a message is a PUBLISH
    rw [(hwf m hm).packet] at hd
    rw [Received.header_of_append hd, (hwf m hm).type] at ht
    cases ht
  | release h bs hd hty hf => rwa [Received.header_of_append hd]
  | subscribe h bs hd hty =>
    rw [Received.header_of_append hd, hty] at ht
    cases ht

/-! ## A step of the broker -/

namespace System

/-- An iteration only adds to what the broker has done. -/
theorem facts_grows (s : System) (r : Reception) (a : SockaddrIn) :
    (s.facts a).Grows ((s.afterBroker r).facts a) where
  called id h := by
    change publishCalls (a, id) (s.log ++ (brokerIteration s.broker r).outputs) ≠ []
    rw [publishCalls_append]
    exact List.append_ne_nil_of_left_ne_nil h _
  pending id h := (brokerIteration_effect s.broker r).isSome_mono h
  completed id h := (brokerIteration_effect s.broker r).completed_mono h

/-- What an iteration sends to a client: a message passed on, or a reply. -/
theorem datagramTo_cases {b : Broker} {r : Reception} {a : SockaddrIn} {d : Datagram}
    (h : ∃ o ∈ (brokerIteration b r).outputs, o.datagramTo a = some d) :
    (r.header.msgType = msgPublish ∧ ∃ bs, d = r.header.encode ++ bs) ∨
      .reply a d ∈ handshake (brokerIteration b r).outputs := by
  obtain ⟨o, ho, hd⟩ := h
  cases o with
  | publish client call => cases hd
  | forward dest bytes =>
    simp only [BrokerOutput.datagramTo] at hd
    split_ifs at hd
    obtain rfl := Option.some.inj hd
    exact Or.inl (forward_mem_brokerIteration ho)
  | reply dest bytes =>
    simp only [BrokerOutput.datagramTo] at hd
    split_ifs at hd with hdest
    obtain rfl := Option.some.inj hd
    subst hdest
    exact Or.inr ((mem_handshake rfl).mpr ho)

/-- What an iteration sends to a client is true to the facts after it. -/
theorem inboxed_brokerIteration (s : System) (r : Reception) {a : SockaddrIn} {d : Datagram}
    (h : ∃ o ∈ (brokerIteration s.broker r).outputs, o.datagramTo a = some d) :
    Inboxed ((s.afterBroker r).facts a) d := by
  rcases datagramTo_cases h with ⟨ht, bs, hb⟩ | ho
  · exact .forwarded r.header bs hb ht
  -- the table after the iteration bears out what its replies say
  · obtain ⟨rfl, ⟨rfl, hf⟩ | ⟨rfl, hf, -⟩ | ⟨rfl, hf⟩⟩ :=
      (brokerIteration_effect s.broker r).of_reply ho
    · exact .control (controlHeader r.header.msgId) controlReceived [] rfl rfl (fun _ => hf) nofun
    · exact .control (controlHeader r.header.msgId) controlComplete [] rfl rfl nofun fun _ => hf
    · refine .ack (ackHeader r.header.msgId) [] (by simp) rfl ?_
      have hmem : r.call ∈ publishCalls r.key (s.log ++ (brokerIteration s.broker r).outputs) :=
        mem_publishCalls.mpr ⟨List.mem_append_right _ ((mem_handshake rfl).mp hf), rfl⟩
      exact List.ne_nil_of_mem hmem

/-- **A step of the broker keeps the invariant.** -/
theorem inv_broker (h : s.Inv) (hr : (r.clientAddr, r.datagram) ∈ s.sent) :
    (s.afterBroker r).Inv := by
  have heff := brokerIteration_effect s.broker r
  have hsend : Sendable (s.facts r.clientAddr) (s.sessions r.clientAddr).started r.datagram :=
    h.sent _ hr
  have hwf := (h.sessions r.clientAddr).numbered.wellFormed
  refine ⟨?_, ?_, ?_, ?_, ?_, ?_⟩
  -- the facts have only grown ...
  · intro a
    exact (h.sessions a).mono (s.facts_grows r a)
  · intro x hx
    exact (h.sent x hx).mono (s.facts_grows r x.1) (List.Subset.refl _)
  · intro a d hd
    -- ... and what was sent now is true to them
    obtain ⟨o, ho, hod⟩ := List.mem_filterMap.mp hd
    rcases List.mem_append.mp ho with ho | ho
    · exact (h.inbox a d (List.mem_filterMap.mpr ⟨o, ho, hod⟩)).mono (s.facts_grows r a)
    · exact s.inboxed_brokerIteration r ⟨o, ho, hod⟩
  · intro k c hc
    rcases List.mem_append.mp (publishCalls_append k _ _ ▸ hc) with hc | hc
    · exact h.calls k c hc
    -- a new call is for the datagram, which is a message of its sender
    · obtain ⟨hmem, -⟩ := mem_publishCalls.mp hc
      obtain ⟨hp, hk, rfl⟩ := heff.of_publish ((mem_handshake rfl).mpr hmem)
      rw [hk]
      exact hsend.call_eq hwf hp
  · intro k
    exact passedOnce_step (h.passedOnce k) r
  · intro k
    -- a release that reaches the broker finds an entry, as its sender has seen it confirmed
    have hC : ReleaseExpected s.broker r := fun hc => hsend.pending_of_control hwf hc.2.1
    have hlog : PassedOn k (s.afterBroker r).log ↔ PassedOn k s.log ∨
        0 < qos2Calls k (handshake (brokerIteration s.broker r).outputs) := by
      change 0 < qos2Calls k (s.log ++ (brokerIteration s.broker r).outputs) ↔ _
      rw [qos2Calls_append, Nat.add_pos_iff_pos_or_pos]
      rfl
    rw [hlog, ← h.entries k]
    exact heff.isSome_iff hC k

/-! ## A step of a session -/

@[simp] theorem facts_afterSession (s : System) (a a' : SockaddrIn) (p : Session)
    (ds : List Datagram) : (s.afterSession a p ds).facts a' = s.facts a' := rfl

/-- **A step of a session keeps the invariant.** -/
theorem inv_session (h : s.Inv) {a : SockaddrIn} {e : SessionEvent} {p : Session}
    {ds : List Datagram} (hs : (s.sessions a).step (s.inbox a) e = some (p, ds))
    (hid : p.issued < 2 ^ 32) : (s.afterSession a p ds).Inv := by
  obtain ⟨hsound, hsend⟩ := (h.sessions a).step (h.inbox a) hs hid
  obtain ⟨-, -, hstarted, -⟩ := Session.step_grows hs
  -- the messages of every session stay
  have hsub : ∀ a', (s.sessions a').started ⊆ ((s.afterSession a p ds).sessions a').started := by
    intro a'
    by_cases ha : a' = a
    · subst ha
      simpa [afterSession] using hstarted
    · simp [afterSession, Function.update_of_ne ha]
  refine ⟨?_, ?_, h.inbox, ?_, h.passedOnce, h.entries⟩
  · intro a'
    -- the broker has done nothing, so every other session is as sound as before
    rw [facts_afterSession]
    by_cases ha : a' = a
    · subst ha
      simpa [afterSession] using hsound
    · simpa [afterSession, Function.update_of_ne ha] using h.sessions a'
  · intro x hx
    rw [facts_afterSession]
    rcases List.mem_append.mp hx with hx | hx
    · exact (h.sent x hx).mono (.refl _) (hsub x.1)
    · obtain ⟨d, hd, rfl⟩ := List.mem_map.mp hx
      simpa [afterSession] using hsend d hd
  · intro k c hc
    obtain ⟨m, hm, rfl⟩ := h.calls k c hc
    exact ⟨m, hsub k.1 hm, rfl⟩

/-! ## Runs -/

variable {s' : System} {e : Event}

/-- **What a step of the system is**: an iteration of the broker on a datagram sent to it, or a step
of a session on its inbox. -/
theorem step_cases (h : s.step e = some s') :
    (∃ r : Reception, (r.clientAddr, r.datagram) ∈ s.sent ∧ s' = s.afterBroker r) ∨
      ∃ a e' p ds, (s.sessions a).step (s.inbox a) e' = some (p, ds) ∧
        s' = s.afterSession a p ds := by
  cases e with
  | broker r =>
    simp only [step] at h
    split_ifs at h with hr
    exact Or.inl ⟨r, hr.2, (Option.some.inj h).symm⟩
  | session a e' =>
    obtain ⟨⟨p, ds⟩, hp, rfl⟩ := Option.map_eq_some_iff.mp h
    exact Or.inr ⟨a, e', p, ds, hp, rfl⟩

/-- A step takes back no message id and no returned call. -/
theorem step_grows (h : s.step e = some s') (a : SockaddrIn) :
    (s.sessions a).issued ≤ (s'.sessions a).issued ∧
      (s'.sessions a).issued ≤ (s.sessions a).issued + 1 ∧
      (s.sessions a).returned ⊆ (s'.sessions a).returned := by
  rcases step_cases h with ⟨r, -, rfl⟩ | ⟨a', e', p, ds, hp, rfl⟩
  · exact ⟨le_rfl, Nat.le_succ _, List.Subset.refl _⟩
  · by_cases ha : a = a'
    · subst ha
      obtain ⟨h₁, h₂, -, h₃⟩ := Session.step_grows hp
      simpa [afterSession] using ⟨h₁, h₂, h₃⟩
    · simp [afterSession, Function.update_of_ne ha]

/-- **The invariant holds in every state that a run with few message ids reaches.** -/
theorem inv_of_execute {es : List Event} (h : execute System.step System.init es = some s)
    (hid : s.FewIds) : s.Inv := by
  refine execute_induction (P := fun s => s.FewIds → s.Inv) h (fun _ => inv_init) ?_ hid
  intro s₁ e s₂ hs ih hid
  have hinv : s₁.Inv := ih fun a => lt_of_le_of_lt (step_grows hs a).1 (hid a)
  rcases step_cases hs with ⟨r, hr, rfl⟩ | ⟨a, e', p, ds, hp, rfl⟩
  · exact inv_broker hinv hr
  · apply inv_session hinv hp
    simpa [afterSession] using hid a

theorem issued_mono {es : List Event} (h : execute System.step s es = some s') (a : SockaddrIn) :
    (s.sessions a).issued ≤ (s'.sessions a).issued :=
  execute_induction (P := fun s' => (s.sessions a).issued ≤ (s'.sessions a).issued) h le_rfl
    fun _ _ _ hs ih => ih.trans (step_grows hs a).1

theorem returned_subset {es : List Event} (h : execute System.step s es = some s')
    (a : SockaddrIn) : (s.sessions a).returned ⊆ (s'.sessions a).returned :=
  execute_induction (P := fun s' => (s.sessions a).returned ⊆ (s'.sessions a).returned) h
    (List.Subset.refl _) fun _ _ _ hs ih => List.Subset.trans ih (step_grows hs a).2.2

/-- A run takes at most as many message ids as it has events. -/
theorem issued_le {es : List Event} (h : execute System.step s es = some s') (a : SockaddrIn) :
    (s'.sessions a).issued ≤ (s.sessions a).issued + es.length := by
  induction es generalizing s with
  | nil =>
    obtain rfl := Option.some.inj h
    simp
  | cons e es ih =>
    -- the first event takes at most one id
    obtain ⟨s₁, h₁, h₂⟩ := Option.bind_eq_some_iff.mp h
    have hstep := (step_grows h₁ a).2.1
    have hrest := ih h₂
    rw [List.length_cons]
    omega

theorem fewIds_of_execute {es : List Event} (h : execute System.step System.init es = some s)
    (hl : es.length < 2 ^ 32) : s.FewIds := by
  intro a
  have hle := issued_le h a
  have h0 : (System.init.sessions a).issued = 0 := rfl
  omega

end System

end SlimMQ
