import SlimMQ.System.System

/-!
# Delivery from the publisher to the broker

What a publishing call promises when it returns 0: at QoS 1 its message has been passed to
`publish_to_subscribers` at least once, at QoS 2 exactly once, and never again. Both follow from the
invariant of the system and from the numbering of the messages, by which a call of
`publish_to_subscribers` for a message id of a client is for its one message with that id.

## Main results

* `System.Inv.eq_call`: the broker passes on a message id for its own message only
* `qos1_at_least_once`, `qos2_exactly_once`: the two promises
-/

namespace SlimMQ

open Buffer EventLoop

variable {s : System} {a : SockaddrIn} {m : Message}

/-- What is passed on for the id of a message is the message. -/
theorem System.Inv.eq_call (h : s.Inv) (hm : m ∈ (s.sessions a).started) :
    ∀ c ∈ publishCalls (a, m.header.msgId) s.log, c = m.call := by
  intro c hc
  obtain ⟨m', hm', rfl⟩ := h.calls _ c hc
  obtain ⟨-, hid⟩ := mem_publishCalls.mp hc
  rw [(h.sessions a).numbered.unique m' hm' m hm hid]

/-- A message that has been passed on is among the calls for its id. -/
theorem System.Inv.call_mem (h : s.Inv) (hm : m ∈ (s.sessions a).started)
    (hc : (s.facts a).called m.header.msgId) :
    m.call ∈ publishCalls (a, m.header.msgId) s.log := by
  obtain ⟨c, hmem⟩ := List.exists_mem_of_ne_nil _ hc
  rwa [h.eq_call hm c hmem] at hmem

/-- A completed message has been passed on exactly once. -/
theorem System.Inv.calls_of_completed (h : s.Inv) (hm : m ∈ (s.sessions a).started)
    (hq : m.header.qosLevel = qosExactlyOnce) (hc : (s.facts a).completed m.header.msgId) :
    publishCalls (a, m.header.msgId) s.log = [m.call] := by
  have hsome : (pendingTableGet s.broker.table (a, m.header.msgId)).isSome := by
    rw [show pendingTableGet s.broker.table _ = _ from hc]
    rfl
  have hpos : 0 < qos2Calls (a, m.header.msgId) s.log := (h.entries _).mp hsome
  have honce := (h.passedOnce (a, m.header.msgId)).once
  -- every call for the id is the message's, so all of them count
  have hlen : qos2Calls (a, m.header.msgId) s.log =
      (publishCalls (a, m.header.msgId) s.log).length := by
    refine List.countP_eq_length.mpr fun c hc => decide_eq_true ?_
    rw [h.eq_call hm c hc]
    exact hq
  have hone : (publishCalls (a, m.header.msgId) s.log).length = 1 := by omega
  obtain ⟨c, hc⟩ := List.length_eq_one_iff.mp hone
  rw [hc, h.eq_call hm c (hc ▸ List.mem_singleton_self c)]

/-- **QoS 1: at least once.** In every reachable state, a call at QoS 1 that has returned 0 was
preceded by a call of `publish_to_subscribers` for exactly its message. A call that is about to
return 0 has found an acknowledgement of its own message id, which is the id of no other message of
the client, and its message has been passed on before. -/
theorem qos1_at_least_once (es : List Event) (s : System)
    (h : execute System.step System.init es = some s) (hid : s.FewIds) (a : SockaddrIn) :
    (∀ m, (m, 0) ∈ (s.sessions a).returned → m.header.qosLevel = qosAtLeastOnce →
      m.call ∈ publishCalls (a, m.header.msgId) s.log) ∧
    ∀ run sendOk, (s.sessions a).call = some run → run.msg.header.qosLevel = qosAtLeastOnce →
      (publishStep (s.sessions a).state run sendOk).call = .inr 0 →
      (∃ e ∈ (s.sessions a).state.client.eventQueue.toList,
        e.msgType = msgAck ∧ e.msgId = run.msg.header.msgId) ∧
      (∀ m ∈ (s.sessions a).started, m.header.msgId = run.msg.header.msgId → m = run.msg) ∧
      run.msg.call ∈ publishCalls (a, run.msg.header.msgId) s.log := by
  have hinv := System.inv_of_execute h hid
  have hsound := hinv.sessions a
  constructor
  · intro m hm hq
    have hr := hsound.returned (m, 0) hm
    exact hinv.call_mem hr.mem (hr.called rfl hq)
  · intro run sendOk hc hq hret
    have hrun := hsound.call run hc
    -- it returns by an acknowledgement with its id, put into the queue for a call of the broker
    have hw := (publishStep_advance _ run sendOk).waitAck_of_ret hrun.atQos hq hret
    obtain ⟨e, he, hty, hmid⟩ := exists_ack_of_waitAck hsound.state.wellFormed hw
    have hcalled := hsound.state.acks e he hty
    rw [hmid] at hcalled
    refine ⟨⟨e, he, hty, hmid⟩, ?_, hinv.call_mem hrun.mem hcalled⟩
    intro m hm hmid'
    exact hsound.numbered.unique m hm run.msg hrun.mem hmid'

/-- The address of a publisher. -/
def publisher : SockaddrIn := ⟨2, 40000, 0x0100007f, 0⟩

/-- Its listener gets a datagram, into clean buffers. -/
def hears (datagram : Datagram) : Event :=
  .session publisher (.receive ⟨cleanReceived datagram, 0, true⟩)

/-- A publishing call of one byte to the topic `a`, at a QoS level, up to its first send. -/
def publishes (qosLevel : UInt8) : List Event :=
  [.session publisher (.setQos qosLevel), .session publisher (.setRetryPolicy 1000 3),
    .session publisher (.publish (some ⟨[97], noNul_a⟩) (fun _ => 9) 1),
    .session publisher (.advance true)]

/-- A QoS 1 call that is acknowledged at its first attempt. -/
def qos1Trace : List Event :=
  publishes qosAtLeastOnce ++
    [.broker (receptionOf publisher [1, 0, 1, 0, 0, 1, 0, 0, 0, 0, 1, 1, 3, 0, 1, 1, 97, 9]),
      hears (ackHeader 1).encode, .session publisher (.advance true)]

/-- The call of the trace has returned 0, and its message was passed on. -/
theorem qos1_at_least_once_acknowledged :
    ∃ s m, execute System.step System.init qos1Trace = some s ∧
      (m, 0) ∈ (s.sessions publisher).returned ∧ m.header.qosLevel = qosAtLeastOnce ∧
      m.call ∈ publishCalls (publisher, m.header.msgId) s.log := by
  have hret : (execute System.step System.init qos1Trace).map (fun s =>
      (s.sessions publisher).returned.map fun x => (x.1.header.qosLevel, x.2)) =
        some [(qosAtLeastOnce, 0)] := by
    decide +kernel
  obtain ⟨s, hs, hx⟩ := Option.map_eq_some_iff.mp hret
  obtain ⟨⟨m, ret⟩, hm, he⟩ := List.mem_map.mp (hx ▸ List.mem_singleton_self (qosAtLeastOnce, 0))
  obtain ⟨hq, rfl⟩ := Prod.mk.inj he
  have hid : s.FewIds := System.fewIds_of_execute hs (by decide)
  exact ⟨s, m, hs, hm, hq, (qos1_at_least_once qos1Trace s hs hid publisher).1 m hm hq⟩

/-- **QoS 2: exactly once.** In every reachable state, the message of a call at QoS 2 that has
returned 0 has been passed to `publish_to_subscribers` exactly once, with its own topic and data,
its pending entry is COMPLETED, and in every later state it has still been passed on just that
once. -/
theorem qos2_exactly_once (es es' : List Event) (s s' : System)
    (h : execute System.step System.init es = some s) (h' : execute System.step s es' = some s')
    (hid : s'.FewIds) (a : SockaddrIn) (m : Message) (hm : (m, 0) ∈ (s.sessions a).returned)
    (hq : m.header.qosLevel = qosExactlyOnce) :
    publishCalls (a, m.header.msgId) s.log = [m.call] ∧
      pendingTableGet s.broker.table (a, m.header.msgId) = some .completed ∧
      publishCalls (a, m.header.msgId) s'.log = [m.call] := by
  have hrun : execute System.step System.init (es ++ es') = some s' := by
    rw [execute_append, h]
    exact h'
  -- the ids of the whole run are few, and so those up to `s`
  have hid₀ : s.FewIds := fun a => lt_of_le_of_lt (System.issued_mono h' a) (hid a)
  have hinv := System.inv_of_execute h hid₀
  have hinv' := System.inv_of_execute hrun hid
  have hr := (hinv.sessions a).returned (m, 0) hm
  have hr' := (hinv'.sessions a).returned (m, 0) (System.returned_subset h' a hm)
  -- completed in `s`, and in `s'` still
  exact ⟨hinv.calls_of_completed hr.mem hq (hr.completed rfl hq), hr.completed rfl hq,
    hinv'.calls_of_completed hr'.mem hq (hr'.completed rfl hq)⟩

/-- A QoS 2 call whose handshake takes place without a loss. -/
def qos2Trace : List Event :=
  publishes qosExactlyOnce ++
    [.broker (receptionOf publisher [1, 0, 2, 0, 0, 1, 0, 0, 0, 0, 1, 1, 3, 0, 1, 1, 97, 9]),
      hears (controlBytes (controlHeader 1) controlReceived), .session publisher (.advance true),
      .session publisher (.advance true), .session publisher (.advance true),
      .broker (receptionOf publisher [1, 3, 2, 0, 0, 1, 0, 0, 0, 0, 1, 1, 1, 0, 1, 2]),
      hears (controlBytes (controlHeader 1) controlComplete), .session publisher (.advance true),
      .session publisher (.advance true)]

/-- The call of the trace has returned 0, and its message was passed on once. -/
theorem qos2_exactly_once_handshake :
    ∃ s m, execute System.step System.init qos2Trace = some s ∧
      (m, 0) ∈ (s.sessions publisher).returned ∧ m.header.qosLevel = qosExactlyOnce ∧
      publishCalls (publisher, m.header.msgId) s.log = [m.call] ∧
      pendingTableGet s.broker.table (publisher, m.header.msgId) = some .completed := by
  have hret : (execute System.step System.init qos2Trace).map (fun s =>
      (s.sessions publisher).returned.map fun x => (x.1.header.qosLevel, x.2)) =
        some [(qosExactlyOnce, 0)] := by
    decide +kernel
  obtain ⟨s, hs, hx⟩ := Option.map_eq_some_iff.mp hret
  obtain ⟨⟨m, ret⟩, hm, he⟩ := List.mem_map.mp (hx ▸ List.mem_singleton_self (qosExactlyOnce, 0))
  obtain ⟨hq, rfl⟩ := Prod.mk.inj he
  have hdone := qos2_exactly_once qos2Trace [] s s hs rfl
    (System.fewIds_of_execute hs (by decide)) publisher m hm hq
  exact ⟨s, m, hs, hm, hq, hdone.1, hdone.2.1⟩

end SlimMQ
