import SlimMQ.System.Delivery

/-!
# Sessions that follow one another at an address

A session ends, by `slimmq_close` or with its process, and a later one gets the same address and
port. It counts its messages from 1 again, while the broker keeps the pending entries of the earlier
one. No datagram of the earlier session is in the network any more, and yet a QoS 2 message of the
new session may be taken for one of the earlier: the broker answers it without passing it on, and
the call returns 0. This happens when the earlier session has stopped between the PUBLISH and the
CONTROL_RELEASE of the id. An entry that is COMPLETED does no such harm: the message is dropped
without a word, and the call fails.

A new session may find anything in the QoS 2 table of its process, as `slimmq_close` clears it at
QoS 2 only; a session that goes to QoS 2 clears it first.

## Main definitions

* `Session.BeforeQos2`, `Session.Secure`: a session that has not gone to QoS 2, and one that has not
  or is sound
* `Succession`, `Succession.step`: the system, and its steps with new sessions
* `Succession.OwnPassedOn`: a QoS 2 call that returned 0 has had its own message passed on
* `Succession.KeyFree`: the next QoS 2 message meets no handshake of an earlier one

## Main results

* `Session.Secure.step`: a step keeps a session secure
* `Succession.Inv.broker`, `Succession.Inv.session`, `Succession.Inv.connect`: the steps keep the
  invariant
* `ownPassedOn_of_keyFree`: runs in which every QoS 2 message meets the condition
-/

namespace SlimMQ

open Buffer EventLoop

/-! ## Sessions with a leftover table -/

/-- The session that `slimmq_connect` starts in a process with this QoS 2 table. -/
def Session.connect (table : Qos2Table) : Session :=
  { Session.init with state := ⟨slimmqConnect, table⟩ }

/-- The session has not gone to QoS 2 yet. -/
structure Session.BeforeQos2 (p : Session) : Prop where
  level : p.state.client.qosLevel ≠ qosExactlyOnce
  started : ∀ m ∈ p.started, m.header.qosLevel ≠ qosExactlyOnce

/-- The facts of a session that does not rely on its QoS 2 table. -/
def Facts.loose (F : Facts) : Facts := ⟨F.called, fun _ => True, fun _ => True⟩

theorem Facts.grows_loose (F : Facts) : F.Grows F.loose :=
  ⟨fun _ h => h, fun _ _ => trivial, fun _ _ => trivial⟩

/-- **The session is sound, or does not rely on its QoS 2 table yet.** -/
def Session.Secure (F : Facts) (p : Session) : Prop := p.Sound F ∨ p.BeforeQos2 ∧ p.Sound F.loose

variable {F F' : Facts} {p p' : Session} {inbox : List Datagram} {e : SessionEvent}
  {ds : List Datagram}

theorem Session.secure_connect (F : Facts) (table : Qos2Table) :
    (Session.connect table).Secure F := by
  have hinit := Session.sound_init F.loose
  have hlevel : qosAtMostOnce ≠ qosExactlyOnce := by decide
  refine Or.inr ⟨⟨hlevel, fun m hm => by cases hm⟩, ⟨?_, hinit.numbered, hinit.call,
    hinit.returned⟩⟩
  exact ⟨hinit.state.wellFormed, hinit.state.acks, fun _ _ => trivial, fun _ _ => trivial⟩

theorem Session.Secure.mono (h : p.Secure F) (hg : F.Grows F') : p.Secure F' := by
  rcases h with h | ⟨hb, h⟩
  · exact Or.inl (h.mono hg)
  · exact Or.inr ⟨hb, h.mono ⟨hg.called, fun _ _ => trivial, fun _ _ => trivial⟩⟩

theorem Session.Secure.numbered (h : p.Secure F) :
    Numbered p.state.client.nextMsgId p.issued p.started := by
  rcases h with h | ⟨-, h⟩
  · exact h.numbered
  · exact h.numbered

/-- The message of a call has the level and the next id of its client. -/
theorem publishStart_header {c c' : SlimmqClient} {topic : Option CString} {data : Mem}
    {dataLen : ℕ} {call : PublishRun ⊕ Int}
    (h : publishStart c topic data dataLen = some (c', call)) :
    c'.qosLevel = c.qosLevel ∧ ∀ m ∈ call.getLeft?.map (·.msg),
      topic.isSome ∧ m.header.qosLevel = c.qosLevel ∧ m.header.msgId = c.nextMsgId := by
  unfold publishStart at h
  split at h
  · obtain ⟨rfl, rfl⟩ := Prod.mk.inj (Option.some.inj h)
    exact ⟨rfl, by simp⟩
  · dsimp only at h
    split at h
    · cases h
    · split_ifs at h
      · obtain ⟨rfl, rfl⟩ := Prod.mk.inj (Option.some.inj h)
        exact ⟨rfl, by simp⟩
      · obtain ⟨rfl, rfl⟩ := Prod.mk.inj (Option.some.inj h)
        refine ⟨rfl, fun m hm => ?_⟩
        obtain rfl : _ = m := by simpa using hm
        exact ⟨rfl, rfl, rfl⟩

/-- **What a step does to the level and the messages of a session**: only `slimmq_set_qos` changes
the level, and only `slimmq_publish` adds a message, at the level and with the next id. -/
theorem Session.step_level (hs : p.step inbox e = some (p', ds)) :
    ((∃ q, e = .setQos q) ∨ p'.state.client.qosLevel = p.state.client.qosLevel) ∧
      ∀ m ∈ p'.started, m ∈ p.started ∨ (∃ t data len, e = .publish (some t) data len) ∧
        m.header.qosLevel = p.state.client.qosLevel ∧
        m.header.msgId = p.state.client.nextMsgId := by
  cases Session.step_stepped hs with
  | @receive r hr =>
    refine ⟨Or.inr ?_, fun m hm => Or.inl hm⟩
    have hheard := listenerStep_heard p.state r
    generalize listenerStep p.state r = s' at hheard ⊢
    cases hheard <;> rfl
  | @publish topic data dataLen c call hc hstart =>
    obtain ⟨hq, hm⟩ := publishStart_header hstart
    refine ⟨Or.inr hq, fun m hmem => ?_⟩
    rcases List.mem_append.mp hmem with hmem | hmem
    -- the new message
    · obtain ⟨ht, hlevel, hid⟩ := hm m (Option.mem_toList.mp hmem)
      obtain ⟨t, rfl⟩ := Option.isSome_iff_exists.mp ht
      exact Or.inr ⟨⟨t, data, dataLen, rfl⟩, hlevel, hid⟩
    · exact Or.inl hmem
  | @advance sendOk run hc =>
    refine ⟨Or.inr ?_, fun m hm => Or.inl hm⟩
    have ha := publishStep_advance p.state run sendOk
    show (publishStep p.state run sendOk).state.client.qosLevel = _
    generalize publishStep p.state run sendOk = res at ha ⊢
    cases ha <;> rfl
  | @setQos qosLevel => exact ⟨Or.inl ⟨qosLevel, rfl⟩, fun m hm => Or.inl hm⟩
  | nextEvent hnext =>
    obtain ⟨q, rfl⟩ := slimmqNextEvent_state hnext
    exact ⟨Or.inr rfl, fun m hm => Or.inl hm⟩
  | _ => exact ⟨Or.inr rfl, fun m hm => Or.inl hm⟩

/-- A session that has not gone to QoS 2 is at no place of a handshake. -/
theorem Session.BeforeQos2.pc_qos (hb : p.BeforeQos2) {run : PublishRun}
    (hrun : run.Sound F p.started) : run.pc.qos ≠ some qosExactlyOnce :=
  fun hq => hb.started run.msg hrun.mem (hrun.atQos _ hq)

/-- It sends no release. -/
theorem Session.BeforeQos2.sendable (hb : p.BeforeQos2) (h : p.Sound F')
    (hs : p.step inbox e = some (p', ds)) : ∀ d ∈ ds, Sendable F p'.started d := by
  intro d hd
  cases Session.step_stepped hs with
  | @advance sendOk run hc =>
    have hrun := h.call run hc
    have ha := publishStep_advance p.state run sendOk
    show Sendable F p.started d
    generalize publishStep p.state run sendOk = res at ha hd
    cases ha with
    | wait hs hm hq hrel hrem =>
      rcases hs with rfl | rfl
      · cases hd
      · exact .publish run.msg hrun.mem (List.mem_singleton.mp hd)
    | sent hq => exact .publish run.msg hrun.mem (List.mem_singleton.mp hd)
    | release hpc hs =>
      refine absurd ?_ (hb.pc_qos hrun)
      rw [hpc]
      rfl
    | _ => cases hd
  | subscribe => exact slimmqSubscribe_sendable d hd
  -- the other steps send nothing
  | _ => cases hd

/-- With its table cleared, such a session is sound. -/
theorem Session.Sound.of_loose (h : p.Sound F.loose)
    (hm : ∀ m ∈ p.started, m.header.qosLevel ≠ qosExactlyOnce)
    (ht : p.state.table = qos2TableInit) : p.Sound F where
  state :=
    { wellFormed := h.state.wellFormed
      acks := h.state.acks
      received := fun id hid => absurd (ht ▸ hid) not_holds_qos2TableInit
      completed := fun id hid => absurd (ht ▸ hid) not_holds_qos2TableInit }
  numbered := h.numbered
  call := fun run hr =>
    have hrun := h.call run hr
    { mem := hrun.mem
      atQos := hrun.atQos
      release := fun hpc => absurd (hrun.atQos _ (by rw [hpc]; rfl)) (hm run.msg hrun.mem)
      remove := fun hpc => absurd (hrun.atQos _ (by rw [hpc]; rfl)) (hm run.msg hrun.mem) }
  returned := fun x hx =>
    { mem := (h.returned x hx).mem
      called := (h.returned x hx).called
      completed := fun _ hq => absurd hq (hm x.1 (h.returned x hx).mem) }

/-- **A step keeps a session secure**, and sends only what it may. -/
theorem Session.Secure.step (h : p.Secure F) (hin : ∀ d ∈ inbox, Inboxed F d)
    (hs : p.step inbox e = some (p', ds)) (hid : p'.issued < 2 ^ 32) :
    p'.Secure F ∧ ∀ d ∈ ds, Sendable F p'.started d := by
  rcases h with h | ⟨hb, h⟩
  · obtain ⟨hsound, hsend⟩ := h.step hin hs hid
    exact ⟨Or.inl hsound, hsend⟩
  · refine ⟨?_, hb.sendable h hs⟩
    obtain ⟨hsound, -⟩ := h.step (fun d hd => (hin d hd).mono F.grows_loose) hs hid
    obtain ⟨hlevel, hstarted⟩ := Session.step_level hs
    have hm : ∀ m ∈ p'.started, m.header.qosLevel ≠ qosExactlyOnce := by
      intro m hm
      rcases hstarted m hm with hm | ⟨-, hq, -⟩
      · exact hb.started m hm
      · rw [hq]
        exact hb.level
    by_cases hq : p'.state.client.qosLevel = qosExactlyOnce
    -- the step to QoS 2 clears the table
    · rcases hlevel with ⟨q, rfl⟩ | hlevel
      · obtain ⟨rfl, -⟩ := Prod.mk.inj (Option.some.inj hs)
        exact Or.inl (hsound.of_loose hm (if_pos hq))
      · exact absurd (hlevel ▸ hq) hb.level
    · exact Or.inr ⟨⟨hq, hm⟩, hsound⟩

/-! ## What the broker does for an entry -/

section Entries

variable {b : Broker} {r : Reception} {t : PendingTable} {outs : List BrokerOutput}

/-- A status stays, is completed, leaves RECEIVED, or appears with a call. -/
theorem Effect.status_cases (h : Effect b r t outs) (k : PendingKey) :
    pendingTableGet t k = pendingTableGet b.table k ∨ pendingTableGet t k = some .completed ∨
      pendingTableGet b.table k = some .received ∨
      r.key = k ∧ .publish r.clientAddr r.call ∈ outs := by
  by_cases hk : r.key = k
  · subst hk
    cases h with
    | first now h hq hn hr => exact Or.inr (Or.inr (Or.inr ⟨rfl, List.mem_cons_self⟩))
    | received now h hs => exact Or.inr (Or.inr (Or.inl hs))
    | release now₁ now₂ h => exact Or.inr (Or.inl (pendingTableGet_update_self ..))
    | _ => exact Or.inl rfl
  · exact Or.inl (h.of_ne hk).1

/-- A CONTROL_RECEIVED answers a QoS 2 PUBLISH, which is passed on or has an entry. -/
theorem Effect.of_received (h : Effect b r t outs) {id : UInt32} {a : SockaddrIn}
    (hm : .reply a (controlBytes (controlHeader id) controlReceived) ∈ outs) :
    r.PublishesQos2 (a, id) ∧
      (.publish r.clientAddr r.call ∈ outs ∨ (pendingTableGet b.table (a, id)).isSome) := by
  -- its address and id are those of the datagram
  have hkey : ∀ o, o = r.controlReply controlReceived →
      .reply a (controlBytes (controlHeader id) controlReceived) = o → r.key = (a, id) := by
    rintro o rfl ho
    obtain ⟨ha, hb⟩ := BrokerOutput.reply.inj ho
    exact Prod.ext ha.symm (controlBytes_inj hb).1.symm
  cases h with
  | silent => cases hm
  | forward h hq hr =>
    rcases hr with rfl | ⟨-, rfl⟩
    · simp at hm
    · have hack : .reply a (controlBytes (controlHeader id) controlReceived) = r.ackReply := by
        simpa using hm
      exact absurd (BrokerOutput.reply.inj hack).2.symm (ackHeader_encode_ne _ _ _)
  | first now h hq hn hr =>
    rcases hr with rfl | rfl
    · simp at hm
    · have hk := hkey _ rfl (by simpa using hm)
      exact ⟨⟨h, hq, hk⟩, Or.inl List.mem_cons_self⟩
  | again h hq hs =>
    have hk := hkey _ rfl (List.mem_singleton.mp hm)
    exact ⟨⟨h, hq, hk⟩, Or.inr (by rw [← hk, hs]; rfl)⟩
  | received now h hs => cases hm
  | release now₁ now₂ h =>
    have hd := (controlBytes_inj (BrokerOutput.reply.inj (List.mem_singleton.mp hm)).2).2
    cases hd

/-- A completed message is dropped without an answer. -/
theorem brokerIteration_of_completed {k : PendingKey} (h : r.PublishesQos2 k)
    (hk : pendingTableGet b.table k = some .completed) : brokerIteration b r = .ok b [] := by
  obtain ⟨hp, hq, rfl⟩ := h
  have hk' : pendingTableGet b.table (r.clientAddr, r.header.msgId) = some .completed := hk
  rw [brokerIteration_of_publishes b hp]
  simp only [handlePublish, if_pos hq, hk']

end Entries

/-! ## Successions -/

/-- A system in which sessions follow one another at an address. `since a` is the number of outputs
that the broker had made when the session at `a` began. -/
structure Succession extends System where
  since : SockaddrIn → ℕ

/-- The state at the start. -/
def Succession.init : Succession := { System.init with since := fun _ => 0 }

/-- The application calls `slimmq_publish` with a topic. -/
def SessionEvent.startsCall : SessionEvent → Bool
  | .publish topic _ _ => topic.isSome
  | _ => false

/-- What happens in a succession. -/
inductive SuccessionEvent
  /-- The broker gets a datagram. -/
  | broker (r : Reception)
  /-- Something happens in the session at an address. -/
  | session (a : SockaddrIn) (e : SessionEvent)
  /-- The session at an address has ended at some point, and a new one begins there, in a process
  with this QoS 2 table. -/
  | connect (a : SockaddrIn) (table : Qos2Table)

namespace Succession

/-- The outputs of the broker since the session at an address has begun. -/
def current (s : Succession) (a : SockaddrIn) : List BrokerOutput := s.log.drop (s.since a)

/-- All datagrams that the broker has sent to this session. -/
def mail (s : Succession) (a : SockaddrIn) : List Datagram :=
  (s.current a).filterMap (BrokerOutput.datagramTo a)

/-- The succession after an iteration of the broker. -/
def afterBroker (s : Succession) (r : Reception) : Succession :=
  { s with toSystem := s.toSystem.afterBroker r }

/-- The succession after a step of a session that sends some datagrams. -/
def afterSession (s : Succession) (a : SockaddrIn) (p : Session) (ds : List Datagram) :
    Succession :=
  { s with toSystem := s.toSystem.afterSession a p ds }

/-- A new session at an address; no datagram of the earlier one is left in the network. -/
def afterConnect (s : Succession) (a : SockaddrIn) (table : Qos2Table) : Succession :=
  { s with
    sessions := Function.update s.sessions a (Session.connect table)
    sent := s.sent.filter (·.1 ≠ a)
    since := Function.update s.since a s.log.length }

/-- **One step of a succession.** -/
def step (s : Succession) : SuccessionEvent → Option Succession
  | .broker r =>
    if s.brokerUp = true ∧ (r.clientAddr, r.datagram) ∈ s.sent then some (s.afterBroker r) else none
  | .session a e =>
    ((s.sessions a).step (s.mail a) e).map fun r => s.afterSession a r.1 r.2
  | .connect a table => some (s.afterConnect a table)

/-- **A QoS 2 call that returned 0 has had its own message passed on**, since its session began. -/
def OwnPassedOn (s : Succession) : Prop :=
  ∀ a m, (m, 0) ∈ (s.sessions a).returned → m.header.qosLevel = qosExactlyOnce →
    m.call ∈ publishCalls (a, m.header.msgId) (s.current a)

/-- The broker is in no handshake for the key. -/
def NoHandshake (s : Succession) (k : PendingKey) : Prop :=
  pendingTableGet s.broker.table k = none ∨ pendingTableGet s.broker.table k = some .completed

/-- **The condition on a step**: a session takes fewer than `2 ^ 32` message ids, and when it starts
a call at QoS 2, the broker is in no handshake for its address and the id that it takes. -/
def KeyFree (s : Succession) : SuccessionEvent → Prop
  | .session a e => (s.sessions a).issued + 1 < 2 ^ 32 ∧
    (e.startsCall → (s.sessions a).state.client.qosLevel = qosExactlyOnce →
      s.NoHandshake (a, (s.sessions a).state.client.nextMsgId))
  | _ => True

instance (s : Succession) (k : PendingKey) : Decidable (s.NoHandshake k) :=
  inferInstanceAs (Decidable (_ ∨ _))

instance (s : Succession) : (e : SuccessionEvent) → Decidable (s.KeyFree e)
  | .session _ _ => inferInstanceAs (Decidable (_ ∧ (_ → _ → _)))
  | .broker _ => inferInstanceAs (Decidable True)
  | .connect _ _ => inferInstanceAs (Decidable True)

/-- What the broker has done for the messages of the session at an address. A session relies on no
more than that it was called for a message. -/
def facts (s : Succession) (a : SockaddrIn) : Facts :=
  let called id := publishCalls (a, id) (s.current a) ≠ []
  ⟨called, called, called⟩

/-- **The invariant of a succession.** -/
structure Inv (s : Succession) : Prop where
  since : ∀ a, s.since a ≤ s.log.length
  sessions : ∀ a, (s.sessions a).Secure (s.facts a)
  /-- Each session has sent only what it may. -/
  sent : ∀ x ∈ s.sent, Sendable (s.facts x.1) (s.sessions x.1).started x.2
  /-- The broker has sent to each session only what is true. -/
  mail : ∀ a, ∀ d ∈ s.mail a, Inboxed (s.facts a) d
  /-- For each session the broker has passed on only messages of it. -/
  calls : ∀ k, ∀ c ∈ publishCalls k (s.current k.1), ∃ m ∈ (s.sessions k.1).started, c = m.call
  /-- A QoS 2 message of a session whose handshake is under way has been passed on. -/
  entries : ∀ a, ∀ m ∈ (s.sessions a).started, m.header.qosLevel = qosExactlyOnce →
    s.NoHandshake (a, m.header.msgId) ∨ (s.facts a).called m.header.msgId

theorem inv_init : Succession.init.Inv where
  since a := Nat.le_refl 0
  sessions a := Or.inl (Session.sound_init _)
  sent := by simp [Succession.init, System.init]
  mail a d hd := by cases hd
  calls k c hc := by cases hc
  entries a m hm := by cases hm

/-- The invariant gives what the calls promise. -/
theorem Inv.ownPassedOn {s : Succession} (h : s.Inv) : s.OwnPassedOn := by
  intro a m hm hq
  have hnum := (h.sessions a).numbered
  -- the call has returned by a CONTROL_COMPLETE, and hence after a call of the broker
  obtain ⟨hmem, hcalled⟩ : m ∈ (s.sessions a).started ∧ (s.facts a).called m.header.msgId := by
    rcases h.sessions a with hs | ⟨hb, hs⟩
    · exact ⟨(hs.returned _ hm).mem, (hs.returned _ hm).completed rfl hq⟩
    · exact absurd hq (hb.started m (hs.returned _ hm).mem)
  obtain ⟨c, hc⟩ := List.exists_mem_of_ne_nil _ hcalled
  obtain ⟨m', hm', rfl⟩ := h.calls _ c hc
  obtain ⟨-, hid⟩ := mem_publishCalls.mp hc
  obtain rfl := hnum.unique m' hm' m hmem hid
  exact hc

/-! ## A step of the broker -/

variable {s : Succession} {r : Reception}

theorem current_afterBroker (h : s.Inv) (r : Reception) (a : SockaddrIn) :
    (s.afterBroker r).current a = s.current a ++ (brokerIteration s.broker r).outputs :=
  List.drop_append_of_le_length (h.since a)

theorem called_afterBroker (h : s.Inv) {a : SockaddrIn} {id : UInt32}
    (hc : (s.facts a).called id) : ((s.afterBroker r).facts a).called id := by
  show publishCalls (a, id) ((s.afterBroker r).current a) ≠ []
  rw [current_afterBroker h, publishCalls_append]
  exact List.append_ne_nil_of_left_ne_nil hc _

theorem facts_grows (h : s.Inv) (r : Reception) (a : SockaddrIn) :
    (s.facts a).Grows ((s.afterBroker r).facts a) :=
  ⟨fun _ => called_afterBroker h, fun _ => called_afterBroker h, fun _ => called_afterBroker h⟩

/-- A message that is passed on now is called for. -/
theorem called_of_publish (h : s.Inv)
    (hm : .publish r.clientAddr r.call ∈ (brokerIteration s.broker r).outputs) :
    ((s.afterBroker r).facts r.clientAddr).called r.header.msgId := by
  refine List.ne_nil_of_mem (a := r.call) (mem_publishCalls.mpr ⟨?_, rfl⟩)
  rw [current_afterBroker h]
  exact List.mem_append_right _ hm

/-- A QoS 2 PUBLISH that reaches the broker is of a message of its session. -/
theorem Inv.entry_of_publishesQos2 (h : s.Inv) (hr : (r.clientAddr, r.datagram) ∈ s.sent)
    {k : PendingKey} (hp : r.PublishesQos2 k) : s.NoHandshake k ∨ (s.facts k.1).called k.2 := by
  obtain ⟨hpub, hq, rfl⟩ := hp
  have hsend : Sendable (s.facts r.clientAddr) (s.sessions r.clientAddr).started r.datagram :=
    h.sent _ hr
  obtain ⟨m, hm, hcall⟩ := hsend.call_eq (h.sessions r.clientAddr).numbered.wellFormed hpub
  have hheader : r.header = m.header := congrArg PublishCall.header hcall
  have hentry := h.entries r.clientAddr m hm (hheader ▸ hq)
  rw [← hheader] at hentry
  exact hentry

/-- What an iteration sends to a session is true. -/
theorem Inv.inboxed_broker (h : s.Inv) (hr : (r.clientAddr, r.datagram) ∈ s.sent)
    {a : SockaddrIn} {d : Datagram}
    (ho : ∃ o ∈ (brokerIteration s.broker r).outputs, o.datagramTo a = some d) :
    Inboxed ((s.afterBroker r).facts a) d := by
  have heff := brokerIteration_effect s.broker r
  have hsend : Sendable (s.facts r.clientAddr) (s.sessions r.clientAddr).started r.datagram :=
    h.sent _ hr
  have hwf := (h.sessions r.clientAddr).numbered.wellFormed
  rcases System.datagramTo_cases ho with ⟨ht, bs, hb⟩ | ho
  · exact .forwarded r.header bs hb ht
  · obtain ⟨rfl, ⟨rfl, -⟩ | ⟨rfl, -, hrel⟩ | ⟨rfl, hf⟩⟩ := heff.of_reply ho
    -- CONTROL_RECEIVED: the message is passed on now, or its handshake is under way
    · refine .control (controlHeader r.header.msgId) controlReceived [] rfl rfl (fun _ => ?_) nofun
      obtain ⟨hpub, hcall | hsome⟩ := heff.of_received ho
      · exact called_of_publish h ((mem_handshake rfl).mp hcall)
      · rcases h.entry_of_publishesQos2 hr hpub with (hn | hc) | hc
        · rw [hn] at hsome
          cases hsome
        -- a completed message would not have been answered
        · rw [brokerIteration_of_completed hpub hc] at ho
          cases ho
        · exact called_afterBroker h hc
    -- CONTROL_COMPLETE: the session has released what it has seen received
    · refine .control (controlHeader r.header.msgId) controlComplete [] rfl rfl nofun fun _ => ?_
      exact called_afterBroker h (hsend.pending_of_control hwf hrel.2.1)
    · refine .ack (ackHeader r.header.msgId) [] (by simp) rfl ?_
      exact called_of_publish h ((mem_handshake rfl).mp hf)

/-- **A step of the broker keeps the invariant.** -/
theorem Inv.broker (h : s.Inv) (hr : (r.clientAddr, r.datagram) ∈ s.sent) :
    (s.afterBroker r).Inv := by
  have heff := brokerIteration_effect s.broker r
  have hsend : Sendable (s.facts r.clientAddr) (s.sessions r.clientAddr).started r.datagram :=
    h.sent _ hr
  refine ⟨?_, ?_, ?_, ?_, ?_, ?_⟩
  · intro a
    exact (h.since a).trans (List.prefix_append _ _).length_le
  · intro a
    exact (h.sessions a).mono (facts_grows h r a)
  · intro x hx
    exact (h.sent x hx).mono (facts_grows h r x.1) (List.Subset.refl _)
  · intro a d hd
    obtain ⟨o, ho, hod⟩ := List.mem_filterMap.mp hd
    rcases List.mem_append.mp (current_afterBroker h r a ▸ ho) with ho | ho
    · exact (h.mail a d (List.mem_filterMap.mpr ⟨o, ho, hod⟩)).mono (facts_grows h r a)
    · exact h.inboxed_broker hr ⟨o, ho, hod⟩
  · intro k c hc
    rw [current_afterBroker h, publishCalls_append] at hc
    rcases List.mem_append.mp hc with hc | hc
    · exact h.calls k c hc
    -- a new call is for the datagram, which is a message of its sender
    · obtain ⟨hmem, -⟩ := mem_publishCalls.mp hc
      obtain ⟨hp, hk, rfl⟩ := heff.of_publish ((mem_handshake rfl).mpr hmem)
      rw [hk]
      exact hsend.call_eq (h.sessions r.clientAddr).numbered.wellFormed hp
  · intro a m hm hq
    have hold := h.entries a m hm hq
    rcases heff.status_cases (a, m.header.msgId) with he | he | he | ⟨hk, hmem⟩
    · rcases hold with hold | hold
      · refine Or.inl ?_
        unfold NoHandshake at hold ⊢
        rw [← he] at hold
        exact hold
      · exact Or.inr (called_afterBroker h hold)
    · exact Or.inl (Or.inr he)
    -- RECEIVED is a handshake under way
    · rcases hold with (hn | hc) | hold
      · rw [he] at hn
        cases hn
      · rw [he] at hc
        cases hc
      · exact Or.inr (called_afterBroker h hold)
    -- the entry appears with the call
    · obtain ⟨rfl, hid⟩ := Prod.mk.inj hk
      rw [← hid]
      exact Or.inr (called_of_publish h ((mem_handshake rfl).mp hmem))

/-! ## A step of a session, and a new session -/

variable {a : SockaddrIn}

/-- **A step of a session keeps the invariant**, when its key is free. -/
theorem Inv.session (h : s.Inv) {e : SessionEvent} {p : Session} {ds : List Datagram}
    (hs : (s.sessions a).step (s.mail a) e = some (p, ds)) (hfree : s.KeyFree (.session a e)) :
    (s.afterSession a p ds).Inv := by
  obtain ⟨-, hissued, hsub, -⟩ := Session.step_grows hs
  obtain ⟨hsecure, hsend⟩ :=
    (h.sessions a).step (h.mail a) hs (lt_of_le_of_lt hissued hfree.1)
  -- the other sessions are as before
  have hself : (s.afterSession a p ds).sessions a = p := Function.update_self ..
  have hother : ∀ a' ≠ a, (s.afterSession a p ds).sessions a' = s.sessions a' :=
    fun a' ha => Function.update_of_ne ha ..
  have hstarted : ∀ a',
      (s.sessions a').started ⊆ ((s.afterSession a p ds).sessions a').started := by
    intro a'
    by_cases ha : a' = a
    · subst ha
      rw [hself]
      exact hsub
    · rw [hother a' ha]
      exact List.Subset.refl _
  refine ⟨h.since, ?_, ?_, h.mail, ?_, ?_⟩
  · intro a'
    by_cases ha : a' = a
    · subst ha
      rw [hself]
      exact hsecure
    · rw [hother a' ha]
      exact h.sessions a'
  · intro x hx
    rcases List.mem_append.mp hx with hx | hx
    · exact (h.sent x hx).mono (.refl _) (hstarted x.1)
    · obtain ⟨d, hd, rfl⟩ := List.mem_map.mp hx
      rw [hself]
      exact hsend d hd
  · intro k c hc
    obtain ⟨m, hm, rfl⟩ := h.calls k c hc
    exact ⟨m, hstarted k.1 hm, rfl⟩
  · intro a' m hm hq
    by_cases ha : a' = a
    · subst ha
      rw [hself] at hm
      rcases (Session.step_level hs).2 m hm with hm | ⟨⟨t, data, len, rfl⟩, hlevel, hid⟩
      · exact h.entries a' m hm hq
      -- a new message, by the condition
      · rw [hid]
        exact Or.inl (hfree.2 rfl (hlevel ▸ hq))
    · rw [hother a' ha] at hm
      exact h.entries a' m hm hq

/-- **A new session keeps the invariant**, whatever the earlier one has left behind. -/
theorem Inv.connect (h : s.Inv) (a : SockaddrIn) (table : Qos2Table) :
    (s.afterConnect a table).Inv := by
  have hself : (s.afterConnect a table).sessions a = Session.connect table :=
    Function.update_self ..
  have hother : ∀ a' ≠ a, (s.afterConnect a table).sessions a' = s.sessions a' :=
    fun a' ha => Function.update_of_ne ha ..
  -- nothing was done for the new session, and for the others what was
  have hnew : (s.afterConnect a table).current a = [] := by
    show s.log.drop (Function.update s.since a s.log.length a) = []
    rw [Function.update_self, List.drop_length]
  have hold : ∀ a' ≠ a, (s.afterConnect a table).current a' = s.current a' := by
    intro a' ha
    show s.log.drop (Function.update s.since a s.log.length a') = s.log.drop (s.since a')
    rw [Function.update_of_ne ha]
  have hfacts : ∀ a' ≠ a, (s.afterConnect a table).facts a' = s.facts a' := by
    intro a' ha
    simp only [facts, hold a' ha]
  refine ⟨?_, ?_, ?_, ?_, ?_, ?_⟩
  · intro a'
    show Function.update s.since a s.log.length a' ≤ s.log.length
    by_cases ha : a' = a
    · subst ha
      rw [Function.update_self]
    · rw [Function.update_of_ne ha]
      exact h.since a'
  · intro a'
    by_cases ha : a' = a
    · subst ha
      rw [hself]
      exact Session.secure_connect _ table
    · rw [hother a' ha, hfacts a' ha]
      exact h.sessions a'
  · intro x hx
    obtain ⟨hx, hne⟩ := List.mem_filter.mp hx
    have ha : x.1 ≠ a := of_decide_eq_true hne
    rw [hother x.1 ha, hfacts x.1 ha]
    exact h.sent x hx
  · intro a' d hd
    by_cases ha : a' = a
    · subst ha
      rw [Succession.mail, hnew] at hd
      cases hd
    · rw [Succession.mail, hold a' ha] at hd
      rw [hfacts a' ha]
      exact h.mail a' d hd
  · intro k c hc
    by_cases ha : k.1 = a
    · rw [ha, hnew] at hc
      cases hc
    · rw [hold k.1 ha] at hc
      rw [hother k.1 ha]
      exact h.calls k c hc
  · intro a' m hm hq
    by_cases ha : a' = a
    · subst ha
      rw [hself] at hm
      cases hm
    · rw [hother a' ha] at hm
      rw [hfacts a' ha]
      exact h.entries a' m hm hq

/-! ## Runs -/

/-- **Every step whose key is free keeps the invariant.** -/
theorem Inv.step {s' : Succession} {e : SuccessionEvent} (h : s.Inv) (hfree : s.KeyFree e)
    (hs : s.step e = some s') : s'.Inv := by
  cases e with
  | broker r =>
    simp only [Succession.step] at hs
    split_ifs at hs with hr
    obtain rfl := Option.some.inj hs
    exact h.broker hr.2
  | session a e =>
    obtain ⟨⟨p, ds⟩, hp, rfl⟩ := Option.map_eq_some_iff.mp hs
    exact h.session hp hfree
  | connect a table =>
    obtain rfl := Option.some.inj hs
    exact h.connect a table

end Succession

/-- **A later session is not taken for the earlier one**, in a run in which every QoS 2 message
meets no handshake of an earlier one: in every state reached, a QoS 2 call that has returned 0 has
had its own topic and data passed to `publish_to_subscribers` since its session began. -/
theorem ownPassedOn_of_keyFree (es : List SuccessionEvent) (s : Succession)
    (h : execute Succession.step Succession.init es = some s)
    (hfree : AlongSteps Succession.step Succession.KeyFree Succession.init es) : s.OwnPassedOn := by
  have hinv : s.Inv := execute_history_induction (P := fun _ s => s.Inv) h hfree
    Succession.inv_init fun _ _ _ _ hC hs ih => ih.step hC hs
  exact hinv.ownPassedOn

/-- Something happens in the session of the publisher. -/
def inSession (e : SessionEvent) : SuccessionEvent := .session publisher e

/-- A QoS 2 call of one byte to the topic `a`, up to its first send. -/
def callsQos2 (data : UInt8) : List SuccessionEvent :=
  [inSession (.setQos qosExactlyOnce), inSession (.setRetryPolicy 1000 3),
    inSession (.publish (some ⟨[97], noNul_a⟩) (fun _ => data) 1), inSession (.advance true)]

/-- The PUBLISH of such a call, with this message id, reaches the broker. -/
def publishArrives (id data : UInt8) : SuccessionEvent :=
  .broker (receptionOf publisher [1, 0, 2, 0, 0, id, 0, 0, 0, 0, 1, 1, 3, 0, 1, 1, 97, data])

/-- The rest of the handshake of a message. -/
def handshakeGoesOn (id : UInt8) : List SuccessionEvent :=
  let heard (c : ControlType) : SuccessionEvent := inSession
    (.receive ⟨cleanReceived (controlBytes (controlHeader id.toUInt32) c), 0, true⟩)
  [heard controlReceived, inSession (.advance true), inSession (.advance true),
    inSession (.advance true),
    .broker (receptionOf publisher [1, 3, 2, 0, 0, id, 0, 0, 0, 0, 1, 1, 1, 0, 1, 2]),
    heard controlComplete, inSession (.advance true), inSession (.advance true)]

/-- A session completes its first message and ends; the next one at its address subscribes under the
id 1, and publishes under the id 2. -/
def reusedTrace : List SuccessionEvent :=
  callsQos2 9 ++ [publishArrives 1 9] ++ handshakeGoesOn 1 ++
    [.connect publisher qos2TableInit, inSession (.subscribe ⟨[98], by decide⟩ true)] ++
    callsQos2 7 ++ [publishArrives 2 7] ++ handshakeGoesOn 2

/-- The call of the later session has returned 0, and its message was passed on. -/
theorem ownPassedOn_of_keyFree_reused :
    ∃ s m, execute Succession.step Succession.init reusedTrace = some s ∧
      (m, 0) ∈ (s.sessions publisher).returned ∧ m.header.qosLevel = qosExactlyOnce ∧
      m.call ∈ publishCalls (publisher, m.header.msgId) (s.current publisher) := by
  have hret : (execute Succession.step Succession.init reusedTrace).map (fun s =>
      (s.sessions publisher).returned.map fun x => (x.1.header.qosLevel, x.2)) =
        some [(qosExactlyOnce, 0)] := by
    decide +kernel
  obtain ⟨s, hs, hx⟩ := Option.map_eq_some_iff.mp hret
  obtain ⟨⟨m, ret⟩, hm, he⟩ := List.mem_map.mp (hx ▸ List.mem_singleton_self (qosExactlyOnce, 0))
  obtain ⟨hq, rfl⟩ := Prod.mk.inj he
  exact ⟨s, m, hs, hm, hq, ownPassedOn_of_keyFree reusedTrace s hs (by decide +kernel) publisher m
    hm hq⟩

/-- A session crashes after the broker has got the PUBLISH of its first message; the next one at its
address publishes other data under the id 1. -/
def mistakenTrace : List SuccessionEvent :=
  callsQos2 9 ++ [publishArrives 1 9, .connect publisher qos2TableInit] ++
    callsQos2 7 ++ [publishArrives 1 7] ++ handshakeGoesOn 1

/-- The broker takes the message of the later session for that of the earlier one: its call returns
0, and its data are never passed on. -/
theorem mistakenTrace_not_passedOn :
    ∃ s m, execute Succession.step Succession.init mistakenTrace = some s ∧
      (m, 0) ∈ (s.sessions publisher).returned ∧ m.header.qosLevel = qosExactlyOnce ∧
      m.call ∉ publishCalls (publisher, m.header.msgId) s.log ∧ ¬ s.OwnPassedOn := by
  have hret : (execute Succession.step Succession.init mistakenTrace).map (fun s =>
      (s.sessions publisher).returned.map fun x => (x.1.header.qosLevel, x.1.header.msgId, x.1.data,
        x.2)) = some [(qosExactlyOnce, 1, [7], 0)] := by
    decide +kernel
  have hcalls : (execute Succession.step Succession.init mistakenTrace).map (fun s =>
      (publishCalls (publisher, 1) s.log).map (·.data)) = some [[9]] := by
    decide +kernel
  obtain ⟨s, hs, hreturned⟩ := Option.map_eq_some_iff.mp hret
  rw [hs, Option.map_some, Option.some.injEq] at hcalls
  obtain ⟨⟨m, ret⟩, hm, he⟩ :=
    List.mem_map.mp (hreturned ▸ List.mem_singleton_self (qosExactlyOnce, 1, [7], 0))
  obtain ⟨hq, hid, hdata, rfl⟩ : m.header.qosLevel = qosExactlyOnce ∧ m.header.msgId = 1 ∧
      m.data = [7] ∧ ret = 0 := by simpa using he
  -- what was passed on is the data of the earlier session
  have hnot : m.call ∉ publishCalls (publisher, m.header.msgId) s.log := by
    intro hc
    have hmem := List.mem_map_of_mem (f := PublishCall.data) (hid ▸ hc)
    rw [hcalls, List.mem_singleton, show m.call.data = [7] from hdata] at hmem
    exact absurd hmem (by decide)
  refine ⟨s, m, hs, hm, hq, hnot, fun h => hnot ?_⟩
  obtain ⟨hmem, hk⟩ := mem_publishCalls.mp (h publisher m hm hq)
  exact mem_publishCalls.mpr ⟨List.mem_of_mem_drop hmem, hk⟩

end SlimMQ
