import SlimMQ.Client.Acknowledgements
import SlimMQ.System.Runs

/-!
# Where the events of an application come from

An application takes events out of a queue that its listener fills from the network. The network
neither forges nor alters a datagram, and the broker sends a PUBLISH to nobody but the subscribers
that its matcher finds. So every PUBLISH event is a message that some session has published, with
its id and data and with its topic cut to the event's array, and the application's own session has
subscribed to a filter that matches the topic. The matcher sees the non-empty segments of a topic:
with that, the statement needs no condition on the topics.

## Main definitions

* `subscribeFrame`, `System.SubscribedTo`: the datagram of a subscription, and a session that has
  sent it
* `Message.event`, `System.Genuine`: the event of a message, and one that is due to its receiver
* `System.Traced`: the invariant

## Main results

* `brokerIteration_of_subscribeFrame`: the broker reads a subscription as it was sent
* `System.traced_broker`, `System.traced_session`: the steps keep the invariant
* `nextEvent_genuine`: the events that an application takes are due to it
-/

namespace SlimMQ

open Buffer EventLoop Wildcard

/-! ## Subscriptions -/

/-- The datagram of `slimmq_subscribe`, with a message id and a filter. -/
def subscribeFrame (msgId : UInt32) (filter : CString) : Datagram :=
  (clientHeader msgSubscribe qosAtMostOnce msgId (1 + filter.strlen)).encode ++
    UInt8.ofNat filter.strlen :: filter.bytes

theorem slimmqSubscribe_sent {c : SlimmqClient} {filter : CString} {sendOk : Bool} {d : Datagram}
    (hd : d ∈ (slimmqSubscribe c filter sendOk).2.1) :
    filter.strlen ≤ 255 ∧ d = subscribeFrame c.nextMsgId filter := by
  unfold slimmqSubscribe at hd
  dsimp only at hd
  split at hd
  · cases hd
  · rename_i len bytes hser
    split_ifs at hd with hneg
    · cases hd
    · obtain rfl := List.mem_singleton.mp hd
      obtain ⟨hlen, -, hbytes⟩ :=
        serializeMessage_of_nonneg hser (not_lt.mp fun hl => hneg (Or.inl hl))
      refine ⟨hlen, hbytes.trans ?_⟩
      simp [subscribeFrame, Mem.read]

/-- **The broker reads a subscription as it was sent.** -/
theorem brokerIteration_of_subscribeFrame {r : Reception} {msgId : UInt32} {filter : CString}
    (hlen : filter.strlen ≤ 255) (hd : r.datagram = subscribeFrame msgId filter) (b : Broker) :
    brokerIteration b r = handleSubscribe b filter r.clientAddr := by
  have hd' : r.datagram = (clientHeader msgSubscribe qosAtMostOnce msgId
      (1 + filter.strlen)).encode ++ UInt8.ofNat filter.strlen :: (filter.bytes ++ []) := by
    rw [hd, subscribeFrame, List.append_nil]
  have hpay : (clientHeader msgSubscribe qosAtMostOnce msgId
      (1 + filter.strlen)).payloadLength.toNat = 1 + filter.strlen + ([] : List UInt8).length := by
    simp only [clientHeader, UInt16.toNat_ofNat', List.length_nil]
    omega
  have hsize : headerSize + (1 + filter.strlen + ([] : List UInt8).length) ≤ bufferSize := by
    simp only [headerSize, bufferSize, List.length_nil]
    omega
  obtain ⟨htl, htb, -⟩ := Received.fields_of_frame hlen hpay hsize hd'
  have hheader := Received.header_of_append hd'
  have hpl : payloadLen r.mem = 1 + filter.strlen := by
    have : payloadLen r.mem = r.header.payloadLength.toNat := rfl
    rw [this, hheader, hpay, List.length_nil, Nat.add_zero]
  have htype : r.header.msgType = msgSubscribe := by rw [hheader]; rfl
  have hn : ¬ NoTopic (SlimMsgHeader.decode r.mem) := by
    have : (SlimMsgHeader.decode r.mem).msgType = msgSubscribe := htype
    simp only [NoTopic, this]
    decide
  have hle : headerSize ≤ r.len := by
    rw [Received.len, hd', List.take_of_length_le (by rw [length_frame]; exact hsize),
      length_frame]
    exact Nat.le_add_right _ _
  -- the decoder writes the filter to its buffer
  have htopic : r.topicStr = filter := by
    have h0 : 0 ∉ topicBytes r.mem := htb ▸ filter.noNul
    exact CString.ext ((bytes_publishedTopic_of_noNul r.mem r.topic h0).trans htb)
  have hdec : r.decoded = .ok _ := deserializeMessage_topic hle hn (by omega)
    (fun _ _ => topicLen_lt r.mem) (fun _ => by simp only [bufferSize]; omega)
  rw [brokerIteration_of_ok b hdec, if_pos htype]
  change handleSubscribe b r.topicStr r.clientAddr = _
  rw [htopic]

/-- A subscription registers its sender at its filter, and nothing else. -/
theorem hasSubscriber_handleSubscribe {b : Broker} {filter : CString} {client a : SockaddrIn}
    {p : List CString}
    (h : (handleSubscribe b filter client).state.topicRoot.HasSubscriber p a) :
    b.topicRoot.HasSubscriber p a ∨ p = filter.segments slash ∧ a = client := by
  unfold handleSubscribe at h
  by_cases hwf : WellFormedTopic filter
  · obtain ⟨root, hroot, -, hpairs⟩ := subscribeTopic_of_wellFormed b.topicRoot client hwf
    rw [hroot] at h
    exact (hpairs p a).mp h
  · rw [(subscribeTopic_eq_none_iff _ _ _).mpr hwf] at h
    exact Or.inl h

/-- What is no SUBSCRIBE leaves the topic tree. -/
theorem topicRoot_brokerIteration {r : Reception} (h : r.header.msgType ≠ msgSubscribe)
    (b : Broker) : (brokerIteration b r).state.topicRoot = b.topicRoot := by
  cases hd : r.decoded with
  | error e =>
    rw [brokerIteration_of_error b hd]
    rfl
  | ok d =>
    rw [brokerIteration_of_ok b hd, if_neg h]
    split_ifs
    · exact topicRoot_handlePublish ..
    · unfold handleControl
      split
      · rfl
      · split_ifs
        · rfl
        · unfold handleControlReceived
          split <;> rfl
        · rfl
    · rfl

/-! ## The invariant -/

/-- The event that stands for a message: its topic is cut to the event's array. -/
def Message.event (m : Message) : SlimmqEvent :=
  ⟨msgPublish, m.header.msgId, m.topic.take (maxTopicLen - 1), m.data⟩

namespace System

/-- The session at an address has sent a subscription to a filter. -/
def SubscribedTo (s : System) (a : SockaddrIn) (filter : CString) : Prop :=
  filter.strlen ≤ 255 ∧ ∃ msgId, (a, subscribeFrame msgId filter) ∈ s.sent

/-- The message has been published by some session, and is due to the address: its session has
subscribed to a filter that matches the topic. -/
def Due (s : System) (a : SockaddrIn) (m : Message) : Prop :=
  (∃ a', m ∈ (s.sessions a').started) ∧
    ∃ filter, s.SubscribedTo a filter ∧
      Matches plus hash (filter.segments slash) (m.topic.tokens slash)

/-- An event stands for a message that is due to the address. -/
def Genuine (s : System) (a : SockaddrIn) (e : SlimmqEvent) : Prop := ∃ m, s.Due a m ∧ e = m.event

/-- **The invariant**: what a client has sent as a SUBSCRIBE, what is registered in the tree, what
the broker has sent on, what it has replied, and what stands in the queues. -/
structure Traced (s : System) : Prop where
  subscriptions : ∀ x ∈ s.sent, (cleanReceived x.2).header.msgType = msgSubscribe →
    ∃ msgId filter, filter.strlen ≤ 255 ∧ x.2 = subscribeFrame msgId filter
  root : s.broker.topicRoot.segment = CString.empty
  registered : ∀ p a, s.broker.topicRoot.HasSubscriber p a →
    ∃ filter, s.SubscribedTo a filter ∧ p = filter.segments slash
  forwarded : ∀ a bytes, .forward a bytes ∈ s.log → ∃ m, s.Due a m ∧ bytes = m.packet
  replied : ∀ a bytes, .reply a bytes ∈ s.log →
    ∃ (h : SlimMsgHeader) (bs : List UInt8), bytes = h.encode ++ bs ∧ h.msgType ≠ msgPublish
  queued : ∀ a, ∀ e ∈ (s.sessions a).queue, e.msgType = msgAck ∨ s.Genuine a e

variable {s : System} {a : SockaddrIn}

theorem traced_init : System.init.Traced where
  subscriptions := by simp [System.init]
  root := rfl
  registered p a := by
    intro h
    cases p with
    | nil => cases h
    | cons x p =>
      obtain ⟨child, hc, -⟩ := h
      cases hc
  forwarded := by simp [System.init]
  replied := by simp [System.init]
  queued _ e he := by cases he

/-! ## A step of the broker -/

/-- A reply is no PUBLISH. -/
theorem reply_not_publish {b : Broker} {r : Reception} {a : SockaddrIn} {bytes : Datagram}
    (h : .reply a bytes ∈ (brokerIteration b r).outputs) :
    ∃ (hd : SlimMsgHeader) (bs : List UInt8), bytes = hd.encode ++ bs ∧ hd.msgType ≠ msgPublish := by
  have hmem : .reply a bytes ∈ handshake (brokerIteration b r).outputs := (mem_handshake rfl).mpr h
  have hcontrol : msgControl ≠ msgPublish := by decide
  have hack : msgAck ≠ msgPublish := by decide
  obtain ⟨-, ⟨rfl, -⟩ | ⟨rfl, -⟩ | ⟨rfl, -⟩⟩ := (brokerIteration_effect b r).of_reply hmem
  · exact ⟨controlHeader r.header.msgId, [controlReceived], rfl, hcontrol⟩
  · exact ⟨controlHeader r.header.msgId, [controlComplete], rfl, hcontrol⟩
  · exact ⟨ackHeader r.header.msgId, [], (List.append_nil _).symm, hack⟩

/-- A message is due to the addresses that the matcher finds for it. -/
theorem Traced.due_of_target (h : s.Traced) {a' : SockaddrIn} {m : Message}
    (hm : m ∈ (s.sessions a').started) {targets : SubscriberList}
    (ht : getMatchingSubscribers s.broker.topicRoot m.topic = some targets)
    (ha : a ∈ targets.entries) : s.Due a m := by
  have hroot : s.broker.topicRoot.segment ≠ hash := by
    rw [h.root]
    exact empty_ne_hash
  obtain ⟨p, hp, hmatch⟩ := matches_of_mem_getMatchingSubscribers hroot ht ha
  obtain ⟨filter, hsub, rfl⟩ := h.registered p a hp
  exact ⟨⟨a', hm⟩, filter, hsub, hmatch⟩

/-- **A step of the broker keeps the invariant.** -/
theorem traced_broker (hinv : s.Inv) (h : s.Traced) {r : Reception}
    (hr : (r.clientAddr, r.datagram) ∈ s.sent) : (s.afterBroker r).Traced := by
  have hsend := hinv.sent _ hr
  -- whatever a client has sent starts with a header
  have hheader : r.header = (cleanReceived r.datagram).header := by
    obtain ⟨hd, bs, hbytes⟩ : ∃ (hd : SlimMsgHeader) (bs : List UInt8),
        r.datagram = hd.encode ++ bs := by
      cases hsend with
      | publish m hm hd =>
        exact ⟨_, _, hd.trans ((hinv.sessions r.clientAddr).numbered.wellFormed m hm).packet⟩
      | release hd bs hbytes => exact ⟨hd, bs, hbytes⟩
      | subscribe hd bs hbytes => exact ⟨hd, bs, hbytes⟩
    rw [Received.header_of_append hbytes, Received.header_of_append (show
      (cleanReceived r.datagram).datagram = hd.encode ++ bs from hbytes)]
  constructor
  case subscriptions => exact h.subscriptions
  case root =>
    rw [← h.root]
    exact segment_brokerIteration s.broker r
  case registered =>
    intro p a hp
    by_cases hs : r.header.msgType = msgSubscribe
    -- the filter of a subscription is added for its sender
    · obtain ⟨msgId, filter, hlen, hd⟩ := h.subscriptions _ hr (hheader ▸ hs)
      have hit : (s.afterBroker r).broker = (handleSubscribe s.broker filter r.clientAddr).state :=
        congrArg Result.state (brokerIteration_of_subscribeFrame hlen hd s.broker)
      rw [hit] at hp
      rcases hasSubscriber_handleSubscribe hp with hp | ⟨rfl, rfl⟩
      · exact h.registered p a hp
      · have hsent : (r.clientAddr, subscribeFrame msgId filter) ∈ s.sent := by
          rw [← show r.datagram = _ from hd]
          exact hr
        exact ⟨filter, ⟨hlen, msgId, hsent⟩, rfl⟩
    · have hsame : (s.afterBroker r).broker.topicRoot = s.broker.topicRoot :=
        topicRoot_brokerIteration hs s.broker
      rw [hsame] at hp
      exact h.registered p a hp
  case forwarded =>
    intro a bytes hmem
    rcases List.mem_append.mp hmem with hmem | hmem
    · exact h.forwarded a bytes hmem
    -- a new datagram is the packet of the message, for an address that the matcher has found
    · obtain ⟨ht, -⟩ := forward_mem_brokerIteration hmem
      obtain ⟨m, hm, hd⟩ := hsend.exists_message ht
      have hwf := (hinv.sessions r.clientAddr).numbered.wellFormed m hm
      obtain ⟨hbytes, targets, htargets, hdest⟩ := forward_mem_message hwf hd hmem
      exact ⟨m, h.due_of_target hm htargets hdest, hbytes⟩
  case replied =>
    intro a bytes hmem
    rcases List.mem_append.mp hmem with hmem | hmem
    · exact h.replied a bytes hmem
    · exact reply_not_publish hmem
  case queued => exact h.queued

/-! ## A step of a session -/

theorem SubscribedTo.afterSession {filter : CString} (h : s.SubscribedTo a filter)
    (a' : SockaddrIn) (p : Session) (ds : List Datagram) :
    (s.afterSession a' p ds).SubscribedTo a filter := by
  obtain ⟨hlen, msgId, hmem⟩ := h
  exact ⟨hlen, msgId, List.mem_append_left _ hmem⟩

theorem Due.afterSession {m : Message} (h : s.Due a m) {a' : SockaddrIn} {e : SessionEvent}
    {p : Session} {ds : List Datagram}
    (hs : (s.sessions a').step (s.inbox a') e = some (p, ds)) : (s.afterSession a' p ds).Due a m := by
  obtain ⟨⟨k, hm⟩, filter, hsub, hmatch⟩ := h
  exact ⟨⟨k, started_subset_afterSession hs k hm⟩, filter, hsub.afterSession a' p ds, hmatch⟩

/-- What a session sends as a SUBSCRIBE is a subscription. -/
theorem subscribeFrame_of_step {F : Facts} {p p' : Session} {inbox : List Datagram}
    {e : SessionEvent} {ds : List Datagram} (hsound : p.Sound F)
    (hs : p.step inbox e = some (p', ds)) {d : Datagram} (hd : d ∈ ds)
    (ht : (cleanReceived d).header.msgType = msgSubscribe) :
    ∃ msgId filter, filter.strlen ≤ 255 ∧ d = subscribeFrame msgId filter := by
  -- a packet and a release have other types
  have hne : ∀ (h : SlimMsgHeader) (bs : List UInt8), d = h.encode ++ bs →
      h.msgType = msgSubscribe := by
    intro h bs hbytes
    rwa [Received.header_of_append (show (cleanReceived d).datagram = _ from hbytes)] at ht
  cases Session.step_stepped hs with
  | subscribe =>
    obtain ⟨hlen, rfl⟩ := slimmqSubscribe_sent hd
    exact ⟨_, _, hlen, rfl⟩
  | @advance sendOk run hc =>
    have hwf := hsound.numbered.wellFormed run.msg (hsound.call run hc).mem
    have hpacket : d ≠ run.msg.packet := by
      intro he
      have := hne _ _ (he.trans hwf.packet)
      rw [hwf.type] at this
      cases this
    have ha := publishStep_advance p.state run sendOk
    generalize publishStep p.state run sendOk = res at ha hd
    cases ha with
    | wait hsent =>
      rcases hsent with rfl | rfl
      · cases hd
      · exact absurd (List.mem_singleton.mp hd) hpacket
    | sent => exact absurd (List.mem_singleton.mp hd) hpacket
    | release hpc hrel =>
      obtain ⟨len, hb⟩ := hrel d hd
      obtain ⟨hdr, hty, -, hbytes⟩ := releaseBytes_eq hb
      have := hne _ _ hbytes
      rw [hty] at this
      cases this
    | _ => cases hd
  | _ => cases hd

/-- A step in the system is one that the session could make with the datagram alone. -/
theorem next_of_step {p p' : Session} {inbox : List Datagram} {e : SessionEvent}
    {ds : List Datagram} (hs : p.step inbox e = some (p', ds)) : p.next e = some p' := by
  cases e with
  | receive r =>
    simp only [Session.step] at hs
    split_ifs at hs
    obtain ⟨rfl, -⟩ := Prod.mk.inj (Option.some.inj hs)
    exact Session.next_receive p r
  | _ => exact congrArg (Option.map Prod.fst) hs

/-- A PUBLISH in an inbox gives the event of a message that is due. -/
theorem Traced.publishEvent (hinv : s.Inv) (h : s.Traced) {r : ClientReception}
    (hr : r.datagram ∈ s.inbox a) (hp : r.Publishes) :
    ∃ m, s.Due a m ∧ r.publishEvent = m.event := by
  rcases mem_inbox.mp hr with hmem | hmem
  · obtain ⟨m, hdue, hd⟩ := h.forwarded a _ hmem
    obtain ⟨k, hm⟩ := hdue.1
    have hwf := (hinv.sessions k).numbered.wellFormed m hm
    obtain ⟨-, hheader, htopic, hdata⟩ := hwf.published hd
    refine ⟨m, hdue, ?_⟩
    rw [ClientReception.publishEvent, pushedEvent, hheader, htopic, hdata]
    rfl
  -- a reply is no PUBLISH
  · obtain ⟨hd, bs, hbytes, hne⟩ := h.replied a _ hmem
    have ht := hp.2
    rw [Received.header_of_append hbytes] at ht
    exact absurd ht hne

/-- **A step of a session keeps the invariant.** -/
theorem traced_session (hinv : s.Inv) (h : s.Traced) {e : SessionEvent} {p : Session}
    {ds : List Datagram} (hs : (s.sessions a).step (s.inbox a) e = some (p, ds)) :
    (s.afterSession a p ds).Traced := by
  have hgenuine : ∀ a' e', s.Genuine a' e' → (s.afterSession a p ds).Genuine a' e' := by
    rintro a' e' ⟨m, hdue, he⟩
    exact ⟨m, hdue.afterSession hs, he⟩
  constructor
  case subscriptions =>
    intro x hx
    rcases List.mem_append.mp hx with hx | hx
    · exact h.subscriptions x hx
    · obtain ⟨d, hd, rfl⟩ := List.mem_map.mp hx
      exact subscribeFrame_of_step (hinv.sessions a) hs hd
  case root => exact h.root
  case registered =>
    intro path a' hp
    obtain ⟨filter, hsub, hpath⟩ := h.registered path a' hp
    exact ⟨filter, hsub.afterSession a p ds, hpath⟩
  case forwarded =>
    intro a' bytes hmem
    obtain ⟨m, hdue, hbytes⟩ := h.forwarded a' bytes hmem
    exact ⟨m, hdue.afterSession hs, hbytes⟩
  case replied => exact h.replied
  case queued =>
    have hold : ∀ a', ∀ e' ∈ (s.sessions a').queue,
        e'.msgType = msgAck ∨ (s.afterSession a p ds).Genuine a' e' := fun a' e' he' =>
      (h.queued a' e' he').imp_right (hgenuine a' e')
    intro a' e' he'
    by_cases ha : a' = a
    · subst ha
      rw [sessions_afterSession_self] at he'
      obtain ⟨-, hchange⟩ :=
        Session.next_queue (hinv.sessions a').state.wellFormed (next_of_step hs)
      generalize p.queue = l at hchange he'
      -- what was in the queue before is genuine, and so is what enters it
      cases hchange with
      | same => exact hold a' e' he'
      | acked r hr =>
        rcases List.mem_append.mp he' with he' | he'
        · exact hold a' e' he'
        · rw [List.mem_singleton.mp he']
          exact Or.inl rfl
      | published r hr =>
        rcases List.mem_append.mp he' with he' | he'
        · exact hold a' e' he'
        · cases Session.step_stepped hs with
          | receive hin =>
            obtain ⟨m, hdue, hev⟩ := h.publishEvent hinv hin hr
            exact Or.inr (hgenuine a' e' ⟨m, hdue, (List.mem_singleton.mp he').trans hev⟩)
      | waited ok hc hpc hi hl hack =>
        apply hold a' e'
        rw [hl]
        exact ((List.sublist_cons_self _ _).append_left _).subset he'
      | taken n hn hl =>
        apply hold a' e'
        rw [hl]
        exact List.mem_cons_of_mem _ he'
    · rw [sessions_afterSession_of_ne ha] at he'
      exact hold a' e' he'

theorem traced_of_execute {es : List Event} (h : execute System.step System.init es = some s)
    (hid : s.FewIds) : s.Inv ∧ s.Traced :=
  execute_inv_induction h hid inv_init traced_init
    (fun _ _ hinv _ hr ht => traced_broker hinv ht hr)
    fun _ _ _ _ _ hinv hs _ ht => traced_session hinv ht hs

end System

/-! ## What an application takes -/

/-- A client that subscribes to the topic `a` and publishes to it. -/
def ownTopicTrace : List Event :=
  .session publisher (.subscribe ⟨[97], noNul_a⟩ true) ::
    .broker (receptionOf publisher [1, 4, 0, 0, 0, 1, 0, 0, 0, 0, 1, 1, 2, 0, 1, 1, 97]) ::
    publishes qosAtMostOnce ++
      [.broker (receptionOf publisher [1, 0, 0, 0, 0, 2, 0, 0, 0, 0, 1, 1, 3, 0, 1, 1, 97, 9]),
        hears [1, 0, 0, 0, 0, 2, 0, 0, 0, 0, 1, 1, 3, 0, 1, 1, 97, 9]]

end SlimMQ
