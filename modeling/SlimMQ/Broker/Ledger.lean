import SlimMQ.Broker.Forwarding

/-!
# The broker as a ledger

The abstract broker. It serves requests: a request comes from a client, has a message id, and asks
for one of four things or for nothing. What the broker remembers is the topic tree and a status for
each pair of a client and a message id. A request moves the status of its own key, as a function of
the status before; it may put a client into the tree, pass a message on, and be answered.

On proper datagrams, which are complete and whose topics have no NUL byte and no empty segment, the
loop of `broker.c` is this ledger: nothing is left of the hash chains, the timestamps and the
earlier contents of the buffers, and no iteration ends the process.

## Main definitions

* `Received.Proper`: the datagrams that the ledger speaks about
* `Request`, `Action`: what a client asks for
* `Ledger`, `serve`: the abstract broker, and how it serves a request
* `Broker.ledger`, `Reception.request`: the ledger of a broker, and the request in a datagram

## Main results

* `request_receptionOf`: a request is in the bytes of its datagram
* `brokerIteration_serve`: an iteration on a proper datagram serves its request
* `brokerMainLoop_serve`: a run on proper datagrams serves their requests
-/

namespace SlimMQ

open Buffer EventLoop

/-! ## Proper datagrams -/

namespace Received

/-- The datagram is a PUBLISH or a SUBSCRIBE, and its payload is long enough for the topic that it
declares; the decoder rejects the others. -/
def HasTopic (r : Received) : Prop :=
  (r.header.msgType = msgPublish ∨ r.header.msgType = msgSubscribe) ∧
    topicLen r.mem + 1 ≤ payloadLen r.mem

instance (r : Received) : Decidable r.HasTopic := inferInstanceAs (Decidable (_ ∧ _))

/-- **A proper datagram**: its header and the payload that it declares were received, and its topic,
if it is a PUBLISH or SUBSCRIBE, has no NUL byte and only non-empty segments. -/
structure Proper (r : Received) : Prop where
  complete : headerSize + payloadLen r.mem ≤ r.len
  topic : r.HasTopic → ∃ t : CString, t.bytes = topicBytes r.mem ∧ WellFormedTopic t

instance (r : Received) : Decidable r.Proper :=
  decidable_of_iff (headerSize + payloadLen r.mem ≤ r.len ∧
      (r.HasTopic → ∃ h : 0 ∉ topicBytes r.mem, WellFormedTopic ⟨topicBytes r.mem, h⟩))
    ⟨fun h => ⟨h.1, fun ht => let ⟨h0, hwf⟩ := h.2 ht; ⟨⟨_, h0⟩, rfl, hwf⟩⟩,
      fun h => ⟨h.complete, fun ht => let ⟨t, hb, hwf⟩ := h.topic ht; hb ▸ ⟨t.noNul, hwf⟩⟩⟩

variable {r : Received}

theorem len_le (r : Received) : r.len ≤ bufferSize := List.length_take_le _ _

theorem Proper.headerSize_le (h : r.Proper) : headerSize ≤ r.len :=
  (Nat.le_add_right _ _).trans h.complete

/-- What was received does not depend on the earlier content of the buffer. -/
theorem mem_clean {i : ℕ} (hi : i < r.len) : (cleanReceived r.datagram).mem i = r.mem i := by
  have hlt : i < (r.datagram.take bufferSize).length := hi
  rw [mem, mem, Mem.write_zero hlt]
  exact Mem.write_zero hlt

theorem header_clean (h : headerSize ≤ r.len) : (cleanReceived r.datagram).header = r.header :=
  SlimMsgHeader.decode_congr fun _ hi => mem_clean (Nat.lt_of_lt_of_le hi h)

theorem payloadLen_clean (h : headerSize ≤ r.len) :
    payloadLen (cleanReceived r.datagram).mem = payloadLen r.mem :=
  congrArg (fun hdr : SlimMsgHeader => hdr.payloadLength.toNat) (header_clean h)

theorem topicLen_clean (h : headerSize < r.len) :
    topicLen (cleanReceived r.datagram).mem = topicLen r.mem :=
  congrArg UInt8.toNat (mem_clean h)

/-- The fields of a complete payload. -/
theorem fields_clean (h : headerSize + payloadLen r.mem ≤ r.len)
    (hp : topicLen r.mem + 1 ≤ payloadLen r.mem) :
    topicBytes (cleanReceived r.datagram).mem = topicBytes r.mem ∧
      dataBytes (cleanReceived r.datagram).mem = dataBytes r.mem := by
  have htl : topicLen (cleanReceived r.datagram).mem = topicLen r.mem :=
    topicLen_clean (by omega)
  have hdl : dataLen (cleanReceived r.datagram).mem = dataLen r.mem := by
    rw [dataLen, dataLen, htl, payloadLen_clean (by omega)]
  have hlen : dataLen r.mem = payloadLen r.mem - (1 + topicLen r.mem) := rfl
  constructor
  · rw [topicBytes, topicBytes, htl]
    exact Mem.read_congr fun i _ hi => mem_clean (by omega)
  · rw [dataBytes, dataBytes, htl, hdl]
    exact Mem.read_congr fun i _ hi => mem_clean (by omega)

/-- Whether a datagram is proper does not depend on the earlier content of the buffer. -/
theorem Proper.of_clean (h : (cleanReceived r.datagram).Proper) : r.Proper := by
  have hle : headerSize ≤ r.len := h.headerSize_le
  have hp := payloadLen_clean hle
  have hc : headerSize + payloadLen r.mem ≤ r.len := hp ▸ h.complete
  refine ⟨hc, fun ht => ?_⟩
  have hlt : headerSize < r.len := by
    have := ht.2
    omega
  obtain ⟨t, hb, hwf⟩ := h.topic (by rwa [HasTopic, header_clean hle, hp, topicLen_clean hlt])
  exact ⟨t, hb.trans (fields_clean hc ht.2).1, hwf⟩

/-- The topic of a proper datagram. -/
theorem Proper.topicStr (h : r.Proper) (ht : r.HasTopic) :
    0 ∉ topicBytes r.mem ∧ r.topicStr.bytes = topicBytes r.mem ∧ WellFormedTopic r.topicStr := by
  obtain ⟨t, hb, hwf⟩ := h.topic ht
  have h0 : 0 ∉ topicBytes r.mem := hb ▸ t.noNul
  have hbytes : r.topicStr.bytes = topicBytes r.mem :=
    bytes_publishedTopic_of_noNul r.mem r.topic h0
  obtain rfl : r.topicStr = t := CString.ext (hbytes.trans hb.symm)
  exact ⟨h0, hbytes, hwf⟩

end Received

/-! ## Requests -/

/-- **What a client asks for.** -/
inductive Action
  | nothing
  | subscribe (topic : CString)
  | publish (call : PublishCall)
  | release
  | received

/-- A request: who asks, under which message id, and for what. -/
structure Request where
  client : SockaddrIn
  msgId : UInt32
  action : Action

/-- The key of a request. -/
def Request.key (q : Request) : PendingKey := (q.client, q.msgId)

/-- What a proper datagram asks for. -/
def Received.action (r : Received) : Action :=
  if r.header.msgType = msgControl ∧ 0 < payloadLen r.mem then
    if r.mem headerSize = controlRelease then .release
    else if r.mem headerSize = controlReceived then .received
    else .nothing
  else if r.HasTopic then
    if r.header.msgType = msgPublish then .publish ⟨r.header, r.topicStr, dataBytes r.mem⟩
    else .subscribe r.topicStr
  else .nothing

/-- The request in a proper datagram. -/
def Reception.request (r : Reception) : Request where
  client := r.clientAddr
  msgId := r.header.msgId
  action := r.action

theorem Received.action_clean {r : Received} (h : r.Proper) :
    (cleanReceived r.datagram).action = r.action := by
  have hh := header_clean h.headerSize_le
  have hp := payloadLen_clean h.headerSize_le
  by_cases h0 : payloadLen r.mem = 0
  -- an empty payload asks for nothing
  · have hn : ∀ r' : Received, payloadLen r'.mem = 0 → r'.action = .nothing := by
      intro r' h0'
      have hc : ¬ (r'.header.msgType = msgControl ∧ 0 < payloadLen r'.mem) := by omega
      have ht : ¬ r'.HasTopic := fun ht => absurd ht.2 (by omega)
      rw [Received.action, if_neg hc, if_neg ht]
    rw [hn r h0, hn _ (hp.trans h0)]
  · have hlt : headerSize < r.len := by
      have := h.complete
      omega
    have htopic : (cleanReceived r.datagram).HasTopic ↔ r.HasTopic := by
      rw [HasTopic, HasTopic, hh, hp, topicLen_clean hlt]
    simp only [Received.action, hh, hp, mem_clean hlt, htopic]
    by_cases ht : r.HasTopic
    -- the string is that of the topic field
    · obtain ⟨hT, hD⟩ := fields_clean h.complete ht.2
      have hstr : (cleanReceived r.datagram).topicStr = r.topicStr := by
        refine CString.ext ((bytes_publishedTopic _ _).trans ?_)
        rw [hT]
        exact (bytes_publishedTopic r.mem r.topic).symm
      rw [hstr, hD]
    · simp only [if_neg ht]

/-- **A request is in the bytes of its datagram.** -/
theorem request_receptionOf {r : Reception} (h : r.Proper) :
    (receptionOf r.clientAddr r.datagram).request = r.request := by
  have hh := Received.header_clean h.headerSize_le
  have ha := Received.action_clean h
  show Request.mk r.clientAddr (cleanReceived r.datagram).header.msgId
    (cleanReceived r.datagram).action = r.request
  rw [hh, ha]
  rfl

/-! ## The abstract broker -/

namespace Action

/-- The status of the key afterwards: the QoS 2 state machine of one message. -/
def next : Action → Option Qos2State → Option Qos2State
  | .publish c, none => if c.header.qosLevel = qosExactlyOnce then some .received else none
  | .release, _ => some .completed
  | .received, some .received => some .waitRelease
  | _, status => status

/-- The message that is passed on: a QoS 2 message only while its key has no entry. -/
def passedOn : Action → Option Qos2State → Option PublishCall
  | .publish c, status =>
    if c.header.qosLevel = qosExactlyOnce ∧ status ≠ none then none else some c
  | _, _ => none

/-- The answer to the client. -/
def answer (msgId : UInt32) : Action → Option Qos2State → Option Datagram
  | .publish c, status =>
    if c.header.qosLevel = qosExactlyOnce then
      if status = some .completed then none
      else some (controlBytes (controlHeader msgId) controlReceived)
    else if c.header.qosLevel = qosAtLeastOnce then some (ackHeader msgId).encode
    else none
  | .release, _ => some (controlBytes (controlHeader msgId) controlComplete)
  | _, _ => none

/-- The topic tree afterwards. -/
def register (client : SockaddrIn) : Action → TopicNode → TopicNode
  | .subscribe topic, root => (subscribeTopic root topic client).getD root
  | _, root => root

end Action

/-- The frame of a message. -/
def PublishCall.frame (c : PublishCall) : Datagram :=
  c.header.encode ++ UInt8.ofNat c.topic.strlen :: (c.topic.bytes ++ c.data)

/-- **What the broker remembers**: who has subscribed to what, and how far each message has got. -/
@[ext] structure Ledger where
  root : TopicNode
  status : PendingKey → Option Qos2State

namespace Ledger

/-- The recipients of a message. -/
def targets (l : Ledger) (topic : CString) : List SockaddrIn :=
  ((getMatchingSubscribers l.root topic).map SubscriberList.entries).getD []

/-- A message is passed on: the call, and a copy for each recipient. -/
def passOn (l : Ledger) (client : SockaddrIn) (c : PublishCall) : List BrokerOutput :=
  .publish client c :: (l.targets c.topic).map (.forward · c.frame)

end Ledger

/-- **The abstract broker serves a request.** -/
def serve (l : Ledger) (q : Request) : Result Ledger BrokerOutput :=
  let status := l.status q.key
  .ok
    { root := q.action.register q.client l.root
      status := Function.update l.status q.key (q.action.next status) }
    ((q.action.passedOn status).elim [] (l.passOn q.client) ++
      ((q.action.answer q.msgId status).map (.reply q.client)).toList)

/-- The ledger at the start. -/
def ledgerInit : Ledger := ⟨initTopicTable, fun _ => none⟩

/-- The ledger of a broker. -/
def Broker.ledger (b : Broker) : Ledger := ⟨b.topicRoot, pendingTableGet b.table⟩

/-- An update of the pending table, in the ledger. -/
theorem pendingTableGet_update_eq (t : PendingTable) (k : PendingKey) (state : Qos2State)
    (now : Int) :
    pendingTableGet (pendingTableUpdate t k state now) =
      Function.update (pendingTableGet t) k (some state) := by
  funext k'
  rw [pendingTableGet_update, Function.update_apply]

/-! ## Refinement -/

variable {b : Broker} {r : Reception}

/-- A proper datagram with a topic is decoded. -/
theorem Received.Proper.accepts {r : Received} (h : r.Proper) (ht : r.HasTopic) :
    Accepts r.mem r.len (some r.topic) topicSize (some r.data) bufferSize := by
  have hle := h.complete
  have hlen := r.len_le
  exact ⟨h.headerSize_le, Or.inr ⟨ht.2, fun _ _ => topicLen_lt r.mem, fun _ => by omega⟩⟩

/-- A proper control message is decoded unless its payload is empty. -/
theorem Received.Proper.controlAccepts_iff {r : Received} (h : r.Proper) :
    ControlAccepts r.mem r.len bufferSize ↔ 0 < payloadLen r.mem := by
  have hle := h.complete
  have hlen := r.len_le
  have hb : bufferSize = 2048 := rfl
  constructor
  · rintro ⟨-, hl⟩
    -- an empty payload wraps to a length that no buffer has
    by_contra h0
    rw [sizeSub] at hl
    omega
  · intro h0
    refine ⟨by omega, ?_⟩
    rw [sizeSub_of_le (by omega) (by omega)]
    omega

/-- A datagram that is not decoded, or is of another type, is ignored. -/
theorem brokerIteration_of_not_hasTopic (hc : r.header.msgType ≠ msgControl) (ht : ¬ r.HasTopic) :
    brokerIteration b r = .ok b [] := by
  cases hd : r.decoded with
  | error e => exact brokerIteration_of_error b hd
  | ok d =>
    have hacc := (deserializeMessage_ok_iff.mp ⟨d, hd⟩).lengths
    -- a PUBLISH or SUBSCRIBE that is decoded has its topic
    have htype : ∀ m, m = msgPublish ∨ m = msgSubscribe → r.header.msgType ≠ m := by
      rintro m hm rfl
      refine ht ⟨hm, (hacc.resolve_left ?_).1⟩
      rintro (ha | ha)
      · have hm' : msgAck = msgPublish ∨ msgAck = msgSubscribe := ha ▸ hm
        exact absurd hm' (by decide)
      · exact hc ha
    rw [brokerIteration_of_ok b hd, if_neg (htype _ (Or.inr rfl)), if_neg (htype _ (Or.inl rfl)),
      if_neg hc]

/-- A SUBSCRIBE is handled with the topic that the decoder wrote. -/
theorem brokerIteration_of_subscribes (h : r.Proper) (ht : r.HasTopic)
    (hs : r.header.msgType = msgSubscribe) :
    brokerIteration b r = handleSubscribe b r.topicStr r.clientAddr := by
  have ha := (h.accepts ht).lengths
  have hn : ¬ NoTopic (SlimMsgHeader.decode r.mem) := by
    have hs' : (SlimMsgHeader.decode r.mem).msgType = msgSubscribe := hs
    simp only [NoTopic, hs']
    decide
  obtain ⟨hp, htl, hd⟩ := ha.resolve_left hn
  rw [brokerIteration_of_ok b (deserializeMessage_topic h.headerSize_le hn hp htl hd), if_pos hs]
  rfl

theorem serve_nothing {l : Ledger} {q : Request} (h : q.action = .nothing) :
    serve l q = .ok l [] := by
  simp only [serve, h, Action.next, Action.passedOn, Action.answer, Action.register,
    Function.update_eq_self]
  rfl

/-- The control handlers serve their requests. -/
theorem handleControl_serve (header : SlimMsgHeader) (client : SockaddrIn) (now₁ now₂ : Int) :
    (handleControlRelease b header client now₁ now₂).mapState Broker.ledger =
        serve b.ledger ⟨client, header.msgId, .release⟩ ∧
      (handleControlReceived b header client now₁).mapState Broker.ledger =
        serve b.ledger ⟨client, header.msgId, .received⟩ := by
  constructor
  -- the second update of a release writes over the first
  · simp [handleControlRelease, Result.mapState, Result.ok, serve, Broker.ledger, Request.key,
      pendingTableGet_update_eq, Action.next, Action.passedOn, Action.answer, Action.register]
  · unfold handleControlReceived
    split
    · rename_i hk
      simp [Result.mapState, Result.ok, serve, Broker.ledger, Request.key, hk,
        pendingTableGet_update_eq, Action.next, Action.passedOn, Action.answer, Action.register]
    · rename_i hk
      have hnext : Action.next .received (pendingTableGet b.table (client, header.msgId)) =
          pendingTableGet b.table (client, header.msgId) := by
        generalize pendingTableGet b.table (client, header.msgId) = status at hk
        rcases status with - | (- | - | - | -)
        · rfl
        · exact absurd rfl hk
        · rfl
        · rfl
        · rfl
      simp [Result.mapState, Result.ok, serve, Broker.ledger, Request.key, hnext,
        Action.passedOn, Action.answer, Action.register]

/-- A subscription serves its request. -/
theorem handleSubscribe_serve {t : CString} (ht : WellFormedTopic t) (client : SockaddrIn)
    (id : UInt32) :
    (handleSubscribe b t client).mapState Broker.ledger =
      serve b.ledger ⟨client, id, .subscribe t⟩ := by
  obtain ⟨root, hroot, -⟩ := subscribeTopic_of_wellFormed b.topicRoot client ht
  simp [handleSubscribe, hroot, Result.mapState, Result.ok, serve, Broker.ledger, Action.next,
    Action.passedOn, Action.answer, Action.register]

/-- A PUBLISH serves its request, when its call of `publish_to_subscribers` sends the copies. -/
theorem handlePublish_serve {c : PublishCall} {payload : Mem} {n : ℕ} (client : SockaddrIn)
    (now : Int) (hdata : payload.read 0 n = c.data)
    (hsent : publishToSubscribers b.topicRoot c.header c.topic payload n =
      some ((b.ledger.targets c.topic).map (.forward · c.frame))) :
    (handlePublish b c.header c.topic payload n client now).mapState Broker.ledger =
      serve b.ledger ⟨client, c.header.msgId, .publish c⟩ := by
  by_cases h2 : c.header.qosLevel = qosExactlyOnce
  · simp only [handlePublish, if_pos h2, hsent, hdata]
    cases hk : pendingTableGet b.table (client, c.header.msgId) with
    | none =>
      simp [publishThen, Result.mapState, Result.ok, serve, Broker.ledger, Request.key, hk, h2,
        pendingTableGet_update_eq, Action.next, Action.passedOn, Action.answer, Action.register,
        Ledger.passOn]
    | some s =>
      -- an entry is not changed, and nothing is passed on
      cases s <;> simp [Result.mapState, Result.ok, serve, Broker.ledger, Request.key, hk, h2,
        Action.next, Action.passedOn, Action.answer, Action.register]
  · have hnext : ∀ status, Action.next (.publish c) status = status := by
      rintro (- | s)
      · exact if_neg h2
      · rfl
    by_cases h1 : c.header.qosLevel = qosAtLeastOnce
    · have hne : qosAtLeastOnce ≠ qosExactlyOnce := by decide
      simp [handlePublish, hsent, hdata, publishThen, Result.mapState, Result.ok, serve,
        Broker.ledger, hnext, h1, hne, Action.passedOn, Action.answer, Action.register,
        Ledger.passOn]
    · simp [handlePublish, hsent, hdata, publishThen, Result.mapState, Result.ok, serve,
        Broker.ledger, hnext, h1, h2, Action.passedOn, Action.answer, Action.register,
        Ledger.passOn]

/-- **The call of a proper PUBLISH sends its frame to each recipient.** -/
theorem publishToSubscribers_of_proper {root : TopicNode} (hroot : root.segment ≠ hash)
    {status : PendingKey → Option Qos2State} {r : Received} (h : r.Proper) (ht : r.HasTopic) :
    let c : PublishCall := ⟨r.header, r.topicStr, dataBytes r.mem⟩
    r.payload.read 0 r.payloadLength = c.data ∧
      publishToSubscribers root c.header c.topic r.payload r.payloadLength =
        some (((Ledger.mk root status).targets c.topic).map (.forward · c.frame)) := by
  intro c
  obtain ⟨h0, hbytes, hwf⟩ := h.topicStr ht
  have hle := h.complete
  have hlen := r.len_le
  have hn : r.payloadLength = dataLen r.mem := (publishedLength_eq_iff r.topic ht.2).mpr h0
  have hdata : r.payload.read 0 r.payloadLength = c.data := by
    rw [hn]
    exact read_publishedData r.data
  refine ⟨hdata, ?_⟩
  obtain ⟨targets, htargets, -⟩ := getMatchingSubscribers_spec root hroot hwf
  -- the sizes are those of the datagram, which fits the buffer
  have hstr : r.topicStr.strlen = topicLen r.mem := by
    rw [CString.strlen, hbytes, length_topicBytes]
  have hsum : 1 + r.topicStr.strlen + r.payloadLength = payloadLen r.mem := by
    have hp := ht.2
    rw [hstr, hn, dataLen]
    omega
  have hlt := payloadLen_lt r.mem
  have htl : topicLen r.mem < 256 := topicLen_lt r.mem
  have hser := @serializeMessage_eq r.header r.topicStr r.payload r.payloadLength bufferSize
    (by omega) (by omega) (by omega)
  rw [hdata] at hser
  rw [publishToSubscribers_eq htargets hser (by omega), Ledger.targets, htargets]
  rfl

/-- **An iteration on a proper datagram serves its request.** -/
theorem brokerIteration_serve (hroot : b.topicRoot.segment = CString.empty) (h : r.Proper) :
    (brokerIteration b r).mapState Broker.ledger = serve b.ledger r.request := by
  by_cases hc : r.header.msgType = msgControl
  · by_cases hp : 0 < payloadLen r.mem
    -- a control message, by its type
    · have hctl : r.Controls bufferSize (r.mem headerSize) :=
        ⟨h.controlAccepts_iff.mpr hp, hc, rfl⟩
      have hact : r.request.action = if r.mem headerSize = controlRelease then .release
          else if r.mem headerSize = controlReceived then .received else .nothing :=
        if_pos ⟨hc, hp⟩
      rw [brokerIteration_of_controls b hctl]
      split_ifs at hact ⊢ with h₁ h₂
      · exact (handleControl_serve ..).1.trans (by rw [← hact]; rfl)
      · exact (handleControl_serve _ _ _ 0).2.trans (by rw [← hact]; rfl)
      · exact (serve_nothing hact).symm
    · have hact : r.request.action = .nothing := by
        have ht : ¬ r.HasTopic := fun ht => absurd ht.2 (by omega)
        exact (if_neg (by omega)).trans (if_neg ht)
      rw [brokerIteration_of_not_controlAccepts b h.headerSize_le hc
        (fun ha => hp (h.controlAccepts_iff.mp ha)), serve_nothing hact]
      rfl
  · have hnc : ¬ (r.header.msgType = msgControl ∧ 0 < payloadLen r.mem) := fun hc' => hc hc'.1
    by_cases ht : r.HasTopic
    · obtain ⟨-, -, hwf⟩ := h.topicStr ht
      by_cases hp : r.header.msgType = msgPublish
      · have hact : r.request.action = .publish ⟨r.header, r.topicStr, dataBytes r.mem⟩ :=
          (if_neg hnc).trans ((if_pos ht).trans (if_pos hp))
        have hroot' : b.topicRoot.segment ≠ hash := by
          rw [hroot]
          exact empty_ne_hash
        obtain ⟨hdata, hsent⟩ := publishToSubscribers_of_proper hroot' h ht
        rw [brokerIteration_of_publishes b ⟨h.accepts ht, hp⟩]
        exact (handlePublish_serve r.clientAddr (r.time 0) hdata hsent).trans (by rw [← hact]; rfl)
      · have hs : r.header.msgType = msgSubscribe := ht.1.resolve_left hp
        have hact : r.request.action = .subscribe r.topicStr :=
          (if_neg hnc).trans ((if_pos ht).trans (if_neg hp))
        rw [brokerIteration_of_subscribes h ht hs]
        exact (handleSubscribe_serve hwf r.clientAddr r.header.msgId).trans (by rw [← hact]; rfl)
    -- nothing that the loop handles
    · have hact : r.request.action = .nothing := (if_neg hnc).trans (if_neg ht)
      rw [brokerIteration_of_not_hasTopic hc ht, serve_nothing hact]
      rfl

/-- **A run on proper datagrams serves their requests**: what it puts out, and the ledger that it
leaves, are those of the abstract broker. -/
theorem brokerMainLoop_serve {rs : List Reception} (h : ∀ r ∈ rs, r.Proper) :
    (brokerMainLoop brokerInit rs).mapState Broker.ledger =
      run serve ledgerInit (rs.map Reception.request) := by
  -- the segment of the root is all that an iteration needs of the state
  refine mapState_run (f := Broker.ledger) (g := Reception.request)
    (I := fun b => b.topicRoot.segment = CString.empty) (C := fun r => r.Proper) ?_ ?_ rfl h
  · intro b r hb
    exact (segment_brokerIteration b r).trans hb
  · intro b r hb hr
    exact brokerIteration_serve hb hr

end SlimMQ
