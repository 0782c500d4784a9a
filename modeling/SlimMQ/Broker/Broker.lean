import SlimMQ.Broker.PendingTable
import SlimMQ.Library.EventLoop
import SlimMQ.Topic.TopicTable
import SlimMQ.Wire.Published

/-!
# The broker

The handlers and the main loop of `broker.c`. One iteration of the loop receives one datagram and
handles it. Its local buffers hold whatever the stack held before, so the iteration takes their
earlier contents as inputs, beside the datagram, its sender and the clock. What it does to the
world are its outputs: each call of `publish_to_subscribers`, each datagram that call sends on, and
each reply to the client. A null segment passed to `strcmp` or `strdup` ends the process.

## Main definitions

* `Broker`: the topic tree and the pending table
* `Reception`: what one iteration reads
* `handleSubscribe`, `handlePublish`, `handleControl`: the handlers
* `brokerIteration`, `brokerMainLoop`: one iteration, and the loop

## Main results

* `brokerIteration_handled`: an iteration ignores its datagram or runs one handler on its header
* `brokerIteration_of_publishes`, `brokerIteration_of_controls`: which handler it runs
-/

namespace SlimMQ

open Buffer EventLoop

/-- The state of the broker process. -/
structure Broker where
  topicRoot : TopicNode
  table : PendingTable

/-- The state in which `main` enters the loop. -/
def brokerInit : Broker := ⟨initTopicTable, pendingTableInit⟩

/-- The arguments of a call of `publish_to_subscribers`. -/
structure PublishCall where
  header : SlimMsgHeader
  topic : CString
  data : List UInt8

/-- What an iteration does to the world. -/
inductive BrokerOutput
  /-- A call of `publish_to_subscribers`, for a message of this client. -/
  | publish (client : SockaddrIn) (call : PublishCall)
  /-- A datagram that `publish_to_subscribers` sends on. -/
  | forward (dest : SockaddrIn) (bytes : Datagram)
  /-- A datagram that a handler sends back to the client. -/
  | reply (dest : SockaddrIn) (bytes : Datagram)

/-! ## Handlers -/

/-- `handle_subscribe`. -/
def handleSubscribe (b : Broker) (topicStr : CString) (client : SockaddrIn) :
    Result Broker BrokerOutput :=
  match subscribeTopic b.topicRoot topicStr client with
  | none => .fault b []
  | some root => .ok { b with topicRoot := root } []

/-- One turn of the loop of `publish_to_subscribers`: the message is encoded and sent. -/
def forwardTo (header : SlimMsgHeader) (topicStr : CString) (payload : Mem) (payloadLength : ℕ)
    (dest : SockaddrIn) : Option (List BrokerOutput) :=
  match serializeMessage header (some topicStr) payload payloadLength bufferSize with
  | none => none
  | some (len, bytes) => if 0 < len then some [.forward dest bytes] else some []

/-- `publish_to_subscribers`. -/
def publishToSubscribers (root : TopicNode) (header : SlimMsgHeader) (topicStr : CString)
    (payload : Mem) (payloadLength : ℕ) : Option (List BrokerOutput) :=
  match getMatchingSubscribers root topicStr with
  | none => none
  | some targets =>
    (targets.entries.mapM (forwardTo header topicStr payload payloadLength)).map List.flatten

/-- What `publish_to_subscribers` sends are encodings of its message. -/
theorem mem_publishToSubscribers {root : TopicNode} {header : SlimMsgHeader} {topicStr : CString}
    {payload : Mem} {payloadLength : ℕ} {outs : List BrokerOutput}
    (h : publishToSubscribers root header topicStr payload payloadLength = some outs) :
    ∀ o ∈ outs, ∃ dest len bytes, o = .forward dest bytes ∧ 0 < len ∧
      serializeMessage header (some topicStr) payload payloadLength bufferSize =
        some (len, bytes) := by
  unfold publishToSubscribers at h
  split at h
  · cases h
  · rename_i targets _
    obtain ⟨outss, hm, rfl⟩ := Option.map_eq_some_iff.mp h
    clear h
    generalize targets.entries = dests at hm
    -- along the list of subscribers
    induction dests generalizing outss with
    | nil =>
      obtain rfl : outss = [] := by simpa using hm
      intro o ho
      cases ho
    | cons dest dests ih =>
      rw [List.mapM_cons] at hm
      obtain ⟨outs, hf, hm⟩ := Option.bind_eq_some_iff.mp hm
      obtain ⟨outss', hm', hp⟩ := Option.bind_eq_some_iff.mp hm
      obtain rfl := Option.some.inj hp
      intro o ho
      rcases List.mem_append.mp (List.flatten_cons ▸ ho) with ho | ho
      · unfold forwardTo at hf
        split at hf
        · cases hf
        · rename_i len bytes hser
          split_ifs at hf with hlen
          · obtain rfl := Option.some.inj hf
            exact ⟨dest, len, bytes, List.mem_singleton.mp ho, hlen, hser⟩
          · obtain rfl := Option.some.inj hf
            cases ho
      · exact ih _ hm' o ho

/-- The header of the broker's control replies. -/
def controlHeader (msgId : UInt32) : SlimMsgHeader where
  version := 1
  msgType := msgControl
  qosLevel := qosExactlyOnce
  topicId := 0
  msgId := msgId
  fragId := 0
  fragTotal := 1
  batchSize := 1
  payloadLength := 1
  clientNodeCount := 1

/-- The header of the broker's acknowledgements. -/
def ackHeader (msgId : UInt32) : SlimMsgHeader where
  version := 1
  msgType := msgAck
  qosLevel := qosAtLeastOnce
  topicId := 0
  msgId := msgId
  fragId := 0
  fragTotal := 1
  batchSize := 1
  payloadLength := 0
  clientNodeCount := 1

/-- The control message that `serialize_control_message` leaves in the buffer, of which the
handlers send `sizeof(slim_msg_header_t) + 1` bytes. -/
def controlBytes (header : SlimMsgHeader) (ctrlType : ControlType) : Datagram :=
  match serializeControlMessage header ctrlType (fun _ => 0) 0 bufferSize with
  | none => []
  | some (_, bytes) => bytes.take (headerSize + 1)

/-- Call `publish_to_subscribers` and go on with `rest`; `call` records the call. -/
def publishThen (b : Broker) (call : BrokerOutput) (sent : Option (List BrokerOutput))
    (rest : List BrokerOutput) : Result Broker BrokerOutput :=
  match sent with
  | none => .fault b [call]
  | some forwards => .ok b (call :: (forwards ++ rest))

@[simp] theorem state_publishThen (b : Broker) (call : BrokerOutput)
    (sent : Option (List BrokerOutput)) (rest : List BrokerOutput) :
    (publishThen b call sent rest).state = b := by
  cases sent <;> rfl

/-- `handle_publish`. -/
def handlePublish (b : Broker) (header : SlimMsgHeader) (topicStr : CString) (payload : Mem)
    (payloadLength : ℕ) (client : SockaddrIn) (now : Int) : Result Broker BrokerOutput :=
  let call := BrokerOutput.publish client ⟨header, topicStr, payload.read 0 payloadLength⟩
  let sent := publishToSubscribers b.topicRoot header topicStr payload payloadLength
  if header.qosLevel = qosExactlyOnce then
    let received :=
      BrokerOutput.reply client (controlBytes (controlHeader header.msgId) controlReceived)
    -- a completed message is skipped, one in its handshake is only acknowledged
    match pendingTableGet b.table (client, header.msgId) with
    | some .completed => .ok b []
    | some _ => .ok b [received]
    | none =>
      let table := pendingTableUpdate b.table (client, header.msgId) .received now
      publishThen { b with table := table } call sent [received]
  else if header.qosLevel = qosAtLeastOnce then
    publishThen b call sent [.reply client (ackHeader header.msgId).encode]
  else publishThen b call sent []

/-- `handle_control_release`: two updates, at the times `now₁` and `now₂`, around the reply. -/
def handleControlRelease (b : Broker) (header : SlimMsgHeader) (client : SockaddrIn)
    (now₁ now₂ : Int) : Result Broker BrokerOutput :=
  let table := pendingTableUpdate b.table (client, header.msgId) .released now₁
  .ok { b with table := pendingTableUpdate table (client, header.msgId) .completed now₂ }
    [.reply client (controlBytes (controlHeader header.msgId) controlComplete)]

/-- `handle_control_received`. -/
def handleControlReceived (b : Broker) (header : SlimMsgHeader) (client : SockaddrIn)
    (now : Int) : Result Broker BrokerOutput :=
  if pendingTableGet b.table (client, header.msgId) = some .received then
    .ok { b with table := pendingTableUpdate b.table (client, header.msgId) .waitRelease now } []
  else .ok b []

/-- `handle_control`: the datagram is decoded a second time. -/
def handleControl (b : Broker) (rawBuf : Mem) (bufLen : ℕ) (ctrlData : Mem) (client : SockaddrIn)
    (time : ℕ → Int) : Result Broker BrokerOutput :=
  match deserializeControlMessage rawBuf bufLen ctrlData bufferSize with
  | .error _ => .ok b []
  | .ok d =>
    if d.ctrlType = controlRelease then handleControlRelease b d.header client (time 0) (time 1)
    else if d.ctrlType = controlReceived then handleControlReceived b d.header client (time 0)
    else .ok b []

/-! ## The main loop -/

/-- What one iteration reads: a datagram and its sender, the earlier contents of the local
buffers, and what the calls of `time` in it return. -/
structure Reception extends Received where
  clientAddr : SockaddrIn
  time : ℕ → Int

namespace Reception

/-- The key that the datagram is about: its sender and its message id. -/
def key (r : Reception) : PendingKey := (r.clientAddr, r.header.msgId)

/-- The call of `publish_to_subscribers` that a PUBLISH leads to. -/
def call (r : Reception) : PublishCall := ⟨r.header, r.topicStr, r.payload.read 0 r.payloadLength⟩

end Reception

/-- The reception of a datagram into clean buffers, at time 0. -/
def receptionOf (client : SockaddrIn) (datagram : Datagram) : Reception :=
  { cleanReceived datagram with clientAddr := client, time := fun _ => 0 }

/-- One iteration of `broker_main_loop`. -/
def brokerIteration (b : Broker) (r : Reception) : Result Broker BrokerOutput :=
  match recvBytes r.datagram r.buffer bufferSize with
  | none => .ok b []
  | some (buffer, received) =>
    -- the first pass over the datagram
    match deserializeMessage buffer received (some r.topic) topicSize (some r.data) bufferSize with
    | .error _ => .ok b []
    | .ok d =>
      if d.header.msgType = msgSubscribe then handleSubscribe b d.topicStr r.clientAddr
      else if d.header.msgType = msgPublish then
        handlePublish b d.header d.topicStr d.payload
          (sizeSub d.header.payloadLength.toNat (1 + d.topicStr.strlen)) r.clientAddr (r.time 0)
      else if d.header.msgType = msgControl then
        handleControl b buffer received r.ctrlData r.clientAddr r.time
      else .ok b []

/-- `broker_main_loop`, on a finite sequence of receptions. -/
def brokerMainLoop (b : Broker) (rs : List Reception) : Result Broker BrokerOutput :=
  run brokerIteration b rs

/-! ## What an iteration does -/

variable (b : Broker) {r : Reception}

theorem brokerIteration_of_error {e : Int} (h : r.decoded = .error e) :
    brokerIteration b r = .ok b [] := by
  by_cases h0 : r.len = 0
  -- nothing was received
  · have hr : recvBytes r.datagram r.buffer bufferSize = none := if_pos h0
    simp only [brokerIteration, hr]
  · unfold Received.decoded at h
    simp only [brokerIteration, Received.recvBytes_of_len h0, h]

/-- An iteration that decodes its datagram goes on with the handler of its type. -/
theorem brokerIteration_of_ok {d : Decoded} (h : r.decoded = .ok d) :
    brokerIteration b r =
      if r.header.msgType = msgSubscribe then handleSubscribe b d.topicStr r.clientAddr
      else if r.header.msgType = msgPublish then
        handlePublish b r.header d.topicStr d.payload
          (sizeSub (payloadLen r.mem) (1 + d.topicStr.strlen)) r.clientAddr (r.time 0)
      else if r.header.msgType = msgControl then
        handleControl b r.mem r.len r.ctrlData r.clientAddr r.time
      else .ok b [] := by
  have hh : d.header = r.header := header_deserializeMessage h
  have hr := Received.recvBytes_of_decoded h
  unfold Received.decoded at h
  simp only [brokerIteration, hr, h, hh]
  rfl

/-- A PUBLISH is handled with the topic and data that the decoder wrote. -/
theorem brokerIteration_of_publishes (h : r.Publishes) :
    brokerIteration b r = handlePublish b r.header r.topicStr r.payload r.payloadLength
      r.clientAddr (r.time 0) := by
  obtain ⟨d, hd, htopic, hpayload⟩ := h.exists_decoded
  rw [brokerIteration_of_ok b hd, if_neg (by rw [h.2]; decide), if_pos h.2, htopic, hpayload]
  rfl

/-- A control message is handled by its type. -/
theorem brokerIteration_of_controls {c : ControlType} (h : r.Controls bufferSize c) :
    brokerIteration b r =
      if c = controlRelease then handleControlRelease b r.header r.clientAddr (r.time 0) (r.time 1)
      else if c = controlReceived then handleControlReceived b r.header r.clientAddr (r.time 0)
      else .ok b [] := by
  obtain ⟨d, hd⟩ := h.decoded_eq
  obtain ⟨ha, ht, rfl⟩ := h
  have hs : r.header.msgType ≠ msgSubscribe := by rw [ht]; decide
  have hp : r.header.msgType ≠ msgPublish := by rw [ht]; decide
  rw [brokerIteration_of_ok b hd, if_neg hs, if_neg hp, if_pos ht]
  unfold handleControl
  rw [deserializeControlMessage_ok ha]
  rfl

/-- A control message that does not pass the second pass is ignored. -/
theorem brokerIteration_of_not_controlAccepts (h : headerSize ≤ r.len)
    (hc : r.header.msgType = msgControl) (hn : ¬ ControlAccepts r.mem r.len bufferSize) :
    brokerIteration b r = .ok b [] := by
  obtain ⟨d, hd⟩ : ∃ d, r.decoded = .ok d := ⟨_, deserializeMessage_noTopic h (Or.inr hc)⟩
  have hs : r.header.msgType ≠ msgSubscribe := by rw [hc]; decide
  have hp : r.header.msgType ≠ msgPublish := by rw [hc]; decide
  rw [brokerIteration_of_ok b hd, if_neg hs, if_neg hp, if_pos hc]
  unfold handleControl
  split
  · rfl
  · rename_i cd hcd
    exact absurd (deserializeControlMessage_ok_iff.mp ⟨cd, hcd⟩) hn

/-- **What an iteration does**: it leaves the state as it is, or runs one handler on the header of
its datagram. -/
inductive Handled (b : Broker) (r : Reception) : Result Broker BrokerOutput → Prop
  | ignored : Handled b r (.ok b [])
  | subscribe (topicStr : CString) : Handled b r (handleSubscribe b topicStr r.clientAddr)
  | publish : r.Publishes → Handled b r (handlePublish b r.header r.topicStr r.payload
      r.payloadLength r.clientAddr (r.time 0))
  | release : r.Controls bufferSize controlRelease →
      Handled b r (handleControlRelease b r.header r.clientAddr (r.time 0) (r.time 1))
  | received : r.Controls bufferSize controlReceived →
      Handled b r (handleControlReceived b r.header r.clientAddr (r.time 0))

theorem brokerIteration_handled (r : Reception) : Handled b r (brokerIteration b r) := by
  cases hd : r.decoded with
  | error e =>
    rw [brokerIteration_of_error b hd]
    exact .ignored
  | ok d =>
    have ha := deserializeMessage_ok_iff.mp ⟨d, hd⟩
    by_cases hs : r.header.msgType = msgSubscribe
    · rw [brokerIteration_of_ok b hd, if_pos hs]
      exact .subscribe _
    by_cases hp : r.header.msgType = msgPublish
    · rw [brokerIteration_of_publishes b ⟨ha, hp⟩]
      exact .publish ⟨ha, hp⟩
    by_cases hc : r.header.msgType = msgControl
    · by_cases hca : ControlAccepts r.mem r.len bufferSize
      -- the second pass, over the control message
      · have hctl : r.Controls bufferSize (r.mem headerSize) := ⟨hca, hc, rfl⟩
        rw [brokerIteration_of_controls b hctl]
        split_ifs with h₁ h₂
        · exact .release ⟨hca, hc, h₁⟩
        · exact .received ⟨hca, hc, h₂⟩
        · exact .ignored
      -- the second pass fails
      · rw [brokerIteration_of_not_controlAccepts b ha.header hc hca]
        exact .ignored
    · rw [brokerIteration_of_ok b hd, if_neg hs, if_neg hp, if_neg hc]
      exact .ignored

end SlimMQ
