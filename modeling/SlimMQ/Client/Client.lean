import SlimMQ.Client.EventQueue
import SlimMQ.Client.Qos2Table
import SlimMQ.Wire.Published

/-!
# The client

The functions of `slimmq_client.c`. The listener thread handles one datagram after the other; the
application calls `slimmq_subscribe`, `slimmq_publish` and the setters. A call of `slimmq_publish`
waits for the listener, so it is a machine of its own: it starts by taking a message id and
encoding its packet, and then advances from one access of the shared state to the next, sending or
polling. The two threads meet in the event queue and in the QoS 2 table of the process.

## Main definitions

* `SlimmqClient`: the fields of `slimmq_client_t` that the functions use
* `listenerStep`: one turn of `listener_loop`
* `slimmqSubscribe`, `slimmqSetQos`, `slimmqSetRetryPolicy`, `slimmqNextEvent`: the other calls
* `publishStart`, `publishStep`: a call of `slimmq_publish`, to its loop, and one step of its loop

## Main results

* `listenerStep_heard`: what a turn of the listener does
* `publishStep_advance`: what a step of a publishing call does
-/

namespace SlimMQ

open Buffer

/-- `slimmq_client_t`, less the socket, the broker's address and the listener thread. -/
structure SlimmqClient where
  nextMsgId : UInt32
  eventQueue : SlimmqEventQueue
  qosLevel : UInt8
  retryTimeoutMs : Int
  maxRetries : Int

/-- The client that `slimmq_connect` returns. -/
def slimmqConnect : SlimmqClient where
  nextMsgId := 1
  eventQueue := eventQueueInit
  qosLevel := qosAtMostOnce
  retryTimeoutMs := 0
  maxRetries := 0

/-! ## The listener -/

/-- The size of the control data buffer. -/
abbrev ctrlDataSize : ℕ := 256

/-- What one turn of the listener reads: a datagram with the earlier contents of the buffers, the
time, and the outcome of a `malloc`. -/
structure ClientReception extends Received where
  now : Int
  mallocOk : Bool

/-- A process: its client and its QoS 2 table. -/
structure ClientState where
  client : SlimmqClient
  table : Qos2Table

/-- The number of polls of each polling loop of `slimmq_publish`. -/
def ClientState.polls (s : ClientState) : Int := s.client.retryTimeoutMs.tdiv 100

/-- A timeout of 100 ms leaves a poll. -/
theorem ClientState.polls_pos {s : ClientState} (h : 100 ≤ s.client.retryTimeoutMs) :
    0 < s.polls := by
  rw [ClientState.polls, Int.tdiv_eq_ediv_of_nonneg (by omega)]
  omega

/-- The state after a push to the event queue. -/
def ClientState.push (s : ClientState) (msgType : UInt8) (msgId : UInt32) (topic : CString)
    (data : Mem) (len : ℕ) (mallocOk : Bool) : ClientState :=
  { s with client := { s.client with
      eventQueue := (eventQueuePush s.client.eventQueue msgType msgId topic data len mallocOk).2 } }

/-- The case MSG_CONTROL of the listener: the datagram is decoded a second time. -/
def listenerControl (s : ClientState) (buffer : Mem) (len : ℕ) (ctrlData : Mem) (now : Int) :
    ClientState :=
  match deserializeControlMessage buffer len ctrlData ctrlDataSize with
  | .error _ => s
  | .ok d =>
    if d.ctrlType = controlReceived then
      { s with table := qos2TableSet s.table d.header.msgId .waitComplete now }
    else if d.ctrlType = controlComplete then
      { s with table := qos2TableSet s.table d.header.msgId .completed now }
    else s

/-- One turn of `listener_loop`. -/
def listenerStep (s : ClientState) (r : ClientReception) : ClientState :=
  match recvBytes r.datagram r.buffer bufferSize with
  | none => s
  | some (buffer, len) =>
    match deserializeMessage buffer len (some r.topic) topicSize (some r.data) bufferSize with
    | .error _ => s
    | .ok d =>
      if d.header.msgType = msgAck then
        s.push msgAck d.header.msgId d.topicStr (fun _ => 0) 0 r.mallocOk
      else if d.header.msgType = msgControl then listenerControl s buffer len r.ctrlData r.now
      else if d.header.msgType = msgPublish then
        s.push msgPublish d.header.msgId d.topicStr d.payload
          (sizeSub d.header.payloadLength.toNat (1 + d.topicStr.strlen)) r.mallocOk
      else s

/-! ## Calls -/

/-- `slimmq_set_qos`. -/
def slimmqSetQos (s : ClientState) (qosLevel : UInt8) : ClientState where
  client := { s.client with qosLevel := qosLevel }
  table := if qosLevel = qosExactlyOnce then qos2TableInit else s.table

/-- `slimmq_set_retry_policy`. -/
def slimmqSetRetryPolicy (s : ClientState) (timeoutMs maxRetries : Int) : ClientState :=
  { s with client := { s.client with retryTimeoutMs := timeoutMs, maxRetries := maxRetries } }

/-- `slimmq_next_event`: the first event of the queue, with the topic as it is copied to the
caller's buffer. An empty queue makes the caller wait; a topic buffer without a byte has no place
for the final NUL. -/
def slimmqNextEvent (s : ClientState) (topicBufSize : ℕ) : Option (SlimmqEvent × ClientState) :=
  if topicBufSize = 0 then none
  else
    (eventQueuePop s.client.eventQueue).map fun r =>
      ({ r.1 with topic := r.1.topic.take (topicBufSize - 1) },
        { s with client := { s.client with eventQueue := r.2 } })

/-- The header of a message of the client. -/
def clientHeader (msgType qosLevel : UInt8) (msgId : UInt32) (payloadLength : ℕ) :
    SlimMsgHeader where
  version := 1
  msgType := msgType
  qosLevel := qosLevel
  topicId := 0
  msgId := msgId
  fragId := 0
  fragTotal := 1
  batchSize := 1
  payloadLength := UInt16.ofNat payloadLength
  clientNodeCount := 1

/-- Take the next message id. -/
def SlimmqClient.takeMsgId (c : SlimmqClient) : SlimmqClient :=
  { c with nextMsgId := c.nextMsgId + 1 }

/-- `slimmq_subscribe`: the client, what it sends, and the value it returns. -/
def slimmqSubscribe (c : SlimmqClient) (topic : CString) (sendOk : Bool) :
    SlimmqClient × List Datagram × Int :=
  let header := clientHeader msgSubscribe qosAtMostOnce c.nextMsgId (1 + topic.strlen)
  match serializeMessage header (some topic) (fun _ => 0) 0 bufferSize with
  | none => (c.takeMsgId, [], -1)
  | some (len, bytes) =>
    if len < 0 ∨ sendOk = false then (c.takeMsgId, [], -1) else (c.takeMsgId, [bytes], len)

/-- A subscription takes a message id, whether or not it is sent. -/
theorem fst_slimmqSubscribe (c : SlimmqClient) (topic : CString) (sendOk : Bool) :
    (slimmqSubscribe c topic sendOk).1 = c.takeMsgId := by
  unfold slimmqSubscribe
  dsimp only
  split
  · rfl
  · split_ifs <;> rfl

/-! ## Publishing -/

/-- A message of `slimmq_publish`: its header, the arguments of the call, and the packet. -/
structure Message where
  header : SlimMsgHeader
  topic : CString
  data : List UInt8
  packet : Datagram

/-- Where a call of `slimmq_publish` stands in its loop. -/
inductive PublishPc
  /-- At the test of the loop. -/
  | loop
  /-- At the test of the polling loop for the acknowledgement. -/
  | pollAck (i : Int)
  /-- At the test of the polling loop for CONTROL_RECEIVED. -/
  | pollReceived (i : Int)
  /-- After that loop, before the state is looked up again. -/
  | checkReceived
  /-- Before CONTROL_RELEASE is sent. -/
  | sendRelease
  /-- At the test of the polling loop for CONTROL_COMPLETE. -/
  | pollComplete (i : Int)
  /-- Before the entry of the completed message is removed. -/
  | removeCompleted

/-- A call of `slimmq_publish` in its loop. -/
structure PublishRun where
  msg : Message
  retries : Int
  pc : PublishPc

/-- The next turn of the loop, after a failed attempt. -/
def PublishRun.retry (run : PublishRun) : PublishRun :=
  { run with retries := (run.retries + 1).bmod (2 ^ 32), pc := .loop }

/-- The start of a call of `slimmq_publish`, up to its loop: the client, and the call or the value
it has returned; nothing where the encoder would leave its buffer. -/
def publishStart (c : SlimmqClient) (topic : Option CString) (data : Mem) (dataLen : ℕ) :
    Option (SlimmqClient × (PublishRun ⊕ Int)) :=
  match topic with
  | none => some (c, .inr (-1))
  | some topic =>
    let header := clientHeader msgPublish c.qosLevel c.nextMsgId (1 + topic.strlen + dataLen)
    match serializeMessage header (some topic) data dataLen bufferSize with
    | none => none
    | some (len, packet) =>
      if len < 0 then some (c.takeMsgId, .inr (-1))
      else some (c.takeMsgId,
        .inl { msg := ⟨header, topic, data.read 0 dataLen, packet⟩, retries := 0, pc := .loop })

/-- The CONTROL_RELEASE of a message. -/
def releaseBytes (header : SlimMsgHeader) : Option (Int × Datagram) :=
  serializeControlMessage { header with msgType := msgControl, payloadLength := 1 } controlRelease
    (fun _ => 0) 0 256

/-- What a step of a publishing call leaves: the process, what was sent, and the call or the value
it has returned. -/
structure PublishResult where
  state : ClientState
  sent : List Datagram
  call : PublishRun ⊕ Int

/-- One step of the loop of `slimmq_publish`, up to the next access of the shared state. `sendOk` is
the success of a send in it. A return accesses nothing that is shared: it is taken together with the
last access of the call, or with the test of the loop that ends it. -/
def publishStep (s : ClientState) (run : PublishRun) (sendOk : Bool) : PublishResult :=
  let id := run.msg.header.msgId
  match run.pc with
  -- `while (retries <= max_retries)`, with the send at the head of its body
  | .loop =>
    if s.client.maxRetries < run.retries then ⟨s, [], .inr (-1)⟩
    else if sendOk = false then ⟨s, [], .inr (-1)⟩
    else if run.msg.header.qosLevel = qosAtMostOnce then ⟨s, [run.msg.packet], .inr 0⟩
    else if run.msg.header.qosLevel = qosAtLeastOnce then
      ⟨s, [run.msg.packet], .inl { run with pc := .pollAck 0 }⟩
    else if run.msg.header.qosLevel = qosExactlyOnce then
      ⟨s, [run.msg.packet], .inl { run with pc := .pollReceived 0 }⟩
    -- no branch for another level: the loop sends again, without counting
    else ⟨s, [run.msg.packet], .inl run⟩
  | .pollAck i =>
    if i < s.polls then
      let waited := eventQueueWaitAck s.client.eventQueue id
      let s' := { s with client := { s.client with eventQueue := waited.2 } }
      if waited.1 = 0 then ⟨s', [], .inr 0⟩
      else ⟨s', [], .inl { run with pc := .pollAck (i + 1) }⟩
    else ⟨s, [], .inl run.retry⟩
  -- the loop is left when the state is found, and then the state is read once more
  | .pollReceived i =>
    if i < s.polls ∧ qos2TableGetState s.table id ≠ .waitComplete then
      ⟨s, [], .inl { run with pc := .pollReceived (i + 1) }⟩
    else ⟨s, [], .inl { run with pc := .checkReceived }⟩
  | .checkReceived =>
    if qos2TableGetState s.table id ≠ .waitComplete then ⟨s, [], .inl run.retry⟩
    else ⟨s, [], .inl { run with pc := .sendRelease }⟩
  | .sendRelease =>
    let next := { run with pc := .pollComplete 0 }
    match releaseBytes run.msg.header with
    | none => ⟨s, [], .inl next⟩
    | some (len, bytes) => ⟨s, if 0 < len ∧ sendOk then [bytes] else [], .inl next⟩
  | .pollComplete i =>
    if i < s.polls then
      if qos2TableGetState s.table id = .completed then
        ⟨s, [], .inl { run with pc := .removeCompleted }⟩
      else ⟨s, [], .inl { run with pc := .pollComplete (i + 1) }⟩
    else ⟨s, [], .inl run.retry⟩
  | .removeCompleted => ⟨{ s with table := qos2TableRemove s.table id }, [], .inr 0⟩

/-! ## What a turn of the listener does -/

variable {s : ClientState} {r : ClientReception}

/-- **What a turn of the listener does**: nothing, a push, or a state in the QoS 2 table. -/
inductive Heard (s : ClientState) (r : ClientReception) : ClientState → Prop
  | ignored : Heard s r s
  | ack (h : headerSize ≤ r.len) (ht : r.header.msgType = msgAck) :
      Heard s r (s.push msgAck r.header.msgId CString.empty (fun _ => 0) 0 r.mallocOk)
  | publish (h : r.Publishes) : Heard s r (s.push msgPublish r.header.msgId r.topicStr r.payload
      r.payloadLength r.mallocOk)
  | received (h : r.Controls ctrlDataSize controlReceived) :
      Heard s r { s with table := qos2TableSet s.table r.header.msgId .waitComplete r.now }
  | complete (h : r.Controls ctrlDataSize controlComplete) :
      Heard s r { s with table := qos2TableSet s.table r.header.msgId .completed r.now }

theorem listenerStep_of_error {e : Int} (h : r.decoded = .error e) : listenerStep s r = s := by
  by_cases h0 : r.len = 0
  -- nothing was received
  · have hr : recvBytes r.datagram r.buffer bufferSize = none := if_pos h0
    simp only [listenerStep, hr]
  · unfold Received.decoded at h
    simp only [listenerStep, Received.recvBytes_of_len h0, h]

/-- A turn that decodes its datagram goes on by its type. -/
theorem listenerStep_of_ok {d : Decoded} (h : r.decoded = .ok d) :
    listenerStep s r =
      if r.header.msgType = msgAck then
        s.push msgAck r.header.msgId d.topicStr (fun _ => 0) 0 r.mallocOk
      else if r.header.msgType = msgControl then listenerControl s r.mem r.len r.ctrlData r.now
      else if r.header.msgType = msgPublish then
        s.push msgPublish r.header.msgId d.topicStr d.payload
          (sizeSub (payloadLen r.mem) (1 + d.topicStr.strlen)) r.mallocOk
      else s := by
  have hh : d.header = r.header := header_deserializeMessage h
  have hr := Received.recvBytes_of_decoded h
  unfold Received.decoded at h
  simp only [listenerStep, hr, h, hh]
  rfl

/-- A PUBLISH is queued with the topic and data that the decoder wrote. -/
theorem listenerStep_of_publishes (h : r.Publishes) :
    listenerStep s r =
      s.push msgPublish r.header.msgId r.topicStr r.payload r.payloadLength r.mallocOk := by
  obtain ⟨d, hd, htopic, hpayload⟩ := h.exists_decoded
  rw [listenerStep_of_ok hd, if_neg (by rw [h.2]; decide), if_neg (by rw [h.2]; decide),
    if_pos h.2, htopic, hpayload]
  rfl

/-- A control message is recorded in the QoS 2 table, whatever state it held for the message. -/
theorem listenerStep_of_controls {c : ControlType} (h : r.Controls ctrlDataSize c) :
    listenerStep s r =
      if c = controlReceived then
        { s with table := qos2TableSet s.table r.header.msgId .waitComplete r.now }
      else if c = controlComplete then
        { s with table := qos2TableSet s.table r.header.msgId .completed r.now }
      else s := by
  obtain ⟨d, hd⟩ := h.decoded_eq
  obtain ⟨ha, ht, rfl⟩ := h
  rw [listenerStep_of_ok hd, if_neg (by rw [ht]; decide), if_pos ht]
  unfold listenerControl
  rw [deserializeControlMessage_ok ha]
  rfl

theorem listenerControl_heard (ht : r.header.msgType = msgControl) :
    Heard s r (listenerControl s r.mem r.len r.ctrlData r.now) := by
  by_cases ha : ControlAccepts r.mem r.len ctrlDataSize
  · unfold listenerControl
    rw [deserializeControlMessage_ok ha]
    dsimp only
    split_ifs with h₁ h₂
    · exact .received ⟨ha, ht, h₁⟩
    · exact .complete ⟨ha, ht, h₂⟩
    · exact .ignored
  · unfold listenerControl
    split
    · exact .ignored
    · rename_i d hd
      exact absurd (deserializeControlMessage_ok_iff.mp ⟨d, hd⟩) ha

theorem listenerStep_heard (s : ClientState) (r : ClientReception) :
    Heard s r (listenerStep s r) := by
  cases hd : r.decoded with
  | error e =>
    rw [listenerStep_of_error hd]
    exact .ignored
  | ok d =>
    have ha := deserializeMessage_ok_iff.mp ⟨d, hd⟩
    by_cases hack : r.header.msgType = msgAck
    · rw [listenerStep_of_ok hd, if_pos hack, Received.topicStr_of_noTopic hd (Or.inl hack)]
      exact .ack ha.header hack
    by_cases hc : r.header.msgType = msgControl
    · rw [listenerStep_of_ok hd, if_neg hack, if_pos hc]
      exact listenerControl_heard hc
    by_cases hp : r.header.msgType = msgPublish
    · rw [listenerStep_of_publishes ⟨ha, hp⟩]
      exact .publish ⟨ha, hp⟩
    · rw [listenerStep_of_ok hd, if_neg hack, if_neg hc, if_neg hp]
      exact .ignored

/-- The listener does not touch the configuration. -/
theorem config_listenerStep (s : ClientState) (r : ClientReception) :
    (listenerStep s r).client.maxRetries = s.client.maxRetries ∧
      (listenerStep s r).polls = s.polls := by
  have hheard := listenerStep_heard s r
  generalize listenerStep s r = s' at hheard ⊢
  cases hheard <;> exact ⟨rfl, rfl⟩

/-! ## What a publishing call does -/

variable {run : PublishRun}

/-- The QoS level at which a call gets to a place of its loop. -/
def PublishPc.qos : PublishPc → Option UInt8
  | .loop => none
  | .pollAck _ => some qosAtLeastOnce
  | _ => some qosExactlyOnce

/-- The call is at a place that its QoS level leads to. -/
def PublishRun.AtQos (run : PublishRun) : Prop :=
  ∀ q, run.pc.qos = some q → run.msg.header.qosLevel = q

/-- **What a step of a publishing call does.** -/
inductive Advance (s : ClientState) (run : PublishRun) : PublishResult → Prop
  /-- The packet is sent or not, and the call goes on waiting. -/
  | wait {sent : List Datagram} {run' : PublishRun} (hs : sent = [] ∨ sent = [run.msg.packet])
      (hm : run'.msg = run.msg)
      (hq : run'.pc.qos = none ∨ run'.pc.qos = some run.msg.header.qosLevel ∨
        run'.pc.qos = run.pc.qos)
      (hrel : run'.pc ≠ .sendRelease) (hrem : run'.pc ≠ .removeCompleted) :
      Advance s run ⟨s, sent, .inl run'⟩
  /-- The call fails. -/
  | fail : Advance s run ⟨s, [], .inr (-1)⟩
  /-- At QoS 0 the call returns after its send. -/
  | sent (hq : run.msg.header.qosLevel = qosAtMostOnce) :
      Advance s run ⟨s, [run.msg.packet], .inr 0⟩
  /-- At QoS 1 the call returns when it finds the acknowledgement. -/
  | acked {i : Int} (hpc : run.pc = .pollAck i)
      (hw : (eventQueueWaitAck s.client.eventQueue run.msg.header.msgId).1 = 0) :
      Advance s run ⟨{ s with client := { s.client with
        eventQueue := (eventQueueWaitAck s.client.eventQueue run.msg.header.msgId).2 } }, [],
        .inr 0⟩
  /-- At QoS 2 the call has found CONTROL_RECEIVED. -/
  | sawReceived (hpc : run.pc = .checkReceived)
      (hg : qos2TableGetState s.table run.msg.header.msgId = .waitComplete) :
      Advance s run ⟨s, [], .inl { run with pc := .sendRelease }⟩
  /-- It sends CONTROL_RELEASE. -/
  | release {sent : List Datagram} (hpc : run.pc = .sendRelease)
      (hs : ∀ bytes ∈ sent, ∃ len, releaseBytes run.msg.header = some (len, bytes)) :
      Advance s run ⟨s, sent, .inl { run with pc := .pollComplete 0 }⟩
  /-- It has found CONTROL_COMPLETE. -/
  | sawComplete {i : Int} (hpc : run.pc = .pollComplete i)
      (hg : qos2TableGetState s.table run.msg.header.msgId = .completed) :
      Advance s run ⟨s, [], .inl { run with pc := .removeCompleted }⟩
  /-- It removes the entry and returns. -/
  | done (hpc : run.pc = .removeCompleted) :
      Advance s run ⟨{ s with table := qos2TableRemove s.table run.msg.header.msgId }, [], .inr 0⟩

theorem publishStep_advance (s : ClientState) (run : PublishRun) (sendOk : Bool) :
    Advance s run (publishStep s run sendOk) := by
  -- the end of an attempt, common to the three polling loops
  have hretry : Advance s run ⟨s, [], .inl run.retry⟩ :=
    .wait (Or.inl rfl) rfl (Or.inl rfl) PublishPc.noConfusion PublishPc.noConfusion
  unfold publishStep
  cases hpc : run.pc with
  | loop =>
    dsimp only
    split_ifs with h₁ h₂ h₃ h₄ h₅
    · exact .fail
    · exact .fail
    · exact .sent h₃
    · exact .wait (Or.inr rfl) rfl (Or.inr (Or.inl (congrArg some h₄.symm))) (by simp) (by simp)
    · exact .wait (Or.inr rfl) rfl (Or.inr (Or.inl (congrArg some h₅.symm))) (by simp) (by simp)
    · exact .wait (Or.inr rfl) rfl (Or.inr (Or.inr rfl)) (by simp [hpc]) (by simp [hpc])
  | pollAck i =>
    dsimp only
    split_ifs with h₁ h₂
    · exact .acked hpc h₂
    -- a wait that finds nothing leaves the queue as it is
    · rw [eventQueueWaitAck_of_ne h₂]
      exact .wait (Or.inl rfl) rfl (Or.inr (Or.inr (by rw [hpc]; rfl))) (by simp) (by simp)
    · exact hretry
  | pollReceived i =>
    dsimp only
    split_ifs <;>
      exact .wait (Or.inl rfl) rfl (Or.inr (Or.inr (by rw [hpc]; rfl))) (by simp) (by simp)
  | checkReceived =>
    dsimp only
    split_ifs with h
    · exact hretry
    · exact .sawReceived hpc (not_not.mp h)
  | sendRelease =>
    dsimp only
    split
    · exact .release hpc (by simp)
    · rename_i len bytes hb
      refine .release hpc fun bytes' hb' => ⟨len, ?_⟩
      split_ifs at hb'
      · rw [List.mem_singleton.mp hb', hb]
      · cases hb'
  | pollComplete i =>
    dsimp only
    split_ifs with h₁ h₂
    · exact .sawComplete hpc h₂
    · exact .wait (Or.inl rfl) rfl (Or.inr (Or.inr (by rw [hpc]; rfl))) (by simp) (by simp)
    · exact hretry
  | removeCompleted => exact .done hpc

/-- A publishing call does not touch the configuration. -/
theorem config_publishStep (s : ClientState) (run : PublishRun) (sendOk : Bool) :
    (publishStep s run sendOk).state.client.maxRetries = s.client.maxRetries ∧
      (publishStep s run sendOk).state.polls = s.polls := by
  have hadv := publishStep_advance s run sendOk
  generalize publishStep s run sendOk = res at hadv ⊢
  cases hadv <;> exact ⟨rfl, rfl⟩

/-- A call stays at the places that its QoS level leads to. -/
theorem Advance.atQos {res : PublishResult} (h : Advance s run res) (hq : run.AtQos)
    {run' : PublishRun} (hr : res.call = .inl run') : run'.AtQos := by
  cases h with
  | wait hs hm hq' hrel hrem =>
    obtain rfl := Sum.inl.inj hr
    intro q hq''
    rw [hm]
    rcases hq' with h | h | h
    · rw [h] at hq''
      cases hq''
    · rw [h] at hq''
      exact Option.some.inj hq''
    · exact hq q (h ▸ hq'')
  | sawReceived hpc hg =>
    obtain rfl := Sum.inl.inj hr
    exact fun q h => hq q (by rw [hpc]; exact h)
  | release hpc hs =>
    obtain rfl := Sum.inl.inj hr
    exact fun q h => hq q (by rw [hpc]; exact h)
  | sawComplete hpc hg =>
    obtain rfl := Sum.inl.inj hr
    exact fun q h => hq q (by rw [hpc]; exact h)
  | _ => cases hr

/-- At QoS 1 a call returns 0 by an acknowledgement only. -/
theorem Advance.waitAck_of_ret {res : PublishResult} (h : Advance s run res) (hq : run.AtQos)
    (h1 : run.msg.header.qosLevel = qosAtLeastOnce) (hr : res.call = .inr 0) :
    (eventQueueWaitAck s.client.eventQueue run.msg.header.msgId).1 = 0 := by
  cases h with
  | acked hpc hw => exact hw
  | sent hq0 =>
    rw [h1] at hq0
    cases hq0
  | done hpc =>
    -- the entry is removed at QoS 2 only
    have h2 : run.msg.header.qosLevel = qosExactlyOnce := hq _ (by rw [hpc]; rfl)
    rw [h1] at h2
    cases h2
  | _ => cases hr

/-! ## What taking an event does -/

/-- `slimmq_next_event` changes the queue only. -/
theorem slimmqNextEvent_state {n : ℕ} {e : SlimmqEvent} {s' : ClientState}
    (hn : slimmqNextEvent s n = some (e, s')) :
    ∃ q, s' = { s with client := { s.client with eventQueue := q } } := by
  unfold slimmqNextEvent at hn
  split_ifs at hn
  obtain ⟨r, -, hr⟩ := Option.map_eq_some_iff.mp hn
  obtain ⟨-, rfl⟩ := Prod.mk.inj hr
  exact ⟨r.2, rfl⟩

/-- **What `slimmq_next_event` does** when it returns: the first event leaves the queue, and goes to
the caller with its topic cut to the buffer. -/
theorem slimmqNextEvent_cases (h : s.client.eventQueue.WellFormed) {n : ℕ} {e : SlimmqEvent}
    {s' : ClientState} (hn : slimmqNextEvent s n = some (e, s')) :
    0 < n ∧ ∃ e₀ q, q.WellFormed ∧ s.client.eventQueue.toList = e₀ :: q.toList ∧
      e = { e₀ with topic := e₀.topic.take (n - 1) } ∧
      s' = { s with client := { s.client with eventQueue := q } } := by
  unfold slimmqNextEvent at hn
  split_ifs at hn with h0
  obtain ⟨⟨e₀, q⟩, hpop, hs'⟩ := Option.map_eq_some_iff.mp hn
  obtain ⟨rfl, rfl⟩ := Prod.mk.inj hs'
  refine ⟨Nat.pos_of_ne_zero h0, e₀, q, ?_⟩
  rcases eventQueuePop_cases h with ⟨-, hnone⟩ | ⟨e₁, q₁, hq₁, hwf, hl⟩
  · rw [hnone] at hpop
    cases hpop
  · rw [hq₁] at hpop
    obtain ⟨rfl, rfl⟩ := Prod.mk.inj (Option.some.inj hpop)
    exact ⟨hwf, hl, rfl, rfl⟩

/-- With an event in the queue and a byte in the topic buffer, `slimmq_next_event` returns. -/
theorem slimmqNextEvent_isSome (h : s.client.eventQueue.WellFormed) {n : ℕ} (hn : 0 < n)
    (hq : s.client.eventQueue.toList ≠ []) : (slimmqNextEvent s n).isSome := by
  unfold slimmqNextEvent
  rw [if_neg (Nat.ne_of_gt hn)]
  rcases eventQueuePop_cases h with ⟨hl, -⟩ | ⟨e, q, hpop, -⟩
  · exact absurd hl hq
  · rw [hpop]
    rfl

end SlimMQ
