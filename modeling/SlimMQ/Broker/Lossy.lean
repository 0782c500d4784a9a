import SlimMQ.Broker.Broker

/-!
# The lossy broker

`lossy_broker.c` is the broker that the loss tests run against. It differs from `broker.c` in
`handle_publish`: a message at QoS 0 or 1 is thrown away when the next random number is a multiple
of 3, before anything is sent on or acknowledged. QoS 2 messages, control messages and subscriptions
are handled as ever, and draw no number. So to the clients the lossy broker is the broker, behind a
network that loses some of their QoS 0 and QoS 1 messages, and whatever holds of every run of the
broker holds of its runs too.

The random numbers are those of the C library, from a fixed seed; here they come from any generator.

## Main definitions

* `lossyHandlePublish`, `lossyIteration`, `lossyMainLoop`: the lossy broker
* `lossDraw`: which datagrams are lost

## Main results

* `lossyIteration_eq`: an iteration throws its datagram away, or is one of the broker
* `lossyMainLoop_eq`: the lossy broker is the broker on what is not lost
-/

namespace SlimMQ

open Buffer EventLoop

variable {γ : Type}

/-- `handle_publish` of the lossy broker, with `rand` and the state of its generator. -/
def lossyHandlePublish (rand : γ → ℕ × γ) (s : Broker × γ) (header : SlimMsgHeader)
    (topicStr : CString) (payload : Mem) (payloadLength : ℕ) (client : SockaddrIn) (now : Int) :
    Result (Broker × γ) BrokerOutput :=
  let call := BrokerOutput.publish client ⟨header, topicStr, payload.read 0 payloadLength⟩
  let sent := publishToSubscribers s.1.topicRoot header topicStr payload payloadLength
  if header.qosLevel = qosExactlyOnce then
    let received :=
      BrokerOutput.reply client (controlBytes (controlHeader header.msgId) controlReceived)
    match pendingTableGet s.1.table (client, header.msgId) with
    | some .completed => .ok s []
    | some _ => .ok s [received]
    | none =>
      let table := pendingTableUpdate s.1.table (client, header.msgId) .received now
      (publishThen { s.1 with table := table } call sent [received]).mapState (·, s.2)
  else if header.qosLevel = qosAtLeastOnce then
    -- a lost message is neither sent on nor acknowledged
    if (rand s.2).1 % 3 = 0 then .ok (s.1, (rand s.2).2) []
    else (publishThen s.1 call sent [.reply client (ackHeader header.msgId).encode]).mapState
      (·, (rand s.2).2)
  else if (rand s.2).1 % 3 = 0 then .ok (s.1, (rand s.2).2) []
  else (publishThen s.1 call sent []).mapState (·, (rand s.2).2)

/-- One iteration of the lossy broker's `broker_main_loop`. -/
def lossyIteration (rand : γ → ℕ × γ) (s : Broker × γ) (r : Reception) :
    Result (Broker × γ) BrokerOutput :=
  match recvBytes r.datagram r.buffer bufferSize with
  | none => .ok s []
  | some (buffer, received) =>
    match deserializeMessage buffer received (some r.topic) topicSize (some r.data) bufferSize with
    | .error _ => .ok s []
    | .ok d =>
      if d.header.msgType = msgSubscribe then
        (handleSubscribe s.1 d.topicStr r.clientAddr).mapState (·, s.2)
      else if d.header.msgType = msgPublish then
        lossyHandlePublish rand s d.header d.topicStr d.payload
          (sizeSub d.header.payloadLength.toNat (1 + d.topicStr.strlen)) r.clientAddr (r.time 0)
      else if d.header.msgType = msgControl then
        (handleControl s.1 buffer received r.ctrlData r.clientAddr r.time).mapState (·, s.2)
      else .ok s []

/-- The lossy broker's `broker_main_loop`, on a finite sequence of receptions. -/
def lossyMainLoop (rand : γ → ℕ × γ) (s : Broker × γ) (rs : List Reception) :
    Result (Broker × γ) BrokerOutput :=
  run (lossyIteration rand) s rs

/-! ## What is lost -/

/-- The datagram is one that may be lost: a PUBLISH that is decoded, at a level other than QoS 2. -/
def Reception.mayBeLost (r : Reception) : Bool :=
  r.decoded.isOk ∧ r.header.msgType = msgPublish ∧ r.header.qosLevel ≠ qosExactlyOnce

/-- Whether the datagram gets through, and the generator after it: a number is drawn for a datagram
that may be lost, and for no other. -/
def lossDraw (rand : γ → ℕ × γ) (g : γ) (r : Reception) : Bool × γ :=
  if r.mayBeLost then ((rand g).1 % 3 ≠ 0, (rand g).2) else (true, g)

/-- The handler throws the message away, or does what the broker's does. -/
theorem lossyHandlePublish_eq (rand : γ → ℕ × γ) (b : Broker) (g : γ) (header : SlimMsgHeader)
    (topicStr : CString) (payload : Mem) (payloadLength : ℕ) (client : SockaddrIn) (now : Int) :
    lossyHandlePublish rand (b, g) header topicStr payload payloadLength client now =
      if header.qosLevel = qosExactlyOnce then
        (handlePublish b header topicStr payload payloadLength client now).mapState (·, g)
      else if (rand g).1 % 3 = 0 then .ok (b, (rand g).2) []
      else (handlePublish b header topicStr payload payloadLength client now).mapState
        (·, (rand g).2) := by
  unfold lossyHandlePublish handlePublish
  by_cases h2 : header.qosLevel = qosExactlyOnce
  · simp only [if_pos h2]
    cases pendingTableGet b.table (client, header.msgId) with
    | none => rfl
    | some state => cases state <;> rfl
  · simp only [if_neg h2]
    by_cases h1 : header.qosLevel = qosAtLeastOnce
    · simp only [if_pos h1]
    · simp only [if_neg h1]

theorem lossyIteration_of_error (rand : γ → ℕ × γ) (s : Broker × γ) {r : Reception} {e : Int}
    (h : r.decoded = .error e) : lossyIteration rand s r = .ok s [] := by
  by_cases h0 : r.len = 0
  · have hr : recvBytes r.datagram r.buffer bufferSize = none := if_pos h0
    simp only [lossyIteration, hr]
  · unfold Received.decoded at h
    simp only [lossyIteration, Received.recvBytes_of_len h0, h]

theorem lossyIteration_of_ok (rand : γ → ℕ × γ) (s : Broker × γ) {r : Reception} {d : Decoded}
    (h : r.decoded = .ok d) :
    lossyIteration rand s r =
      if r.header.msgType = msgSubscribe then
        (handleSubscribe s.1 d.topicStr r.clientAddr).mapState (·, s.2)
      else if r.header.msgType = msgPublish then
        lossyHandlePublish rand s r.header d.topicStr d.payload
          (sizeSub (payloadLen r.mem) (1 + d.topicStr.strlen)) r.clientAddr (r.time 0)
      else if r.header.msgType = msgControl then
        (handleControl s.1 r.mem r.len r.ctrlData r.clientAddr r.time).mapState (·, s.2)
      else .ok s [] := by
  have hh : d.header = r.header := header_deserializeMessage h
  have hr := Received.recvBytes_of_decoded h
  unfold Received.decoded at h
  simp only [lossyIteration, hr, h, hh]
  rfl

/-- **An iteration of the lossy broker** throws its datagram away, or is one of the broker. -/
theorem lossyIteration_eq (rand : γ → ℕ × γ) (b : Broker) (g : γ) (r : Reception) :
    lossyIteration rand (b, g) r =
      if (lossDraw rand g r).1 then
        (brokerIteration b r).mapState (·, (lossDraw rand g r).2)
      else .ok (b, (lossDraw rand g r).2) [] := by
  -- a datagram that draws no number
  have hkept : r.mayBeLost = false →
      lossyIteration rand (b, g) r = (brokerIteration b r).mapState (·, g) →
      lossyIteration rand (b, g) r =
        if (lossDraw rand g r).1 then (brokerIteration b r).mapState (·, (lossDraw rand g r).2)
        else .ok (b, (lossDraw rand g r).2) [] := by
    intro hn h
    have hdraw : lossDraw rand g r = (true, g) := by
      rw [lossDraw, hn]
      rfl
    rw [hdraw, if_pos rfl, h]
  cases hd : r.decoded with
  | error e =>
    apply hkept
    · simp [Reception.mayBeLost, hd, Except.isOk, Except.toBool]
    · rw [lossyIteration_of_error rand _ hd, brokerIteration_of_error b hd]
      rfl
  | ok d =>
    have hok : r.decoded.isOk := by
      rw [hd]
      rfl
    by_cases hs : r.header.msgType = msgSubscribe
    · apply hkept
      · have hne : msgSubscribe ≠ msgPublish := by decide
        simp [Reception.mayBeLost, hs, hne]
      · rw [lossyIteration_of_ok rand _ hd, brokerIteration_of_ok b hd, if_pos hs, if_pos hs]
    by_cases hp : r.header.msgType = msgPublish
    · by_cases h2 : r.header.qosLevel = qosExactlyOnce
      · apply hkept
        · simp [Reception.mayBeLost, h2]
        · rw [lossyIteration_of_ok rand _ hd, brokerIteration_of_ok b hd, if_neg hs, if_neg hs,
            if_pos hp, if_pos hp, lossyHandlePublish_eq, if_pos h2]
      -- a datagram that may be lost
      · have hdraw : lossDraw rand g r = (decide ((rand g).1 % 3 ≠ 0), (rand g).2) := by
          rw [lossDraw, if_pos]
          exact decide_eq_true ⟨hok, hp, h2⟩
        rw [hdraw, lossyIteration_of_ok rand _ hd, brokerIteration_of_ok b hd, if_neg hs,
          if_neg hs, if_pos hp, if_pos hp, lossyHandlePublish_eq, if_neg h2]
        by_cases h3 : (rand g).1 % 3 = 0
        · rw [if_pos h3, if_neg (by simp [h3])]
        · rw [if_neg h3, if_pos (by simp [h3])]
    · apply hkept
      · simp [Reception.mayBeLost, hp]
      · rw [lossyIteration_of_ok rand _ hd, brokerIteration_of_ok b hd, if_neg hs, if_neg hs,
          if_neg hp, if_neg hp]
        split_ifs <;> rfl

/-- **The lossy broker is the broker on what is not lost.** For every generator and every sequence of
receptions, its state and its outputs are those of the broker on some of them, in order, and only
QoS 0 and QoS 1 messages are missing there. -/
theorem lossyMainLoop_eq (rand : γ → ℕ × γ) (b : Broker) (g : γ) (rs : List Reception) :
    (lossyMainLoop rand (b, g) rs).mapState Prod.fst =
        brokerMainLoop b (passed (lossDraw rand) g rs) ∧
      (passed (lossDraw rand) g rs).Sublist rs ∧
      (passed (lossDraw rand) g rs).filter (fun r => !r.mayBeLost) =
        rs.filter (fun r => !r.mayBeLost) := by
  refine ⟨run_passed (lossyIteration_eq rand) b g rs, passed_sublist _ g rs, ?_⟩
  refine filter_passed (fun g r hr => ?_) g rs
  have hn : r.mayBeLost = false := by simpa using hr
  rw [lossDraw, hn]
  rfl

end SlimMQ
