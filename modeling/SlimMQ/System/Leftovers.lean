import SlimMQ.Broker.Forwarding
import SlimMQ.Client.Client

/-!
# Leftovers in the buffers

The decoder takes the length of a topic from the wire; its callers, the broker's loop and the
client's listener, take it from the string in the topic buffer. With a NUL byte in the topic field
the string is the shorter one, the callers count more data than was written, and pass on what
their buffer held before: bytes of an earlier message. The two lengths agree exactly when the
topic field has no NUL byte, and then nothing of the earlier contents gets through.

## Main definitions

* `Received.over`: a datagram received over other contents of the topic and data buffers
* `ConsumersAgree`: both callers take the decoder's length, and pass on nothing that their buffers
  held before

## Main results

* `brokerIteration_over`, `listenerStep_over`: what a topic without a NUL byte gives
* `consumersAgree_iff`: the callers agree with the decoder exactly on such topics
-/

namespace SlimMQ

open Buffer EventLoop

/-- The same datagram, received over other contents of the topic and data buffers. -/
def Received.over (r : Received) (topic data : Mem) : Received :=
  { r with topic := topic, data := data }

/-- **The callers agree with the decoder**: the length that both loops take the data to have is the
number of bytes that the decoder wrote, and whatever the topic and data buffers held before, the
broker forwards the same datagrams and the listener queues the same event. -/
structure ConsumersAgree (r : Received) : Prop where
  length : ∀ d, r.decoded = .ok d → r.payloadLength = d.written
  broker : ∀ (b : Broker) (client : SockaddrIn) (time : ℕ → Int) (topic data topic' data' : Mem),
    forwards (brokerIteration b ⟨r.over topic data, client, time⟩).outputs =
      forwards (brokerIteration b ⟨r.over topic' data', client, time⟩).outputs
  listener : ∀ (s : ClientState) (now : Int) (mallocOk : Bool) (topic data topic' data' : Mem),
    listenerStep s ⟨r.over topic data, now, mallocOk⟩ =
      listenerStep s ⟨r.over topic' data', now, mallocOk⟩

/-! ## What the consumers read -/

variable {r : Received}

theorem Received.Publishes.over (h : r.Publishes) (topic data : Mem) :
    (r.over topic data).Publishes :=
  ⟨⟨h.1.header, h.1.lengths⟩, h.2⟩

theorem topicStr_over (r : Received) (topic data topic' data' : Mem) :
    (r.over topic data).topicStr = (r.over topic' data').topicStr :=
  CString.ext ((bytes_publishedTopic r.mem topic).trans (bytes_publishedTopic r.mem topic').symm)

theorem payloadLength_over (h : r.Publishes) (h0 : 0 ∉ topicBytes r.mem) (topic data : Mem) :
    (r.over topic data).payloadLength = dataLen r.mem :=
  (publishedLength_eq_iff topic h.lengths).mpr h0

theorem read_payload_over (r : Received) (topic data : Mem) :
    (r.over topic data).payload.read 0 (dataLen r.mem) = dataBytes r.mem :=
  read_publishedData data

/-! ## What they pass on -/

theorem publishToSubscribers_congr {root : TopicNode} {header : SlimMsgHeader} {t : CString}
    {payload payload' : Mem} {n : ℕ} (h : payload.read 0 n = payload'.read 0 n) :
    publishToSubscribers root header t payload n =
      publishToSubscribers root header t payload' n := by
  -- the encoder copies the given number of bytes
  have hf : forwardTo header t payload n = forwardTo header t payload' n := by
    funext dest
    unfold forwardTo serializeMessage
    rw [h]
  unfold publishToSubscribers
  rw [hf]

/-- The handler reads no more of the data buffer than the length it is given. -/
theorem handlePublish_congr {b : Broker} {header : SlimMsgHeader} {t : CString}
    {payload payload' : Mem} {n : ℕ} {client : SockaddrIn} {now : Int}
    (h : payload.read 0 n = payload'.read 0 n) :
    handlePublish b header t payload n client now =
      handlePublish b header t payload' n client now := by
  unfold handlePublish
  rw [publishToSubscribers_congr h, h]

theorem push_congr {s : ClientState} {msgType : UInt8} {msgId : UInt32} {topic : CString}
    {data data' : Mem} {n : ℕ} {mallocOk : Bool} (h : data.read 0 n = data'.read 0 n) :
    s.push msgType msgId topic data n mallocOk = s.push msgType msgId topic data' n mallocOk := by
  unfold ClientState.push eventQueuePush pushedEvent
  rw [h]
  rfl

/-- The broker's iteration on a topic without a NUL byte sees nothing of the earlier contents. -/
theorem brokerIteration_over (h : r.Publishes) (h0 : 0 ∉ topicBytes r.mem) (b : Broker)
    (client : SockaddrIn) (time : ℕ → Int) (topic data topic' data' : Mem) :
    brokerIteration b ⟨r.over topic data, client, time⟩ =
      brokerIteration b ⟨r.over topic' data', client, time⟩ := by
  rw [brokerIteration_of_publishes b (r := ⟨r.over topic data, client, time⟩) (h.over topic data),
    brokerIteration_of_publishes b (r := ⟨r.over topic' data', client, time⟩) (h.over topic' data')]
  dsimp only
  rw [topicStr_over r topic data topic' data', payloadLength_over h h0, payloadLength_over h h0]
  exact handlePublish_congr ((read_payload_over r topic data).trans
    (read_payload_over r topic' data').symm)

/-- Nor does the listener's turn. -/
theorem listenerStep_over (h : r.Publishes) (h0 : 0 ∉ topicBytes r.mem) (s : ClientState)
    (now : Int) (mallocOk : Bool) (topic data topic' data' : Mem) :
    listenerStep s ⟨r.over topic data, now, mallocOk⟩ =
      listenerStep s ⟨r.over topic' data', now, mallocOk⟩ := by
  rw [listenerStep_of_publishes (r := ⟨r.over topic data, now, mallocOk⟩) (h.over topic data),
    listenerStep_of_publishes (r := ⟨r.over topic' data', now, mallocOk⟩) (h.over topic' data')]
  dsimp only
  rw [topicStr_over r topic data topic' data', payloadLength_over h h0, payloadLength_over h h0]
  exact push_congr ((read_payload_over r topic data).trans
    (read_payload_over r topic' data').symm)

/-- **The callers agree with the decoder exactly when the topic field has no NUL byte.** -/
theorem consumersAgree_iff (r : Received) (h : r.Publishes) :
    ConsumersAgree r ↔ 0 ∉ topicBytes r.mem := by
  constructor
  · intro ha
    obtain ⟨reads, hd⟩ := h.decoded_eq
    -- a NUL byte makes the two lengths differ
    exact (publishedLength_eq_iff r.topic h.lengths).mp (ha.length _ hd)
  · intro h0
    refine ⟨?_, ?_, ?_⟩
    · intro d hd
      obtain ⟨reads, hd'⟩ := h.decoded_eq
      rw [hd'] at hd
      obtain rfl := Except.ok.inj hd
      exact (publishedLength_eq_iff r.topic h.lengths).mpr h0
    · intro b client time topic data topic' data'
      rw [brokerIteration_over h h0 b client time topic data topic' data']
    · intro s now mallocOk topic data topic' data'
      exact listenerStep_over h h0 s now mallocOk topic data topic' data'

/-- The callers agree with the decoder on a PUBLISH of one byte of data to the topic `a`. -/
theorem consumersAgree_iff_plain :
    ConsumersAgree (cleanReceived [1, 0, 0, 0, 0, 5, 0, 0, 0, 0, 1, 1, 3, 0, 1, 1, 97, 9]) := by
  apply (consumersAgree_iff _
    ⟨⟨by decide, Or.inr ⟨by decide, by decide, by decide⟩⟩, by decide⟩).mpr
  decide

/-- A complete PUBLISH of one byte of data, with a NUL byte at the end of its topic field. -/
def leakyPublish : Received :=
  cleanReceived [1, 0, 0, 0, 0, 5, 0, 0, 0, 0, 1, 1, 4, 0, 1, 2, 97, 0, 9]

/-- The callers count two bytes of data where the decoder wrote one: the second is what the data
buffer held before, and goes out with the message. -/
theorem leakyPublish_leaks :
    leakyPublish.Publishes ∧ headerSize + payloadLen leakyPublish.mem = leakyPublish.len ∧
      ¬ ConsumersAgree leakyPublish ∧
      ∀ stale, (leakyPublish.over (fun _ => 0) (fun _ => stale)).payload.read 0
        leakyPublish.payloadLength = [9, stale] := by
  have hp : leakyPublish.Publishes :=
    ⟨⟨by decide, Or.inr ⟨by decide, by decide, by decide⟩⟩, by decide⟩
  have hlen : leakyPublish.payloadLength = 2 := by decide
  refine ⟨hp, by decide, ?_, ?_⟩
  · intro h
    obtain ⟨reads, hd⟩ := hp.decoded_eq
    have hwritten : dataLen leakyPublish.mem = 1 := by decide
    have := h.length _ hd
    rw [hlen, hwritten] at this
    cases this
  · intro stale
    rw [hlen]
    rfl

end SlimMQ
