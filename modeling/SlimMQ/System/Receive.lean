import SlimMQ.System.Provenance
import SlimMQ.Wire.RoundTrip

/-!
# Receiving without the event queue

`slimmq_receive` reads a datagram from the socket of the client itself, beside the listener, and
decodes it into the buffers of its caller. The caller sees neither the header nor the length of the
data: an acknowledgement or a control message that the call takes away from the listener looks like a
message with an empty topic. Whatever else it reads is a message that is due to the client, and the
call fails only when a buffer cannot hold it.

## Main definitions

* `slimmqReceive`: the call, on a datagram

## Main results

* `deserializeMessage_topic_tooLong`, `deserializeMessage_data_tooLong`: buffers that are too small
* `slimmqReceive_packet`, `slimmqReceive_noTopic`: what it makes of a message, and of a reply
* `slimmqReceive_due`: what it returns in every reachable state
-/

namespace SlimMQ

open Buffer EventLoop

/-- `slimmq_receive`, on the datagram that `recv_bytes` reads. -/
def slimmqReceive (datagram : Datagram) (buffer outTopic : Mem) (topicBufSize : ℕ) (outData : Mem)
    (dataBufSize : ℕ) : Except Int Decoded :=
  match recvBytes datagram buffer bufferSize with
  | none => .error (-1)
  | some (buffer, received) =>
    deserializeMessage buffer received (some outTopic) topicBufSize (some outData) dataBufSize

variable {datagram : Datagram} {buffer outTopic outData : Mem} {topicBufSize dataBufSize : ℕ}

/-! ## Buffers that are too small -/

section TooSmall

variable {inBuf : Mem} {bufLen maxDataLen : ℕ}

/-- A topic that its buffer cannot hold is refused. -/
theorem deserializeMessage_topic_tooLong (h : headerSize ≤ bufLen)
    (hn : ¬ NoTopic (SlimMsgHeader.decode inBuf)) (hp : topicLen inBuf + 1 ≤ payloadLen inBuf)
    (ht : 0 < topicLen inBuf ∧ topicBufSize ≤ topicLen inBuf) (outData : Option Mem) :
    deserializeMessage inBuf bufLen (some outTopic) topicBufSize outData maxDataLen =
      .error (-3) := by
  have hguard : (some outTopic).isSome ∧ 0 < topicLen inBuf ∧ topicBufSize ≤ topicLen inBuf :=
    ⟨rfl, ht⟩
  unfold deserializeMessage
  rw [if_neg (Nat.not_lt.mpr h)]
  dsimp only
  rw [if_neg hn]
  exact (if_neg (Nat.not_lt.mpr hp)).trans (if_pos hguard)

/-- After the topic, so is data that its buffer cannot hold. -/
theorem deserializeMessage_data_tooLong (h : headerSize ≤ bufLen)
    (hn : ¬ NoTopic (SlimMsgHeader.decode inBuf)) (hp : topicLen inBuf + 1 ≤ payloadLen inBuf)
    (ht : ¬ (0 < topicLen inBuf ∧ topicBufSize ≤ topicLen inBuf))
    (hd : maxDataLen < payloadLen inBuf - (1 + topicLen inBuf)) (outTopic : Option Mem) :
    deserializeMessage inBuf bufLen outTopic topicBufSize (some outData) maxDataLen =
      .error (-4) := by
  have htopic : ¬ (outTopic.isSome ∧ 0 < topicLen inBuf ∧ topicBufSize ≤ topicLen inBuf) :=
    fun hg => ht hg.2
  have hdata : (some outData).isSome ∧ 0 < payloadLen inBuf - (1 + topicLen inBuf) ∧
      maxDataLen < payloadLen inBuf - (1 + topicLen inBuf) :=
    ⟨rfl, Nat.zero_lt_of_lt hd, hd⟩
  unfold deserializeMessage
  rw [if_neg (Nat.not_lt.mpr h)]
  dsimp only
  rw [if_neg hn]
  exact (if_neg (Nat.not_lt.mpr hp)).trans ((if_neg htopic).trans (if_pos hdata))

end TooSmall

/-! ## What the call makes of a datagram -/

/-- A datagram with a header is decoded. -/
theorem slimmqReceive_eq (buffer outTopic : Mem) (topicBufSize : ℕ) (outData : Mem)
    (dataBufSize : ℕ) (h : headerSize ≤ datagram.length) :
    slimmqReceive datagram buffer outTopic topicBufSize outData dataBufSize =
      deserializeMessage (buffer.write 0 (datagram.take bufferSize))
        (datagram.take bufferSize).length (some outTopic) topicBufSize (some outData)
        dataBufSize := by
  have hlen : (datagram.take bufferSize).length ≠ 0 := by
    rw [List.length_take]
    have hh : headerSize = 15 := rfl
    have hb : bufferSize = 2048 := rfl
    omega
  rw [slimmqReceive, recvBytes, if_neg hlen]

/-- **A reply of the broker** is returned as a message with an empty topic. -/
theorem slimmqReceive_noTopic {h : SlimMsgHeader} {bs : List UInt8}
    (hd : datagram = h.encode ++ bs) (hn : NoTopic h) :
    ∃ decoded, slimmqReceive datagram buffer outTopic topicBufSize outData dataBufSize =
        .ok decoded ∧ decoded.header = h ∧ decoded.topic = some (outTopic.write 0 [0]) := by
  have hlen : headerSize ≤ datagram.length := by
    rw [hd, List.length_append, h.length_encode]
    exact Nat.le_add_right _ _
  have htake : datagram.take bufferSize = h.encode ++ bs.take (bufferSize - headerSize) := by
    rw [hd, List.take_append, h.length_encode, List.take_of_length_le]
    rw [h.length_encode]
    decide
  have hheader : SlimMsgHeader.decode (buffer.write 0 (datagram.take bufferSize)) = h := by
    rw [htake]
    exact SlimMsgHeader.decode_encode h buffer _
  have hlong : headerSize ≤ (datagram.take bufferSize).length := by
    rw [htake, List.length_append, h.length_encode]
    exact Nat.le_add_right _ _
  rw [slimmqReceive_eq buffer outTopic topicBufSize outData dataBufSize hlen,
    deserializeMessage_noTopic hlong (by rwa [hheader])]
  exact ⟨_, rfl, hheader, rfl⟩

/-- **A message** is returned in full if the buffers of the caller hold it. Otherwise the call fails,
and it tells which of the buffers is too small. -/
theorem slimmqReceive_packet {m : Message} (hm : m.WellFormed) (hd : datagram = m.packet) :
    if 0 < m.topic.strlen ∧ topicBufSize ≤ m.topic.strlen then
      slimmqReceive datagram buffer outTopic topicBufSize outData dataBufSize = .error (-3)
    else if dataBufSize < m.data.length then
      slimmqReceive datagram buffer outTopic topicBufSize outData dataBufSize = .error (-4)
    else ∃ decoded,
      slimmqReceive datagram buffer outTopic topicBufSize outData dataBufSize = .ok decoded ∧
        decoded.topic = some (outTopic.write 0 (m.topic.bytes ++ [0])) ∧
        decoded.data = some (outData.write 0 m.data) ∧ decoded.written = m.data.length := by
  have hbytes := hd.trans hm.packet
  have hlen := length_frame m.header m.topic m.data
  obtain ⟨hpl, htl, htopic, hdata⟩ := fields_of_write buffer hm.strlen_le hm.payload
  have hn : ¬ NoTopic (SlimMsgHeader.decode (buffer.write 0 datagram)) := by
    rw [hbytes, SlimMsgHeader.decode_encode]
    simp only [NoTopic, hm.type]
    decide
  rw [← hbytes] at hlen hpl htl htopic hdata
  have hsize := hm.size
  have htake : datagram.take bufferSize = datagram := List.take_of_length_le (by omega)
  have hrecv := slimmqReceive_eq buffer outTopic topicBufSize outData dataBufSize
    (show headerSize ≤ datagram.length by omega)
  rw [htake] at hrecv
  have hlong : headerSize ≤ datagram.length := by omega
  have hpay : topicLen (buffer.write 0 datagram) + 1 ≤ payloadLen (buffer.write 0 datagram) := by
    omega
  have hdl : payloadLen (buffer.write 0 datagram) - (1 + topicLen (buffer.write 0 datagram)) =
      m.data.length := by omega
  rw [hrecv]
  split_ifs with htb hdb
  · apply deserializeMessage_topic_tooLong hlong hn hpay
    rwa [htl]
  · apply deserializeMessage_data_tooLong hlong hn hpay
    · rwa [htl]
    · rwa [hdl]
  · rw [deserializeMessage_topic hlong hn hpay
      (fun _ hpos => by rw [htl] at hpos ⊢; omega) (fun _ => by rw [hdl]; omega)]
    refine ⟨_, rfl, ?_, ?_, ?_⟩
    · rw [← htopic]
      rfl
    · rw [← hdata]
      rfl
    · exact hdl

/-! ## The calls of a client -/

/-- **What a call without the listener returns.** In every reachable state, a call of
`slimmq_receive` that reads a datagram the broker has sent to the client returns an acknowledgement or
a control message as a message with an empty topic, or reads a message that is due to the client: it
fails exactly when one of the caller's buffers cannot hold the message, with the code of that buffer,
and otherwise the buffers hold the topic and the data that were published. -/
theorem slimmqReceive_due (es : List Event) (s : System)
    (h : execute System.step System.init es = some s) (hid : s.FewIds) (a : SockaddrIn)
    (d : Datagram) (hd : d ∈ s.inbox a) (buffer outTopic : Mem) (topicBufSize : ℕ) (outData : Mem)
    (dataBufSize : ℕ) :
    (∃ decoded, slimmqReceive d buffer outTopic topicBufSize outData dataBufSize = .ok decoded ∧
        NoTopic decoded.header ∧ decoded.topic = some (outTopic.write 0 [0])) ∨
      ∃ m, s.Due a m ∧
        if 0 < m.topic.strlen ∧ topicBufSize ≤ m.topic.strlen then
          slimmqReceive d buffer outTopic topicBufSize outData dataBufSize = .error (-3)
        else if dataBufSize < m.data.length then
          slimmqReceive d buffer outTopic topicBufSize outData dataBufSize = .error (-4)
        else ∃ decoded,
          slimmqReceive d buffer outTopic topicBufSize outData dataBufSize = .ok decoded ∧
            decoded.topic = some (outTopic.write 0 (m.topic.bytes ++ [0])) ∧
            decoded.data = some (outData.write 0 m.data) ∧ decoded.written = m.data.length := by
  obtain ⟨hinv, htraced⟩ := System.traced_of_execute h hid
  have hreply : ∀ {hdr : SlimMsgHeader} {bs : List UInt8}, d = hdr.encode ++ bs → NoTopic hdr →
      ∃ decoded, slimmqReceive d buffer outTopic topicBufSize outData dataBufSize = .ok decoded ∧
        NoTopic decoded.header ∧ decoded.topic = some (outTopic.write 0 [0]) := by
    intro hdr bs hbytes hn
    obtain ⟨decoded, hok, rfl, htopic⟩ := slimmqReceive_noTopic hbytes hn
    exact ⟨decoded, hok, hn, htopic⟩
  cases hinv.inbox a d hd with
  | ack hdr bs hbytes ht => exact Or.inl (hreply hbytes (Or.inl ht))
  | control hdr c bs hbytes ht => exact Or.inl (hreply hbytes (Or.inr ht))
  | forwarded hdr bs hbytes ht =>
    -- a PUBLISH was sent on by the broker, and is the packet of a message that is due
    rcases System.mem_inbox.mp hd with hmem | hmem
    · obtain ⟨m, hdue, hm⟩ := htraced.forwarded a d hmem
      obtain ⟨k, hstarted⟩ := hdue.1
      have hwf := (hinv.sessions k).numbered.wellFormed m hstarted
      exact Or.inr ⟨m, hdue, slimmqReceive_packet hwf hm⟩
    · obtain ⟨hdr', bs', hbytes', hne⟩ := htraced.replied a d hmem
      have hsame := Received.header_of_append (show (cleanReceived d).datagram = _ from hbytes)
      have hsame' := Received.header_of_append (show (cleanReceived d).datagram = _ from hbytes')
      exact absurd (hsame'.symm.trans hsame ▸ ht) hne

/-- The datagram of the message to the own topic, as the broker sends it back. -/
def ownTopicPacket : Datagram := [1, 0, 0, 0, 0, 2, 0, 0, 0, 0, 1, 1, 3, 0, 1, 1, 97, 9]

/-- Its publisher reads it, into buffers that hold it. -/
theorem slimmqReceive_due_ownTopic :
    ∃ s m decoded, execute System.step System.init ownTopicTrace = some s ∧
      ownTopicPacket ∈ s.inbox publisher ∧ s.Due publisher m ∧
      slimmqReceive ownTopicPacket (fun _ => 0) (fun _ => 0) 8 (fun _ => 0) 8 = .ok decoded ∧
      decoded.topic = some (Mem.write (fun _ => 0) 0 (m.topic.bytes ++ [0])) ∧
      decoded.data = some (Mem.write (fun _ => 0) 0 m.data) ∧
      decoded.written = m.data.length := by
  have hrun : ((execute System.step System.init ownTopicTrace).map fun s =>
      decide (ownTopicPacket ∈ s.inbox publisher)) = some true := by
    decide +kernel
  obtain ⟨s, hs, hmem⟩ := Option.map_eq_some_iff.mp hrun
  have hd : ownTopicPacket ∈ s.inbox publisher := of_decide_eq_true hmem
  have hid : s.FewIds := System.fewIds_of_execute hs (by decide)
  -- the call succeeds, with the header of a PUBLISH
  have hok : (slimmqReceive ownTopicPacket (fun _ => 0) (fun _ => 0) 8 (fun _ => 0) 8).toOption.map
      (·.header.msgType) = some msgPublish := by
    decide +kernel
  rcases slimmqReceive_due ownTopicTrace s hs hid publisher ownTopicPacket hd (fun _ => 0)
    (fun _ => 0) 8 (fun _ => 0) 8 with ⟨decoded, heq, hn, -⟩ | ⟨m, hdue, hm⟩
  · rw [heq] at hok
    have htype : decoded.header.msgType = msgPublish := Option.some.inj hok
    simp only [NoTopic, htype] at hn
    exact absurd hn (by decide)
  · split_ifs at hm
    · rw [hm] at hok
      cases hok
    · rw [hm] at hok
      cases hok
    · obtain ⟨decoded, hdec⟩ := hm
      exact ⟨s, m, decoded, hs, hd, hdue, hdec⟩

end SlimMQ
