import SlimMQ.Wire.Header

/-!
# Serialization of messages

The encoders and decoders of `packet_handler.c`. A buffer is a `Mem` with its size beside it. An
encoder returns its `int` and the bytes it wrote, or nothing where a `memcpy` would leave the
output buffer. A decoder returns the negative code of the failed check, or what it wrote through
its output pointers together with the indices of the input buffer that it read; the pointers to
the header and the control type are never null, as every caller passes the address of a local.

## Main definitions

* `serializeMessage`, `serializeControlMessage`: the encoders
* `deserializeMessage`, `deserializeControlMessage`: the decoders
* `Accepts`, `ControlAccepts`: the checks that a decoder makes on its input

## Main results

* `deserializeMessage_ok_iff`, `deserializeControlMessage_ok_iff`: a decoder succeeds exactly on
  what passes its checks, with the result those bytes determine
* `deserializeMessage_congr`, `deserializeControlMessage_congr`: the result depends only on the
  indices that are logged as read
-/

namespace SlimMQ

open Buffer

/-- The `payload_length` field of the header in a buffer. -/
def payloadLen (m : Mem) : ℕ := (SlimMsgHeader.decode m).payloadLength.toNat

/-- The topic-length byte that follows the header in a buffer. -/
def topicLen (m : Mem) : ℕ := (m headerSize).toNat

/-- The messages without a topic: acknowledgements and control messages. -/
def NoTopic (h : SlimMsgHeader) : Prop := h.msgType = msgAck ∨ h.msgType = msgControl

instance (h : SlimMsgHeader) : Decidable (NoTopic h) := inferInstanceAs (Decidable (_ ∨ _))

/-! ## Encoders -/

/-- `serialize_message`. The topic's length goes to one byte; the sizes are sums of `size_t`. -/
def serializeMessage (header : SlimMsgHeader) (topic : Option CString) (data : Mem)
    (dataLen bufSize : ℕ) : Option (Int × List UInt8) :=
  let topicBytes := (topic.map CString.bytes).getD []
  -- a longer topic does not fit its length byte
  if 255 < topicBytes.length then some (-1, [])
  else
    let totalPayload := sizeT (1 + topicBytes.length + dataLen)
    -- the check of the code, on sums that may have wrapped
    if bufSize < sizeT (headerSize + totalPayload) then some (-1, [])
    -- past the check, but the copies leave the buffer
    else if bufSize < headerSize + (1 + topicBytes.length + dataLen) then none
    else some (toInt (sizeT (headerSize + totalPayload)),
      header.encode ++ UInt8.ofNat topicBytes.length :: (topicBytes ++ data.read 0 dataLen))

/-- An encoding that does not fail: the sizes fit, and the frame is the header, the topic with its
length, and the data. -/
theorem serializeMessage_of_nonneg {header : SlimMsgHeader} {t : CString} {data : Mem}
    {dataLen bufSize : ℕ} {len : Int} {bytes : List UInt8}
    (h : serializeMessage header (some t) data dataLen bufSize = some (len, bytes))
    (hlen : 0 ≤ len) :
    t.strlen ≤ 255 ∧ headerSize + (1 + t.strlen + dataLen) ≤ bufSize ∧
      bytes = header.encode ++ UInt8.ofNat t.strlen :: (t.bytes ++ data.read 0 dataLen) := by
  unfold serializeMessage at h
  simp only [Option.map_some, Option.getD_some] at h
  split_ifs at h with h₁ h₂ h₃
  · obtain ⟨rfl, -⟩ := Prod.mk.inj (Option.some.inj h)
    exact absurd hlen (by decide)
  · obtain ⟨rfl, -⟩ := Prod.mk.inj (Option.some.inj h)
    exact absurd hlen (by decide)
  · obtain ⟨-, rfl⟩ := Prod.mk.inj (Option.some.inj h)
    exact ⟨Nat.not_lt.mp h₁, Nat.not_lt.mp h₃, rfl⟩

/-- The encoding of a message whose payload length fits its field. -/
theorem serializeMessage_eq {header : SlimMsgHeader} {topic : CString} {data : Mem}
    {dataLen bufSize : ℕ} (ht : topic.strlen ≤ 255) (hp : 1 + topic.strlen + dataLen ≤ 65535)
    (hbuf : headerSize + (1 + topic.strlen + dataLen) ≤ bufSize) :
    serializeMessage header (some topic) data dataLen bufSize =
      some (((headerSize + (1 + topic.strlen + dataLen) : ℕ) : Int),
        header.encode ++ UInt8.ofNat topic.strlen :: (topic.bytes ++ data.read 0 dataLen)) := by
  have hlen : topic.bytes.length = topic.strlen := rfl
  have hh : headerSize = 15 := rfl
  unfold serializeMessage
  simp only [Option.map_some, Option.getD_some, hlen]
  -- no sum wraps and no check fails
  rw [sizeT_of_lt (n := 1 + topic.strlen + dataLen) (by omega),
    sizeT_of_lt (show headerSize + (1 + topic.strlen + dataLen) < 2 ^ 64 by omega),
    if_neg (by omega), if_neg (by omega), if_neg (by omega), toInt_of_lt (by omega)]

/-- `serialize_control_message`, which overwrites the message type and the payload length. -/
def serializeControlMessage (header : SlimMsgHeader) (ctrlType : ControlType) (data : Mem)
    (dataLen bufferLen : ℕ) : Option (Int × List UInt8) :=
  if bufferLen < sizeT (headerSize + 1 + dataLen) then some (-1, [])
  else if bufferLen < headerSize + 1 + dataLen then none
  else
    let hdr := { header with msgType := msgControl, payloadLength := UInt16.ofNat (1 + dataLen) }
    some (toInt (sizeT (headerSize + 1 + dataLen)), hdr.encode ++ ctrlType :: data.read 0 dataLen)

/-! ## Decoders -/

/-- What a successful `deserialize_message` leaves: the header, the output buffers, the number
of bytes it copied to the data buffer, and the indices of the input that it read. -/
@[ext] structure Decoded where
  header : SlimMsgHeader
  topic : Option Mem
  data : Option Mem
  written : ℕ
  reads : List ℕ

/-- `deserialize_message`. -/
def deserializeMessage (inBuf : Mem) (bufLen : ℕ) (outTopic : Option Mem) (topicBufSize : ℕ)
    (outData : Option Mem) (maxDataLen : ℕ) : Except Int Decoded :=
  if bufLen < headerSize then .error (-1)
  else
    let header := SlimMsgHeader.decode inBuf
    if NoTopic header then
      -- the payload is copied when it fits, and the topic is empty
      let dataLen := header.payloadLength.toNat
      let copied := if 0 < dataLen ∧ outData.isSome ∧ dataLen ≤ maxDataLen then dataLen else 0
      .ok
        { header := header
          topic := outTopic.map (·.write 0 [0])
          data := outData.map (·.write 0 (inBuf.read headerSize copied))
          written := copied
          reads := List.range (headerSize + copied) }
    else
      -- the topic length is read whether or not it was received
      let topicLen := (inBuf headerSize).toNat
      if header.payloadLength.toNat < topicLen + 1 then .error (-2)
      else if outTopic.isSome ∧ 0 < topicLen ∧ topicBufSize ≤ topicLen then .error (-3)
      else
        let dataLen := header.payloadLength.toNat - (1 + topicLen)
        if outData.isSome ∧ 0 < dataLen ∧ maxDataLen < dataLen then .error (-4)
        else .ok
          { header := header
            topic := outTopic.map (·.write 0 (inBuf.read (headerSize + 1) topicLen ++ [0]))
            data := outData.map (·.write 0 (inBuf.read (headerSize + 1 + topicLen) dataLen))
            written := if outData.isSome then dataLen else 0
            reads := List.range (headerSize + 1) ++
              (if outTopic.isSome then List.range' (headerSize + 1) topicLen else []) ++
              (if outData.isSome then List.range' (headerSize + 1 + topicLen) dataLen else []) }

/-- What a successful `deserialize_control_message` leaves. -/
@[ext] structure ControlDecoded where
  header : SlimMsgHeader
  ctrlType : ControlType
  data : Mem
  written : ℕ
  reads : List ℕ

/-- `deserialize_control_message`. The subtraction `payload_length - 1` wraps in `size_t`, so
that an empty payload declares more data than any buffer holds. -/
def deserializeControlMessage (inBuf : Mem) (bufLen : ℕ) (outData : Mem) (maxDataLen : ℕ) :
    Except Int ControlDecoded :=
  if bufLen < headerSize + 1 then .error (-2)
  else
    let header := SlimMsgHeader.decode inBuf
    let dataLen := sizeSub header.payloadLength.toNat 1
    if 0 < dataLen ∧ maxDataLen < dataLen then .error (-3)
    else .ok
      { header := header
        ctrlType := inBuf headerSize
        data := outData.write 0 (inBuf.read (headerSize + 1) dataLen)
        written := dataLen
        reads := List.range (headerSize + 1) ++ List.range' (headerSize + 1) dataLen }

/-! ## What the decoders accept -/

/-- A guarded computation succeeds when its guard does not fire. -/
theorem ite_error_eq_ok {ε α : Type} {p : Prop} [Decidable p] {e : ε} {x : Except ε α} {a : α} :
    (if p then .error e else x) = .ok a ↔ ¬ p ∧ x = .ok a := by
  by_cases hp : p <;> simp [hp]

section Accept

variable {inBuf : Mem} {bufLen : ℕ} {outTopic : Option Mem} {topicBufSize : ℕ}
  {outData : Option Mem} {maxDataLen : ℕ}

/-- The checks of `deserialize_message`: a header, and, past it, a topic and data whose declared
lengths fit each other and the output buffers. None of them looks at the number of bytes received
after the header. -/
structure Accepts (inBuf : Mem) (bufLen : ℕ) (outTopic : Option Mem) (topicBufSize : ℕ)
    (outData : Option Mem) (maxDataLen : ℕ) : Prop where
  header : headerSize ≤ bufLen
  lengths : NoTopic (SlimMsgHeader.decode inBuf) ∨
    topicLen inBuf + 1 ≤ payloadLen inBuf ∧
      (outTopic.isSome → 0 < topicLen inBuf → topicLen inBuf < topicBufSize) ∧
      (outData.isSome → payloadLen inBuf - (1 + topicLen inBuf) ≤ maxDataLen)

/-- An acknowledgement or control message passes on its header alone. -/
theorem deserializeMessage_noTopic (h : headerSize ≤ bufLen)
    (hn : NoTopic (SlimMsgHeader.decode inBuf)) :
    deserializeMessage inBuf bufLen outTopic topicBufSize outData maxDataLen = .ok
      { header := SlimMsgHeader.decode inBuf
        topic := outTopic.map (·.write 0 [0])
        data := outData.map (·.write 0 (inBuf.read headerSize
          (if 0 < payloadLen inBuf ∧ outData.isSome ∧ payloadLen inBuf ≤ maxDataLen
            then payloadLen inBuf else 0)))
        written := if 0 < payloadLen inBuf ∧ outData.isSome ∧ payloadLen inBuf ≤ maxDataLen
          then payloadLen inBuf else 0
        reads := List.range (headerSize +
          (if 0 < payloadLen inBuf ∧ outData.isSome ∧ payloadLen inBuf ≤ maxDataLen
            then payloadLen inBuf else 0)) } := by
  unfold deserializeMessage
  rw [if_neg (by omega)]
  simp only [if_pos hn]
  rfl

/-- A message with a topic passes when its lengths do. -/
theorem deserializeMessage_topic (h : headerSize ≤ bufLen)
    (hn : ¬ NoTopic (SlimMsgHeader.decode inBuf)) (hp : topicLen inBuf + 1 ≤ payloadLen inBuf)
    (ht : outTopic.isSome → 0 < topicLen inBuf → topicLen inBuf < topicBufSize)
    (hd : outData.isSome → payloadLen inBuf - (1 + topicLen inBuf) ≤ maxDataLen) :
    deserializeMessage inBuf bufLen outTopic topicBufSize outData maxDataLen = .ok
      { header := SlimMsgHeader.decode inBuf
        topic := outTopic.map
          (·.write 0 (inBuf.read (headerSize + 1) (topicLen inBuf) ++ [0]))
        data := outData.map (·.write 0 (inBuf.read (headerSize + 1 + topicLen inBuf)
          (payloadLen inBuf - (1 + topicLen inBuf))))
        written := if outData.isSome then payloadLen inBuf - (1 + topicLen inBuf) else 0
        reads := List.range (headerSize + 1) ++
          (if outTopic.isSome then List.range' (headerSize + 1) (topicLen inBuf) else []) ++
          (if outData.isSome then List.range' (headerSize + 1 + topicLen inBuf)
            (payloadLen inBuf - (1 + topicLen inBuf)) else []) } := by
  have h₁ : ¬ (SlimMsgHeader.decode inBuf).payloadLength.toNat < (inBuf headerSize).toNat + 1 :=
    Nat.not_lt.mpr hp
  have h₂ : ¬ (outTopic.isSome ∧ 0 < (inBuf headerSize).toNat ∧
      topicBufSize ≤ (inBuf headerSize).toNat) :=
    fun ⟨ho, hpos, hle⟩ => absurd (ht ho hpos) (Nat.not_lt.mpr hle)
  have h₃ : ¬ (outData.isSome ∧
      0 < (SlimMsgHeader.decode inBuf).payloadLength.toNat - (1 + (inBuf headerSize).toNat) ∧
      maxDataLen <
        (SlimMsgHeader.decode inBuf).payloadLength.toNat - (1 + (inBuf headerSize).toNat)) :=
    fun ⟨ho, _, hlt⟩ => absurd (hd ho) (Nat.not_le.mpr hlt)
  unfold deserializeMessage
  rw [if_neg (by omega)]
  simp only [if_neg hn, if_neg h₁, if_neg h₂, if_neg h₃]
  rfl

/-- **A decoder's success is the success of its checks.** -/
theorem deserializeMessage_ok_iff :
    (∃ d, deserializeMessage inBuf bufLen outTopic topicBufSize outData maxDataLen = .ok d) ↔
      Accepts inBuf bufLen outTopic topicBufSize outData maxDataLen := by
  constructor
  -- from success to the checks, one guard after the other
  · rintro ⟨d, h⟩
    unfold deserializeMessage at h
    obtain ⟨hl, h⟩ := ite_error_eq_ok.mp h
    refine ⟨Nat.not_lt.mp hl, ?_⟩
    by_cases hn : NoTopic (SlimMsgHeader.decode inBuf)
    · exact Or.inl hn
    · simp only [if_neg hn, ite_error_eq_ok] at h
      obtain ⟨h₁, h₂, h₃, -⟩ := h
      refine Or.inr ⟨Nat.not_lt.mp h₁, fun ho hpos => ?_, fun ho => ?_⟩
      · exact Nat.not_le.mp fun hle => h₂ ⟨ho, hpos, hle⟩
      · refine Nat.not_lt.mp fun hlt => h₃ ⟨ho, ?_, hlt⟩
        exact Nat.lt_of_le_of_lt (Nat.zero_le _) hlt
  · rintro ⟨hl, hn | ⟨hp, ht, hd⟩⟩
    · exact ⟨_, deserializeMessage_noTopic hl hn⟩
    · by_cases hn : NoTopic (SlimMsgHeader.decode inBuf)
      · exact ⟨_, deserializeMessage_noTopic hl hn⟩
      · exact ⟨_, deserializeMessage_topic hl hn hp ht hd⟩

/-- The decoded header is the one at the start of the buffer. -/
theorem header_deserializeMessage {d : Decoded}
    (h : deserializeMessage inBuf bufLen outTopic topicBufSize outData maxDataLen = .ok d) :
    d.header = SlimMsgHeader.decode inBuf := by
  obtain ⟨hl, hlen⟩ := deserializeMessage_ok_iff.mp ⟨d, h⟩
  by_cases hn : NoTopic (SlimMsgHeader.decode inBuf)
  · rw [deserializeMessage_noTopic hl hn] at h
    rw [← Except.ok.inj h]
  · obtain ⟨hp, ht, hd⟩ := hlen.resolve_left hn
    rw [deserializeMessage_topic hl hn hp ht hd] at h
    rw [← Except.ok.inj h]

/-- The result of a decoding depends only on the indices that it logs as read. -/
theorem deserializeMessage_congr {d : Decoded}
    (h : deserializeMessage inBuf bufLen outTopic topicBufSize outData maxDataLen = .ok d)
    {inBuf' : Mem} (hr : ∀ i ∈ d.reads, inBuf' i = inBuf i) :
    deserializeMessage inBuf' bufLen outTopic topicBufSize outData maxDataLen = .ok d := by
  obtain ⟨hl, hlen⟩ := deserializeMessage_ok_iff.mp ⟨d, h⟩
  by_cases hn : NoTopic (SlimMsgHeader.decode inBuf)
  · rw [deserializeMessage_noTopic hl hn] at h
    obtain rfl := Except.ok.inj h
    -- the header decides the branch, and is among what was read
    have hh : SlimMsgHeader.decode inBuf' = SlimMsgHeader.decode inBuf :=
      SlimMsgHeader.decode_congr fun i hi => hr i (List.mem_range.mpr (by omega))
    have hp : payloadLen inBuf' = payloadLen inBuf := by rw [payloadLen, hh, payloadLen]
    rw [deserializeMessage_noTopic hl (hh ▸ hn)]
    simp only [hh, hp]
    rw [Mem.read_congr fun i _ hi => hr i (List.mem_range.mpr hi)]
  · obtain ⟨hp, ht, hd⟩ := hlen.resolve_left hn
    rw [deserializeMessage_topic hl hn hp ht hd] at h
    obtain rfl := Except.ok.inj h
    -- the header and the topic length decide the branch ...
    have hbase : ∀ i < headerSize + 1, inBuf' i = inBuf i := fun i hi =>
      hr i (List.mem_append_left _ (List.mem_append_left _ (List.mem_range.mpr hi)))
    have hh : SlimMsgHeader.decode inBuf' = SlimMsgHeader.decode inBuf :=
      SlimMsgHeader.decode_congr fun i hi => hbase i (by omega)
    have hpl : payloadLen inBuf' = payloadLen inBuf := by rw [payloadLen, hh, payloadLen]
    have htl : topicLen inBuf' = topicLen inBuf := by rw [topicLen, hbase _ (by omega), topicLen]
    -- ... the topic and the data are then read from logged indices
    have hT : outTopic.map (·.write 0 (inBuf'.read (headerSize + 1) (topicLen inBuf) ++ [0])) =
        outTopic.map (·.write 0 (inBuf.read (headerSize + 1) (topicLen inBuf) ++ [0])) := by
      cases outTopic with
      | none => rfl
      | some t =>
        rw [Mem.read_congr fun i hi hi' => hr i ?_]
        simp only [Option.isSome_some, if_true, List.mem_append, List.mem_range'_1]
        exact Or.inl (Or.inr ⟨hi, hi'⟩)
    have hD : outData.map (·.write 0 (inBuf'.read (headerSize + 1 + topicLen inBuf)
          (payloadLen inBuf - (1 + topicLen inBuf)))) =
        outData.map (·.write 0 (inBuf.read (headerSize + 1 + topicLen inBuf)
          (payloadLen inBuf - (1 + topicLen inBuf)))) := by
      cases outData with
      | none => rfl
      | some t =>
        rw [Mem.read_congr fun i hi hi' => hr i ?_]
        simp only [Option.isSome_some, if_true, List.mem_append, List.mem_range'_1]
        exact Or.inr ⟨hi, hi'⟩
    rw [deserializeMessage_topic hl (hh ▸ hn) (by omega) (by rwa [htl]) (by rwa [htl, hpl])]
    simp only [hh, hpl, htl, hT, hD]

/-- The check of `deserialize_control_message` past the control-type byte: the declared data
fits the output buffer, in `size_t` arithmetic. -/
structure ControlAccepts (inBuf : Mem) (bufLen maxDataLen : ℕ) : Prop where
  header : headerSize + 1 ≤ bufLen
  length : sizeSub (payloadLen inBuf) 1 ≤ maxDataLen

instance (inBuf : Mem) (bufLen maxDataLen : ℕ) :
    Decidable (ControlAccepts inBuf bufLen maxDataLen) :=
  decidable_of_iff (headerSize + 1 ≤ bufLen ∧ sizeSub (payloadLen inBuf) 1 ≤ maxDataLen)
    ⟨fun h => ⟨h.1, h.2⟩, fun h => ⟨h.header, h.length⟩⟩

theorem deserializeControlMessage_ok {outData : Mem} (h : ControlAccepts inBuf bufLen maxDataLen) :
    deserializeControlMessage inBuf bufLen outData maxDataLen = .ok
      { header := SlimMsgHeader.decode inBuf
        ctrlType := inBuf headerSize
        data := outData.write 0 (inBuf.read (headerSize + 1) (sizeSub (payloadLen inBuf) 1))
        written := sizeSub (payloadLen inBuf) 1
        reads := List.range (headerSize + 1) ++
          List.range' (headerSize + 1) (sizeSub (payloadLen inBuf) 1) } := by
  obtain ⟨hl, hp⟩ := h
  unfold deserializeControlMessage
  rw [if_neg (by omega)]
  exact if_neg fun hc => absurd hp (Nat.not_le.mpr hc.2)

/-- **The control decoder's success is the success of its checks.** -/
theorem deserializeControlMessage_ok_iff {outData : Mem} :
    (∃ d, deserializeControlMessage inBuf bufLen outData maxDataLen = .ok d) ↔
      ControlAccepts inBuf bufLen maxDataLen := by
  constructor
  · rintro ⟨d, h⟩
    unfold deserializeControlMessage at h
    obtain ⟨hl, h⟩ := ite_error_eq_ok.mp h
    obtain ⟨hc, -⟩ := ite_error_eq_ok.mp h
    refine ⟨Nat.not_lt.mp hl, Nat.not_lt.mp fun hlt => hc ⟨?_, hlt⟩⟩
    exact Nat.lt_of_le_of_lt (Nat.zero_le _) hlt
  · intro h
    exact ⟨_, deserializeControlMessage_ok h⟩

/-- The result of a control decoding depends only on the indices that it logs as read. -/
theorem deserializeControlMessage_congr {outData : Mem} {d : ControlDecoded}
    (h : deserializeControlMessage inBuf bufLen outData maxDataLen = .ok d)
    {inBuf' : Mem} (hr : ∀ i ∈ d.reads, inBuf' i = inBuf i) :
    deserializeControlMessage inBuf' bufLen outData maxDataLen = .ok d := by
  have ha := deserializeControlMessage_ok_iff.mp ⟨d, h⟩
  rw [deserializeControlMessage_ok ha] at h
  obtain rfl := Except.ok.inj h
  have hbase : ∀ i < headerSize + 1, inBuf' i = inBuf i := fun i hi =>
    hr i (List.mem_append_left _ (List.mem_range.mpr hi))
  have hh : SlimMsgHeader.decode inBuf' = SlimMsgHeader.decode inBuf :=
    SlimMsgHeader.decode_congr fun i hi => hbase i (by omega)
  have hpl : payloadLen inBuf' = payloadLen inBuf := by rw [payloadLen, hh, payloadLen]
  have hD : inBuf'.read (headerSize + 1) (sizeSub (payloadLen inBuf) 1) =
      inBuf.read (headerSize + 1) (sizeSub (payloadLen inBuf) 1) :=
    Mem.read_congr fun i hi hi' =>
      hr i (List.mem_append_right _ (List.mem_range'_1.mpr ⟨hi, hi'⟩))
  rw [deserializeControlMessage_ok ⟨ha.header, hpl ▸ ha.length⟩]
  simp only [hh, hpl, hD, hbase headerSize (by omega)]

end Accept

end SlimMQ
