import SlimMQ.Wire.PacketHandler

/-!
# Frames and the bytes received

A frame is complete when the payload that its header declares was received. The decoders check the
declared lengths against each other and against the output buffers, but not against the number of
bytes received: an over-declared frame is accepted, and the bytes past its end are read from what
the buffer held before.

## Main definitions

* `AcceptsOnlyFrames`, `ControlAcceptsOnlyFrames`: success means a complete frame, read inside the
  bytes received
* `DeclaredOrRejected`, `ControlDeclaredOrRejected`: the frame is complete, or a length check fails

## Main results

* `decoders_acceptOnlyFrames_iff`: exactly then does a decoder accept only complete frames
-/

namespace SlimMQ

open Buffer

variable {inBuf : Mem} {bufLen : ℕ} {outTopic : Option Mem} {topicBufSize : ℕ}
  {outData : Option Mem} {maxDataLen : ℕ}

/-- **`deserialize_message` accepts only a complete frame**: on success the header and the declared
payload were received, with the topic-length byte when it was read; every index that was read lies
inside the bytes received, and these determine the result. -/
def AcceptsOnlyFrames (inBuf : Mem) (bufLen : ℕ) (outTopic : Option Mem) (topicBufSize : ℕ)
    (outData : Option Mem) (maxDataLen : ℕ) : Prop :=
  ∀ d, deserializeMessage inBuf bufLen outTopic topicBufSize outData maxDataLen = .ok d →
    headerSize + d.header.payloadLength.toNat ≤ bufLen ∧
    (¬ NoTopic d.header → headerSize + 1 ≤ bufLen) ∧
    (∀ i ∈ d.reads, i < bufLen) ∧
    ∀ inBuf' : Mem, (∀ i < bufLen, inBuf' i = inBuf i) →
      deserializeMessage inBuf' bufLen outTopic topicBufSize outData maxDataLen = .ok d

/-- **`deserialize_control_message` accepts only a complete frame.** -/
def ControlAcceptsOnlyFrames (inBuf : Mem) (bufLen : ℕ) (outData : Mem) (maxDataLen : ℕ) : Prop :=
  ∀ d, deserializeControlMessage inBuf bufLen outData maxDataLen = .ok d →
    headerSize + d.header.payloadLength.toNat ≤ bufLen ∧
    headerSize + 1 ≤ bufLen ∧
    (∀ i ∈ d.reads, i < bufLen) ∧
    ∀ inBuf' : Mem, (∀ i < bufLen, inBuf' i = inBuf i) →
      deserializeControlMessage inBuf' bufLen outData maxDataLen = .ok d

/-- The datagram is shorter than a header, or holds the payload it declares, or one of its
declared lengths is too large for the payload or for an output buffer. -/
def DeclaredOrRejected (inBuf : Mem) (bufLen : ℕ) (outTopic : Option Mem) (topicBufSize : ℕ)
    (outData : Option Mem) (maxDataLen : ℕ) : Prop :=
  bufLen < headerSize ∨ headerSize + payloadLen inBuf ≤ bufLen ∨
    ¬ NoTopic (SlimMsgHeader.decode inBuf) ∧
      (payloadLen inBuf < topicLen inBuf + 1 ∨
        (outTopic.isSome ∧ 0 < topicLen inBuf ∧ topicBufSize ≤ topicLen inBuf) ∨
        (outData.isSome ∧ maxDataLen < payloadLen inBuf - (1 + topicLen inBuf)))

/-- The datagram has no control-type byte, or holds the data that it declares after that byte, or
declares more data than the output buffer holds; an empty payload declares `2 ^ 64 - 1` bytes. -/
def ControlDeclaredOrRejected (inBuf : Mem) (bufLen maxDataLen : ℕ) : Prop :=
  bufLen < headerSize + 1 ∨ headerSize + 1 + sizeSub (payloadLen inBuf) 1 ≤ bufLen ∨
    maxDataLen < sizeSub (payloadLen inBuf) 1

/-- A datagram that is covered by neither clause passes every check. -/
theorem accepts_of_not_declaredOrRejected
    (h : ¬ DeclaredOrRejected inBuf bufLen outTopic topicBufSize outData maxDataLen) :
    Accepts inBuf bufLen outTopic topicBufSize outData maxDataLen := by
  unfold DeclaredOrRejected at h
  push Not at h
  obtain ⟨hl, -, hrej⟩ := h
  refine ⟨hl, ?_⟩
  by_cases hn : NoTopic (SlimMsgHeader.decode inBuf)
  · exact Or.inl hn
  · obtain ⟨hp, ht, hd⟩ := hrej hn
    exact Or.inr ⟨hp, ht, hd⟩

/-- On a complete frame every index read lies inside it. -/
theorem reads_lt_of_complete {d : Decoded}
    (h : deserializeMessage inBuf bufLen outTopic topicBufSize outData maxDataLen = .ok d)
    (hc : headerSize + payloadLen inBuf ≤ bufLen) : ∀ i ∈ d.reads, i < bufLen := by
  obtain ⟨hl, hlen⟩ := deserializeMessage_ok_iff.mp ⟨d, h⟩
  by_cases hn : NoTopic (SlimMsgHeader.decode inBuf)
  -- the header, and the payload if it was copied
  · rw [deserializeMessage_noTopic hl hn] at h
    obtain rfl := Except.ok.inj h
    intro i hi
    have hi := List.mem_range.mp hi
    split_ifs at hi <;> omega
  · obtain ⟨hp, ht, hd⟩ := hlen.resolve_left hn
    -- the header with the topic length, the topic, and the data
    rw [deserializeMessage_topic hl hn hp ht hd] at h
    obtain rfl := Except.ok.inj h
    intro i hi
    rcases List.mem_append.mp hi with hi | hi
    · rcases List.mem_append.mp hi with hi | hi
      · have hi := List.mem_range.mp hi
        omega
      · split_ifs at hi
        · have hi := List.mem_range'_1.mp hi
          omega
        · cases hi
    · split_ifs at hi
      · have hi := List.mem_range'_1.mp hi
        omega
      · cases hi

theorem acceptsOnlyFrames_iff :
    AcceptsOnlyFrames inBuf bufLen outTopic topicBufSize outData maxDataLen ↔
      DeclaredOrRejected inBuf bufLen outTopic topicBufSize outData maxDataLen := by
  constructor
  · intro hf
    by_contra hc
    -- every check passes, so success would make the frame complete
    obtain ⟨d, hd⟩ := deserializeMessage_ok_iff.mpr (accepts_of_not_declaredOrRejected hc)
    have hcomplete := (hf d hd).1
    rw [header_deserializeMessage hd] at hcomplete
    exact hc (Or.inr (Or.inl hcomplete))
  · intro hc d hd
    obtain ⟨hl, hlen⟩ := deserializeMessage_ok_iff.mp ⟨d, hd⟩
    -- on success no length check has failed
    have hcomplete : headerSize + payloadLen inBuf ≤ bufLen := by
      rcases hc with hshort | hc | ⟨hn, hrej⟩
      · omega
      · exact hc
      · obtain ⟨hp, ht, hd'⟩ := hlen.resolve_left hn
        rcases hrej with hp' | ⟨ho, hpos, hle⟩ | ⟨ho, hlt⟩
        · omega
        · exact absurd (ht ho hpos) (Nat.not_lt.mpr hle)
        · exact absurd (hd' ho) (Nat.not_le.mpr hlt)
    have hreads := reads_lt_of_complete hd hcomplete
    refine ⟨by rwa [header_deserializeMessage hd], ?_, hreads, ?_⟩
    · intro hn
      rw [header_deserializeMessage hd] at hn
      have hp := (hlen.resolve_left hn).1
      omega
    · intro inBuf' hagree
      exact deserializeMessage_congr hd fun i hi => hagree i (hreads i hi)

theorem controlAcceptsOnlyFrames_iff {outData : Mem} :
    ControlAcceptsOnlyFrames inBuf bufLen outData maxDataLen ↔
      ControlDeclaredOrRejected inBuf bufLen maxDataLen := by
  have hpl : payloadLen inBuf < 2 ^ 16 := UInt16.toNat_lt _
  constructor
  · intro hf
    by_contra hc
    unfold ControlDeclaredOrRejected at hc
    push Not at hc
    obtain ⟨hl, hlong, hfit⟩ := hc
    obtain ⟨-, -, hreads, -⟩ := hf _ (deserializeControlMessage_ok ⟨hl, hfit⟩)
    -- the last index of the over-declared data is logged as read
    have hlast := hreads (headerSize + sizeSub (payloadLen inBuf) 1)
      (List.mem_append_right _ (List.mem_range'_1.mpr ⟨by omega, by omega⟩))
    omega
  · intro hc d hd
    obtain ⟨hl, hfit⟩ := deserializeControlMessage_ok_iff.mp ⟨d, hd⟩
    have hlong : headerSize + 1 + sizeSub (payloadLen inBuf) 1 ≤ bufLen := by
      rcases hc with hc | hc | hc <;> omega
    have hd' := hd
    rw [deserializeControlMessage_ok ⟨hl, hfit⟩] at hd
    obtain rfl := Except.ok.inj hd
    have hreads : ∀ i ∈ List.range (headerSize + 1) ++
        List.range' (headerSize + 1) (sizeSub (payloadLen inBuf) 1), i < bufLen := by
      intro i hi
      rcases List.mem_append.mp hi with hi | hi
      · have hi := List.mem_range.mp hi
        omega
      · have hi := List.mem_range'_1.mp hi
        omega
    refine ⟨?_, hl, hreads, ?_⟩
    -- an empty payload has wrapped to more than any datagram holds
    · have hsub : payloadLen inBuf ≤ sizeSub (payloadLen inBuf) 1 + 1 := by
        unfold sizeSub
        omega
      change headerSize + payloadLen inBuf ≤ bufLen
      omega
    · intro inBuf' hagree
      exact deserializeControlMessage_congr hd' fun i hi => hagree i (hreads i hi)

/-- **The decoders accept only complete frames exactly on the datagrams that are complete or fail
a length check.** No check compares a declared length with the bytes received. -/
theorem decoders_acceptOnlyFrames_iff (inBuf : Mem) (bufLen : ℕ) (outTopic : Option Mem)
    (topicBufSize : ℕ) (outData : Option Mem) (ctrlData : Mem) (maxDataLen : ℕ) :
    (AcceptsOnlyFrames inBuf bufLen outTopic topicBufSize outData maxDataLen ↔
      DeclaredOrRejected inBuf bufLen outTopic topicBufSize outData maxDataLen) ∧
    (ControlAcceptsOnlyFrames inBuf bufLen ctrlData maxDataLen ↔
      ControlDeclaredOrRejected inBuf bufLen maxDataLen) :=
  ⟨acceptsOnlyFrames_iff, controlAcceptsOnlyFrames_iff⟩

/-- A PUBLISH header that declares five payload bytes, followed by an empty topic and no data. -/
def overDeclaredPublish : List UInt8 := [1, 0, 0, 0, 0, 1, 0, 0, 0, 0, 1, 1, 5, 0, 1, 0]

/-- Sixteen received bytes are taken for a frame of twenty. -/
theorem overDeclaredPublish_accepted :
    ¬ AcceptsOnlyFrames (Mem.write (fun _ => 0) 0 overDeclaredPublish) overDeclaredPublish.length
      (some fun _ => 0) 256 (some fun _ => 0) 2048 := by
  rw [acceptsOnlyFrames_iff]
  unfold DeclaredOrRejected
  decide

end SlimMQ
