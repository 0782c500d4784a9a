import SlimMQ.Client.Soundness

/-!
# The sizes of encoded messages

The encoders add up sizes in `size_t`, compare the sum with the size of the buffer, and return it as
an `int`; the length of the payload goes to a field of 16 bits. A sum that wraps passes the
comparison and lets the copies leave the buffer, one of 2^31 or more does not fit the result, and a
control message of 2^16 bytes does not fit its field. Away from these cases the arithmetic is exact;
the client's own messages, which have to fit a packet, never come to them.

## Main definitions

* `messageSize`, `controlSize`: the sizes, as numbers
* `ExactSize`: an encoder stays in its buffer, and a positive result is the size
* `PayloadExact`: the length field of a frame counts the bytes behind its header
* `MessageFits`, `ControlFits`: the sizes for which an encoder is exact

## Main results

* `messageExact_iff`, `controlExact_iff`: the two encoders are exact for these sizes only
* `payloadExact_of_publishStart`, `payloadExact_of_slimmqSubscribe`: the client's messages are
* `sizesExact_iff`: the encoders and their callers
-/

namespace SlimMQ

open Buffer

/-- The length of a topic, which may be null. -/
def topicLength (topic : Option CString) : ℕ := (topic.map CString.strlen).getD 0

/-- The size of a message. -/
def messageSize (topic : Option CString) (dataLen : ℕ) : ℕ :=
  headerSize + 1 + topicLength topic + dataLen

/-- The size of a control message. -/
def controlSize (dataLen : ℕ) : ℕ := headerSize + 1 + dataLen

/-- **The size arithmetic of an encoder is exact**: it stays in its buffer, and when it returns a
positive value, that is the size, which the buffer holds. -/
structure ExactSize (out : Option (Int × List UInt8)) (size bufSize : ℕ) : Prop where
  inBuffer : out.isSome
  exact : ∀ len bytes, out = some (len, bytes) → 0 < len → size ≤ bufSize ∧ len = size

/-- The length field of a frame is the number of bytes that follow its header. -/
def PayloadExact (frame : List UInt8) : Prop :=
  ∀ (h : SlimMsgHeader) rest, frame = h.encode ++ rest → h.payloadLength.toNat = rest.length

/-- `serialize_message` is exact on these arguments. -/
def MessageExact (header : SlimMsgHeader) (topic : Option CString) (data : Mem)
    (dataLen bufSize : UInt64) : Prop :=
  ExactSize (serializeMessage header topic data dataLen.toNat bufSize.toNat)
    (messageSize topic dataLen.toNat) bufSize.toNat

/-- `serialize_control_message` is exact on these arguments, and so is the field it emits. The field
is read in whatever is emitted, also where the returned `int` is not positive. -/
structure ControlExact (header : SlimMsgHeader) (ctrlType : ControlType) (data : Mem)
    (dataLen bufferLen : UInt64) : Prop where
  size : ExactSize (serializeControlMessage header ctrlType data dataLen.toNat bufferLen.toNat)
    (controlSize dataLen.toNat) bufferLen.toNat
  payload : ∀ len bytes,
    serializeControlMessage header ctrlType data dataLen.toNat bufferLen.toNat =
      some (len, bytes) → PayloadExact bytes

/-- The fields of the messages that `slimmq_publish` and `slimmq_subscribe` emit are exact. -/
structure CallersExact (data : Mem) (dataLen : UInt64) : Prop where
  published : ∀ c topic c' run, publishStart c topic data dataLen.toNat = some (c', .inl run) →
    PayloadExact run.msg.packet
  subscribed : ∀ c topic sendOk, ∀ bytes ∈ (slimmqSubscribe c topic sendOk).2.1,
    PayloadExact bytes

/-- The size does not wrap to one that passes the check. -/
def NoWrap (size bufSize : ℕ) : Prop := 2 ^ 64 ≤ size → bufSize < size - 2 ^ 64

/-- The size, if the buffer holds it, fits a positive `int` or is no positive one at all. -/
def FitsInt (size bufSize : ℕ) : Prop :=
  size ≤ bufSize → size < 2 ^ 31 ∨ size % 2 ^ 32 = 0 ∨ 2 ^ 31 ≤ size % 2 ^ 32

/-- The sizes for which `serialize_message` is exact, among them all those of topics that it
refuses. -/
def MessageFits (topic : Option CString) (dataLen bufSize : UInt64) : Prop :=
  topicLength topic ≤ 255 → NoWrap (messageSize topic dataLen.toNat) bufSize.toNat ∧
    FitsInt (messageSize topic dataLen.toNat) bufSize.toNat

/-- The sizes for which `serialize_control_message` is exact. -/
def ControlFits (dataLen bufferLen : UInt64) : Prop :=
  NoWrap (controlSize dataLen.toNat) bufferLen.toNat ∧
    (controlSize dataLen.toNat ≤ bufferLen.toNat → 1 + dataLen.toNat < 2 ^ 16)

/-! ## The encoders -/

theorem exactSize_refused (size bufSize : ℕ) : ExactSize (some (-1, [])) size bufSize := by
  refine ⟨rfl, fun len bytes h hpos => ?_⟩
  obtain ⟨rfl, -⟩ := Prod.mk.inj (Option.some.inj h)
  cases hpos

theorem not_exactSize_none (size bufSize : ℕ) : ¬ ExactSize none size bufSize :=
  fun h => by cases h.inBuffer

/-- A size that the buffer holds is returned exactly when it fits the result. -/
theorem exactSize_toInt_iff {size bufSize : ℕ} (h : size ≤ bufSize) (bytes : List UInt8) :
    ExactSize (some (toInt size, bytes)) size bufSize ↔ FitsInt size bufSize := by
  constructor
  · rintro ⟨-, hexact⟩ -
    have hexact := hexact (toInt size) bytes rfl
    obtain ⟨hmod, hle, hlt⟩ := toInt_bounds size
    by_contra hfit
    have hpos : 0 < toInt size := by omega
    have hsize := (hexact hpos).2
    omega
  · intro hfit
    refine ⟨rfl, fun len bytes' he hpos => ?_⟩
    obtain ⟨rfl, -⟩ := Prod.mk.inj (Option.some.inj he)
    have hfit := hfit h
    obtain ⟨hmod, hle, hlt⟩ := toInt_bounds size
    exact ⟨h, by omega⟩

theorem messageExact_iff (header : SlimMsgHeader) (topic : Option CString) (data : Mem)
    (dataLen bufSize : UInt64) :
    MessageExact header topic data dataLen bufSize ↔ MessageFits topic dataLen bufSize := by
  have hd := dataLen.toNat_lt
  have hb := bufSize.toNat_lt
  have htopic : ((topic.map CString.bytes).getD []).length = topicLength topic := by
    cases topic <;> rfl
  have hsize : messageSize topic dataLen.toNat =
      headerSize + (1 + topicLength topic + dataLen.toNat) := by
    rw [messageSize]
    omega
  have hh : headerSize = 15 := rfl
  -- the sum of the code is the size without what wraps
  have hsum : sizeT (headerSize + sizeT (1 + topicLength topic + dataLen.toNat)) =
      messageSize topic dataLen.toNat % 2 ^ 64 := by
    rw [hsize, sizeT, sizeT, Nat.add_mod_mod]
  unfold MessageExact MessageFits serializeMessage NoWrap
  simp only [htopic, hsum, ← hsize]
  split_ifs with h₁ h₂ h₃
  -- a topic that is too long
  · exact ⟨fun _ h => absurd h (by omega), fun _ => exactSize_refused _ _⟩
  -- a buffer that is too small
  · refine ⟨fun _ h => ⟨fun hw => by omega, fun hle => by omega⟩, fun _ => exactSize_refused _ _⟩
  -- a sum that has wrapped
  · refine ⟨fun h => absurd h (not_exactSize_none _ _), fun h => ?_⟩
    have hw := (h (by omega)).1 (by omega)
    omega
  · rw [Nat.mod_eq_of_lt (by omega), exactSize_toInt_iff (by omega)]
    exact ⟨fun h _ => ⟨fun hw => by omega, h⟩, fun h => (h (by omega)).2⟩

/-- A frame is known by its header and what follows it. -/
theorem payloadExact_append_iff (h : SlimMsgHeader) (rest : List UInt8) :
    PayloadExact (h.encode ++ rest) ↔ h.payloadLength.toNat = rest.length := by
  constructor
  · intro hp
    exact hp h rest rfl
  · intro hlen h' rest' heq
    obtain ⟨hh, hr⟩ := List.append_inj heq (by simp)
    rw [← SlimMsgHeader.encode_injective hh, ← hr, hlen]

theorem payloadExact_nil : PayloadExact [] := by
  intro h rest heq
  have hlen := congrArg List.length heq
  rw [List.length_append, h.length_encode, List.length_nil] at hlen
  cases Nat.eq_zero_of_add_eq_zero_right hlen.symm

theorem controlExact_iff (header : SlimMsgHeader) (ctrlType : ControlType) (data : Mem)
    (dataLen bufferLen : UInt64) :
    ControlExact header ctrlType data dataLen bufferLen ↔ ControlFits dataLen bufferLen := by
  have hd := dataLen.toNat_lt
  have hb := bufferLen.toNat_lt
  have hh : headerSize = 15 := rfl
  have hsize : headerSize + 1 + dataLen.toNat = controlSize dataLen.toNat := rfl
  have hcs : controlSize dataLen.toNat = 16 + dataLen.toNat := rfl
  by_cases h₁ : bufferLen.toNat < controlSize dataLen.toNat % 2 ^ 64
  -- a buffer that is too small
  · have hout : serializeControlMessage header ctrlType data dataLen.toNat bufferLen.toNat =
        some (-1, []) := by
      simp only [serializeControlMessage, hsize, sizeT, if_pos h₁]
    constructor
    · intro _
      exact ⟨fun hw => by omega, fun hle => by omega⟩
    · intro _
      refine ⟨hout ▸ exactSize_refused _ _, fun len bytes he => ?_⟩
      rw [hout] at he
      obtain ⟨-, rfl⟩ := Prod.mk.inj (Option.some.inj he)
      exact payloadExact_nil
  by_cases h₂ : bufferLen.toNat < controlSize dataLen.toNat
  -- a sum that has wrapped
  · have hout : serializeControlMessage header ctrlType data dataLen.toNat bufferLen.toNat =
        none := by
      simp only [serializeControlMessage, hsize, sizeT, if_neg h₁, if_pos h₂]
    constructor
    · intro h
      exact absurd (hout ▸ h.size) (not_exactSize_none _ _)
    · rintro ⟨hwrap, -⟩
      have hw := hwrap (by omega)
      omega
  -- a frame is emitted
  · have hout : serializeControlMessage header ctrlType data dataLen.toNat bufferLen.toNat =
        some (toInt (controlSize dataLen.toNat), SlimMsgHeader.encode { header with
          msgType := msgControl, payloadLength := UInt16.ofNat (1 + dataLen.toNat) } ++
            ctrlType :: data.read 0 dataLen.toNat) := by
      simp only [serializeControlMessage, hsize, sizeT, if_neg h₁, if_neg h₂]
      rw [Nat.mod_eq_of_lt (by omega)]
    have hfield : (UInt16.ofNat (1 + dataLen.toNat)).toNat =
        (ctrlType :: data.read 0 dataLen.toNat).length ↔ 1 + dataLen.toNat < 2 ^ 16 := by
      rw [UInt16.toNat_ofNat', List.length_cons, Mem.length_read]
      omega
    constructor
    · intro h
      refine ⟨fun hw => by omega, fun _ => ?_⟩
      exact hfield.mp ((payloadExact_append_iff _ _).mp (h.payload _ _ hout))
    · rintro ⟨-, hfit⟩
      have hlt := hfit (by omega)
      constructor
      · rw [hout, exactSize_toInt_iff (by omega)]
        intro _
        exact Or.inl (by omega)
      · intro len bytes he
        rw [hout] at he
        obtain ⟨-, rfl⟩ := Prod.mk.inj (Option.some.inj he)
        exact (payloadExact_append_iff _ _).mpr (hfield.mpr hlt)

/-! ## The callers -/

theorem payloadExact_of_publishStart {c c' : SlimmqClient} {topic : Option CString} {data : Mem}
    {dataLen : ℕ} {run : PublishRun}
    (h : publishStart c topic data dataLen = some (c', .inl run)) :
    PayloadExact run.msg.packet := by
  rcases publishStart_cases h with ⟨-, -, hcall⟩ | ⟨-, -, hcall | ⟨run', hcall, -, -, hwf⟩⟩
  · cases hcall
  · cases hcall
  · obtain rfl := Sum.inl.inj hcall
    rw [hwf.packet, payloadExact_append_iff, hwf.payload]
    simp only [List.length_cons, List.length_append, CString.strlen]
    omega

theorem payloadExact_of_slimmqSubscribe {c : SlimmqClient} {topic : CString} {sendOk : Bool}
    {bytes : List UInt8} (h : bytes ∈ (slimmqSubscribe c topic sendOk).2.1) :
    PayloadExact bytes := by
  unfold slimmqSubscribe at h
  dsimp only at h
  split at h
  · cases h
  · rename_i len packet hser
    split_ifs at h with hfail
    · cases h
    · obtain rfl := List.mem_singleton.mp h
      obtain ⟨hneg, -⟩ := not_or.mp hfail
      obtain ⟨ht, hsize, rfl⟩ := serializeMessage_of_nonneg hser (not_lt.mp hneg)
      rw [payloadExact_append_iff, clientHeader, UInt16.toNat_ofNat']
      simp only [List.length_cons, List.length_append, Mem.length_read]
      rw [Nat.mod_eq_of_lt (by omega), CString.strlen]
      omega

/-- **The size arithmetic of the encoders is exact for the sizes that fit, and for no others**, and
that of their callers is exact always. -/
theorem sizesExact_iff (header : SlimMsgHeader) (topic : Option CString) (ctrlType : ControlType)
    (data : Mem) (dataLen bufSize : UInt64) :
    (MessageExact header topic data dataLen bufSize ↔ MessageFits topic dataLen bufSize) ∧
      (ControlExact header ctrlType data dataLen bufSize ↔ ControlFits dataLen bufSize) ∧
      CallersExact data dataLen := by
  refine ⟨messageExact_iff header topic data dataLen bufSize,
    controlExact_iff header ctrlType data dataLen bufSize, ?_, ?_⟩
  · intro c topic c' run h
    exact payloadExact_of_publishStart h
  · intro c topic sendOk bytes h
    exact payloadExact_of_slimmqSubscribe h

/-- A control message with 65535 bytes of data: 65536 bytes follow the header, and its field says
that none do. -/
theorem wideControl_not_exact :
    ¬ ControlExact (SlimMsgHeader.mk 1 msgControl 2 0 1 0 1 1 1 1) controlRelease (fun _ => 5)
      65535 65551 := by
  rw [controlExact_iff]
  rintro ⟨-, hfit⟩
  exact absurd (hfit (by decide)) (by decide)

end SlimMQ
