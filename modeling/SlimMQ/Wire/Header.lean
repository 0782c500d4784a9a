import SlimMQ.Library.Buffer

/-!
# The message header

The packed header of `slim_msg.h`: ten fields in 15 bytes, multi-byte fields little-endian, as
`memcpy` between a `slim_msg_header_t` and a buffer lays them out.

## Main definitions

* `SlimMsgHeader`: the fields of `slim_msg_header_t`
* `SlimMsgHeader.encode`, `SlimMsgHeader.decode`: its bytes, and the header in a buffer

## Main results

* `SlimMsgHeader.decode_encode`, `SlimMsgHeader.encode_decode`: the two are inverse
* `SlimMsgHeader.decode_congr`: the header is a function of the first 15 bytes
-/

namespace SlimMQ

open Buffer

/-! ## The constants of the wire format -/

abbrev msgPublish : UInt8 := 0
abbrev msgAck : UInt8 := 1
abbrev msgControl : UInt8 := 3
abbrev msgSubscribe : UInt8 := 4

abbrev qosAtMostOnce : UInt8 := 0
abbrev qosAtLeastOnce : UInt8 := 1
abbrev qosExactlyOnce : UInt8 := 2

/-- `control_type_t` is cast from a byte of the wire, so every byte is a control type; the
handlers know three of them. -/
abbrev ControlType := UInt8

abbrev controlReceived : ControlType := 1
abbrev controlRelease : ControlType := 2
abbrev controlComplete : ControlType := 3

/-- `slim_msg_header_t`. -/
@[ext] structure SlimMsgHeader where
  version : UInt8
  msgType : UInt8
  qosLevel : UInt8
  topicId : UInt16
  msgId : UInt32
  fragId : UInt8
  fragTotal : UInt8
  batchSize : UInt8
  payloadLength : UInt16
  clientNodeCount : UInt8
  deriving DecidableEq

/-- `sizeof(slim_msg_header_t)`. -/
abbrev headerSize : ℕ := 15

namespace SlimMsgHeader

/-- The bytes of a header. -/
def encode (h : SlimMsgHeader) : List UInt8 :=
  [h.version, h.msgType, h.qosLevel] ++ le16 h.topicId ++ le32 h.msgId ++
    [h.fragId, h.fragTotal, h.batchSize] ++ le16 h.payloadLength ++ [h.clientNodeCount]

/-- The header at the start of a buffer. -/
def decode (m : Mem) : SlimMsgHeader where
  version := m 0
  msgType := m 1
  qosLevel := m 2
  topicId := ofLe16 (m 3) (m 4)
  msgId := ofLe32 (m 5) (m 6) (m 7) (m 8)
  fragId := m 9
  fragTotal := m 10
  batchSize := m 11
  payloadLength := ofLe16 (m 12) (m 13)
  clientNodeCount := m 14

@[simp] theorem length_encode (h : SlimMsgHeader) : h.encode.length = headerSize := rfl

theorem encode_decode (m : Mem) : (decode m).encode = m.read 0 headerSize := by
  simp only [encode, decode, le16_ofLe16, le32_ofLe32]
  rfl

theorem decode_congr {m m' : Mem} (h : ∀ i < headerSize, m i = m' i) : decode m = decode m' := by
  simp (disch := decide) only [decode, h]

/-- A header written at the start of a buffer is decoded again, whatever follows it. -/
@[simp] theorem decode_encode (h : SlimMsgHeader) (m : Mem) (bs : List UInt8) :
    decode (m.write 0 (h.encode ++ bs)) = h := by
  -- every field is read where `encode` puts it
  have hget : ∀ i < headerSize, m.write 0 (h.encode ++ bs) i = h.encode.getD i 0 := by
    intro i hi
    have hl : i < h.encode.length := by simpa using hi
    rw [Mem.write_zero (by simp; omega), List.getElem_append_left hl,
      List.getD_eq_getElem?_getD, List.getElem?_eq_getElem hl, Option.getD_some]
  ext1 <;> simp (disch := decide) only [decode, hget]
  case topicId => exact ofLe16_le16 h.topicId
  case msgId => exact ofLe32_le32 h.msgId
  case payloadLength => exact ofLe16_le16 h.payloadLength
  all_goals rfl

theorem encode_injective : Function.Injective encode := by
  intro h h' he
  rw [← decode_encode h (fun _ => 0) [], he, decode_encode]

end SlimMsgHeader

end SlimMQ
