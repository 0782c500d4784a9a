import SlimMQ.Wire.PacketHandler
import SlimMQ.Wire.Transport

/-!
# A decoded PUBLISH

The broker's loop and the client's listener decode a PUBLISH in the same way: the topic goes to a
buffer of 256 bytes and is terminated there, the data to one of 2048 bytes, and the length of the
data is then computed from the string in the topic buffer. The two buffers keep their earlier
content past what the decoder wrote. A topic field without a NUL byte is read back in full, and
the computed length is that of the data field.

## Main definitions

* `topicBytes`, `dataBytes`: the two fields of the payload
* `publishedTopic`, `publishedData`, `publishedLength`: what the callers read from their buffers
* `Received`: a received datagram with the buffers it is decoded into
* `Received.Publishes`, `Received.Controls`: it is decoded as a PUBLISH, or as a control message

## Main results

* `publishedLength_eq_iff`: the computed length is that of the data field exactly when the topic
  field has no NUL byte
* `bytes_publishedTopic`, `read_publishedData`: what is read back then
* `serializeMessage_published`: and its encoding is the frame
* `fields_of_write`: the fields of a frame in a buffer
* `Received.Publishes.decoded_eq`: the decoding of a PUBLISH
-/

namespace SlimMQ

open Buffer

/-- The size of the packet and data buffers. -/
abbrev bufferSize : ℕ := 2048

/-- The size of the topic buffer. -/
abbrev topicSize : ℕ := 256

/-- The string in the topic buffer after a decoding. -/
def Decoded.topicStr (d : Decoded) : CString := CString.ofMem (d.topic.getD fun _ => 0) topicSize

/-- The content of the data buffer after a decoding. -/
def Decoded.payload (d : Decoded) : Mem := d.data.getD fun _ => 0

variable (inBuf topic data : Mem)

/-- The topic field of a frame. -/
def topicBytes : List UInt8 := inBuf.read (headerSize + 1) (topicLen inBuf)

/-- The length of the data field of a frame. -/
def dataLen : ℕ := payloadLen inBuf - (1 + topicLen inBuf)

/-- The data field of a frame. -/
def dataBytes : List UInt8 := inBuf.read (headerSize + 1 + topicLen inBuf) (dataLen inBuf)

/-- The string in the topic buffer after a decoding. -/
def publishedTopic : CString := CString.ofMem (topic.write 0 (topicBytes inBuf ++ [0])) topicSize

/-- The data buffer after a decoding. -/
def publishedData : Mem := data.write 0 (dataBytes inBuf)

/-- The length that the callers take the data to have. -/
def publishedLength : ℕ := sizeSub (payloadLen inBuf) (1 + (publishedTopic inBuf topic).strlen)

@[simp] theorem length_topicBytes : (topicBytes inBuf).length = topicLen inBuf := Mem.length_read ..

@[simp] theorem length_dataBytes : (dataBytes inBuf).length = dataLen inBuf := Mem.length_read ..

theorem topicLen_lt : topicLen inBuf < topicSize := (inBuf headerSize).toNat_lt

theorem payloadLen_lt : payloadLen inBuf < 65536 :=
  (SlimMsgHeader.decode inBuf).payloadLength.toNat_lt

/-! ## The topic -/

theorem topic_terminated : topic.write 0 (topicBytes inBuf ++ [0]) (topicLen inBuf) = 0 := by
  rw [Mem.write_zero (by simp), List.getElem_append_right (by simp)]
  simp

theorem read_topic :
    (topic.write 0 (topicBytes inBuf ++ [0])).read 0 (topicLen inBuf) = topicBytes inBuf := by
  rw [Mem.read_write_of_le _ (by simp), List.drop_zero, List.take_left' (by simp)]

/-- The string is as long as the topic field exactly when the field has no NUL byte. -/
theorem strlen_publishedTopic_eq_iff :
    (publishedTopic inBuf topic).strlen = topicLen inBuf ↔ 0 ∉ topicBytes inBuf := by
  have h := CString.strlen_ofMem_eq_iff (topic_terminated inBuf topic) (topicLen_lt inBuf)
  rw [read_topic] at h
  exact h

theorem strlen_publishedTopic_le : (publishedTopic inBuf topic).strlen ≤ topicLen inBuf :=
  CString.strlen_ofMem_le (topic_terminated inBuf topic) (topicLen_lt inBuf)

/-- Whatever the buffer held, its string is the topic field up to a first NUL byte. -/
theorem bytes_publishedTopic :
    (publishedTopic inBuf topic).bytes = (topicBytes inBuf).takeWhile (· != 0) := by
  have h := CString.bytes_ofMem (topic_terminated inBuf topic) (topicLen_lt inBuf)
  rw [read_topic] at h
  exact h

theorem bytes_publishedTopic_of_noNul (h : 0 ∉ topicBytes inBuf) :
    (publishedTopic inBuf topic).bytes = topicBytes inBuf := by
  have h' := CString.bytes_ofMem_of_noNul (topic_terminated inBuf topic) (topicLen_lt inBuf)
    (by rwa [read_topic])
  rw [read_topic] at h'
  exact h'

/-! ## The data -/

variable {inBuf}

/-- **The computed length is that of the data field exactly when the topic has no NUL byte.** -/
theorem publishedLength_eq_iff (hp : topicLen inBuf + 1 ≤ payloadLen inBuf) :
    publishedLength inBuf topic = dataLen inBuf ↔ 0 ∉ topicBytes inBuf := by
  have hle := strlen_publishedTopic_le inBuf topic
  have hlt := payloadLen_lt inBuf
  -- the string is no longer than the topic field, so the difference does not wrap
  rw [← strlen_publishedTopic_eq_iff inBuf topic, publishedLength, dataLen,
    sizeSub_of_le (by omega) (by omega)]
  omega

theorem read_publishedData :
    (publishedData inBuf data).read 0 (dataLen inBuf) = dataBytes inBuf := by
  rw [publishedData, ← length_dataBytes, Mem.read_write]

/-- The fields of a frame, one after the other. -/
theorem read_frame (hp : topicLen inBuf + 1 ≤ payloadLen inBuf) :
    inBuf.read 0 (headerSize + payloadLen inBuf) =
      (SlimMsgHeader.decode inBuf).encode ++
        UInt8.ofNat (topicLen inBuf) :: (topicBytes inBuf ++ dataBytes inBuf) := by
  have hlen : payloadLen inBuf = (topicLen inBuf + dataLen inBuf) + 1 := by
    rw [dataLen]
    omega
  have hbyte : UInt8.ofNat (topicLen inBuf) = inBuf headerSize := UInt8.ofNat_toNat
  rw [Mem.read_add inBuf 0 headerSize, Nat.zero_add, hlen,
    Mem.read_succ inBuf headerSize, Mem.read_add inBuf (headerSize + 1),
    SlimMsgHeader.encode_decode, hbyte, topicBytes, dataBytes]

/-- **A frame is encoded again from what its decoding left**, when its topic has no NUL byte. -/
theorem serializeMessage_published (hp : topicLen inBuf + 1 ≤ payloadLen inBuf)
    (hsize : headerSize + payloadLen inBuf ≤ bufferSize) (h : 0 ∉ topicBytes inBuf) :
    serializeMessage (SlimMsgHeader.decode inBuf) (some (publishedTopic inBuf topic))
        (publishedData inBuf data) (publishedLength inBuf topic) bufferSize =
      some (((headerSize + payloadLen inBuf : ℕ) : Int),
        inBuf.read 0 (headerSize + payloadLen inBuf)) := by
  have hb := bytes_publishedTopic_of_noNul inBuf topic h
  have hlt : topicLen inBuf < 256 := topicLen_lt inBuf
  have hbuf : bufferSize = 2048 := rfl
  have hsum : 1 + topicLen inBuf + dataLen inBuf = payloadLen inBuf := by
    rw [dataLen]
    omega
  have hstr : (publishedTopic inBuf topic).strlen = topicLen inBuf := by
    rw [CString.strlen, hb, length_topicBytes]
  rw [(publishedLength_eq_iff topic hp).mpr h, read_frame hp,
    serializeMessage_eq (by omega) (by omega) (by omega), hstr, hsum, hb, read_publishedData]

/-! ## Frames in a buffer -/

variable {h : SlimMsgHeader} {t : CString} {bs : List UInt8}

/-- The length of a frame. -/
theorem length_frame (h : SlimMsgHeader) (t : CString) (bs : List UInt8) :
    (h.encode ++ UInt8.ofNat t.strlen :: (t.bytes ++ bs)).length =
      headerSize + (1 + t.strlen + bs.length) := by
  simp only [List.length_append, List.length_cons, h.length_encode, CString.strlen]
  omega

/-- **The fields of a frame in a buffer are those it was encoded from.** -/
theorem fields_of_write (m : Mem) (ht : t.strlen ≤ 255)
    (hp : h.payloadLength.toNat = 1 + t.strlen + bs.length) :
    let m' := m.write 0 (h.encode ++ UInt8.ofNat t.strlen :: (t.bytes ++ bs))
    payloadLen m' = 1 + t.strlen + bs.length ∧ topicLen m' = t.strlen ∧ topicBytes m' = t.bytes ∧
      dataBytes m' = bs := by
  have hpl : payloadLen (m.write 0 (h.encode ++ UInt8.ofNat t.strlen :: (t.bytes ++ bs))) =
      1 + t.strlen + bs.length := by
    rw [payloadLen, SlimMsgHeader.decode_encode, hp]
  have htl : topicLen (m.write 0 (h.encode ++ UInt8.ofNat t.strlen :: (t.bytes ++ bs))) =
      t.strlen := by
    rw [topicLen, Mem.write_zero (by rw [length_frame]; omega),
      List.getElem_append_right (by rw [h.length_encode])]
    simp only [h.length_encode, Nat.sub_self, List.getElem_cons_zero, UInt8.toNat_ofNat']
    exact Nat.mod_eq_of_lt (by omega)
  -- what stands before the topic, and before the data
  have hpre : (h.encode ++ [UInt8.ofNat t.strlen]).length = headerSize + 1 := by
    rw [List.length_append, h.length_encode]
    rfl
  have hsplit : h.encode ++ UInt8.ofNat t.strlen :: (t.bytes ++ bs) =
      (h.encode ++ [UInt8.ofNat t.strlen]) ++ (t.bytes ++ bs) := by simp
  refine ⟨hpl, htl, ?_, ?_⟩
  · rw [topicBytes, htl, Mem.read_write_of_le _ (by rw [length_frame]; omega), hsplit,
      List.drop_left' hpre]
    exact List.take_left' rfl
  · have hdl : dataLen (m.write 0 (h.encode ++ UInt8.ofNat t.strlen :: (t.bytes ++ bs))) =
        bs.length := by
      rw [dataLen, hpl, htl]
      omega
    rw [dataBytes, htl, hdl, Mem.read_write_of_le _ (by rw [length_frame]; omega), hsplit,
      ← List.append_assoc, List.drop_left' (by simp [CString.strlen]; omega), List.take_length]

/-! ## Receptions -/

/-- What a loop reads in one turn: a datagram, and the earlier contents of the buffers that it
receives and decodes it into. -/
structure Received where
  datagram : Datagram
  buffer : Mem
  topic : Mem
  data : Mem
  ctrlData : Mem

/-- A datagram received into clean buffers. -/
def cleanReceived (datagram : Datagram) : Received where
  datagram := datagram
  buffer := fun _ => 0
  topic := fun _ => 0
  data := fun _ => 0
  ctrlData := fun _ => 0

namespace Received

variable {r : Received}

/-- The packet buffer after the reception. -/
def mem (r : Received) : Mem := r.buffer.write 0 (r.datagram.take bufferSize)

/-- The number of bytes received. -/
def len (r : Received) : ℕ := (r.datagram.take bufferSize).length

/-- The header of the datagram. -/
def header (r : Received) : SlimMsgHeader := SlimMsgHeader.decode r.mem

/-- The first pass of both loops over a datagram. -/
def decoded (r : Received) : Except Int Decoded :=
  deserializeMessage r.mem r.len (some r.topic) topicSize (some r.data) bufferSize

/-- The datagram is decoded as a PUBLISH. -/
def Publishes (r : Received) : Prop :=
  Accepts r.mem r.len (some r.topic) topicSize (some r.data) bufferSize ∧
    r.header.msgType = msgPublish

/-- The datagram is decoded as a control message of this type, in a buffer of this size. -/
def Controls (r : Received) (maxDataLen : ℕ) (ctrlType : ControlType) : Prop :=
  ControlAccepts r.mem r.len maxDataLen ∧ r.header.msgType = msgControl ∧
    r.mem headerSize = ctrlType

instance (r : Received) (maxDataLen : ℕ) (ctrlType : ControlType) :
    Decidable (r.Controls maxDataLen ctrlType) :=
  inferInstanceAs (Decidable (_ ∧ _ ∧ _))

/-- The string that a decoded topic leaves in the topic buffer. -/
def topicStr (r : Received) : CString := publishedTopic r.mem r.topic

/-- The data buffer after a decoded PUBLISH. -/
def payload (r : Received) : Mem := publishedData r.mem r.data

/-- The length that the loops take the data of a PUBLISH to have. -/
def payloadLength (r : Received) : ℕ := publishedLength r.mem r.topic

theorem recvBytes_of_len (h : r.len ≠ 0) :
    recvBytes r.datagram r.buffer bufferSize = some (r.mem, r.len) :=
  if_neg h

theorem recvBytes_of_decoded {d : Decoded} (h : r.decoded = .ok d) :
    recvBytes r.datagram r.buffer bufferSize = some (r.mem, r.len) := by
  have hle : headerSize ≤ r.len := (deserializeMessage_ok_iff.mp ⟨d, h⟩).header
  exact recvBytes_of_len (Nat.ne_of_gt (Nat.lt_of_lt_of_le (by decide) hle))

theorem Publishes.not_noTopic (h : r.Publishes) : ¬ NoTopic (SlimMsgHeader.decode r.mem) := by
  have ht : (SlimMsgHeader.decode r.mem).msgType = msgPublish := h.2
  simp only [NoTopic, ht]
  decide

theorem Publishes.lengths (h : r.Publishes) : topicLen r.mem + 1 ≤ payloadLen r.mem :=
  (h.1.lengths.resolve_left h.not_noTopic).1

/-! ### Datagrams that start with a header -/

variable {h : SlimMsgHeader} {c : UInt8} {bs : List UInt8}

/-- A datagram that starts with a header is received with it. -/
theorem header_of_append (hd : r.datagram = h.encode ++ bs) : r.header = h := by
  -- the cut of the datagram is behind its header
  have htake : r.datagram.take bufferSize = h.encode ++ bs.take (bufferSize - headerSize) := by
    rw [hd, List.take_append, List.take_of_length_le (by rw [h.length_encode]; decide),
      h.length_encode]
  rw [header, mem, htake, SlimMsgHeader.decode_encode]

/-- The byte after the header. -/
theorem mem_headerSize_of_append (hd : r.datagram = h.encode ++ c :: bs) :
    r.mem headerSize = c := by
  have hlt : headerSize < (r.datagram.take bufferSize).length := by
    rw [hd, List.length_take, List.length_append, List.length_cons, h.length_encode]
    simp only [bufferSize, headerSize]
    omega
  rw [mem, Mem.write_zero hlt, List.getElem_take]
  simp only [hd]
  rw [List.getElem_append_right (by rw [h.length_encode])]
  simp

/-- A header with a control type behind it is decoded as a control message, in a buffer of any
size. -/
theorem controls_of_append (htype : h.msgType = msgControl) (hp : h.payloadLength = 1)
    (hd : r.datagram = h.encode ++ [c]) (maxDataLen : ℕ) : r.Controls maxDataLen c := by
  have hheader := header_of_append hd
  refine ⟨⟨?_, ?_⟩, by rw [hheader, htype], mem_headerSize_of_append hd⟩
  · rw [len, hd, List.length_take, List.length_append, h.length_encode, List.length_singleton]
    exact le_min (by decide) le_rfl
  · have hlen : payloadLen r.mem = 1 := by
      change r.header.payloadLength.toNat = 1
      rw [hheader, hp]
      rfl
    rw [hlen]
    exact Nat.zero_le _

/-- **A frame is received as it was encoded.** -/
theorem fields_of_frame {t : CString} {data : List UInt8} (ht : t.strlen ≤ 255)
    (hp : h.payloadLength.toNat = 1 + t.strlen + data.length)
    (hsize : headerSize + (1 + t.strlen + data.length) ≤ bufferSize)
    (hd : r.datagram = h.encode ++ UInt8.ofNat t.strlen :: (t.bytes ++ data)) :
    topicLen r.mem = t.strlen ∧ topicBytes r.mem = t.bytes ∧ dataBytes r.mem = data := by
  -- the whole frame is in the buffer
  have hmem : r.mem = r.buffer.write 0 (h.encode ++ UInt8.ofNat t.strlen :: (t.bytes ++ data)) := by
    rw [mem, hd, List.take_of_length_le (by rw [length_frame]; exact hsize)]
  rw [hmem]
  exact (fields_of_write r.buffer ht hp).2

/-- **The frame of a PUBLISH is decoded to what it was encoded from**, its topic being a C
string. -/
theorem published_of_frame {t : CString} {data : List UInt8} (htype : h.msgType = msgPublish)
    (ht : t.strlen ≤ 255) (hp : h.payloadLength.toNat = 1 + t.strlen + data.length)
    (hsize : headerSize + (1 + t.strlen + data.length) ≤ bufferSize)
    (hd : r.datagram = h.encode ++ UInt8.ofNat t.strlen :: (t.bytes ++ data)) :
    r.Publishes ∧ r.header = h ∧ r.topicStr = t ∧ r.payload.read 0 r.payloadLength = data := by
  obtain ⟨htl, htb, hdb⟩ := fields_of_frame ht hp hsize hd
  have hheader := header_of_append hd
  have hpl : payloadLen r.mem = 1 + t.strlen + data.length := by
    rw [← hp, ← hheader]
    rfl
  have hlen : headerSize ≤ r.len := by
    rw [len, hd, List.take_of_length_le (by rw [length_frame]; exact hsize), length_frame]
    exact Nat.le_add_right _ _
  have hpub : r.Publishes := by
    refine ⟨⟨hlen, Or.inr ⟨by omega, fun _ _ => topicLen_lt r.mem, fun _ => ?_⟩⟩, ?_⟩
    · simp only [bufferSize, headerSize] at hsize ⊢
      omega
    · rw [hheader, htype]
  -- without a NUL in its topic, a frame is read back in full
  have h0 : 0 ∉ topicBytes r.mem := htb ▸ t.noNul
  have hlength : r.payloadLength = dataLen r.mem :=
    (publishedLength_eq_iff r.topic hpub.lengths).mpr h0
  have htopic : r.topicStr = t :=
    CString.ext ((bytes_publishedTopic_of_noNul r.mem r.topic h0).trans htb)
  refine ⟨hpub, hheader, htopic, ?_⟩
  rw [hlength]
  exact (read_publishedData r.data).trans hdb

/-! ### Decodings -/

/-- **The decoding of a PUBLISH.** -/
theorem Publishes.decoded_eq (h : r.Publishes) :
    ∃ reads, r.decoded = .ok
      { header := r.header
        topic := some (r.topic.write 0 (topicBytes r.mem ++ [0]))
        data := some r.payload
        written := dataLen r.mem
        reads := reads } := by
  obtain ⟨hp, ht, hd⟩ := h.1.lengths.resolve_left h.not_noTopic
  exact ⟨_, deserializeMessage_topic h.1.header h.not_noTopic hp ht hd⟩

/-- What the loops read after the decoding of a PUBLISH. -/
theorem Publishes.exists_decoded (h : r.Publishes) :
    ∃ d, r.decoded = .ok d ∧ d.topicStr = r.topicStr ∧ d.payload = r.payload := by
  obtain ⟨reads, hd⟩ := h.decoded_eq
  refine ⟨_, hd, ?_, ?_⟩
  · simp only [Decoded.topicStr, Option.getD_some, topicStr, publishedTopic]
  · simp only [Decoded.payload, Option.getD_some]

/-- An acknowledgement or control message leaves the empty topic. -/
theorem topicStr_of_noTopic {d : Decoded} (h : r.decoded = .ok d)
    (hn : NoTopic r.header) : d.topicStr = CString.empty := by
  have hle : headerSize ≤ r.len := (deserializeMessage_ok_iff.mp ⟨d, h⟩).header
  unfold decoded at h
  rw [deserializeMessage_noTopic hle hn] at h
  obtain rfl := Except.ok.inj h
  -- the terminator is the first byte of the topic buffer
  refine CString.ext ((CString.bytes_ofMem (n := 0) ?_ (by decide)).trans rfl)
  exact Mem.write_zero Nat.one_pos

/-- A control message passes the first pass as well. -/
theorem Controls.decoded_eq {maxDataLen : ℕ} {c : ControlType} (h : r.Controls maxDataLen c) :
    ∃ d, r.decoded = .ok d :=
  ⟨_, deserializeMessage_noTopic (Nat.le_of_succ_le h.1.header) (Or.inr h.2.1)⟩

end Received

end SlimMQ
