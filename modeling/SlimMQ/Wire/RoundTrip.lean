import SlimMQ.Wire.Published

/-!
# Round trips through the wire format

What the encoders write is what the decoders read, for every message and every size of the buffers
that holds it. A control message is decoded twice by its receivers, first as any message, where it
passes with an empty topic and its payload may be left out, and then as a control message.

## Main results

* `deserializeMessage_serializeMessage`: a message is decoded as it was encoded
* `deserializeControlMessage_serializeControlMessage`: a control message passes both decoders, the
  second with what it was encoded from
-/

namespace SlimMQ

open Buffer

/-! ## Messages -/

/-- The decoding of a frame, into buffers that hold its topic and data. -/
theorem deserializeMessage_frame {header : SlimMsgHeader} {topic : CString} {bs : List UInt8}
    (hn : ¬ NoTopic header) (ht : topic.strlen ≤ 255)
    (hp : header.payloadLength.toNat = 1 + topic.strlen + bs.length) (m outTopic outData : Mem)
    {topicBufSize maxDataLen : ℕ} (htb : topic.strlen < topicBufSize)
    (hdb : bs.length ≤ maxDataLen) :
    let bytes := header.encode ++ UInt8.ofNat topic.strlen :: (topic.bytes ++ bs)
    ∃ decoded, deserializeMessage (m.write 0 bytes) bytes.length (some outTopic) topicBufSize
        (some outData) maxDataLen = .ok decoded ∧
      decoded.header = header ∧ decoded.topic = some (outTopic.write 0 (topic.bytes ++ [0])) ∧
      decoded.data = some (outData.write 0 bs) ∧ decoded.written = bs.length := by
  obtain ⟨hpl, htl, htopic, hdata⟩ := fields_of_write (h := header) (t := topic) m ht hp
  have hlen := length_frame header topic bs
  have hheader := SlimMsgHeader.decode_encode header m
    (UInt8.ofNat topic.strlen :: (topic.bytes ++ bs))
  dsimp only
  generalize header.encode ++ UInt8.ofNat topic.strlen :: (topic.bytes ++ bs) = bytes at *
  have hdl : payloadLen (m.write 0 bytes) - (1 + topicLen (m.write 0 bytes)) = bs.length := by
    omega
  refine ⟨_, deserializeMessage_topic (by omega) (by rwa [hheader]) (by omega)
    (fun _ _ => by omega) (fun _ => by omega), hheader, ?_, ?_, ?_⟩
  · rw [← htopic]
    rfl
  · rw [← hdata]
    rfl
  · exact hdl

/-- **A message is decoded as it was encoded**: all fields of the header, the topic with its
terminator, and the data, whatever the memory around the buffers held. -/
theorem deserializeMessage_serializeMessage (header : SlimMsgHeader) (topic : CString) (data : Mem)
    (dataLen bufSize : ℕ) (hty : header.msgType ≠ msgAck ∧ header.msgType ≠ msgControl)
    (ht : topic.strlen ≤ 255) (hp : header.payloadLength.toNat = 1 + topic.strlen + dataLen)
    (hbuf : headerSize + header.payloadLength.toNat ≤ bufSize) (m outTopic outData : Mem)
    (topicBufSize maxDataLen : ℕ) (htb : topic.strlen < topicBufSize) (hdb : dataLen ≤ maxDataLen) :
    ∃ bytes decoded topicMem dataMem,
      serializeMessage header (some topic) data dataLen bufSize =
        some (((headerSize + header.payloadLength.toNat : ℕ) : Int), bytes) ∧
      bytes.length = headerSize + header.payloadLength.toNat ∧
      deserializeMessage (m.write 0 bytes) bytes.length (some outTopic) topicBufSize (some outData)
        maxDataLen = .ok decoded ∧
      decoded.header = header ∧
      decoded.topic = some topicMem ∧ CString.ofMem topicMem topicBufSize = topic ∧
      topicMem topic.strlen = 0 ∧
      decoded.data = some dataMem ∧ decoded.written = dataLen ∧
      dataMem.read 0 dataLen = data.read 0 dataLen := by
  have hlt := header.payloadLength.toNat_lt
  have hbs : (data.read 0 dataLen).length = dataLen := Mem.length_read data 0 dataLen
  have hn : ¬ NoTopic header := fun h => h.elim hty.1 hty.2
  have hser : serializeMessage header (some topic) data dataLen bufSize = _ :=
    serializeMessage_eq ht (by omega) (by omega)
  obtain ⟨decoded, hdec, hheader, htopic, hdata, hwritten⟩ := deserializeMessage_frame hn ht
    (show header.payloadLength.toNat = 1 + topic.strlen + (data.read 0 dataLen).length by
      rw [hbs, hp]) m outTopic outData htb (show _ ≤ maxDataLen by rwa [hbs])
  obtain ⟨hstr, hterm⟩ := CString.ofMem_write outTopic htb
  refine ⟨_, decoded, _, _, by rw [hp]; exact hser, ?_, hdec, hheader, htopic, hstr, hterm, hdata,
    hwritten.trans hbs, ?_⟩
  · rw [length_frame, hbs, hp]
  · have hread := Mem.read_write outData 0 (data.read 0 dataLen)
    rwa [hbs] at hread

/-- A PUBLISH to `a/b` without data, in buffers that just hold it. -/
theorem deserializeMessage_serializeMessage_noData :
    let header := SlimMsgHeader.mk 1 msgPublish 2 513 67305985 3 4 5 4 6
    let topic := CString.mk [97, 47, 98] (by decide)
    header.payloadLength.toNat = 1 + topic.strlen + 0 ∧
      ∃ bytes decoded topicMem dataMem,
        serializeMessage header (some topic) (fun _ => 0) 0 19 = some (19, bytes) ∧
        bytes.length = 19 ∧
        deserializeMessage (Mem.write (fun _ => 9) 0 bytes) bytes.length (some fun _ => 8) 4
          (some fun _ => 7) 0 = .ok decoded ∧
        decoded.header = header ∧
        decoded.topic = some topicMem ∧ CString.ofMem topicMem 4 = topic ∧
        topicMem topic.strlen = 0 ∧
        decoded.data = some dataMem ∧ decoded.written = 0 ∧
        dataMem.read 0 0 = Mem.read (fun _ => 0) 0 0 :=
  ⟨by decide, deserializeMessage_serializeMessage _ _ _ 0 19 (by decide) (by decide) (by decide)
    (by decide) _ _ _ 4 0 (by decide) (by decide)⟩

/-! ## Control messages -/

/-- The encoding of a control message whose payload length fits its field. -/
theorem serializeControlMessage_eq {header : SlimMsgHeader} {ctrlType : ControlType} {data : Mem}
    {dataLen bufferLen : ℕ} (hd : 1 + dataLen ≤ 65535)
    (hbuf : headerSize + 1 + dataLen ≤ bufferLen) :
    serializeControlMessage header ctrlType data dataLen bufferLen =
      some (((headerSize + 1 + dataLen : ℕ) : Int),
        SlimMsgHeader.encode { header with
          msgType := msgControl, payloadLength := UInt16.ofNat (1 + dataLen) } ++
        ctrlType :: data.read 0 dataLen) := by
  have hh : headerSize = 15 := rfl
  unfold serializeControlMessage
  rw [sizeT_of_lt (show headerSize + 1 + dataLen < 2 ^ 64 by omega), if_neg (by omega),
    if_neg (by omega), toInt_of_lt (by omega)]

/-- The length of a control message. -/
theorem length_controlFrame (h : SlimMsgHeader) (c : ControlType) (bs : List UInt8) :
    (h.encode ++ c :: bs).length = headerSize + 1 + bs.length := by
  rw [List.length_append, h.length_encode, List.length_cons]
  omega

/-- The fields of a control message in a buffer. -/
theorem controlFields_of_write (m : Mem) (h : SlimMsgHeader) (c : ControlType) (bs : List UInt8) :
    m.write 0 (h.encode ++ c :: bs) headerSize = c ∧
      (m.write 0 (h.encode ++ c :: bs)).read (headerSize + 1) bs.length = bs := by
  have hlen := length_controlFrame h c bs
  constructor
  · rw [Mem.write_zero (by omega), List.getElem_append_right (by rw [h.length_encode])]
    simp
  · have hsplit : h.encode ++ c :: bs = (h.encode ++ [c]) ++ bs := by simp
    rw [Mem.read_write_of_le _ (by omega), hsplit, List.drop_left' (by simp), List.take_length]

/-- The first pass over a control message: its header tells that there is no topic. -/
theorem deserializeMessage_controlFrame {h : SlimMsgHeader} (hty : h.msgType = msgControl)
    (c : ControlType) (bs : List UInt8) (m : Mem) (outTopic : Option Mem) (topicBufSize : ℕ)
    (outData : Option Mem) (maxDataLen : ℕ) :
    ∃ decoded, deserializeMessage (m.write 0 (h.encode ++ c :: bs)) (h.encode ++ c :: bs).length
        outTopic topicBufSize outData maxDataLen = .ok decoded ∧
      (decoded.topic.isSome ↔ outTopic.isSome) ∧ ∀ topicMem ∈ decoded.topic, topicMem 0 = 0 := by
  have hn : NoTopic (SlimMsgHeader.decode (m.write 0 (h.encode ++ c :: bs))) := by
    rw [SlimMsgHeader.decode_encode]
    exact Or.inr hty
  refine ⟨_, deserializeMessage_noTopic (by simp) hn, by simp, fun topicMem htopic => ?_⟩
  obtain ⟨t, -, rfl⟩ := Option.map_eq_some_iff.mp htopic
  exact Mem.write_zero Nat.one_pos

/-- The second pass: the data is what its length says. -/
theorem deserializeControlMessage_controlFrame {h : SlimMsgHeader} {bs : List UInt8}
    (hp : h.payloadLength.toNat = 1 + bs.length) (c : ControlType) (m outData : Mem)
    {maxDataLen : ℕ} (hmax : bs.length ≤ maxDataLen) :
    ∃ decoded, deserializeControlMessage (m.write 0 (h.encode ++ c :: bs))
        (h.encode ++ c :: bs).length outData maxDataLen = .ok decoded ∧
      decoded.header = h ∧ decoded.ctrlType = c ∧ decoded.written = bs.length ∧
      decoded.data.read 0 bs.length = bs := by
  have hlt := h.payloadLength.toNat_lt
  obtain ⟨hc, hdata⟩ := controlFields_of_write m h c bs
  have hheader := SlimMsgHeader.decode_encode h m (c :: bs)
  have hlen := length_controlFrame h c bs
  generalize h.encode ++ c :: bs = bytes at *
  have hsub : sizeSub (payloadLen (m.write 0 bytes)) 1 = bs.length := by
    rw [payloadLen, hheader, sizeSub_of_le (by omega) (by omega)]
    omega
  refine ⟨_, deserializeControlMessage_ok ⟨by omega, by rwa [hsub]⟩, hheader, hc, hsub, ?_⟩
  simp only [hsub, hdata]
  exact Mem.read_write outData 0 bs

/-- **A control message passes both decoders**: the first with an empty topic, whatever the sizes of
its buffers, and the second with the control type, the data and the header it was encoded from. -/
theorem deserializeControlMessage_serializeControlMessage (header : SlimMsgHeader)
    (ctrlType : ControlType) (data : Mem) (dataLen bufferLen : ℕ) (hd : 1 + dataLen ≤ 65535)
    (hbuf : headerSize + 1 + dataLen ≤ bufferLen) (m : Mem) :
    ∃ bytes, serializeControlMessage header ctrlType data dataLen bufferLen =
        some (((headerSize + 1 + dataLen : ℕ) : Int), bytes) ∧
      bytes.length = headerSize + 1 + dataLen ∧
      (∀ outTopic topicBufSize outData maxDataLen, ∃ decoded,
        deserializeMessage (m.write 0 bytes) bytes.length outTopic topicBufSize outData maxDataLen =
          .ok decoded ∧ (decoded.topic.isSome ↔ outTopic.isSome) ∧
        ∀ topicMem ∈ decoded.topic, topicMem 0 = 0) ∧
      ∀ outData maxDataLen, dataLen ≤ maxDataLen → ∃ decoded,
        deserializeControlMessage (m.write 0 bytes) bytes.length outData maxDataLen = .ok decoded ∧
        decoded.ctrlType = ctrlType ∧ decoded.written = dataLen ∧
        decoded.data.read 0 dataLen = data.read 0 dataLen ∧
        decoded.header.payloadLength.toNat = 1 + dataLen ∧
        decoded.header = { header with
          msgType := msgControl, payloadLength := UInt16.ofNat (1 + dataLen) } := by
  have hbs : (data.read 0 dataLen).length = dataLen := Mem.length_read data 0 dataLen
  have hpl : (UInt16.ofNat (1 + dataLen)).toNat = 1 + dataLen := by
    rw [UInt16.toNat_ofNat', Nat.mod_eq_of_lt (by omega)]
  refine ⟨_, serializeControlMessage_eq hd hbuf, ?_, ?_, ?_⟩
  · rw [length_controlFrame, hbs]
  · intro outTopic topicBufSize outData maxDataLen
    exact deserializeMessage_controlFrame rfl ..
  · intro outData maxDataLen hmax
    obtain ⟨decoded, hdec, hheader, htype, hwritten, hdata⟩ :=
      deserializeControlMessage_controlFrame (h := { header with
        msgType := msgControl, payloadLength := UInt16.ofNat (1 + dataLen) })
        (show (UInt16.ofNat (1 + dataLen)).toNat = 1 + (data.read 0 dataLen).length by
          rw [hpl, hbs]) ctrlType m outData (show _ ≤ maxDataLen by rwa [hbs])
    rw [hbs] at hwritten hdata
    refine ⟨decoded, hdec, htype, hwritten, hdata, ?_, hheader⟩
    rw [hheader]
    exact hpl

/-- A CONTROL_RELEASE with two bytes of data. -/
theorem deserializeControlMessage_serializeControlMessage_release :
    let header := SlimMsgHeader.mk 1 msgPublish 2 513 67305985 3 4 5 9 6
    ∃ bytes, serializeControlMessage header controlRelease (fun _ => 5) 2 18 = some (18, bytes) ∧
      bytes.length = 18 ∧
      (∀ outTopic topicBufSize outData maxDataLen, ∃ decoded,
        deserializeMessage (Mem.write (fun _ => 9) 0 bytes) bytes.length outTopic topicBufSize
          outData maxDataLen = .ok decoded ∧ (decoded.topic.isSome ↔ outTopic.isSome) ∧
        ∀ topicMem ∈ decoded.topic, topicMem 0 = 0) ∧
      ∀ outData maxDataLen, 2 ≤ maxDataLen → ∃ decoded,
        deserializeControlMessage (Mem.write (fun _ => 9) 0 bytes) bytes.length outData maxDataLen =
          .ok decoded ∧
        decoded.ctrlType = controlRelease ∧ decoded.written = 2 ∧
        decoded.data.read 0 2 = Mem.read (fun _ => 5) 0 2 ∧
        decoded.header.payloadLength.toNat = 3 ∧
        decoded.header = { header with msgType := msgControl, payloadLength := UInt16.ofNat 3 } :=
  deserializeControlMessage_serializeControlMessage _ _ _ 2 18 (by decide) (by decide) _

end SlimMQ
