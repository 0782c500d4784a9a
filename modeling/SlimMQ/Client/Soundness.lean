import SlimMQ.Client.Session

/-!
# Sound sessions

What a session relies on is said by `Facts`: what the broker has done for the messages of this
client. A session whose inbox is true to the facts keeps its own records true to them: the
acknowledgements in its queue, the states in its QoS 2 table, the place of its call and the calls
that have returned. In return it sends only what the facts allow.

## Main definitions

* `Facts`: what the broker has done for each message id
* `Inboxed`, `Sendable`: the datagrams that a session may get, and those that it may send
* `Session.Sound`: the records of a session are true to the facts

## Main results

* `Session.Sound.mono`: a sound session stays sound when the broker does more
* `Session.Sound.step`: a step keeps a session sound, and sends only what it may
-/

namespace SlimMQ

open Buffer

/-! ## What a session relies on -/

/-- What the broker has done for the messages of a client. -/
structure Facts where
  /-- `publish_to_subscribers` has been called for the message. -/
  called : UInt32 → Prop
  /-- The message has a pending entry. -/
  pending : UInt32 → Prop
  /-- Its pending entry is COMPLETED. -/
  completed : UInt32 → Prop

/-- More has been done. -/
structure Facts.Grows (F F' : Facts) : Prop where
  called : ∀ id, F.called id → F'.called id
  pending : ∀ id, F.pending id → F'.pending id
  completed : ∀ id, F.completed id → F'.completed id

/-- A datagram of the broker that is true to the facts: a forwarded message, or a reply to what has
been done. -/
inductive Inboxed (F : Facts) (d : Datagram) : Prop
  | forwarded (h : SlimMsgHeader) (bs : List UInt8) (hd : d = h.encode ++ bs)
      (ht : h.msgType = msgPublish)
  | ack (h : SlimMsgHeader) (bs : List UInt8) (hd : d = h.encode ++ bs) (ht : h.msgType = msgAck)
      (hf : F.called h.msgId)
  | control (h : SlimMsgHeader) (c : ControlType) (bs : List UInt8) (hd : d = h.encode ++ c :: bs)
      (ht : h.msgType = msgControl) (hr : c = controlReceived → F.pending h.msgId)
      (hc : c = controlComplete → F.completed h.msgId)

/-- A datagram that a session may send: a message it has started, a release of a message with a
pending entry, or a subscription. -/
inductive Sendable (F : Facts) (started : List Message) (d : Datagram) : Prop
  | publish (m : Message) (hm : m ∈ started) (hd : d = m.packet)
  | release (h : SlimMsgHeader) (bs : List UInt8) (hd : d = h.encode ++ bs)
      (ht : h.msgType = msgControl) (hf : F.pending h.msgId)
  | subscribe (h : SlimMsgHeader) (bs : List UInt8) (hd : d = h.encode ++ bs)
      (ht : h.msgType = msgSubscribe)

/-! ## Sound sessions -/

/-- The packet of a message is the frame of its header, topic and data. -/
structure Message.WellFormed (m : Message) : Prop where
  type : m.header.msgType = msgPublish
  strlen_le : m.topic.strlen ≤ 255
  payload : m.header.payloadLength.toNat = 1 + m.topic.strlen + m.data.length
  size : headerSize + (1 + m.topic.strlen + m.data.length) ≤ bufferSize
  packet : m.packet = m.header.encode ++ UInt8.ofNat m.topic.strlen :: (m.topic.bytes ++ m.data)

/-- What the shared state of the threads says is true: an acknowledgement in the queue, and the
states in the QoS 2 table. -/
structure ClientState.Sound (F : Facts) (s : ClientState) : Prop where
  wellFormed : s.client.eventQueue.WellFormed
  acks : ∀ e ∈ s.client.eventQueue.toList, e.msgType = msgAck → F.called e.msgId
  received : ∀ id, s.table.Holds id .waitComplete → F.pending id
  completed : ∀ id, s.table.Holds id .completed → F.completed id

/-- The message ids of a session are taken in turn, one for each message. -/
structure Numbered (next : UInt32) (issued : ℕ) (started : List Message) : Prop where
  next_eq : next = UInt32.ofNat (1 + issued)
  taken : ∀ m ∈ started, ∃ n < issued, m.header.msgId = UInt32.ofNat (1 + n)
  unique : ∀ m ∈ started, ∀ m' ∈ started, m.header.msgId = m'.header.msgId → m = m'
  wellFormed : ∀ m ∈ started, m.WellFormed

/-- A call in progress is at a place that its message has got to. -/
structure PublishRun.Sound (F : Facts) (started : List Message) (run : PublishRun) : Prop where
  mem : run.msg ∈ started
  atQos : run.AtQos
  release : run.pc = .sendRelease → F.pending run.msg.header.msgId
  remove : run.pc = .removeCompleted → F.completed run.msg.header.msgId

/-- A call that has returned 0 was answered. -/
structure Returned (F : Facts) (started : List Message) (m : Message) (ret : Int) : Prop where
  mem : m ∈ started
  called : ret = 0 → m.header.qosLevel = qosAtLeastOnce → F.called m.header.msgId
  completed : ret = 0 → m.header.qosLevel = qosExactlyOnce → F.completed m.header.msgId

/-- **The records of a session are true to the facts.** -/
structure Session.Sound (F : Facts) (p : Session) : Prop where
  state : p.state.Sound F
  numbered : Numbered p.state.client.nextMsgId p.issued p.started
  call : ∀ run, p.call = some run → run.Sound F p.started
  returned : ∀ x ∈ p.returned, Returned F p.started x.1 x.2

variable {F F' : Facts} {s : ClientState} {p p' : Session}

theorem Session.sound_init (F : Facts) : Session.init.Sound F where
  state :=
    { wellFormed := wellFormed_eventQueueInit
      acks := fun e he => by cases he
      received := fun id h => absurd h not_holds_qos2TableInit
      completed := fun id h => absurd h not_holds_qos2TableInit }
  numbered := ⟨rfl, by simp [Session.init], by simp [Session.init], by simp [Session.init]⟩
  call := by simp [Session.init]
  returned := by simp [Session.init]

/-- A sound session stays sound when more is done. -/
theorem Session.Sound.mono (h : p.Sound F) (hg : F.Grows F') : p.Sound F' where
  state :=
    { wellFormed := h.state.wellFormed
      acks := fun e he ht => hg.called _ (h.state.acks e he ht)
      received := fun id hid => hg.pending _ (h.state.received id hid)
      completed := fun id hid => hg.completed _ (h.state.completed id hid) }
  numbered := h.numbered
  call := fun run hr =>
    { mem := (h.call run hr).mem
      atQos := (h.call run hr).atQos
      release := fun hpc => hg.pending _ ((h.call run hr).release hpc)
      remove := fun hpc => hg.completed _ ((h.call run hr).remove hpc) }
  returned := fun x hx =>
    { mem := (h.returned x hx).mem
      called := fun h0 hq => hg.called _ ((h.returned x hx).called h0 hq)
      completed := fun h0 hq => hg.completed _ ((h.returned x hx).completed h0 hq) }

theorem Inboxed.mono {d : Datagram} (h : Inboxed F d) (hg : F.Grows F') : Inboxed F' d := by
  cases h with
  | forwarded h bs hd ht => exact .forwarded h bs hd ht
  | ack h bs hd ht hf => exact .ack h bs hd ht (hg.called _ hf)
  | control h c bs hd ht hr hc =>
    exact .control h c bs hd ht (fun he => hg.pending _ (hr he)) fun he => hg.completed _ (hc he)

theorem Sendable.mono {started started' : List Message} {d : Datagram}
    (h : Sendable F started d) (hg : F.Grows F') (hs : started ⊆ started') :
    Sendable F' started' d := by
  cases h with
  | publish m hm hd => exact .publish m (hs hm) hd
  | release h bs hd ht hf => exact .release h bs hd ht (hg.pending _ hf)
  | subscribe h bs hd ht => exact .subscribe h bs hd ht

theorem Facts.Grows.refl (F : Facts) : F.Grows F := ⟨fun _ h => h, fun _ h => h, fun _ h => h⟩

/-! ## The listener -/

/-- A push adds at most its own event. -/
theorem ClientState.Sound.push (h : s.Sound F) {msgType : UInt8} {msgId : UInt32} {topic : CString}
    {data : Mem} {len : ℕ} {mallocOk : Bool} (hf : msgType = msgAck → F.called msgId) :
    (s.push msgType msgId topic data len mallocOk).Sound F := by
  obtain ⟨hwf, hcases⟩ := eventQueuePush_cases h.wellFormed msgType msgId topic data len mallocOk
  refine ⟨hwf, ?_, h.received, h.completed⟩
  intro e he ht
  rcases hcases with ⟨-, -, hl⟩ | ⟨-, -, -, hl⟩ | ⟨-, -, -, hl⟩
  -- nothing has entered the queue
  · exact h.acks e (hl ▸ he) ht
  · exact h.acks e (hl ▸ he) ht
  · rcases List.mem_append.mp (hl ▸ he) with he | he
    · exact h.acks e he ht
    · obtain rfl := List.mem_singleton.mp he
      exact hf ht

theorem ClientState.Sound.set (h : s.Sound F) {id : UInt32} {state : Qos2ClientState} {now : Int}
    (hr : state = .waitComplete → F.pending id) (hc : state = .completed → F.completed id) :
    ClientState.Sound F { s with table := qos2TableSet s.table id state now } := by
  refine ⟨h.wellFormed, h.acks, ?_, ?_⟩
  · intro id' h'
    rcases h'.of_set with h' | ⟨rfl, hs⟩
    · exact h.received id' h'
    · exact hr hs.symm
  · intro id' h'
    rcases h'.of_set with h' | ⟨rfl, hs⟩
    · exact h.completed id' h'
    · exact hc hs.symm

theorem Inboxed.called_of_ack {r : Received} (h : Inboxed F r.datagram)
    (ht : r.header.msgType = msgAck) : F.called r.header.msgId := by
  cases h with
  | forwarded hd bs hdat hty =>
    -- a forwarded message is no acknowledgement
    rw [Received.header_of_append hdat, hty] at ht
    cases ht
  | ack hd bs hdat hty hf => rwa [Received.header_of_append hdat]
  | control hd c bs hdat hty hr hc =>
    rw [Received.header_of_append hdat, hty] at ht
    cases ht

theorem Inboxed.of_control {r : Received} (h : Inboxed F r.datagram)
    (ht : r.header.msgType = msgControl) :
    (r.mem headerSize = controlReceived → F.pending r.header.msgId) ∧
      (r.mem headerSize = controlComplete → F.completed r.header.msgId) := by
  cases h with
  | forwarded hd bs hdat hty =>
    rw [Received.header_of_append hdat, hty] at ht
    cases ht
  | ack hd bs hdat hty hf =>
    rw [Received.header_of_append hdat, hty] at ht
    cases ht
  | control hd c bs hdat hty hr hc =>
    rw [Received.header_of_append hdat, Received.mem_headerSize_of_append hdat]
    exact ⟨hr, hc⟩

/-- **A turn of the listener keeps the shared state sound.** -/
theorem ClientState.Sound.listenerStep (h : s.Sound F) {r : ClientReception}
    (hin : Inboxed F r.datagram) : (listenerStep s r).Sound F := by
  have hheard := listenerStep_heard s r
  generalize SlimMQ.listenerStep s r = s' at hheard ⊢
  cases hheard with
  | ignored => exact h
  | ack hl ht => exact h.push fun _ => hin.called_of_ack ht
  | publish hp => exact h.push fun he => by cases he
  | received hc => exact h.set (fun _ => (hin.of_control hc.2.1).1 hc.2.2) fun he => by cases he
  | complete hc => exact h.set (fun he => by cases he) fun _ => (hin.of_control hc.2.1).2 hc.2.2

theorem nextMsgId_listenerStep (s : ClientState) (r : ClientReception) :
    (SlimMQ.listenerStep s r).client.nextMsgId = s.client.nextMsgId := by
  have hheard := listenerStep_heard s r
  generalize SlimMQ.listenerStep s r = s' at hheard ⊢
  cases hheard <;> rfl

/-! ## The start of a call -/

/-- **What the start of a call does**: a null topic is refused at once, and any other call takes a
message id, and fails in the encoder or gets to its loop with a well-formed message. -/
theorem publishStart_cases {c c' : SlimmqClient} {topic : Option CString} {data : Mem}
    {dataLen : ℕ} {call : PublishRun ⊕ Int}
    (h : publishStart c topic data dataLen = some (c', call)) :
    topic = none ∧ c' = c ∧ call = .inr (-1) ∨
      topic.isSome ∧ c' = c.takeMsgId ∧ (call = .inr (-1) ∨ ∃ run, call = .inl run ∧
        run.pc = .loop ∧ run.msg.header.msgId = c.nextMsgId ∧ run.msg.WellFormed) := by
  unfold publishStart at h
  cases topic with
  | none =>
    obtain ⟨rfl, rfl⟩ := Prod.mk.inj (Option.some.inj h)
    exact Or.inl ⟨rfl, rfl, rfl⟩
  | some t =>
    right
    dsimp only at h
    split at h
    -- the encoder would have left its buffer
    · cases h
    · rename_i len packet hser
      split_ifs at h with hneg
      · obtain ⟨rfl, rfl⟩ := Prod.mk.inj (Option.some.inj h)
        exact ⟨rfl, rfl, Or.inl rfl⟩
      · obtain ⟨rfl, rfl⟩ := Prod.mk.inj (Option.some.inj h)
        obtain ⟨ht, hsize, rfl⟩ := serializeMessage_of_nonneg hser (not_lt.mp hneg)
        refine ⟨rfl, rfl, Or.inr ⟨_, rfl, rfl, rfl, ?_⟩⟩
        -- what fits the packet fits the length field
        have hlen : 1 + t.strlen + dataLen < 2 ^ 16 := by
          simp only [bufferSize, headerSize] at hsize
          omega
        exact
          { type := rfl
            strlen_le := ht
            payload := by
              simp only [clientHeader, UInt16.toNat_ofNat', Mem.length_read]
              exact Nat.mod_eq_of_lt hlen
            size := by simpa using hsize
            packet := rfl }

/-- A call with a topic and data that fit a packet gets to its loop. -/
theorem publishStart_eq {t : CString} {dataLen : ℕ} (ht : t.strlen ≤ 255)
    (hsize : headerSize + (1 + t.strlen + dataLen) ≤ bufferSize) (c : SlimmqClient) (data : Mem) :
    ∃ msg, publishStart c (some t) data dataLen =
        some (c.takeMsgId, .inl { msg := msg, retries := 0, pc := .loop }) ∧
      msg.header.qosLevel = c.qosLevel ∧ msg.topic = t ∧ msg.data = data.read 0 dataLen := by
  have hb : bufferSize = 2048 := rfl
  have hser : serializeMessage (clientHeader msgPublish c.qosLevel c.nextMsgId
      (1 + t.strlen + dataLen)) (some t) data dataLen bufferSize = _ :=
    serializeMessage_eq ht (by omega) hsize
  simp only [publishStart, hser]
  rw [if_neg (by omega)]
  exact ⟨_, rfl, rfl, rfl, rfl⟩

/-- A call in its loop has the arguments of the call, the level of the client, and no attempt behind
it. -/
theorem publishStart_args {c c' : SlimmqClient} {topic : Option CString} {data : Mem} {dataLen : ℕ}
    {run : PublishRun} (h : publishStart c topic data dataLen = some (c', .inl run)) :
    topic = some run.msg.topic ∧ run.msg.data = data.read 0 dataLen ∧
      run.msg.header.qosLevel = c.qosLevel ∧ run.retries = 0 := by
  unfold publishStart at h
  cases topic with
  | none => cases (Prod.mk.inj (Option.some.inj h)).2
  | some t =>
    dsimp only at h
    split at h
    · cases h
    · split_ifs at h with hneg
      · cases (Prod.mk.inj (Option.some.inj h)).2
      · obtain ⟨-, hrun⟩ := Prod.mk.inj (Option.some.inj h)
        obtain rfl := Sum.inl.inj hrun
        exact ⟨rfl, rfl, rfl, rfl⟩

/-- `slimmq_publish` accepts a topic of this length, with this many bytes of data. -/
def Accepted (topicLen dataLen : ℕ) : Prop :=
  topicLen ≤ 255 ∧ headerSize + (1 + topicLen + dataLen) ≤ bufferSize

/-- A call in its loop has a well-formed message of its arguments. -/
theorem publishStart_wellFormed {topic : CString} {data : Mem} {dataLen : ℕ} {c c' : SlimmqClient}
    {run : PublishRun}
    (h : publishStart c (some topic) data dataLen = some (c', .inl run)) :
    run.msg.WellFormed ∧ run.msg.topic = topic ∧ run.msg.data = data.read 0 dataLen := by
  obtain ⟨htopic, hdata, -⟩ := publishStart_args h
  rcases publishStart_cases h with ⟨-, -, hcall⟩ | ⟨-, -, hcall | ⟨run', hcall, -, -, hwf⟩⟩
  · cases hcall
  · cases hcall
  · obtain rfl := Sum.inl.inj hcall
    exact ⟨hwf, (Option.some.inj htopic).symm, hdata⟩

theorem accepted_of_publishStart {topic : CString} {data : Mem} {dataLen : ℕ} {c c' : SlimmqClient}
    {run : PublishRun}
    (h : publishStart c (some topic) data dataLen = some (c', .inl run)) :
    Accepted topic.strlen dataLen := by
  obtain ⟨hwf, htopic, hdata⟩ := publishStart_wellFormed h
  have hsize := hwf.size
  rw [htopic, hdata, Mem.length_read] at hsize
  exact ⟨htopic ▸ hwf.strlen_le, hsize⟩

/-- A call that starts is in its loop exactly when its arguments are accepted. -/
theorem publishStart_inl_iff {topic : CString} {data : Mem} {dataLen : ℕ} {c c' : SlimmqClient}
    {call : PublishRun ⊕ Int} (h : publishStart c (some topic) data dataLen = some (c', call)) :
    (∃ run, call = .inl run) ↔ Accepted topic.strlen dataLen := by
  constructor
  · rintro ⟨run, rfl⟩
    exact accepted_of_publishStart h
  · intro ha
    obtain ⟨msg, hstart, -⟩ := publishStart_eq ha.1 ha.2 c data
    rw [h] at hstart
    exact ⟨_, (Prod.mk.inj (Option.some.inj hstart)).2⟩

/-- **The packet of a message is decoded to the message.** -/
theorem Message.WellFormed.published {m : Message} (h : m.WellFormed) {r : Received}
    (hd : r.datagram = m.packet) :
    r.Publishes ∧ r.header = m.header ∧ r.topicStr = m.topic ∧
      r.payload.read 0 r.payloadLength = m.data := by
  rw [h.packet] at hd
  exact Received.published_of_frame h.type h.strlen_le h.payload h.size hd

theorem ofNat_ne_of_lt {n m : ℕ} (h : n < m) (hm : m < 2 ^ 32) :
    UInt32.ofNat n ≠ UInt32.ofNat m := by
  intro he
  have := congrArg UInt32.toNat he
  rw [UInt32.toNat_ofNat', UInt32.toNat_ofNat', Nat.mod_eq_of_lt (by omega),
    Nat.mod_eq_of_lt hm] at this
  omega

theorem Numbered.next_add_one {next : UInt32} {issued : ℕ} {started : List Message}
    (h : Numbered next issued started) : next + 1 = UInt32.ofNat (1 + (issued + 1)) := by
  rw [h.next_eq, ← Nat.add_assoc, UInt32.ofNat_add (1 + issued) 1]
  rfl

/-- A message id may be taken for nothing. -/
theorem Numbered.skip {next : UInt32} {issued : ℕ} {started : List Message}
    (h : Numbered next issued started) : Numbered (next + 1) (issued + 1) started := by
  refine ⟨h.next_add_one, ?_, h.unique, h.wellFormed⟩
  intro m hm
  obtain ⟨n, hn, hid⟩ := h.taken m hm
  exact ⟨n, by omega, hid⟩

/-- **A new message has an id of its own.** -/
theorem Numbered.cons {next : UInt32} {issued : ℕ} {started : List Message}
    (h : Numbered next issued started) {m : Message} (hid : issued + 1 < 2 ^ 32)
    (hm : m.header.msgId = next) (hwf : m.WellFormed) :
    Numbered (next + 1) (issued + 1) (m :: started) := by
  -- the ids before are smaller, and no id has come round again
  have hold : ∀ m' ∈ started, m'.header.msgId ≠ m.header.msgId := by
    intro m' hm' he
    obtain ⟨n, hn, hid'⟩ := h.taken m' hm'
    rw [hm, h.next_eq, hid'] at he
    exact ofNat_ne_of_lt (by omega) (by omega) he
  refine ⟨h.next_add_one, ?_, ?_, ?_⟩
  · intro m' hm'
    rcases List.mem_cons.mp hm' with rfl | hm'
    · exact ⟨issued, by omega, hm.trans h.next_eq⟩
    · obtain ⟨n, hn, hid'⟩ := h.taken m' hm'
      exact ⟨n, by omega, hid'⟩
  · intro m₁ h₁ m₂ h₂ he
    -- two messages: both the new one, one of each, or both from before
    rcases List.mem_cons.mp h₁ with e₁ | o₁ <;> rcases List.mem_cons.mp h₂ with e₂ | o₂
    · rw [e₁, e₂]
    · rw [e₁] at he
      exact absurd he.symm (hold m₂ o₂)
    · rw [e₂] at he
      exact absurd he (hold m₁ o₁)
    · exact h.unique m₁ o₁ m₂ o₂ he
  · intro m' hm'
    rcases List.mem_cons.mp hm' with rfl | hm'
    · exact hwf
    · exact h.wellFormed m' hm'

/-! ## Steps -/

/-- Soundness of the shared state is about the queue and the table. -/
theorem ClientState.Sound.congr {s' : ClientState} (h : s.Sound F)
    (hq : s'.client.eventQueue = s.client.eventQueue) (ht : s'.table = s.table) : s'.Sound F :=
  ⟨hq ▸ h.wellFormed, hq ▸ h.acks, ht ▸ h.received, ht ▸ h.completed⟩

theorem PublishRun.Sound.subset {run : PublishRun} {started started' : List Message}
    (h : run.Sound F started) (hs : started ⊆ started') : run.Sound F started' :=
  ⟨hs h.mem, h.atQos, h.release, h.remove⟩

theorem Returned.subset {m : Message} {ret : Int} {started started' : List Message}
    (h : Returned F started m ret) (hs : started ⊆ started') : Returned F started' m ret :=
  ⟨hs h.mem, h.called, h.completed⟩

/-- The start of a call keeps a session sound. -/
theorem Session.Sound.afterStart (h : p.Sound F) {topic : Option CString} {data : Mem}
    {dataLen : ℕ} {c : SlimmqClient} {call : PublishRun ⊕ Int}
    (hs : publishStart p.state.client topic data dataLen = some (c, call))
    (hid : (p.afterStart topic c call).issued < 2 ^ 32) : (p.afterStart topic c call).Sound F := by
  rcases publishStart_cases hs with ⟨rfl, rfl, rfl⟩ | ⟨ht, rfl, rfl | ⟨run, rfl, hpc, hm, hwf⟩⟩
  -- no topic: nothing has happened
  · exact ⟨h.state, h.numbered, by simp [Session.afterStart], h.returned⟩
  -- the encoder fails: an id is lost
  · refine ⟨h.state.congr rfl rfl, ?_, by simp [Session.afterStart], h.returned⟩
    simp only [Session.afterStart, if_pos ht]
    exact h.numbered.skip
  · have hsub : p.started ⊆ run.msg :: p.started := List.subset_cons_self _ _
    simp only [Session.afterStart, if_pos ht] at hid ⊢
    refine ⟨h.state.congr rfl rfl, h.numbered.cons hid hm hwf, ?_, fun x hx =>
      (h.returned x hx).subset hsub⟩
    intro run' hrun
    obtain rfl : run = run' := by simpa using hrun
    exact
      { mem := List.mem_cons_self
        atQos := fun q hq => by rw [hpc] at hq; cases hq
        release := fun he => by rw [hpc] at he; cases he
        remove := fun he => by rw [hpc] at he; cases he }

/-- The bytes of a release start with a control header of its message. -/
theorem releaseBytes_eq {header : SlimMsgHeader} {len : Int} {bytes : Datagram}
    (h : releaseBytes header = some (len, bytes)) :
    ∃ hd : SlimMsgHeader, hd.msgType = msgControl ∧ hd.msgId = header.msgId ∧
      bytes = hd.encode ++ [controlRelease] := by
  obtain ⟨-, rfl⟩ := Prod.mk.inj (Option.some.inj h)
  exact ⟨{ header with msgType := msgControl, payloadLength := 1 }, rfl, rfl, rfl⟩

/-- The shared state stays sound when events leave the queue. -/
theorem ClientState.Sound.dequeue (h : s.Sound F) {q : SlimmqEventQueue} (hq : q.WellFormed)
    (hsub : q.toList ⊆ s.client.eventQueue.toList) :
    ClientState.Sound F { s with client := { s.client with eventQueue := q } } :=
  ⟨hq, fun e he => h.acks e (hsub he), h.received, h.completed⟩

/-- An acknowledgement that the call has found is in the queue, and is taken out of it. -/
theorem ClientState.Sound.waitAck (h : s.Sound F) {id : UInt32}
    (hw : (eventQueueWaitAck s.client.eventQueue id).1 = 0) :
    F.called id ∧ ClientState.Sound F { s with client := { s.client with
      eventQueue := (eventQueueWaitAck s.client.eventQueue id).2 } } := by
  rcases eventQueueWaitAck_cases h.wellFormed id with
    ⟨-, he⟩ | ⟨q, l₁, e, l₂, he, hq, hl, ha, -, hl'⟩
  · rw [he] at hw
    cases hw
  · rw [he]
    obtain ⟨hty, hid⟩ : e.msgType = msgAck ∧ e.msgId = id := by simpa [isAck] using ha
    refine ⟨hid ▸ h.acks e (by simp [hl]) hty, h.dequeue hq ?_⟩
    rw [hl, hl']
    exact ((List.sublist_cons_self e l₂).append_left l₁).subset

/-- `slimmq_next_event` takes the first event out of the queue. -/
theorem ClientState.Sound.nextEvent (h : s.Sound F) {topicBufSize : ℕ} {e : SlimmqEvent}
    {s' : ClientState} (hn : slimmqNextEvent s topicBufSize = some (e, s')) :
    s'.Sound F ∧ s'.client.nextMsgId = s.client.nextMsgId := by
  obtain ⟨-, e₀, q, hwf, hl, -, rfl⟩ := slimmqNextEvent_cases h.wellFormed hn
  refine ⟨h.dequeue hwf ?_, rfl⟩
  rw [hl]
  exact List.subset_cons_self _ _

/-- What a call that returns leaves. -/
theorem Session.Sound.ret (h : p.Sound F) {run : PublishRun} (hrun : run.Sound F p.started)
    {s' : ClientState} {sent : List Datagram} {ret : Int} (hs : s'.Sound F)
    (hnext : s'.client.nextMsgId = p.state.client.nextMsgId)
    (hcalled : ret = 0 → run.msg.header.qosLevel = qosAtLeastOnce → F.called run.msg.header.msgId)
    (hcompleted : ret = 0 → run.msg.header.qosLevel = qosExactlyOnce →
      F.completed run.msg.header.msgId) :
    (p.afterStep run ⟨s', sent, .inr ret⟩).Sound F := by
  refine ⟨hs, ?_, by simp [Session.afterStep], ?_⟩
  · rw [show (p.afterStep run ⟨s', sent, .inr ret⟩).state.client.nextMsgId = _ from hnext]
    exact h.numbered
  · intro x hx
    rcases List.mem_append.mp hx with hx | hx
    · obtain rfl : x = (run.msg, ret) := by simpa using hx
      exact ⟨hrun.mem, hcalled, hcompleted⟩
    · exact h.returned x hx

/-- What a call that goes on leaves. -/
theorem Session.Sound.goOn (h : p.Sound F) {run run' : PublishRun} {sent : List Datagram}
    (hrun : run'.Sound F p.started) : (p.afterStep run ⟨p.state, sent, .inl run'⟩).Sound F := by
  refine ⟨h.state, h.numbered, ?_, h.returned⟩
  intro r hr
  obtain rfl : run' = r := by simpa [Session.afterStep] using hr
  exact hrun

/-- **A step of a call keeps a session sound**, and sends the message, or a release of what has a
pending entry. -/
theorem Session.Sound.afterStep (h : p.Sound F) {run : PublishRun} (hc : p.call = some run)
    {res : PublishResult} (ha : Advance p.state run res) :
    (p.afterStep run res).Sound F ∧ ∀ d ∈ res.sent, Sendable F p.started d := by
  have hrun := h.call run hc
  -- the level at which the call is where it is
  have hqos : ∀ {q q' : UInt8}, run.pc.qos = some q → run.msg.header.qosLevel = q' → q = q' :=
    fun hq hq' => (hrun.atQos _ hq).symm.trans hq'
  have hat : ∀ {run'}, res.call = .inl run' → run'.AtQos := fun hr => ha.atQos hrun.atQos hr
  cases ha with
  | wait hs hm hq hrel hrem =>
    refine ⟨h.goOn ⟨hm ▸ hrun.mem, hat rfl,
      fun he => absurd he hrel, fun he => absurd he hrem⟩, fun d hd => ?_⟩
    rcases hs with rfl | rfl
    · cases hd
    · exact .publish run.msg hrun.mem (List.mem_singleton.mp hd)
  | fail =>
    have hne : ¬ (-1 : Int) = 0 := by decide
    exact ⟨h.ret hrun h.state rfl (fun h0 => absurd h0 hne) (fun h0 => absurd h0 hne), by simp⟩
  | sent hq =>
    refine ⟨h.ret hrun h.state rfl (fun _ hq' => ?_) (fun _ hq' => ?_), fun d hd =>
      .publish run.msg hrun.mem (List.mem_singleton.mp hd)⟩
    · rw [hq] at hq'
      cases hq'
    · rw [hq] at hq'
      cases hq'
  -- QoS 1: the acknowledgement is true to the facts
  | acked hpc hw =>
    obtain ⟨hcalled, hs⟩ := h.state.waitAck hw
    refine ⟨h.ret hrun hs rfl (fun _ _ => hcalled) (fun _ hq => ?_), by simp⟩
    have := hqos (by rw [hpc]; rfl) hq
    cases this
  -- QoS 2: so are the states of the table
  | sawReceived hpc hg =>
    have hpend : F.pending run.msg.header.msgId :=
      h.state.received _ (holds_of_qos2TableGetState hg (by decide))
    exact ⟨h.goOn ⟨hrun.mem, hat rfl, fun _ => hpend, nofun⟩, by simp⟩
  -- a release is sent after CONTROL_RECEIVED was seen
  | release hpc hs =>
    refine ⟨h.goOn ⟨hrun.mem, hat rfl, nofun, nofun⟩, fun d hd => ?_⟩
    obtain ⟨len, hb⟩ := hs d hd
    obtain ⟨hdr, hty, hid, rfl⟩ := releaseBytes_eq hb
    exact .release hdr _ rfl hty (hid ▸ hrun.release hpc)
  | sawComplete hpc hg =>
    have hcomp : F.completed run.msg.header.msgId :=
      h.state.completed _ (holds_of_qos2TableGetState hg (by decide))
    exact ⟨h.goOn ⟨hrun.mem, hat rfl, nofun, fun _ => hcomp⟩, by simp⟩
  | done hpc =>
    have hs : ClientState.Sound F
        { p.state with table := qos2TableRemove p.state.table run.msg.header.msgId } :=
      ⟨h.state.wellFormed, h.state.acks, fun id hid => h.state.received id hid.of_remove,
        fun id hid => h.state.completed id hid.of_remove⟩
    refine ⟨h.ret hrun hs rfl (fun _ hq => ?_) (fun _ _ => hrun.remove hpc), by simp⟩
    have := hqos (by rw [hpc]; rfl) hq
    cases this

/-- The bytes of a subscription start with a SUBSCRIBE header. -/
theorem slimmqSubscribe_sendable {c : SlimmqClient} {topic : CString} {sendOk : Bool}
    {started : List Message} :
    ∀ d ∈ (slimmqSubscribe c topic sendOk).2.1, Sendable F started d := by
  intro d hd
  unfold slimmqSubscribe at hd
  dsimp only at hd
  split at hd
  · cases hd
  · rename_i len bytes hser
    split_ifs at hd with hneg
    · cases hd
    · obtain rfl := List.mem_singleton.mp hd
      obtain ⟨-, -, rfl⟩ := serializeMessage_of_nonneg hser (not_lt.mp fun hl => hneg (Or.inl hl))
      exact .subscribe _ _ rfl rfl

/-- **A step of a session** whose inbox is true to the facts keeps it sound, and sends only what it
may. -/
theorem Session.Sound.step (h : p.Sound F) {inbox : List Datagram}
    (hin : ∀ d ∈ inbox, Inboxed F d) {e : SessionEvent} {ds : List Datagram}
    (hs : p.step inbox e = some (p', ds)) (hid : p'.issued < 2 ^ 32) :
    p'.Sound F ∧ ∀ d ∈ ds, Sendable F p'.started d := by
  cases Session.step_stepped hs with
  | receive hr =>
    refine ⟨⟨h.state.listenerStep (hin _ hr), ?_, h.call, h.returned⟩, by simp⟩
    rw [nextMsgId_listenerStep]
    exact h.numbered
  | publish hc hstart => exact ⟨h.afterStart hstart hid, by simp⟩
  | advance hc => exact h.afterStep hc (publishStep_advance ..)
  | subscribe =>
    exact ⟨⟨h.state.congr rfl rfl, h.numbered.skip, h.call, h.returned⟩, slimmqSubscribe_sendable⟩
  | @setQos qosLevel =>
    refine ⟨⟨?_, h.numbered, h.call, h.returned⟩, by simp⟩
    -- the table is emptied at QoS 2 and left alone otherwise
    by_cases hq : qosLevel = qosExactlyOnce
    · refine ⟨h.state.wellFormed, h.state.acks, fun id hid => ?_, fun id hid => ?_⟩ <;>
        simp only [slimmqSetQos, if_pos hq] at hid <;> exact absurd hid not_holds_qos2TableInit
    · exact h.state.congr rfl (by simp only [slimmqSetQos, if_neg hq])
  | setRetryPolicy =>
    exact ⟨⟨h.state.congr rfl rfl, h.numbered, h.call, h.returned⟩, by simp⟩
  | nextEvent hnext =>
    obtain ⟨hstate, hid'⟩ := h.state.nextEvent hnext
    refine ⟨⟨hstate, ?_, h.call, h.returned⟩, by simp⟩
    rw [hid']
    exact h.numbered

/-- A step takes back no message id, no message and no returned call. -/
theorem Session.step_grows {inbox : List Datagram} {e : SessionEvent} {ds : List Datagram}
    (hs : p.step inbox e = some (p', ds)) :
    p.issued ≤ p'.issued ∧ p'.issued ≤ p.issued + 1 ∧ p.started ⊆ p'.started ∧
      p.returned ⊆ p'.returned := by
  cases Session.step_stepped hs with
  | publish hc hstart =>
    refine ⟨Nat.le_add_right _ _, ?_, List.subset_append_right _ _, fun _ h => h⟩
    simp only [Session.afterStart]
    split_ifs <;> omega
  | advance hc => exact ⟨le_rfl, Nat.le_succ _, fun _ h => h, List.subset_append_right _ _⟩
  | _ => simp

end SlimMQ
