import SlimMQ.Client.Acknowledgements

/-!
# What the application is handed

A message goes from the publisher's arguments to those of the application through four buffers: the
topic field of the packet has one byte for its length, the topic buffer of the listener 256 bytes,
the slot of the event queue `MAX_TOPIC_LEN` bytes, and the caller's buffer as many as it says. In
the queue the event may move from slot to slot, when events before it are taken or an
acknowledgement is removed. Nothing of it is lost on the way but the end of a topic that is longer
than the slot.

## Main definitions

* `Session.place`, `Session.placeAfter`: where the event at a place of the queue stands after a
  step, and after a sequence of steps
* `FaithfulDelivery`: a message is handed to the application as it was published

## Main results

* `Session.getElem?_place`, `Session.getElem?_placeAfter`: an event is found at its place
* `faithfulDelivery_iff`: the messages that are handed over as they were published
-/

namespace SlimMQ

open Buffer EventLoop

/-! ## The place of an event -/

namespace Session

/-- The place of the acknowledgement that the next step of the call takes out of the queue. -/
def ackPlace (p : Session) : Option ℕ :=
  p.call.bind fun run =>
    match run.pc with
    | .pollAck i =>
      if i < p.state.polls then
        (List.range p.state.client.eventQueue.count).find? fun j =>
          isAck run.msg.header.msgId (p.state.client.eventQueue.get j)
      else none
    | _ => none

/-- Where the event at the place `i` of the queue stands after a step; nowhere when it has left. -/
def place (p : Session) (i : ℕ) : SessionEvent → Option ℕ
  | .nextEvent _ => RingBuffer.placeAfterRemoval 0 i
  | .advance _ => p.ackPlace.elim (some i) (RingBuffer.placeAfterRemoval · i)
  | _ => some i

/-- Where it stands after a sequence of steps. -/
def placeAfter (p : Session) (i : ℕ) : List SessionEvent → Option ℕ
  | [] => some i
  | x :: xs => (p.next x).bind fun p' => (p.place i x).bind fun j => p'.placeAfter j xs

variable {p p' : Session} {run : PublishRun}

/-- A step of the call takes out the event at that place, and no other. -/
theorem queue_afterStep (h : p.state.client.eventQueue.WellFormed) (hc : p.call = some run)
    (ok : Bool) :
    (p.afterStep run (publishStep p.state run ok)).queue =
      p.ackPlace.elim p.queue p.queue.eraseIdx := by
  cases hpc : run.pc with
  | pollAck i =>
    by_cases hi : i < p.state.polls
    · simp only [ackPlace, hc, Option.bind_some, hpc, if_pos hi]
      cases hf : (List.range p.state.client.eventQueue.count).find? fun j =>
          isAck run.msg.header.msgId (p.state.client.eventQueue.get j) with
      | none =>
        have hwait : eventQueueWaitAck p.state.client.eventQueue run.msg.header.msgId =
            (-1, p.state.client.eventQueue) := by rw [eventQueueWaitAck, hf]
        simp [queue, afterStep, publishStep, hpc, hi, hwait]
      | some j =>
        have hwait : eventQueueWaitAck p.state.client.eventQueue run.msg.header.msgId =
            (0, p.state.client.eventQueue.removeAt j) := by rw [eventQueueWaitAck, hf]
        have hj : j < p.state.client.eventQueue.count :=
          List.mem_range.mp (List.find?_range_eq_some.mp hf).2.1
        simp only [queue, afterStep, publishStep, hpc, if_pos hi, hwait, if_true, Option.elim_some]
        exact RingBuffer.toList_removeAt h hj
    · simp only [ackPlace, hc, Option.bind_some, hpc, if_neg hi, Option.elim_none, queue, afterStep,
        publishStep]
  | _ =>
    -- elsewhere the call does not wait in the queue
    rcases publishStep_eventQueue p.state run ok with hq | ⟨i, hi, -⟩
    · simp only [ackPlace, hc, Option.bind_some, hpc, Option.elim_none, queue, afterStep, hq]
    · rw [hpc] at hi
      cases hi

/-- The application takes the event at the first place. -/
theorem queue_nextEvent {n : ℕ} (h : p.state.client.eventQueue.WellFormed)
    (hs : p.next (.nextEvent n) = some p') : p'.queue = p.queue.eraseIdx 0 := by
  obtain ⟨ds, hstep⟩ := Session.next_stepped hs
  cases hstep with
  | nextEvent hnext =>
    obtain ⟨-, e₀, q, -, hl, -, rfl⟩ := slimmqNextEvent_cases h hnext
    simp only [queue, hl, List.eraseIdx_cons_zero]

/-- **An event is found at its place after a step.** -/
theorem getElem?_place {x : SessionEvent} {i j : ℕ} {e : SlimmqEvent}
    (h : p.state.client.eventQueue.WellFormed) (hs : p.next x = some p') (he : p.queue[i]? = some e)
    (hj : p.place i x = some j) : p'.queue[j]? = some e := by
  cases x with
  | nextEvent n =>
    rw [queue_nextEvent h hs, RingBuffer.getElem?_of_placeAfterRemoval hj, he]
  | advance ok =>
    obtain ⟨ds, hstep⟩ := Session.next_stepped hs
    cases hstep with
    | advance hc =>
      rw [queue_afterStep h hc]
      simp only [place] at hj
      cases hp : p.ackPlace with
      | none =>
        rw [hp] at hj
        obtain rfl := Option.some.inj hj
        exact he
      | some k =>
        rw [hp] at hj
        exact (RingBuffer.getElem?_of_placeAfterRemoval hj).trans he
  | _ =>
    -- other steps leave the queue or append to it
    obtain rfl := Option.some.inj hj
    have hpre : p.queue <+: p'.queue := by
      obtain ⟨-, hchange⟩ := next_queue h hs
      generalize p'.queue = l at hchange ⊢
      cases hchange <;> first | exact List.prefix_refl _ | exact List.prefix_append _ _
    obtain ⟨l, hl⟩ := hpre
    have hlt := (List.getElem?_eq_some_iff.mp he).1
    rw [← hl, List.getElem?_append_left hlt, he]

/-- **An event is found at its place after a sequence of steps.** -/
theorem getElem?_placeAfter {xs : List SessionEvent} {i j : ℕ} {e : SlimmqEvent}
    (h : p.state.client.eventQueue.WellFormed) (hs : execute Session.next p xs = some p')
    (he : p.queue[i]? = some e) (hj : p.placeAfter i xs = some j) :
    p'.state.client.eventQueue.WellFormed ∧ p'.queue[j]? = some e := by
  induction xs generalizing p i with
  | nil =>
    obtain rfl := Option.some.inj hs
    obtain rfl := Option.some.inj hj
    exact ⟨h, he⟩
  | cons x xs ih =>
    obtain ⟨p₁, hp₁, hs₁⟩ := Option.bind_eq_some_iff.mp hs
    simp only [placeAfter, hp₁, Option.bind_some] at hj
    obtain ⟨k, hk, hj₁⟩ := Option.bind_eq_some_iff.mp hj
    apply ih (next_queue h hp₁).1 hs₁ _ hj₁
    exact getElem?_place h hp₁ he hk

/-- **The event of a PUBLISH leaves the queue only when the application takes it.** -/
theorem eq_nextEvent_of_place {x : SessionEvent} {i : ℕ} {e : SlimmqEvent}
    (he : p.queue[i]? = some e) (hne : e.msgType ≠ msgAck) (hp : p.place i x = none) :
    i = 0 ∧ ∃ n, x = .nextEvent n := by
  cases x with
  | nextEvent n => exact ⟨RingBuffer.placeAfterRemoval_eq_none_iff.mp hp, n, rfl⟩
  | advance ok =>
    simp only [place] at hp
    cases hk : p.ackPlace with
    | none =>
      rw [hk] at hp
      cases hp
    | some k =>
      rw [hk] at hp
      obtain rfl := RingBuffer.placeAfterRemoval_eq_none_iff.mp hp
      -- what a call takes out is an acknowledgement
      simp only [ackPlace, Option.bind_eq_some_iff] at hk
      obtain ⟨run, -, hk⟩ := hk
      split at hk
      · split_ifs at hk
        obtain ⟨hack, hi, -⟩ := List.find?_range_eq_some.mp hk
        obtain ⟨hlt, hget⟩ := List.getElem?_eq_some_iff.mp he
        have hget' : p.state.client.eventQueue.get i = e :=
          (RingBuffer.getElem_toList _ i hlt).symm.trans hget
        rw [hget', isAck, decide_eq_true_eq] at hack
        exact absurd hack.1 hne
      · cases hk
  | _ => cases hp

end Session

/-! ## From the publisher to the application -/

/-- The listener of a reachable session gets the packet of a message with these arguments. -/
structure PacketArrives (topic : CString) (data : Mem) (dataLen : ℕ) (p : Session)
    (r : ClientReception) (p' : Session) : Prop where
  reachable : ∃ xs, execute Session.next Session.init xs = some p
  packet : ∃ c c' run, publishStart c (some topic) data dataLen = some (c', .inl run) ∧
    r.datagram = run.msg.packet
  next : p.next (.receive r) = some p'

/-- **A message is handed to the application as it was published.** Its event is queued when the
queue has room, unless the allocation for its data fails; it leaves the queue only when the
application takes it; and the application then gets its topic, if the caller's buffer has room for
it, and its data. -/
structure FaithfulDelivery (topic : CString) (data : Mem) (dataLen : ℕ) : Prop where
  queued : ∀ p r p', PacketArrives topic data dataLen p r p' →
    p.queue.length < maxEventQueueSize → (0 < dataLen → r.mallocOk = true) →
    p'.queue.length = p.queue.length + 1
  kept : ∀ p r p', PacketArrives topic data dataLen p r p' →
    p'.queue.length = p.queue.length + 1 →
    ∀ ys p₁ i y, execute Session.next p' ys = some p₁ →
      p'.placeAfter p.queue.length ys = some i → p₁.place i y = none →
      i = 0 ∧ ∃ n, y = .nextEvent n
  handed : ∀ p r p', PacketArrives topic data dataLen p r p' →
    p'.queue.length = p.queue.length + 1 →
    ∀ ys p₁ n e s', execute Session.next p' ys = some p₁ →
      p'.placeAfter p.queue.length ys = some 0 → topic.strlen < n →
      slimmqNextEvent p₁.state n = some (e, s') → e.topic = topic ∧ e.data = data.read 0 dataLen

variable {topic : CString} {data : Mem} {dataLen : ℕ} {p p' : Session} {r : ClientReception}

/-- The event that the listener queues for a message with these arguments. -/
def deliveredEvent (msgId : UInt32) (topic : CString) (data : Mem) (dataLen : ℕ) : SlimmqEvent :=
  ⟨msgPublish, msgId, topic.take (maxTopicLen - 1), data.read 0 dataLen⟩

/-- **What the listener does with the packet of a message**: its event is appended to the queue, or
else the queue is full or the allocation has failed. -/
theorem PacketArrives.queue (h : PacketArrives topic data dataLen p r p') :
    p'.state.client.eventQueue.WellFormed ∧
      ((∃ msgId, p'.queue = p.queue ++ [deliveredEvent msgId topic data dataLen]) ∨
        p'.queue = p.queue ∧ ¬ (p.queue.length < maxEventQueueSize ∧
          (0 < dataLen → r.mallocOk = true))) := by
  obtain ⟨⟨xs, hxs⟩, ⟨c, c', run, hstart, hd⟩, hnext⟩ := h
  obtain ⟨hq, -⟩ := stemsFrom_of_execute hxs
  refine ⟨(Session.next_queue hq hnext).1, ?_⟩
  obtain ⟨hwf, htopic, hdata⟩ := publishStart_wellFormed hstart
  obtain ⟨hpub, -, ht, hpay⟩ := hwf.published hd
  obtain ⟨ds, hstep⟩ := Session.next_stepped hnext
  cases hstep with
  | receive hr =>
    -- the event that a push would store
    have hlen : r.payloadLength = dataLen := by
      have := congrArg List.length (hpay.trans hdata)
      simpa using this
    have hevent : pushedEvent msgPublish r.header.msgId r.topicStr r.payload r.payloadLength =
        deliveredEvent r.header.msgId topic data dataLen := by
      rw [pushedEvent, deliveredEvent, hpay, hdata, ht, htopic]
    obtain ⟨-, hcases⟩ := eventQueuePush_cases hq msgPublish r.header.msgId r.topicStr r.payload
      r.payloadLength r.mallocOk
    simp only [Session.queue, listenerStep_of_publishes hpub, ClientState.push,
      RingBuffer.length_toList]
    rcases hcases with ⟨hfull, -, hl⟩ | ⟨-, hm, -, hl⟩ | ⟨-, -, -, hl⟩
    · exact Or.inr ⟨hl, fun hroom => absurd hroom.1 (Nat.not_lt.mpr hfull)⟩
    · refine Or.inr ⟨hl, fun hroom => ?_⟩
      rw [hlen] at hm
      rw [hroom.2 hm.1] at hm
      exact Bool.noConfusion hm.2
    · rw [hl, hevent]
      exact Or.inl ⟨_, rfl⟩

/-- An event that has been queued is at the end of the queue. -/
theorem PacketArrives.getElem? (h : PacketArrives topic data dataLen p r p')
    (hlen : p'.queue.length = p.queue.length + 1) :
    ∃ msgId, p'.queue[p.queue.length]? = some (deliveredEvent msgId topic data dataLen) := by
  obtain ⟨-, ⟨msgId, hq⟩ | ⟨hq, -⟩⟩ := h.queue
  · exact ⟨msgId, by rw [hq, List.getElem?_concat_length]⟩
  · rw [hq] at hlen
    omega

/-- What the application gets for the event of a message. -/
theorem PacketArrives.handed (h : PacketArrives topic data dataLen p r p')
    (hlen : p'.queue.length = p.queue.length + 1) {ys : List SessionEvent} {p₁ : Session} {n : ℕ}
    {e : SlimmqEvent} {s' : ClientState} (hys : execute Session.next p' ys = some p₁)
    (hplace : p'.placeAfter p.queue.length ys = some 0)
    (hnext : slimmqNextEvent p₁.state n = some (e, s')) :
    e.topic = (topic.take (maxTopicLen - 1)).take (n - 1) ∧ e.data = data.read 0 dataLen := by
  obtain ⟨msgId, he⟩ := h.getElem? hlen
  obtain ⟨hwf, hfirst⟩ := Session.getElem?_placeAfter h.queue.1 hys he hplace
  obtain ⟨-, e₀, q, -, hl, rfl, -⟩ := slimmqNextEvent_cases hwf hnext
  rw [Session.queue, hl] at hfirst
  obtain rfl := Option.some.inj hfirst
  exact ⟨rfl, rfl⟩

/-- A string is cut when it is longer than the array. -/
theorem take_eq_self_iff (n : ℕ) : topic.take n = topic ↔ topic.strlen ≤ n := by
  rw [CString.ext_iff, CString.take, CString.strlen, List.take_eq_self_iff]

theorem PacketArrives.accepted (h : PacketArrives topic data dataLen p r p') :
    Accepted topic.strlen dataLen := by
  obtain ⟨c, c', run, hstart, -⟩ := h.packet
  exact accepted_of_publishStart hstart

/-- A message whose topic fits the slot of the queue is handed over as it was published. -/
theorem faithfulDelivery_of_lt (h : Accepted topic.strlen dataLen → topic.strlen < maxTopicLen) :
    FaithfulDelivery topic data dataLen where
  queued p r p' harr hroom hmalloc := by
    obtain ⟨-, ⟨msgId, hq⟩ | ⟨-, hno⟩⟩ := harr.queue
    · rw [hq, List.length_append, List.length_singleton]
    · exact absurd ⟨hroom, hmalloc⟩ hno
  kept p r p' harr hlen ys p₁ i y hys hplace hnone := by
    obtain ⟨msgId, he⟩ := harr.getElem? hlen
    obtain ⟨-, hi⟩ := Session.getElem?_placeAfter harr.queue.1 hys he hplace
    apply Session.eq_nextEvent_of_place hi _ hnone
    exact fun hack => by cases hack
  handed p r p' harr hlen ys p₁ n e s' hys hplace hn hnext := by
    obtain ⟨htopic, hdata⟩ := harr.handed hlen hys hplace hnext
    have hlt := h harr.accepted
    -- neither the slot nor the caller's buffer cuts the topic
    have hslot : topic.take (maxTopicLen - 1) = topic := (take_eq_self_iff _).mpr (by omega)
    have hbuf : topic.take (n - 1) = topic := (take_eq_self_iff _).mpr (by omega)
    rw [hslot, hbuf] at htopic
    exact ⟨htopic, hdata⟩

/-- The listener of a new session gets the packet of an accepted message. -/
theorem exists_packetArrives (data : Mem) (h : Accepted topic.strlen dataLen) :
    ∃ r p', PacketArrives topic data dataLen Session.init r p' ∧ r.mallocOk = true := by
  obtain ⟨msg, hstart, -⟩ := publishStart_eq h.1 h.2 slimmqConnect data
  exact ⟨⟨cleanReceived msg.packet, 0, true⟩, _,
    ⟨⟨[], rfl⟩, ⟨_, _, _, hstart, rfl⟩, Session.next_receive _ _⟩, rfl⟩

/-- The end of a longer topic is lost: it is the first event of a new session. -/
theorem not_faithfulDelivery (data : Mem) (h : Accepted topic.strlen dataLen)
    (hle : maxTopicLen ≤ topic.strlen) : ¬ FaithfulDelivery topic data dataLen := by
  intro hf
  obtain ⟨r, p', harr, hmalloc⟩ := exists_packetArrives data h
  have hlen := hf.queued _ r p' harr (by decide) fun _ => hmalloc
  -- a buffer with room for the whole topic
  have hne : p'.state.client.eventQueue.toList ≠ [] := fun hnil => by
    rw [Session.queue, hnil] at hlen
    cases hlen
  obtain ⟨⟨e, s'⟩, hnext⟩ := Option.isSome_iff_exists.mp
    (slimmqNextEvent_isSome harr.queue.1 (Nat.succ_pos topic.strlen) hne)
  have hnone : execute Session.next p' [] = some p' := rfl
  obtain ⟨htopic, -⟩ := hf.handed _ r p' harr hlen [] p' _ e s' hnone rfl (Nat.lt_succ_self _) hnext
  obtain ⟨hcut, -⟩ := harr.handed hlen hnone rfl hnext
  have hstr : topic.strlen ≤ maxTopicLen - 1 := by
    rw [← htopic, hcut, CString.take, CString.take, CString.strlen]
    exact (List.length_take_le' _ _).trans (List.length_take_le _ _)
  exact absurd (hle.trans hstr) (by decide)

/-- **The messages that are handed over as they were published** are those whose topic is shorter
than the slot of the queue, among the messages that `slimmq_publish` accepts. -/
theorem faithfulDelivery_iff (topic : CString) (data : Mem) (dataLen : ℕ) :
    FaithfulDelivery topic data dataLen ↔
      (Accepted topic.strlen dataLen → topic.strlen < maxTopicLen) := by
  constructor
  · intro hf ha
    by_contra hle
    exact not_faithfulDelivery data ha (not_lt.mp hle) hf
  · exact faithfulDelivery_of_lt

/-- A topic of 128 bytes. -/
def longTopic : CString := ⟨List.replicate 128 97, by simp⟩

/-- Its last byte is lost. -/
theorem longTopic_not_faithful :
    Accepted longTopic.strlen 1 ∧ ¬ FaithfulDelivery longTopic (fun _ => 9) 1 := by
  have hlen : longTopic.strlen = 128 := List.length_replicate
  have ha : Accepted longTopic.strlen 1 := by
    rw [hlen]
    exact ⟨by decide, by decide⟩
  exact ⟨ha, not_faithfulDelivery _ ha hlen.ge⟩

end SlimMQ
