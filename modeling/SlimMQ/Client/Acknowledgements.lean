import SlimMQ.Client.Soundness
import SlimMQ.Library.EventLoop

/-!
# Acknowledgements in the event queue

The listener puts acknowledgements into the queue from which the application takes its events. A
publishing call takes out one acknowledgement of its own message id, from wherever it stands; the
application takes whatever comes first. So an acknowledgement at the head of the queue is handed to
the application, and the copies that a retry or a duplicated datagram leaves behind stay in the
queue until it is full.

## Main definitions

* `Session.next`: a step of a session on its own, which may be handed any datagram
* `QueueChange`: what a step does to the queue
* `AcksApart`: the application gets only messages, and an acknowledgement only goes to its call
* `AcksAccepted`: an awaited acknowledgement enters the queue and is found there

## Main results

* `Session.next_stepped`: what a step of a session on its own is, event by event
* `Session.next_queue`: what every step of a session does to its queue
* `acksApart_iff`: the two stay apart exactly when no acknowledgement is at the head of the queue
  when an event is taken
* `acksAccepted_iff`: the awaited acknowledgements arrive exactly when the queue has room for them
-/

namespace SlimMQ

open Buffer EventLoop

/-! ## A session and its queue -/

/-- The datagram that an event hands to the listener. -/
def SessionEvent.offered : SessionEvent → List Datagram
  | .receive r => [r.datagram]
  | _ => []

namespace Session

/-- A step of a session whose listener may be handed any datagram. -/
def next (p : Session) (e : SessionEvent) : Option Session := (p.step e.offered e).map Prod.fst

/-- The events in the queue. -/
def queue (p : Session) : List SlimmqEvent := p.state.client.eventQueue.toList

/-- **What such a step is**, event by event. -/
theorem next_stepped {p p' : Session} {x : SessionEvent} (hs : p.next x = some p') :
    ∃ ds, Stepped x.offered p x p' ds := by
  obtain ⟨⟨p₁, ds⟩, hstep, rfl⟩ := Option.map_eq_some_iff.mp hs
  exact ⟨ds, step_stepped hstep⟩

theorem next_receive (p : Session) (r : ClientReception) :
    p.next (.receive r) = some { p with state := listenerStep p.state r } := by
  simp [next, step, SessionEvent.offered]

theorem next_advance {p : Session} {run : PublishRun} (hc : p.call = some run) (ok : Bool) :
    p.next (.advance ok) = some (p.afterStep run (publishStep p.state run ok)) := by
  simp [next, step, hc]

end Session

namespace ClientReception

/-- The datagram is an acknowledgement. -/
def Acks (r : ClientReception) : Prop := headerSize ≤ r.len ∧ r.header.msgType = msgAck

instance (r : ClientReception) : Decidable r.Acks := inferInstanceAs (Decidable (_ ∧ _))

/-- The event of an acknowledgement. -/
def ackEvent (r : ClientReception) : SlimmqEvent :=
  pushedEvent msgAck r.header.msgId CString.empty (fun _ => 0) 0

/-- The event of a PUBLISH. -/
def publishEvent (r : ClientReception) : SlimmqEvent :=
  pushedEvent msgPublish r.header.msgId r.topicStr r.payload r.payloadLength

end ClientReception

/-- **What a step does to the queue**: nothing, or an event enters at its end, or the publishing
call takes out an acknowledgement of its message, or the application takes the first event. -/
inductive QueueChange (p : Session) : SessionEvent → List SlimmqEvent → Prop
  | same (x : SessionEvent) : QueueChange p x p.queue
  | acked (r : ClientReception) (h : r.Acks) : QueueChange p (.receive r) (p.queue ++ [r.ackEvent])
  | published (r : ClientReception) (h : r.Publishes) :
      QueueChange p (.receive r) (p.queue ++ [r.publishEvent])
  | waited (ok : Bool) {run : PublishRun} {i : Int} {l₁ l₂ : List SlimmqEvent} {e : SlimmqEvent}
      (hc : p.call = some run) (hpc : run.pc = .pollAck i)
      (hi : i < p.state.polls) (hl : p.queue = l₁ ++ e :: l₂)
      (he : isAck run.msg.header.msgId e) : QueueChange p (.advance ok) (l₁ ++ l₂)
  | taken (n : ℕ) {e : SlimmqEvent} {l : List SlimmqEvent} (hn : 0 < n) (hl : p.queue = e :: l) :
      QueueChange p (.nextEvent n) l

variable {p p' : Session} {x : SessionEvent}

/-- A push appends its event, or leaves the queue as it is. -/
theorem toList_push {s : ClientState} (h : s.client.eventQueue.WellFormed) (msgType : UInt8)
    (msgId : UInt32) (topic : CString) (data : Mem) (len : ℕ) (mallocOk : Bool) :
    let s' := s.push msgType msgId topic data len mallocOk
    s'.client.eventQueue.WellFormed ∧
      (s'.client.eventQueue.toList = s.client.eventQueue.toList ∨
        s'.client.eventQueue.toList =
          s.client.eventQueue.toList ++ [pushedEvent msgType msgId topic data len]) := by
  obtain ⟨hwf, hcases⟩ := eventQueuePush_cases h msgType msgId topic data len mallocOk
  refine ⟨hwf, ?_⟩
  rcases hcases with ⟨-, -, hl⟩ | ⟨-, -, -, hl⟩ | ⟨-, -, -, hl⟩
  · exact Or.inl hl
  · exact Or.inl hl
  · exact Or.inr hl

/-- A step of a publishing call touches the queue only when a wait of it succeeds. -/
theorem publishStep_eventQueue (s : ClientState) (run : PublishRun) (ok : Bool) :
    (publishStep s run ok).state.client.eventQueue = s.client.eventQueue ∨
      ∃ i, run.pc = .pollAck i ∧ i < s.polls ∧
        (eventQueueWaitAck s.client.eventQueue run.msg.header.msgId).1 = 0 ∧
        (publishStep s run ok).state.client.eventQueue =
          (eventQueueWaitAck s.client.eventQueue run.msg.header.msgId).2 := by
  unfold publishStep
  cases hpc : run.pc with
  | pollAck i =>
    dsimp only
    split_ifs with h₁ h₂
    · exact Or.inr ⟨i, rfl, h₁, h₂, rfl⟩
    · exact Or.inl (eventQueueWaitAck_of_ne h₂)
    · exact Or.inl rfl
  | loop =>
    dsimp only
    split_ifs <;> exact Or.inl rfl
  | pollReceived i =>
    dsimp only
    split_ifs <;> exact Or.inl rfl
  | checkReceived =>
    dsimp only
    split_ifs <;> exact Or.inl rfl
  | sendRelease =>
    dsimp only
    split <;> exact Or.inl rfl
  | pollComplete i =>
    dsimp only
    split_ifs <;> exact Or.inl rfl
  | removeCompleted => exact Or.inl rfl

/-- **What every step of a session does to its queue.** -/
theorem Session.next_queue (h : p.state.client.eventQueue.WellFormed) (hs : p.next x = some p') :
    p'.state.client.eventQueue.WellFormed ∧ QueueChange p x p'.queue := by
  obtain ⟨ds, hstep⟩ := Session.next_stepped hs
  cases hstep with
  | @receive r hr =>
    have hheard := listenerStep_heard p.state r
    simp only [Session.queue]
    generalize SlimMQ.listenerStep p.state r = s' at hheard ⊢
    cases hheard with
    | ignored => exact ⟨h, .same _⟩
    | ack hl ht =>
      obtain ⟨hwf, hq | hq⟩ := toList_push h msgAck r.header.msgId CString.empty (fun _ => 0) 0
        r.mallocOk
      · exact ⟨hwf, by rw [hq]; exact .same _⟩
      · exact ⟨hwf, by rw [hq]; exact .acked r ⟨hl, ht⟩⟩
    | publish hp =>
      obtain ⟨hwf, hq | hq⟩ := toList_push h msgPublish r.header.msgId r.topicStr r.payload
        r.payloadLength r.mallocOk
      · exact ⟨hwf, by rw [hq]; exact .same _⟩
      · exact ⟨hwf, by rw [hq]; exact .published r hp⟩
    | received hc => exact ⟨h, .same _⟩
    | complete hc => exact ⟨h, .same _⟩
  | @publish topic data dataLen c call hc hstart =>
    have hq : c.eventQueue = p.state.client.eventQueue := by
      rcases publishStart_cases hstart with ⟨-, rfl, -⟩ | ⟨-, rfl, -⟩ <;> rfl
    simp only [Session.queue, Session.afterStart, hq]
    exact ⟨h, .same _⟩
  | @advance ok run hc =>
    simp only [Session.queue, Session.afterStep]
    rcases publishStep_eventQueue p.state run ok with hq | ⟨i, hpc, hi, hw, hq⟩
    · rw [hq]
      exact ⟨h, .same _⟩
    · rw [hq]
      rcases eventQueueWaitAck_cases h run.msg.header.msgId with
        ⟨-, he⟩ | ⟨q, l₁, e, l₂, he, hwf, hl, hack, -, hl'⟩
      · rw [he] at hw
        cases hw
      · rw [he]
        refine ⟨hwf, ?_⟩
        rw [hl']
        exact .waited ok hc hpc hi hl hack
  | @nextEvent n ev s' hnext =>
    obtain ⟨hn, e₀, q, hwf, hl, -, rfl⟩ := slimmqNextEvent_cases h hnext
    exact ⟨hwf, .taken n hn hl⟩
  -- the other calls leave the queue alone
  | _ => exact ⟨h, .same _⟩

/-! ## What the application gets -/

/-- **Acknowledgements stay apart from the application's events**: an event that the application
takes is that of a PUBLISH received before, and an acknowledgement leaves the queue only by a wait
of the call whose message it acknowledges. -/
structure AcksApart (es : List SessionEvent) : Prop where
  returned : ∀ xs n p e s', xs ++ [.nextEvent n] <+: es →
    execute Session.next Session.init xs = some p → slimmqNextEvent p.state n = some (e, s') →
    ∃ r : ClientReception, .receive r ∈ xs ∧ r.Publishes ∧
      e = { r.publishEvent with topic := r.publishEvent.topic.take (n - 1) }
  consumed : ∀ xs x p p', xs ++ [x] <+: es → execute Session.next Session.init xs = some p →
    p.next x = some p' → ∀ id, p'.queue.countP (isAck id) < p.queue.countP (isAck id) →
    ∃ ok run i, x = .advance ok ∧ p.call = some run ∧ run.pc = .pollAck i ∧
      run.msg.header.msgId = id

/-- When the application takes an event, the first one is no acknowledgement. -/
def EventFirst (p : Session) (x : SessionEvent) : Prop :=
  ∀ n, x = .nextEvent n → 0 < n → ∀ e ∈ p.queue.head?, e.msgType ≠ msgAck

/-- The event comes from a datagram that the listener got. -/
def StemsFrom (xs : List SessionEvent) (e : SlimmqEvent) : Prop :=
  ∃ r : ClientReception, .receive r ∈ xs ∧
    (r.Acks ∧ e = r.ackEvent ∨ r.Publishes ∧ e = r.publishEvent)

theorem StemsFrom.mono {xs ys : List SessionEvent} {e : SlimmqEvent} (h : StemsFrom xs e)
    (hs : xs ⊆ ys) : StemsFrom ys e := by
  obtain ⟨r, hr, he⟩ := h
  exact ⟨r, hs hr, he⟩

/-- In every reachable state, the queue is well formed, and its events come from datagrams. -/
theorem stemsFrom_of_execute {es : List SessionEvent}
    (h : execute Session.next Session.init es = some p) :
    p.state.client.eventQueue.WellFormed ∧ ∀ e ∈ p.queue, StemsFrom es e := by
  refine execute_history_induction (C := fun _ _ => True)
    (P := fun xs p => p.state.client.eventQueue.WellFormed ∧ ∀ e ∈ p.queue, StemsFrom xs e)
    h (fun _ _ _ _ _ => trivial) ⟨wellFormed_eventQueueInit, fun e he => by cases he⟩ ?_
  rintro xs x p₁ p₂ - hs ⟨hwf, hstems⟩
  obtain ⟨hwf', hchange⟩ := Session.next_queue hwf hs
  refine ⟨hwf', ?_⟩
  have hold : ∀ e ∈ p₁.queue, StemsFrom (xs ++ [x]) e := fun e he =>
    (hstems e he).mono (List.subset_append_left xs [x])
  generalize p₂.queue = l at hchange
  intro e he
  cases hchange with
  | same => exact hold e he
  | acked r hr =>
    rcases List.mem_append.mp he with he | he
    · exact hold e he
    · exact ⟨r, by simp, Or.inl ⟨hr, List.mem_singleton.mp he⟩⟩
  | published r hr =>
    rcases List.mem_append.mp he with he | he
    · exact hold e he
    · exact ⟨r, by simp, Or.inr ⟨hr, List.mem_singleton.mp he⟩⟩
  | waited ok hc hpc hi hl hack =>
    apply hold e
    rw [hl]
    exact ((List.sublist_cons_self _ _).append_left _).subset he
  | taken n hn hl =>
    apply hold e
    rw [hl]
    exact List.mem_cons_of_mem _ he

/-- **Acknowledgements stay apart exactly when none is at the head of the queue** whenever the
application takes an event. -/
theorem acksApart_iff (es : List SessionEvent) :
    AcksApart es ↔ AlongSteps Session.next EventFirst Session.init es := by
  constructor
  · rintro ⟨hret, -⟩ xs x p hpre hp n rfl hn e he hack
    obtain ⟨hwf, -⟩ := stemsFrom_of_execute hp
    have hne : p.queue ≠ [] := by
      intro h0
      rw [h0] at he
      cases he
    obtain ⟨⟨e', s'⟩, hnext⟩ := Option.isSome_iff_exists.mp (slimmqNextEvent_isSome hwf hn hne)
    obtain ⟨-, e₀, q, -, hl, he', -⟩ := slimmqNextEvent_cases hwf hnext
    obtain ⟨r, -, -, hr⟩ := hret xs n p e' s' hpre hp hnext
    -- the event at the head was taken, and it has the type of a PUBLISH
    obtain rfl : e₀ = e := by
      rw [Session.queue, hl] at he
      exact Option.some.inj he
    have htype := congrArg SlimmqEvent.msgType (he'.symm.trans hr)
    rw [show e₀.msgType = msgAck from hack] at htype
    cases htype
  · intro h
    refine ⟨?_, ?_⟩
    · intro xs n p e s' hpre hp hnext
      obtain ⟨hwf, hstems⟩ := stemsFrom_of_execute hp
      obtain ⟨hn, e₀, q, -, hl, rfl, -⟩ := slimmqNextEvent_cases hwf hnext
      have hfirst := h xs _ p hpre hp n rfl hn e₀ (by rw [Session.queue, hl]; rfl)
      obtain ⟨r, hr, ⟨-, rfl⟩ | ⟨hpub, rfl⟩⟩ := hstems e₀ (by rw [Session.queue, hl]; simp)
      · exact absurd rfl hfirst
      · exact ⟨r, hr, hpub, rfl⟩
    · intro xs x p p' hpre hp hs id hlt
      obtain ⟨hwf, -⟩ := stemsFrom_of_execute hp
      have hfirst := h xs x p hpre hp
      obtain ⟨-, hchange⟩ := Session.next_queue hwf hs
      generalize p'.queue = l at hchange hlt
      cases hchange with
      | same => exact absurd hlt (lt_irrefl _)
      | acked r hr =>
        rw [List.countP_append] at hlt
        omega
      | published r hr =>
        rw [List.countP_append] at hlt
        omega
      | waited ok hc hpc hi hl hack =>
        refine ⟨ok, _, _, rfl, hc, hpc, ?_⟩
        by_contra hid
        -- an acknowledgement of another message is not counted
        rw [hl, List.countP_append, List.countP_append, List.countP_cons_of_neg ?_] at hlt
        · exact absurd hlt (lt_irrefl _)
        · simp only [isAck, decide_eq_true_eq] at hack ⊢
          exact fun h' => hid (hack.2.symm.trans h'.2)
      | taken n hn hl =>
        have hne := hfirst n rfl hn _ (by rw [hl]; rfl)
        rw [hl, List.countP_cons_of_neg ?_] at hlt
        · exact absurd hlt (lt_irrefl _)
        · simp only [isAck, decide_eq_true_eq]
          exact fun h' => hne h'.1

/-- The listener gets a datagram, into clean buffers. -/
def heard (datagram : Datagram) : SessionEvent := .receive ⟨cleanReceived datagram, 0, true⟩

/-- A call of `slimmq_publish` of one byte to the topic `a`, up to its first send. -/
def publishing : List SessionEvent :=
  [.publish (some ⟨[97], noNul_a⟩) (fun _ => 9) 1, .advance true]

/-- The acknowledgement that the broker sends for a small message id. -/
def ackDatagram (id : UInt8) : Datagram := [1, 1, 1, 0, 0, id, 0, 0, 0, 0, 1, 1, 0, 0, 1]

/-- A QoS 1 call whose acknowledgement has come, and an application that takes an event. -/
def takenTrace : List SessionEvent :=
  [.setQos qosAtLeastOnce, .setRetryPolicy 1000 3] ++ publishing ++ [heard (ackDatagram 1)]

/-- The application is handed the acknowledgement. -/
theorem takenTrace_not_apart : ¬ AcksApart (takenTrace ++ [.nextEvent 128]) := by
  intro h
  have htype : ((execute Session.next Session.init takenTrace).bind fun p =>
      slimmqNextEvent p.state 128).map (·.1.msgType) = some msgAck := by
    decide +kernel
  obtain ⟨⟨e, s'⟩, hnext, he⟩ := Option.map_eq_some_iff.mp htype
  obtain ⟨p, hp, hnext⟩ := Option.bind_eq_some_iff.mp hnext
  obtain ⟨r, -, -, rfl⟩ := h.returned takenTrace 128 p e s' (List.prefix_refl _) hp hnext
  cases he

/-! ## What a publisher gets -/

/-- The client only publishes at QoS 1: it neither subscribes nor takes events. -/
def PublishOnly : SessionEvent → Prop
  | .subscribe _ _ => False
  | .nextEvent _ => False
  | .setQos qosLevel => qosLevel = qosAtLeastOnce
  | _ => True

namespace Session

/-- A QoS 1 call for this message is in progress. -/
def Awaits (p : Session) (id : UInt32) : Prop :=
  ∃ run, p.call = some run ∧ run.msg.header.qosLevel = qosAtLeastOnce ∧ run.msg.header.msgId = id

/-- The event is a call of `event_queue_wait_ack` for this message. -/
def Waits (p : Session) (x : SessionEvent) (id : UInt32) : Prop :=
  ∃ ok run i, x = .advance ok ∧ p.call = some run ∧ run.pc = .pollAck i ∧
    i < p.state.polls ∧ run.msg.header.msgId = id

end Session

/-- **Every awaited acknowledgement is accepted** by `event_queue_push`, and the next
`event_queue_wait_ack` for its message finds one. -/
structure AcksAccepted (es : List SessionEvent) : Prop where
  accepted : ∀ xs (r : ClientReception) p, xs ++ [.receive r] <+: es →
    execute Session.next Session.init xs = some p → r.Acks → p.Awaits r.header.msgId →
    (eventQueuePush p.state.client.eventQueue msgAck r.header.msgId CString.empty (fun _ => 0) 0
      r.mallocOk).1 = 0
  found : ∀ xs (r : ClientReception) ys p p₁ p', xs ++ .receive r :: ys <+: es →
    execute Session.next Session.init xs = some p → r.Acks → p.Awaits r.header.msgId →
    p.next (.receive r) = some p₁ → execute Session.next p₁ ys = some p' →
    AlongSteps Session.next (fun q y => ¬ q.Waits y r.header.msgId) p₁ ys →
    (eventQueueWaitAck p'.state.client.eventQueue r.header.msgId).1 = 0

/-- When an awaited acknowledgement comes, the queue has room. -/
def RoomForAck (p : Session) (x : SessionEvent) : Prop :=
  ∀ r : ClientReception, x = .receive r → r.Acks → p.Awaits r.header.msgId →
    p.queue.length < maxEventQueueSize

instance (p : Session) : (x : SessionEvent) → Decidable (RoomForAck p x)
  | .receive r => decidable_of_iff (r.Acks → ∀ run ∈ p.call,
      run.msg.header.qosLevel = qosAtLeastOnce ∧ run.msg.header.msgId = r.header.msgId →
        p.queue.length < maxEventQueueSize) <| by
      constructor
      · rintro h _ he hr ⟨run, hc, hrun⟩
        obtain rfl := SessionEvent.receive.inj he
        exact h hr run hc hrun
      · exact fun h hr run hc hrun => h r rfl hr ⟨run, hc, hrun⟩
  | .publish _ _ _ | .advance _ | .subscribe _ _ | .setQos _ | .setRetryPolicy _ _ | .nextEvent _ =>
    .isTrue fun _ he => nomatch he

/-- A listener that gets an acknowledgement pushes it. -/
theorem listenerStep_of_acks {s : ClientState} {r : ClientReception} (h : r.Acks) :
    listenerStep s r = s.push msgAck r.header.msgId CString.empty (fun _ => 0) 0 r.mallocOk := by
  have hn : NoTopic r.header := Or.inl h.2
  have hd : ∃ d, r.decoded = .ok d := ⟨_, deserializeMessage_noTopic h.1 hn⟩
  obtain ⟨d, hd⟩ := hd
  rw [listenerStep_of_ok hd, if_pos h.2, Received.topicStr_of_noTopic hd hn]

/-- An acknowledgement stays in the queue until a wait for its message takes one out. -/
theorem ack_mem_of_not_waits {id : UInt32} {ys : List SessionEvent} {e : SlimmqEvent}
    (hwf : p.state.client.eventQueue.WellFormed) (he : e ∈ p.queue) (hack : isAck id e)
    (hp : execute Session.next p ys = some p') (hpub : ∀ y ∈ ys, PublishOnly y)
    (hw : AlongSteps Session.next (fun q y => ¬ q.Waits y id) p ys) :
    p'.state.client.eventQueue.WellFormed ∧ e ∈ p'.queue := by
  have hC : AlongSteps Session.next (fun q y => ¬ q.Waits y id ∧ PublishOnly y) p ys :=
    fun xs y q hpre hq => ⟨hw xs y q hpre hq, hpub y (hpre.subset (by simp))⟩
  refine execute_history_induction
    (P := fun _ q => q.state.client.eventQueue.WellFormed ∧ e ∈ q.queue) hp hC ⟨hwf, he⟩ ?_
  rintro zs y q q' ⟨hnw, hy⟩ hs ⟨hqwf, hmem⟩
  obtain ⟨hwf', hchange⟩ := Session.next_queue hqwf hs
  refine ⟨hwf', ?_⟩
  generalize q'.queue = l at hchange
  cases hchange with
  | same => exact hmem
  | acked r hr => exact List.mem_append_left _ hmem
  | published r hr => exact List.mem_append_left _ hmem
  | waited ok hc hpc hi hl hack' =>
    rw [hl] at hmem
    rcases List.mem_append.mp hmem with hmem | hmem
    · exact List.mem_append_left _ hmem
    rcases List.mem_cons.mp hmem with rfl | hmem
    · -- the wait was for the message of `e`
      simp only [isAck, decide_eq_true_eq] at hack hack'
      exact absurd ⟨ok, _, _, rfl, hc, hpc, hi, hack'.2.symm.trans hack.2⟩ hnw
    · exact List.mem_append_right _ hmem
  | taken n hn hl => exact hy.elim

/-- An acknowledgement enters a queue with room for it. -/
theorem ack_pushed_of_room {r : ClientReception} (hwf : p.state.client.eventQueue.WellFormed)
    (hlt : p.queue.length < maxEventQueueSize) (hr : r.Acks) :
    (eventQueuePush p.state.client.eventQueue msgAck r.header.msgId CString.empty (fun _ => 0)
        0 r.mallocOk).1 = 0 ∧
      r.ackEvent ∈ (listenerStep p.state r).client.eventQueue.toList := by
  obtain ⟨-, hcases⟩ := eventQueuePush_cases hwf msgAck r.header.msgId CString.empty
    (fun _ => 0) 0 r.mallocOk
  rw [listenerStep_of_acks hr]
  rcases hcases with ⟨hc, -⟩ | ⟨-, ⟨hlen, -⟩, -⟩ | ⟨-, -, hr0, hl⟩
  -- a full queue, and an event with data
  · simp only [Session.queue, RingBuffer.length_toList] at hlt
    omega
  · exact absurd hlen (lt_irrefl 0)
  · refine ⟨hr0, ?_⟩
    rw [ClientState.push, hl]
    exact List.mem_append_right _ (List.mem_singleton_self _)

/-- **The awaited acknowledgements of a publisher arrive exactly when the queue has room for
them.** -/
theorem acksAccepted_iff (es : List SessionEvent) (h : ∀ x ∈ es, PublishOnly x) :
    AcksAccepted es ↔ AlongSteps Session.next RoomForAck Session.init es := by
  constructor
  · rintro ⟨hacc, -⟩ xs x p hpre hp r rfl hr haw
    have h0 := hacc xs r p hpre hp hr haw
    by_contra hfull
    have hc : maxEventQueueSize ≤ p.state.client.eventQueue.count := by
      simpa [Session.queue] using hfull
    rw [eventQueuePush, if_pos hc] at h0
    cases h0
  · intro hroom
    have hpush : ∀ xs (r : ClientReception) p, xs ++ [.receive r] <+: es →
        execute Session.next Session.init xs = some p → r.Acks → p.Awaits r.header.msgId →
        (eventQueuePush p.state.client.eventQueue msgAck r.header.msgId CString.empty (fun _ => 0)
          0 r.mallocOk).1 = 0 ∧
        r.ackEvent ∈ (listenerStep p.state r).client.eventQueue.toList :=
      fun xs r p hpre hp hr haw => ack_pushed_of_room (stemsFrom_of_execute hp).1
        (hroom xs _ p hpre hp r rfl hr haw) hr
    refine ⟨fun xs r p hpre hp hr haw => (hpush xs r p hpre hp hr haw).1, ?_⟩
    intro xs r ys p p₁ p' hpre hp hr haw hs hp' hw
    have hpre₁ : xs ++ [.receive r] <+: es := by
      refine List.IsPrefix.trans ?_ hpre
      exact (List.prefix_append_right_inj xs).mpr ⟨ys, rfl⟩
    have hp₁ : execute Session.next Session.init (xs ++ [.receive r]) = some p₁ := by
      rw [execute_snoc, hp]
      exact hs
    obtain ⟨hwf₁, -⟩ := stemsFrom_of_execute hp₁
    have hmem : r.ackEvent ∈ p₁.queue := by
      obtain ⟨⟨p₂, ds⟩, hstep, rfl⟩ := Option.map_eq_some_iff.mp hs
      simp only [Session.step, SessionEvent.offered, List.mem_singleton, if_true] at hstep
      obtain ⟨rfl, -⟩ := Prod.mk.inj (Option.some.inj hstep)
      exact (hpush xs r p hpre₁ hp hr haw).2
    have hack : isAck r.header.msgId r.ackEvent := by
      simp [isAck, ClientReception.ackEvent, pushedEvent]
    have hpub : ∀ y ∈ ys, PublishOnly y := fun y hy => h y (hpre.subset (by simp [hy]))
    obtain ⟨hwf', hmem'⟩ := ack_mem_of_not_waits hwf₁ hmem hack hp' hpub hw
    exact waitAck_of_mem hwf' ⟨r.ackEvent, hmem', hack⟩

/-- A call that is acknowledged at its first attempt: the queue has room for the acknowledgement. -/
theorem acksAccepted_iff_acknowledged : AcksAccepted takenTrace := by
  apply (acksAccepted_iff takenTrace
    (by simp [takenTrace, publishing, heard, PublishOnly])).mpr
  decide +kernel

/-- A first call whose acknowledgement the network has copied: 128 copies come before it looks, and
one more after it has returned. Then a second call sends its message. -/
def crowdedTrace : List SessionEvent :=
  [.setQos qosAtLeastOnce, .setRetryPolicy 1000 3] ++ publishing ++
    List.replicate 128 (heard (ackDatagram 1)) ++ [.advance true, heard (ackDatagram 1)] ++
    publishing

/-- The acknowledgement of the second message finds the queue full. -/
theorem crowdedTrace_not_accepted : ¬ AcksAccepted (crowdedTrace ++ [heard (ackDatagram 2)]) := by
  intro h
  have hrun : (execute Session.next Session.init crowdedTrace).map (fun p =>
      (p.call.map fun run => (run.msg.header.qosLevel, run.msg.header.msgId),
        (eventQueuePush p.state.client.eventQueue msgAck 2 CString.empty (fun _ => 0) 0 true).1)) =
      some (some (qosAtLeastOnce, 2), -1) := by
    decide +kernel
  obtain ⟨p, hp, hx⟩ := Option.map_eq_some_iff.mp hrun
  obtain ⟨hcall, hfull⟩ := Prod.mk.inj hx
  obtain ⟨run, hc, hrun⟩ := Option.map_eq_some_iff.mp hcall
  obtain ⟨hq, hid⟩ := Prod.mk.inj hrun
  have h0 := h.accepted crowdedTrace ⟨cleanReceived (ackDatagram 2), 0, true⟩ p
    (List.prefix_refl _) hp ⟨by decide, by decide⟩ ⟨run, hc, hq, hid⟩
  have h0' : (eventQueuePush p.state.client.eventQueue msgAck 2 CString.empty (fun _ => 0) 0
      true).1 = 0 := h0
  rw [hfull] at h0'
  cases h0'

end SlimMQ
