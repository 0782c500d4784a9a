import Mathlib.Data.List.Induction
import SlimMQ.Library.RingBuffer
import SlimMQ.Wire.Header

/-!
# The event queue

The queue of `event_queue.c`: a ring of `MAX_EVENT_QUEUE_SIZE` slots under one lock. Each function
holds the lock from its first to its last statement, so the threads' calls form one sequence; a
`pop` on an empty queue waits and takes no part in it. The queue refines a bounded list: events are
appended, taken from the front, and an acknowledgement may be taken out of the middle.

## Main definitions

* `SlimmqEvent`, `SlimmqEventQueue`: an event, and the ring of them
* `eventQueuePush`, `eventQueuePop`, `eventQueueWaitAck`: the functions of the queue
* `QueueOp`, `runQueue`: the calls, and a sequence of them
* `fifoStep`, `fifoRun`: what the calls mean on a list

## Main results

* `wellFormed_queueStep`, `queueStep_refines`: one call keeps the ring well formed and does to its
  content what it means
* `eventQueue_refines_fifo`: so does every sequence of calls
-/

namespace SlimMQ

open Buffer

abbrev maxTopicLen : ℕ := 128
abbrev maxEventQueueSize : ℕ := 128

/-- `slimmq_event_t`: the topic array holds a string, the data pointer `data_len` bytes. -/
structure SlimmqEvent where
  msgType : UInt8
  msgId : UInt32
  topic : CString
  data : List UInt8
  deriving DecidableEq

/-- `slimmq_event_queue_t`, less its lock and condition. -/
abbrev SlimmqEventQueue := RingBuffer maxEventQueueSize SlimmqEvent

/-- `event_queue_init`. -/
def eventQueueInit : SlimmqEventQueue where
  buffer := fun _ => ⟨0, 0, CString.empty, []⟩
  head := 0
  tail := 0
  count := 0

/-- The event that a push stores: the topic is cut to its array, the data is copied. -/
def pushedEvent (msgType : UInt8) (msgId : UInt32) (topic : CString) (data : Mem) (len : ℕ) :
    SlimmqEvent :=
  ⟨msgType, msgId, topic.take (maxTopicLen - 1), data.read 0 len⟩

/-- `event_queue_push`. When `malloc` fails the slot is written but not taken in. -/
def eventQueuePush (q : SlimmqEventQueue) (msgType : UInt8) (msgId : UInt32) (topic : CString)
    (data : Mem) (len : ℕ) (mallocOk : Bool) : Int × SlimmqEventQueue :=
  if maxEventQueueSize ≤ q.count then (-1, q)
  else if 0 < len ∧ mallocOk = false then
    (-2, q.overwrite (pushedEvent msgType msgId topic data 0))
  else (0, q.put (pushedEvent msgType msgId topic data len))

/-- `event_queue_pop`; an empty queue makes the caller wait. -/
def eventQueuePop (q : SlimmqEventQueue) : Option (SlimmqEvent × SlimmqEventQueue) :=
  if q.count = 0 then none else some (q.buffer q.head, q.advance)

/-- An acknowledgement of the message `id`. -/
def isAck (id : UInt32) (evt : SlimmqEvent) : Bool := evt.msgType = msgAck ∧ evt.msgId = id

/-- `event_queue_wait_ack`: the first acknowledgement from the head on is taken out. -/
def eventQueueWaitAck (q : SlimmqEventQueue) (expectedMsgId : UInt32) : Int × SlimmqEventQueue :=
  match (List.range q.count).find? fun i => isAck expectedMsgId (q.get i) with
  | some i => (0, q.removeAt i)
  | none => (-1, q)

theorem eventQueueWaitAck_of_ne {q : SlimmqEventQueue} {id : UInt32}
    (h : (eventQueueWaitAck q id).1 ≠ 0) : (eventQueueWaitAck q id).2 = q := by
  unfold eventQueueWaitAck at h ⊢
  cases hf : (List.range q.count).find? fun i => isAck id (q.get i) with
  | none => rfl
  | some i =>
    rw [hf] at h
    exact absurd rfl h

/-! ## Sequences of calls -/

/-- A call of the queue, with its arguments and the outcome of its `malloc`. -/
inductive QueueOp
  | push (msgType : UInt8) (msgId : UInt32) (topic : CString) (data : Mem) (len : ℕ)
      (mallocOk : Bool)
  | pop
  | waitAck (expectedMsgId : UInt32)

/-- What a call returns: its code, and the event of a pop. -/
structure QueueReply where
  ret : Int
  event : Option SlimmqEvent

/-- One call; a pop on an empty queue does not return. -/
def queueStep (q : SlimmqEventQueue) : QueueOp → Option (QueueReply × SlimmqEventQueue)
  | .push msgType msgId topic data len mallocOk =>
    let r := eventQueuePush q msgType msgId topic data len mallocOk
    some (⟨r.1, none⟩, r.2)
  | .pop => (eventQueuePop q).map fun r => (⟨0, some r.1⟩, r.2)
  | .waitAck expectedMsgId =>
    let r := eventQueueWaitAck q expectedMsgId
    some (⟨r.1, none⟩, r.2)

/-- **What a call means** on the list of queued events: append, take the first, or take out the
first acknowledgement of a message. -/
def fifoStep (l : List SlimmqEvent) : QueueOp → Option (QueueReply × List SlimmqEvent)
  | .push msgType msgId topic data len mallocOk =>
    if maxEventQueueSize ≤ l.length then some (⟨-1, none⟩, l)
    else if 0 < len ∧ mallocOk = false then some (⟨-2, none⟩, l)
    else some (⟨0, none⟩, l ++ [pushedEvent msgType msgId topic data len])
  | .pop => match l with
    | [] => none
    | e :: l => some (⟨0, some e⟩, l)
  | .waitAck expectedMsgId =>
    if l.any (isAck expectedMsgId) then some (⟨0, none⟩, l.eraseP (isAck expectedMsgId))
    else some (⟨-1, none⟩, l)

/-- A sequence of calls by `step`, with what they return; none if one of them does not return. -/
def runCalls {σ : Type} (step : σ → QueueOp → Option (QueueReply × σ)) (s : σ) :
    List QueueOp → Option (List QueueReply × σ)
  | [] => some ([], s)
  | op :: ops => (step s op).bind fun r =>
      (runCalls step r.2 ops).map fun rs => (r.1 :: rs.1, rs.2)

/-- A sequence of calls from `event_queue_init` on. -/
def runQueue (ops : List QueueOp) : Option (List QueueReply × SlimmqEventQueue) :=
  runCalls queueStep eventQueueInit ops

/-- A sequence of calls on the empty list. -/
def fifoRun (ops : List QueueOp) : Option (List QueueReply × List SlimmqEvent) :=
  runCalls fifoStep [] ops

/-! ## One call -/

variable {q : SlimmqEventQueue}

theorem wellFormed_eventQueueInit : eventQueueInit.WellFormed :=
  ⟨by decide, by decide, by decide, by decide⟩

/-- The three outcomes of a push. -/
theorem eventQueuePush_cases (h : q.WellFormed) (msgType : UInt8) (msgId : UInt32)
    (topic : CString) (data : Mem) (len : ℕ) (mallocOk : Bool) :
    let r := eventQueuePush q msgType msgId topic data len mallocOk
    r.2.WellFormed ∧
      (maxEventQueueSize ≤ q.count ∧ r.1 = -1 ∧ r.2.toList = q.toList ∨
        q.count < maxEventQueueSize ∧ (0 < len ∧ mallocOk = false) ∧ r.1 = -2 ∧
          r.2.toList = q.toList ∨
        q.count < maxEventQueueSize ∧ ¬ (0 < len ∧ mallocOk = false) ∧ r.1 = 0 ∧
          r.2.toList = q.toList ++ [pushedEvent msgType msgId topic data len]) := by
  unfold eventQueuePush
  by_cases hfull : maxEventQueueSize ≤ q.count
  -- the queue is full
  · rw [if_pos hfull]
    exact ⟨h, Or.inl ⟨hfull, rfl, rfl⟩⟩
  · have hroom : q.count < maxEventQueueSize := Nat.not_le.mp hfull
    rw [if_neg hfull]
    by_cases hm : 0 < len ∧ mallocOk = false
    -- the `malloc` fails: the slot is written, but it lies outside the content
    · rw [if_pos hm]
      exact ⟨h.overwrite _, Or.inr (Or.inl ⟨hroom, hm, rfl, RingBuffer.toList_overwrite h hroom _⟩)⟩
    · rw [if_neg hm]
      exact ⟨h.put hroom _, Or.inr (Or.inr ⟨hroom, hm, rfl, RingBuffer.toList_put h hroom _⟩)⟩

/-- A pop returns the first event. -/
theorem eventQueuePop_cases (h : q.WellFormed) :
    (q.toList = [] ∧ eventQueuePop q = none) ∨
      ∃ e q', eventQueuePop q = some (e, q') ∧ q'.WellFormed ∧ q.toList = e :: q'.toList := by
  unfold eventQueuePop
  by_cases hc : q.count = 0
  · rw [if_pos hc]
    exact Or.inl ⟨List.length_eq_zero_iff.mp (by simpa using hc), rfl⟩
  · have hpos : 0 < q.count := Nat.pos_of_ne_zero hc
    -- the head is the first place
    have hhead : q.buffer q.head = q.get 0 := by
      rw [RingBuffer.get, Nat.add_zero, Nat.mod_eq_of_lt h.head_lt]
    rw [if_neg hc, hhead]
    exact Or.inr ⟨_, _, rfl, h.advance hpos, RingBuffer.toList_advance hpos⟩

/-- A wait takes out the first acknowledgement, if there is one. -/
theorem eventQueueWaitAck_cases (h : q.WellFormed) (id : UInt32) :
    ((∀ e ∈ q.toList, isAck id e = false) ∧ eventQueueWaitAck q id = (-1, q)) ∨
      ∃ q' l₁ e l₂, eventQueueWaitAck q id = (0, q') ∧ q'.WellFormed ∧
        q.toList = l₁ ++ e :: l₂ ∧ isAck id e ∧ (∀ x ∈ l₁, isAck id x = false) ∧
        q'.toList = l₁ ++ l₂ := by
  rcases RingBuffer.find?_range_cases h (isAck id) with
    ⟨hf, hno⟩ | ⟨i, l₁, l₂, hf, hack, hl, hno, hwf, hl'⟩
  · refine Or.inl ⟨hno, ?_⟩
    rw [eventQueueWaitAck, hf]
  · refine Or.inr ⟨q.removeAt i, l₁, q.get i, l₂, ?_, hwf, hl, hack, hno, hl'⟩
    rw [eventQueueWaitAck, hf]

/-- A wait finds an acknowledgement that is in the queue. -/
theorem waitAck_of_mem (h : q.WellFormed) {id : UInt32} (he : ∃ e ∈ q.toList, isAck id e) :
    (eventQueueWaitAck q id).1 = 0 := by
  rcases eventQueueWaitAck_cases h id with ⟨hnone, -⟩ | ⟨q', l₁, e, l₂, hw, -⟩
  · obtain ⟨e, he, hack⟩ := he
    rw [hnone e he] at hack
    cases hack
  · rw [hw]

/-- A wait that succeeds has found an acknowledgement. -/
theorem exists_ack_of_waitAck (h : q.WellFormed) {id : UInt32}
    (hw : (eventQueueWaitAck q id).1 = 0) :
    ∃ e ∈ q.toList, e.msgType = msgAck ∧ e.msgId = id := by
  rcases eventQueueWaitAck_cases h id with ⟨-, he⟩ | ⟨q', l₁, e, l₂, -, -, hl, ha, -⟩
  · rw [he] at hw
    cases hw
  · exact ⟨e, by simp [hl], by simpa [isAck] using ha⟩

/-- **One call keeps the ring well formed.** -/
theorem wellFormed_queueStep (h : q.WellFormed) {op : QueueOp} {reply : QueueReply}
    {q' : SlimmqEventQueue} (hs : queueStep q op = some (reply, q')) : q'.WellFormed := by
  cases op with
  | push msgType msgId topic data len mallocOk =>
    obtain ⟨-, rfl⟩ := Prod.mk.inj (Option.some.inj hs)
    exact (eventQueuePush_cases h msgType msgId topic data len mallocOk).1
  | pop =>
    rcases eventQueuePop_cases h with ⟨-, hp⟩ | ⟨e, q₁, hp, hw, -⟩
    · simp [queueStep, hp] at hs
    · simp only [queueStep, hp, Option.map_some, Option.some.injEq, Prod.mk.injEq] at hs
      exact hs.2 ▸ hw
  | waitAck id =>
    obtain ⟨-, rfl⟩ := Prod.mk.inj (Option.some.inj hs)
    rcases eventQueueWaitAck_cases h id with ⟨-, he⟩ | ⟨q₁, l₁, e, l₂, he, hw, -⟩
    · rw [he]
      exact h
    · rw [he]
      exact hw

/-- **One call does to the content what it means**, and returns accordingly. -/
theorem queueStep_refines (h : q.WellFormed) (op : QueueOp) :
    (queueStep q op).map (fun r => (r.1, r.2.toList)) = fifoStep q.toList op := by
  cases op with
  | push msgType msgId topic data len mallocOk =>
    obtain ⟨-, hcases⟩ := eventQueuePush_cases h msgType msgId topic data len mallocOk
    simp only [queueStep, fifoStep, Option.map_some, RingBuffer.length_toList]
    rcases hcases with ⟨hc, hr, hl⟩ | ⟨hc, hm, hr, hl⟩ | ⟨hc, hm, hr, hl⟩
    · rw [if_pos hc, hr, hl]
    · rw [if_neg (Nat.not_le.mpr hc), if_pos hm, hr, hl]
    · rw [if_neg (Nat.not_le.mpr hc), if_neg hm, hr, hl]
  | pop =>
    rcases eventQueuePop_cases h with ⟨hl, hp⟩ | ⟨e, q', hp, -, hl⟩
    · simp [queueStep, fifoStep, hp, hl]
    · simp [queueStep, fifoStep, hp, hl]
  | waitAck id =>
    rcases eventQueueWaitAck_cases h id with ⟨hno, he⟩ | ⟨q', l₁, e, l₂, he, -, hl, hack, hno, hl'⟩
    · have hany : ¬ q.toList.any (isAck id) := by simpa using hno
      simp only [queueStep, fifoStep, he, Option.map_some, if_neg hany]
    · have hany : q.toList.any (isAck id) := List.any_eq_true.mpr ⟨e, by simp [hl], hack⟩
      have herase : q.toList.eraseP (isAck id) = l₁ ++ l₂ := by
        rw [hl, List.eraseP_append_right _ (fun x hx => by simp [hno x hx]),
          List.eraseP_cons_of_pos hack]
      simp only [queueStep, fifoStep, he, Option.map_some, if_pos hany, herase, hl']

/-! ## Every sequence of calls -/

/-- A sequence of calls keeps the ring well formed, and does to its content what it means. -/
theorem runCalls_refines (ops : List QueueOp) (h : q.WellFormed) :
    (runCalls queueStep q ops).map (fun r => (r.1, r.2.toList)) =
        runCalls fifoStep q.toList ops ∧
      ∀ replies q', runCalls queueStep q ops = some (replies, q') → q'.WellFormed := by
  induction ops generalizing q with
  | nil =>
    refine ⟨rfl, ?_⟩
    intro replies q' hr
    obtain ⟨-, rfl⟩ := Prod.mk.inj (Option.some.inj hr)
    exact h
  | cons op ops ih =>
    -- one call on each side, then the rest by induction
    have hstep := queueStep_refines h op
    cases hs : queueStep q op with
    | none =>
      -- the call does not return, on neither side
      rw [hs, Option.map_none] at hstep
      simp [runCalls, hs, ← hstep]
    | some r =>
      obtain ⟨hrun, hw⟩ := ih (wellFormed_queueStep h hs)
      rw [hs, Option.map_some] at hstep
      constructor
      · simp only [runCalls, hs, ← hstep, Option.bind_some, ← hrun, Option.map_map]
        rfl
      · intro replies q' hr
        simp only [runCalls, hs, Option.bind_some, Option.map_eq_some_iff, Prod.mk.injEq] at hr
        obtain ⟨rs, hrs, -, rfl⟩ := hr
        exact hw rs.1 rs.2 hrs

/-- **The event queue refines a bounded list.** After every sequence of calls that return, the
calls have returned what they mean on a list, the content is that list, and the ring is well
formed; and from there a push appends its event or changes nothing, a pop returns and removes the
first event, and a wait succeeds exactly when the acknowledgement is queued, taking out its first
occurrence, and changes nothing otherwise. -/
theorem eventQueue_refines_fifo (ops : List QueueOp) (replies : List QueueReply)
    (q : SlimmqEventQueue) (h : runQueue ops = some (replies, q)) :
    fifoRun ops = some (replies, q.toList) ∧
    (q.head < maxEventQueueSize ∧ q.tail < maxEventQueueSize ∧ q.count ≤ maxEventQueueSize ∧
      q.tail = (q.head + q.count) % maxEventQueueSize) ∧
    (∀ msgType msgId topic data len mallocOk,
      let r := eventQueuePush q msgType msgId topic data len mallocOk
      (r.1 = 0 ∧ r.2.toList = q.toList ++
          [⟨msgType, msgId, topic.take (maxTopicLen - 1), data.read 0 len⟩] ∨
        (r.1 = -1 ∨ r.1 = -2) ∧ r.2.toList = q.toList)) ∧
    (q.toList ≠ [] → ∃ e q', eventQueuePop q = some (e, q') ∧ q.toList = e :: q'.toList) ∧
    (∀ id, ((eventQueueWaitAck q id).1 = 0 ↔
          ∃ e ∈ q.toList, e.msgType = msgAck ∧ e.msgId = id) ∧
      ((eventQueueWaitAck q id).1 = 0 → ∃ l₁ e l₂, q.toList = l₁ ++ e :: l₂ ∧
        (e.msgType = msgAck ∧ e.msgId = id) ∧
        (∀ x ∈ l₁, ¬ (x.msgType = msgAck ∧ x.msgId = id)) ∧
        (eventQueueWaitAck q id).2.toList = l₁ ++ l₂) ∧
      ((eventQueueWaitAck q id).1 ≠ 0 → (eventQueueWaitAck q id).2 = q)) := by
  obtain ⟨hrun, hwf⟩ := runCalls_refines ops wellFormed_eventQueueInit
  have hw := hwf replies q h
  have hinit : eventQueueInit.toList = [] := rfl
  rw [show runCalls queueStep eventQueueInit ops = some (replies, q) from h, Option.map_some,
    hinit] at hrun
  refine ⟨hrun.symm, ⟨hw.head_lt, hw.tail_lt, hw.count_le, hw.tail_eq⟩, ?_, ?_, ?_⟩
  · intro msgType msgId topic data len mallocOk
    obtain ⟨-, hcases⟩ := eventQueuePush_cases hw msgType msgId topic data len mallocOk
    rcases hcases with ⟨-, hr, hl⟩ | ⟨-, -, hr, hl⟩ | ⟨-, -, hr, hl⟩
    · exact Or.inr ⟨Or.inl hr, hl⟩
    · exact Or.inr ⟨Or.inr hr, hl⟩
    · exact Or.inl ⟨hr, hl⟩
  · intro hne
    rcases eventQueuePop_cases hw with ⟨hl, -⟩ | ⟨e, q', hp, -, hl⟩
    · exact absurd hl hne
    · exact ⟨e, q', hp, hl⟩
  · intro id
    rcases eventQueueWaitAck_cases hw id with ⟨hno, he⟩ | ⟨q', l₁, e, l₂, he, -, hl, hack, hno, hl'⟩
    · have hret : (-1 : Int) ≠ 0 := by decide
      rw [he]
      refine ⟨⟨fun h0 => absurd h0 hret, ?_⟩, fun h0 => absurd h0 hret, fun _ => rfl⟩
      rintro ⟨e, hmem, hack⟩
      simpa [isAck, hack] using hno e hmem
    · have hack' : e.msgType = msgAck ∧ e.msgId = id := by simpa [isAck] using hack
      rw [he]
      refine ⟨⟨fun _ => ⟨e, by simp [hl], hack'⟩, fun _ => rfl⟩, fun _ => ?_,
        fun h0 => absurd rfl h0⟩
      exact ⟨l₁, e, l₂, hl, hack', fun x hx hx' => by simpa [isAck, hx'] using hno x hx, hl'⟩

/-- An acknowledgement queued behind a publish is taken out from the middle. -/
theorem eventQueue_refines_fifo_middle :
    ∃ replies q, runQueue [.push msgPublish 1 CString.empty (fun _ => 0) 0 true,
        .push msgAck 2 CString.empty (fun _ => 0) 0 true,
        .push msgPublish 3 CString.empty (fun _ => 0) 0 true, .waitAck 2] = some (replies, q) ∧
      fifoRun [.push msgPublish 1 CString.empty (fun _ => 0) 0 true,
        .push msgAck 2 CString.empty (fun _ => 0) 0 true,
        .push msgPublish 3 CString.empty (fun _ => 0) 0 true, .waitAck 2] =
          some (replies, q.toList) :=
  ⟨_, _, rfl, (eventQueue_refines_fifo _ _ _ rfl).1⟩

end SlimMQ
