import SlimMQ.Client.EventQueue
import SlimMQ.Library.Blocks
import SlimMQ.Library.EventLoop

/-!
# The data blocks of the event queue

An event of `event_queue.c` holds a pointer to its data. A push allocates the block and copies the
data, a pop hands the pointer over to the caller, which frees it when it is done, a wait frees the
block of the acknowledgement that it takes out, and `event_queue_destroy` frees the blocks of the
events that are left. The slots outside the content keep pointers to blocks that have long been
freed or handed over; only the ones inside count.

Each block has one owner at any time, the queue or the application. So no call frees a block twice
or reads one that is gone, the events that come out hold the data that went in, and when the queue
is destroyed nothing is left but what the application has not freed yet.

## Main definitions

* `EventCell`, `EventMemory`: an event with its pointer, and the queue of them with the blocks
* `eventMemoryPush`, `eventMemoryPop`, `eventMemoryWaitAck`, `eventMemoryDestroy`: the functions
* `EventLedger`, `EventLedger.step`: the calls of the queue and of the application, on record
* `EventLedger.Allowed`: what `malloc` and the application keep to

## Main results

* `EventLedger.Sound.step`: one call is no fault and leaves each block with one owner
* `eventMemory_owned`: so is every sequence of calls, and it does what it means on a list
-/

namespace SlimMQ

open Buffer EventLoop

/-! ## The functions -/

/-- `slimmq_event_t`, with its data pointer; `none` is the null pointer. -/
structure EventCell where
  msgType : UInt8
  msgId : UInt32
  topic : CString
  data : Option ℕ
  dataLen : ℕ

/-- `slimmq_event_queue_t`, less its lock and condition, and the blocks of the process. -/
structure EventMemory where
  queue : RingBuffer maxEventQueueSize EventCell
  heap : Blocks.Heap (List UInt8)

/-- `event_queue_init`, in a process without blocks. -/
def eventMemoryInit : EventMemory where
  queue := ⟨fun _ => ⟨0, 0, CString.empty, none, 0⟩, 0, 0, 0⟩
  heap := fun _ => none

/-- `event_queue_push`; `malloc` is what its call returns, if it is called. -/
def eventMemoryPush (m : EventMemory) (msgType : UInt8) (msgId : UInt32) (topic : CString)
    (data : Mem) (len : ℕ) (malloc : Option ℕ) : Int × EventMemory :=
  if maxEventQueueSize ≤ m.queue.count then (-1, m)
  else
    let cell : EventCell := ⟨msgType, msgId, topic.take (maxTopicLen - 1), none, 0⟩
    if 0 < len then
      match malloc with
      | none => (-2, { m with queue := m.queue.overwrite cell })
      | some p => (0, ⟨m.queue.put { cell with data := some p, dataLen := len },
          Blocks.alloc m.heap p (data.read 0 len)⟩)
    else (0, { m with queue := m.queue.put cell })

/-- `event_queue_pop`; an empty queue makes the caller wait. -/
def eventMemoryPop (m : EventMemory) : Option (EventCell × EventMemory) :=
  if m.queue.count = 0 then none
  else some (m.queue.buffer m.queue.head, { m with queue := m.queue.advance })

/-- The test of `event_queue_wait_ack`. -/
def EventCell.isAck (id : UInt32) (cell : EventCell) : Bool :=
  cell.msgType = msgAck ∧ cell.msgId = id

/-- `event_queue_wait_ack`; none if it frees an address without a block. -/
def eventMemoryWaitAck (m : EventMemory) (expectedMsgId : UInt32) : Option (Int × EventMemory) :=
  match (List.range m.queue.count).find? fun i => (m.queue.get i).isAck expectedMsgId with
  | none => some (-1, m)
  | some i =>
    (Blocks.free m.heap (m.queue.get i).data).map fun heap => (0, ⟨m.queue.removeAt i, heap⟩)

/-- `event_queue_destroy`: the queue stays as it is, with its pointers to the freed blocks. -/
def eventMemoryDestroy (m : EventMemory) : Option EventMemory :=
  (Blocks.freeAll m.heap ((List.range m.queue.count).map fun i => (m.queue.get i).data)).map
    fun heap => { m with heap := heap }

/-! ## The calls, on record -/

/-- A call of the queue, with what `malloc` returns in it, or a `free` of the application. -/
inductive MemoryOp
  | push (msgType : UInt8) (msgId : UInt32) (topic : CString) (data : Mem) (len : ℕ)
      (malloc : Option ℕ)
  | pop
  | waitAck (expectedMsgId : UInt32)
  | free (p : ℕ)
  | destroy

/-- The call, as one of the queue of events. -/
def MemoryOp.onEvents : MemoryOp → Option QueueOp
  | .push msgType msgId topic data len malloc =>
    some (.push msgType msgId topic data len malloc.isSome)
  | .pop => some .pop
  | .waitAck expectedMsgId => some (.waitAck expectedMsgId)
  | .free _ => none
  | .destroy => none

/-- The event that a cell stands for: its data is read from its block. -/
def EventCell.event (heap : Blocks.Heap (List UInt8)) (cell : EventCell) : SlimmqEvent :=
  ⟨cell.msgType, cell.msgId, cell.topic,
    ((cell.data.bind heap).getD []).take cell.dataLen⟩

/-- The blocks of the events in the queue. -/
def EventMemory.pointers (m : EventMemory) : List ℕ :=
  m.queue.toList.flatMap fun cell => cell.data.toList

/-- The events in the queue. -/
def EventMemory.events (m : EventMemory) : List SlimmqEvent :=
  m.queue.toList.map (EventCell.event m.heap)

/-- The memory with a record of what has happened: whether the queue is in use, the blocks that the
application holds, and what the calls have returned. -/
structure EventLedger where
  memory : EventMemory
  inUse : Bool
  held : List ℕ
  replies : List QueueReply

namespace EventLedger

def init : EventLedger := ⟨eventMemoryInit, true, [], []⟩

/-- The blocks of the events in the queue, until it is destroyed. -/
def queued (s : EventLedger) : List ℕ := if s.inUse then s.memory.pointers else []

/-- One call. -/
def step (s : EventLedger) : MemoryOp → Option EventLedger
  | .push msgType msgId topic data len malloc =>
    let r := eventMemoryPush s.memory msgType msgId topic data len malloc
    some { s with memory := r.2, replies := s.replies ++ [⟨r.1, none⟩] }
  | .pop =>
    (eventMemoryPop s.memory).map fun r =>
      { s with memory := r.2, held := r.1.data.toList ++ s.held,
               replies := s.replies ++ [⟨0, some (r.1.event s.memory.heap)⟩] }
  | .waitAck expectedMsgId =>
    (eventMemoryWaitAck s.memory expectedMsgId).map fun r =>
      { s with memory := r.2, replies := s.replies ++ [⟨r.1, none⟩] }
  | .free p =>
    (Blocks.free s.memory.heap (some p)).map fun heap =>
      { s with memory := { s.memory with heap := heap }, held := s.held.erase p }
  | .destroy => (eventMemoryDestroy s.memory).map fun m => { s with memory := m, inUse := false }

/-- **What the caller keeps to**: the queue is used until it is destroyed, a pop waits for an event,
the application frees only what it holds, and `malloc` returns an address without a block. -/
def Allowed (s : EventLedger) : MemoryOp → Prop
  | .push _ _ _ _ _ malloc => s.inUse = true ∧ ∀ p ∈ malloc, s.memory.heap p = none
  | .pop => s.inUse = true ∧ s.memory.queue.count ≠ 0
  | .waitAck _ => s.inUse = true
  | .free p => p ∈ s.held
  | .destroy => s.inUse = true

instance decidableAllowed (s : EventLedger) : (op : MemoryOp) → Decidable (s.Allowed op)
  | .push _ _ _ _ _ _ => inferInstanceAs (Decidable (_ ∧ _))
  | .pop => inferInstanceAs (Decidable (_ ∧ _))
  | .waitAck _ => inferInstanceAs (Decidable (_ = _))
  | .free _ => inferInstanceAs (Decidable (_ ∈ _))
  | .destroy => inferInstanceAs (Decidable (_ = _))

/-- **Each block has one owner**, and while the queue is in use, the calls so far did what they mean
on a list of events. -/
structure Sound (ops : List MemoryOp) (s : EventLedger) : Prop where
  wellFormed : s.memory.queue.WellFormed
  owned : Blocks.Owns s.memory.heap (s.queued ++ s.held)
  fifo : s.inUse = true → fifoRun (ops.filterMap MemoryOp.onEvents) = some (s.replies, s.memory.events)

theorem sound_init : Sound [] EventLedger.init :=
  ⟨⟨by decide, by decide, by decide, by decide⟩, Blocks.owns_empty, fun _ => rfl⟩

variable {s : EventLedger} {ops : List MemoryOp}

/-- The data of the events is the same in a heap with the same blocks for them. -/
theorem map_event_congr {heap heap' : Blocks.Heap (List UInt8)} {cells : List EventCell}
    (h : ∀ p ∈ cells.flatMap (fun cell => cell.data.toList), heap' p = heap p) :
    cells.map (EventCell.event heap') = cells.map (EventCell.event heap) := by
  refine List.map_congr_left fun cell hcell => ?_
  unfold EventCell.event
  cases hd : cell.data with
  | none => rfl
  | some p =>
    have hp : heap' p = heap p :=
      h p (List.mem_flatMap.mpr ⟨cell, hcell, by rw [hd]; exact List.mem_singleton_self p⟩)
    rw [Option.bind_some, Option.bind_some, hp]

theorem Sound.owned_inUse (h : Sound ops s) (hu : s.inUse = true) :
    Blocks.Owns s.memory.heap (s.memory.pointers ++ s.held) := by
  have howned := h.owned
  rwa [queued, if_pos hu] at howned

theorem sound_of_inUse (hu : s.inUse = true) (hwf : s.memory.queue.WellFormed)
    (howned : Blocks.Owns s.memory.heap (s.memory.pointers ++ s.held))
    (hfifo : fifoRun (ops.filterMap MemoryOp.onEvents) = some (s.replies, s.memory.events)) :
    Sound ops s := by
  refine ⟨hwf, ?_, fun _ => hfifo⟩
  rwa [queued, if_pos hu]

end EventLedger

@[simp] theorem EventMemory.length_events (m : EventMemory) :
    m.events.length = m.queue.count := by
  simp [EventMemory.events]

/-- **The outcomes of a push**: the queue and the blocks stay as they are, or an event is taken in,
with a block of its own if it has data. -/
theorem eventMemoryPush_cases {m : EventMemory} (h : m.queue.WellFormed) (msgType : UInt8)
    (msgId : UInt32) (topic : CString) (data : Mem) (len : ℕ) (malloc : Option ℕ) :
    let r := eventMemoryPush m msgType msgId topic data len malloc
    r.2.queue.WellFormed ∧
      ((maxEventQueueSize ≤ m.queue.count ∧ r.1 = -1 ∨
          m.queue.count < maxEventQueueSize ∧ (0 < len ∧ malloc.isSome = false) ∧ r.1 = -2) ∧
        r.2.queue.toList = m.queue.toList ∧ r.2.heap = m.heap ∨
      (m.queue.count < maxEventQueueSize ∧ ¬ (0 < len ∧ malloc.isSome = false) ∧ r.1 = 0) ∧
        ∃ cell, r.2.queue.toList = m.queue.toList ++ [cell] ∧
          cell.event r.2.heap = pushedEvent msgType msgId topic data len ∧
          (cell.data = none ∧ r.2.heap = m.heap ∨
            ∃ p bytes, malloc = some p ∧ cell.data = some p ∧
              r.2.heap = Blocks.alloc m.heap p bytes)) := by
  unfold eventMemoryPush
  by_cases hfull : maxEventQueueSize ≤ m.queue.count
  · rw [if_pos hfull]
    exact ⟨h, Or.inl ⟨Or.inl ⟨hfull, rfl⟩, rfl, rfl⟩⟩
  have hroom : m.queue.count < maxEventQueueSize := Nat.not_le.mp hfull
  rw [if_neg hfull]
  by_cases hlen : 0 < len
  · simp only [if_pos hlen]
    cases malloc with
    | none =>
      exact ⟨h.overwrite _, Or.inl ⟨Or.inr ⟨hroom, ⟨hlen, rfl⟩, rfl⟩,
        RingBuffer.toList_overwrite h hroom _, rfl⟩⟩
    | some p =>
      have hok : ¬ (0 < len ∧ (some p).isSome = false) := fun hm => by cases hm.2
      refine ⟨h.put hroom _, Or.inr ⟨⟨hroom, hok, rfl⟩, _, RingBuffer.toList_put h hroom _, ?_,
        Or.inr ⟨p, _, rfl, rfl, rfl⟩⟩⟩
      -- the block holds the data, and no more
      have htake : (data.read 0 len).take len = data.read 0 len :=
        List.take_of_length_le (by rw [Mem.length_read])
      simp [EventCell.event, pushedEvent, Blocks.alloc, htake]
  -- an event without data
  · obtain rfl : len = 0 := Nat.eq_zero_of_not_pos hlen
    rw [if_neg hlen]
    have hok : ¬ (0 < 0 ∧ malloc.isSome = false) := fun hm => hlen hm.1
    exact ⟨h.put hroom _, Or.inr ⟨⟨hroom, hok, rfl⟩, _, RingBuffer.toList_put h hroom _, rfl,
      Or.inl ⟨rfl, rfl⟩⟩⟩

/-- The outcomes of a wait: nothing, or an acknowledgement is taken out and its block given back. -/
theorem eventMemoryWaitAck_cases {m : EventMemory} (h : m.queue.WellFormed) (id : UInt32) :
    (eventMemoryWaitAck m id = some (-1, m) ∧
        ∀ cell ∈ m.queue.toList, cell.isAck id = false) ∨
      ∃ cell l₁ l₂ queue, m.queue.toList = l₁ ++ cell :: l₂ ∧ cell.isAck id ∧
        (∀ x ∈ l₁, x.isAck id = false) ∧ queue.WellFormed ∧ queue.toList = l₁ ++ l₂ ∧
        eventMemoryWaitAck m id =
          (Blocks.free m.heap cell.data).map fun heap => (0, ⟨queue, heap⟩) := by
  unfold eventMemoryWaitAck
  rcases RingBuffer.find?_range_cases h (EventCell.isAck id) with
    ⟨hnone, hno⟩ | ⟨i, l₁, l₂, hsome, hack, hl, hno, hwf, hl'⟩
  · rw [hnone]
    exact Or.inl ⟨rfl, hno⟩
  · rw [hsome]
    exact Or.inr ⟨_, l₁, l₂, _, hl, hack, hno, hwf, hl', rfl⟩

/-- One more call of a sequence. -/
theorem runCalls_snoc {σ : Type} {step : σ → QueueOp → Option (QueueReply × σ)} {s₀ s s' : σ}
    {ops : List QueueOp} {op : QueueOp} {replies : List QueueReply} {reply : QueueReply}
    (h : runCalls step s₀ ops = some (replies, s)) (hs : step s op = some (reply, s')) :
    runCalls step s₀ (ops ++ [op]) = some (replies ++ [reply], s') := by
  induction ops generalizing s₀ replies with
  | nil =>
    obtain ⟨rfl, rfl⟩ := Prod.mk.inj (Option.some.inj h)
    simp [runCalls, hs]
  | cons op₁ ops ih =>
    obtain ⟨r, hr, hrest⟩ := Option.bind_eq_some_iff.mp h
    obtain ⟨rs, hrs, he⟩ := Option.map_eq_some_iff.mp hrest
    obtain ⟨rfl, rfl⟩ := Prod.mk.inj he
    simp [runCalls, hr, ih hrs]

namespace EventLedger

variable {s : EventLedger} {ops : List MemoryOp}

/-- What the sequence of calls on the list has come to, after a call of the queue. -/
theorem Sound.fifo_snoc (h : Sound ops s) (hu : s.inUse = true) (op : MemoryOp) {call : QueueOp}
    (hop : op.onEvents = some call) {reply : QueueReply} {l : List SlimmqEvent}
    (hs : fifoStep s.memory.events call = some (reply, l)) :
    fifoRun ((ops ++ [op]).filterMap MemoryOp.onEvents) = some (s.replies ++ [reply], l) := by
  rw [List.filterMap_append, List.filterMap_cons, hop, List.filterMap_nil]
  exact runCalls_snoc (h.fifo hu) hs

theorem Sound.push (h : Sound ops s) (hu : s.inUse = true) (msgType : UInt8) (msgId : UInt32)
    (topic : CString) (data : Mem) (len : ℕ) {malloc : Option ℕ}
    (hfresh : ∀ p ∈ malloc, s.memory.heap p = none) :
    ∃ s', s.step (.push msgType msgId topic data len malloc) = some s' ∧
      Sound (ops ++ [.push msgType msgId topic data len malloc]) s' := by
  refine ⟨_, rfl, ?_⟩
  obtain ⟨hwf, hcases⟩ :=
    eventMemoryPush_cases h.wellFormed msgType msgId topic data len malloc
  generalize eventMemoryPush s.memory msgType msgId topic data len malloc = r at hwf hcases ⊢
  have howned := h.owned_inUse hu
  -- what is left to show, for the memory after the push
  suffices hpush : Blocks.Owns r.2.heap (r.2.pointers ++ s.held) ∧
      fifoStep s.memory.events (.push msgType msgId topic data len malloc.isSome) =
        some (⟨r.1, none⟩, r.2.events) from
    sound_of_inUse hu hwf hpush.1 (h.fifo_snoc hu _ rfl hpush.2)
  rcases hcases with ⟨hret, hl, hheap⟩ | ⟨⟨hroom, hok, hret⟩, cell, hl, hevent, hdata⟩
  -- nothing has changed
  · have hpointers : r.2.pointers = s.memory.pointers := by
      rw [EventMemory.pointers, hl, EventMemory.pointers]
    have hevents : r.2.events = s.memory.events := by
      rw [EventMemory.events, hl, hheap, EventMemory.events]
    refine ⟨by rwa [hheap, hpointers], ?_⟩
    simp only [fifoStep, EventMemory.length_events]
    rcases hret with ⟨hfull, hret⟩ | ⟨hroom, hfail, hret⟩
    · rw [if_pos hfull, hret, hevents]
    · rw [if_neg (Nat.not_le.mpr hroom), if_pos hfail, hret, hevents]
  -- the new event is the last one, and the others keep their blocks
  · have hpointers : r.2.pointers = s.memory.pointers ++ cell.data.toList := by
      rw [EventMemory.pointers, hl, List.flatMap_append, List.flatMap_singleton,
        EventMemory.pointers]
    have hevents : r.2.events =
        s.memory.events ++ [pushedEvent msgType msgId topic data len] := by
      rw [EventMemory.events, hl, List.map_append, List.map_singleton, hevent, map_event_congr,
        EventMemory.events]
      intro p hp
      rcases hdata with ⟨-, hheap⟩ | ⟨q, bytes, hmalloc, -, hheap⟩
      · rw [hheap]
      · rw [hheap]
        exact howned.alloc_of_mem (hfresh q hmalloc) bytes (List.mem_append_left _ hp)
    constructor
    · rw [hpointers]
      rcases hdata with ⟨hnone, hheap⟩ | ⟨q, bytes, hmalloc, hsome, hheap⟩
      · rw [hnone, hheap]
        simpa using howned
      · rw [hsome, hheap]
        refine (howned.alloc (hfresh q hmalloc) bytes).perm ?_
        simpa using List.perm_middle.symm
    · simp only [fifoStep, EventMemory.length_events]
      rw [if_neg (Nat.not_le.mpr hroom), if_neg hok, hret, hevents]

theorem Sound.pop (h : Sound ops s) (hu : s.inUse = true) (hc : s.memory.queue.count ≠ 0) :
    ∃ s', s.step .pop = some s' ∧ Sound (ops ++ [.pop]) s' := by
  have hwf := h.wellFormed
  have hpos : 0 < s.memory.queue.count := Nat.pos_of_ne_zero hc
  have hhead : s.memory.queue.buffer s.memory.queue.head = s.memory.queue.get 0 := by
    rw [RingBuffer.get, Nat.add_zero, Nat.mod_eq_of_lt hwf.head_lt]
  have hl := RingBuffer.toList_advance hpos
  have howned := h.owned_inUse hu
  have hpop : eventMemoryPop s.memory =
      some (s.memory.queue.get 0, { s.memory with queue := s.memory.queue.advance }) := by
    rw [eventMemoryPop, if_neg hc, hhead]
  refine ⟨_, by rw [EventLedger.step, hpop]; rfl, ?_⟩
  refine sound_of_inUse hu (hwf.advance hpos) ?_ (h.fifo_snoc hu _ rfl ?_)
  -- the block goes from the queue to the application
  · rw [EventMemory.pointers, hl, List.flatMap_cons] at howned
    refine howned.perm ?_
    rw [List.append_assoc]
    exact List.perm_append_comm_assoc _ _ _
  · rw [EventMemory.events, hl, List.map_cons]
    rfl

theorem Sound.waitAck (h : Sound ops s) (hu : s.inUse = true) (id : UInt32) :
    ∃ s', s.step (.waitAck id) = some s' ∧ Sound (ops ++ [.waitAck id]) s' := by
  have howned := h.owned_inUse hu
  have hack : ∀ cell : EventCell, SlimMQ.isAck id (cell.event s.memory.heap) = cell.isAck id :=
    fun _ => rfl
  rcases eventMemoryWaitAck_cases h.wellFormed id with
    ⟨hw, hno⟩ | ⟨cell, l₁, l₂, queue, hl, hcell, hno, hwf, hl', hw⟩
  · refine ⟨_, by rw [EventLedger.step, hw]; rfl, ?_⟩
    refine sound_of_inUse hu h.wellFormed howned (h.fifo_snoc hu _ rfl ?_)
    refine if_neg fun hany => ?_
    obtain ⟨e, he, hisAck⟩ := List.any_eq_true.mp hany
    obtain ⟨cell, hcell, rfl⟩ := List.mem_map.mp he
    rw [hack, hno cell hcell] at hisAck
    cases hisAck
  -- the block of the acknowledgement is in the queue, and so it can be freed
  · have hperm : (s.memory.pointers ++ s.held).Perm
        (cell.data.toList ++ ((l₁ ++ l₂).flatMap (fun cell => cell.data.toList) ++ s.held)) := by
      rw [EventMemory.pointers, hl, List.flatMap_append, List.flatMap_cons, List.flatMap_append,
        ← List.append_assoc cell.data.toList]
      exact (List.perm_append_comm_assoc _ _ _).append_right _
    obtain ⟨heap, hfree, howned', hsame⟩ := (howned.perm hperm).free
    rw [hfree] at hw
    refine ⟨_, by rw [EventLedger.step, hw]; rfl, ?_⟩
    refine sound_of_inUse hu hwf ?_ (h.fifo_snoc hu _ rfl ?_)
    · rw [EventMemory.pointers, hl']
      exact howned'
    · have hevents : (⟨queue, heap⟩ : EventMemory).events =
          (l₁ ++ l₂).map (EventCell.event s.memory.heap) := by
        rw [EventMemory.events, hl']
        exact map_event_congr fun p hp => hsame p (List.mem_append_left _ hp)
      have hany : s.memory.events.any (SlimMQ.isAck id) := by
        rw [EventMemory.events, hl]
        exact List.any_eq_true.mpr ⟨cell.event s.memory.heap, by simp, hcell⟩
      have herase : s.memory.events.eraseP (SlimMQ.isAck id) =
          (l₁ ++ l₂).map (EventCell.event s.memory.heap) := by
        have hno' : ∀ e ∈ l₁.map (EventCell.event s.memory.heap), ¬ SlimMQ.isAck id e := by
          intro e he
          obtain ⟨x, hx, rfl⟩ := List.mem_map.mp he
          rw [hack, hno x hx]
          exact Bool.false_ne_true
        rw [EventMemory.events, hl, List.map_append, List.map_cons,
          List.eraseP_append_right _ hno', List.eraseP_cons_of_pos (by rwa [hack]),
          List.map_append]
      rw [fifoStep, if_pos hany, herase, ← hevents]

theorem Sound.free (h : Sound ops s) {p : ℕ} (hp : p ∈ s.held) :
    ∃ s', s.step (.free p) = some s' ∧ Sound (ops ++ [.free p]) s' := by
  have hperm : (s.queued ++ s.held).Perm ((some p).toList ++ (s.queued ++ s.held.erase p)) :=
    ((List.perm_cons_erase hp).append_left _).trans List.perm_middle
  obtain ⟨heap, hfree, howned, hsame⟩ := (h.owned.perm hperm).free
  refine ⟨{ s with memory := { s.memory with heap := heap }, held := s.held.erase p }, ?_,
    h.wellFormed, howned, fun hu => ?_⟩
  · rw [EventLedger.step, hfree]
    rfl
  have hu : s.inUse = true := hu
  have hfifo := h.fifo hu
  -- the events keep their blocks
  have hevents : ({ s.memory with heap := heap } : EventMemory).events = s.memory.events := by
    refine map_event_congr fun q hq => hsame q (List.mem_append_left _ ?_)
    rw [queued, if_pos hu]
    exact hq
  rw [List.filterMap_append]
  change fifoRun (ops.filterMap MemoryOp.onEvents ++ []) = _
  rw [List.append_nil, hfifo, ← hevents]

theorem Sound.destroy (h : Sound ops s) (hu : s.inUse = true) :
    ∃ s', s.step .destroy = some s' ∧ Sound (ops ++ [.destroy]) s' := by
  have howned := h.owned_inUse hu
  have hcells : (List.range s.memory.queue.count).map (fun i => (s.memory.queue.get i).data) =
      s.memory.queue.toList.map EventCell.data := by
    rw [RingBuffer.toList, List.map_map]
    rfl
  have hpointers : s.memory.pointers =
      (s.memory.queue.toList.map EventCell.data).flatMap Option.toList := by
    rw [List.flatMap_map]
    rfl
  rw [hpointers] at howned
  obtain ⟨heap, hfree, howned', -⟩ := howned.freeAll
  have hdestroy : eventMemoryDestroy s.memory = some { s.memory with heap := heap } := by
    rw [eventMemoryDestroy, hcells, hfree]
    rfl
  refine ⟨{ s with memory := { s.memory with heap := heap }, inUse := false }, ?_, h.wellFormed,
    howned', fun hu' => absurd hu' Bool.false_ne_true⟩
  rw [EventLedger.step, hdestroy]
  rfl

/-- **One call** that keeps to the rules is no fault. -/
theorem Sound.step (h : Sound ops s) {op : MemoryOp} (ha : s.Allowed op) :
    ∃ s', s.step op = some s' ∧ Sound (ops ++ [op]) s' := by
  cases op with
  | push msgType msgId topic data len malloc => exact h.push ha.1 _ _ _ _ _ ha.2
  | pop => exact h.pop ha.1 ha.2
  | waitAck id => exact h.waitAck ha id
  | free p => exact h.free ha
  | destroy => exact h.destroy ha

end EventLedger

/-- **Each block of the event queue has one owner.** In every sequence of calls that keeps to the
rules, no call frees an address without a block. After it, the blocks of the process are those of
the events in the queue and those that the application holds, each of them once; once the queue is
destroyed, they are those that the application holds. While the queue is in use, the calls have
returned what they mean on a list, and the blocks hold the data of that list. -/
theorem eventMemory_owned (ops : List MemoryOp)
    (h : AlongSteps EventLedger.step EventLedger.Allowed EventLedger.init ops) :
    ∃ s, execute EventLedger.step EventLedger.init ops = some s ∧
      ((if s.inUse then s.memory.pointers else []) ++ s.held).Nodup ∧
      (∀ p, (s.memory.heap p).isSome ↔
        s.inUse = true ∧ p ∈ s.memory.pointers ∨ p ∈ s.held) ∧
      (s.inUse = true →
        fifoRun (ops.filterMap MemoryOp.onEvents) = some (s.replies, s.memory.events)) := by
  obtain ⟨s, hs, hsound⟩ := exists_execute h EventLedger.sound_init
    fun xs op s ha hsound => hsound.step ha
  refine ⟨s, hs, hsound.owned.nodup, fun p => ?_, hsound.fifo⟩
  rw [← hsound.owned.mem_iff p, List.mem_append, EventLedger.queued]
  cases hu : s.inUse <;> simp

/-- Two events with data and an acknowledgement between them: one event is taken, the
acknowledgement is waited for, and the queue is destroyed before the application frees its block. -/
def closingCalls : List MemoryOp :=
  [.push msgPublish 1 CString.empty (fun _ => 9) 2 (some 7),
    .push msgAck 2 CString.empty (fun _ => 0) 0 none,
    .push msgPublish 3 CString.empty (fun _ => 9) 1 (some 8), .pop, .waitAck 2, .destroy, .free 7]

/-- After these calls no block is left. -/
theorem eventMemory_owned_closing :
    ∃ s, execute EventLedger.step EventLedger.init closingCalls = some s ∧
      ∀ p, s.memory.heap p = none := by
  obtain ⟨s, hs, -, hblocks, -⟩ := eventMemory_owned closingCalls (by decide +kernel)
  have hend : (execute EventLedger.step EventLedger.init closingCalls).map
      (fun s => (s.inUse, s.held)) = some (false, []) := by
    decide +kernel
  rw [hs] at hend
  obtain ⟨hu, hheld⟩ := Prod.mk.inj (Option.some.inj hend)
  refine ⟨s, hs, fun p => ?_⟩
  have hnone : ¬ (s.memory.heap p).isSome := by
    rw [hblocks, hu, hheld]
    simp
  simpa using hnone

end SlimMQ
