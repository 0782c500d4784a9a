import SlimMQ.Broker.Handshake
import SlimMQ.System.TableMemory
import SlimMQ.Topic.TopicRefinement

/-!
# The broker in memory

`broker.c` with both of its tables on the blocks that they allocate: the handlers call the functions
of `topic_table.c` and `pending_table.c` on the nodes. One datagram leads to the outputs that it
leads to on the tree and the lists, and to the same end of the process if it brings a null segment.
So what is proved of the broker holds of the one with pointers, with every allocator; and after any
number of datagrams its blocks are those of the topics and of the handshakes on record, which `main`
gives back when the loop is over.

## Main definitions

* `BrokerMemory`: the tables of the broker in memory
* `BrokerMemory.iteration`: one iteration of the loop on them
* `BrokerMemory.Represents`: the memory holds the tables of the broker, and nothing else

## Main results

* `BrokerMemory.agrees_iteration`: one iteration
* `brokerMainLoop_in_memory`: every run of the broker, and the end of `main`
-/

namespace SlimMQ

open Buffer Blocks EventLoop

/-! ## The handlers -/

/-- The tables of the broker in memory. -/
structure BrokerMemory (γ : Type) where
  topics : TopicArena γ
  topicRoot : Option ℕ
  table : PendingMemory

/-- What one iteration reads, and the address that `calloc` returns if a new entry is put in the
pending table. -/
structure MemoryReception extends Reception where
  calloc : ℕ

namespace BrokerMemory

variable {γ : Type} (A : Allocator γ) (fuel : ℕ)

/-- The tables as `main` sets them up, in a process without blocks. -/
def init (g : γ) : Option (BrokerMemory γ) := do
  let (root, m) ← TopicMemory.initTopicTable A (Arena.empty g)
  some ⟨m, some root, pendingMemoryInit .empty⟩

/-- `handle_subscribe`. -/
def handleSubscribe (b : BrokerMemory γ) (topicStr : CString) (client : SockaddrIn) :
    Result (BrokerMemory γ) BrokerOutput :=
  match TopicMemory.subscribeTopic A b.topics b.topicRoot topicStr client with
  | none => .fault b []
  | some m => .ok { b with topics := m } []

/-- `publish_to_subscribers`: the list is walked along, and given back. -/
def publishToSubscribers (m : TopicArena γ) (root : Option ℕ) (header : SlimMsgHeader)
    (topicStr : CString) (payload : Mem) (payloadLength : ℕ) :
    Option (List BrokerOutput × TopicArena γ) := do
  let (list, m) ← TopicMemory.getMatchingSubscribers A m root topicStr
  let (head, _) ← TopicMemory.readList m (some list)
  let dests ← TopicMemory.targets m (m.live.card + 1) head
  let outs ← dests.mapM (forwardTo header topicStr payload payloadLength)
  let m ← TopicMemory.freeSubscriberList m list
  some (outs.flatten, m)

/-- Call `publish_to_subscribers` and go on with `rest`; `call` records the call. -/
def publishThen (b : BrokerMemory γ) (call : BrokerOutput)
    (sent : Option (List BrokerOutput × TopicArena γ)) (rest : List BrokerOutput) :
    Result (BrokerMemory γ) BrokerOutput :=
  match sent with
  | none => .fault b [call]
  | some (forwards, m) => .ok { b with topics := m } (call :: (forwards ++ rest))

/-- `handle_publish`. -/
def handlePublish (b : BrokerMemory γ) (header : SlimMsgHeader) (topicStr : CString)
    (payload : Mem) (payloadLength : ℕ) (client : SockaddrIn) (now : Int) (calloc : ℕ) :
    Result (BrokerMemory γ) BrokerOutput :=
  let call := BrokerOutput.publish client ⟨header, topicStr, payload.read 0 payloadLength⟩
  let sent := publishToSubscribers A b.topics b.topicRoot header topicStr payload payloadLength
  if header.qosLevel = qosExactlyOnce then
    let received :=
      BrokerOutput.reply client (controlBytes (controlHeader header.msgId) controlReceived)
    match pendingMemoryGet fuel b.table (client, header.msgId) with
    | none => .fault b []
    | some (some .completed) => .ok b []
    | some (some _) => .ok b [received]
    | some none =>
      match pendingMemoryUpdate fuel b.table (client, header.msgId) .received now (some calloc) with
      | none => .fault b []
      | some table => publishThen { b with table := table } call sent [received]
  else if header.qosLevel = qosAtLeastOnce then
    publishThen b call sent [.reply client (ackHeader header.msgId).encode]
  else publishThen b call sent []

/-- `handle_control_release`: the second update finds the entry of the first, without `calloc`. -/
def handleControlRelease (b : BrokerMemory γ) (header : SlimMsgHeader) (client : SockaddrIn)
    (now₁ now₂ : Int) (calloc : ℕ) : Result (BrokerMemory γ) BrokerOutput :=
  let key := (client, header.msgId)
  match pendingMemoryUpdate fuel b.table key .released now₁ (some calloc) with
  | none => .fault b []
  | some table =>
    let complete :=
      BrokerOutput.reply client (controlBytes (controlHeader header.msgId) controlComplete)
    match pendingMemoryUpdate fuel table key .completed now₂ none with
    | none => .fault { b with table := table } [complete]
    | some table => .ok { b with table := table } [complete]

/-- `handle_control_received`: an entry is there to be updated, without `calloc`. -/
def handleControlReceived (b : BrokerMemory γ) (header : SlimMsgHeader) (client : SockaddrIn)
    (now : Int) : Result (BrokerMemory γ) BrokerOutput :=
  match pendingMemoryGet fuel b.table (client, header.msgId) with
  | none => .fault b []
  | some state =>
    if state = some .received then
      match pendingMemoryUpdate fuel b.table (client, header.msgId) .waitRelease now none with
      | none => .fault b []
      | some table => .ok { b with table := table } []
    else .ok b []

/-- `handle_control`. -/
def handleControl (b : BrokerMemory γ) (rawBuf : Mem) (bufLen : ℕ) (ctrlData : Mem)
    (client : SockaddrIn) (time : ℕ → Int) (calloc : ℕ) : Result (BrokerMemory γ) BrokerOutput :=
  match deserializeControlMessage rawBuf bufLen ctrlData bufferSize with
  | .error _ => .ok b []
  | .ok d =>
    if d.ctrlType = controlRelease then
      handleControlRelease fuel b d.header client (time 0) (time 1) calloc
    else if d.ctrlType = controlReceived then
      handleControlReceived fuel b d.header client (time 0)
    else .ok b []

/-- One iteration of `broker_main_loop`. -/
def iteration (b : BrokerMemory γ) (r : MemoryReception) : Result (BrokerMemory γ) BrokerOutput :=
  match recvBytes r.datagram r.buffer bufferSize with
  | none => .ok b []
  | some (buffer, received) =>
    match deserializeMessage buffer received (some r.topic) topicSize (some r.data) bufferSize with
    | .error _ => .ok b []
    | .ok d =>
      if d.header.msgType = msgSubscribe then handleSubscribe A b d.topicStr r.clientAddr
      else if d.header.msgType = msgPublish then
        handlePublish A fuel b d.header d.topicStr d.payload
          (sizeSub d.header.payloadLength.toNat (1 + d.topicStr.strlen)) r.clientAddr (r.time 0)
          r.calloc
      else if d.header.msgType = msgControl then
        handleControl fuel b buffer received r.ctrlData r.clientAddr r.time r.calloc
      else .ok b []

/-- The end of `main`: both tables are given back. -/
def destroy (b : BrokerMemory γ) : Option (TopicArena γ × PendingMemory) := do
  let topics ← TopicMemory.freeTopicTable b.topics b.topicRoot
  let table ← pendingMemoryDestroy fuel b.table
  some (topics, table)

/-- `calloc` returns an address without a block. -/
def Fresh (b : BrokerMemory γ) (r : MemoryReception) : Prop := b.table.heap r.calloc = none

/-! ## One iteration -/

/-- **The memory holds the tables of the broker**, and nothing else. -/
structure Represents (s : Broker) (b : BrokerMemory γ) : Prop where
  topics : ∃ L : Layout, L.tree = s.topicRoot ∧ b.topicRoot = some L.self ∧ b.topics.Holds L.blocks
  table : ∃ l, ChainMemory.Owns b.table l [] ∧ ChainMemory.entriesOf l = s.table

/-- An iteration in memory does what the one on the tree and the lists does. -/
structure Agrees (x : Result Broker BrokerOutput) (y : Result (BrokerMemory γ) BrokerOutput) :
    Prop where
  state : Represents x.state y.state
  outputs : y.outputs = x.outputs
  running : y.running = x.running

variable {A fuel} {s : Broker} {b : BrokerMemory γ}

theorem agrees_ok (h : Represents s b) (outs : List BrokerOutput) :
    Agrees (.ok s outs) (.ok b outs) := ⟨h, rfl, rfl⟩

theorem agrees_fault (h : Represents s b) (outs : List BrokerOutput) :
    Agrees (.fault s outs) (.fault b outs) := ⟨h, rfl, rfl⟩

theorem agrees_handleSubscribe (h : Represents s b) (topicStr : CString) (client : SockaddrIn) :
    Agrees (SlimMQ.handleSubscribe s topicStr client) (handleSubscribe A b topicStr client) := by
  obtain ⟨L, htree, hroot, hL⟩ := h.topics
  rw [← add_zero L.blocks] at hL
  rw [SlimMQ.handleSubscribe, handleSubscribe, ← htree, hroot]
  rcases rel_cases (TopicMemory.rel_subscribeTopic hL A topicStr client) with
    ⟨hs, hm⟩ | ⟨_, m', hs, hm, L', rfl, hself, h'⟩
  · rw [hs, hm]
    exact agrees_fault h []
  · rw [hs, hm]
    rw [add_zero] at h'
    exact ⟨⟨⟨L', rfl, congrArg some hself.symm, h'⟩, h.table⟩, rfl, rfl⟩

/-- **The messages of `publish_to_subscribers`**, and the blocks after it. -/
theorem rel_publishToSubscribers {L : Layout} {m : TopicArena γ} (h : m.Holds L.blocks)
    (A : Allocator γ) (header : SlimMsgHeader) (topicStr : CString) (payload : Mem)
    (payloadLength : ℕ) :
    Option.Rel (fun (outs : List BrokerOutput) (r : List BrokerOutput × TopicArena γ) =>
        r.1 = outs ∧ r.2.Holds L.blocks)
      (SlimMQ.publishToSubscribers L.tree header topicStr payload payloadLength)
      (publishToSubscribers A m (some L.self) header topicStr payload payloadLength) := by
  rw [← add_zero L.blocks] at h
  rw [SlimMQ.publishToSubscribers, publishToSubscribers]
  rcases rel_cases (TopicMemory.rel_getMatchingSubscribers h A topicStr) with
    ⟨hs, hm⟩ | ⟨r, ⟨list, m₁⟩, hs, hm, hstores⟩
  · rw [hs, hm]
    exact Option.Rel.none
  obtain ⟨m', hfree, h'⟩ := TopicMemory.holds_freeSubscriberList hstores
  obtain ⟨entries, he, h₁⟩ := hstores
  have htargets := TopicMemory.targets_eq h₁ (fun x hx => by simp [TopicMemory.listBlocks, hx])
    (Nat.lt_succ_of_le (TopicMemory.length_entries_le h₁))
  rw [hs, hm]
  simp only [TopicMemory.readList_listBlocks h₁, Option.bind_eq_bind, Option.bind_some, htargets,
    hfree, he]
  cases (entries.map Prod.snd).mapM (forwardTo header topicStr payload payloadLength) with
  | none => exact Option.Rel.none
  | some outs =>
    rw [add_zero] at h'
    exact Option.Rel.some ⟨rfl, h'⟩

theorem agrees_publishThen (h : Represents s b) (header : SlimMsgHeader) (topicStr : CString)
    (payload : Mem) (payloadLength : ℕ) (call : BrokerOutput) (rest : List BrokerOutput) :
    Agrees
      (SlimMQ.publishThen s call
        (SlimMQ.publishToSubscribers s.topicRoot header topicStr payload payloadLength) rest)
      (publishThen b call
        (publishToSubscribers A b.topics b.topicRoot header topicStr payload payloadLength) rest) := by
  obtain ⟨L, htree, hroot, hL⟩ := h.topics
  rw [← htree, hroot]
  rcases rel_cases (rel_publishToSubscribers hL A header topicStr payload payloadLength) with
    ⟨hs, hm⟩ | ⟨outs, ⟨outs', m'⟩, hs, hm, rfl, h'⟩
  · rw [hs, hm]
    exact agrees_fault h _
  · rw [hs, hm]
    exact ⟨⟨⟨L, htree, hroot, h'⟩, h.table⟩, rfl, rfl⟩

/-! ## The pending table -/

theorem get_eq (h : Represents s b) (k : PendingKey) (hf : ∀ i, (s.table i).length < fuel) :
    pendingMemoryGet fuel b.table k = some (pendingTableGet s.table k) := by
  obtain ⟨l, hl, he⟩ := h.table
  rw [← he]
  refine ChainMemory.get_spec hl k ?_
  have := hf (hashKey k)
  rw [← he] at this
  simpa [ChainMemory.entriesOf] using this

/-- An update with a free address for a new entry, or of an entry that is there. -/
theorem exists_update (h : Represents s b) (k : PendingKey) (state : Qos2State) (now : Int)
    (calloc : Option ℕ) (hf : ∀ i, (s.table i).length < fuel)
    (hfresh : ∀ p, calloc = some p → b.table.heap p = none)
    (hnew : pendingTableGet s.table k = none → calloc ≠ none) :
    ∃ table, pendingMemoryUpdate fuel b.table k state now calloc = some table ∧
      Represents { s with table := pendingTableUpdate s.table k state now }
        { b with table := table } := by
  obtain ⟨l, hl, he⟩ := h.table
  have hlen : (l (hashKey k)).length < fuel := by
    have := hf (hashKey k)
    rw [← he] at this
    simpa [ChainMemory.entriesOf] using this
  have hup := ChainMemory.update_spec hl k state now hlen hfresh
  rw [if_neg] at hup
  · obtain ⟨table, l', hm, hl', he'⟩ := hup
    refine ⟨table, hm, h.topics, l', hl', ?_⟩
    rw [he', he]
    rfl
  · rintro ⟨hnone, hcalloc⟩
    refine hnew ?_ hcalloc
    have hget : pendingTableGet s.table k =
        (ChainTable.lookup hashKey s.table k).map (·.state) := rfl
    rw [hget, ← he, Option.isNone_iff_eq_none.mp hnone]
    rfl

theorem agrees_handlePublish (h : Represents s b) (header : SlimMsgHeader) (topicStr : CString)
    (payload : Mem) (payloadLength : ℕ) (client : SockaddrIn) (now : Int) {calloc : ℕ}
    (hf : ∀ i, (s.table i).length < fuel) (hfresh : b.table.heap calloc = none) :
    Agrees (SlimMQ.handlePublish s header topicStr payload payloadLength client now)
      (handlePublish A fuel b header topicStr payload payloadLength client now calloc) := by
  unfold SlimMQ.handlePublish handlePublish
  dsimp only
  split_ifs with h2 h1
  -- exactly once: by the state of the handshake
  · rw [get_eq h _ hf]
    cases hget : pendingTableGet s.table (client, header.msgId) with
    | none =>
      obtain ⟨table, hup, h'⟩ := exists_update h (client, header.msgId) .received now
        (some calloc) hf (by rintro p ⟨⟩; exact hfresh) (fun _ => Option.some_ne_none _)
      simp only [hup]
      exact agrees_publishThen h' header topicStr payload payloadLength _ _
    | some state =>
      cases state with
      | completed => exact agrees_ok h []
      | _ => exact agrees_ok h _
  · exact agrees_publishThen h header topicStr payload payloadLength _ _
  · exact agrees_publishThen h header topicStr payload payloadLength _ _

/-- An update adds at most one entry to a chain. -/
theorem length_pendingTableUpdate (t : PendingTable) (k : PendingKey) (state : Qos2State)
    (now : Int) (i : Fin pendingTableSize) :
    (pendingTableUpdate t k state now i).length ≤ (t i).length + 1 := by
  have hlen := ChainMemory.length_onTable hashKey id (t, 0) (.call (.update k state now) (some 0)) i
  rw [MemoryCall.onTable, if_neg (by simp)] at hlen
  exact hlen

theorem agrees_handleControlRelease (h : Represents s b) (header : SlimMsgHeader)
    (client : SockaddrIn) (now₁ now₂ : Int) {calloc : ℕ}
    (hf : ∀ i, (s.table i).length + 1 < fuel) (hfresh : b.table.heap calloc = none) :
    Agrees (SlimMQ.handleControlRelease s header client now₁ now₂)
      (handleControlRelease fuel b header client now₁ now₂ calloc) := by
  obtain ⟨table₁, hup₁, h₁⟩ := exists_update h (client, header.msgId) .released now₁
    (some calloc) (fun i => Nat.lt_of_succ_lt (hf i)) (by rintro p ⟨⟩; exact hfresh)
    (fun _ => Option.some_ne_none _)
  -- the entry is there now
  obtain ⟨table₂, hup₂, h₂⟩ := exists_update h₁ (client, header.msgId) .completed now₂ none
    (fun i => (length_pendingTableUpdate s.table _ _ now₁ i).trans_lt (hf i))
    (by rintro p ⟨⟩) (fun hnone => by rw [pendingTableGet_update_self] at hnone; cases hnone)
  simp only [SlimMQ.handleControlRelease, handleControlRelease, hup₁, hup₂]
  exact ⟨h₂, rfl, rfl⟩

theorem agrees_handleControlReceived (h : Represents s b) (header : SlimMsgHeader)
    (client : SockaddrIn) (now : Int) (hf : ∀ i, (s.table i).length < fuel) :
    Agrees (SlimMQ.handleControlReceived s header client now)
      (handleControlReceived fuel b header client now) := by
  unfold SlimMQ.handleControlReceived handleControlReceived
  rw [get_eq h _ hf]
  dsimp only
  split_ifs with hget
  · obtain ⟨table, hup, h'⟩ := exists_update h (client, header.msgId) .waitRelease now
      none hf (by rintro p ⟨⟩) (fun hnone => by rw [hget] at hnone; cases hnone)
    simp only [hup]
    exact ⟨h', rfl, rfl⟩
  · exact agrees_ok h []

/-- **One iteration** in memory is the one on the tree and the lists. -/
theorem agrees_iteration (h : Represents s b) {r : MemoryReception}
    (hf : ∀ i, (s.table i).length + 1 < fuel) (hfresh : b.Fresh r) :
    Agrees (brokerIteration s r.toReception) (iteration A fuel b r) := by
  have hf' : ∀ i, (s.table i).length < fuel := fun i => Nat.lt_of_succ_lt (hf i)
  unfold brokerIteration iteration
  cases recvBytes r.datagram r.buffer bufferSize with
  | none => exact agrees_ok h []
  | some x =>
    obtain ⟨buffer, received⟩ := x
    dsimp only
    cases deserializeMessage buffer received (some r.topic) topicSize (some r.data) bufferSize with
    | error e => exact agrees_ok h []
    | ok d =>
      dsimp only
      split_ifs
      · exact agrees_handleSubscribe h _ _
      · exact agrees_handlePublish h _ _ _ _ _ _ hf' hfresh
      -- a control message, decoded a second time
      · unfold SlimMQ.handleControl handleControl
        cases deserializeControlMessage buffer received r.ctrlData bufferSize with
        | error e => exact agrees_ok h []
        | ok c =>
          dsimp only
          split_ifs
          · exact agrees_handleControlRelease h _ _ _ _ hf hfresh
          · exact agrees_handleControlReceived h _ _ _ hf'
          · exact agrees_ok h []
      · exact agrees_ok h []

/-! ## Runs -/

/-- A datagram adds at most two entries to a chain. -/
theorem length_table_brokerIteration (s : Broker) (r : Reception) (i : Fin pendingTableSize) :
    ((brokerIteration s r).state.table i).length ≤ (s.table i).length + 2 := by
  have hone := fun t k state now => length_pendingTableUpdate t k state now i
  have heffect := brokerIteration_effect s r
  generalize (brokerIteration s r).state.table = table at heffect ⊢
  generalize handshake (brokerIteration s r).outputs = outs at heffect
  cases heffect with
  | silent | forward | again => exact Nat.le_add_right _ _
  | first | received => exact (hone _ _ _ _).trans (Nat.le_succ _)
  | release => exact (hone _ _ _ _).trans (Nat.succ_le_succ (hone _ _ _ _))

theorem length_table_brokerMainLoop (s : Broker) (rs : List Reception) (i : Fin pendingTableSize) :
    ((brokerMainLoop s rs).state.table i).length ≤ (s.table i).length + 2 * rs.length := by
  induction rs generalizing s with
  | nil => exact Nat.le_add_right _ _
  | cons r rs ih =>
    have hone := length_table_brokerIteration s r i
    rw [List.length_cons]
    by_cases hr : (brokerIteration s r).running
    · rw [brokerMainLoop, run_cons_of_running hr]
      have hrest := ih (brokerIteration s r).state
      rw [brokerMainLoop] at hrest
      dsimp only
      omega
    · rw [brokerMainLoop, run, if_neg hr]
      omega

/-- **A run in memory** is the run on the tree and the lists. -/
theorem agrees_run {rs : List MemoryReception} (h : Represents s b)
    (hf : ∀ i, (s.table i).length + 2 * rs.length < fuel)
    (hc : Along (iteration A fuel) Fresh b rs) :
    Agrees (brokerMainLoop s (rs.map (·.toReception))) (run (iteration A fuel) b rs) := by
  induction rs generalizing s b with
  | nil => exact agrees_ok h []
  | cons r rs ih =>
    obtain ⟨hfresh, hrest⟩ := along_cons.mp hc
    have hlen : ∀ i, (s.table i).length + 1 < fuel := by
      intro i
      have := hf i
      rw [List.length_cons] at this
      omega
    obtain ⟨h₁, houts, hrun⟩ := agrees_iteration (A := A) h hlen hfresh
    by_cases hr : (iteration A fuel b r).running
    -- there is one datagram less to come
    · have hf₁ : ∀ i, ((brokerIteration s r.toReception).state.table i).length + 2 * rs.length <
          fuel := by
        intro i
        have hi := hf i
        have hone := length_table_brokerIteration s r.toReception i
        rw [List.length_cons] at hi
        omega
      obtain ⟨h₂, houts', hrun'⟩ := ih h₁ hf₁ (hrest hr)
      rw [brokerMainLoop, List.map_cons, run_cons_of_running (hrun ▸ hr),
        run_cons_of_running hr]
      exact ⟨h₂, by rw [houts, houts']; rfl, hrun'⟩
    · have hr' : ¬ (brokerIteration s r.toReception).running := hrun ▸ hr
      simp only [brokerMainLoop, List.map_cons, run, hr, hr']
      exact ⟨h₁, houts, hrun⟩

/-- The tables that `main` sets up. -/
theorem represents_init (A : Allocator γ) (g : γ) :
    ∃ b, init A g = some b ∧ Represents brokerInit b := by
  obtain ⟨root, text, m, hnew, hm⟩ :=
    TopicMemory.holds_newNode (Arena.holds_empty g) A CString.empty
  rw [add_zero] at hm
  refine ⟨⟨m, some root, .empty⟩, ?_, ⟨_, rfl, rfl, hm⟩, _, ChainMemory.owns_empty, rfl⟩
  rw [init, TopicMemory.initTopicTable, hnew]
  rfl

/-- **The end of `main`** gives back every block. -/
theorem Represents.destroy (h : Represents s b) (hf : ∀ i, (s.table i).length < fuel) :
    ∃ topics table, b.destroy fuel = some (topics, table) ∧
      (∀ p, topics.heap p = none) ∧ ∀ p, table.heap p = none := by
  obtain ⟨L, -, hroot, hL⟩ := h.topics
  obtain ⟨l, hl, he⟩ := h.table
  have hcard : L.blocks.card ≤ b.topics.live.card + 1 := by
    rw [hL.card_live]
    exact Nat.le_succ _
  rw [← add_zero L.blocks] at hL
  obtain ⟨topics, hfree, htopics⟩ := TopicMemory.holds_freeTopicNode hL hcard
  have hlen : ∀ i, (l i).length < fuel := by
    intro i
    have := hf i
    rw [← he] at this
    simpa [ChainMemory.entriesOf] using this
  obtain ⟨table, hdestroy, htable⟩ := ChainMemory.destroy_spec hl hlen
  refine ⟨topics, table, ?_, htopics.heap_eq_none, fun p => ?_⟩
  · simp only [BrokerMemory.destroy, TopicMemory.freeTopicTable, hroot, hfree, pendingMemoryDestroy,
      hdestroy, Option.bind_eq_bind, Option.bind_some]
  · rw [← Option.not_isSome_iff_eq_none, htable.isSome_iff]
    simp [ChainMemory.addresses]

end BrokerMemory

/-- **The broker in memory.** With every allocator, a run of the broker on its blocks has the outputs
of the run on the tree and the lists, and ends at the same datagram, if it does. After it, the blocks
in use are as many as the tree of topics needs and one for each handshake on record, and the end of
`main` gives back every one of them. -/
theorem brokerMainLoop_in_memory {γ : Type} {A : Allocator γ} {g : γ} {b : BrokerMemory γ}
    {fuel : ℕ} {rs : List MemoryReception} (hb : BrokerMemory.init A g = some b)
    (hf : 2 * rs.length < fuel) (hc : Along (BrokerMemory.iteration A fuel) BrokerMemory.Fresh b rs) :
    let mem := run (BrokerMemory.iteration A fuel) b rs
    let spec := brokerMainLoop brokerInit (rs.map (·.toReception))
    mem.outputs = spec.outputs ∧ mem.running = spec.running ∧
      mem.state.topics.live.card = spec.state.topicRoot.blockCount ∧
      (∃ nodes : List ℕ, nodes.Nodup ∧ (∀ p, (mem.state.table.heap p).isSome ↔ p ∈ nodes) ∧
        nodes.length = (ChainTable.keys spec.state.table).length) ∧
      ∃ topics table, mem.state.destroy fuel = some (topics, table) ∧
        (∀ p, topics.heap p = none) ∧ ∀ p, table.heap p = none := by
  intro mem spec
  obtain ⟨b', hb', hinit⟩ := BrokerMemory.represents_init A g
  obtain rfl : b = b' := Option.some.inj (hb.symm.trans hb')
  obtain ⟨hrep, houts, hrun⟩ := BrokerMemory.agrees_run hinit
    (by simpa [brokerInit, pendingTableInit] using hf) hc
  refine ⟨houts, hrun, ?_, ?_, hrep.destroy ?_⟩
  · obtain ⟨L, htree, -, hL⟩ := hrep.topics
    rw [hL.card_live, L.card_blocks, htree]
  · obtain ⟨l, hl, he⟩ := hrep.table
    have hstands : ChainMemory.Stands mem.state.table (ChainMemory.entriesOf l, 0) :=
      ⟨l, [], hl, rfl⟩
    obtain ⟨nodes, hnodup, hmem, hlen⟩ := hstands.exists_nodes
    refine ⟨nodes, hnodup, hmem, ?_⟩
    rw [hlen, Nat.zero_add, he]
  · intro i
    refine (BrokerMemory.length_table_brokerMainLoop _ _ i).trans_lt ?_
    simpa [brokerInit, pendingTableInit] using hf

/-- A client releases a message, and the entry of the handshake is put at the address 4. -/
def releaseReception : MemoryReception :=
  ⟨receptionOf ⟨2, 0, 0, 0⟩ (controlBytes (controlHeader 1) controlRelease), 4⟩

/-- The broker answers, and all its blocks are given back at the end. -/
theorem brokerMainLoop_in_memory_release :
    ∃ b, BrokerMemory.init firstFit () = some b ∧
      let mem := run (BrokerMemory.iteration firstFit 3) b [releaseReception]
      mem.outputs.length = 1 ∧ ∃ topics table, mem.state.destroy 3 = some (topics, table) ∧
        (∀ p, topics.heap p = none) ∧ ∀ p, table.heap p = none := by
  obtain ⟨b, hb, -⟩ := BrokerMemory.represents_init firstFit ()
  have hfresh : b.Fresh releaseReception := by
    obtain ⟨r, -, hr⟩ := Option.bind_eq_some_iff.mp hb
    obtain rfl := Option.some.inj hr
    rfl
  have hc : Along (BrokerMemory.iteration firstFit 3) BrokerMemory.Fresh b [releaseReception] :=
    along_cons.mpr ⟨hfresh, fun _ => fun xs x hp => by simp at hp⟩
  obtain ⟨houts, -, -, -, hdestroy⟩ := brokerMainLoop_in_memory hb (by decide) hc
  refine ⟨b, hb, ?_, hdestroy⟩
  rw [houts]
  decide +kernel

end SlimMQ
