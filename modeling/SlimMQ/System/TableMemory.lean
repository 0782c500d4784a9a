import SlimMQ.Library.ChainMemory
import SlimMQ.System.Tables

/-!
# The two QoS 2 tables in memory

`pending_table.c` and `qos2_table.c` on the nodes in memory, with their init and destroy functions.
What the functions do to the nodes is what the tables of lists say, and nothing but a failed
`calloc` ends the process. Each entry has one node; `free` is called for the node of every entry
that leaves the table, but not by the init functions, which overwrite the heads. The broker calls
`pending_table_init` once, before its loop. The client calls `qos2_table_init` whenever its QoS
level is set to exactly once, and so loses the entries of handshakes that have not been removed.

## Main definitions

* `pendingMemoryStep`, `qos2MemoryStep`: a call on the nodes of a table
* `pendingTableCall`, `qos2TableCall`: the call on the table of lists

## Main results

* `qos2Tables_in_memory`: every sequence of calls on the nodes is one on the tables of lists
* `qos2Table_freed_iff`: when a destroyed table leaves no node behind
-/

namespace SlimMQ

open EventLoop LinkedList

/-! ## The broker's table -/

/-- `table` of `pending_table.c`, with the nodes. -/
abbrev PendingMemory := ChainMemory pendingTableSize PendingKey Qos2State

/-- `pending_table_init`, on the nodes. -/
def pendingMemoryInit (m : PendingMemory) : PendingMemory := m.init

/-- `pending_table_destroy`, on the nodes. -/
def pendingMemoryDestroy (fuel : ℕ) (m : PendingMemory) : Option PendingMemory := m.destroy fuel

/-- `pending_table_update`, on the nodes. -/
def pendingMemoryUpdate (fuel : ℕ) (m : PendingMemory) (k : PendingKey) (state : Qos2State)
    (now : Int) (calloc : Option ℕ) : Option PendingMemory :=
  ChainMemory.update hashKey fuel m k state now calloc

/-- `pending_table_get`, on the nodes. -/
def pendingMemoryGet (fuel : ℕ) (m : PendingMemory) (k : PendingKey) : Option (Option Qos2State) :=
  ChainMemory.get hashKey fuel m k

/-- `pending_table_remove`, on the nodes. -/
def pendingMemoryRemove (fuel : ℕ) (m : PendingMemory) (k : PendingKey) : Option PendingMemory :=
  ChainMemory.remove hashKey fuel m k

/-- `pending_table_cleanup_expired`, on the nodes. -/
def pendingMemoryCleanupExpired (fuel : ℕ) (m : PendingMemory) (now expirationSec : Int) :
    Option PendingMemory :=
  m.cleanup fuel now expirationSec

/-- A call of a function of `pending_table.c`, on the nodes. -/
def pendingMemoryStep (fuel : ℕ) (m : PendingMemory) :
    MemoryCall PendingKey Qos2State → Result PendingMemory (Option Qos2State)
  | .init => .ok (pendingMemoryInit m) []
  | .destroy => m.result [] (pendingMemoryDestroy fuel m)
  | .call (.update k state now) calloc =>
    m.result [] (pendingMemoryUpdate fuel m k state now calloc)
  | .call (.get k) _ =>
    match pendingMemoryGet fuel m k with
    | none => .fault m []
    | some state => .ok m [state]
  | .call (.remove k) _ => m.result [] (pendingMemoryRemove fuel m k)
  | .call (.cleanup now expirationSec) _ =>
    m.result [] (pendingMemoryCleanupExpired fuel m now expirationSec)

/-- A call of a function of `pending_table.c` on the table of lists, with the number of nodes that
are lost. -/
def pendingTableCall (t : PendingTable × ℕ) :
    MemoryCall PendingKey Qos2State → Result (PendingTable × ℕ) (Option Qos2State)
  | .init => .ok (pendingTableInit, t.2 + (ChainTable.keys t.1).length) []
  | .destroy => .ok (pendingTableInit, t.2) []
  | .call c calloc =>
    if TableCall.allocates hashKey t.1 c ∧ calloc = none then .fault t []
    else (pendingTableStep t.1 c).mapState (·, t.2)

theorem pendingMemoryStep_eq (fuel : ℕ) :
    pendingMemoryStep fuel = ChainMemory.step hashKey id fuel := by
  funext m c
  cases c with
  | call c calloc =>
    cases c with
    | get k =>
      simp only [pendingMemoryStep, pendingMemoryGet, ChainMemory.step]
      cases ChainMemory.get hashKey fuel m k <;> rfl
    | _ => rfl
  | _ => rfl

theorem pendingTableCall_eq : pendingTableCall = MemoryCall.onTable hashKey id := by
  funext t c
  cases c with
  | call c calloc => rw [pendingTableCall, pendingTableStep_eq, MemoryCall.onTable]
  | _ => rfl

/-! ## The client's table -/

/-- `table` of `qos2_table.c`, with the nodes. -/
abbrev Qos2Memory := ChainMemory qos2TableSize UInt32 Qos2ClientState

/-- `qos2_table_init`, on the nodes. -/
def qos2MemoryInit (m : Qos2Memory) : Qos2Memory := m.init

/-- `qos2_table_destroy`, on the nodes. -/
def qos2MemoryDestroy (fuel : ℕ) (m : Qos2Memory) : Option Qos2Memory := m.destroy fuel

/-- `qos2_table_set`, on the nodes. -/
def qos2MemorySet (fuel : ℕ) (m : Qos2Memory) (msgId : UInt32) (state : Qos2ClientState)
    (now : Int) (calloc : Option ℕ) : Option Qos2Memory :=
  ChainMemory.update hashMsgId fuel m msgId state now calloc

/-- `qos2_table_get_state`, on the nodes. -/
def qos2MemoryGetState (fuel : ℕ) (m : Qos2Memory) (msgId : UInt32) : Option Qos2ClientState :=
  (ChainMemory.get hashMsgId fuel m msgId).map fun state => state.getD .none

/-- `qos2_table_remove`, on the nodes. -/
def qos2MemoryRemove (fuel : ℕ) (m : Qos2Memory) (msgId : UInt32) : Option Qos2Memory :=
  ChainMemory.remove hashMsgId fuel m msgId

/-- `qos2_table_cleanup_expired`, on the nodes. -/
def qos2MemoryCleanupExpired (fuel : ℕ) (m : Qos2Memory) (now expirationSec : Int) :
    Option Qos2Memory :=
  m.cleanup fuel now expirationSec

/-- A call of a function of `qos2_table.c`, on the nodes. -/
def qos2MemoryStep (fuel : ℕ) (m : Qos2Memory) :
    MemoryCall UInt32 Qos2ClientState → Result Qos2Memory Qos2ClientState
  | .init => .ok (qos2MemoryInit m) []
  | .destroy => m.result [] (qos2MemoryDestroy fuel m)
  | .call (.update msgId state now) calloc =>
    m.result [] (qos2MemorySet fuel m msgId state now calloc)
  | .call (.get msgId) _ =>
    match qos2MemoryGetState fuel m msgId with
    | none => .fault m []
    | some state => .ok m [state]
  | .call (.remove msgId) _ => m.result [] (qos2MemoryRemove fuel m msgId)
  | .call (.cleanup now expirationSec) _ =>
    m.result [] (qos2MemoryCleanupExpired fuel m now expirationSec)

/-- A call of a function of `qos2_table.c` on the table of lists, with the number of nodes that are
lost. -/
def qos2TableCall (t : Qos2Table × ℕ) :
    MemoryCall UInt32 Qos2ClientState → Result (Qos2Table × ℕ) Qos2ClientState
  | .init => .ok (qos2TableInit, t.2 + (ChainTable.keys t.1).length) []
  | .destroy => .ok (qos2TableDestroy, t.2) []
  | .call c calloc =>
    if TableCall.allocates hashMsgId t.1 c ∧ calloc = none then .fault t []
    else (qos2TableStep t.1 c).mapState (·, t.2)

theorem qos2MemoryStep_eq (fuel : ℕ) :
    qos2MemoryStep fuel = ChainMemory.step hashMsgId (fun state => state.getD .none) fuel := by
  funext m c
  cases c with
  | call c calloc =>
    cases c with
    | get msgId =>
      simp only [qos2MemoryStep, qos2MemoryGetState, ChainMemory.step]
      cases ChainMemory.get hashMsgId fuel m msgId <;> rfl
    | _ => rfl
  | _ => rfl

theorem qos2TableCall_eq :
    qos2TableCall = MemoryCall.onTable hashMsgId fun state => state.getD .none := by
  funext t c
  cases c with
  | call c calloc => rw [qos2TableCall, qos2TableStep_eq, MemoryCall.onTable]
  | _ => rfl

/-! ## Sequences of calls -/

theorem qos2Memory_stands {calls : List (MemoryCall UInt32 Qos2ClientState)} {fuel : ℕ}
    (hf : calls.length < fuel)
    (hc : Along (qos2MemoryStep fuel) ChainMemory.Fresh .empty calls) :
    (run (qos2MemoryStep fuel) .empty calls).state.Stands
        (run qos2TableCall (qos2TableInit, 0) calls).state ∧
      (run (qos2MemoryStep fuel) .empty calls).outputs =
        (run qos2TableCall (qos2TableInit, 0) calls).outputs ∧
      (run (qos2MemoryStep fuel) .empty calls).running =
        (run qos2TableCall (qos2TableInit, 0) calls).running := by
  have hlen : ∀ i, (qos2TableInit i).length + calls.length < fuel := by
    simpa [qos2TableInit] using hf
  rw [qos2MemoryStep_eq] at hc ⊢
  rw [qos2TableCall_eq]
  exact ChainMemory.run_refines ChainMemory.stands_empty hlen hc

/-- **On the nodes, both tables are what the tables of lists say**: along every sequence of calls in
which `calloc` returns null or a free address, the answers are the same, the process ends at the
same call, if it does, and every chain holds the entries of its bucket in their order, with one
allocated node for each entry and each lost one. -/
theorem qos2Tables_in_memory :
    (∀ (calls : List (MemoryCall PendingKey Qos2State)) (fuel : ℕ), calls.length < fuel →
      Along (pendingMemoryStep fuel) ChainMemory.Fresh .empty calls →
      let mem := run (pendingMemoryStep fuel) .empty calls
      let tab := run pendingTableCall (pendingTableInit, 0) calls
      mem.state.Stands tab.state ∧ mem.outputs = tab.outputs ∧ mem.running = tab.running) ∧
    ∀ (calls : List (MemoryCall UInt32 Qos2ClientState)) (fuel : ℕ), calls.length < fuel →
      Along (qos2MemoryStep fuel) ChainMemory.Fresh .empty calls →
      let mem := run (qos2MemoryStep fuel) .empty calls
      let tab := run qos2TableCall (qos2TableInit, 0) calls
      mem.state.Stands tab.state ∧ mem.outputs = tab.outputs ∧ mem.running = tab.running := by
  constructor
  · intro calls fuel hf hc
    have hlen : ∀ i, (pendingTableInit i).length + calls.length < fuel := by
      simpa [pendingTableInit] using hf
    rw [pendingMemoryStep_eq] at hc ⊢
    rw [pendingTableCall_eq]
    exact ChainMemory.run_refines ChainMemory.stands_empty hlen hc
  · intro calls fuel hf hc
    exact qos2Memory_stands hf hc

/-- In both tables an entry is made, written again, and unlinked behind or before another one of its
bucket. -/
theorem qos2Tables_in_memory_calls :
    (let calls := [.call (.update (⟨2, 0, 0, 0⟩, 1) .received 0) (some 4),
        .call (.update (⟨2, 0, 0, 0⟩, 1) .completed 1) none,
        .call (.update (⟨2, 0, 0, 0⟩, 1025) .received 1) (some 5),
        .call (.remove (⟨2, 0, 0, 0⟩, 1)) none, .call (.get (⟨2, 0, 0, 0⟩, 1025)) none]
      let mem := run (pendingMemoryStep 6) .empty calls
      let tab := run pendingTableCall (pendingTableInit, 0) calls
      mem.state.Stands tab.state ∧ mem.outputs = tab.outputs ∧ mem.running = tab.running) ∧
    let calls := [.call (.update 1 .waitComplete 0) (some 4), .call (.update 1 .completed 1) none,
      .call (.update 257 .waitComplete 1) (some 5), .call (.remove 257) none, .call (.get 1) none]
    let mem := run (qos2MemoryStep 6) .empty calls
    let tab := run qos2TableCall (qos2TableInit, 0) calls
    mem.state.Stands tab.state ∧ mem.outputs = tab.outputs ∧ mem.running = tab.running :=
  ⟨qos2Tables_in_memory.1 _ 6 (by decide) (by decide +kernel),
    qos2Tables_in_memory.2 _ 6 (by decide) (by decide +kernel)⟩

/-- **A destroyed table leaves no node behind exactly when `qos2_table_init` has been called on an
empty table only.** -/
theorem qos2Table_freed_iff {calls : List (MemoryCall UInt32 Qos2ClientState)} {fuel : ℕ}
    (hf : calls.length + 1 < fuel)
    (hc : Along (qos2MemoryStep fuel) ChainMemory.Fresh .empty (calls ++ [.destroy]))
    (hr : (run (qos2MemoryStep fuel) .empty calls).running) :
    (∀ p, (run (qos2MemoryStep fuel) .empty (calls ++ [.destroy])).state.heap p = none) ↔
      Along qos2TableCall ChainMemory.LosesNone (qos2TableInit, 0) calls := by
  obtain ⟨hstands, -, -⟩ := qos2Memory_stands (by simpa using hf) hc
  have hr' : (run qos2TableCall (qos2TableInit, 0) calls).running := by
    have hpre := hc.of_prefix (List.prefix_append calls [.destroy])
    obtain ⟨-, -, hrun⟩ := qos2Memory_stands (Nat.lt_of_succ_lt hf) hpre
    rwa [← hrun]
  obtain ⟨nodes, -, hmem, hlen⟩ := hstands.exists_nodes
  -- the nodes that are left are the lost ones
  have hlost : nodes.length = (run qos2TableCall (qos2TableInit, 0) calls).state.2 := by
    have hkeys : ChainTable.keys qos2TableDestroy = [] := (ChainMemory.keys_eq_nil_iff _).mpr rfl
    rw [hlen, run_snoc _ _ _ hr']
    change _ + (ChainTable.keys qos2TableDestroy).length = _
    rw [hkeys]
    rfl
  have hnil : (∀ p, (run (qos2MemoryStep fuel) .empty (calls ++ [.destroy])).state.heap p = none) ↔
      nodes = [] := by
    rw [List.eq_nil_iff_forall_not_mem]
    refine forall_congr' fun p => ?_
    rw [← hmem p, Option.not_isSome_iff_eq_none]
  rw [hnil, ← List.length_eq_zero_iff, hlost, qos2TableCall_eq]
  exact ChainMemory.lost_eq_zero_iff _ _ calls

/-- A table with one entry is overwritten, and its node is left. -/
theorem qos2Table_freed_iff_overwritten :
    ¬ ∀ p, (run (qos2MemoryStep 4) .empty
      ([.call (.update 1 .waitComplete 0) (some 4), .init] ++ [.destroy])).state.heap p = none := by
  apply (qos2Table_freed_iff (by decide) (by decide +kernel) (by decide +kernel)).not.mpr
  intro hall
  -- at the second call, the bucket of the message has an entry
  have hnil : (run qos2TableCall (qos2TableInit, 0)
      [.call (.update 1 .waitComplete 0) (some 4)]).state.1 = fun _ => [] :=
    hall _ .init (List.prefix_refl _) (by decide +kernel)
  have hone : ((run qos2TableCall (qos2TableInit, 0)
      [.call (.update 1 .waitComplete 0) (some 4)]).state.1 (hashMsgId 1)).length = 1 := by
    decide +kernel
  rw [hnil] at hone
  cases hone

end SlimMQ
