import SlimMQ.Client.Acknowledgements

/-!
# Clients of one process

A process may hold any number of clients. Each has its own socket, message ids and event queue, but
they share the table of `qos2_table.c`, which is keyed by the message id alone, and every client
counts its ids from 1. So a control message that one client's listener gets is what a call of
another one looks for, and a client that chooses QoS 2 or is closed clears the states of all.

## Main definitions

* `Process`, `ProcessEvent`: a process with its clients, and what happens in it
* `Session.written`: the state that a step of a client writes for a message
* `ClientsApart`: no client answers for another

## Main results

* `Session.next_table`: what every step of a client does to the shared table
* `clientsApart_iff`: the clients stay apart exactly when none writes another state for a message
  that another one is publishing
-/

namespace SlimMQ

open Buffer EventLoop

/-! ## What a step writes -/

/-- The state that the listener records for a message when it gets a datagram. -/
def ClientReception.written (r : ClientReception) (id : UInt32) : Option Qos2ClientState :=
  if r.header.msgId ≠ id then none
  else if r.Controls ctrlDataSize controlReceived then some .waitComplete
  else if r.Controls ctrlDataSize controlComplete then some .completed
  else none

/-- The state that the next step of a call leaves for a message that it removes. -/
def PublishRun.written (run : PublishRun) (id : UInt32) : Option Qos2ClientState :=
  match run.pc with
  | .removeCompleted => if run.msg.header.msgId ≠ id then none else some .none
  | _ => none

/-- **The state that a step of a client writes** for a message, whatever the table held; nothing
if the step leaves the message's entry. -/
def Session.written (p : Session) (id : UInt32) : SessionEvent → Option Qos2ClientState
  | .receive r => r.written id
  | .advance _ => p.call.bind (·.written id)
  | .setQos qosLevel => if qosLevel = qosExactlyOnce then some .none else none
  | _ => none

variable {s : ClientState} {p p' : Session} {x : SessionEvent}

/-- What the listener leaves in the table. -/
theorem listenerStep_table (s : ClientState) (r : ClientReception) :
    (r.Controls ctrlDataSize controlReceived ∧ (listenerStep s r).table =
        qos2TableSet s.table r.header.msgId .waitComplete r.now) ∨
      (r.Controls ctrlDataSize controlComplete ∧ (listenerStep s r).table =
        qos2TableSet s.table r.header.msgId .completed r.now) ∨
      (¬ r.Controls ctrlDataSize controlReceived ∧ ¬ r.Controls ctrlDataSize controlComplete ∧
        (listenerStep s r).table = s.table) := by
  by_cases hr : r.Controls ctrlDataSize controlReceived
  · refine Or.inl ⟨hr, ?_⟩
    rw [listenerStep_of_controls hr, if_pos rfl]
  by_cases hc : r.Controls ctrlDataSize controlComplete
  · refine Or.inr (Or.inl ⟨hc, ?_⟩)
    rw [listenerStep_of_controls hc, if_neg (by decide), if_pos rfl]
  refine Or.inr (Or.inr ⟨hr, hc, ?_⟩)
  have hheard := listenerStep_heard s r
  generalize listenerStep s r = s' at hheard ⊢
  cases hheard with
  | received h => exact absurd h hr
  | complete h => exact absurd h hc
  | _ => rfl

/-- A datagram is a control message of one type only. -/
theorem Received.Controls.type_eq {r : Received} {n : ℕ} {c c' : ControlType} (h : r.Controls n c)
    (h' : r.Controls n c') : c = c' :=
  h.2.2.symm.trans h'.2.2

theorem getState_listenerStep (s : ClientState) (r : ClientReception) (id : UInt32) :
    qos2TableGetState (listenerStep s r).table id =
      (r.written id).getD (qos2TableGetState s.table id) := by
  unfold ClientReception.written
  rcases listenerStep_table s r with ⟨h, ht⟩ | ⟨h, ht⟩ | ⟨hr, hc, ht⟩
  · rw [ht, qos2TableGetState_set, if_pos h]
    by_cases hid : r.header.msgId = id
    · simp [hid]
    · simp [hid, Ne.symm hid]
  -- a COMPLETE is not a RECEIVED
  · have hr : ¬ r.Controls ctrlDataSize controlReceived := fun h' => by
      cases h.type_eq h'
    rw [ht, qos2TableGetState_set, if_neg hr, if_pos h]
    by_cases hid : r.header.msgId = id
    · simp [hid]
    · simp [hid, Ne.symm hid]
  · simp [ht, hr, hc]

theorem valid_listenerStep (h : ChainTable.Valid hashMsgId s.table) (r : ClientReception) :
    ChainTable.Valid hashMsgId (listenerStep s r).table := by
  rcases listenerStep_table s r with ⟨-, ht⟩ | ⟨-, ht⟩ | ⟨-, -, ht⟩
  · rw [ht]
    exact h.update _ _ _
  · rw [ht]
    exact h.update _ _ _
  · rw [ht]
    exact h

/-- A step of a publishing call touches the table only when it removes its message. -/
theorem publishStep_table (s : ClientState) (run : PublishRun) (ok : Bool) :
    (run.pc ≠ .removeCompleted ∧ (publishStep s run ok).state.table = s.table) ∨
      run.pc = .removeCompleted ∧
        (publishStep s run ok).state.table = qos2TableRemove s.table run.msg.header.msgId := by
  have h := publishStep_advance s run ok
  cases hpc : run.pc with
  | removeCompleted =>
    refine Or.inr ⟨rfl, ?_⟩
    simp only [publishStep, hpc]
  | _ =>
    refine Or.inl ⟨by simp, ?_⟩
    generalize publishStep s run ok = res at h
    cases h with
    | done hpc' =>
      rw [hpc] at hpc'
      cases hpc'
    | _ => rfl

/-- Elsewhere a step of a call writes nothing. -/
theorem PublishRun.written_of_ne {run : PublishRun} (h : run.pc ≠ .removeCompleted) (id : UInt32) :
    run.written id = none := by
  unfold PublishRun.written
  split
  · exact absurd ‹_› h
  · rfl

theorem getState_publishStep (h : ChainTable.Valid hashMsgId s.table) (run : PublishRun) (ok : Bool)
    (id : UInt32) :
    qos2TableGetState (publishStep s run ok).state.table id =
      (run.written id).getD (qos2TableGetState s.table id) := by
  rcases publishStep_table s run ok with ⟨hpc, ht⟩ | ⟨hpc, ht⟩
  · rw [ht, PublishRun.written_of_ne hpc, Option.getD_none]
  · rw [ht, qos2TableGetState_remove h, PublishRun.written, hpc]
    by_cases hid : run.msg.header.msgId = id
    · simp [hid]
    · simp [hid, Ne.symm hid]

/-- **What every step of a client does to the QoS 2 table**: it stays valid, and each message has
the state that the step writes for it, or the one it had. -/
theorem Session.next_table (h : ChainTable.Valid hashMsgId p.state.table)
    (hs : p.next x = some p') :
    ChainTable.Valid hashMsgId p'.state.table ∧ ∀ id, qos2TableGetState p'.state.table id =
      (p.written id x).getD (qos2TableGetState p.state.table id) := by
  obtain ⟨ds, hstep⟩ := Session.next_stepped hs
  cases hstep with
  | @receive r hr => exact ⟨valid_listenerStep h r, getState_listenerStep p.state r⟩
  | @advance ok run hc =>
    refine ⟨?_, fun id => ?_⟩
    · rcases publishStep_table p.state run ok with ⟨-, ht⟩ | ⟨-, ht⟩
      · simp only [Session.afterStep, ht]
        exact h
      · simp only [Session.afterStep, ht]
        exact h.remove _
    · simp only [Session.afterStep, Session.written, hc, Option.bind_some]
      exact getState_publishStep h run ok id
  | setQos =>
    simp only [slimmqSetQos, Session.written]
    split_ifs
    -- the table is cleared
    · exact ⟨ChainTable.valid_empty hashMsgId, fun _ => rfl⟩
    · exact ⟨h, fun _ => rfl⟩
  | nextEvent hnext =>
    obtain ⟨q, rfl⟩ := slimmqNextEvent_state hnext
    exact ⟨h, fun _ => rfl⟩
  -- the other calls leave the table alone
  | _ => exact ⟨h, fun _ => rfl⟩

/-- Only a CONTROL_COMPLETE of the message makes its state completed. -/
theorem Session.written_completed {id : UInt32} (h : p.written id x = some .completed) :
    ∃ r, x = .receive r ∧ r.Controls ctrlDataSize controlComplete ∧ r.header.msgId = id := by
  cases x with
  | receive r =>
    simp only [Session.written, ClientReception.written] at h
    split_ifs at h with hid hr hc
    · cases h
    · exact ⟨r, rfl, hc, not_not.mp hid⟩
  | advance ok =>
    obtain ⟨run, -, hw⟩ := Option.bind_eq_some_iff.mp h
    unfold PublishRun.written at hw
    split at hw
    · split_ifs at hw
      cases hw
    · cases hw
  | setQos qosLevel =>
    simp only [Session.written] at h
    split_ifs at h
    cases h
  | _ => cases h

/-- **What a step does to the publishing call**: nothing, or a new one starts, or it advances. -/
theorem Session.next_call (hs : p.next x = some p') :
    p'.call = p.call ∨ (p.call = none ∧ ∀ run ∈ p'.call, run.pc = .loop) ∨
      ∃ ok run, x = .advance ok ∧ p.call = some run ∧
        p'.call = (publishStep p.state run ok).call.getLeft? := by
  obtain ⟨ds, hstep⟩ := Session.next_stepped hs
  cases hstep with
  | publish hc hstart =>
    refine Or.inr (Or.inl ⟨hc, fun run hrun => ?_⟩)
    rcases publishStart_cases hstart with ⟨-, -, rfl⟩ | ⟨-, -, rfl | ⟨run', rfl, hpc, -⟩⟩
    · cases hrun
    · cases hrun
    · obtain rfl : run' = run := by simpa [Session.afterStart] using hrun
      exact hpc
  | @advance ok run hc => exact Or.inr (Or.inr ⟨ok, run, rfl, hc, rfl⟩)
  | _ => exact Or.inl rfl

/-- A call polls for CONTROL_COMPLETE only after it has sent CONTROL_RELEASE. -/
theorem pollComplete_of_publishStep {run run' : PublishRun} {ok : Bool} {i : Int}
    (h : (publishStep s run ok).call = .inl run') (hpc : run'.pc = .pollComplete i) :
    run.pc = .sendRelease ∨ ∃ j, run.pc = .pollComplete j := by
  cases hrun : run.pc with
  | sendRelease => exact Or.inl rfl
  | pollComplete j => exact Or.inr ⟨j, rfl⟩
  | loop =>
    simp only [publishStep, hrun] at h
    split_ifs at h <;> obtain rfl := Sum.inl.inj h <;> simp_all
  | removeCompleted =>
    simp only [publishStep, hrun] at h
    cases h
  | _ =>
    simp only [publishStep, hrun] at h
    split_ifs at h <;> (obtain rfl := Sum.inl.inj h; cases hpc)

/-- The facts `C` about messages bear out how far a call has got: what it has found or would find
completed is in `C`. -/
structure PublishRun.Answered (C : UInt32 → Prop) (t : Qos2Table) (run : PublishRun) : Prop where
  atQos : run.AtQos
  released : (run.pc = .sendRelease ∨ ∃ i, run.pc = .pollComplete i) →
    qos2TableGetState t run.msg.header.msgId = .completed → C run.msg.header.msgId
  completed : run.pc = .removeCompleted → C run.msg.header.msgId

section Answered

variable {C C' : UInt32 → Prop} {t t' : Qos2Table} {run : PublishRun}

theorem PublishRun.answered_of_loop (h : run.pc = .loop) : run.Answered C t := by
  refine ⟨fun q hq => ?_, fun hpc => ?_, fun hpc => ?_⟩
  · rw [h] at hq
    cases hq
  · rw [h] at hpc
    rcases hpc with hpc | ⟨i, hpc⟩ <;> cases hpc
  · rw [h] at hpc
    cases hpc

/-- The facts may grow, and the table may change, if what it makes completed is among them. -/
theorem PublishRun.Answered.mono (h : run.Answered C t) (hC : ∀ id, C id → C' id)
    (ht : run.msg.header.qosLevel = qosExactlyOnce →
      qos2TableGetState t' run.msg.header.msgId = .completed →
      qos2TableGetState t run.msg.header.msgId = .completed ∨ C' run.msg.header.msgId) :
    run.Answered C' t' := by
  refine ⟨h.atQos, fun hpc hg => ?_, fun hpc => hC _ (h.completed hpc)⟩
  have hq : run.msg.header.qosLevel = qosExactlyOnce := by
    rcases hpc with hpc | ⟨i, hpc⟩ <;> exact h.atQos _ (by rw [hpc]; rfl)
  rcases ht hq hg with hg | hc
  · exact hC _ (h.released hpc hg)
  · exact hc

/-- A step of the call keeps them. -/
theorem PublishRun.Answered.publishStep {run' : PublishRun} {ok : Bool}
    (h : run.Answered C s.table) (hr : (publishStep s run ok).call = .inl run') :
    run'.Answered C (SlimMQ.publishStep s run ok).state.table := by
  have hadv := publishStep_advance s run ok
  have hpoll := fun i => pollComplete_of_publishStep (i := i) hr
  have hat := hadv.atQos h.atQos hr
  generalize SlimMQ.publishStep s run ok = res at hadv hr ⊢
  cases hadv with
  | wait hs hm hq hrel hrem =>
    obtain rfl := Sum.inl.inj hr
    refine ⟨hat, fun hpc hg => ?_, fun hpc => absurd hpc hrem⟩
    rw [hm] at hg ⊢
    rcases hpc with hpc | ⟨i, hpc⟩
    · exact absurd hpc hrel
    · exact h.released (hpoll i hpc) hg
  | sawReceived hpc hg =>
    obtain rfl := Sum.inl.inj hr
    refine ⟨hat, fun _ hg' => ?_, fun hpc => by cases hpc⟩
    -- the state is that of a message whose CONTROL_COMPLETE is to come
    rw [hg] at hg'
    cases hg'
  | release hpc hs =>
    obtain rfl := Sum.inl.inj hr
    exact ⟨hat, fun _ hg => h.released (Or.inl hpc) hg, fun hpc => by cases hpc⟩
  | sawComplete hpc hg =>
    obtain rfl := Sum.inl.inj hr
    refine ⟨hat, fun hpc' => ?_, fun _ => h.released (Or.inr ⟨_, hpc⟩) hg⟩
    rcases hpc' with hpc' | ⟨i, hpc'⟩ <;> cases hpc'
  | _ => cases hr

/-- A QoS 2 call returns 0 only where it removes its message. -/
theorem PublishRun.Answered.of_ret {ok : Bool} (h : run.Answered C t)
    (hq : run.msg.header.qosLevel = qosExactlyOnce)
    (hr : (SlimMQ.publishStep s run ok).call = .inr 0) : C run.msg.header.msgId := by
  have hadv := publishStep_advance s run ok
  generalize SlimMQ.publishStep s run ok = res at hadv hr
  cases hadv with
  | done hpc => exact h.completed hpc
  | sent hq0 =>
    rw [hq] at hq0
    cases hq0
  | acked hpc hw =>
    -- the acknowledgement is looked for at QoS 1
    have hq1 : run.msg.header.qosLevel = qosAtLeastOnce := h.atQos _ (by rw [hpc]; rfl)
    rw [hq] at hq1
    cases hq1
  | _ => cases hr

/-- **A step of the client keeps the facts** that bear out its call, if a CONTROL_COMPLETE that it
gets is among them. -/
theorem Session.next_answered (hv : ChainTable.Valid hashMsgId p.state.table)
    (h : ∀ run ∈ p.call, run.Answered C p.state.table) (hs : p.next x = some p')
    (hC : ∀ id, C id → C' id)
    (hx : ∀ r, x = .receive r → r.Controls ctrlDataSize controlComplete → C' r.header.msgId) :
    ∀ run ∈ p'.call, run.Answered C' p'.state.table := by
  obtain ⟨-, htable⟩ := Session.next_table hv hs
  intro run hrun
  rcases Session.next_call hs with hcall | ⟨-, hloop⟩ | ⟨ok, run₀, rfl, hc, hcall⟩
  · rw [hcall] at hrun
    apply (h run hrun).mono hC
    intro _ hg
    rw [htable] at hg
    cases hw : p.written run.msg.header.msgId x with
    | none => exact Or.inl (by simpa [hw] using hg)
    | some state =>
      obtain rfl : state = .completed := by simpa [hw] using hg
      obtain ⟨r, rfl, hr, hid⟩ := Session.written_completed hw
      exact Or.inr (hid ▸ hx r rfl hr)
  · exact PublishRun.answered_of_loop (hloop run hrun)
  · rw [hcall] at hrun
    cases hres : (publishStep p.state run₀ ok).call with
    | inr v =>
      rw [hres] at hrun
      cases hrun
    | inl run' =>
      rw [hres] at hrun
      obtain rfl : run' = run := by simpa using hrun
      have hstate : p'.state = (publishStep p.state run₀ ok).state := by
        simp only [Session.next, Session.step, hc, Option.map_some, Option.some.injEq] at hs
        rw [← hs]
        rfl
      rw [hstate]
      exact ((h run₀ hc).publishStep hres).mono hC fun _ hg => Or.inl hg

end Answered

/-! ## Processes -/

/-- `slimmq_close`: what it leaves of the process, the table, which is emptied at QoS 2. -/
def slimmqClose (s : ClientState) : Qos2Table :=
  if s.client.qosLevel = qosExactlyOnce then qos2TableDestroy else s.table

/-- A handle of a client: not yet connected, in use, or closed. -/
inductive Handle
  | unused
  | connected (p : Session)
  | closed

/-- A process: the QoS 2 table, and the clients by their handles. -/
structure Process (ι : Type) where
  table : Qos2Table
  handles : ι → Handle

/-- What happens in a process. -/
inductive ProcessEvent (ι : Type)
  /-- A call of `slimmq_connect` returns this handle. -/
  | connect (i : ι)
  /-- A step of this client. -/
  | session (i : ι) (x : SessionEvent)
  /-- A call of `slimmq_close`. -/
  | close (i : ι)

/-- The client that makes the step. -/
def ProcessEvent.client {ι : Type} : ProcessEvent ι → ι
  | .connect i => i
  | .session i _ => i
  | .close i => i

namespace Process

variable {ι : Type}

/-- A process without clients. -/
def init : Process ι := ⟨qos2TableInit, fun _ => .unused⟩

/-- A client in use, with the table of the process. -/
def session (P : Process ι) (i : ι) : Option Session :=
  match P.handles i with
  | .connected p => some { p with state := ⟨p.state.client, P.table⟩ }
  | _ => none

/-- **A step of a process.** Each handle is used once; a client is not closed during its own
call. -/
def next [DecidableEq ι] (P : Process ι) : ProcessEvent ι → Option (Process ι)
  | .connect i =>
    match P.handles i with
    | .unused => some { P with handles := Function.update P.handles i (.connected Session.init) }
    | _ => none
  | .session i x =>
    (P.session i).bind fun p => (p.next x).map fun p' =>
      ⟨p'.state.table, Function.update P.handles i (.connected p')⟩
  | .close i =>
    (P.session i).bind fun p =>
      if p.call.isSome then none
      else some ⟨slimmqClose p.state, Function.update P.handles i .closed⟩

/-- The state that a step writes for a message. -/
def written (P : Process ι) (id : UInt32) : ProcessEvent ι → Option Qos2ClientState
  | .connect _ => none
  | .session i x => (P.session i).bind (·.written id x)
  | .close i =>
    (P.session i).bind fun p =>
      if p.call.isNone ∧ p.state.client.qosLevel = qosExactlyOnce then some .none else none

/-- A client has a QoS 2 call in progress for a message. -/
def Publishes (P : Process ι) (i : ι) (id : UInt32) : Prop :=
  ∃ p run, P.session i = some p ∧ p.call = some run ∧
    run.msg.header.qosLevel = qosExactlyOnce ∧ run.msg.header.msgId = id

end Process

/-- The listener of a client has processed a CONTROL_COMPLETE for a message. -/
def Completes {ι : Type} (es : List (ProcessEvent ι)) (i : ι) (id : UInt32) : Prop :=
  ∃ r : ClientReception, .session i (.receive r) ∈ es ∧
    r.Controls ctrlDataSize controlComplete ∧ r.header.msgId = id

/-- **No client answers for another**: a QoS 2 call returns 0 only if its own listener has processed
a CONTROL_COMPLETE for its message, and no step of another client changes the state that it looks
at. -/
structure ClientsApart {ι : Type} [DecidableEq ι] (es : List (ProcessEvent ι)) : Prop where
  own : ∀ xs i ok P p run, xs ++ [.session i (.advance ok)] <+: es →
    execute Process.next Process.init xs = some P → P.session i = some p → p.call = some run →
    run.msg.header.qosLevel = qosExactlyOnce → (publishStep p.state run ok).call = .inr 0 →
    Completes xs i run.msg.header.msgId
  undisturbed : ∀ xs e P P' i id, xs ++ [e] <+: es →
    execute Process.next Process.init xs = some P → P.next e = some P' → e.client ≠ i →
    P.Publishes i id → qos2TableGetState P'.table id = qos2TableGetState P.table id

/-- A step writes no other state for a message that another client is publishing at QoS 2. -/
def WritesApart {ι : Type} (P : Process ι) (e : ProcessEvent ι) : Prop :=
  ∀ i id, e.client ≠ i → P.Publishes i id → ∀ s ∈ P.written id e, s = qos2TableGetState P.table id

section Apart

variable {ι : Type} {P P' : Process ι} {e : ProcessEvent ι} {i : ι}

theorem Process.session_table (h : P.session i = some p) : p.state.table = P.table := by
  unfold Process.session at h
  split at h
  · obtain rfl := Option.some.inj h
    rfl
  · cases h

variable [DecidableEq ι]

/-- **What a step of a process does to the table.** -/
theorem Process.next_table (hv : ChainTable.Valid hashMsgId P.table) (hs : P.next e = some P') :
    ChainTable.Valid hashMsgId P'.table ∧ ∀ id, qos2TableGetState P'.table id =
      (P.written id e).getD (qos2TableGetState P.table id) := by
  cases e with
  | connect i =>
    simp only [Process.next] at hs
    split at hs
    · obtain rfl := Option.some.inj hs
      exact ⟨hv, fun _ => rfl⟩
    · cases hs
  | session i x =>
    obtain ⟨p, hp, hs⟩ := Option.bind_eq_some_iff.mp hs
    obtain ⟨p', hnext, rfl⟩ := Option.map_eq_some_iff.mp hs
    have ht := Process.session_table hp
    simp only [Process.written, hp, Option.bind_some, ← ht]
    exact Session.next_table (ht ▸ hv) hnext
  | close i =>
    obtain ⟨p, hp, hs⟩ := Option.bind_eq_some_iff.mp hs
    have ht := Process.session_table hp
    split_ifs at hs with hcall
    obtain rfl := Option.some.inj hs
    have hnone : p.call.isNone := by simpa using hcall
    simp only [Process.written, hp, Option.bind_some, slimmqClose, hnone, true_and]
    split_ifs
    · exact ⟨ChainTable.valid_empty hashMsgId, fun _ => rfl⟩
    · exact ⟨ht ▸ hv, fun _ => by rw [ht]; rfl⟩

/-- A step that writes something can be made. -/
theorem Process.isSome_next_of_written {id : UInt32} (h : (P.written id e).isSome) :
    (P.next e).isSome := by
  obtain ⟨state, hw⟩ := Option.isSome_iff_exists.mp h
  cases e with
  | connect i => cases hw
  | session i x =>
    obtain ⟨p, hp, hw⟩ := Option.bind_eq_some_iff.mp hw
    simp only [Process.next, hp, Option.bind_some, Option.isSome_map]
    cases x with
    | receive r => simp [Session.next, Session.step, SessionEvent.offered]
    | advance ok =>
      obtain ⟨run, hc, -⟩ := Option.bind_eq_some_iff.mp hw
      simp [Session.next, Session.step, hc]
    | setQos qosLevel => rfl
    | _ => cases hw
  | close i =>
    obtain ⟨p, hp, hw⟩ := Option.bind_eq_some_iff.mp hw
    split_ifs at hw with hc
    have hcall : p.call = none := by simpa using hc.1
    simp [Process.next, hp, hcall]

/-- A step of another client leaves a handle. -/
theorem Process.handles_of_ne (hs : P.next e = some P') (hi : e.client ≠ i) :
    P'.handles i = P.handles i := by
  cases e with
  | connect j =>
    simp only [Process.next] at hs
    split at hs
    · obtain rfl := Option.some.inj hs
      exact Function.update_of_ne (Ne.symm hi) _ _
    · cases hs
  | session j x =>
    obtain ⟨p, -, hs⟩ := Option.bind_eq_some_iff.mp hs
    obtain ⟨p', -, rfl⟩ := Option.map_eq_some_iff.mp hs
    exact Function.update_of_ne (Ne.symm hi) _ _
  | close j =>
    obtain ⟨p, -, hs⟩ := Option.bind_eq_some_iff.mp hs
    split_ifs at hs
    obtain rfl := Option.some.inj hs
    exact Function.update_of_ne (Ne.symm hi) _ _

/-- What holds along the runs of a process: the table is valid, and what a call has found completed,
the client's own listener has processed. -/
structure Process.Inv (xs : List (ProcessEvent ι)) (P : Process ι) : Prop where
  valid : ChainTable.Valid hashMsgId P.table
  answered : ∀ i p, P.session i = some p → ∀ run ∈ p.call, run.Answered (Completes xs i) P.table

omit [DecidableEq ι] in
theorem Completes.snoc {xs : List (ProcessEvent ι)} {id : UInt32} (h : Completes xs i id)
    (e : ProcessEvent ι) : Completes (xs ++ [e]) i id := by
  obtain ⟨r, hr, h⟩ := h
  exact ⟨r, List.mem_append_left _ hr, h⟩

/-- The client that makes a step, and its call. -/
theorem Process.Inv.answered_own {xs : List (ProcessEvent ι)} (h : P.Inv xs)
    (hs : P.next e = some P') {p' : Session} (hp' : P'.session e.client = some p') :
    ∀ run ∈ p'.call, run.Answered (Completes (xs ++ [e]) e.client) P'.table := by
  cases e with
  | connect i =>
    simp only [Process.next] at hs
    split at hs
    · obtain rfl := Option.some.inj hs
      -- a new client has no call
      obtain rfl : { Session.init with state := ⟨slimmqConnect, P.table⟩ } = p' := by
        simpa [Process.session, ProcessEvent.client, Session.init] using hp'
      intro run hrun
      cases hrun
    · cases hs
  | session i x =>
    obtain ⟨p, hp, hs⟩ := Option.bind_eq_some_iff.mp hs
    obtain ⟨p₁, hnext, rfl⟩ := Option.map_eq_some_iff.mp hs
    obtain rfl : p₁ = p' := by simpa [Process.session, ProcessEvent.client] using hp'
    have ht := Process.session_table hp
    refine Session.next_answered (C := Completes xs i) (ht ▸ h.valid) ?_ hnext
      (fun id hid => hid.snoc _) fun r hr hc => ?_
    · rw [ht]
      exact h.answered i p hp
    · subst hr
      exact ⟨r, by simp [ProcessEvent.client], hc, rfl⟩
  | close i =>
    obtain ⟨p, -, hs⟩ := Option.bind_eq_some_iff.mp hs
    split_ifs at hs
    obtain rfl := Option.some.inj hs
    simp [Process.session, ProcessEvent.client] at hp'

theorem Process.Inv.next {xs : List (ProcessEvent ι)} (h : P.Inv xs) (hC : WritesApart P e)
    (hs : P.next e = some P') : P'.Inv (xs ++ [e]) := by
  obtain ⟨hv, htable⟩ := Process.next_table h.valid hs
  refine ⟨hv, fun i p' hp' => ?_⟩
  by_cases hi : e.client = i
  · subst hi
    exact h.answered_own hs hp'
  -- another client: its call sees what it saw before
  · have hhandle := Process.handles_of_ne hs hi
    intro run hrun
    obtain ⟨p, hp, hcall⟩ : ∃ p, P.session i = some p ∧ p.call = p'.call := by
      unfold Process.session at hp' ⊢
      rw [hhandle] at hp'
      split at hp'
      · obtain rfl := Option.some.inj hp'
        exact ⟨_, rfl, rfl⟩
      · cases hp'
    apply (h.answered i p hp run (hcall ▸ hrun)).mono (fun id hid => hid.snoc e)
    intro hq hg
    have hapart := hC i _ hi ⟨p, run, hp, hcall ▸ hrun, hq, rfl⟩
    rw [htable] at hg
    cases hw : P.written run.msg.header.msgId e with
    | none => exact Or.inl (by simpa [hw] using hg)
    | some state =>
      -- what is written is what was there
      rw [hw, Option.getD_some] at hg
      exact Or.inl ((hapart state hw).symm.trans hg)

omit [DecidableEq ι] in
theorem Process.inv_init : Process.Inv [] (Process.init : Process ι) :=
  ⟨ChainTable.valid_empty hashMsgId, fun i p hp => by cases hp⟩

/-- **The clients of a process stay apart exactly when no step writes another state** for a message
that another client is publishing at QoS 2: a CONTROL_RECEIVED or CONTROL_COMPLETE with the same
message id, a change to QoS 2, a close at QoS 2, or the removal of the same id. -/
theorem clientsApart_iff (es : List (ProcessEvent ι)) :
    ClientsApart es ↔ AlongSteps Process.next WritesApart Process.init es := by
  constructor
  · rintro ⟨-, hund⟩ xs e P hpre hP i id hi hpub state hw
    obtain ⟨P', hs⟩ := Option.isSome_iff_exists.mp
      (Process.isSome_next_of_written (Option.isSome_of_mem hw))
    have hv : ChainTable.Valid hashMsgId P.table :=
      execute_induction (P := fun P : Process ι => ChainTable.Valid hashMsgId P.table) hP
        (ChainTable.valid_empty hashMsgId) fun P₁ e₁ P₂ h₁ hv₁ => (Process.next_table hv₁ h₁).1
    -- the step is made, and leaves what it writes
    have hwritten := (Process.next_table hv hs).2 id
    rw [Option.mem_def.mp hw, Option.getD_some] at hwritten
    rw [← hwritten]
    exact hund xs e P P' i id hpre hP hs hi hpub
  · intro h
    have hinv : ∀ xs P, xs <+: es → execute Process.next Process.init xs = some P → P.Inv xs := by
      intro xs P hpre hP
      exact execute_history_induction (P := fun xs P => P.Inv xs) hP (h.of_prefix hpre)
        Process.inv_init fun ys e P₁ P₂ hC hs hinv => hinv.next hC hs
    refine ⟨?_, ?_⟩
    · intro xs i ok P p run hpre hP hp hc hq hr
      have hI := hinv xs P ((List.prefix_append xs _).trans hpre) hP
      exact (hI.answered i p hp run hc).of_ret hq hr
    · intro xs e P P' i id hpre hP hs hi hpub
      have hI := hinv xs P ((List.prefix_append xs _).trans hpre) hP
      rw [(Process.next_table hI.valid hs).2 id]
      cases hw : P.written id e with
      | none => rfl
      | some state => exact h xs e P hpre hP i id hi hpub state hw

end Apart

/-- A control message that the broker sends for a small message id. -/
def controlDatagram (ctrlType : ControlType) (id : UInt8) : Datagram :=
  [1, 3, 2, 0, 0, id, 0, 0, 0, 0, 1, 1, 1, 0, 1, ctrlType]

/-- Two clients, both at QoS 2 and both publishing their first message. The broker's replies to the
first one are processed; those to the second one are lost. -/
def borrowedTrace : List (ProcessEvent Bool) :=
  [.connect false, .connect true] ++
    [.setQos qosExactlyOnce, .setRetryPolicy 1000 3].map (.session false) ++
    [.setQos qosExactlyOnce, .setRetryPolicy 1000 3].map (.session true) ++
    publishing.map (.session false) ++ publishing.map (.session true) ++
    [.session false (heard (controlDatagram controlReceived 1))] ++
    List.replicate 3 (.session true (.advance true)) ++
    [.session false (heard (controlDatagram controlComplete 1)), .session true (.advance true)]

/-- The second client's call returns 0 by the replies to the first one. -/
theorem borrowedTrace_not_apart :
    ¬ ClientsApart (borrowedTrace ++ [.session true (.advance true)]) := by
  intro h
  have hrun : ((execute Process.next Process.init borrowedTrace).bind fun P =>
      (P.session true).bind fun p => p.call.map fun run =>
        (run.msg.header.qosLevel, (publishStep p.state run true).call.getRight?)) =
      some (qosExactlyOnce, some 0) := by
    decide +kernel
  obtain ⟨P, hP, hrun⟩ := Option.bind_eq_some_iff.mp hrun
  obtain ⟨p, hp, hrun⟩ := Option.bind_eq_some_iff.mp hrun
  obtain ⟨run, hc, hrun⟩ := Option.map_eq_some_iff.mp hrun
  obtain ⟨hq, hret⟩ := Prod.mk.inj hrun
  have hr : (publishStep p.state run true).call = .inr 0 := Sum.getRight?_eq_some_iff.mp hret
  -- no datagram has reached the second client
  obtain ⟨r, hmem, -⟩ := h.own borrowedTrace true true P p run (List.prefix_refl _) hP hp hc hq hr
  simp [borrowedTrace, publishing, heard] at hmem

end SlimMQ
