import SlimMQ.Client.Process

/-!
# The completion of a QoS 2 call

A QoS 2 call of `slimmq_publish` waits in two phases, for the state that CONTROL_RECEIVED leaves and
then for the one that CONTROL_COMPLETE leaves, while the listener overwrites the state with whatever
comes. A CONTROL_COMPLETE that comes when the call waits for CONTROL_RECEIVED is not recognised, and
a late copy of CONTROL_RECEIVED hides one that has come. Outside of these cases, a call that looks
at its state after a CONTROL_COMPLETE returns 0.

## Main definitions

* `PublishPc.Examines`: the next step of the call looks at the state of its message
* `CompletionReported`: a call that looks at its state after a CONTROL_COMPLETE returns 0
* `InTime`: the control messages come in the phase in which the call waits for them

## Main results

* `Session.next_confirmed`: what a CONTROL_COMPLETE in time leaves, every step keeps
* `completionReported_of_inTime`: a completion in time is reported
-/

namespace SlimMQ

open Buffer EventLoop

/-- What happens during a call: the listener gets datagrams, and the call makes its steps, with
every send succeeding. -/
def SessionEvent.Scheduled : SessionEvent → Prop
  | .receive _ => True
  | .advance sendOk => sendOk = true
  | _ => False

/-- The event is a step of the call. -/
def SessionEvent.isAdvance : SessionEvent → Bool
  | .advance _ => true
  | _ => false

/-- The next step of the call looks at the state of its message. -/
def PublishPc.Examines (polls : Int) : PublishPc → Prop
  | .pollReceived i => i < polls
  | .checkReceived => True
  | .pollComplete i => i < polls
  | _ => False

instance (polls : Int) : (pc : PublishPc) → Decidable (pc.Examines polls)
  | .pollReceived i => inferInstanceAs (Decidable (i < polls))
  | .checkReceived => inferInstanceAs (Decidable True)
  | .pollComplete i => inferInstanceAs (Decidable (i < polls))
  | .loop | .pollAck _ | .sendRelease | .removeCompleted => inferInstanceAs (Decidable False)

namespace Session

/-- The call for the message returns 0: it returns after some number of its steps, whatever the
listener gets, and nothing else than 0. -/
def Succeeds (p : Session) (msg : Message) : Prop :=
  ∃ n, ∀ zs p', (∀ z ∈ zs, z.Scheduled) → execute next p zs = some p' →
    (n ≤ zs.countP (·.isAdvance) → p'.call = none) ∧
      (p'.call = none → p'.returned = (msg, 0) :: p.returned)

end Session

/-- **A completed call is reported as such**: a call that looks at the state of its message after a
CONTROL_COMPLETE for it has been processed returns 0. -/
def CompletionReported (p : Session) (es : List SessionEvent) : Prop :=
  ∀ xs (r : ClientReception) ys p₁ run₁ p₂ run₂ p₃,
    xs ++ .receive r :: ys ++ [.advance true] <+: es →
    execute Session.next p xs = some p₁ → p₁.call = some run₁ →
    r.Controls ctrlDataSize controlComplete → r.header.msgId = run₁.msg.header.msgId →
    execute Session.next p₁ (.receive r :: ys) = some p₂ → p₂.call = some run₂ →
    run₂.pc.Examines p₂.state.polls → p₂.next (.advance true) = some p₃ → p₃.Succeeds run₁.msg

/-- The call has sent CONTROL_RELEASE, or is about to, and a poll for CONTROL_COMPLETE follows. -/
def PublishPc.Releases (polls : Int) : PublishPc → Prop
  | .sendRelease => True
  | .pollComplete i => i < polls
  | _ => False

instance (polls : Int) : (pc : PublishPc) → Decidable (pc.Releases polls)
  | .sendRelease => inferInstanceAs (Decidable True)
  | .pollComplete i => inferInstanceAs (Decidable (i < polls))
  | .loop | .pollAck _ | .pollReceived _ | .checkReceived | .removeCompleted =>
    inferInstanceAs (Decidable False)

/-- The call has seen CONTROL_COMPLETE. -/
def PublishPc.Done : PublishPc → Prop
  | .removeCompleted => True
  | _ => False

instance : (pc : PublishPc) → Decidable pc.Done
  | .removeCompleted => inferInstanceAs (Decidable True)
  | .loop | .pollAck _ | .pollReceived _ | .checkReceived | .sendRelease | .pollComplete _ =>
    inferInstanceAs (Decidable False)

/-- **The control messages of the call come in time**: a CONTROL_COMPLETE when the call has seen
CONTROL_RECEIVED and a poll for it follows, or when it has seen another one, and no CONTROL_RECEIVED
over a CONTROL_COMPLETE that the call has yet to see. -/
def InTime (p : Session) : SessionEvent → Prop
  | .receive r => ∀ run ∈ p.call, r.header.msgId = run.msg.header.msgId →
      (r.Controls ctrlDataSize controlComplete → run.pc.Releases p.state.polls ∨ run.pc.Done) ∧
      (r.Controls ctrlDataSize controlReceived → run.pc.Releases p.state.polls →
        qos2TableGetState p.state.table run.msg.header.msgId ≠ .completed)
  | _ => True

instance (p : Session) : (x : SessionEvent) → Decidable (InTime p x)
  | .receive _ => inferInstanceAs (Decidable (∀ run ∈ p.call, _ → (_ → _ ∨ _) ∧ (_ → _ → _)))
  | .publish _ _ _ | .advance _ | .subscribe _ _ | .setQos _ | .setRetryPolicy _ _ | .nextEvent _ =>
    inferInstanceAs (Decidable True)

/-- A CONTROL_COMPLETE is there for the call to see, or the call has seen it. -/
def PublishRun.Confirmed (polls : Int) (t : Qos2Table) (run : PublishRun) : Prop :=
  (run.pc.Releases polls ∧ qos2TableGetState t run.msg.header.msgId = .completed) ∨ run.pc.Done

variable {p p' : Session} {x : SessionEvent} {run run' : PublishRun} {r : ClientReception}

/-- A datagram that comes in time leaves a confirmed call confirmed. -/
theorem PublishRun.Confirmed.receive (h : run.Confirmed p.state.polls p.state.table)
    (hc : run ∈ p.call) (ht : InTime p (.receive r)) :
    run.Confirmed p.state.polls (listenerStep p.state r).table := by
  rcases h with ⟨hrel, hg⟩ | hdone
  · refine Or.inl ⟨hrel, ?_⟩
    rw [getState_listenerStep, ClientReception.written]
    split_ifs with hid hr hcomp
    · exact hg
    -- a CONTROL_RECEIVED would hide the CONTROL_COMPLETE
    · exact absurd hg ((ht run hc (not_not.mp hid)).2 hr hrel)
    · rfl
    · exact hg
  · exact Or.inr hdone

/-- A step leaves a confirmed call confirmed, until it returns. -/
theorem PublishRun.Confirmed.publishStep {s : ClientState} {n : Int} {ok : Bool}
    (h : run.Confirmed n s.table) (hn : n = s.polls) (hpos : 0 < n)
    (hr : (publishStep s run ok).call = .inl run') :
    run'.msg = run.msg ∧ run'.Confirmed n (SlimMQ.publishStep s run ok).state.table := by
  subst hn
  cases hpc : run.pc with
  | sendRelease =>
    -- there is a poll to come
    have hg : qos2TableGetState s.table run.msg.header.msgId = .completed := by
      simpa [PublishRun.Confirmed, hpc, PublishPc.Releases, PublishPc.Done] using h
    have hres : (SlimMQ.publishStep s run ok).state = s ∧
        (SlimMQ.publishStep s run ok).call = .inl { run with pc := .pollComplete 0 } := by
      simp only [SlimMQ.publishStep, hpc]
      split <;> exact ⟨rfl, rfl⟩
    obtain rfl := Sum.inl.inj (hres.2.symm.trans hr)
    rw [hres.1]
    exact ⟨rfl, Or.inl ⟨hpos, hg⟩⟩
  | pollComplete i =>
    -- the poll finds the message completed
    obtain ⟨hi, hg⟩ : i < s.polls ∧
        qos2TableGetState s.table run.msg.header.msgId = .completed := by
      simpa [PublishRun.Confirmed, hpc, PublishPc.Releases, PublishPc.Done] using h
    simp only [SlimMQ.publishStep, hpc, if_pos hi, if_pos hg] at hr ⊢
    obtain rfl := Sum.inl.inj hr
    exact ⟨rfl, Or.inr trivial⟩
  | removeCompleted =>
    simp only [SlimMQ.publishStep, hpc] at hr
    cases hr
  | _ => simp [PublishRun.Confirmed, hpc, PublishPc.Releases, PublishPc.Done] at h

/-- **What a CONTROL_COMPLETE in time leaves, every step keeps.** -/
theorem Session.next_confirmed {msg : Message} (hpos : 0 < p.state.polls)
    (h : ∀ run ∈ p.call, run.msg = msg ∧ run.Confirmed p.state.polls p.state.table) (hx : x.Scheduled)
    (ht : InTime p x) (hs : p.next x = some p') :
    p'.state.polls = p.state.polls ∧
      ∀ run ∈ p'.call, run.msg = msg ∧ run.Confirmed p'.state.polls p'.state.table := by
  cases x with
  | receive r =>
    rw [Session.next_receive] at hs
    obtain rfl := Option.some.inj hs
    have hpolls := (config_listenerStep p.state r).2
    refine ⟨hpolls, fun run hrun => ?_⟩
    rw [hpolls]
    exact ⟨(h run hrun).1, (h run hrun).2.receive hrun ht⟩
  | advance ok =>
    cases hc : p.call with
    | none => simp [Session.next, Session.step, hc] at hs
    | some run₀ =>
      rw [Session.next_advance hc] at hs
      obtain rfl := Option.some.inj hs
      have hpolls : (p.afterStep run₀ (publishStep p.state run₀ ok)).state.polls = p.state.polls :=
        (config_publishStep p.state run₀ ok).2
      refine ⟨hpolls, fun run hrun => ?_⟩
      rw [hpolls]
      have hcall : (publishStep p.state run₀ ok).call = .inl run := by
        simpa [Session.afterStep] using hrun
      obtain ⟨hm, hconf⟩ := (h run₀ hc).2.publishStep rfl hpos hcall
      exact ⟨hm.trans (h run₀ hc).1, hconf⟩
  | _ => exact hx.elim

/-- After the return of the call nothing more is returned. -/
theorem Session.execute_returned {zs : List SessionEvent} (hc : p.call = none)
    (hzs : ∀ z ∈ zs, z.Scheduled) (h : execute Session.next p zs = some p') :
    p'.call = none ∧ p'.returned = p.returned := by
  induction zs generalizing p with
  | nil =>
    obtain rfl := Option.some.inj h
    exact ⟨hc, rfl⟩
  | cons z zs ih =>
    obtain ⟨p₁, h₁, h₂⟩ := Option.bind_eq_some_iff.mp h
    have hz := hzs z List.mem_cons_self
    have hzs' : ∀ z ∈ zs, z.Scheduled := fun y hy => hzs y (List.mem_cons_of_mem z hy)
    cases z with
    | receive r =>
      rw [Session.next_receive] at h₁
      obtain rfl := Option.some.inj h₁
      exact ih (p := { p with state := listenerStep p.state r }) hc hzs' h₂
    | advance ok => simp [Session.next, Session.step, hc] at h₁
    | _ => exact hz.elim

/-- A call that has seen CONTROL_COMPLETE returns 0 with its next step. -/
theorem Session.succeeds_of_done (hc : p.call = some run) (hd : run.pc.Done) :
    p.Succeeds run.msg := by
  refine ⟨1, fun zs p' hzs h => ?_⟩
  induction zs generalizing p with
  | nil =>
    obtain rfl := Option.some.inj h
    simp [hc]
  | cons z zs ih =>
    obtain ⟨p₁, h₁, h₂⟩ := Option.bind_eq_some_iff.mp h
    have hz := hzs z List.mem_cons_self
    have hzs' : ∀ z ∈ zs, z.Scheduled := fun y hy => hzs y (List.mem_cons_of_mem z hy)
    cases z with
    | receive r =>
      rw [Session.next_receive] at h₁
      obtain rfl := Option.some.inj h₁
      have ih := ih (p := { p with state := listenerStep p.state r }) hc hzs' h₂
      simpa [SessionEvent.isAdvance] using ih
    | advance ok =>
      rw [Session.next_advance hc] at h₁
      obtain rfl := Option.some.inj h₁
      -- the entry is removed, and the call returns
      have hcall : (publishStep p.state run ok).call = .inr 0 := by
        cases hpc : run.pc with
        | removeCompleted => simp only [publishStep, hpc]
        | _ => simp [hpc, PublishPc.Done] at hd
      have hnone : (p.afterStep run (publishStep p.state run ok)).call = none := by
        simp [Session.afterStep, hcall]
      obtain ⟨hc', hr'⟩ := Session.execute_returned hnone hzs' h₂
      refine ⟨fun _ => hc', fun _ => ?_⟩
      rw [hr']
      simp [Session.afterStep, hcall]
    | _ => exact hz.elim

/-- The steps of a call leave the number of its polls. -/
theorem Session.polls_execute {zs : List SessionEvent} (hzs : ∀ z ∈ zs, z.Scheduled)
    (h : execute Session.next p zs = some p') : p'.state.polls = p.state.polls := by
  refine execute_history_induction (C := fun _ z => z.Scheduled) (P := fun _ q => q.state.polls = p.state.polls)
    h (fun ys y _ hpre _ => hzs y (hpre.subset (by simp))) rfl ?_
  intro ys y q q' hy hs hq
  rw [← hq]
  cases y with
  | receive r =>
    rw [Session.next_receive] at hs
    obtain rfl := Option.some.inj hs
    exact (config_listenerStep q.state r).2
  | advance ok =>
    obtain ⟨⟨q₁, ds⟩, hstep, rfl⟩ := Option.map_eq_some_iff.mp hs
    obtain ⟨run, hc, hp⟩ := Option.map_eq_some_iff.mp hstep
    obtain ⟨rfl, -⟩ := Prod.mk.inj hp
    exact (config_publishStep q.state run ok).2
  | _ => exact hy.elim

/-- A CONTROL_COMPLETE in time confirms the call. -/
theorem PublishRun.confirmed_of_complete (hc : p.call = some run)
    (hr : r.Controls ctrlDataSize controlComplete) (hid : r.header.msgId = run.msg.header.msgId)
    (ht : InTime p (.receive r)) : run.Confirmed p.state.polls (listenerStep p.state r).table := by
  rcases (ht run hc hid).1 hr with hrel | hdone
  · refine Or.inl ⟨hrel, ?_⟩
    rw [listenerStep_of_controls hr, if_neg (by decide), if_pos rfl, hid, qos2TableGetState_set,
      if_pos rfl]
  · exact Or.inr hdone

/-- A confirmed call that looks at its state has seen CONTROL_COMPLETE then. -/
theorem Session.done_of_examines (hc : p.call = some run)
    (hconf : run.Confirmed p.state.polls p.state.table) (hex : run.pc.Examines p.state.polls)
    (hs : p.next (.advance true) = some p') :
    ∃ run', p'.call = some run' ∧ run'.msg = run.msg ∧ run'.pc.Done := by
  rw [Session.next_advance hc] at hs
  obtain rfl := Option.some.inj hs
  -- of the places at which it looks, it can be at a poll for CONTROL_COMPLETE only
  cases hpc : run.pc with
  | pollComplete i =>
    obtain ⟨hi, hg⟩ : i < p.state.polls ∧
        qos2TableGetState p.state.table run.msg.header.msgId = .completed := by
      simpa [PublishRun.Confirmed, hpc, PublishPc.Releases, PublishPc.Done] using hconf
    refine ⟨{ run with pc := .removeCompleted }, ?_, rfl, trivial⟩
    simp only [Session.afterStep, publishStep, hpc, if_pos hi, if_pos hg, Sum.getLeft?_inl]
  | sendRelease => simp [hpc, PublishPc.Examines] at hex
  | removeCompleted => simp [hpc, PublishPc.Examines] at hex
  | _ => simp [PublishRun.Confirmed, hpc, PublishPc.Releases, PublishPc.Done] at hconf

/-- **A completion in time is reported**: with a timeout that leaves a poll, and every send
succeeding. -/
theorem completionReported_of_inTime (p : Session) (es : List SessionEvent)
    (hto : 100 ≤ p.state.client.retryTimeoutMs) (hes : ∀ e ∈ es, e.Scheduled)
    (ht : AlongSteps Session.next InTime p es) : CompletionReported p es := by
  intro xs r ys p₁ run₁ p₂ run₂ p₃ hpre h₁ hc₁ hcomp hid h₂ hc₂ hex h₃
  have hsched : ∀ z ∈ xs ++ .receive r :: ys, z.Scheduled := fun z hz =>
    hes z (hpre.subset (List.mem_append_left _ hz))
  have ht₁ : AlongSteps Session.next InTime p₁ (.receive r :: ys) :=
    (ht.of_prefix ((List.prefix_append _ _).trans hpre)).of_append h₁
  obtain ⟨hin, hys⟩ := alongSteps_cons.mp ht₁
  obtain ⟨q, hq, h₂⟩ := Option.bind_eq_some_iff.mp h₂
  have hys := hys q hq
  rw [Session.next_receive] at hq
  obtain rfl := Option.some.inj hq
  have hpos : 0 < p₁.state.polls := by
    rw [Session.polls_execute (fun z hz => hsched z (List.mem_append_left _ hz)) h₁]
    exact ClientState.polls_pos hto
  -- from the CONTROL_COMPLETE on, the call stays confirmed
  have hconf : 0 < p₂.state.polls ∧
      ∀ run ∈ p₂.call, run.msg = run₁.msg ∧ run.Confirmed p₂.state.polls p₂.state.table := by
    refine execute_history_induction (C := fun q y => InTime q y ∧ y.Scheduled)
      (P := fun _ q => 0 < q.state.polls ∧
        ∀ run ∈ q.call, run.msg = run₁.msg ∧ run.Confirmed q.state.polls q.state.table) h₂ ?_ ?_ ?_
    · intro zs z q hz hzq
      exact ⟨hys zs z q hz hzq, hsched z (by simp [hz.subset (List.mem_append_right zs _)])⟩
    · rw [(config_listenerStep p₁.state r).2]
      refine ⟨hpos, fun run hrun => ?_⟩
      obtain rfl : run₁ = run := by simpa [hc₁] using hrun
      exact ⟨rfl, PublishRun.confirmed_of_complete hc₁ hcomp hid hin⟩
    · rintro zs z q q' ⟨hz, hz'⟩ hs ⟨hq, hall⟩
      obtain ⟨hp, hall'⟩ := Session.next_confirmed hq hall hz' hz hs
      exact ⟨hp ▸ hq, hall'⟩
  obtain ⟨hm, hconf⟩ := hconf.2 run₂ hc₂
  obtain ⟨run₃, hc₃, hm₃, hdone⟩ := Session.done_of_examines hc₂ hconf hex h₃
  rw [← hm, ← hm₃]
  exact Session.succeeds_of_done hc₃ hdone

/-- A session at QoS 2 that has called `slimmq_publish` for the first time, with one poll for each
state and one retry. -/
def callingSession : Session :=
  (execute Session.next Session.init [.setQos qosExactlyOnce, .setRetryPolicy 100 1,
    .publish (some ⟨[97], noNul_a⟩) (fun _ => 9) 1]).getD Session.init

/-- A call that gets both control messages when it waits for them. -/
theorem completionReported_of_inTime_handshake :
    CompletionReported callingSession
      [.advance true, heard (controlDatagram controlReceived 1), .advance true, .advance true,
        .advance true, heard (controlDatagram controlComplete 1), .advance true, .advance true] :=
  completionReported_of_inTime _ _ (by decide +kernel)
    (by simp [SessionEvent.Scheduled, heard]) (by decide +kernel)

/-- A call that gets CONTROL_RECEIVED, sends CONTROL_RELEASE and polls in vain. It has begun its
second attempt when CONTROL_COMPLETE comes, which it then finds instead of CONTROL_RECEIVED. -/
def lateSchedule : List SessionEvent :=
  [.advance true, heard (controlDatagram controlReceived 1)] ++ List.replicate 6 (.advance true)

/-- The call looks at its state after a CONTROL_COMPLETE, and returns -1. -/
theorem lateSchedule_not_reported : ¬ CompletionReported callingSession
    (lateSchedule ++ [heard (controlDatagram controlComplete 1)] ++ [.advance true]) := by
  intro h
  have hrun : ((execute Session.next callingSession lateSchedule).bind fun p₁ =>
      p₁.call.bind fun run₁ =>
      (execute Session.next p₁ [heard (controlDatagram controlComplete 1)]).bind fun p₂ =>
      p₂.call.bind fun run₂ => (p₂.next (.advance true)).bind fun p₃ =>
      (execute Session.next p₃ (List.replicate 3 (.advance true))).map fun p₄ =>
        ((run₁.msg.header.msgId, decide (run₂.pc.Examines p₂.state.polls)),
          (p₄.call.isNone, p₄.returned.map Prod.snd))) = some ((1, true), (true, [-1])) := by
    decide +kernel
  obtain ⟨p₁, h₁, hrun⟩ := Option.bind_eq_some_iff.mp hrun
  obtain ⟨run₁, hc₁, hrun⟩ := Option.bind_eq_some_iff.mp hrun
  obtain ⟨p₂, h₂, hrun⟩ := Option.bind_eq_some_iff.mp hrun
  obtain ⟨run₂, hc₂, hrun⟩ := Option.bind_eq_some_iff.mp hrun
  obtain ⟨p₃, h₃, hrun⟩ := Option.bind_eq_some_iff.mp hrun
  obtain ⟨p₄, h₄, hrun⟩ := Option.map_eq_some_iff.mp hrun
  obtain ⟨⟨hid, hex⟩, hnone, hret⟩ := by simpa only [Prod.mk.injEq] using hrun
  obtain ⟨n, hsucc⟩ := h lateSchedule
    ⟨cleanReceived (controlDatagram controlComplete 1), 0, true⟩ [] p₁ run₁ p₂ run₂ p₃
    (List.prefix_refl _) h₁ hc₁ (by decide) (hid ▸ by decide) h₂ hc₂ (of_decide_eq_true hex) h₃
  have hzero := (hsucc _ p₄ (by simp [SessionEvent.Scheduled]) h₄).2 (by simpa using hnone)
  -- the value that the call has returned would be 0
  rw [hzero] at hret
  simp at hret

end SlimMQ
