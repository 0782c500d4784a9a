import SlimMQ.Client.Process

/-!
# What a QoS 2 call leaves in the table

The entry of a QoS 2 call in the table of `qos2_table.c` is made by the listener, whenever a control
message for it comes, and removed by the call, on the one path on which it has seen
CONTROL_COMPLETE. A call that gives up, because its attempts are used up or a send fails, returns
without removing anything, so what the listener has recorded for it stays. The return of a call is
taken together with its last access of the shared state, or with the test of its loop: nothing comes
between them.

## Main definitions

* `lastControl`: the last control message that the listener has processed for a message
* `Outstanding`: a control message that has not been cleared from the table
* `Session.Returns`, `Session.GivesUp`: a step with which a QoS 2 call returns, and gives up
* `NoResidue`: a QoS 2 call leaves no entry of its own, and the others as the listener wrote them

## Main results

* `Session.next_entry`: what every step does to the entry of a message
* `recorded_of_execute`: in every reachable state, the entries are the outstanding control messages
* `noResidue_iff`: a run leaves no residue exactly when no call gives up with a control message
  outstanding
-/

namespace SlimMQ

open Buffer EventLoop

/-! ## The entries of the table -/

/-- The entry of a message: its state, and the time at which it was written. -/
def qos2Entry (t : Qos2Table) (id : UInt32) : Option (Qos2ClientState × Int) :=
  ChainTable.toMap hashMsgId t id

/-- What the listener records for a message when it gets a datagram. -/
def SessionEvent.control (id : UInt32) : SessionEvent → Option (Qos2ClientState × Int)
  | .receive r => (r.written id).map (·, r.now)
  | _ => none

/-- **What the listener has last recorded for a message.** -/
def lastControl (id : UInt32) (xs : List SessionEvent) : Option (Qos2ClientState × Int) :=
  xs.reverse.findSome? (·.control id)

/-- The step clears the entry of a message: its call removes it, or the table is initialised. -/
def Session.Clears (p : Session) (id : UInt32) (x : SessionEvent) : Prop :=
  p.written id x = some .none

instance (p : Session) (id : UInt32) (x : SessionEvent) : Decidable (p.Clears id x) :=
  inferInstanceAs (Decidable (_ = _))

/-- **A control message for `id` is outstanding**: the listener has recorded one, and no step since
has cleared it. -/
inductive Outstanding (id : UInt32) : List SessionEvent → Prop
  | recorded {xs : List SessionEvent} {x : SessionEvent} (h : (x.control id).isSome) :
      Outstanding id (xs ++ [x])
  | kept {xs : List SessionEvent} {x : SessionEvent} {p : Session} (h : Outstanding id xs)
      (hp : execute Session.next Session.init xs = some p) (hx : ¬ p.Clears id x) :
      Outstanding id (xs ++ [x])

variable {p p' : Session} {x : SessionEvent} {xs : List SessionEvent} {id : UInt32}

theorem qos2Entry_set (t : Qos2Table) (id id' : UInt32) (state : Qos2ClientState) (now : Int) :
    qos2Entry (qos2TableSet t id state now) id' =
      if id' = id then some (state, now) else qos2Entry t id' := by
  unfold qos2Entry qos2TableSet ChainTable.toMap
  rw [ChainTable.lookup_update]
  split_ifs <;> rfl

theorem qos2Entry_remove {t : Qos2Table} (h : ChainTable.Valid hashMsgId t) (id id' : UInt32) :
    qos2Entry (qos2TableRemove t id) id' = if id' = id then none else qos2Entry t id' := by
  unfold qos2Entry qos2TableRemove ChainTable.toMap
  rw [ChainTable.lookup_remove h]
  split_ifs <;> rfl

/-- What the listener does to the entry of a message. -/
theorem qos2Entry_listenerStep (s : ClientState) (r : ClientReception) (id : UInt32) :
    qos2Entry (listenerStep s r).table id =
      ((SessionEvent.receive r).control id).or (qos2Entry s.table id) := by
  unfold SessionEvent.control ClientReception.written
  rcases listenerStep_table s r with ⟨h, ht⟩ | ⟨h, ht⟩ | ⟨hr, hc, ht⟩
  · rw [ht, qos2Entry_set]
    by_cases hid : r.header.msgId = id
    · simp [hid, h]
    · simp [hid, Ne.symm hid]
  -- a COMPLETE is not a RECEIVED
  · have hr : ¬ r.Controls ctrlDataSize controlReceived := fun h' => by
      cases h.type_eq h'
    rw [ht, qos2Entry_set]
    by_cases hid : r.header.msgId = id
    · simp [hid, hr, h]
    · simp [hid, Ne.symm hid]
  · simp [ht, hr, hc]

/-- The listener clears nothing. -/
theorem ClientReception.written_ne_none (r : ClientReception) (id : UInt32) :
    r.written id ≠ some .none := by
  unfold ClientReception.written
  split_ifs <;> simp

/-- **What every step does to the entry of a message**: the step clears it, or the listener records
a control message, or it stays. -/
theorem Session.next_entry (h : ChainTable.Valid hashMsgId p.state.table) (hs : p.next x = some p')
    (id : UInt32) :
    qos2Entry p'.state.table id =
      if p.Clears id x then none else (x.control id).or (qos2Entry p.state.table id) := by
  obtain ⟨ds, hstep⟩ := Session.next_stepped hs
  cases hstep with
  | @receive r hr =>
    have hno : ¬ p.Clears id (.receive r) := r.written_ne_none id
    rw [if_neg hno]
    exact qos2Entry_listenerStep p.state r id
  | @advance ok run hc =>
    have hwritten : p.written id (.advance ok) = run.written id := by
      simp only [Session.written, hc, Option.bind_some]
    simp only [Session.Clears, hwritten, Session.afterStep, SessionEvent.control, Option.none_or]
    rcases publishStep_table p.state run ok with ⟨hpc, ht⟩ | ⟨hpc, ht⟩
    · rw [ht, PublishRun.written_of_ne hpc, if_neg (by simp)]
    · rw [ht, qos2Entry_remove h, PublishRun.written, hpc]
      by_cases hid : run.msg.header.msgId = id
      · simp [hid]
      · simp [hid, Ne.symm hid]
  | @setQos qosLevel =>
    simp only [slimmqSetQos, Session.Clears, Session.written, SessionEvent.control, Option.none_or]
    by_cases hq : qosLevel = qosExactlyOnce
    -- the table is initialised
    · simp only [if_pos hq, if_true]
      rfl
    · simp [hq]
  | nextEvent hnext =>
    obtain ⟨q, rfl⟩ := slimmqNextEvent_state hnext
    simp [Session.Clears, Session.written, SessionEvent.control]
  -- the other calls leave the table alone
  | _ =>
    simp [Session.Clears, Session.written, SessionEvent.control, Session.afterStart,
      slimmqSetRetryPolicy]

/-! ## What the table holds -/

theorem lastControl_snoc (id : UInt32) (xs : List SessionEvent) (x : SessionEvent) :
    lastControl id (xs ++ [x]) = (x.control id).or (lastControl id xs) := by
  rw [lastControl, List.reverse_append, List.reverse_singleton, List.singleton_append,
    List.findSome?_cons]
  cases x.control id <;> rfl

/-- What the listener records is not cleared by the same step. -/
theorem not_clears_of_control (h : (x.control id).isSome) : ¬ p.Clears id x := by
  cases x with
  | receive r => exact r.written_ne_none id
  | _ => cases h

theorem outstanding_snoc (hp : execute Session.next Session.init xs = some p) :
    Outstanding id (xs ++ [x]) ↔ (x.control id).isSome ∨ Outstanding id xs ∧ ¬ p.Clears id x := by
  constructor
  · intro h
    generalize hys : xs ++ [x] = ys at h
    cases h with
    | recorded h =>
      obtain ⟨-, rfl⟩ := List.append_singleton_inj.mp hys
      exact Or.inl h
    | kept h hp' hx =>
      obtain ⟨rfl, rfl⟩ := List.append_singleton_inj.mp hys
      obtain rfl : p = _ := Option.some.inj (hp.symm.trans hp')
      exact Or.inr ⟨h, hx⟩
  · rintro (h | ⟨h, hx⟩)
    · exact .recorded h
    · exact .kept h hp hx

/-- The table holds the outstanding control messages, each as the listener last recorded it. -/
structure Recorded (xs : List SessionEvent) (p : Session) : Prop where
  reached : execute Session.next Session.init xs = some p
  valid : ChainTable.Valid hashMsgId p.state.table
  outstanding : ∀ id, (qos2Entry p.state.table id).isSome ↔ Outstanding id xs
  eq_lastControl : ∀ id v, qos2Entry p.state.table id = some v → lastControl id xs = some v

theorem recorded_init : Recorded [] Session.init where
  reached := rfl
  valid := ChainTable.valid_empty hashMsgId
  outstanding id := by
    constructor
    · intro h
      cases h
    · intro h
      generalize hys : ([] : List SessionEvent) = ys at h
      cases h <;> simp at hys
  eq_lastControl id v h := by cases h

/-- **A step keeps the record.** -/
theorem Recorded.next (h : Recorded xs p) (hs : p.next x = some p') :
    Recorded (xs ++ [x]) p' where
  reached := by rw [execute_snoc, h.reached, Option.bind_some, hs]
  valid := (Session.next_table h.valid hs).1
  outstanding id := by
    rw [outstanding_snoc h.reached, Session.next_entry h.valid hs, ← h.outstanding]
    by_cases hc : p.Clears id x
    · have hno : ¬ (x.control id).isSome := fun hx => not_clears_of_control hx hc
      simp [hc, hno]
    · cases hx : x.control id <;> simp [hc]
  eq_lastControl id v hv := by
    rw [Session.next_entry h.valid hs] at hv
    split_ifs at hv with hc
    rw [lastControl_snoc]
    cases hx : x.control id with
    | none =>
      rw [hx] at hv
      exact h.eq_lastControl id v hv
    | some w =>
      rw [hx] at hv
      exact hv

/-- **In every reachable state, the table holds the outstanding control messages.** -/
theorem recorded_of_execute (h : execute Session.next Session.init xs = some p) :
    Recorded xs p := by
  apply execute_history_induction (C := fun _ _ => True) h (fun _ _ _ _ _ => trivial) recorded_init
  intro xs x p₁ p₂ _ hs hrec
  exact hrec.next hs

/-! ## How a call returns -/

/-- **The step with which a QoS 2 call returns**, for the message id that it has taken. -/
inductive Session.Returns (p : Session) (id : UInt32) : SessionEvent → Prop
  /-- The call returns before its loop. -/
  | refused {topic : CString} {data : Mem} {dataLen : ℕ} {c : SlimmqClient} {ret : Int}
      (hc : p.call = none) (hq : p.state.client.qosLevel = qosExactlyOnce)
      (hid : p.state.client.nextMsgId = id)
      (hstart : publishStart p.state.client (some topic) data dataLen = some (c, .inr ret)) :
      Returns p id (.publish (some topic) data dataLen)
  /-- The call returns in its loop. -/
  | ended {run : PublishRun} {ok : Bool} (hc : p.call = some run)
      (hq : run.msg.header.qosLevel = qosExactlyOnce) (hid : run.msg.header.msgId = id)
      (hend : (publishStep p.state run ok).call.getLeft? = none) : Returns p id (.advance ok)

/-- **A step with which a QoS 2 call gives up.** -/
inductive Session.GivesUp (p : Session) (id : UInt32) : SessionEvent → Prop
  /-- The arguments are not accepted. -/
  | refused {topic : CString} {data : Mem} {dataLen : ℕ} (hc : p.call = none)
      (hq : p.state.client.qosLevel = qosExactlyOnce) (hid : p.state.client.nextMsgId = id)
      (hno : ¬ Accepted topic.strlen dataLen) : GivesUp p id (.publish (some topic) data dataLen)
  /-- The attempts are used up, or the send fails. -/
  | exhausted {run : PublishRun} {ok : Bool} (hc : p.call = some run)
      (hq : run.msg.header.qosLevel = qosExactlyOnce) (hid : run.msg.header.msgId = id)
      (hpc : run.pc = .loop) (h : p.state.client.maxRetries < run.retries ∨ ok = false) :
      GivesUp p id (.advance ok)

theorem publishStep_of_exhausted {s : ClientState} {run : PublishRun} {ok : Bool}
    (hpc : run.pc = .loop) (h : s.client.maxRetries < run.retries ∨ ok = false) :
    publishStep s run ok = ⟨s, [], .inr (-1)⟩ := by
  rcases h with hr | hok
  · simp only [publishStep, hpc, if_pos hr]
  · simp only [publishStep, hpc, if_pos hok, ite_self]

/-- **A QoS 2 call returns from its loop in two ways**: it removes its entry, or it gives up. -/
theorem removes_or_exhausted {s : ClientState} {run : PublishRun} {ok : Bool} (hat : run.AtQos)
    (hq : run.msg.header.qosLevel = qosExactlyOnce)
    (hr : (publishStep s run ok).call.getLeft? = none) :
    run.pc = .removeCompleted ∨
      run.pc = .loop ∧ (s.client.maxRetries < run.retries ∨ ok = false) := by
  cases hpc : run.pc with
  | removeCompleted => exact Or.inl rfl
  | loop =>
    refine Or.inr ⟨rfl, ?_⟩
    by_contra hno
    obtain ⟨hr₁, hr₂⟩ := not_or.mp hno
    have h0 : ¬ qosExactlyOnce = qosAtMostOnce := by decide
    have h1 : ¬ qosExactlyOnce = qosAtLeastOnce := by decide
    simp only [publishStep, hpc, if_neg hr₁, if_neg hr₂, hq, if_neg h0, if_neg h1, if_true] at hr
    cases hr
  | pollAck i =>
    -- the call waits for an acknowledgement at QoS 1 only
    have h1 : run.msg.header.qosLevel = qosAtLeastOnce := hat _ (by rw [hpc]; rfl)
    rw [hq] at h1
    cases h1
  | sendRelease =>
    simp only [publishStep, hpc] at hr
    split at hr <;> cases hr
  | _ =>
    simp only [publishStep, hpc] at hr
    split_ifs at hr <;> cases hr

/-- In every reachable state, the call is at a place that its QoS level leads to. -/
theorem atQos_of_execute (h : execute Session.next Session.init xs = some p) :
    ∀ run ∈ p.call, run.AtQos := by
  apply execute_induction (P := fun p => ∀ run ∈ p.call, run.AtQos) h
  · intro run hrun
    cases hrun
  · intro p₁ x p₂ hs hat run hrun
    rcases Session.next_call hs with hc | ⟨-, hloop⟩ | ⟨ok, run₁, -, hc, hc'⟩
    · exact hat run (hc ▸ hrun)
    · intro q hq
      rw [hloop run hrun] at hq
      cases hq
    · apply (publishStep_advance p₁.state run₁ ok).atQos (hat run₁ hc)
      rw [hc'] at hrun
      exact Sum.getLeft?_eq_some_iff.mp hrun

/-- The start of a call leaves the table. -/
theorem Session.table_publish {topic : Option CString} {data : Mem} {dataLen : ℕ}
    (hs : p.next (.publish topic data dataLen) = some p') : p'.state.table = p.state.table := by
  obtain ⟨ds, hstep⟩ := Session.next_stepped hs
  cases hstep with
  | publish hc hstart => rfl

/-- A call that gives up returns, and leaves the table. -/
theorem Session.GivesUp.returns (h : p.GivesUp id x) (hs : p.next x = some p') :
    p.Returns id x ∧ p'.state.table = p.state.table := by
  cases h with
  | @refused topic data dataLen hc hq hid hno =>
    refine ⟨?_, Session.table_publish hs⟩
    obtain ⟨ds, hstep⟩ := Session.next_stepped hs
    cases hstep with
    | @publish _ _ _ c call _ hstart =>
      cases call with
      | inl run => exact absurd ((publishStart_inl_iff hstart).mp ⟨run, rfl⟩) hno
      | inr ret => exact .refused hc hq hid hstart
  | @exhausted run ok hc hq hid hpc hex =>
    have hstep := publishStep_of_exhausted hpc hex
    rw [Session.next_advance hc, hstep] at hs
    obtain rfl := Option.some.inj hs
    exact ⟨.ended hc hq hid (by rw [hstep]; rfl), rfl⟩

/-- **What the last step of a call does**: it removes its entry, or it gives up and leaves the
table. -/
theorem Session.Returns.cases (h : p.Returns id x)
    (hp : execute Session.next Session.init xs = some p) (hs : p.next x = some p') :
    (∀ id', qos2Entry p'.state.table id' =
        if id' = id then none else qos2Entry p.state.table id') ∨
      p.GivesUp id x ∧ p'.state.table = p.state.table := by
  cases h with
  | @refused topic data dataLen c ret hc hq hid hstart =>
    refine Or.inr ⟨.refused hc hq hid fun ha => ?_, Session.table_publish hs⟩
    obtain ⟨run, hrun⟩ := (publishStart_inl_iff hstart).mpr ha
    cases hrun
  | @ended run ok hc hq hid hend =>
    rw [Session.next_advance hc] at hs
    obtain rfl := Option.some.inj hs
    rcases removes_or_exhausted (atQos_of_execute hp run hc) hq hend with hpc | ⟨hpc, hex⟩
    · left
      subst hid
      simp only [Session.afterStep, publishStep, hpc]
      exact qos2Entry_remove (recorded_of_execute hp).valid _
    · refine Or.inr ⟨.exhausted hc hq hid hpc hex, ?_⟩
      rw [Session.afterStep, publishStep_of_exhausted hpc hex]

/-! ## What a call leaves -/

/-- **A QoS 2 call leaves no residue**: when it returns, the table has no entry for its message, and
its last step has left the entries of the others, which are as the listener last recorded them. -/
structure NoResidue (es : List SessionEvent) : Prop where
  own : ∀ xs x p p' id, xs ++ [x] <+: es → execute Session.next Session.init xs = some p →
    p.Returns id x → p.next x = some p' → qos2Entry p'.state.table id = none
  others : ∀ xs x p p' id, xs ++ [x] <+: es → execute Session.next Session.init xs = some p →
    p.Returns id x → p.next x = some p' → ∀ id', id' ≠ id →
      qos2Entry p'.state.table id' = qos2Entry p.state.table id' ∧
      ∀ v, qos2Entry p'.state.table id' = some v → lastControl id' xs = some v

/-- **No QoS 2 call gives up with a control message for it outstanding.** -/
def GivesUpUnanswered (es : List SessionEvent) : Prop :=
  ∀ xs x p id, xs ++ [x] <+: es → execute Session.next Session.init xs = some p →
    p.GivesUp id x → (p.next x).isSome → ¬ Outstanding id xs

/-- **A run leaves no residue exactly when no call gives up with a control message outstanding.** -/
theorem noResidue_iff (es : List SessionEvent) : NoResidue es ↔ GivesUpUnanswered es := by
  constructor
  · intro h xs x p id hpre hp hgive hsome hout
    obtain ⟨p', hs⟩ := Option.isSome_iff_exists.mp hsome
    obtain ⟨hret, htable⟩ := hgive.returns hs
    have hnone := h.own xs x p p' id hpre hp hret hs
    have hentry := ((recorded_of_execute hp).outstanding id).mpr hout
    rw [← htable, hnone] at hentry
    cases hentry
  · intro h
    constructor
    · intro xs x p p' id hpre hp hret hs
      rcases hret.cases hp hs with hentry | ⟨hgive, htable⟩
      · rw [hentry, if_pos rfl]
      -- it gives up, and the listener has recorded nothing for it
      · have hout := h xs x p id hpre hp hgive (Option.isSome_iff_exists.mpr ⟨p', hs⟩)
        rw [← (recorded_of_execute hp).outstanding] at hout
        rw [htable]
        exact Option.not_isSome_iff_eq_none.mp hout
    · intro xs x p p' id hpre hp hret hs id' hid
      have hsame : qos2Entry p'.state.table id' = qos2Entry p.state.table id' := by
        rcases hret.cases hp hs with hentry | ⟨-, htable⟩
        · rw [hentry, if_neg hid]
        · rw [htable]
      refine ⟨hsame, fun v hv => ?_⟩
      exact (recorded_of_execute hp).eq_lastControl id' v (hsame ▸ hv)

/-- A QoS 2 call with one attempt and one poll, whose CONTROL_RECEIVED comes and whose
CONTROL_COMPLETE does not. -/
def abandonedTrace : List SessionEvent :=
  [.setQos qosExactlyOnce, .setRetryPolicy 100 0] ++ publishing ++
    [heard (controlDatagram controlReceived 1)] ++ List.replicate 5 (.advance true)

/-- The call returns -1, and its entry stays. -/
theorem abandonedTrace_residue : ¬ NoResidue (abandonedTrace ++ [.advance true]) := by
  intro h
  have hrun : ((execute Session.next Session.init abandonedTrace).bind fun p =>
      p.call.bind fun run => (p.next (.advance true)).map fun p' =>
        ((run.msg.header.qosLevel, run.msg.header.msgId),
          (publishStep p.state run true).call.getLeft?.isNone, p'.returned.map Prod.snd,
          qos2Entry p'.state.table 1)) =
      some ((qosExactlyOnce, 1), true, [-1], some (.waitComplete, 0)) := by
    decide +kernel
  obtain ⟨p, hp, hrun⟩ := Option.bind_eq_some_iff.mp hrun
  obtain ⟨run, hc, hrun⟩ := Option.bind_eq_some_iff.mp hrun
  obtain ⟨p', hnext, hrun⟩ := Option.map_eq_some_iff.mp hrun
  simp only [Prod.mk.injEq] at hrun
  obtain ⟨⟨hq, hid⟩, hend, -, hentry⟩ := hrun
  have hnone := h.own abandonedTrace _ p p' 1 (List.prefix_refl _) hp
    (.ended hc hq hid (Option.isNone_iff_eq_none.mp hend)) hnext
  rw [hentry] at hnone
  cases hnone

end SlimMQ
