import SlimMQ.Broker.Handshake

/-!
# Which messages the broker suppresses

An entry of the pending table stands for a message that has been passed on: while it is there, a
PUBLISH of its key is only acknowledged, or dropped. `handle_control_received` looks the key up
before it writes; `handle_control_release` does not, and makes an entry for a message that nobody
has sent yet. A run suppresses nothing exactly when this does not happen in it.

## Main definitions

* `NothingSuppressed`: an entry is there exactly for what was passed on, a CONTROL_COMPLETE is sent
  after the message was passed on, and a first PUBLISH is passed on
* `ReleaseExpected`: a CONTROL_RELEASE finds an entry

## Main results

* `Effect.isSome_iff`: an expected iteration makes an entry exactly when it passes the message on
* `nothingSuppressed_iff`: a run suppresses nothing exactly when its releases are all expected
-/

namespace SlimMQ

open Buffer EventLoop

/-- A QoS 2 message with this key has been passed to `publish_to_subscribers`. -/
def PassedOn (k : PendingKey) (outs : List BrokerOutput) : Prop := 0 < qos2Calls k outs

instance (k : PendingKey) (outs : List BrokerOutput) : Decidable (PassedOn k outs) :=
  inferInstanceAs (Decidable (0 < _))

/-- **Nothing is suppressed or completed that was not passed on.** -/
structure NothingSuppressed (rs : List Reception) : Prop where
  /-- An entry exists exactly when the message was passed on. -/
  entry_iff : ∀ xs, xs <+: rs → ∀ k,
    (pendingTableGet (brokerMainLoop brokerInit xs).state.table k).isSome ↔
      PassedOn k (brokerMainLoop brokerInit xs).outputs
  /-- A CONTROL_COMPLETE is sent only after the message was passed on. -/
  complete : ∀ xs x, xs ++ [x] <+: rs → (brokerMainLoop brokerInit xs).running → ∀ k,
    .reply k.1 (controlBytes (controlHeader k.2) controlComplete) ∈
        (brokerIteration (brokerMainLoop brokerInit xs).state x).outputs →
      PassedOn k (brokerMainLoop brokerInit xs).outputs
  /-- A first PUBLISH is passed on. -/
  first : ∀ xs x, xs ++ [x] <+: rs → (brokerMainLoop brokerInit xs).running → ∀ k,
    x.PublishesQos2 k → (∀ y ∈ xs, ¬ y.PublishesQos2 k) →
      PassedOn k (brokerIteration (brokerMainLoop brokerInit xs).state x).outputs

/-- A CONTROL_RELEASE finds the entry of its message. -/
def ReleaseExpected (b : Broker) (r : Reception) : Prop :=
  r.Controls bufferSize controlRelease → (pendingTableGet b.table r.key).isSome

/-! ## One iteration -/

variable {b : Broker} {r : Reception} {k : PendingKey} {t : PendingTable} {outs : List BrokerOutput}

/-- **An expected iteration makes an entry exactly when it passes the message on.** -/
theorem Effect.isSome_iff (h : Effect b r t outs) (hC : ReleaseExpected b r) (k : PendingKey) :
    (pendingTableGet t k).isSome ↔
      (pendingTableGet b.table k).isSome ∨ 0 < SlimMQ.qos2Calls k outs := by
  -- either nothing is passed on, or the key gets its entry by being passed on
  rcases h.qos2Calls k with ⟨h0, hmade⟩ | ⟨h1, -, -, ht⟩
  · constructor
    · intro hs
      rcases hmade hs with hs | ⟨hr, rfl⟩
      · exact Or.inl hs
      -- a release that is expected finds an entry
      · exact Or.inl (hC hr)
    · rintro (hs | hpos)
      · exact h.isSome_mono hs
      · rw [h0] at hpos
        exact absurd hpos (lt_irrefl 0)
  · simp [h1, ht]

/-- Only a release is answered by a CONTROL_COMPLETE. -/
theorem Effect.of_complete (h : Effect b r t outs)
    (hm : .reply k.1 (controlBytes (controlHeader k.2) controlComplete) ∈ outs) :
    r.Controls bufferSize controlRelease ∧ r.key = k := by
  obtain ⟨ha, ⟨hd, -⟩ | ⟨hd, -, hc⟩ | ⟨hd, -⟩⟩ := h.of_reply hm
  · have := (controlBytes_inj hd).2
    cases this
  · exact ⟨hc, Prod.ext ha.symm (controlBytes_inj hd).1.symm⟩
  · exact absurd hd.symm (ackHeader_encode_ne _ _ _)

/-- A QoS 2 PUBLISH of a key without an entry is passed on. -/
theorem passedOn_of_publishesQos2 (h : r.PublishesQos2 k)
    (hn : pendingTableGet b.table k = none) : PassedOn k (brokerIteration b r).outputs := by
  obtain ⟨hp, hq, rfl⟩ := h
  have hmem : .publish r.clientAddr r.call ∈ (brokerIteration b r).outputs := by
    have hn' : pendingTableGet b.table (r.clientAddr, r.header.msgId) = none := hn
    rw [brokerIteration_of_publishes b hp]
    simp only [handlePublish, if_pos hq, hn']
    -- the call is made, whether or not it returns
    cases publishToSubscribers b.topicRoot r.header r.topicStr r.payload r.payloadLength with
    | none => exact List.mem_singleton_self _
    | some forwards => exact List.mem_cons_self
  exact List.countP_pos_iff.mpr ⟨r.call, mem_publishCalls.mpr ⟨hmem, rfl⟩, decide_eq_true hq⟩

/-! ## Runs -/

variable {rs : List Reception}

/-- In a run whose releases are expected, the entries are those of the messages passed on. -/
theorem isSome_iff_passedOn (h : Along brokerIteration ReleaseExpected brokerInit rs)
    (k : PendingKey) :
    (pendingTableGet (brokerMainLoop brokerInit rs).state.table k).isSome ↔
      PassedOn k (brokerMainLoop brokerInit rs).outputs := by
  refine run_induction
    (P := fun s outs => (pendingTableGet s.table k).isSome ↔ PassedOn k outs) ?_ ?_ h
  · simp [brokerInit, PassedOn, qos2Calls]
  · intro s outs x hx ih
    rw [(brokerIteration_effect s x).isSome_iff hx k, ih, PassedOn, PassedOn, qos2Calls_append,
      Nat.add_pos_iff_pos_or_pos]

/-- What is passed on was received as a PUBLISH. -/
theorem exists_publishesQos2 (h : PassedOn k (brokerMainLoop brokerInit rs).outputs) :
    ∃ r ∈ rs, r.PublishesQos2 k := by
  obtain ⟨c, hc, hq⟩ := List.countP_pos_iff.mp h
  obtain ⟨hmem, hid⟩ := mem_publishCalls.mp hc
  -- the call was made in some iteration, on its own datagram
  obtain ⟨xs, x, hpre, -, hx⟩ := exists_of_mem_outputs hmem
  refine ⟨x, hpre.subset (by simp), ?_⟩
  have hpos : 0 < qos2Calls k (handshake
      (brokerIteration (run brokerIteration brokerInit xs).state x).outputs) := by
    rw [qos2Calls, publishCalls_handshake]
    exact List.countP_pos_iff.mpr ⟨c, mem_publishCalls.mpr ⟨hx, hid⟩, hq⟩
  rcases (brokerIteration_effect (run brokerIteration brokerInit xs).state x).qos2Calls k with
    ⟨h0, -⟩ | ⟨-, hp, -⟩
  · rw [h0] at hpos
    exact absurd hpos (lt_irrefl 0)
  · exact hp

/-- **A run suppresses nothing exactly when its releases are expected.** -/
theorem nothingSuppressed_iff (rs : List Reception) :
    NothingSuppressed rs ↔ Along brokerIteration ReleaseExpected brokerInit rs := by
  constructor
  · intro h xs x hpre hr hrel
    have hxs : xs <+: rs := (List.prefix_append xs [x]).trans hpre
    -- the release leaves an entry, and passes nothing on
    have hent : (pendingTableGet
        (brokerMainLoop brokerInit (xs ++ [x])).state.table x.key).isSome := by
      rw [brokerMainLoop, run_snoc brokerInit xs x hr, brokerIteration_of_controls _ hrel]
      simp [handleControlRelease, Result.ok, Reception.key]
    have hpass := (h.entry_iff (xs ++ [x]) hpre x.key).mp hent
    rw [brokerMainLoop, run_snoc brokerInit xs x hr, PassedOn, qos2Calls_append] at hpass
    rcases (brokerIteration_effect (run brokerIteration brokerInit xs).state x).qos2Calls x.key with
      ⟨h0, -⟩ | ⟨-, hp, -⟩
    · rw [h0, Nat.add_zero] at hpass
      exact (h.entry_iff xs hxs x.key).mpr hpass
    -- a release is no PUBLISH
    · have hpub := hp.1.2
      rw [hrel.2.1] at hpub
      cases hpub
  · intro h
    refine ⟨fun xs hxs k => isSome_iff_passedOn (h.of_prefix hxs) k, ?_, ?_⟩
    · intro xs x hpre hr k hm
      have hxs : xs <+: rs := (List.prefix_append xs [x]).trans hpre
      -- only a release is answered so, and it has found an entry
      obtain ⟨hrel, rfl⟩ := (brokerIteration_effect _ x).of_complete ((mem_handshake rfl).mpr hm)
      exact (isSome_iff_passedOn (h.of_prefix hxs) x.key).mp (h xs x hpre hr hrel)
    · intro xs x hpre hr k hx hfirst
      have hxs : xs <+: rs := (List.prefix_append xs [x]).trans hpre
      -- an entry would have come from an earlier PUBLISH
      refine passedOn_of_publishesQos2 hx (Option.not_isSome_iff_eq_none.mp fun hs => ?_)
      obtain ⟨y, hy, hyp⟩ :=
        exists_publishesQos2 ((isSome_iff_passedOn (h.of_prefix hxs) k).mp hs)
      exact hfirst y hy hyp

/-- A CONTROL_RELEASE from a client that has sent nothing before. -/
def strayRelease : Reception :=
  receptionOf ⟨2, 40000, 0x0100007f, 0⟩ [1, 3, 2, 0, 0, 7, 0, 0, 0, 0, 1, 1, 1, 0, 1, 2]

/-- The broker completes the message 7, which it has never received. -/
theorem strayRelease_suppresses : ¬ NothingSuppressed [strayRelease] := by
  intro h
  have hpass := (h.entry_iff [strayRelease] (List.prefix_refl _) strayRelease.key).mp (by decide)
  exact absurd hpass (by decide)

end SlimMQ
