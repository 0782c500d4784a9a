import SlimMQ.Broker.Broker

/-!
# The QoS 2 handshake at the broker

What the broker's iterations do to the pending table, and which calls and replies go with it. The
status of a key moves from absent over RECEIVED and WAIT_RELEASE to COMPLETED, and the call of
`publish_to_subscribers` for a key is made when its entry appears. A CONTROL_RELEASE, however,
writes its entry without looking the key up, so that an entry may also appear without a call.

## Main definitions

* `Effect`: the table and the outputs, less the forwarded datagrams, that an iteration leaves
* `publishCalls`: the calls of `publish_to_subscribers` for a key
* `statusRank`: the order of the statuses
* `PassedOnce`: the invariant that a key is passed on at most once

## Main results

* `brokerIteration_effect`: what an iteration leaves
* `Effect.qos2Calls`: the iteration that passes a key on makes its entry
* `pendingStatus_forward`: the statuses move forward, each by its own client, and a key is passed on
  at most once
-/

namespace SlimMQ

open Buffer EventLoop

/-! ## Calls and replies -/

/-- The call that an output records, if it is one for the key. -/
def BrokerOutput.callFor (k : PendingKey) : BrokerOutput → Option PublishCall
  | .publish client call => if (client, call.header.msgId) = k then some call else none
  | _ => none

/-- **The calls of `publish_to_subscribers` for a key**, in order. -/
def publishCalls (k : PendingKey) (outs : List BrokerOutput) : List PublishCall :=
  outs.filterMap (BrokerOutput.callFor k)

@[simp] theorem publishCalls_nil (k : PendingKey) : publishCalls k [] = [] := rfl

@[simp] theorem publishCalls_append (k : PendingKey) (outs outs' : List BrokerOutput) :
    publishCalls k (outs ++ outs') = publishCalls k outs ++ publishCalls k outs' :=
  List.filterMap_append

theorem mem_publishCalls {k : PendingKey} {outs : List BrokerOutput} {c : PublishCall} :
    c ∈ publishCalls k outs ↔ .publish k.1 c ∈ outs ∧ c.header.msgId = k.2 := by
  simp only [publishCalls, List.mem_filterMap]
  constructor
  · rintro ⟨o, ho, hc⟩
    -- only a recorded call can be one for the key
    cases o with
    | publish client call =>
      simp only [BrokerOutput.callFor] at hc
      split at hc
      · rename_i hk
        obtain rfl := Option.some.inj hc
        subst hk
        exact ⟨ho, rfl⟩
      · cases hc
    | forward dest bytes => cases hc
    | reply dest bytes => cases hc
  · rintro ⟨ho, hk⟩
    exact ⟨_, ho, by simp [BrokerOutput.callFor, hk]⟩

/-- A datagram sent on by `publish_to_subscribers`. -/
def BrokerOutput.isForward : BrokerOutput → Bool
  | .forward _ _ => true
  | _ => false

/-- The outputs that belong to the handshakes: the calls and the replies. -/
def handshake (outs : List BrokerOutput) : List BrokerOutput := outs.filter (!·.isForward)

@[simp] theorem handshake_append (outs outs' : List BrokerOutput) :
    handshake (outs ++ outs') = handshake outs ++ handshake outs' :=
  List.filter_append outs outs'

theorem publishCalls_handshake (k : PendingKey) (outs : List BrokerOutput) :
    publishCalls k (handshake outs) = publishCalls k outs := by
  induction outs with
  | nil => rfl
  | cons o outs ih =>
    cases o with
    | forward dest bytes => exact ih
    | publish client call =>
      -- the head is kept, and counted on both sides
      change publishCalls k ([.publish client call] ++ handshake outs) =
        publishCalls k ([.publish client call] ++ outs)
      rw [publishCalls_append, publishCalls_append, ih]
    | reply dest bytes => exact ih

theorem mem_handshake {outs : List BrokerOutput} {o : BrokerOutput} (ho : o.isForward = false) :
    o ∈ handshake outs ↔ o ∈ outs := by
  simp [handshake, ho]

/-- The bytes of a control reply. -/
theorem controlBytes_eq (id : UInt32) (c : ControlType) :
    controlBytes (controlHeader id) c = (controlHeader id).encode ++ [c] := rfl

theorem controlBytes_inj {id id' : UInt32} {c c' : ControlType}
    (h : controlBytes (controlHeader id) c = controlBytes (controlHeader id') c') :
    id = id' ∧ c = c' := by
  rw [controlBytes_eq, controlBytes_eq] at h
  obtain ⟨hh, hc⟩ := List.append_inj h rfl
  exact ⟨congrArg SlimMsgHeader.msgId (SlimMsgHeader.encode_injective hh), List.cons.inj hc |>.1⟩

theorem ackHeader_encode_ne (id id' : UInt32) (c : ControlType) :
    (ackHeader id).encode ≠ controlBytes (controlHeader id') c := by
  intro h
  -- an acknowledgement has no control byte
  have hl := congrArg List.length h
  simp [controlBytes_eq] at hl

/-! ## What an iteration leaves -/

namespace Reception

variable (r : Reception)

/-- The CONTROL_RECEIVED, CONTROL_COMPLETE and MSG_ACK that answer a datagram. -/
def controlReply (c : ControlType) : BrokerOutput :=
  .reply r.clientAddr (controlBytes (controlHeader r.header.msgId) c)

@[inherit_doc controlReply]
def ackReply : BrokerOutput := .reply r.clientAddr (ackHeader r.header.msgId).encode

end Reception

/-- **The effect of an iteration** on the pending table, with the calls and replies it makes. A
broken iteration ends at its call, so that a call may come without the reply after it. -/
inductive Effect (b : Broker) (r : Reception) : PendingTable → List BrokerOutput → Prop
  | silent : Effect b r b.table []
  | forward {replies : List BrokerOutput} (h : r.Publishes)
      (hq : r.header.qosLevel ≠ qosExactlyOnce)
      (hr : replies = [] ∨ r.header.qosLevel = qosAtLeastOnce ∧ replies = [r.ackReply]) :
      Effect b r b.table (.publish r.clientAddr r.call :: replies)
  | first {replies : List BrokerOutput} (now : Int) (h : r.Publishes)
      (hq : r.header.qosLevel = qosExactlyOnce) (hk : pendingTableGet b.table r.key = none)
      (hr : replies = [] ∨ replies = [r.controlReply controlReceived]) :
      Effect b r (pendingTableUpdate b.table r.key .received now)
        (.publish r.clientAddr r.call :: replies)
  | again {s : Qos2State} (h : r.Publishes) (hq : r.header.qosLevel = qosExactlyOnce)
      (hk : pendingTableGet b.table r.key = some s) :
      Effect b r b.table [r.controlReply controlReceived]
  | received (now : Int) (h : r.Controls bufferSize controlReceived)
      (hk : pendingTableGet b.table r.key = some .received) :
      Effect b r (pendingTableUpdate b.table r.key .waitRelease now) []
  | release (now₁ now₂ : Int) (h : r.Controls bufferSize controlRelease) :
      Effect b r (pendingTableUpdate (pendingTableUpdate b.table r.key .released now₁) r.key
        .completed now₂) [r.controlReply controlComplete]

variable {b : Broker} {r : Reception}

theorem handshake_publishToSubscribers {root : TopicNode} {header : SlimMsgHeader}
    {topicStr : CString} {payload : Mem} {payloadLength : ℕ} {outs : List BrokerOutput}
    (h : publishToSubscribers root header topicStr payload payloadLength = some outs) :
    handshake outs = [] := by
  apply List.filter_eq_nil_iff.mpr
  intro o ho
  obtain ⟨dest, len, bytes, rfl, -⟩ := mem_publishToSubscribers h o ho
  simp [BrokerOutput.isForward]

/-- A call of `publish_to_subscribers` returns, and what comes after it is done, or it does not. -/
theorem handshake_publishThen {root : TopicNode} {header : SlimMsgHeader}
    {topicStr : CString} {payload : Mem} {payloadLength : ℕ} {client : SockaddrIn}
    {c : PublishCall} (rest : List BrokerOutput) (hrest : handshake rest = rest) :
    handshake (publishThen b (.publish client c)
        (publishToSubscribers root header topicStr payload payloadLength) rest).outputs =
        [.publish client c] ∨
      handshake (publishThen b (.publish client c)
        (publishToSubscribers root header topicStr payload payloadLength) rest).outputs =
        .publish client c :: rest := by
  cases hsent : publishToSubscribers root header topicStr payload payloadLength with
  -- a null segment has ended the process
  | none => exact Or.inl rfl
  | some forwards =>
    right
    change handshake ([.publish client c] ++ (forwards ++ rest)) = _
    rw [handshake_append, handshake_append, handshake_publishToSubscribers hsent, hrest]
    rfl

theorem handlePublish_effect (h : r.Publishes) (now : Int) :
    let res := handlePublish b r.header r.topicStr r.payload r.payloadLength r.clientAddr now
    Effect b r res.state.table (handshake res.outputs) := by
  intro res
  by_cases h2 : r.header.qosLevel = qosExactlyOnce
  · cases hk : pendingTableGet b.table (r.clientAddr, r.header.msgId) with
    | none =>
      -- no entry: the message is passed on
      have hres : res = publishThen
          { b with table := pendingTableUpdate b.table r.key .received now }
          (.publish r.clientAddr r.call)
          (publishToSubscribers b.topicRoot r.header r.topicStr r.payload r.payloadLength)
          [r.controlReply controlReceived] := by
        simp only [res, handlePublish, if_pos h2, hk]
        rfl
      rw [hres, state_publishThen]
      rcases handshake_publishThen [r.controlReply controlReceived] rfl with he | he <;>
        rw [he]
      · exact .first now h h2 hk (Or.inl rfl)
      · exact .first now h h2 hk (Or.inr rfl)
    | some s =>
      cases s with
      | completed =>
        -- completed: the message is dropped
        have hres : res = .ok b [] := by
          simp only [res, handlePublish, if_pos h2, hk]
        rw [hres]
        exact .silent
      | _ =>
        -- under way: it is acknowledged again
        have hres : res = .ok b [r.controlReply controlReceived] := by
          simp only [res, handlePublish, if_pos h2, hk]
          rfl
        rw [hres]
        exact .again h h2 hk
  · -- the branches without a handshake differ in the acknowledgement only
    have hres : ∃ acks, (acks = [] ∨ r.header.qosLevel = qosAtLeastOnce ∧ acks = [r.ackReply]) ∧
        res = publishThen b (.publish r.clientAddr r.call)
          (publishToSubscribers b.topicRoot r.header r.topicStr r.payload r.payloadLength)
          acks := by
      by_cases h1 : r.header.qosLevel = qosAtLeastOnce
      · refine ⟨[r.ackReply], Or.inr ⟨h1, rfl⟩, ?_⟩
        simp only [res, handlePublish, if_neg h2, if_pos h1]
        rfl
      · refine ⟨[], Or.inl rfl, ?_⟩
        simp only [res, handlePublish, if_neg h2, if_neg h1]
        rfl
    obtain ⟨acks, hacks, hres⟩ := hres
    have hh : handshake acks = acks := by
      rcases hacks with rfl | ⟨-, rfl⟩ <;> rfl
    rw [hres, state_publishThen]
    rcases handshake_publishThen acks hh with he | he <;> rw [he]
    · exact .forward h h2 (Or.inl rfl)
    · exact .forward h h2 hacks

/-- **What an iteration leaves.** -/
theorem brokerIteration_effect (b : Broker) (r : Reception) :
    Effect b r (brokerIteration b r).state.table (handshake (brokerIteration b r).outputs) := by
  have h := brokerIteration_handled b r
  generalize brokerIteration b r = res at h ⊢
  cases h with
  | ignored => exact .silent
  | subscribe topicStr =>
    unfold handleSubscribe
    split <;> exact .silent
  | publish h => exact handlePublish_effect h _
  | release h => exact .release _ _ h
  | received h =>
    unfold handleControlReceived
    split
    · rename_i hk
      exact .received _ h hk
    · exact .silent

/-- **The replies of an iteration** go to its client, and tell what it has done for the message. -/
theorem Effect.of_reply {t : PendingTable} {outs : List BrokerOutput} (h : Effect b r t outs)
    {a : SockaddrIn} {d : Datagram} (hm : .reply a d ∈ outs) :
    a = r.clientAddr ∧
      (d = controlBytes (controlHeader r.header.msgId) controlReceived ∧
          (pendingTableGet t r.key).isSome ∨
        d = controlBytes (controlHeader r.header.msgId) controlComplete ∧
          pendingTableGet t r.key = some .completed ∧ r.Controls bufferSize controlRelease ∨
        d = (ackHeader r.header.msgId).encode ∧ .publish r.clientAddr r.call ∈ outs) := by
  cases h with
  | silent => cases hm
  | forward h hq hr =>
    rcases hr with rfl | ⟨-, rfl⟩
    · simp at hm
    · obtain ⟨rfl, rfl⟩ : a = r.clientAddr ∧ d = (ackHeader r.header.msgId).encode := by
        simpa [Reception.ackReply] using hm
      exact ⟨rfl, Or.inr (Or.inr ⟨rfl, List.mem_cons_self⟩)⟩
  | first now h hq hn hr =>
    rcases hr with rfl | rfl
    · simp at hm
    · obtain ⟨rfl, rfl⟩ : a = r.clientAddr ∧
          d = controlBytes (controlHeader r.header.msgId) controlReceived := by
        simpa [Reception.controlReply] using hm
      exact ⟨rfl, Or.inl ⟨rfl, by rw [pendingTableGet_update_self]; rfl⟩⟩
  | again h hq hs =>
    obtain ⟨rfl, rfl⟩ := BrokerOutput.reply.inj (List.mem_singleton.mp hm)
    exact ⟨rfl, Or.inl ⟨rfl, by rw [hs]; rfl⟩⟩
  | received now h hs => cases hm
  | release now₁ now₂ h =>
    obtain ⟨rfl, rfl⟩ := BrokerOutput.reply.inj (List.mem_singleton.mp hm)
    exact ⟨rfl, Or.inr (Or.inl ⟨rfl, pendingTableGet_update_self .., h⟩)⟩

/-- The calls of an iteration are for its datagram. -/
theorem Effect.of_publish {t : PendingTable} {outs : List BrokerOutput} (h : Effect b r t outs)
    {a : SockaddrIn} {c : PublishCall} (hm : .publish a c ∈ outs) :
    r.Publishes ∧ a = r.clientAddr ∧ c = r.call := by
  cases h with
  | silent => cases hm
  | forward h hq hr =>
    refine ⟨h, ?_⟩
    rcases hr with rfl | ⟨-, rfl⟩ <;> simpa [Reception.ackReply] using hm
  | first now h hq hn hr =>
    refine ⟨h, ?_⟩
    rcases hr with rfl | rfl <;> simpa [Reception.controlReply] using hm
  | again h hq hs => simp [Reception.controlReply] at hm
  | received now h hs => cases hm
  | release now₁ now₂ h => simp [Reception.controlReply] at hm

/-! ## The order of the statuses -/

/-- **The order of the statuses** of a key, from its absence on. -/
def statusRank : Option Qos2State → ℕ
  | none => 0
  | some .received => 1
  | some .waitRelease => 2
  | some .released => 3
  | some .completed => 4

/-- How often the QoS 2 branch of `handle_publish` has passed on a key. -/
def qos2Calls (k : PendingKey) (outs : List BrokerOutput) : ℕ :=
  (publishCalls k outs).countP (·.header.qosLevel = qosExactlyOnce)

/-- The datagram is a QoS 2 PUBLISH with this key. -/
def Reception.PublishesQos2 (r : Reception) (k : PendingKey) : Prop :=
  r.Publishes ∧ r.header.qosLevel = qosExactlyOnce ∧ r.key = k

variable {k : PendingKey} {t : PendingTable} {outs : List BrokerOutput}

/-- A call and the replies after it. -/
theorem publishCalls_call (r : Reception) (hr : publishCalls k outs = []) :
    publishCalls k (.publish r.clientAddr r.call :: outs) = if r.key = k then [r.call] else [] := by
  have hcall : BrokerOutput.callFor k (.publish r.clientAddr r.call) =
      if r.key = k then some r.call else none := rfl
  unfold publishCalls at hr ⊢
  by_cases hk : r.key = k
  · rw [if_pos hk] at hcall ⊢
    rw [List.filterMap_cons_some hcall, hr]
  · rw [if_neg hk] at hcall ⊢
    rw [List.filterMap_cons_none hcall, hr]

/-- An iteration touches no key but that of its datagram. -/
theorem Effect.of_ne (h : Effect b r t outs) (hk : r.key ≠ k) :
    pendingTableGet t k = pendingTableGet b.table k ∧ publishCalls k outs = [] := by
  have hk' : k ≠ r.key := hk.symm
  cases h with
  | silent => exact ⟨rfl, rfl⟩
  | forward h hq hr =>
    refine ⟨rfl, ?_⟩
    rw [publishCalls_call r (by rcases hr with rfl | ⟨-, rfl⟩ <;> rfl), if_neg hk]
  | first now h hq hn hr =>
    refine ⟨by rw [pendingTableGet_update, if_neg hk'], ?_⟩
    rw [publishCalls_call r (by rcases hr with rfl | rfl <;> rfl), if_neg hk]
  | again h hq hs => exact ⟨rfl, rfl⟩
  | received now h hs => exact ⟨by rw [pendingTableGet_update, if_neg hk'], rfl⟩
  | release now₁ now₂ h =>
    exact ⟨by rw [pendingTableGet_update, if_neg hk', pendingTableGet_update, if_neg hk'], rfl⟩

/-- **One iteration moves a status forward.** -/
theorem Effect.statusRank_le (h : Effect b r t outs) (k : PendingKey) :
    statusRank (pendingTableGet b.table k) ≤ statusRank (pendingTableGet t k) := by
  by_cases hk : r.key = k
  · subst hk
    cases h with
    | silent => exact le_rfl
    | forward h hq hr => exact le_rfl
    | first now h hq hn hr => rw [hn]; exact Nat.zero_le _
    | again h hq hs => exact le_rfl
    | received now h hs =>
      rw [hs, pendingTableGet_update_self]
      decide
    | release now₁ now₂ h =>
      -- a release writes COMPLETED over whatever was there
      rw [pendingTableGet_update_self]
      rcases pendingTableGet b.table r.key with - | (- | - | - | -) <;> decide
  · rw [(h.of_ne hk).1]

theorem Effect.ne_released (h : Effect b r t outs)
    (hb : pendingTableGet b.table k ≠ some .released) :
    pendingTableGet t k ≠ some .released := by
  by_cases hk : r.key = k
  · subst hk
    cases h with
    | silent => exact hb
    | forward h hq hr => exact hb
    | again h hq hs => exact hb
    | _ => rw [pendingTableGet_update_self]; decide
  · rwa [(h.of_ne hk).1]

/-- **A key is passed on when a PUBLISH makes its entry**; a release makes one as well. -/
theorem Effect.qos2Calls (h : Effect b r t outs) (k : PendingKey) :
    qos2Calls k outs = 0 ∧ ((pendingTableGet t k).isSome →
        (pendingTableGet b.table k).isSome ∨ r.Controls bufferSize controlRelease ∧ r.key = k) ∨
      qos2Calls k outs = 1 ∧ r.PublishesQos2 k ∧ pendingTableGet b.table k = none ∧
        pendingTableGet t k = some .received := by
  by_cases hk : r.key = k
  · subst hk
    cases h with
    | silent => exact Or.inl ⟨rfl, Or.inl⟩
    | forward h hq hr =>
      have hc : r.call.header.qosLevel ≠ qosExactlyOnce := hq
      refine Or.inl ⟨?_, Or.inl⟩
      rw [SlimMQ.qos2Calls, publishCalls_call r (by rcases hr with rfl | ⟨-, rfl⟩ <;> rfl)]
      simp [hc]
    | first now h hq hn hr =>
      have hc : r.call.header.qosLevel = qosExactlyOnce := hq
      refine Or.inr ⟨?_, ⟨h, hq, rfl⟩, hn, pendingTableGet_update_self ..⟩
      rw [SlimMQ.qos2Calls, publishCalls_call r (by rcases hr with rfl | rfl <;> rfl)]
      simp [hc]
    | again h hq hs => exact Or.inl ⟨rfl, Or.inl⟩
    | received now h hs => exact Or.inl ⟨rfl, fun _ => Or.inl (by rw [hs]; rfl)⟩
    | release now₁ now₂ h => exact Or.inl ⟨rfl, fun _ => Or.inr ⟨h, rfl⟩⟩
  · obtain ⟨ht, hc⟩ := h.of_ne hk
    refine Or.inl ⟨?_, fun hs => Or.inl (ht ▸ hs)⟩
    rw [SlimMQ.qos2Calls, hc]
    rfl

/-- An entry is not removed. -/
theorem Effect.isSome_mono (h : Effect b r t outs) (hs : (pendingTableGet b.table k).isSome) :
    (pendingTableGet t k).isSome := by
  have hle := h.statusRank_le k
  -- only an absent key has the rank 0
  rcases hb : pendingTableGet b.table k with - | s
  · rw [hb] at hs
    cases hs
  · rcases ht : pendingTableGet t k with - | s'
    · rw [hb, ht] at hle
      cases s <;> simp [statusRank] at hle
    · rfl

/-- A completed entry stays as it is. -/
theorem Effect.completed_mono (h : Effect b r t outs)
    (hs : pendingTableGet b.table k = some .completed) :
    pendingTableGet t k = some .completed := by
  have hle := h.statusRank_le k
  rw [hs] at hle
  generalize pendingTableGet t k = status at hle ⊢
  rcases status with - | (- | - | - | -) <;> simp [statusRank] at hle ⊢

/-- A key without an entry has not been passed on, and no key is passed on twice. -/
structure PassedOnce (k : PendingKey) (b : Broker) (outs : List BrokerOutput) : Prop where
  not_released : pendingTableGet b.table k ≠ some .released
  absent : pendingTableGet b.table k = none → qos2Calls k outs = 0
  once : qos2Calls k outs ≤ 1

theorem qos2Calls_append (k : PendingKey) (outs outs' : List BrokerOutput) :
    qos2Calls k (outs ++ outs') = qos2Calls k outs + qos2Calls k (handshake outs') := by
  rw [qos2Calls, publishCalls_append, List.countP_append, ← publishCalls_handshake k outs']
  rfl

theorem passedOnce_step {outs₀ : List BrokerOutput} (hinv : PassedOnce k b outs₀)
    (r : Reception) :
    PassedOnce k (brokerIteration b r).state (outs₀ ++ (brokerIteration b r).outputs) := by
  have h := brokerIteration_effect b r
  obtain ⟨hrel, habs, honce⟩ := hinv
  refine ⟨h.ne_released hrel, ?_, ?_⟩
  · intro hn
    -- what is absent now was absent before, as entries stay
    have hb : pendingTableGet b.table k = none := by
      apply Option.not_isSome_iff_eq_none.mp
      intro hs
      have := h.isSome_mono hs
      rw [hn] at this
      cases this
    rw [qos2Calls_append, habs hb]
    rcases h.qos2Calls k with ⟨h0, -⟩ | ⟨-, -, -, hs⟩
    · rw [h0]
    · rw [hn] at hs
      cases hs
  · rw [qos2Calls_append]
    rcases h.qos2Calls k with ⟨h0, -⟩ | ⟨h1, -, hb, -⟩
    · rw [h0]
      exact honce
    -- the key had no entry, so this is the first time
    · rw [h1, habs hb]

/-- A status that changes does so by a datagram with a header. -/
theorem Effect.headerSize_le (h : Effect b r t outs)
    (hne : pendingTableGet t k ≠ pendingTableGet b.table k) : headerSize ≤ r.len := by
  cases h with
  | silent => exact absurd rfl hne
  | forward h hq hr => exact absurd rfl hne
  | first now h hq hn hr => exact h.1.header
  | again h hq hs => exact absurd rfl hne
  | received now h hs => exact Nat.le_of_succ_le h.1.header
  | release now₁ now₂ h => exact Nat.le_of_succ_le h.1.header

theorem statusRank_brokerMainLoop_le (rs rs' : List Reception) (k : PendingKey) :
    statusRank (pendingTableGet (brokerMainLoop brokerInit rs).state.table k) ≤
      statusRank (pendingTableGet (brokerMainLoop brokerInit (rs ++ rs')).state.table k) := by
  by_cases hr : (brokerMainLoop brokerInit rs).running
  · rw [brokerMainLoop, brokerMainLoop, run_append brokerInit rs rs' hr]
    -- the invariant of the rest of the run is that nothing has fallen below the status at its start
    exact run_induction (C := fun _ _ => True)
      (P := fun s _ => statusRank (pendingTableGet (brokerMainLoop brokerInit rs).state.table k) ≤
        statusRank (pendingTableGet s.table k)) le_rfl
      (fun s _ x _ h => h.trans ((brokerIteration_effect s x).statusRank_le k)) (along_true _ rs')
  · rw [brokerMainLoop, brokerMainLoop, run_append_of_not_running brokerInit rs rs' hr]

/-- **The broker's QoS 2 state machine**: along every run from the start, a status moves forward
only, is never RELEASED between two iterations, changes by a datagram of its own client with its
own message id only, and its message is passed on at most once. -/
theorem pendingStatus_forward (rs rs' : List Reception) (r : Reception) (k : PendingKey) :
    let status := fun xs => pendingTableGet (brokerMainLoop brokerInit xs).state.table k
    statusRank (status rs) ≤ statusRank (status (rs ++ rs')) ∧
      status rs ≠ some .released ∧
      (status (rs ++ [r]) ≠ status rs →
        headerSize ≤ r.len ∧ r.clientAddr = k.1 ∧ r.header.msgId = k.2) ∧
      qos2Calls k (brokerMainLoop brokerInit rs).outputs ≤ 1 := by
  intro status
  have hinv : PassedOnce k (brokerMainLoop brokerInit rs).state
      (brokerMainLoop brokerInit rs).outputs :=
    run_induction (C := fun _ _ => True) (P := PassedOnce k)
      ⟨by simp [brokerInit], fun _ => rfl, Nat.zero_le 1⟩
      (fun _ _ x _ h => passedOnce_step h x) (along_true brokerInit rs)
  refine ⟨statusRank_brokerMainLoop_le rs rs' k, hinv.not_released, ?_, hinv.once⟩
  intro hne
  by_cases hr : (brokerMainLoop brokerInit rs).running
  · have h := brokerIteration_effect (brokerMainLoop brokerInit rs).state r
    have hsnoc : status (rs ++ [r]) = pendingTableGet
        (brokerIteration (brokerMainLoop brokerInit rs).state r).state.table k := by
      simp only [status]
      rw [brokerMainLoop, run_snoc brokerInit rs r hr]
      rfl
    rw [hsnoc] at hne
    -- another key would have kept its status
    have hk : r.key = k := by
      by_contra hk
      exact hne (h.of_ne hk).1
    subst hk
    exact ⟨h.headerSize_le hne, rfl, rfl⟩
  · have hstop : brokerMainLoop brokerInit (rs ++ [r]) = brokerMainLoop brokerInit rs :=
      run_append_of_not_running brokerInit rs [r] hr
    simp only [status, hstop, ne_eq, not_true_eq_false] at hne

end SlimMQ
