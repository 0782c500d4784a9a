import SlimMQ.Broker.Broker
import SlimMQ.Topic.Matching

/-!
# What the broker forwards

The loop decodes a PUBLISH into two buffers, takes the length of its data from the string in the
topic buffer, and encodes it again for each subscriber. What comes out is the datagram itself, when
it is a frame from its first to its last byte and its topic has no NUL byte and no empty segment.

## Main definitions

* `forwards`: the datagrams sent on to subscribers
* `FullPublish`: a datagram that is a PUBLISH from its first to its last byte, and still to be
  passed on

## Main results

* `forwards_handlePublish`: the branches of `handle_publish` forward the same
* `forward_mem_brokerIteration`: nothing but a PUBLISH is sent on
* `forwards_brokerIteration`: one copy of the datagram goes to each matching subscriber, and nothing
  to anyone else
-/

namespace SlimMQ

open Buffer EventLoop

/-- The datagram that an output sends on, with its destination. -/
def BrokerOutput.forwarded : BrokerOutput → Option (SockaddrIn × Datagram)
  | .forward dest bytes => some (dest, bytes)
  | _ => none

/-- **The datagrams sent on to subscribers**, in order. -/
def forwards (outs : List BrokerOutput) : List (SockaddrIn × Datagram) :=
  outs.filterMap BrokerOutput.forwarded

@[simp] theorem forwards_append (outs outs' : List BrokerOutput) :
    forwards (outs ++ outs') = forwards outs ++ forwards outs' :=
  List.filterMap_append

/-- A datagram that is a PUBLISH frame from its first to its last byte, of the topic `t`, with at
most as many bytes as the broker's buffer, and without a pending entry at QoS 2. -/
structure FullPublish (b : Broker) (r : Reception) (t : CString) : Prop where
  size : r.datagram.length ≤ bufferSize
  type : r.header.msgType = msgPublish
  payload : headerSize + payloadLen r.mem = r.datagram.length
  lengths : 1 + topicLen r.mem ≤ payloadLen r.mem
  topic : topicBytes r.mem = t.bytes
  wellFormed : WellFormedTopic t
  qos : r.header.qosLevel = qosExactlyOnce → pendingTableGet b.table r.key = none

variable {b : Broker} {r : Reception} {t : CString}

theorem FullPublish.len_eq (h : FullPublish b r t) : r.len = r.datagram.length := by
  rw [Received.len, List.take_of_length_le h.size]

theorem FullPublish.publishes (h : FullPublish b r t) : r.Publishes := by
  have hlen := h.len_eq
  have hpay := h.payload
  have hle := h.lengths
  have hsize := h.size
  refine ⟨⟨by omega, Or.inr ⟨by omega, fun _ _ => topicLen_lt r.mem, fun _ => by omega⟩⟩, h.type⟩

/-- The buffer holds the datagram. -/
theorem FullPublish.read_mem (h : FullPublish b r t) :
    r.mem.read 0 (headerSize + payloadLen r.mem) = r.datagram := by
  rw [h.payload, Received.mem, List.take_of_length_le h.size, Mem.read_write]

theorem FullPublish.topicStr_eq (h : FullPublish b r t) : r.topicStr = t := by
  have h0 : 0 ∉ topicBytes r.mem := h.topic ▸ t.noNul
  exact CString.ext ((bytes_publishedTopic_of_noNul r.mem r.topic h0).trans h.topic)

/-- What is decoded is encoded as it came. -/
theorem FullPublish.serializeMessage (h : FullPublish b r t) :
    serializeMessage r.header (some t) r.payload r.payloadLength bufferSize =
      some ((r.datagram.length : Int), r.datagram) := by
  have hlen : topicLen r.mem + 1 ≤ payloadLen r.mem := by
    have := h.lengths
    omega
  have hsize : headerSize + payloadLen r.mem ≤ bufferSize := h.payload ▸ h.size
  have hser := serializeMessage_published r.topic r.data hlen hsize (h.topic ▸ t.noNul)
  rw [h.read_mem, h.payload, show publishedTopic r.mem r.topic = t from h.topicStr_eq] at hser
  exact hser

/-! ## One call of `publish_to_subscribers` -/

/-- When the message is encoded, one copy goes to each matching subscriber. -/
theorem publishToSubscribers_eq {root : TopicNode} {header : SlimMsgHeader} {payload : Mem}
    {payloadLength : ℕ} {targets : SubscriberList} {len : Int} {bytes : Datagram}
    (ht : getMatchingSubscribers root t = some targets)
    (hs : serializeMessage header (some t) payload payloadLength bufferSize = some (len, bytes))
    (hlen : 0 < len) :
    publishToSubscribers root header t payload payloadLength =
      some (targets.entries.map (.forward · bytes)) := by
  -- the encoding does not depend on the subscriber
  have hf : forwardTo header t payload payloadLength =
      fun dest => pure [BrokerOutput.forward dest bytes] := by
    funext dest
    simp only [forwardTo, hs, if_pos hlen]
    rfl
  simp only [publishToSubscribers, ht, hf, List.mapM_pure]
  exact congrArg some (List.flatMap_pure_eq_map _ _)

theorem forwards_publishThen (b : Broker) (client : SockaddrIn) (c : PublishCall)
    (outs rest : List BrokerOutput) (hrest : forwards rest = []) :
    forwards (publishThen b (.publish client c) (some outs) rest).outputs = forwards outs := by
  change forwards ([.publish client c] ++ (outs ++ rest)) = forwards outs
  rw [forwards_append, forwards_append, hrest, List.append_nil]
  rfl

/-- **Every branch of `handle_publish` that passes a message on forwards the same.** -/
theorem forwards_handlePublish {header : SlimMsgHeader} {payload : Mem} {payloadLength : ℕ}
    {client : SockaddrIn} {now : Int} {outs : List BrokerOutput}
    (hq : header.qosLevel = qosExactlyOnce →
      pendingTableGet b.table (client, header.msgId) = none)
    (hs : publishToSubscribers b.topicRoot header t payload payloadLength = some outs) :
    let res := handlePublish b header t payload payloadLength client now
    forwards res.outputs = forwards outs ∧ res.running = true := by
  intro res
  by_cases h2 : header.qosLevel = qosExactlyOnce
  · simp only [res, handlePublish, if_pos h2, hq h2, hs]
    exact ⟨forwards_publishThen _ _ _ _ _ rfl, rfl⟩
  · by_cases h1 : header.qosLevel = qosAtLeastOnce
    · simp only [res, handlePublish, if_neg h2, if_pos h1, hs]
      exact ⟨forwards_publishThen _ _ _ _ _ rfl, rfl⟩
    · simp only [res, handlePublish, if_neg h2, if_neg h1, hs]
      exact ⟨forwards_publishThen _ _ _ _ _ rfl, rfl⟩

/-- What `handle_publish` sends on starts with its header. -/
theorem forward_mem_handlePublish {header : SlimMsgHeader} {payload : Mem} {payloadLength : ℕ}
    {client : SockaddrIn} {now : Int} {dest : SockaddrIn} {bytes : Datagram}
    (h : .forward dest bytes ∈
      (handlePublish b header t payload payloadLength client now).outputs) :
    ∃ bs, bytes = header.encode ++ bs := by
  -- it is among what `publish_to_subscribers` sends, in whichever branch
  have hthen : ∀ b' call rest, .forward dest bytes ∉ rest → call ≠ .forward dest bytes →
      .forward dest bytes ∈ (publishThen b' call
        (publishToSubscribers b.topicRoot header t payload payloadLength) rest).outputs →
      ∃ bs, bytes = header.encode ++ bs := by
    intro b' call rest hrest hcall hmem
    cases hsent : publishToSubscribers b.topicRoot header t payload payloadLength with
    | none =>
      rw [hsent] at hmem
      exact absurd (List.mem_singleton.mp hmem).symm hcall
    | some outs =>
      rw [hsent] at hmem
      rcases List.mem_cons.mp hmem with he | hmem
      · exact absurd he.symm hcall
      rcases List.mem_append.mp hmem with hmem | hmem
      · obtain ⟨dest', len, bytes', he, hlen, hser⟩ := mem_publishToSubscribers hsent _ hmem
        obtain ⟨rfl, rfl⟩ := BrokerOutput.forward.inj he
        exact ⟨_, (serializeMessage_of_nonneg hser (Int.le_of_lt hlen)).2.2⟩
      · exact absurd hmem hrest
  unfold handlePublish at h
  by_cases h2 : header.qosLevel = qosExactlyOnce
  · simp only [if_pos h2] at h
    split at h
    · cases h
    · cases List.mem_singleton.mp h
    · exact hthen _ _ _ (by simp) (by simp) h
  · simp only [if_neg h2] at h
    split at h
    · exact hthen _ _ _ (by simp) (by simp) h
    · exact hthen _ _ _ (by simp) (by simp) h

/-- An iteration sends on nothing but messages with its PUBLISH header. -/
theorem forward_mem_brokerIteration {dest : SockaddrIn} {bytes : Datagram}
    (h : .forward dest bytes ∈ (brokerIteration b r).outputs) :
    r.header.msgType = msgPublish ∧ ∃ bs, bytes = r.header.encode ++ bs := by
  have hh := brokerIteration_handled b r
  generalize brokerIteration b r = res at hh h
  cases hh with
  -- no other handler sends anything on
  | ignored => cases h
  | subscribe topicStr =>
    unfold handleSubscribe at h
    split at h <;> cases h
  | publish hp => exact ⟨hp.2, forward_mem_handlePublish h⟩
  | release hc => cases List.mem_singleton.mp h
  | received hc =>
    unfold handleControlReceived at h
    split at h <;> cases h

/-! ## Runs -/

theorem topicRoot_handlePublish (b : Broker) (header : SlimMsgHeader) (t : CString) (payload : Mem)
    (payloadLength : ℕ) (client : SockaddrIn) (now : Int) :
    (handlePublish b header t payload payloadLength client now).state.topicRoot = b.topicRoot := by
  unfold handlePublish
  by_cases h2 : header.qosLevel = qosExactlyOnce
  · simp only [if_pos h2]
    split <;> simp [Result.ok]
  · simp only [if_neg h2]
    split <;> simp

/-- No iteration changes the segment of the root. -/
theorem segment_brokerIteration (b : Broker) (r : Reception) :
    (brokerIteration b r).state.topicRoot.segment = b.topicRoot.segment := by
  have h := brokerIteration_handled b r
  generalize brokerIteration b r = res at h ⊢
  cases h with
  | ignored => rfl
  | subscribe topicStr =>
    unfold handleSubscribe
    split
    · rfl
    · rename_i root hroot
      exact segment_subscribeTopic hroot
  | publish h => rw [topicRoot_handlePublish]
  | release h => rfl
  | received h =>
    unfold handleControlReceived
    split <;> rfl

theorem segment_brokerMainLoop (rs : List Reception) :
    (brokerMainLoop brokerInit rs).state.topicRoot.segment = CString.empty :=
  run_induction (C := fun _ _ => True)
    (P := fun s _ => s.topicRoot.segment = CString.empty) rfl
    (fun s _ x _ h => (segment_brokerIteration s x).trans h) (along_true brokerInit rs)

/-- **Forwarding is byte-exact and reaches each recipient once**: in every state that a run
reaches, a full PUBLISH is sent on as it came, once to each matching subscriber and to no one
else. -/
theorem forwards_brokerIteration (rs : List Reception) (r : Reception) (t : CString)
    (h : FullPublish (brokerMainLoop brokerInit rs).state r t) :
    ∃ targets,
      getMatchingSubscribers (brokerMainLoop brokerInit rs).state.topicRoot t = some targets ∧
      targets.entries.Nodup ∧
      forwards (brokerIteration (brokerMainLoop brokerInit rs).state r).outputs =
        targets.entries.map fun a => (a, r.datagram) := by
  -- the root is never the wildcard, so the matcher starts as it should
  have hroot : (brokerMainLoop brokerInit rs).state.topicRoot.segment ≠ hash := by
    rw [segment_brokerMainLoop]
    exact empty_ne_hash
  obtain ⟨targets, ht, hvalid, -⟩ := getMatchingSubscribers_spec _ hroot h.wellFormed
  refine ⟨targets, ht, hvalid.nodup, ?_⟩
  have hpos : (0 : Int) < r.datagram.length := by
    have := h.payload
    have hh : headerSize = 15 := rfl
    omega
  -- the datagram comes out of the encoder as it went into the decoder
  have hpub := publishToSubscribers_eq ht h.serializeMessage hpos
  rw [brokerIteration_of_publishes _ h.publishes, h.topicStr_eq,
    (forwards_handlePublish h.qos hpub).1]
  simp [forwards, BrokerOutput.forwarded, Function.comp_def]

/-- A QoS 1 message to the topic `a`, to which one client has subscribed: one copy goes to it. -/
theorem forwards_brokerIteration_subscribed :
    let rs := [receptionOf ⟨2, 1, 1, 0⟩ [1, 4, 0, 0, 0, 1, 0, 0, 0, 0, 1, 1, 2, 0, 1, 1, 97]]
    let r := receptionOf ⟨2, 2, 1, 0⟩ [1, 0, 1, 0, 0, 5, 0, 0, 0, 0, 1, 1, 3, 0, 1, 1, 97, 9]
    ∃ targets, getMatchingSubscribers (brokerMainLoop brokerInit rs).state.topicRoot
        ⟨[97], by decide⟩ = some targets ∧ targets.entries = [⟨2, 1, 1, 0⟩] ∧
      forwards (brokerIteration (brokerMainLoop brokerInit rs).state r).outputs =
        [(⟨2, 1, 1, 0⟩, r.datagram)] := by
  intro rs r
  obtain ⟨targets, ht, -, hforwards⟩ := forwards_brokerIteration rs r ⟨[97], by decide⟩
    ⟨by decide, by decide, by decide, by decide, by decide, by decide, by decide⟩
  have hentries : (getMatchingSubscribers (brokerMainLoop brokerInit rs).state.topicRoot
      ⟨[97], by decide⟩).map (·.entries) = some [⟨2, 1, 1, 0⟩] := by
    decide +kernel
  rw [ht] at hentries
  have hone : targets.entries = [⟨2, 1, 1, 0⟩] := Option.some.inj hentries
  refine ⟨targets, ht, hone, ?_⟩
  rw [hforwards, hone]
  rfl

end SlimMQ
