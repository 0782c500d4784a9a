import SlimMQ.System.Delivery

/-!
# Runs of the system

The invariant rule for the system, with its invariant at hand in every step, and what an iteration
of the broker does with a datagram that a session has sent. The broker reads a message as the
session wrote it, and passes on its packet, byte for byte, to the subscribers that the matcher
finds.

## Main definitions

* `Message.forwardsTo`: the datagrams that pass a message on to a list of subscribers

## Main results

* `System.execute_inv_induction`: what every step keeps holds in every state that a run reaches
* `publishToSubscribers_message`: what `publish_to_subscribers` does for a message
* `forward_mem_message`: what the broker sends on for a message, and to whom
-/

namespace SlimMQ

open Buffer EventLoop

/-! ## The invariant rule -/

namespace System

/-- **The invariant rule for the system**, from a state with its invariant on: what each step keeps
holds in every state that a run with few message ids reaches. -/
theorem execute_inv_induction {P : System → Prop} {s₀ s : System} {es : List Event}
    (h : execute System.step s₀ es = some s) (hid : s.FewIds) (hinv : s₀.Inv) (h0 : P s₀)
    (hbroker : ∀ (s : System) (r : Reception), s.Inv → s.brokerUp = true →
      (r.clientAddr, r.datagram) ∈ s.sent → P s → P (s.afterBroker r))
    (hsession : ∀ (s : System) (a : SockaddrIn) (e : SessionEvent) (p : Session)
      (ds : List Datagram), s.Inv → (s.sessions a).step (s.inbox a) e = some (p, ds) →
      p.issued < 2 ^ 32 → P s → P (s.afterSession a p ds)) :
    s.Inv ∧ P s := by
  refine execute_induction (P := fun s => s.FewIds → s.Inv ∧ P s) h (fun _ => ⟨hinv, h0⟩) ?_ hid
  intro s₁ e s₂ hs ih hid
  obtain ⟨hinv₁, hP⟩ := ih fun a => lt_of_le_of_lt (step_grows hs a).1 (hid a)
  cases e with
  | broker r =>
    simp only [step] at hs
    split_ifs at hs with hr
    obtain rfl := Option.some.inj hs
    exact ⟨inv_broker hinv₁ hr.2, hbroker s₁ r hinv₁ hr.1 hr.2 hP⟩
  | session a e' =>
    obtain ⟨⟨p, ds⟩, hp, rfl⟩ := Option.map_eq_some_iff.mp hs
    have hissued : p.issued < 2 ^ 32 := by simpa [afterSession] using hid a
    exact ⟨inv_session hinv₁ hp hissued, hsession s₁ a e' p ds hinv₁ hp hissued hP⟩

variable {s : System} {a : SockaddrIn} {p : Session} {ds : List Datagram}

theorem sessions_afterSession_self : (s.afterSession a p ds).sessions a = p := by
  simp [afterSession]

theorem sessions_afterSession_of_ne {a' : SockaddrIn} (h : a' ≠ a) :
    (s.afterSession a p ds).sessions a' = s.sessions a' := by
  simp [afterSession, Function.update_of_ne h]

/-- A session takes back no message. -/
theorem started_subset_afterSession {e : SessionEvent}
    (hs : (s.sessions a).step (s.inbox a) e = some (p, ds)) (a' : SockaddrIn) :
    (s.sessions a').started ⊆ ((s.afterSession a p ds).sessions a').started := by
  by_cases ha : a' = a
  · subst ha
    rw [sessions_afterSession_self]
    exact (Session.step_grows hs).2.2.1
  · rw [sessions_afterSession_of_ne ha]
    exact List.Subset.refl _

/-- A datagram in an inbox was sent on, or is a reply. -/
theorem mem_inbox {d : Datagram} : d ∈ s.inbox a ↔ .forward a d ∈ s.log ∨ .reply a d ∈ s.log := by
  unfold inbox
  rw [List.mem_filterMap]
  constructor
  · rintro ⟨o, ho, hd⟩
    cases o with
    | publish client call => cases hd
    | forward dest bytes =>
      simp only [BrokerOutput.datagramTo] at hd
      split_ifs at hd with hdest
      obtain rfl := Option.some.inj hd
      exact Or.inl (hdest ▸ ho)
    | reply dest bytes =>
      simp only [BrokerOutput.datagramTo] at hd
      split_ifs at hd with hdest
      obtain rfl := Option.some.inj hd
      exact Or.inr (hdest ▸ ho)
  · rintro (h | h)
    · exact ⟨_, h, by simp [BrokerOutput.datagramTo]⟩
    · exact ⟨_, h, by simp [BrokerOutput.datagramTo]⟩

end System

/-! ## What the broker does with a message -/

/-- The datagrams that pass a message on to some subscribers. -/
def Message.forwardsTo (m : Message) (targets : List SockaddrIn) : List BrokerOutput :=
  targets.map (.forward · m.packet)

variable {b : Broker} {r : Reception} {m : Message}

/-- **What `publish_to_subscribers` does for a message**: the packet goes to each subscriber that
the matcher finds, as it came. -/
theorem publishToSubscribers_message (hwf : m.WellFormed) (hd : r.datagram = m.packet)
    (root : TopicNode) :
    publishToSubscribers root r.header r.topicStr r.payload r.payloadLength =
      (getMatchingSubscribers root m.topic).map fun targets => m.forwardsTo targets.entries := by
  obtain ⟨-, hheader, htopic, hdata⟩ := hwf.published hd
  have hlen : r.payloadLength = m.data.length := by
    rw [← hdata, Mem.length_read]
  have hsize := hwf.size
  have hb : bufferSize = 2048 := rfl
  have hser : serializeMessage m.header (some m.topic) r.payload r.payloadLength bufferSize =
      some (((headerSize + (1 + m.topic.strlen + r.payloadLength) : ℕ) : Int), m.packet) := by
    rw [serializeMessage_eq hwf.strlen_le (by omega) (by omega), hdata, hwf.packet]
  rw [hheader, htopic]
  cases hm : getMatchingSubscribers root m.topic with
  | none => simp [publishToSubscribers, hm]
  | some targets =>
    rw [publishToSubscribers_eq hm hser (by simp only [headerSize]; omega)]
    rfl

/-- A datagram that `handle_publish` sends on is one that `publish_to_subscribers` sends. -/
theorem forward_mem_publishThen {b : Broker} {client : SockaddrIn} {c : PublishCall}
    {sent : Option (List BrokerOutput)} {rest : List BrokerOutput} {dest : SockaddrIn}
    {bytes : Datagram} (hrest : .forward dest bytes ∉ rest)
    (h : .forward dest bytes ∈ (publishThen b (.publish client c) sent rest).outputs) :
    ∃ outs, sent = some outs ∧ .forward dest bytes ∈ outs := by
  cases sent with
  | none => cases List.mem_singleton.mp h
  | some outs =>
    rcases List.mem_cons.mp h with he | h
    · cases he
    · rcases List.mem_append.mp h with h | h
      · exact ⟨outs, rfl, h⟩
      · exact absurd h hrest

theorem forward_mem_handlePublish_outs {header : SlimMsgHeader} {t : CString} {payload : Mem}
    {n : ℕ} {client : SockaddrIn} {now : Int} {dest : SockaddrIn} {bytes : Datagram}
    (h : .forward dest bytes ∈ (handlePublish b header t payload n client now).outputs) :
    ∃ outs, publishToSubscribers b.topicRoot header t payload n = some outs ∧
      .forward dest bytes ∈ outs := by
  unfold handlePublish at h
  by_cases h2 : header.qosLevel = qosExactlyOnce
  · simp only [if_pos h2] at h
    split at h
    · cases h
    · cases List.mem_singleton.mp h
    · exact forward_mem_publishThen (by simp) h
  · simp only [if_neg h2] at h
    split at h
    · exact forward_mem_publishThen (by simp) h
    · exact forward_mem_publishThen (by simp) h

/-- **What the broker sends on for a message, and to whom.** -/
theorem forward_mem_message (hwf : m.WellFormed) (hd : r.datagram = m.packet)
    {dest : SockaddrIn} {bytes : Datagram}
    (h : .forward dest bytes ∈ (brokerIteration b r).outputs) :
    bytes = m.packet ∧ ∃ targets, getMatchingSubscribers b.topicRoot m.topic = some targets ∧
      dest ∈ targets.entries := by
  rw [brokerIteration_of_publishes b (hwf.published hd).1] at h
  obtain ⟨outs, houts, hmem⟩ := forward_mem_handlePublish_outs h
  rw [publishToSubscribers_message hwf hd] at houts
  obtain ⟨targets, ht, rfl⟩ := Option.map_eq_some_iff.mp houts
  obtain ⟨dest', hdest, he⟩ := List.mem_map.mp hmem
  obtain ⟨rfl, rfl⟩ := BrokerOutput.forward.inj he
  exact ⟨rfl, targets, ht, hdest⟩

/-- A PUBLISH that a client may send is one of its messages. -/
theorem Sendable.exists_message {F : Facts} {started : List Message}
    (h : Sendable F started r.datagram) (ht : r.header.msgType = msgPublish) :
    ∃ m ∈ started, r.datagram = m.packet := by
  cases h with
  | publish m hm hd => exact ⟨m, hm, hd⟩
  | release h bs hd hty hf =>
    rw [Received.header_of_append hd, hty] at ht
    cases ht
  | subscribe h bs hd hty =>
    rw [Received.header_of_append hd, hty] at ht
    cases ht

end SlimMQ
