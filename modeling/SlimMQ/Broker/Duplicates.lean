import SlimMQ.Broker.Ledger
import SlimMQ.Topic.Registration

/-!
# Duplicated traffic

UDP may deliver a datagram twice, and a client that waits sends again. A SUBSCRIBE, a QoS 2 PUBLISH
and a CONTROL_RELEASE establish something that stays: the registration of the client, the entry of
the message, its completion. A copy that comes later finds it and changes nothing, however late it
comes and whatever was served in between; it may only be answered again.

## Main definitions

* `Received.Repeatable`: the datagrams of which a copy does no harm
* `Absorbed`: what a request has established and a copy of it finds

## Main results

* `absorbed_serve`, `Absorbed.serve`: a request is absorbed once served, and stays so
* `serve_of_absorbed`: an absorbed request changes nothing and passes nothing on
* `brokerMainLoop_insert_copy`: a copy of a datagram leaves the run as it was, its reply apart
-/

namespace SlimMQ

open Buffer EventLoop

/-- A SUBSCRIBE, a QoS 2 PUBLISH or a CONTROL_RELEASE. -/
def Received.Repeatable (r : Received) : Prop :=
  r.header.msgType = msgSubscribe ∨
    r.header.msgType = msgPublish ∧ r.header.qosLevel = qosExactlyOnce ∨
    r.header.msgType = msgControl ∧ r.mem headerSize = controlRelease

instance (r : Received) : Decidable r.Repeatable := inferInstanceAs (Decidable (_ ∨ _ ∨ _))

/-- The actions of these datagrams. -/
def Action.Repeatable : Action → Prop
  | .publish c => c.header.qosLevel = qosExactlyOnce
  | .received => False
  | _ => True

/-- **What a request has established**: its client is registered, its message has an entry, its
handshake is completed. -/
def Absorbed (l : Ledger) (q : Request) : Prop :=
  match q.action with
  | .nothing => True
  | .subscribe t => WellFormedTopic t → l.root.Registered q.client (t.segments slash)
  | .publish c => c.header.qosLevel = qosExactlyOnce ∧ l.status q.key ≠ none
  | .release => l.status q.key = some .completed
  | .received => False

/-! ## One request -/

variable {l : Ledger} {q : Request}

/-- An entry is not removed. -/
theorem Action.next_ne_none (a : Action) {status : Option Qos2State} (h : status ≠ none) :
    a.next status ≠ none := by
  obtain ⟨s, rfl⟩ := Option.ne_none_iff_exists'.mp h
  cases a <;> cases s <;> simp [Action.next]

/-- A completed entry stays as it is. -/
theorem Action.next_completed (a : Action) : a.next (some .completed) = some .completed := by
  cases a <;> rfl

/-- A subscription that is there, or whose filter is no good, leaves the tree as it is. -/
theorem subscribeTopic_getD_of_registered {root : TopicNode} {t : CString} {client : SockaddrIn}
    (h : WellFormedTopic t → root.Registered client (t.segments slash)) :
    (subscribeTopic root t client).getD root = root := by
  by_cases ht : WellFormedTopic t
  · rw [subscribeTopic, splitTopic_of_wellFormed ht, subscribeAt_of_registered (h ht)]
    rfl
  · rw [(subscribeTopic_eq_none_iff root t client).mpr ht]
    rfl

/-- **An absorbed request changes nothing and passes nothing on.** -/
theorem serve_of_absorbed (h : Absorbed l q) :
    (serve l q).state = l ∧ forwards (serve l q).outputs = [] := by
  -- the answer is no message passed on
  have hanswer : ∀ d : Option Datagram, forwards (d.map (.reply q.client)).toList = [] := by
    rintro (- | d) <;> rfl
  -- so that it is enough to see the tree, the status and the call
  suffices hq : q.action.register q.client l.root = l.root ∧
      q.action.next (l.status q.key) = l.status q.key ∧
      q.action.passedOn (l.status q.key) = none by
    obtain ⟨hroot, hnext, hpass⟩ := hq
    refine ⟨?_, ?_⟩
    · apply Ledger.ext
      · exact hroot
      · show Function.update l.status q.key (q.action.next (l.status q.key)) = l.status
        rw [hnext, Function.update_eq_self]
    · show forwards ((q.action.passedOn (l.status q.key)).elim [] (l.passOn q.client) ++ _) = []
      rw [hpass, forwards_append, hanswer]
      rfl
  unfold Absorbed at h
  split at h
  · rename_i ha
    rw [ha]
    exact ⟨rfl, rfl, rfl⟩
  · rename_i t ha
    rw [ha]
    exact ⟨subscribeTopic_getD_of_registered h, rfl, rfl⟩
  · rename_i c ha
    obtain ⟨h2, hs⟩ := h
    obtain ⟨s, hs'⟩ := Option.ne_none_iff_exists'.mp hs
    rw [ha, hs']
    exact ⟨rfl, rfl, if_pos ⟨h2, Option.some_ne_none s⟩⟩
  · rename_i ha
    rw [ha, h]
    exact ⟨rfl, rfl, rfl⟩
  · exact h.elim

/-- **A request is absorbed once it is served.** -/
theorem absorbed_serve (l : Ledger) (h : q.action.Repeatable) : Absorbed (serve l q).state q := by
  have hstatus : (serve l q).state.status q.key = q.action.next (l.status q.key) :=
    Function.update_self ..
  have hroot : (serve l q).state.root = q.action.register q.client l.root := rfl
  unfold Absorbed
  split
  · trivial
  · rename_i t ha
    intro ht
    -- the subscription has not failed
    obtain ⟨root, hsub, -⟩ := subscribeTopic_of_wellFormed l.root q.client ht
    have hnew : q.action.register q.client l.root = root := by
      rw [ha, Action.register, hsub, Option.getD_some]
    rw [hroot, hnew]
    rw [subscribeTopic, splitTopic_of_wellFormed ht] at hsub
    exact registered_subscribeAt hsub
  · rename_i c ha
    have h2 : c.header.qosLevel = qosExactlyOnce := by
      rw [ha] at h
      exact h
    refine ⟨h2, ?_⟩
    rw [hstatus, ha]
    cases l.status q.key with
    | none => simp [Action.next, h2]
    | some s => exact Option.some_ne_none s
  · rename_i ha
    rw [hstatus, ha]
    rfl
  · rename_i ha
    rw [ha] at h
    exact h

/-- What another request does to the status of a key. -/
theorem status_serve (l : Ledger) (q : Request) (k : PendingKey) :
    (serve l q).state.status k = l.status k ∨
      (serve l q).state.status k = q.action.next (l.status k) := by
  show Function.update l.status q.key (q.action.next (l.status q.key)) k = _ ∨ _
  by_cases hk : k = q.key
  · subst hk
    exact Or.inr (Function.update_self ..)
  · exact Or.inl (Function.update_of_ne hk ..)

/-- **A request stays absorbed**, whatever is served after it. -/
theorem Absorbed.serve (h : Absorbed l q) (q' : Request) : Absorbed (serve l q').state q := by
  unfold Absorbed at h ⊢
  split at h
  · trivial
  · rename_i t ha
    intro ht
    have hreg := h ht
    show (q'.action.register q'.client l.root).Registered q.client (t.segments slash)
    -- another subscription, or none, leaves the registration
    cases q'.action with
    | subscribe t' =>
      rw [Action.register]
      cases hsub : subscribeTopic l.root t' q'.client with
      | none => exact hreg
      | some root => exact hreg.subscribeAt hsub
    | _ => exact hreg
  · obtain ⟨h2, hs⟩ := h
    refine ⟨h2, ?_⟩
    rcases status_serve l q' q.key with he | he <;> rw [he]
    · exact hs
    · exact q'.action.next_ne_none hs
  · rcases status_serve l q' q.key with he | he <;> rw [he, h]
    exact q'.action.next_completed
  · exact h

/-! ## Runs -/

theorem running_serve (l : Ledger) (qs : List Request) : (run serve l qs).running :=
  running_run (fun _ _ => rfl) l qs

/-- Whatever is repeatable has been absorbed at the end of a run that served it. -/
theorem absorbed_run (l : Ledger) {qs : List Request} (hq : q ∈ qs) (h : q.action.Repeatable) :
    Absorbed (run serve l qs).state q := by
  obtain ⟨xs, ys, rfl⟩ := List.append_of_mem hq
  -- absorbed when it was served, and since then
  have hstep := absorbed_serve (run serve l xs).state h
  rw [run_append l xs (q :: ys) (running_serve l xs)]
  exact run_induction (C := fun _ _ => True) (P := fun l' _ => Absorbed l' q) hstep
    (fun _ _ q' _ ih => ih.serve q') (along_true _ ys)

/-- **A copy of a request leaves the run as it was**, its answer apart. -/
theorem run_serve_insert_copy (l : Ledger) {xs : List Request} (ys : List Request) (hq : q ∈ xs)
    (h : q.action.Repeatable) :
    (run serve l (xs ++ q :: ys)).state = (run serve l (xs ++ ys)).state ∧
      forwards (run serve l (xs ++ q :: ys)).outputs =
        forwards (run serve l (xs ++ ys)).outputs := by
  obtain ⟨hstate, hout⟩ := serve_of_absorbed (absorbed_run l hq h)
  rw [run_append l xs (q :: ys) (running_serve l xs), run_append l xs ys (running_serve l xs)]
  -- the copy, and then the same requests from the same state
  have hcons : run serve (run serve l xs).state (q :: ys) =
      ⟨(run serve (run serve l xs).state ys).state,
        (serve (run serve l xs).state q).outputs ++ (run serve (run serve l xs).state ys).outputs,
        (run serve (run serve l xs).state ys).running⟩ := by
    rw [run, hstate]
    rfl
  rw [hcons]
  refine ⟨rfl, ?_⟩
  simp only [forwards_append, hout, List.nil_append]

/-- A datagram and its sender. -/
def Reception.packet (r : Reception) : SockaddrIn × Datagram := (r.clientAddr, r.datagram)

/-- The request in a proper datagram. -/
def requestOf (p : SockaddrIn × Datagram) : Request := (receptionOf p.1 p.2).request

/-- A proper datagram of these types asks for something repeatable. -/
theorem repeatable_action {r : Received} (h : r.Repeatable) : r.action.Repeatable := by
  unfold Received.action
  rcases h with hs | ⟨hp, h2⟩ | ⟨hc, hrel⟩
  · have hc : ¬ (r.header.msgType = msgControl ∧ 0 < payloadLen r.mem) := by
      rw [hs]
      rintro ⟨hc, -⟩
      exact absurd hc (by decide)
    have hp : r.header.msgType ≠ msgPublish := by rw [hs]; decide
    rw [if_neg hc, if_neg hp]
    split <;> trivial
  · have hc : ¬ (r.header.msgType = msgControl ∧ 0 < payloadLen r.mem) := by
      rw [hp]
      rintro ⟨hc, -⟩
      exact absurd hc (by decide)
    rw [if_neg hc, if_pos hp]
    split
    · exact h2
    · trivial
  · have ht : ¬ r.HasTopic := by
      rintro ⟨ht, -⟩
      rw [hc] at ht
      exact absurd ht (by decide)
    rw [if_neg ht, if_pos hrel]
    split <;> trivial

/-- A run on proper datagrams serves the requests in them. -/
theorem brokerMainLoop_serve_packets {rs : List Reception}
    (h : ∀ p ∈ rs.map Reception.packet, (cleanReceived p.2).Proper) :
    (brokerMainLoop brokerInit rs).mapState Broker.ledger =
      run serve ledgerInit ((rs.map Reception.packet).map requestOf) := by
  have hproper : ∀ r ∈ rs, r.Proper := fun r hr => .of_clean (h _ (List.mem_map_of_mem hr))
  rw [brokerMainLoop_serve hproper, List.map_map]
  congr 1
  exact List.map_congr_left fun r hr => (request_receptionOf (hproper r hr)).symm

/-- **The broker is insensitive to duplicated QoS 2 traffic**: of two runs on proper datagrams, of
which the second has a further copy of an earlier SUBSCRIBE, QoS 2 PUBLISH or CONTROL_RELEASE of the
same client, the topic tree and the pending status of every key are the same at the end, and the
same datagrams were forwarded to the same recipients. -/
theorem brokerMainLoop_insert_copy (rs rs' : List Reception) (xs ys : List (SockaddrIn × Datagram))
    (e : SockaddrIn × Datagram) (hrs : rs.map Reception.packet = xs ++ ys)
    (hrs' : rs'.map Reception.packet = xs ++ e :: ys) (he : e ∈ xs)
    (hrep : (cleanReceived e.2).Repeatable)
    (hproper : ∀ p ∈ xs ++ ys, (cleanReceived p.2).Proper) :
    let res := brokerMainLoop brokerInit rs
    let res' := brokerMainLoop brokerInit rs'
    res'.state.topicRoot = res.state.topicRoot ∧
      (∀ k, pendingTableGet res'.state.table k = pendingTableGet res.state.table k) ∧
      forwards res'.outputs = forwards res.outputs := by
  intro res res'
  have hproper' : ∀ p ∈ xs ++ e :: ys, (cleanReceived p.2).Proper := by
    intro p hp
    rcases List.mem_append.mp hp with hp | hp
    · exact hproper p (List.mem_append_left _ hp)
    rcases List.mem_cons.mp hp with rfl | hp
    -- the copy is as proper as the first one
    · exact hproper p (List.mem_append_left _ he)
    · exact hproper p (List.mem_append_right _ hp)
  have h := brokerMainLoop_serve_packets (hrs ▸ hproper)
  have h' := brokerMainLoop_serve_packets (hrs' ▸ hproper')
  rw [hrs, List.map_append] at h
  rw [hrs', List.map_append, List.map_cons] at h'
  have hcopy : (requestOf e).action.Repeatable := repeatable_action hrep
  obtain ⟨hstate, hout⟩ := run_serve_insert_copy ledgerInit (ys.map requestOf)
    (List.mem_map_of_mem he) hcopy
  rw [← h, ← h'] at hstate hout
  exact ⟨congrArg Ledger.root hstate, fun k => congrFun (congrArg Ledger.status hstate) k, hout⟩

/-- A message that is sent again after its topic has got a second subscriber is not passed on to
it. -/
theorem brokerMainLoop_insert_copy_late :
    let subscribe : Datagram := [1, 4, 0, 0, 0, 1, 0, 0, 0, 0, 1, 1, 2, 0, 1, 1, 97]
    let publish : Datagram := [1, 0, 2, 0, 0, 1, 0, 0, 0, 0, 1, 1, 3, 0, 1, 1, 97, 9]
    let release : Datagram := [1, 3, 2, 0, 0, 1, 0, 0, 0, 0, 1, 1, 1, 0, 1, 2]
    let xs : List (SockaddrIn × Datagram) :=
      [(⟨2, 1, 1, 0⟩, subscribe), (⟨2, 2, 1, 0⟩, publish), (⟨2, 3, 1, 0⟩, subscribe)]
    let ys : List (SockaddrIn × Datagram) := [(⟨2, 2, 1, 0⟩, release)]
    let rs := (xs ++ ys).map fun p => receptionOf p.1 p.2
    let rs' := (xs ++ (⟨2, 2, 1, 0⟩, publish) :: ys).map fun p => receptionOf p.1 p.2
    let res := brokerMainLoop brokerInit rs
    let res' := brokerMainLoop brokerInit rs'
    res'.state.topicRoot = res.state.topicRoot ∧
      (∀ k, pendingTableGet res'.state.table k = pendingTableGet res.state.table k) ∧
      forwards res'.outputs = forwards res.outputs := by
  intro subscribe publish release xs ys rs rs'
  exact brokerMainLoop_insert_copy rs rs' xs ys (⟨2, 2, 1, 0⟩, publish) rfl rfl (by decide)
    (by decide) (by decide)

end SlimMQ
