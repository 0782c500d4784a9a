import SlimMQ.Broker.Ledger

/-!
# What a client learns of the others

The replies of the broker to a client are answers to its own requests, and each of them depends on
the status of a key of that client. No other client's request moves that status, and hence nothing
that the others send, and no way in which their datagrams come between, shows in the replies. The
messages forwarded to the client are another matter: they are what the others publish.

## Main definitions

* `repliesTo`: the replies to a client
* `serveOwn`: how the ledger of one client serves its requests

## Main results

* `run_serveOwn`: the broker is, to one client, a ledger of its own
* `repliesTo_brokerMainLoop`: equal datagrams of a client have equal replies
-/

namespace SlimMQ

open Buffer EventLoop

/-- The reply that an output sends to a client. -/
def BrokerOutput.replyTo (a : SockaddrIn) : BrokerOutput → Option Datagram
  | .reply dest bytes => if dest = a then some bytes else none
  | _ => none

/-- **The replies to a client**, in order. -/
def repliesTo (a : SockaddrIn) (outs : List BrokerOutput) : List Datagram :=
  outs.filterMap (BrokerOutput.replyTo a)

/-! ## The ledger of one client -/

/-- The statuses of one client's messages. -/
def Ledger.own (a : SockaddrIn) (l : Ledger) : UInt32 → Option Qos2State :=
  fun id => l.status (a, id)

/-- The ledger of one client serves a request of that client. -/
def serveOwn (own : UInt32 → Option Qos2State) (q : Request) :
    Result (UInt32 → Option Qos2State) Datagram :=
  .ok (Function.update own q.msgId (q.action.next (own q.msgId)))
    (q.action.answer q.msgId (own q.msgId)).toList

variable {a : SockaddrIn}

/-- What is passed on is no reply. -/
theorem repliesTo_passOn (l : Ledger) (client : SockaddrIn) (c : Option PublishCall) :
    repliesTo a (c.elim [] (l.passOn client)) = [] := by
  cases c with
  | none => rfl
  | some c =>
    apply List.filterMap_eq_nil_iff.mpr
    intro o ho
    rcases List.mem_cons.mp ho with rfl | ho
    · rfl
    · obtain ⟨dest, -, rfl⟩ := List.mem_map.mp ho
      rfl

/-- The replies of one request: its answer, to its own client. -/
theorem repliesTo_serve (l : Ledger) (q : Request) :
    repliesTo a (serve l q).outputs =
      if q.client = a then (q.action.answer q.msgId (l.status q.key)).toList else [] := by
  have happend : repliesTo a (serve l q).outputs =
      repliesTo a ((q.action.passedOn (l.status q.key)).elim [] (l.passOn q.client)) ++
        repliesTo a ((q.action.answer q.msgId (l.status q.key)).map (.reply q.client)).toList :=
    List.filterMap_append
  rw [happend, repliesTo_passOn, List.nil_append]
  cases q.action.answer q.msgId (l.status q.key) with
  | none => simp [repliesTo]
  | some d =>
    by_cases hq : q.client = a
    · simp [repliesTo, BrokerOutput.replyTo, hq]
    · simp [repliesTo, BrokerOutput.replyTo, hq]

/-- The statuses of a client change by its own requests. -/
theorem own_serve (l : Ledger) (q : Request) :
    (serve l q).state.own a =
      if q.client = a then Function.update (l.own a) q.msgId (q.action.next (l.own a q.msgId))
      else l.own a := by
  funext id
  show Function.update l.status q.key (q.action.next (l.status q.key)) (a, id) = _
  by_cases hq : q.client = a
  · subst hq
    rw [if_pos rfl]
    by_cases hid : id = q.msgId
    · subst hid
      rw [Function.update_self]
      exact Function.update_self q.key _ l.status
    · rw [Function.update_of_ne hid, Function.update_of_ne]
      · rfl
      · intro hk
        exact hid (Prod.mk.inj hk).2
  · rw [if_neg hq, Function.update_of_ne]
    · rfl
    · intro hk
      exact hq (Prod.mk.inj hk).1.symm

/-- **The broker is, to one client, a ledger of its own.** -/
theorem run_serveOwn (a : SockaddrIn) (l : Ledger) (qs : List Request) :
    run serveOwn (l.own a) (qs.filter (·.client = a)) =
      .ok ((run serve l qs).state.own a) (repliesTo a (run serve l qs).outputs) := by
  refine run_projection (fun _ _ => rfl) ?_ ?_ l qs
  -- its own requests
  · rintro l q rfl
    have ho := own_serve (a := q.client) l q
    have hr := repliesTo_serve (a := q.client) l q
    rw [if_pos rfl] at ho hr
    rw [ho]
    exact congrArg (Result.ok _) hr.symm
  -- those of the others
  · intro l q hq
    have ho := own_serve (a := a) l q
    have hr := repliesTo_serve (a := a) l q
    rw [if_neg hq] at ho hr
    exact ⟨ho, hr⟩

/-! ## Runs -/

/-- The requests of a client are in its datagrams. -/
theorem filter_request {rs : List Reception} (h : ∀ r ∈ rs, r.Proper) (a : SockaddrIn) :
    (rs.map Reception.request).filter (·.client = a) =
      ((rs.filter (·.clientAddr = a)).map (·.datagram)).map fun d => (receptionOf a d).request := by
  rw [List.filter_map, List.map_map]
  apply List.map_congr_left
  intro r hr
  obtain ⟨hmem, hclient⟩ := List.mem_filter.mp hr
  obtain rfl : r.clientAddr = a := of_decide_eq_true hclient
  exact (request_receptionOf (h r hmem)).symm

/-- **Handshake replies to a client depend only on that client**: two runs on proper datagrams in
which a client sends the same send it the same replies. -/
theorem repliesTo_brokerMainLoop (a : SockaddrIn) (rs rs' : List Reception)
    (h : ∀ r ∈ rs, r.Proper) (h' : ∀ r ∈ rs', r.Proper)
    (heq : (rs.filter (·.clientAddr = a)).map (·.datagram) =
      (rs'.filter (·.clientAddr = a)).map (·.datagram)) :
    repliesTo a (brokerMainLoop brokerInit rs).outputs =
      repliesTo a (brokerMainLoop brokerInit rs').outputs := by
  -- the replies of a run are those of the client's own ledger to its own requests
  have hown : ∀ xs : List Reception, (∀ r ∈ xs, r.Proper) →
      repliesTo a (brokerMainLoop brokerInit xs).outputs =
        (run serveOwn (ledgerInit.own a)
          (((xs.filter (·.clientAddr = a)).map (·.datagram)).map
            fun d => (receptionOf a d).request)).outputs := by
    intro xs hxs
    have hserve : (brokerMainLoop brokerInit xs).outputs =
        (run serve ledgerInit (xs.map Reception.request)).outputs :=
      congrArg Result.outputs (brokerMainLoop_serve hxs)
    rw [hserve, ← filter_request hxs a, run_serveOwn]
    rfl
  rw [hown rs h, hown rs' h', heq]

/-- A handshake alone, and among the datagrams of a client whose message has the same hash: two
replies in both runs. -/
theorem repliesTo_brokerMainLoop_interleaved :
    let a : SockaddrIn := ⟨2, 1, 1, 0⟩
    let publish := receptionOf a [1, 0, 2, 0, 0, 1, 0, 0, 0, 0, 1, 1, 3, 0, 1, 1, 97, 9]
    let release := receptionOf a [1, 3, 2, 0, 0, 1, 0, 0, 0, 0, 1, 1, 1, 0, 1, 2]
    let other := receptionOf ⟨2, 2, 1, 0⟩ [1, 0, 2, 0, 0, 2, 0, 0, 0, 0, 1, 1, 2, 0, 1, 1, 97]
    let rs := [publish, release]
    let rs' := [other, publish, other, release]
    (repliesTo a (brokerMainLoop brokerInit rs).outputs).length = 2 ∧
      repliesTo a (brokerMainLoop brokerInit rs).outputs =
        repliesTo a (brokerMainLoop brokerInit rs').outputs := by
  intro a publish release other rs rs'
  exact ⟨by decide +kernel, repliesTo_brokerMainLoop a rs rs' (by decide) (by decide) (by decide)⟩

end SlimMQ
