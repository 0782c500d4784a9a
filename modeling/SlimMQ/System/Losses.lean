import SlimMQ.Broker.Lossy
import SlimMQ.System.Delivery

/-!
# The system with the lossy broker

The loss tests run the clients against the lossy broker. What it throws away is lost as if the
network had lost it, so that every run of this system is one of the system with the broker, less the
events of the lost datagrams. The promises of the publishing calls hold in it as they do there: a
message of a call that has returned 0 was passed on, at QoS 2 exactly once, however many of its
copies were lost.

## Main definitions

* `LossySystem`, `LossySystem.step`: the system with the lossy broker

## Main results

* `LossySystem.step_simulates`: a step is one of the system, or a loss
* `LossySystem.execute_simulates`: a run is one of the system, on some of its events
* `lossySystem_promises`: the promises of the publishing calls
-/

namespace SlimMQ

open Buffer EventLoop

variable {γ : Type}

/-- The system with the lossy broker: its state, and that of the random numbers. -/
structure LossySystem (γ : Type) where
  system : System
  generator : γ

namespace LossySystem

/-- The system after an iteration of the lossy broker. -/
def afterBroker (rand : γ → ℕ × γ) (s : LossySystem γ) (r : Reception) : LossySystem γ :=
  let res := lossyIteration rand (s.system.broker, s.generator) r
  { system := { s.system with broker := res.state.1, brokerUp := res.running,
                              log := s.system.log ++ res.outputs }
    generator := res.state.2 }

/-- **One step of the system with the lossy broker.** -/
def step (rand : γ → ℕ × γ) (s : LossySystem γ) : Event → Option (LossySystem γ)
  | .broker r =>
    if s.system.brokerUp = true ∧ (r.clientAddr, r.datagram) ∈ s.system.sent then
      some (s.afterBroker rand r)
    else none
  | .session a e => (s.system.step (.session a e)).map (⟨·, s.generator⟩)

/-- **A step is one of the system, or a loss.** -/
theorem step_simulates {rand : γ → ℕ × γ} {s s' : LossySystem γ} {e : Event}
    (h : s.step rand e = some s') :
    s'.system = s.system ∨ s.system.step e = some s'.system := by
  cases e with
  | broker r =>
    simp only [step] at h
    split_ifs at h with hr
    obtain rfl := Option.some.inj h
    have heq := lossyIteration_eq rand s.system.broker s.generator r
    by_cases hdraw : (lossDraw rand s.generator r).1
    -- the datagram is handled as by the broker
    · right
      rw [if_pos hdraw] at heq
      simp only [afterBroker, heq]
      exact if_pos hr
    -- it is lost, and the broker, which is up, stays as it is
    · left
      rw [if_neg hdraw] at heq
      simp only [afterBroker, heq, Result.ok, List.append_nil]
      rw [← hr.1]
  | session a e =>
    obtain ⟨s₁, h₁, rfl⟩ := Option.map_eq_some_iff.mp h
    exact Or.inr h₁

/-- **A run is one of the system**, on some of its events. -/
theorem execute_simulates {rand : γ → ℕ × γ} {s s' : LossySystem γ} {es : List Event}
    (h : execute (LossySystem.step rand) s es = some s') :
    ∃ es', es'.Sublist es ∧ execute System.step s.system es' = some s'.system :=
  execute_stuttering (f := LossySystem.system) (fun _ _ _ => step_simulates) h

end LossySystem

/-- **The promises of the publishing calls hold with the lossy broker.** Whatever the random numbers
are, in every reachable state the message of a call that has returned 0 was passed to
`publish_to_subscribers`: at QoS 1 at least once, and at QoS 2 exactly once. -/
theorem lossySystem_promises (rand : γ → ℕ × γ) (g : γ) (es : List Event) (s : LossySystem γ)
    (h : execute (LossySystem.step rand) ⟨System.init, g⟩ es = some s) (hid : s.system.FewIds)
    (a : SockaddrIn) (m : Message) (hm : (m, 0) ∈ (s.system.sessions a).returned) :
    (m.header.qosLevel = qosAtLeastOnce →
      m.call ∈ publishCalls (a, m.header.msgId) s.system.log) ∧
    (m.header.qosLevel = qosExactlyOnce →
      publishCalls (a, m.header.msgId) s.system.log = [m.call]) := by
  obtain ⟨es', -, hrun⟩ := LossySystem.execute_simulates h
  have hinv := System.inv_of_execute hrun hid
  have hr := (hinv.sessions a).returned (m, 0) hm
  constructor
  · intro hq
    exact hinv.call_mem hr.mem (hr.called rfl hq)
  · intro hq
    exact hinv.calls_of_completed hr.mem hq (hr.completed rfl hq)

/-- A QoS 1 call whose first copy is lost by the broker, and whose second is acknowledged. -/
def lostCopyTrace : List Event :=
  let packet := Event.broker
    (receptionOf publisher [1, 0, 1, 0, 0, 1, 0, 0, 0, 0, 1, 1, 3, 0, 1, 1, 97, 9])
  publishes qosAtLeastOnce ++ packet :: List.replicate 12 (.session publisher (.advance true)) ++
    [packet, hears (ackHeader 1).encode, .session publisher (.advance true)]

/-- With the numbers 0, 1, 2 and so on, the call of the trace returns 0, and its message was passed
on. -/
theorem lossySystem_promises_lostCopy :
    ∃ s m, execute (LossySystem.step fun n : ℕ => (n, n + 1)) ⟨System.init, 0⟩ lostCopyTrace =
        some s ∧
      (m, 0) ∈ (s.system.sessions publisher).returned ∧
      m.call ∈ publishCalls (publisher, m.header.msgId) s.system.log := by
  have hret : (execute (LossySystem.step fun n : ℕ => (n, n + 1)) ⟨System.init, 0⟩
      lostCopyTrace).map (fun s => (s.system.sessions publisher).returned.map fun x =>
        (x.1.header.qosLevel, x.2)) = some [(qosAtLeastOnce, 0)] := by
    decide +kernel
  obtain ⟨s, hs, hx⟩ := Option.map_eq_some_iff.mp hret
  obtain ⟨⟨m, ret⟩, hm, he⟩ := List.mem_map.mp (hx ▸ List.mem_singleton_self (qosAtLeastOnce, 0))
  obtain ⟨hq, rfl⟩ := Prod.mk.inj he
  obtain ⟨es', hsub, hrun⟩ := LossySystem.execute_simulates hs
  have hlen : lostCopyTrace.length < 2 ^ 32 := by decide
  have hid : s.system.FewIds := System.fewIds_of_execute hrun (hsub.length_le.trans_lt hlen)
  exact ⟨s, m, hs, hm, (lossySystem_promises _ _ lostCopyTrace s hs hid publisher m hm).1 hq⟩

end SlimMQ
