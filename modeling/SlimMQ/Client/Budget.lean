import SlimMQ.Client.Completion

/-!
# The retry budget of a publishing call

The loop of `slimmq_publish` counts its attempts: a call at QoS 1 or 2 sends its packet, polls for
the reply a bounded number of times, and then goes on to the next attempt or returns. With a count
that can pass `max_retries`, it ends after that many attempts whatever the replies are. There are
two ways in which the count never does: at a level that is none of the three, the loop goes round
without counting, and `max_retries` may be the greatest `int`.

## Main definitions

* `PublishPc.rank`: a bound on the steps to the end of an attempt
* `PublishRun.attemptsLeft`, `PublishRun.weight`: bounds on the attempts and the steps to come
* `Session.sentDuring`: what a sequence of steps sends
* `Flooding`: a call at its loop that no reply has come for
* `Session.EndsWithin`: the call in progress ends within a number of steps
* `EndsInBudget`: with this configuration, every call ends within its budget

## Main results

* `publishStep_turn`: what a step does to the count of the attempts
* `Turn.weight_lt`, `Turn.sent_le`: a step uses up a part of the budget
* `Session.Budgeted.execute`: so does every sequence of steps
* `Flooding.again`: a call whose count does not pass the bound comes back to its loop
* `endsInBudget_iff`: the configurations with which every call ends within its budget
-/

namespace SlimMQ

open Buffer EventLoop

/-! ## What a step does to the count -/

/-- A bound on the steps that a call makes from a place of its loop to the end of the attempt. -/
def PublishPc.rank (polls : Int) : PublishPc → ℕ
  | .loop => 1
  | .pollAck i => (polls - i).toNat + 2
  | .pollReceived i => (polls - i).toNat + polls.toNat + 5
  | .checkReceived => polls.toNat + 4
  | .sendRelease => polls.toNat + 3
  | .pollComplete i => (polls - i).toNat + 2
  | .removeCompleted => 1

/-- **What a step of a publishing call does to the count of its attempts.** -/
inductive Turn (s : ClientState) (run : PublishRun) : PublishResult → Prop
  /-- The packet is sent, and an attempt begins. -/
  | begins {pc : PublishPc} (hpc : run.pc = .loop) (hr : run.retries ≤ s.client.maxRetries)
      (hq : pc = .pollAck 0 ∨ pc = .pollReceived 0) :
      Turn s run ⟨s, [run.msg.packet], .inl { run with pc := pc }⟩
  /-- The packet is sent at another level, and nothing is waited for. -/
  | again (hpc : run.pc = .loop) (hr : run.retries ≤ s.client.maxRetries)
      (h0 : run.msg.header.qosLevel ≠ qosAtMostOnce)
      (h1 : run.msg.header.qosLevel ≠ qosAtLeastOnce)
      (h2 : run.msg.header.qosLevel ≠ qosExactlyOnce) :
      Turn s run ⟨s, [run.msg.packet], .inl run⟩
  /-- The attempt goes on, and may send a CONTROL_RELEASE. -/
  | goesOn {sent : List Datagram} {pc : PublishPc} (hpc : run.pc ≠ .loop) (hpc' : pc ≠ .loop)
      (hrank : pc.rank s.polls < run.pc.rank s.polls)
      (hs : ∀ bytes ∈ sent, ∃ len, releaseBytes run.msg.header = some (len, bytes)) :
      Turn s run ⟨s, sent, .inl { run with pc := pc }⟩
  /-- The attempt has failed, and is counted. -/
  | failed (hpc : run.pc ≠ .loop) (hrank : 1 < run.pc.rank s.polls) :
      Turn s run ⟨s, [], .inl run.retry⟩
  /-- The call returns, at QoS 0 after a send. -/
  | returned {s' : ClientState} {sent : List Datagram} {ret : Int} (hs : sent = [] ∨
      sent = [run.msg.packet] ∧ run.pc = .loop ∧ run.retries ≤ s.client.maxRetries) :
      Turn s run ⟨s', sent, .inr ret⟩

theorem publishStep_turn (s : ClientState) (run : PublishRun) (sendOk : Bool) :
    Turn s run (publishStep s run sendOk) := by
  have hreturn : ∀ (s' : ClientState) (ret : Int), Turn s run ⟨s', [], .inr ret⟩ :=
    fun _ _ => .returned (Or.inl rfl)
  unfold publishStep
  cases hpc : run.pc with
  | loop =>
    dsimp only
    split_ifs with h₁ h₂ h₃ h₄ h₅
    · exact hreturn _ _
    · exact hreturn _ _
    · exact .returned (Or.inr ⟨rfl, hpc, not_lt.mp h₁⟩)
    · exact .begins hpc (not_lt.mp h₁) (Or.inl rfl)
    · exact .begins hpc (not_lt.mp h₁) (Or.inr rfl)
    · exact .again hpc (not_lt.mp h₁) h₃ h₄ h₅
  | pollAck i =>
    dsimp only
    split_ifs with h₁ h₂
    · exact hreturn _ _
    · rw [eventQueueWaitAck_of_ne h₂]
      refine .goesOn (by simp [hpc]) (by simp) ?_ (by simp)
      rw [hpc]
      simp only [PublishPc.rank]
      omega
    · exact .failed (by simp [hpc]) (by simp [hpc, PublishPc.rank])
  | pollReceived i =>
    dsimp only
    split_ifs with h
    · refine .goesOn (by simp [hpc]) (by simp) ?_ (by simp)
      rw [hpc]
      simp only [PublishPc.rank]
      omega
    · refine .goesOn (by simp [hpc]) (by simp) ?_ (by simp)
      rw [hpc]
      simp only [PublishPc.rank]
      omega
  | checkReceived =>
    dsimp only
    split_ifs with h
    · exact .failed (by simp [hpc]) (by simp [hpc, PublishPc.rank])
    · refine .goesOn (by simp [hpc]) (by simp) ?_ (by simp)
      rw [hpc]
      exact Nat.lt_succ_self _
  | sendRelease =>
    have hrank : (PublishPc.pollComplete 0).rank s.polls < run.pc.rank s.polls := by
      rw [hpc]
      simp only [PublishPc.rank]
      omega
    dsimp only
    split
    · exact .goesOn (by simp [hpc]) (by simp) hrank (by simp)
    · rename_i len bytes hb
      refine .goesOn (by simp [hpc]) (by simp) hrank fun bytes' hb' => ⟨len, ?_⟩
      split_ifs at hb'
      · rw [List.mem_singleton.mp hb', hb]
      · cases hb'
  | pollComplete i =>
    dsimp only
    split_ifs with h₁ h₂
    · refine .goesOn (by simp [hpc]) (by simp) ?_ (by simp)
      rw [hpc]
      simp only [PublishPc.rank]
      omega
    · refine .goesOn (by simp [hpc]) (by simp) ?_ (by simp)
      rw [hpc]
      simp only [PublishPc.rank]
      omega
    · exact .failed (by simp [hpc]) (by simp [hpc, PublishPc.rank])
  | removeCompleted => exact hreturn _ _

/-! ## What a step uses up -/

namespace PublishRun

/-- The attempts that the count leaves to a call, at its loop or after the current one. -/
def attemptsLeft (maxRetries : Int) (run : PublishRun) : ℕ :=
  match run.pc with
  | .loop => (maxRetries + 1 - run.retries).toNat
  | _ => (maxRetries - run.retries).toNat

/-- A bound on the steps to come. -/
def weight (maxRetries polls : Int) (run : PublishRun) : ℕ :=
  run.attemptsLeft maxRetries * (2 * polls.toNat + 5) + run.pc.rank polls

/-- The count is one of the attempts that were made. -/
structure Counted (maxRetries : Int) (run : PublishRun) : Prop where
  nonneg : 0 ≤ run.retries
  le : run.pc ≠ .loop → run.retries ≤ maxRetries

variable {run : PublishRun} {maxRetries : Int}

theorem attemptsLeft_loop (h : run.pc = .loop) :
    run.attemptsLeft maxRetries = (maxRetries + 1 - run.retries).toNat := by
  rw [attemptsLeft, h]

theorem attemptsLeft_of_ne (h : run.pc ≠ .loop) :
    run.attemptsLeft maxRetries = (maxRetries - run.retries).toNat := by
  rw [attemptsLeft]
  split
  · rename_i hpc
    exact absurd hpc h
  · rfl

theorem weight_pos (run : PublishRun) (maxRetries polls : Int) :
    0 < run.weight maxRetries polls := by
  have hrank : 0 < run.pc.rank polls := by
    cases run.pc <;> simp [PublishPc.rank]
  unfold weight
  omega

end PublishRun

/-- The count of the attempts can pass the bound, or need not: there is no attempt, or only one, or
the level is one at which attempts are counted and the bound is not the greatest `int`. -/
def Bounded (qosLevel : UInt8) (maxRetries : Int) : Prop :=
  maxRetries < 0 ∨ qosLevel = qosAtMostOnce ∨
    (qosLevel = qosAtLeastOnce ∨ qosLevel = qosExactlyOnce) ∧ maxRetries < 2 ^ 31 - 1

/-- With an attempt to make, a bounded call is at one of the three levels. -/
theorem Bounded.false_of_other {q : UInt8} {m : Int} (hb : Bounded q m) (hm : 0 ≤ m)
    (h0 : q ≠ qosAtMostOnce) (h1 : q ≠ qosAtLeastOnce) (h2 : q ≠ qosExactlyOnce) : False := by
  rcases hb with hneg | h0' | ⟨h1' | h2', -⟩
  · omega
  · exact h0 h0'
  · exact h1 h1'
  · exact h2 h2'

/-- The first place of an attempt is past the loop. -/
theorem PublishPc.ne_loop_of_first {pc : PublishPc} (h : pc = .pollAck 0 ∨ pc = .pollReceived 0) :
    pc ≠ .loop := by
  rcases h with rfl | rfl <;> exact PublishPc.noConfusion

/-- Past its loop a call is at QoS 1 or 2. -/
theorem PublishRun.AtQos.ne_atMostOnce {run : PublishRun} (h : run.AtQos) (hpc : run.pc ≠ .loop) :
    run.msg.header.qosLevel ≠ qosAtMostOnce := by
  have hq := h
  unfold PublishRun.AtQos at hq
  cases hpc' : run.pc with
  | loop => exact absurd hpc' hpc
  | pollAck i =>
    rw [hq qosAtLeastOnce (by rw [hpc']; rfl)]
    decide
  | _ =>
    rw [hq qosExactlyOnce (by rw [hpc']; rfl)]
    decide

/-- The count of a bounded call does not wrap. -/
theorem PublishRun.Counted.retry {run : PublishRun} {m : Int} (h : run.Counted m)
    (hb : Bounded run.msg.header.qosLevel m) (hq : run.AtQos) (hpc : run.pc ≠ .loop) :
    run.retry.retries = run.retries + 1 ∧ run.retries ≤ m := by
  have hle := h.le hpc
  have hnonneg := h.nonneg
  have hlt : m < 2 ^ 31 - 1 := by
    rcases hb with hneg | h0 | ⟨-, hlt⟩
    · omega
    · exact absurd h0 (hq.ne_atMostOnce hpc)
    · exact hlt
  refine ⟨?_, hle⟩
  show (run.retries + 1).bmod (2 ^ 32) = run.retries + 1
  rw [Int.bmod_eq_of_le] <;> omega

/-- A CONTROL_RELEASE is not the packet of a message. -/
theorem Message.WellFormed.release_ne {msg : Message} (h : msg.WellFormed) {len : Int}
    {bytes : Datagram} (hr : releaseBytes msg.header = some (len, bytes)) :
    bytes ≠ msg.packet := by
  obtain ⟨hd, htype, -, rfl⟩ := releaseBytes_eq hr
  intro heq
  rw [h.packet] at heq
  have hheader := SlimMsgHeader.encode_injective (List.append_inj heq (by simp)).1
  rw [hheader, h.type] at htype
  cases htype

namespace Turn

variable {s : ClientState} {run run' : PublishRun} {res : PublishResult} {m : Int}

/-- The count of a bounded call goes on counting its attempts. -/
theorem counted (ht : Turn s run res) (hm : s.client.maxRetries = m) (h : run.Counted m)
    (hb : Bounded run.msg.header.qosLevel m) (hq : run.AtQos) (hr : res.call = .inl run') :
    run'.msg = run.msg ∧ run'.Counted m := by
  subst hm
  cases ht with
  | begins hpc hle hpc' =>
    obtain rfl := Sum.inl.inj hr
    exact ⟨rfl, h.nonneg, fun _ => hle⟩
  | again hpc hle h0 h1 h2 =>
    obtain rfl := Sum.inl.inj hr
    exact ⟨rfl, h⟩
  | goesOn hpc hpc' hrank hs =>
    obtain rfl := Sum.inl.inj hr
    exact ⟨rfl, h.nonneg, fun _ => h.le hpc⟩
  | failed hpc hrank =>
    obtain rfl := Sum.inl.inj hr
    obtain ⟨hretry, -⟩ := h.retry hb hq hpc
    have hnonneg := h.nonneg
    exact ⟨rfl, by omega, fun hne => absurd rfl hne⟩
  | returned hs => cases hr

/-- A step of a bounded call is one of those that are left to it. -/
theorem weight_lt (ht : Turn s run res) (hm : s.client.maxRetries = m) (h : run.Counted m)
    (hb : Bounded run.msg.header.qosLevel m) (hq : run.AtQos) (hr : res.call = .inl run') :
    run'.weight m s.polls < run.weight m s.polls := by
  subst hm
  have hnonneg := h.nonneg
  unfold PublishRun.weight
  cases ht with
  | begins hpc hle hpc' =>
    obtain rfl := Sum.inl.inj hr
    -- the attempt has more steps than the test of the loop, but it is one less
    rw [PublishRun.attemptsLeft_loop hpc,
      PublishRun.attemptsLeft_of_ne (PublishPc.ne_loop_of_first hpc'), hpc]
    obtain ⟨k, hk⟩ := Int.eq_ofNat_of_zero_le (show 0 ≤ s.client.maxRetries - run.retries by omega)
    have h₁ : (s.client.maxRetries - run.retries).toNat = k := by omega
    have h₂ : (s.client.maxRetries + 1 - run.retries).toNat = k + 1 := by omega
    simp only [h₁, h₂, Nat.add_mul]
    rcases hpc' with rfl | rfl <;> simp only [PublishPc.rank] <;> omega
  | again hpc hle h0 h1 h2 =>
    exact (hb.false_of_other (hnonneg.trans hle) h0 h1 h2).elim
  | goesOn hpc hpc' hrank hs =>
    obtain rfl := Sum.inl.inj hr
    rw [PublishRun.attemptsLeft_of_ne hpc, PublishRun.attemptsLeft_of_ne hpc']
    exact Nat.add_lt_add_left hrank _
  | failed hpc hrank =>
    obtain rfl := Sum.inl.inj hr
    obtain ⟨hretry, hle⟩ := h.retry hb hq hpc
    -- the attempts after this one are left to the loop
    have hleft : run.retry.attemptsLeft s.client.maxRetries =
        run.attemptsLeft s.client.maxRetries := by
      rw [PublishRun.attemptsLeft_loop rfl, PublishRun.attemptsLeft_of_ne hpc, hretry]
      omega
    rw [hleft]
    exact Nat.add_lt_add_left hrank _
  | returned hs => cases hr

/-- A packet that is sent is one of the attempts that are left. -/
theorem sent_le (ht : Turn s run res) (hm : s.client.maxRetries = m) (h : run.Counted m)
    (hb : Bounded run.msg.header.qosLevel m) (hq : run.AtQos) (hwf : run.msg.WellFormed) :
    res.sent.count run.msg.packet +
      (res.call.getLeft?.map (·.attemptsLeft m)).getD 0 ≤ run.attemptsLeft m := by
  subst hm
  have hnonneg := h.nonneg
  cases ht with
  | begins hpc hle hpc' =>
    simp only [List.count_singleton_self, Sum.getLeft?_inl, Option.map_some, Option.getD_some]
    rw [PublishRun.attemptsLeft_loop hpc,
      PublishRun.attemptsLeft_of_ne (PublishPc.ne_loop_of_first hpc')]
    dsimp only
    omega
  | again hpc hle h0 h1 h2 =>
    exact (hb.false_of_other (hnonneg.trans hle) h0 h1 h2).elim
  | @goesOn sent pc hpc hpc' hrank hs =>
    have hcount : sent.count run.msg.packet = 0 := by
      apply List.count_eq_zero_of_not_mem
      intro hmem
      obtain ⟨len, hlen⟩ := hs _ hmem
      exact hwf.release_ne hlen rfl
    simp only [hcount, Sum.getLeft?_inl, Option.map_some, Option.getD_some, Nat.zero_add]
    rw [PublishRun.attemptsLeft_of_ne hpc, PublishRun.attemptsLeft_of_ne hpc']
  | failed hpc hrank =>
    obtain ⟨hretry, hle⟩ := h.retry hb hq hpc
    simp only [List.count_nil, Sum.getLeft?_inl, Option.map_some, Option.getD_some, Nat.zero_add]
    rw [PublishRun.attemptsLeft_loop rfl, PublishRun.attemptsLeft_of_ne hpc, hretry]
    omega
  | returned hs =>
    rcases hs with rfl | ⟨rfl, hpc, hle⟩
    · simp
    · simp only [List.count_singleton_self, Sum.getLeft?_inr, Option.map_none, Option.getD_none]
      rw [PublishRun.attemptsLeft_loop hpc]
      omega

end Turn

/-! ## A call and its schedule -/

/-- What happens during a call: the listener gets datagrams, and the call makes its steps, whether
its sends succeed or not. -/
def SessionEvent.DuringCall : SessionEvent → Prop
  | .receive _ => True
  | .advance _ => True
  | _ => False

namespace Session

/-- The datagrams that a sequence of steps sends. -/
def sentDuring : Session → List SessionEvent → List Datagram
  | _, [] => []
  | p, x :: xs =>
    match p.step x.offered x with
    | none => []
    | some (p', ds) => ds ++ p'.sentDuring xs

/-- The attempts that the count leaves to the call in progress. -/
def attemptsLeft (m : Int) (p : Session) : ℕ := (p.call.map (·.attemptsLeft m)).getD 0

/-- A bound on the steps of the call in progress. -/
def weight (m polls : Int) (p : Session) : ℕ := (p.call.map (·.weight m polls)).getD 0

/-- The call in progress, if there is one, is that of the message, and counts its attempts. -/
structure Budgeted (msg : Message) (m polls : Int) (p : Session) : Prop where
  maxRetries : p.state.client.maxRetries = m
  polls : p.state.polls = polls
  call : ∀ run ∈ p.call, run.msg = msg ∧ run.AtQos ∧ run.Counted m

variable {p p' : Session} {msg : Message} {m polls : Int} {x : SessionEvent} {ds : List Datagram}

/-- **A step uses up what it sends and what it takes.** -/
theorem Budgeted.step (h : p.Budgeted msg m polls) (hb : Bounded msg.header.qosLevel m)
    (hwf : msg.WellFormed) (hx : x.DuringCall) (hs : p.step x.offered x = some (p', ds)) :
    p'.Budgeted msg m polls ∧
      ds.count msg.packet + p'.attemptsLeft m ≤ p.attemptsLeft m ∧
      p'.weight m polls + (if x.isAdvance then 1 else 0) ≤ p.weight m polls := by
  cases Session.step_stepped hs with
  | @receive r hr =>
    obtain ⟨hm, hp⟩ := config_listenerStep p.state r
    refine ⟨⟨hm.trans h.maxRetries, hp.trans h.polls, h.call⟩, ?_, ?_⟩
    · simp [attemptsLeft]
    · simp [weight, SessionEvent.isAdvance]
  | @advance ok run hc =>
    obtain ⟨rfl, hq, hcounted⟩ := h.call run hc
    have hturn := publishStep_turn p.state run ok
    have hadv := publishStep_advance p.state run ok
    obtain ⟨hm, hp⟩ := config_publishStep p.state run ok
    refine ⟨⟨hm.trans h.maxRetries, hp.trans h.polls, fun run' hrun' => ?_⟩, ?_, ?_⟩
    · have hcall : (publishStep p.state run ok).call = .inl run' := by
        simpa [afterStep] using hrun'
      obtain ⟨hmsg, hcounted'⟩ := hturn.counted h.maxRetries hcounted hb hq hcall
      exact ⟨hmsg, hadv.atQos hq hcall, hcounted'⟩
    · have hsent := hturn.sent_le h.maxRetries hcounted hb hq hwf
      simpa [attemptsLeft, afterStep, hc] using hsent
    · have hpos := run.weight_pos m polls
      simp only [weight, afterStep, hc, SessionEvent.isAdvance, if_true, Option.map_some,
        Option.getD_some]
      cases hcall : (publishStep p.state run ok).call with
      | inr ret =>
        simp only [Sum.getLeft?_inr, Option.map_none, Option.getD_none]
        omega
      | inl run' =>
        have hlt := hturn.weight_lt h.maxRetries hcounted hb hq hcall
        rw [h.polls] at hlt
        simp only [Sum.getLeft?_inl, Option.map_some, Option.getD_some]
        omega
  | _ => exact hx.elim

/-- **A sequence of steps uses up what it sends and what it takes.** -/
theorem Budgeted.execute {es : List SessionEvent} (h : p.Budgeted msg m polls)
    (hb : Bounded msg.header.qosLevel m) (hwf : msg.WellFormed) (hes : ∀ e ∈ es, e.DuringCall)
    (he : EventLoop.execute Session.next p es = some p') :
    (p.sentDuring es).count msg.packet + p'.attemptsLeft m ≤ p.attemptsLeft m ∧
      p'.weight m polls + es.countP (·.isAdvance) ≤ p.weight m polls := by
  induction es generalizing p with
  | nil =>
    obtain rfl := Option.some.inj he
    simp [sentDuring]
  | cons x es ih =>
    obtain ⟨p₁, h₁, h₂⟩ := Option.bind_eq_some_iff.mp he
    obtain ⟨⟨p₁, ds⟩, hstep, rfl⟩ := Option.map_eq_some_iff.mp h₁
    obtain ⟨hp₁, hsent, hweight⟩ := h.step hb hwf (hes x List.mem_cons_self) hstep
    obtain ⟨hsent', hweight'⟩ := ih hp₁ (fun e he => hes e (List.mem_cons_of_mem x he)) h₂
    simp only [sentDuring, hstep, List.count_append, List.countP_cons]
    constructor <;> omega

end Session

/-! ## Calls that never end -/

/-- There is no reply that a call could find. -/
structure ClientState.Quiet (s : ClientState) : Prop where
  queue : s.client.eventQueue.count = 0
  table : ∀ id, qos2TableGetState s.table id = .none

/-- The call waits for the first reply of an attempt. -/
def PublishPc.Waits : PublishPc → Prop
  | .pollAck _ => True
  | .pollReceived _ => True
  | .checkReceived => True
  | _ => False

/-- Without a reply, a call that waits goes on waiting, and gets nearer to its loop. -/
theorem publishStep_of_quiet {s : ClientState} {run : PublishRun} (hs : s.Quiet)
    (hw : run.pc.Waits) :
    ∃ run', publishStep s run true = ⟨s, [], .inl run'⟩ ∧ run'.msg = run.msg ∧
      (run'.pc = .loop ∧ run'.retries < 2 ^ 31 ∨
        run'.pc.Waits ∧ run'.pc.rank s.polls < run.pc.rank s.polls) := by
  -- a count that has wrapped is a count as well
  have hretry : run.retry.retries < 2 ^ 31 := Int.bmod_lt (by decide)
  cases hpc : run.pc with
  | pollAck i =>
    by_cases hi : i < s.polls
    · have hwait : eventQueueWaitAck s.client.eventQueue run.msg.header.msgId =
          (-1, s.client.eventQueue) := by
        rw [eventQueueWaitAck, hs.queue]
        rfl
      refine ⟨{ run with pc := .pollAck (i + 1) }, ?_, rfl, Or.inr ⟨trivial, ?_⟩⟩
      · simp only [publishStep, hpc, if_pos hi, hwait]
        rfl
      · simp only [PublishPc.rank]
        omega
    · exact ⟨run.retry, by simp only [publishStep, hpc, if_neg hi], rfl, Or.inl ⟨rfl, hretry⟩⟩
  | pollReceived i =>
    by_cases hi : i < s.polls
    · refine ⟨{ run with pc := .pollReceived (i + 1) }, ?_, rfl, Or.inr ⟨trivial, ?_⟩⟩
      · simp [publishStep, hpc, hi, hs.table]
      · simp only [PublishPc.rank]
        omega
    · refine ⟨{ run with pc := .checkReceived }, ?_, rfl, Or.inr ⟨trivial, ?_⟩⟩
      · simp [publishStep, hpc, hi]
      · simp only [PublishPc.rank]
        omega
  | checkReceived =>
    refine ⟨run.retry, ?_, rfl, Or.inl ⟨rfl, hretry⟩⟩
    simp [publishStep, hpc, hs.table]
  | _ => simp [hpc, PublishPc.Waits] at hw

/-- Without a reply, a call that waits comes back to its loop. -/
theorem exists_loop_of_waits {p : Session} {run : PublishRun} (hs : p.state.Quiet)
    (hc : p.call = some run) (hw : run.pc.Waits) :
    ∃ k p' run', execute Session.next p (List.replicate k (.advance true)) = some p' ∧
      p'.state = p.state ∧ p'.call = some run' ∧ run'.msg = run.msg ∧ run'.pc = .loop ∧
      run'.retries < 2 ^ 31 := by
  induction hn : run.pc.rank p.state.polls using Nat.strong_induction_on generalizing p run with
  | _ n ih =>
    obtain ⟨run₁, hstep, hm₁, hrun₁⟩ := publishStep_of_quiet hs hw
    have hnext : p.next (.advance true) = some { p with call := some run₁ } := by
      rw [Session.next_advance hc, hstep]
      rfl
    rcases hrun₁ with ⟨hloop, hlt⟩ | ⟨hw₁, hrank⟩
    · refine ⟨1, { p with call := some run₁ }, run₁, ?_, rfl, rfl, hm₁, hloop, hlt⟩
      simp [execute, hnext]
    · obtain ⟨k, p', run', hk, hstate, hc', hm', hpc', hlt'⟩ :=
        ih _ (hn ▸ hrank) (p := { p with call := some run₁ }) hs rfl hw₁ rfl
      refine ⟨k + 1, p', run', ?_, hstate, hc', hm'.trans hm₁, hpc', hlt'⟩
      rw [List.replicate_succ]
      simpa [execute, hnext] using hk

/-- A call is at its loop with attempts left, and no reply is there. -/
structure Flooding (q : UInt8) (m : Int) (p : Session) : Prop where
  quiet : p.state.Quiet
  maxRetries : p.state.client.maxRetries = m
  call : ∃ run, p.call = some run ∧ run.pc = .loop ∧ run.retries ≤ m ∧
    run.msg.header.qosLevel = q

/-- **A call whose count does not pass the bound comes back to its loop**, and sends its packet
again. -/
theorem Flooding.again {q : UInt8} {m : Int} {p : Session} (h : Flooding q m p)
    (hb : ¬ Bounded q m) :
    ∃ k p', execute Session.next p (List.replicate (k + 1) (.advance true)) = some p' ∧
      Flooding q m p' := by
  obtain ⟨hquiet, hm, run, hc, hpc, hr, hq⟩ := h
  have hle : ¬ p.state.client.maxRetries < run.retries := by omega
  have hq0 : run.msg.header.qosLevel ≠ qosAtMostOnce := by
    rw [hq]
    exact fun hq0 => hb (Or.inr (Or.inl hq0))
  -- an attempt at QoS 1 or 2 ends in a count that does not pass the greatest `int`
  have hwaits : ∀ pc : PublishPc, pc.Waits → (q = qosAtLeastOnce ∨ q = qosExactlyOnce) →
      publishStep p.state run true =
        ⟨p.state, [run.msg.packet], .inl { run with pc := pc }⟩ →
      ∃ k p', execute Session.next p (List.replicate (k + 1) (.advance true)) = some p' ∧
        Flooding q m p' := by
    intro pc hw hlevel hstep
    have hmax : 2 ^ 31 - 1 ≤ m := by
      by_contra hlt
      exact hb (Or.inr (Or.inr ⟨hlevel, not_le.mp hlt⟩))
    have hnext : p.next (.advance true) = some { p with call := some { run with pc := pc } } := by
      rw [Session.next_advance hc, hstep]
      rfl
    obtain ⟨k, p', run', hk, hstate, hc', hm', hpc', hlt'⟩ :=
      exists_loop_of_waits (p := { p with call := some { run with pc := pc } }) hquiet rfl hw
    refine ⟨k, p', ?_, ?_⟩
    · rw [List.replicate_succ]
      simpa [execute, hnext] using hk
    · refine ⟨hstate ▸ hquiet, hstate ▸ hm, run', hc', hpc', by omega, ?_⟩
      rw [hm']
      exact hq
  by_cases h1 : run.msg.header.qosLevel = qosAtLeastOnce
  · apply hwaits (.pollAck 0) trivial (Or.inl (hq ▸ h1))
    simp only [publishStep, hpc, if_neg hle, if_neg hq0, if_pos h1, Bool.true_eq_false, if_false]
  by_cases h2 : run.msg.header.qosLevel = qosExactlyOnce
  · apply hwaits (.pollReceived 0) trivial (Or.inr (hq ▸ h2))
    simp only [publishStep, hpc, if_neg hle, if_neg hq0, if_neg h1, if_pos h2,
      Bool.true_eq_false, if_false]
  -- at another level nothing changes
  · have hnext : p.next (.advance true) = some p := by
      rw [Session.next_advance hc]
      simp [publishStep, hpc, hle, hq0, h1, h2, Session.afterStep, ← hc]
    refine ⟨0, p, by simp [execute, hnext], hquiet, hm, run, hc, hpc, hr, hq⟩

/-- Such a call makes any number of steps and is still there. -/
theorem Flooding.forever {q : UInt8} {m : Int} {p : Session} (h : Flooding q m p)
    (hb : ¬ Bounded q m) (n : ℕ) :
    ∃ k p', n ≤ k ∧ execute Session.next p (List.replicate k (.advance true)) = some p' ∧
      Flooding q m p' := by
  induction n with
  | zero => exact ⟨0, p, Nat.le_refl 0, rfl, h⟩
  | succ n ih =>
    obtain ⟨k, p₁, hk, h₁, hp₁⟩ := ih
    obtain ⟨j, p₂, h₂, hp₂⟩ := hp₁.again hb
    refine ⟨k + (j + 1), p₂, by omega, ?_, hp₂⟩
    rw [List.replicate_add, execute_append, h₁]
    exact h₂

/-! ## The budget -/

/-- From this session on, the call in progress makes at most `n` steps, and it can make the next one
as long as it is in progress. -/
structure Session.EndsWithin (n : ℕ) (p : Session) : Prop where
  steps : ∀ es p', (∀ e ∈ es, e.DuringCall) → execute Session.next p es = some p' →
    es.countP (·.isAdvance) ≤ n
  goesOn : ∀ es p', (∀ e ∈ es, e.DuringCall) → execute Session.next p es = some p' →
    p'.call.isSome → ∀ sendOk, (p'.next (.advance sendOk)).isSome

/-- **With this configuration, every call ends within its budget**: it makes a bounded number of
steps, whatever the listener gets meanwhile and whether its sends succeed or not, and it sends its
packet at most `max_retries + 1` times. -/
def EndsInBudget (qosLevel : UInt8) (timeoutMs maxRetries : Int) : Prop :=
  ∀ xs p topic data dataLen p₁, execute Session.next Session.init xs = some p →
    p.state.client.qosLevel = qosLevel → p.state.client.retryTimeoutMs = timeoutMs →
    p.state.client.maxRetries = maxRetries → p.next (.publish topic data dataLen) = some p₁ →
    (∃ n, p₁.EndsWithin n) ∧
      ∀ es p', (∀ e ∈ es, e.DuringCall) → execute Session.next p₁ es = some p' →
        ∀ run ∈ p₁.call, ((p₁.sentDuring es).count run.msg.packet : Int) ≤ max 0 (maxRetries + 1)

/-- A call in progress can always make its next step. -/
theorem Session.isSome_next_advance {p : Session} (h : p.call.isSome) (sendOk : Bool) :
    (p.next (.advance sendOk)).isSome := by
  obtain ⟨run, hrun⟩ := Option.isSome_iff_exists.mp h
  rw [Session.next_advance hrun]
  rfl

/-- A call that has returned makes no step. -/
theorem Session.countP_of_idle {p p' : Session} {es : List SessionEvent} (hc : p.call = none)
    (hes : ∀ e ∈ es, e.DuringCall) (he : execute Session.next p es = some p') :
    es.countP (·.isAdvance) = 0 := by
  induction es generalizing p with
  | nil => rfl
  | cons x es ih =>
    obtain ⟨p₁, h₁, h₂⟩ := Option.bind_eq_some_iff.mp he
    obtain ⟨⟨p₁, ds⟩, hstep, rfl⟩ := Option.map_eq_some_iff.mp h₁
    have htail := fun hc₁ => ih hc₁ (fun e he => hes e (List.mem_cons_of_mem x he)) h₂
    have hx := hes x List.mem_cons_self
    cases Session.step_stepped hstep with
    | @receive r hr =>
      rw [List.countP_cons, htail hc]
      rfl
    | @advance ok run hrun =>
      rw [hc] at hrun
      cases hrun
    | _ => exact hx.elim

/-- What a call has when it gets to its loop. -/
theorem Session.budgeted_of_publish {p p₁ : Session} {topic : Option CString} {data : Mem}
    {dataLen : ℕ} {run : PublishRun} (h : p.next (.publish topic data dataLen) = some p₁)
    (hrun : p₁.call = some run) :
    run.pc = .loop ∧ run.retries = 0 ∧ run.msg.WellFormed ∧
      run.msg.header.qosLevel = p.state.client.qosLevel ∧
      p₁.Budgeted run.msg p.state.client.maxRetries p.state.polls := by
  obtain ⟨ds, hstep⟩ := Session.next_stepped h
  cases hstep with
  | @publish _ _ _ c call hc hstart =>
    obtain rfl : call = .inl run := by
      cases call with
      | inl run' => simpa [Session.afterStart] using hrun
      | inr ret => simp [Session.afterStart] at hrun
    obtain ⟨-, -, hq, hr⟩ := publishStart_args hstart
    rcases publishStart_cases hstart with
      ⟨-, -, hcall⟩ | ⟨-, rfl, hcall | ⟨run', hrun', hpc, -, hwf⟩⟩
    · cases hcall
    · cases hcall
    · obtain rfl := Sum.inl.inj hrun'
      refine ⟨hpc, hr, hwf, hq, rfl, rfl, fun run' hrun' => ?_⟩
      obtain rfl : run' = run := Option.some.inj (hrun'.symm.trans hrun)
      refine ⟨rfl, fun q hqos => ?_, ?_, fun hne => absurd hpc hne⟩
      · rw [hpc] at hqos
        cases hqos
      · rw [hr]

/-- **A bounded call ends within its budget.** -/
theorem endsInBudget_of_bounded {q : UInt8} {t m : Int} (hb : Bounded q m) :
    EndsInBudget q t m := by
  rintro xs p topic data dataLen p₁ - rfl - rfl hnext
  have hgoes : ∀ es p', (∀ e ∈ es, e.DuringCall) → execute Session.next p₁ es = some p' →
      p'.call.isSome → ∀ sendOk, (p'.next (.advance sendOk)).isSome :=
    fun _ _ _ _ => Session.isSome_next_advance
  cases hcall : p₁.call with
  -- the call has returned at once
  | none =>
    refine ⟨⟨0, fun es p' hes he => ?_, hgoes⟩, fun es p' hes he run hrun => ?_⟩
    · rw [Session.countP_of_idle hcall hes he]
    · cases hrun
  | some run =>
    obtain ⟨hpc, hr, hwf, hq, hbudget⟩ := Session.budgeted_of_publish hnext hcall
    rw [← hq] at hb
    refine ⟨⟨p₁.weight p.state.client.maxRetries p.state.polls, fun es p' hes he => ?_, hgoes⟩,
      fun es p' hes he run' hrun' => ?_⟩
    · obtain ⟨-, hweight⟩ := hbudget.execute hb hwf hes he
      omega
    · obtain rfl : run' = run := (Option.some.inj hrun').symm
      obtain ⟨hsent, -⟩ := hbudget.execute hb hwf hes he
      have hleft : p₁.attemptsLeft p.state.client.maxRetries =
          (p.state.client.maxRetries + 1).toNat := by
        simp [Session.attemptsLeft, hcall, PublishRun.attemptsLeft_loop hpc, hr]
      omega

/-- The session that the two setters leave. -/
def configured (q : UInt8) (t m : Int) : Session :=
  { Session.init with state := slimmqSetRetryPolicy (slimmqSetQos Session.init.state q) t m }

theorem execute_configured (q : UInt8) (t m : Int) :
    execute Session.next Session.init [.setQos q, .setRetryPolicy t m] = some (configured q t m) :=
  rfl

theorem quiet_configured (q : UInt8) (t m : Int) : (configured q t m).state.Quiet := by
  have htable : (configured q t m).state.table = qos2TableInit := by
    show (if q = qosExactlyOnce then qos2TableInit else qos2TableInit) = qos2TableInit
    exact ite_self _
  refine ⟨rfl, fun id => ?_⟩
  rw [htable]
  rfl

/-- A call with the configuration gets to its loop, with an attempt to make. -/
theorem exists_flooding (q : UInt8) (t m : Int) (h0 : 0 ≤ m) :
    ∃ topic data dataLen p₁,
      (configured q t m).next (.publish topic data dataLen) = some p₁ ∧ Flooding q m p₁ := by
  obtain ⟨msg, hstart, hq, -⟩ :=
    @publishStart_eq ⟨[97], noNul_a⟩ 1 (by decide) (by decide) (configured q t m).state.client
      fun _ => 9
  have hnext : (configured q t m).next (.publish (some ⟨[97], noNul_a⟩) (fun _ => 9) 1) =
      some ((configured q t m).afterStart (some ⟨[97], noNul_a⟩)
        (configured q t m).state.client.takeMsgId (.inl ⟨msg, 0, .loop⟩)) := by
    simp only [Session.next, Session.step]
    rw [if_neg (by simp [configured, Session.init]), hstart]
    rfl
  -- taking a message id leaves the queue and the table
  have hquiet := quiet_configured q t m
  exact ⟨_, _, _, _, hnext, ⟨hquiet.queue, hquiet.table⟩, rfl, _, rfl, rfl, h0, hq⟩

/-- A configuration with an attempt that is not bounded has a call that does not end. -/
theorem not_endsInBudget {q : UInt8} {m : Int} (t : Int) (hb : ¬ Bounded q m) :
    ¬ EndsInBudget q t m := by
  intro h
  have h0 : 0 ≤ m := not_lt.mp fun hneg => hb (Or.inl hneg)
  obtain ⟨topic, data, dataLen, p₁, hnext, hflood⟩ := exists_flooding q t m h0
  obtain ⟨⟨n, hn⟩, -⟩ := h _ _ topic data dataLen p₁ (execute_configured q t m) rfl rfl rfl hnext
  obtain ⟨k, p', hk, he, -⟩ := hflood.forever hb (n + 1)
  have hcount := hn.steps _ p' (fun e he => ?_) he
  · simp only [List.countP_replicate, SessionEvent.isAdvance, if_true] at hcount
    omega
  · rw [List.eq_of_mem_replicate he]
    trivial

/-- **The configurations with which every call ends within its budget**: the level is one of the
three, and the count can pass the bound. -/
theorem endsInBudget_iff (qosLevel : UInt8) (timeoutMs maxRetries : Int32) :
    EndsInBudget qosLevel timeoutMs.toInt maxRetries.toInt ↔
      Bounded qosLevel maxRetries.toInt := by
  constructor
  · intro h
    by_contra hb
    exact not_endsInBudget _ hb h
  · exact endsInBudget_of_bounded

/-- At a fourth level the first call never ends. -/
theorem fourthLevel_not_endsInBudget : ¬ EndsInBudget 3 1000 3 := by
  apply not_endsInBudget
  unfold Bounded
  decide

end SlimMQ
