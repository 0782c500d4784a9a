import SlimMQ.Client.Client

/-!
# A client session

One process with one client, from its connection on: the listener thread, which is handed the
datagrams that have been sent to its address, and the application, which makes one publishing call
after the other and any other calls in between. Its steps interleave in any order; beside the state
of the process, a session records the messages it has published and the calls that have returned.

## Main definitions

* `Session`, `SessionEvent`: a session, and what happens in it
* `Session.step`: its steps

## Main results

* `Session.step_stepped`: what a step is, event by event
-/

namespace SlimMQ

open Buffer

/-- A session, with what it has done: the number of message ids it has taken, the messages it has
published, and the calls that have returned, with their values. -/
structure Session where
  state : ClientState
  call : Option PublishRun
  issued : ℕ
  started : List Message
  returned : List (Message × Int)

/-- A new session. -/
def Session.init : Session where
  state := ⟨slimmqConnect, qos2TableInit⟩
  call := none
  issued := 0
  started := []
  returned := []

/-- What happens in a session. -/
inductive SessionEvent
  /-- The listener gets a datagram. -/
  | receive (r : ClientReception)
  /-- The application calls `slimmq_publish`. -/
  | publish (topic : Option CString) (data : Mem) (dataLen : ℕ)
  /-- The call makes its next step. -/
  | advance (sendOk : Bool)
  | subscribe (topic : CString) (sendOk : Bool)
  | setQos (qosLevel : UInt8)
  | setRetryPolicy (timeoutMs maxRetries : Int)
  | nextEvent (topicBufSize : ℕ)

namespace Session

/-- The session after the start of a call. -/
def afterStart (p : Session) (topic : Option CString) (c : SlimmqClient) (call : PublishRun ⊕ Int) :
    Session :=
  { p with
    state := { p.state with client := c }
    call := call.getLeft?
    issued := p.issued + if topic.isSome then 1 else 0
    started := (call.getLeft?.map (·.msg)).toList ++ p.started }

/-- The session after a step of a call. -/
def afterStep (p : Session) (run : PublishRun) (res : PublishResult) : Session :=
  { p with
    state := res.state
    call := res.call.getLeft?
    returned := (res.call.getRight?.map (run.msg, ·)).toList ++ p.returned }

/-- **One step of a session**, with what it sends. A datagram comes from the inbox; a call starts
only when no other is in progress. -/
def step (inbox : List Datagram) (p : Session) : SessionEvent → Option (Session × List Datagram)
  | .receive r =>
    if r.datagram ∈ inbox then some ({ p with state := listenerStep p.state r }, []) else none
  | .publish topic data dataLen =>
    if p.call.isSome then none
    else
      (publishStart p.state.client topic data dataLen).map fun r =>
        (p.afterStart topic r.1 r.2, [])
  | .advance sendOk =>
    p.call.map fun run =>
      let res := publishStep p.state run sendOk
      (p.afterStep run res, res.sent)
  | .subscribe topic sendOk =>
    let r := slimmqSubscribe p.state.client topic sendOk
    some ({ p with state := { p.state with client := r.1 }, issued := p.issued + 1 }, r.2.1)
  | .setQos qosLevel => some ({ p with state := slimmqSetQos p.state qosLevel }, [])
  | .setRetryPolicy timeoutMs maxRetries =>
    some ({ p with state := slimmqSetRetryPolicy p.state timeoutMs maxRetries }, [])
  | .nextEvent topicBufSize =>
    (slimmqNextEvent p.state topicBufSize).map fun r => ({ p with state := r.2 }, [])

/-- **What a step of a session is**, event by event. -/
inductive Stepped (inbox : List Datagram) (p : Session) :
    SessionEvent → Session → List Datagram → Prop
  | receive {r : ClientReception} (hr : r.datagram ∈ inbox) :
      Stepped inbox p (.receive r) { p with state := listenerStep p.state r } []
  | publish {topic : Option CString} {data : Mem} {dataLen : ℕ} {c : SlimmqClient}
      {call : PublishRun ⊕ Int} (hc : p.call = none)
      (hstart : publishStart p.state.client topic data dataLen = some (c, call)) :
      Stepped inbox p (.publish topic data dataLen) (p.afterStart topic c call) []
  | advance {sendOk : Bool} {run : PublishRun} (hc : p.call = some run) :
      Stepped inbox p (.advance sendOk) (p.afterStep run (publishStep p.state run sendOk))
        (publishStep p.state run sendOk).sent
  | subscribe {topic : CString} {sendOk : Bool} :
      Stepped inbox p (.subscribe topic sendOk)
        { p with
          state := { p.state with client := p.state.client.takeMsgId }, issued := p.issued + 1 }
        (slimmqSubscribe p.state.client topic sendOk).2.1
  | setQos {qosLevel : UInt8} :
      Stepped inbox p (.setQos qosLevel) { p with state := slimmqSetQos p.state qosLevel } []
  | setRetryPolicy {timeoutMs maxRetries : Int} :
      Stepped inbox p (.setRetryPolicy timeoutMs maxRetries)
        { p with state := slimmqSetRetryPolicy p.state timeoutMs maxRetries } []
  | nextEvent {topicBufSize : ℕ} {ev : SlimmqEvent} {s : ClientState}
      (hnext : slimmqNextEvent p.state topicBufSize = some (ev, s)) :
      Stepped inbox p (.nextEvent topicBufSize) { p with state := s } []

theorem step_stepped {inbox : List Datagram} {p p' : Session} {e : SessionEvent}
    {ds : List Datagram} (hs : p.step inbox e = some (p', ds)) : Stepped inbox p e p' ds := by
  cases e with
  | receive r =>
    simp only [step] at hs
    split_ifs at hs with hr
    obtain ⟨rfl, rfl⟩ := Prod.mk.inj (Option.some.inj hs)
    exact .receive hr
  | publish topic data dataLen =>
    simp only [step] at hs
    split_ifs at hs with hc
    obtain ⟨⟨c, call⟩, hstart, hp⟩ := Option.map_eq_some_iff.mp hs
    obtain ⟨rfl, rfl⟩ := Prod.mk.inj hp
    exact .publish (by simpa using hc) hstart
  | advance sendOk =>
    obtain ⟨run, hc, hp⟩ := Option.map_eq_some_iff.mp hs
    obtain ⟨rfl, rfl⟩ := Prod.mk.inj hp
    exact .advance hc
  | subscribe topic sendOk =>
    obtain ⟨rfl, rfl⟩ := Prod.mk.inj (Option.some.inj hs)
    rw [fst_slimmqSubscribe]
    exact .subscribe
  | setQos qosLevel =>
    obtain ⟨rfl, rfl⟩ := Prod.mk.inj (Option.some.inj hs)
    exact .setQos
  | setRetryPolicy timeoutMs maxRetries =>
    obtain ⟨rfl, rfl⟩ := Prod.mk.inj (Option.some.inj hs)
    exact .setRetryPolicy
  | nextEvent topicBufSize =>
    obtain ⟨⟨ev, s⟩, hnext, hp⟩ := Option.map_eq_some_iff.mp hs
    obtain ⟨rfl, rfl⟩ := Prod.mk.inj hp
    exact .nextEvent hnext

end Session

/-- The topic `a` is a C string; it is the topic of the runs on fixed inputs. -/
theorem noNul_a : 0 ∉ ([97] : List UInt8) := by decide

end SlimMQ
