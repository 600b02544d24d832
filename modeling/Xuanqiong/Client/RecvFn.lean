import Xuanqiong.Net.Coroutines

/-! `ClientChannel`: its `recv_fn`, point by point as that of the server, and the task that
`CallMethod` spawns. -/
namespace Xuanqiong

/-- What the channel uses of protobuf. Which bytes are a response depends on the object that the
caller handed over for it. -/
structure ClientChannel (Req R Msg : Type) where
  parseHeader : List UInt8 → Option Header
  serializeHeader : Header → List UInt8
  serializeRequest : Req → List UInt8
  parseResponse : R → List UInt8 → Option Msg

structure Session (R D : Type) where
  response : R
  done : Option D

structure MethodCall (Req R D : Type) where
  serviceName : String
  methodName : String
  request : Req
  session : Session R D

/- What ends a session: `done->Run()`, when the message is in the response, or `delete response`. -/
inductive Ending (R D Msg : Type) where
  | run (done : D) (response : R) (message : Msg)
  | delete (response : R)

/-- `made` are the sessions entered so far, `endings` what was done to end sessions, each with
the id that the header carried. -/
structure ClientState (R D Msg : Type) where
  id2session : Int64 → Option (Session R D)
  requestId : Int64
  made : List (Int64 × Session R D)
  endings : List (Int64 × Ending R D Msg)

inductive ClientPoint where
  | headerLen
  | header (headerLen : Nat)
  | responseLen (header : Header)
  | response (header : Header) (responseLen : Nat)
  | done

def Session.finish {R D Msg : Type} (session : Session R D) (message : Msg) : Ending R D Msg :=
  match session.done with
  | some done => .run done session.response message
  | none => .delete session.response

namespace ClientChannel

variable {Req R D Msg : Type}

def waits (c : Connection) : ClientPoint → Bool
  | .headerLen | .responseLen _ => c.readBytes < 4 && !c.closed
  | .header n | .response _ n => c.readBytes < n && !c.closed
  | .done => false

/- From the lookup in `id2session_` on. An unknown id leaves the response unread, and a response
that does not parse leaves the limit in force. -/
def handleResponse (ch : ClientChannel Req R Msg) (st : ClientState R D Msg) (c : Connection)
    (h : Header) (responseLen : Nat) : Option (ClientState R D Msg × Connection × ClientPoint) :=
  match st.id2session h.requestId with
  | none => some (st, c, .headerLen)
  | some session =>
    let st := { st with id2session := Function.update st.id2session h.requestId none }
    (c.pull responseLen).map fun (bytes, c) =>
      match ch.parseResponse session.response bytes with
      | none => (st, c, .headerLen)
      | some message =>
        ({ st with endings := st.endings ++ [(h.requestId, session.finish message)] }, c.popLimit,
          .headerLen)

/-- One step. `memory` stands for indeterminate bytes; no result stands for a null pointer
followed or a `Next` that hands out nothing for ever. -/
def recvStep (ch : ClientChannel Req R Msg) (memory : Nat → UInt8) (st : ClientState R D Msg)
    (c : Connection) : ClientPoint → Option (ClientState R D Msg × Connection × ClientPoint)
  | .headerLen =>
    if c.closed ∧ c.readBytes < 4 then some (st, c.close, .done)
    else
      (c.fetchUint32 memory).map fun
        | (none, c) => (st, c.close, .done)
        | (some n, c) => (st, c, .header n)
  | .header n =>
    if c.closed ∧ c.readBytes < n then some (st, c.close, .done)
    else
      (c.pull n).map fun (bytes, c) =>
        match ch.parseHeader bytes with
        | none => (st, c.close, .done)
        | some h => (st, c.popLimit, .responseLen h)
  | .responseLen h =>
    if c.closed ∧ c.readBytes < 4 then some (st, c.close, .done)
    else
      (c.fetchUint32 memory).map fun
        -- failed to read response len: continue
        | (none, c) => (st, c, .headerLen)
        | (some n, c) => (st, c, .response h n)
  | .response h n =>
    if c.closed ∧ c.readBytes < n then some (st, c.close, .done)
    else ch.handleResponse st c h n
  | .done => none

def reqHeader (requestId : Int64) (call : MethodCall Req R D) : Header :=
  ⟨MAGIC_NUM, VERSION, .request, requestId, some call.serviceName, some call.methodName⟩

/- The task of `CallMethod` up to its `resume_write`. -/
def sendRequest (ch : ClientChannel Req R Msg) (junk : Nat → UInt8) (call : MethodCall Req R D)
    (st : ClientState R D Msg) (c : Connection) : Option (ClientState R D Msg × Connection) :=
  (c.appendMessage junk (ch.serializeHeader (reqHeader st.requestId call))).bind fun c =>
    (c.appendMessage junk (ch.serializeRequest call.request)).map fun c =>
      ({ st with
        requestId := st.requestId + 1
        id2session := Function.update st.id2session st.requestId (some call.session)
        made := st.made ++ [(st.requestId, call.session)] }, c)

def finished : ClientPoint → Bool
  | .done => true
  | _ => false

theorem handleResponse_takes {ch : ClientChannel Req R Msg} {st st' : ClientState R D Msg}
    {c d : Connection} {h : Header} {n : Nat} {q : ClientPoint}
    (hs : ch.handleResponse st c h n = some (st', d, q)) : c.Takes d ∧ q = .headerLen := by
  unfold handleResponse at hs
  split at hs
  · cases hs
    exact ⟨.nothing, rfl⟩
  · obtain ⟨⟨bytes, b⟩, hb, hs⟩ := Option.map_eq_some_iff.mp hs
    simp only at hs
    split at hs
    · cases hs
      exact ⟨.bytes hb, rfl⟩
    · cases hs
      exact ⟨.message hb, rfl⟩

theorem recvStep_takes {ch : ClientChannel Req R Msg} {memory : Nat → UInt8}
    {st st' : ClientState R D Msg} {c d : Connection} {p q : ClientPoint}
    (hs : ch.recvStep memory st c p = some (st', d, q)) :
    ∃ b, c.Takes b ∧ (d = b.close ∧ q = .done ∨ d = b ∧ finished q = false) := by
  cases p with
  | headerLen =>
    simp only [recvStep] at hs
    split at hs
    · cases hs
      exact ⟨c, .nothing, Or.inl ⟨rfl, rfl⟩⟩
    · obtain ⟨⟨v, b⟩, hv, hs⟩ := Option.map_eq_some_iff.mp hs
      cases v with
      | none =>
        cases hs
        exact ⟨b, .word hv, Or.inl ⟨rfl, rfl⟩⟩
      | some n =>
        cases hs
        exact ⟨_, .word hv, Or.inr ⟨rfl, rfl⟩⟩
  | header n =>
    simp only [recvStep] at hs
    split at hs
    · cases hs
      exact ⟨c, .nothing, Or.inl ⟨rfl, rfl⟩⟩
    · obtain ⟨⟨bytes, b⟩, hb, hs⟩ := Option.map_eq_some_iff.mp hs
      simp only at hs
      split at hs
      · cases hs
        exact ⟨b, .bytes hb, Or.inl ⟨rfl, rfl⟩⟩
      · cases hs
        exact ⟨b.popLimit, .message hb, Or.inr ⟨rfl, rfl⟩⟩
  | responseLen h =>
    simp only [recvStep] at hs
    split at hs
    · cases hs
      exact ⟨c, .nothing, Or.inl ⟨rfl, rfl⟩⟩
    · obtain ⟨⟨v, b⟩, hv, hs⟩ := Option.map_eq_some_iff.mp hs
      cases v with
      | none | some n =>
        cases hs
        exact ⟨_, .word hv, Or.inr ⟨rfl, rfl⟩⟩
  | response h n =>
    simp only [recvStep] at hs
    split at hs
    · cases hs
      exact ⟨c, .nothing, Or.inl ⟨rfl, rfl⟩⟩
    · obtain ⟨took, rfl⟩ := handleResponse_takes hs
      exact ⟨d, took, Or.inr ⟨rfl, rfl⟩⟩
  | done => cases hs

/-- `recv_fn` closes the connection just when it leaves its loop. -/
theorem recvStep_closed {ch : ClientChannel Req R Msg} {memory : Nat → UInt8}
    {st st' : ClientState R D Msg} {c d : Connection} {p q : ClientPoint}
    (hs : ch.recvStep memory st c p = some (st', d, q)) : d.closed = (c.closed || finished q) := by
  obtain ⟨b, took, ⟨rfl, rfl⟩ | ⟨rfl, goes⟩⟩ := recvStep_takes hs
  · simp [Connection.close, finished]
  · rw [took.closed, goes, Bool.or_false]

theorem sendRequest_closed {ch : ClientChannel Req R Msg} {junk : Nat → UInt8}
    {call : MethodCall Req R D} {st st' : ClientState R D Msg} {c d : Connection}
    (hs : ch.sendRequest junk call st c = some (st', d)) : d.closed = c.closed := by
  obtain ⟨b, hb, hs⟩ := Option.bind_eq_some_iff.mp hs
  obtain ⟨r, hr, hd⟩ := Option.map_eq_some_iff.mp hs
  cases hd
  exact (Connection.appendMessage_closed hr).trans (Connection.appendMessage_closed hb)

/-- The client's end of a connection, which the channel owns. -/
def endpoint (ch : ClientChannel Req R Msg) :
    Endpoint (ClientState R D Msg) ClientPoint (Nat → UInt8) (MethodCall Req R D) where
  app := ⟨fun _ => none, 0, [], []⟩
  first := .headerLen
  waits := waits
  replies _ := none
  finished := finished
  step memory st c p := ch.recvStep memory st c p
  submit := ch.sendRequest
  owned := true
  step_closed := recvStep_closed
  submit_closed := sendRequest_closed

end ClientChannel

end Xuanqiong
