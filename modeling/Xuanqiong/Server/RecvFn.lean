import Xuanqiong.Net.Coroutines

/-! `RpcServer::recv_fn`. Its points are the four loops that wait for bytes, the call of
`resume_write` after a response, and its end; a step is what it does from one of them to the
next. -/
namespace Xuanqiong

/-- What `recv_fn` uses of protobuf and of the registered services. A service is known by
`FindMethodByName`; the requests it takes depend on the method. -/
structure RpcServer (M Req Resp : Type) where
  parseHeader : List UInt8 → Option Header
  serializeHeader : Header → List UInt8
  name2service : String → Option (String → Option M)
  parseRequest : M → List UInt8 → Option Req
  serializeResponse : Resp → List UInt8

inductive RecvPoint (M : Type) where
  | headerLen
  | header (headerLen : Nat)
  | requestLen (header : Header)
  | request (header : Header) (method : M) (requestLen : Nat)
  | reply
  | done

structure Call (M Req Resp : Type) where
  header : Header
  method : M
  request : Req
  response : Resp

namespace RpcServer

variable {M Req Resp : Type}

/- The conditions of the loops around `async_read`. That for the request does not ask whether
the connection is closed. -/
def waits (c : Connection) : RecvPoint M → Bool
  | .headerLen | .requestLen _ => c.readBytes < 4 && !c.closed
  | .header n => c.readBytes < n && !c.closed
  | .request _ _ n => c.readBytes < n
  | .reply | .done => false

def leave (c : Connection) : Connection × RecvPoint M × List (Call M Req Resp) :=
    (c.close, .done, [])

def checkHeader (c : Connection) (h : Header) : Connection × RecvPoint M × List (Call M Req Resp) :=
  if h.magic ≠ MAGIC_NUM then leave c
  else if h.version ≠ VERSION then leave c
  else (c, .requestLen h, [])

def lookup (srv : RpcServer M Req Resp) (h : Header) : Option M :=
  (srv.name2service (h.serviceName.getD "")).bind fun service => service (h.methodName.getD "")

def findMethod (srv : RpcServer M Req Resp) (c : Connection) (h : Header) (requestLen : Nat) :
    Connection × RecvPoint M × List (Call M Req Resp) :=
  match srv.name2service (h.serviceName.getD "") with
  | none => leave c
  | some service =>
    match service (h.methodName.getD "") with
    | none => leave c
    | some method => (c, .request h method requestLen, [])

def respHeader (requestId : Int64) : Header :=
  ⟨MAGIC_NUM, VERSION, .response, requestId, none, none⟩

def sendResponse (srv : RpcServer M Req Resp) (c : Connection) (junk : Nat → UInt8)
    (call : Call M Req Resp) :
    Option (Connection × RecvPoint M × List (Call M Req Resp)) :=
  (c.appendMessage junk (srv.serializeHeader (respHeader call.header.requestId))).bind fun c =>
    (c.appendMessage junk (srv.serializeResponse call.response)).map fun c => (c, .reply, [call])

/-- One step, with the calls it makes. `memory` stands for indeterminate bytes and `response` for
what `CallMethod` leaves in the response. No result stands for a null pointer followed or a
`Next` that hands out nothing for ever. -/
def recvStep (srv : RpcServer M Req Resp) (memory : Nat → UInt8) (response : Resp)
    (c : Connection) :
    RecvPoint M → Option (Connection × RecvPoint M × List (Call M Req Resp))
  | .headerLen =>
    if c.closed ∧ c.readBytes < 4 then some (leave c)
    else
      (c.fetchUint32 memory).map fun
        | (none, c) => leave c
        | (some n, c) => (c, .header n, [])
  | .header n =>
    if c.closed ∧ c.readBytes < n then some (leave c)
    else
      (c.pull n).map fun (bytes, c) =>
        match srv.parseHeader bytes with
        | none => leave c
        | some h => checkHeader c.popLimit h
  | .requestLen h =>
    if c.closed ∧ c.readBytes < 4 then some (leave c)
    else
      (c.fetchUint32 memory).map fun
        | (none, c) => leave c
        | (some n, c) => srv.findMethod c h n
  | .request h m n =>
    if c.closed ∧ c.readBytes < n then some (leave c)
    else
      (c.pull n).bind fun (bytes, c) =>
        match srv.parseRequest m bytes with
        | none => some (leave c)
        | some r => srv.sendResponse c.popLimit memory ⟨h, m, r, response⟩
  | .reply => some (c, .headerLen, [])
  | .done => none

def finished : RecvPoint M → Bool
  | .done => true
  | _ => false

theorem recvStep_running {srv : RpcServer M Req Resp} {memory : Nat → UInt8} {response : Resp}
    {c : Connection} {p : RecvPoint M} {r : Connection × RecvPoint M × List (Call M Req Resp)}
    (hs : srv.recvStep memory response c p = some r) : p ≠ .done := by
  rintro rfl
  cases hs

theorem checkHeader_cases {c d : Connection} {h : Header} {q : RecvPoint M}
    {calls : List (Call M Req Resp)} (hs : checkHeader c h = (d, q, calls)) :
    (d, q, calls) = leave c ∨ (d, q, calls) = (c, .requestLen h, []) := by
  unfold checkHeader at hs
  split at hs
  · exact Or.inl hs.symm
  · split at hs
    · exact Or.inl hs.symm
    · exact Or.inr hs.symm

theorem findMethod_cases {srv : RpcServer M Req Resp} {c d : Connection} {h : Header} {n : Nat}
    {q : RecvPoint M} {calls : List (Call M Req Resp)} (hs : srv.findMethod c h n = (d, q, calls)) :
    (d, q, calls) = leave c ∨ ∃ m, (d, q, calls) = (c, .request h m n, []) := by
  unfold findMethod at hs
  split at hs
  · exact Or.inl hs.symm
  · split at hs
    · exact Or.inl hs.symm
    · exact Or.inr ⟨_, hs.symm⟩

inductive Turn (srv : RpcServer M Req Resp) (memory : Nat → UInt8) (c : Connection)
    (p : RecvPoint M) :
    Connection → RecvPoint M → List (Call M Req Resp) → Prop where
  | leave {b : Connection} (took : c.Takes b) : Turn srv memory c p b.close .done []
  | goOn {d : Connection} {q : RecvPoint M} (took : c.Takes d) (goes : finished q = false) :
      Turn srv memory c p d q []
  | answer {h : Header} {m : M} {n : Nat} {b d : Connection} {q : RecvPoint M}
      {call : Call M Req Resp}
      {calls : List (Call M Req Resp)} (point : p = .request h m n) (took : c.Takes b)
      (run : srv.sendResponse b memory call = some (d, q, calls)) : Turn srv memory c p d q calls

theorem recvStep_turn {srv : RpcServer M Req Resp} {memory : Nat → UInt8} {response : Resp}
    {c d : Connection} {p q : RecvPoint M} {calls : List (Call M Req Resp)}
    (hs : srv.recvStep memory response c p = some (d, q, calls)) :
    srv.Turn memory c p d q calls := by
  cases p with
  | headerLen =>
    simp only [recvStep] at hs
    split at hs
    · cases hs
      exact .leave .nothing
    · obtain ⟨⟨v, b⟩, hv, hs⟩ := Option.map_eq_some_iff.mp hs
      cases v with
      | none =>
        cases hs
        exact .leave (.word hv)
      | some n =>
        cases hs
        exact .goOn (.word hv) rfl
  | header n =>
    simp only [recvStep] at hs
    split at hs
    · cases hs
      exact .leave .nothing
    · obtain ⟨⟨bytes, b⟩, hb, hs⟩ := Option.map_eq_some_iff.mp hs
      simp only at hs
      split at hs
      · cases hs
        exact .leave (.bytes hb)
      · rcases checkHeader_cases hs with left | valid
        · cases left
          exact .leave (.message hb)
        · cases valid
          exact .goOn (.message hb) rfl
  | requestLen h =>
    simp only [recvStep] at hs
    split at hs
    · cases hs
      exact .leave .nothing
    · obtain ⟨⟨v, b⟩, hv, hs⟩ := Option.map_eq_some_iff.mp hs
      cases v with
      | none =>
        cases hs
        exact .leave (.word hv)
      | some n =>
        rcases findMethod_cases hs with left | ⟨m, found⟩
        · cases left
          exact .leave (.word hv)
        · cases found
          exact .goOn (.word hv) rfl
  | request h m n =>
    simp only [recvStep] at hs
    split at hs
    · cases hs
      exact .leave .nothing
    · obtain ⟨⟨bytes, b⟩, hb, hs⟩ := Option.bind_eq_some_iff.mp hs
      simp only at hs
      split at hs
      · cases hs
        exact .leave (.bytes hb)
      · exact .answer rfl (.message hb) hs
  | reply =>
    cases hs
    exact .goOn .nothing rfl
  | done => cases hs

theorem sendResponse_cases {srv : RpcServer M Req Resp} {c d : Connection} {junk : Nat → UInt8}
    {call : Call M Req Resp} {q : RecvPoint M} {calls : List (Call M Req Resp)}
    (hs : srv.sendResponse c junk call = some (d, q, calls)) :
    q = .reply ∧ d.closed = c.closed := by
  obtain ⟨b, hb, hs⟩ := Option.bind_eq_some_iff.mp hs
  obtain ⟨r, hr, hd⟩ := Option.map_eq_some_iff.mp hs
  cases hd
  exact ⟨rfl, (Connection.appendMessage_closed hr).trans (Connection.appendMessage_closed hb)⟩

/-- `recv_fn` closes the connection just when it leaves its loop. -/
theorem recvStep_closed {srv : RpcServer M Req Resp} {memory : Nat → UInt8} {response : Resp}
    {c d : Connection} {p q : RecvPoint M} {calls : List (Call M Req Resp)}
    (hs : srv.recvStep memory response c p = some (d, q, calls)) :
    d.closed = (c.closed || finished q) := by
  cases recvStep_turn hs with
  | leave took => simp [Connection.close, finished]
  | goOn took goes => rw [took.closed, goes, Bool.or_false]
  | answer point took run =>
    obtain ⟨rfl, same⟩ := sendResponse_cases run
    simp [same, took.closed, finished]

/-- The server's end of a connection, with the calls made so far. What a step does not choose are
indeterminate bytes and the response of the service. -/
def endpoint (srv : RpcServer M Req Resp) :
    Endpoint (List (Call M Req Resp)) (RecvPoint M) ((Nat → UInt8) × Resp) Empty where
  app := []
  first := .headerLen
  waits := waits
  replies
    | .reply => some .headerLen
    | _ => none
  finished := finished
  step x made c p := (srv.recvStep x.1 x.2 c p).map fun (c, q, calls) => (made ++ calls, c, q)
  submit _ t := nomatch t
  owned := false
  step_closed hs := by
    obtain ⟨⟨d, q, calls⟩, hr, hd⟩ := Option.map_eq_some_iff.mp hs
    cases hd
    exact recvStep_closed hr
  submit_closed := by
    intro _ t
    exact nomatch t

end RpcServer

/- A server small enough to run by hand: a header is a byte that says whether the magic number
is right and a byte for the id, a request is any bytes, and so is a response. -/
def echoServer : RpcServer Unit (List UInt8) (List UInt8) where
  parseHeader
    | [magic, id] =>
      some ⟨if magic = 1 then MAGIC_NUM else 0, VERSION, .request, Int64.ofNat id.toNat, none, none⟩
    | _ => none
  serializeHeader h := [1, UInt8.ofNat h.requestId.toNatClampNeg]
  name2service _ := some fun _ => some ()
  parseRequest _ bytes := some bytes
  serializeResponse bytes := bytes

end Xuanqiong
