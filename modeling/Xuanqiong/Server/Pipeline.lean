import Xuanqiong.Net.Frames
import Xuanqiong.Server.RecvFn

/-! Streams of request frames through `recv_fn`: however the reads cut the stream, the services
get the requests in order and the output buffer gets one response frame for each. -/
namespace Xuanqiong

section

variable {M Req Resp : Type} {srv : RpcServer M Req Resp}

/-- A request as a client frames it, with all that makes it well formed for this server. -/
structure RequestFrame (srv : RpcServer M Req Resp) where
  headerBytes : List UInt8
  requestBytes : List UInt8
  header : Header
  method : M
  request : Req
  header_parses : srv.parseHeader headerBytes = some header
  magic : header.magic = MAGIC_NUM
  version : header.version = VERSION
  registered : srv.lookup header = some method
  request_parses : srv.parseRequest method requestBytes = some request
  header_short : (headerBytes.length : Int) < INT32_MAX
  request_short : (requestBytes.length : Int) < INT32_MAX

/-- A frame whose header parses and is refused. -/
structure RefusedFrame (srv : RpcServer M Req Resp) where
  headerBytes : List UInt8
  requestBytes : List UInt8
  header : Header
  header_parses : srv.parseHeader headerBytes = some header
  refused : header.magic ≠ MAGIC_NUM ∨ header.version ≠ VERSION ∨ srv.lookup header = none
  header_short : (headerBytes.length : Int) < INT32_MAX

def RequestFrame.bytes (f : RequestFrame srv) : List UInt8 :=
  message f.headerBytes ++ message f.requestBytes

inductive Tail (srv : RpcServer M Req Resp) where
  | nothing
  | refused (frame : RefusedFrame srv) (junk : List UInt8)

def Tail.bytes : Tail srv → List UInt8
  | .nothing => []
  | .refused g junk => message g.headerBytes ++ (message g.requestBytes ++ junk)

def stream : List (RequestFrame srv) → Tail srv → List UInt8
  | [], tail => tail.bytes
  | f :: rest, tail => f.bytes ++ stream rest tail

/- No length prefix from offset `o` on straddles the end of a block. -/
def Unbroken (o : Nat) : List (RequestFrame srv) → Tail srv → Prop
  | [], .nothing => True
  | [], .refused _ _ => Whole o
  | f :: rest, tail =>
    Whole o ∧ Whole (o + 4 + f.headerBytes.length) ∧ Unbroken (o + f.bytes.length) rest tail

/- `sent` collects what `send_add` has taken off the output buffer. -/
structure PipelineRun (M Req Resp : Type) where
  conn : Connection
  point : RecvPoint M
  received : List UInt8
  calls : List (Call M Req Resp)
  sent : List UInt8

inductive PipelineOp (Resp : Type) where
  | read (bs : List UInt8)
  | resume (memory : Nat → UInt8) (response : Resp)
  | sendAdd (n : Nat)

/-- `recv_fn` on an open connection: a read of any bytes that fit while it waits, its own steps
otherwise, and at any time the credit of bytes that were written to the socket. -/
def pipelineMachine (srv : RpcServer M Req Resp) :
    Machine (PipelineRun M Req Resp) (PipelineOp Resp) where
  start := ⟨Connection.init, .headerLen, [], [], []⟩
  step s
    | .read bs =>
      if RpcServer.waits s.conn s.point ∧ (bs.length : Int) ≤ s.conn.readBuf.getBuffer.size then
        some { s with
          conn := { s.conn with readBuf := s.conn.readBuf.receive bs }
          received := s.received ++ bs }
      else none
    | .resume memory response =>
      if RpcServer.waits s.conn s.point then none
      else
        (srv.recvStep memory response s.conn s.point).map fun (c, p, calls) =>
          { s with conn := c, point := p, calls := s.calls ++ calls }
    | .sendAdd n =>
      if n ≤ s.conn.writeBytes then
        (s.conn.writeBuf.sendAdd n).map fun b =>
          { s with
            conn := { s.conn with writeBuf := b }
            sent := s.sent ++ s.conn.writeBuf.pending.take n }
      else none

/- The response frame of a call: its header carries the id of the request. -/
def RpcServer.reply (srv : RpcServer M Req Resp) (call : Call M Req Resp) : List UInt8 :=
  message (srv.serializeHeader (respHeader call.header.requestId)) ++
    message (srv.serializeResponse call.response)

/- What of the stream is left when `recv_fn` is at a point, with the requests still to come and
the offset of the rest. -/
inductive Expects (tail : Tail srv) : RecvPoint M → List (RequestFrame srv) → Nat →
    List UInt8 → Prop
  | headerLen {rest : List (RequestFrame srv)} {o : Nat} {left : List UInt8}
      (unbroken : Unbroken o rest tail) (bytes : left = stream rest tail) :
      Expects tail .headerLen rest o left
  | header {f : RequestFrame srv} {rest : List (RequestFrame srv)} {o n : Nat} {left : List UInt8}
      (len : n = f.headerBytes.length) (whole : Whole (o + n))
      (unbroken : Unbroken (o + n + 4 + f.requestBytes.length) rest tail)
      (bytes : left = f.headerBytes ++ (message f.requestBytes ++ stream rest tail)) :
      Expects tail (.header n) (f :: rest) o left
  | refused {g : RefusedFrame srv} {o n : Nat} {left after : List UInt8} (some : tail ≠ .nothing)
      (len : n = g.headerBytes.length) (bytes : left = g.headerBytes ++ after) :
      Expects tail (.header n) [] o left
  | requestLen {f : RequestFrame srv} {rest : List (RequestFrame srv)} {o : Nat} {left : List UInt8}
      (whole : Whole o) (unbroken : Unbroken (o + 4 + f.requestBytes.length) rest tail)
      (bytes : left = message f.requestBytes ++ stream rest tail) :
      Expects tail (.requestLen f.header) (f :: rest) o left
  | unknown {h : Header} {o : Nat} {left : List UInt8} (some : tail ≠ .nothing)
      (missing : srv.lookup h = none) : Expects tail (.requestLen h) [] o left
  | request {f : RequestFrame srv} {rest : List (RequestFrame srv)} {o n : Nat} {left : List UInt8}
      (len : n = f.requestBytes.length) (unbroken : Unbroken (o + n) rest tail)
      (bytes : left = f.requestBytes ++ stream rest tail) :
      Expects tail (.request f.header f.method n) (f :: rest) o left
  | reply {rest : List (RequestFrame srv)} {o : Nat} {left : List UInt8}
      (unbroken : Unbroken o rest tail) (bytes : left = stream rest tail) :
      Expects tail .reply rest o left
  | done {o : Nat} {left : List UInt8} (some : tail ≠ .nothing) : Expects tail .done [] o left

/- Every step but a return to the head of the loop is bought with bytes or leads on. -/
def RecvPoint.rank : RecvPoint M → Nat
  | .done => 0
  | .headerLen | .requestLen _ => 1
  | .header _ | .reply => 2
  | .request _ _ _ => 3

def remaining (c : Connection) (p : RecvPoint M) : Nat := 4 * c.readBytes + p.rank

structure Ready (tail : Tail srv) (received : List UInt8) (c : Connection) (p : RecvPoint M)
    (rest : List (RequestFrame srv)) (left : List UInt8) : Prop where
  readInv : c.readBuf.Inv received
  writeInv : c.writeBuf.Inv
  running : p ≠ .done → c.readBuf.limit = INT32_MAX ∧ c.closed = false
  expects : Expects tail p rest c.readBuf.consumedBytes left

def RequestFrame.call (f : RequestFrame srv) (response : Resp) : Call M Req Resp :=
  ⟨f.header, f.method, f.request, response⟩

/- What a step leads to: `served` are the frames it has answered, one at most. -/
structure Advanced (tail : Tail srv) (received : List UInt8) (c : Connection) (p : RecvPoint M)
    (rest : List (RequestFrame srv)) (left : List UInt8) (response : Resp)
    (r : Connection × RecvPoint M × List (Call M Req Resp)) (served rest' : List (RequestFrame srv))
    (k : Nat) : Prop where
  ready : Ready tail received r.1 r.2.1 rest' (left.drop k)
  consumed : r.1.readBuf.consumedBytes = c.readBuf.consumedBytes + k
  frames : rest = served ++ rest'
  calls : r.2.2 = served.map fun f => f.call response
  pending : r.1.writeBuf.pending = c.writeBuf.pending ++ r.2.2.flatMap srv.reply
  decreases : remaining r.1 r.2.1 < remaining c p

section

variable {tail : Tail srv} {received left : List UInt8} {c : Connection}
  {rest : List (RequestFrame srv)}

theorem Advanced.reads {p p' : RecvPoint M} {b : InputBuffer} {k : Nat} {response : Resp}
    (ready : Ready tail received c p rest left) (inv : b.Inv received)
    (consumed : b.consumedBytes = c.readBuf.consumedBytes + k) (limit : b.limit = INT32_MAX)
    (opened : c.closed = false)
    (expects : Expects tail p' rest (c.readBuf.consumedBytes + k) (left.drop k))
    (smaller : p'.rank < p.rank + 4 * k) :
    Advanced tail received c p rest left response ({ c with readBuf := b }, p', []) [] rest k where
  ready := ⟨inv, ready.writeInv, fun _ => ⟨limit, opened⟩, consumed ▸ expects⟩
  consumed := consumed
  frames := rfl
  calls := rfl
  pending := by simp
  decreases := by
    have read := readBytes_of_consumed ready.readInv inv consumed
    simp only [remaining, Connection.readBytes, InputBuffer.bytes]
    omega

theorem Advanced.leaves {p : RecvPoint M} {b : InputBuffer} {k : Nat} {response : Resp}
    (ready : Ready tail received c p [] left) (inv : b.Inv received)
    (consumed : b.consumedBytes = c.readBuf.consumedBytes + k) (some : tail ≠ .nothing)
    (running : p ≠ .done) :
    Advanced tail received c p [] left response (RpcServer.leave { c with readBuf := b }) []
      [] k where
  ready := ⟨inv, ready.writeInv, fun h => absurd rfl h, .done some⟩
  consumed := consumed
  frames := rfl
  calls := rfl
  pending := by simp [RpcServer.leave, Connection.close]
  decreases := by
    have read := readBytes_of_consumed ready.readInv inv consumed
    have : 0 < p.rank := by cases p <;> first | exact absurd rfl running | simp [RecvPoint.rank]
    simp only [remaining, RpcServer.leave, Connection.close, Connection.readBytes,
      InputBuffer.bytes]
    have zero : (RecvPoint.done : RecvPoint M).rank = 0 := rfl
    omega

section

variable {c' : Connection} {memory : Nat → UInt8} {response : Resp} (opened : c.closed = false)
include opened

theorem recvStep_headerLen {n : Nat} (fetched : c.fetchUint32 memory = some (some n, c')) :
    srv.recvStep memory response c .headerLen = some (c', .header n, []) := by
  simp [RpcServer.recvStep, opened, fetched]

theorem recvStep_header {n : Nat} {bytes : List UInt8} {h : Header}
    (pulled : c.pull n = some (bytes, c')) (parses : srv.parseHeader bytes = some h) :
    srv.recvStep memory response c (.header n) = some (RpcServer.checkHeader c'.popLimit h) := by
  simp [RpcServer.recvStep, opened, pulled, parses]

theorem recvStep_requestLen {n : Nat} {h : Header}
    (fetched : c.fetchUint32 memory = some (some n, c')) :
    srv.recvStep memory response c (.requestLen h) = some (srv.findMethod c' h n) := by
  simp [RpcServer.recvStep, opened, fetched]

theorem recvStep_request {n : Nat} {bytes : List UInt8} {h : Header} {m : M} {r : Req}
    (pulled : c.pull n = some (bytes, c')) (parses : srv.parseRequest m bytes = some r) :
    srv.recvStep memory response c (.request h m n) =
      srv.sendResponse c'.popLimit memory ⟨h, m, r, response⟩ := by
  simp [RpcServer.recvStep, opened, pulled, parses]

end

theorem checkHeader_valid {h : Header} (magic : h.magic = MAGIC_NUM) (version : h.version = VERSION)
    (c : Connection) :
    RpcServer.checkHeader c h =
      ((c, .requestLen h, []) : _ × RecvPoint M × List (Call M Req Resp)) := by
  simp [RpcServer.checkHeader, magic, version]

theorem checkHeader_invalid {h : Header} (invalid : h.magic ≠ MAGIC_NUM ∨ h.version ≠ VERSION)
    (c : Connection) :
    (RpcServer.checkHeader c h : _ × RecvPoint M × List (Call M Req Resp)) = RpcServer.leave c := by
  unfold RpcServer.checkHeader
  rcases invalid with magic | version
  · rw [if_pos magic]
  · simp only [if_pos version, ite_self]

theorem findMethod_registered {h : Header} {m : M} (registered : srv.lookup h = some m)
    (c : Connection) (n : Nat) : srv.findMethod c h n = (c, .request h m n, []) := by
  obtain ⟨service, hs, hm⟩ := Option.bind_eq_some_iff.mp registered
  simp only [RpcServer.findMethod, hs, hm]

theorem findMethod_missing {h : Header} (missing : srv.lookup h = none) (c : Connection) (n : Nat) :
    srv.findMethod c h n = RpcServer.leave c := by
  unfold RpcServer.lookup at missing
  unfold RpcServer.findMethod
  cases hs : srv.name2service (h.serviceName.getD "") with
  | none => rfl
  | some service =>
    rw [hs, Option.bind_some] at missing
    simp only [missing]

theorem headerLen_advances (ready : Ready tail received c .headerLen rest left)
    (feeds : c.readBuf.unread <+: left) (enough : 4 ≤ c.readBytes) (memory : Nat → UInt8)
    (response : Resp) : ∃ r, srv.recvStep memory response c .headerLen = some r ∧
      Advanced tail received c .headerLen rest left response r [] rest 4 := by
  obtain ⟨limit, opened⟩ := ready.running (by simp)
  have max : INT32_MAX = 2147483647 := rfl
  cases ready.expects with
  | headerLen unbroken bytes =>
    cases rest with
    | nil =>
      cases tail with
      | nothing =>
        -- with nothing left to come, the four bytes cannot be there
        rw [bytes] at feeds
        have none := List.prefix_nil.mp feeds
        have len := ready.readInv.unread_length
        rw [none] at len
        simp only [Connection.readBytes, InputBuffer.bytes, ← len, List.length_nil] at enough
        omega
      | refused g junk =>
        have short := g.header_short
        rw [stream, Tail.bytes, message, List.append_assoc] at bytes
        obtain ⟨b, hf, hi, consumed, hl⟩ :=
          Connection.fetchUint32_spec ready.readInv (bytes ▸ feeds) enough
          unbroken (by omega) memory
        refine ⟨_, recvStep_headerLen opened hf,
          .reads ready hi consumed (hl.trans limit) opened ?_ (by simp [RecvPoint.rank])⟩
        exact .refused (by simp) rfl (by rw [bytes]; rfl)
    | cons f rest =>
      have short := f.header_short
      obtain ⟨whole, whole', unbroken⟩ := unbroken
      rw [stream, RequestFrame.bytes, message, List.append_assoc, List.append_assoc] at bytes
      obtain ⟨b, hf, hi, consumed, hl⟩ :=
        Connection.fetchUint32_spec ready.readInv (bytes ▸ feeds) enough
        whole (by omega) memory
      refine ⟨_, recvStep_headerLen opened hf,
        .reads ready hi consumed (hl.trans limit) opened ?_ (by simp [RecvPoint.rank])⟩
      refine .header rfl whole' ?_ (by rw [bytes]; rfl)
      rw [RequestFrame.bytes, List.length_append, length_message, length_message] at unbroken
      convert unbroken using 1
      omega

theorem header_advances {n : Nat} (ready : Ready tail received c (.header n) rest left)
    (feeds : c.readBuf.unread <+: left) (enough : n ≤ c.readBytes) (memory : Nat → UInt8)
    (response : Resp) : ∃ r, srv.recvStep memory response c (.header n) = some r ∧
      Advanced tail received c (.header n) rest left response r [] rest n := by
  obtain ⟨limit, opened⟩ := ready.running (by simp)
  cases ready.expects with
  | @header f rest _ _ _ len whole unbroken bytes =>
    subst len
    obtain ⟨b, hp, hi, consumed⟩ :=
      Connection.pull_spec ready.readInv (bytes ▸ feeds) enough f.header_short
    have hpop : b.popLimit.Inv received := hi.set_limit _ (by decide)
    refine ⟨_, recvStep_header opened hp f.header_parses, ?_⟩
    rw [checkHeader_valid f.magic f.version]
    refine .reads ready hpop consumed rfl opened ?_ (Nat.lt_add_right _ Nat.one_lt_two)
    exact .requestLen whole unbroken (by rw [bytes, List.drop_left])
  | @refused g _ _ _ after some len bytes =>
    subst len
    obtain ⟨b, hp, hi, consumed⟩ :=
      Connection.pull_spec ready.readInv (bytes ▸ feeds) enough g.header_short
    have hpop : b.popLimit.Inv received := hi.set_limit _ (by decide)
    refine ⟨_, recvStep_header opened hp g.header_parses, ?_⟩
    by_cases invalid : g.header.magic ≠ MAGIC_NUM ∨ g.header.version ≠ VERSION
    · rw [checkHeader_invalid invalid]
      exact .leaves ready hpop consumed some (by simp)
    · obtain ⟨magic, version⟩ := not_or.mp invalid
      have missing := (g.refused.resolve_left magic).resolve_left version
      rw [checkHeader_valid (not_ne_iff.mp magic) (not_ne_iff.mp version)]
      exact .reads ready hpop consumed rfl opened (.unknown some missing)
        (Nat.lt_add_right _ Nat.one_lt_two)

theorem requestLen_advances {h : Header} (ready : Ready tail received c (.requestLen h) rest left)
    (feeds : c.readBuf.unread <+: left) (enough : 4 ≤ c.readBytes) (memory : Nat → UInt8)
    (response : Resp) : ∃ r, srv.recvStep memory response c (.requestLen h) = some r ∧
      Advanced tail received c (.requestLen h) rest left response r [] rest 4 := by
  obtain ⟨limit, opened⟩ := ready.running (by simp)
  have max : INT32_MAX = 2147483647 := rfl
  cases ready.expects with
  | @requestLen f rest _ _ whole unbroken bytes =>
    have short := f.request_short
    rw [message, List.append_assoc] at bytes
    obtain ⟨b, hf, hi, consumed, hl⟩ :=
      Connection.fetchUint32_spec ready.readInv (bytes ▸ feeds) enough
      whole (by omega) memory
    refine ⟨_, recvStep_requestLen opened hf, ?_⟩
    rw [findMethod_registered f.registered]
    refine .reads ready hi consumed (hl.trans limit) opened ?_ (by simp [RecvPoint.rank])
    exact .request rfl unbroken (by rw [bytes]; rfl)
  | unknown some missing =>
    obtain ⟨n, b, hf, hi, consumed, _⟩ := Connection.fetchUint32_front ready.readInv enough memory
    refine ⟨_, recvStep_requestLen opened hf, ?_⟩
    rw [findMethod_missing missing]
    exact .leaves ready hi consumed some (by simp)

theorem sendResponse_spec (srv : RpcServer M Req Resp) {d : Connection} (inv : d.writeBuf.Inv)
    (junk : Nat → UInt8) (call : Call M Req Resp) :
    ∃ b, srv.sendResponse d junk call = some ({ d with writeBuf := b }, .reply, [call]) ∧ b.Inv ∧
      b.pending = d.writeBuf.pending ++ srv.reply call := by
  obtain ⟨b, hb, hi, hp⟩ := Connection.appendMessage_spec inv junk
    (srv.serializeHeader (RpcServer.respHeader call.header.requestId))
  obtain ⟨e, he, hei, hep⟩ := Connection.appendMessage_spec (c := { d with writeBuf := b }) hi junk
    (srv.serializeResponse call.response)
  refine ⟨e, by simp [RpcServer.sendResponse, hb, he], hei, ?_⟩
  rw [hep, hp, List.append_assoc]
  rfl

theorem request_advances {h : Header} {m : M} {n : Nat}
    (ready : Ready tail received c (.request h m n) rest left) (feeds : c.readBuf.unread <+: left)
    (enough : n ≤ c.readBytes) (memory : Nat → UInt8) (response : Resp) :
    ∃ r f rest', srv.recvStep memory response c (.request h m n) = some r ∧
      Advanced tail received c (.request h m n) rest left response r [f] rest' n := by
  obtain ⟨limit, opened⟩ := ready.running (by simp)
  cases ready.expects with
  | @request f rest _ _ _ len unbroken bytes =>
    subst len
    obtain ⟨b, hp, hi, consumed⟩ :=
      Connection.pull_spec ready.readInv (bytes ▸ feeds) enough f.request_short
    have hpop : b.popLimit.Inv received := hi.set_limit _ (by decide)
    obtain ⟨e, he, hei, hep⟩ := sendResponse_spec srv
      (d := { c with readBuf := b.popLimit }) ready.writeInv memory (f.call response)
    refine ⟨_, f, rest, (recvStep_request opened hp f.request_parses).trans he, ?_⟩
    have read := readBytes_of_consumed ready.readInv hpop consumed
    refine ⟨⟨hpop, hei, fun _ => ⟨rfl, opened⟩, ?_⟩, consumed, rfl, rfl, by simpa using hep, ?_⟩
    · exact .reply (consumed ▸ unbroken) (by rw [bytes, List.drop_left])
    · simp only [remaining, Connection.readBytes, InputBuffer.bytes, RecvPoint.rank]
      omega

theorem reply_advances (ready : Ready tail received c .reply rest left) (memory : Nat → UInt8)
    (response : Resp) : ∃ r, srv.recvStep memory response c .reply = some r ∧
      Advanced tail received c .reply rest left response r [] rest 0 := by
  obtain ⟨limit, opened⟩ := ready.running (by simp)
  cases ready.expects with
  | reply unbroken bytes =>
    exact ⟨_, rfl, .reads ready ready.readInv rfl limit opened
      (.headerLen unbroken bytes) Nat.one_lt_two⟩

/-- A step that does not wait goes through, and leads to where the stream says. -/
theorem recvStep_advances {p : RecvPoint M} (ready : Ready tail received c p rest left)
    (feeds : c.readBuf.unread <+: left) (go : RpcServer.waits c p = false) (running : p ≠ .done)
    (memory : Nat → UInt8) (response : Resp) :
    ∃ r served rest' k, srv.recvStep memory response c p = some r ∧
      Advanced tail received c p rest left response r served rest' k := by
  have opened := (ready.running running).2
  cases p with
  | headerLen =>
    obtain ⟨r, hr, adv⟩ :=
      headerLen_advances ready feeds (by simpa [RpcServer.waits, opened] using go)
      memory response
    exact ⟨r, [], rest, 4, hr, adv⟩
  | header n =>
    obtain ⟨r, hr, adv⟩ := header_advances ready feeds (by simpa [RpcServer.waits, opened] using go)
      memory response
    exact ⟨r, [], rest, n, hr, adv⟩
  | requestLen h =>
    obtain ⟨r, hr, adv⟩ :=
      requestLen_advances ready feeds (by simpa [RpcServer.waits, opened] using go)
      memory response
    exact ⟨r, [], rest, 4, hr, adv⟩
  | request h m n =>
    obtain ⟨r, f, rest', hr, adv⟩ :=
      request_advances ready feeds (by simpa [RpcServer.waits] using go)
      memory response
    exact ⟨r, [f], rest', n, hr, adv⟩
  | reply =>
    obtain ⟨r, hr, adv⟩ := reply_advances ready memory response
    exact ⟨r, [], rest, 0, hr, adv⟩
  | done => exact absurd rfl running

end

def Call.asked (call : Call M Req Resp) : Header × M × Req :=
    (call.header, call.method, call.request)

def RequestFrame.asked (f : RequestFrame srv) : Header × M × Req := (f.header, f.method, f.request)

/-- Of the frames, `handled` have been answered; `recv_fn` is ready for the `rest`. -/
structure PipelineRun.Handled (s : PipelineRun M Req Resp) (frames : List (RequestFrame srv))
    (tail : Tail srv) (handled rest : List (RequestFrame srv)) : Prop where
  cut : frames = handled ++ rest
  ready : Ready tail s.received s.conn s.point rest
    ((stream frames tail).drop s.conn.readBuf.consumedBytes)
  calls : s.calls.map Call.asked = handled.map RequestFrame.asked
  output : s.sent ++ s.conn.writeBuf.pending = s.calls.flatMap srv.reply

section

variable {frames : List (RequestFrame srv)} {tail : Tail srv} {s : PipelineRun M Req Resp}
  {handled rest : List (RequestFrame srv)}

theorem PipelineRun.Handled.feeds (h : s.Handled frames tail handled rest)
    (within : s.received <+: stream frames tail) :
    s.conn.readBuf.unread <+: (stream frames tail).drop s.conn.readBuf.consumedBytes := by
  rw [h.ready.readInv.unread_eq]
  exact within.drop _

theorem read_handled (h : s.Handled frames tail handled rest) {bs : List UInt8}
    (room : (bs.length : Int) ≤ s.conn.readBuf.getBuffer.size) :
    PipelineRun.Handled { s with
      conn := { s.conn with readBuf := s.conn.readBuf.receive bs }, received := s.received ++ bs }
      frames tail handled rest := by
  obtain ⟨inv, consumed, limit⟩ := h.ready.readInv.receive bs room
  refine ⟨h.cut, ⟨inv, h.ready.writeInv, ?_, ?_⟩, h.calls, h.output⟩
  · exact fun running => ⟨limit.trans (h.ready.running running).1, (h.ready.running running).2⟩
  · simp only [consumed]
    exact h.ready.expects

theorem sendAdd_handled (h : s.Handled frames tail handled rest) {n : Nat} {b : OutputBuffer}
    (le : n ≤ s.conn.writeBytes) (sent : s.conn.writeBuf.sendAdd n = some b) :
    PipelineRun.Handled { s with
      conn := { s.conn with writeBuf := b }, sent := s.sent ++ s.conn.writeBuf.pending.take n }
      frames tail handled rest := by
  obtain ⟨d, hd, inv, pending⟩ :=
    OutputBuffer.sendAdd_spec h.ready.writeInv (n := n) (by exact_mod_cast le)
  cases Option.some.inj (hd.symm.trans sent)
  refine ⟨h.cut, ⟨h.ready.readInv, inv, h.ready.running, h.ready.expects⟩, h.calls, ?_⟩
  simp only [pending, Int.toNat_natCast]
  rw [List.append_assoc, List.take_append_drop]
  exact h.output

theorem resume_handled (h : s.Handled frames tail handled rest)
    (within : s.received <+: stream frames tail) (go : RpcServer.waits s.conn s.point = false)
    (running : s.point ≠ .done) (memory : Nat → UInt8) (response : Resp) :
    ∃ t served rest', (pipelineMachine srv).step s (.resume memory response) = some t ∧
      t.received = s.received ∧ t.Handled frames tail (handled ++ served) rest' ∧
      remaining t.conn t.point < remaining s.conn s.point := by
  obtain ⟨⟨c, p, calls⟩, served, rest', k, hr, adv⟩ :=
    recvStep_advances h.ready (h.feeds within) go running memory response
  have consumed := adv.consumed
  have ready := adv.ready
  rw [List.drop_drop, ← consumed] at ready
  refine ⟨{ s with conn := c, point := p, calls := s.calls ++ calls }, served, rest', ?_, rfl, ?_,
    adv.decreases⟩
  · simp [pipelineMachine, go, hr]
  · refine ⟨?_, ready, ?_, ?_⟩
    · rw [h.cut, adv.frames, List.append_assoc]
    · have asked : calls.map Call.asked = served.map RequestFrame.asked := by
        have made : calls = served.map fun f => f.call response := adv.calls
        rw [made, List.map_map]
        rfl
      rw [List.map_append, List.map_append, h.calls, asked]
    · have pending := adv.pending
      simp only at pending ⊢
      rw [pending, ← List.append_assoc, h.output, List.flatMap_append]

theorem pipeline_step (s : PipelineRun M Req Resp) (op : PipelineOp Resp)
    (t : PipelineRun M Req Resp)
    (h : s.received <+: stream frames tail → ∃ handled rest, s.Handled frames tail handled rest)
    (hs : (pipelineMachine srv).step s op = some t) (within : t.received <+: stream frames tail) :
    ∃ handled rest, t.Handled frames tail handled rest := by
  cases op with
  | read bs =>
    simp only [pipelineMachine, Option.ite_none_right_eq_some, Option.some.injEq] at hs
    obtain ⟨⟨_, room⟩, rfl⟩ := hs
    obtain ⟨handled, rest, hh⟩ := h ((List.prefix_append _ _).trans within)
    exact ⟨handled, rest, read_handled hh room⟩
  | resume memory response =>
    have go : RpcServer.waits s.conn s.point = false := by
      cases hw : RpcServer.waits s.conn s.point with
      | false => rfl
      | true => simp [pipelineMachine, hw] at hs
    have running : s.point ≠ .done := by
      intro hp
      simp [pipelineMachine, hp, RpcServer.waits, RpcServer.recvStep] at hs
    have received : t.received = s.received := by
      simp only [pipelineMachine, go] at hs
      obtain ⟨r, _, rfl⟩ := Option.map_eq_some_iff.mp hs
      rfl
    obtain ⟨handled, rest, hh⟩ := h (received ▸ within)
    obtain ⟨u, served, rest', hu, _, handled', _⟩ :=
      resume_handled hh (received ▸ within) go running memory response
    cases Option.some.inj (hu.symm.trans hs)
    exact ⟨handled ++ served, rest', handled'⟩
  | sendAdd n =>
    simp only [pipelineMachine, Option.ite_none_right_eq_some] at hs
    obtain ⟨le, hs⟩ := hs
    obtain ⟨b, hb, rfl⟩ := Option.map_eq_some_iff.mp hs
    obtain ⟨handled, rest, hh⟩ := h within
    exact ⟨handled, rest, sendAdd_handled hh le hb⟩

theorem pipeline_start (unbroken : Unbroken 0 frames tail) :
    PipelineRun.Handled (pipelineMachine srv).start frames tail [] frames where
  cut := rfl
  ready :=
    ⟨InputBuffer.init_inv, OutputBuffer.init_inv, fun _ => ⟨rfl, rfl⟩, .headerLen unbroken rfl⟩
  calls := rfl
  output := rfl

theorem pipeline_reach (unbroken : Unbroken 0 frames tail) (h : (pipelineMachine srv).Reach s)
    (within : s.received <+: stream frames tail) :
    ∃ handled rest, s.Handled frames tail handled rest :=
  h.invariant (fun _ => ⟨[], frames, pipeline_start unbroken⟩) pipeline_step within

theorem PipelineRun.Handled.complete (h : s.Handled frames tail handled rest)
    (all : s.received = stream frames tail)
    (settled : RpcServer.waits s.conn s.point = true ∨ s.point = .done) : rest = [] := by
  have available : s.conn.readBytes =
      ((stream frames tail).drop s.conn.readBuf.consumedBytes).length := by
    rw [← all, ← h.ready.readInv.unread_eq, h.ready.readInv.unread_length]
    rfl
  have expects := h.ready.expects
  generalize (stream frames tail).drop s.conn.readBuf.consumedBytes = left at available expects
  generalize hp : s.point = p at settled expects
  cases expects with
  | headerLen _ bytes =>
    cases rest with
    | nil => rfl
    | cons f rest =>
      simp [RpcServer.waits, available, bytes, stream, RequestFrame.bytes,
        length_message] at settled
      omega
  | reply => simp [RpcServer.waits] at settled
  | header len _ _ bytes =>
    simp only [RpcServer.waits, available, bytes, len, List.length_append, Bool.and_eq_true,
      decide_eq_true_eq, reduceCtorEq, or_false] at settled
    omega
  | requestLen _ _ bytes =>
    simp [RpcServer.waits, available, bytes, length_message] at settled
    omega
  | request len _ bytes =>
    simp only [RpcServer.waits, available, bytes, len, List.length_append, decide_eq_true_eq,
      reduceCtorEq, or_false] at settled
    omega
  | refused | unknown | done => rfl

def resumes (choice : Nat → (Nat → UInt8) × Resp) (n : Nat) : List (PipelineOp Resp) :=
  (List.range n).map fun i => .resume (choice i).1 (choice i).2

end

end

/- One request with id 7, then a frame with the wrong magic number. -/
def echoFrame : RequestFrame echoServer where
  headerBytes := [1, 7]
  requestBytes := [9]
  header := ⟨MAGIC_NUM, VERSION, .request, 7, none, none⟩
  method := ()
  request := [9]
  header_parses := rfl
  magic := rfl
  version := rfl
  registered := rfl
  request_parses := rfl
  header_short := by decide
  request_short := by decide

end Xuanqiong
