import Xuanqiong.Net.ConnBlocks
import Xuanqiong.Net.PollFlush
import Xuanqiong.Server.LeftBytes

/-! A connection of the server on a `UringExecutor`. `async_read` and `async_write` only submit, the
loop of the executor takes the completions one at a time, and each of them resumes the coroutine
that it belongs to through the pointer in its user data. What is submitted points into the buffers
of the connection, and nothing but the two coroutines keeps the connection. -/
namespace Xuanqiong

/- While `recv_fn` runs, the thread does nothing else. -/
inductive RingRecv (M : Type) where
  | created
  | running (point : RecvPoint M)
  | suspended (point : RecvPoint M)
  | finished

/-- The output with `send_fn` is that of a connection on the ring; `reads` are the buffers of the
READs that have not completed. -/
structure RingRun (M Req Resp : Type) where
  input : InputBuffer
  write : UringRun
  calls : List (Call M Req Resp)
  reads : List Region
  recv : RingRecv M

inductive RingRead where
  | data (bs : List UInt8)
  | eof
  | failed (res : Int)

inductive RingOp (Resp : Type) where
  | start
  | asyncRead
  | step (memory : Nat → UInt8) (response : Resp)
  | reply
  | completeRead (buffer : Region) (result : RingRead)
  | completeWrite (iovs : List Region) (res : Int)

namespace RingRun

variable {M Req Resp : Type}

def conn (s : RingRun M Req Resp) : Connection := ⟨s.input, s.write.out.buf, s.write.closed⟩

def idle (s : RingRun M Req Resp) : Bool :=
  match s.recv with
  | .running _ => false
  | .created | .suspended _ | .finished => true

/- Both coroutines have ended, and the connection is deleted, unless the loop still has the task
that started `recv_fn`: then at the end of this turn of the loop. -/
def released (s : RingRun M Req Resp) : Bool :=
  s.write.send = .done && (match s.recv with | .finished => true | _ => false)

/- `async_read`, and `ReadAwaiter::await_suspend`. -/
def asyncRead (s : RingRun M Req Resp) (p : RecvPoint M) : RingRun M Req Resp :=
  { s with
    reads := s.reads ++ [s.input.getBuffer]
    recv := if s.write.closed then .running p else .suspended p }

def goes (s : RingRun M Req Resp) (r : Connection × RecvPoint M × List (Call M Req Resp)) :
    RingRun M Req Resp :=
  { s with
    input := r.1.readBuf
    write := { s.write with
      out := ⟨r.1.writeBuf, 0⟩
      closed := r.1.closed
      appended := s.write.appended ++ r.1.writeBuf.pending.drop s.write.out.buf.pending.length }
    calls := s.calls ++ r.2.2
    recv := if RpcServer.finished r.2.1 then .finished else .running r.2.1 }

/- What the loop of the executor does for a READ before its `resume_read`. An end of the stream
closes the connection and resumes `send_fn`, unless a write will. -/
def takeRead (s : RingRun M Req Resp) (buffer : Region) : RingRead → Option (RingRun M Req Resp)
  | .data bs =>
    if bs ≠ [] ∧ (bs.length : Int) ≤ buffer.size then
      (s.input.poke buffer bs).map fun b => { s with input := b.recvAdd bs.length }
    else none
  | .eof => s.write.readEof.map fun w => { s with write := w }
  | .failed res => if res < 0 then some { s with input := s.input.recvAdd res } else none

def resumeRead (s : RingRun M Req Resp) : Option (RingRun M Req Resp) :=
  match s.recv with
  | .suspended p => some { s with recv := .running p }
  | .created | .running _ | .finished => none

end RingRun

/-- `send_fn` has been started and waits for output. -/
def ringMachine {M Req Resp : Type} (srv : RpcServer M Req Resp) :
    Machine (RingRun M Req Resp) (RingOp Resp) where
  start := ⟨InputBuffer.init, uringMachine.start, [], [], .created⟩
  step s
    | .start =>
      match s.recv with
      | .created => some { s with recv := .running .headerLen }
      | _ => none
    | .asyncRead =>
      match s.recv with
      | .running p => if RpcServer.waits s.conn p then some (s.asyncRead p) else none
      | _ => none
    | .step memory response =>
      match s.recv with
      | .running .reply => none
      | .running p =>
        if RpcServer.waits s.conn p then none
        else (srv.recvStep memory response s.conn p).map s.goes
      | _ => none
    | .reply =>
      match s.recv with
      | .running .reply =>
        s.write.resumeWrite.map fun w => { s with write := w, recv := .running .headerLen }
      | _ => none
    | .completeRead buffer result =>
      if s.idle && s.reads.contains buffer then
        ({ s with reads := s.reads.erase buffer }.takeRead buffer result).bind RingRun.resumeRead
      else none
    | .completeWrite iovs res =>
      if s.idle && s.write.inflight.contains iovs then (s.write.complete iovs res).map fun w =>
        { s with write := w }
      else none

section

variable {M Req Resp : Type} {srv : RpcServer M Req Resp} {s t : RingRun M Req Resp}
  {op : RingOp Resp}

/-- The steps, each with what it needs and what it leaves. -/
inductive RingMove (srv : RpcServer M Req Resp) (s : RingRun M Req Resp) :
    RingOp Resp → RingRun M Req Resp → Prop where
  | start (recv : s.recv = .created) : RingMove srv s .start { s with recv := .running .headerLen }
  | asyncRead {p} (recv : s.recv = .running p) (waits : RpcServer.waits s.conn p = true) :
      RingMove srv s .asyncRead (s.asyncRead p)
  | step {memory response p r} (recv : s.recv = .running p) (quiet : p ≠ .reply)
      (waits : RpcServer.waits s.conn p = false)
        (run : srv.recvStep memory response s.conn p = some r) :
      RingMove srv s (.step memory response) (s.goes r)
  | reply {w} (recv : s.recv = .running .reply) (run : s.write.resumeWrite = some w) :
      RingMove srv s .reply { s with write := w, recv := .running .headerLen }
  | data {buffer bs p b} (recv : s.recv = .suspended p) (sent : buffer ∈ s.reads)
      (nonempty : bs ≠ [])
      (fits : (bs.length : Int) ≤ buffer.size) (run : s.input.poke buffer bs = some b) :
      RingMove srv s (.completeRead buffer (.data bs))
        { s with input := b.recvAdd bs.length, reads := s.reads.erase buffer, recv := .running p }
  | eof {buffer p w} (recv : s.recv = .suspended p) (sent : buffer ∈ s.reads)
      (run : s.write.readEof = some w) :
      RingMove srv s (.completeRead buffer .eof)
        { s with write := w, reads := s.reads.erase buffer, recv := .running p }
  | failed {buffer p res} (recv : s.recv = .suspended p) (sent : buffer ∈ s.reads)
      (negative : res < 0) :
      RingMove srv s (.completeRead buffer (.failed res))
        { s with input := s.input.recvAdd res, reads := s.reads.erase buffer, recv := .running p }
  | completeWrite {iovs res w} (idle : s.idle = true) (sent : iovs ∈ s.write.inflight)
      (run : s.write.complete iovs res = some w) :
      RingMove srv s (.completeWrite iovs res) { s with write := w }

theorem resumeRead_cases (hs : s.resumeRead = some t) :
    ∃ p, s.recv = .suspended p ∧ t = { s with recv := .running p } := by
  unfold RingRun.resumeRead at hs
  split at hs
  · rename_i p recv
    exact ⟨p, recv, (Option.some.inj hs).symm⟩
  · cases hs
  · cases hs
  · cases hs

theorem ring_move (hs : (ringMachine srv).step s op = some t) : RingMove srv s op t := by
  cases op with
  | start =>
    simp only [ringMachine] at hs
    split at hs
    · rename_i recv
      cases hs
      exact .start recv
    · cases hs
  | asyncRead =>
    simp only [ringMachine] at hs
    split at hs
    · rename_i p recv
      simp only [Option.ite_none_right_eq_some, Option.some.injEq] at hs
      obtain ⟨waits, rfl⟩ := hs
      exact .asyncRead recv waits
    · cases hs
  | step memory response =>
    simp only [ringMachine] at hs
    split at hs
    · cases hs
    · rename_i p quiet recv
      simp only [Option.ite_none_left_eq_some] at hs
      obtain ⟨waits, hs⟩ := hs
      obtain ⟨r, run, rfl⟩ := Option.map_eq_some_iff.mp hs
      exact .step recv quiet (Bool.eq_false_iff.mpr waits) run
    · cases hs
  | reply =>
    simp only [ringMachine] at hs
    split at hs
    · rename_i recv
      obtain ⟨w, run, rfl⟩ := Option.map_eq_some_iff.mp hs
      exact .reply recv run
    · cases hs
  | completeRead buffer result =>
    simp only [ringMachine, Option.ite_none_right_eq_some, Bool.and_eq_true,
      List.contains_iff_mem] at hs
    obtain ⟨⟨_, sent⟩, hs⟩ := hs
    obtain ⟨u, take, hs⟩ := Option.bind_eq_some_iff.mp hs
    obtain ⟨p, recv, rfl⟩ := resumeRead_cases hs
    cases result with
    | data bs =>
      simp only [RingRun.takeRead, Option.ite_none_right_eq_some] at take
      obtain ⟨⟨nonempty, fits⟩, take⟩ := take
      obtain ⟨b, run, rfl⟩ := Option.map_eq_some_iff.mp take
      exact .data recv sent nonempty fits run
    | eof =>
      obtain ⟨w, run, rfl⟩ := Option.map_eq_some_iff.mp take
      exact .eof recv sent run
    | failed res =>
      simp only [RingRun.takeRead, Option.ite_none_right_eq_some, Option.some.injEq] at take
      obtain ⟨negative, rfl⟩ := take
      exact .failed recv sent negative
  | completeWrite iovs res =>
    simp only [ringMachine, Option.ite_none_right_eq_some, Bool.and_eq_true,
      List.contains_iff_mem] at hs
    obtain ⟨⟨idle, sent⟩, hs⟩ := hs
    obtain ⟨w, run, rfl⟩ := Option.map_eq_some_iff.mp hs
    exact .completeWrite idle sent run

theorem RpcServer.recvStep_blocks {memory : Nat → UInt8} {response : Resp} {c d : Connection}
    {p q : RecvPoint M} {calls : List (Call M Req Resp)}
    (hs : srv.recvStep memory response c p = some (d, q, calls)) :
    c.readBuf.SameMarks d.readBuf ∧ (c.writeBuf.Inv → c.Adds d) := by
  cases recvStep_turn hs with
  | leave took =>
    have same := took.marks
    exact ⟨same, fun inv => .nothing inv took.writeBuf⟩
  | goOn took => exact ⟨took.marks, fun inv => .nothing inv took.writeBuf⟩
  | @answer _ _ _ b _ _ call _ point took run =>
    obtain ⟨w, first, run⟩ := Option.bind_eq_some_iff.mp run
    obtain ⟨v, second, hd⟩ := Option.map_eq_some_iff.mp run
    cases hd
    refine ⟨took.marks.trans ?_, fun inv => ?_⟩
    · rw [Connection.appendMessage_readBuf second, Connection.appendMessage_readBuf first]
      exact ⟨rfl, rfl⟩
    · have before : c.Adds b := .nothing inv took.writeBuf
      have header := before.trans (Connection.appendMessage_adds before.inv first)
      exact header.trans (Connection.appendMessage_adds header.inv second)

theorem UringRun.Inv.wrote {w : UringRun} (h : w.Inv) (settled : w.out.region = 0)
    {b : OutputBuffer} (inv : b.Inv) (grows : w.out.buf.Grows b) (closed : Bool) :
    UringRun.Inv { w with
      out := ⟨b, 0⟩
      closed := closed
      appended := w.appended ++ b.pending.drop w.out.buf.pending.length } := by
  refine ⟨.settled inv rfl, Int.le_refl 0, ?_, ?_⟩
  · obtain ⟨more, added⟩ := grows.pending h.refines.inv.toShape
    simp only [← added, List.drop_left, ← h.conserved, List.append_assoc]
  · rcases h.flight with none | ⟨first, flight, inv', grown, left⟩
    · exact Or.inl none
    · refine Or.inr ⟨first, flight, inv', ?_, left⟩
      rw [settled, OutputBuffer.retract_zero] at grown
      simp only [OutputBuffer.retract_zero]
      exact grown.trans grows

/-- Where `recv_fn` is, with the READs in flight. On a closed connection that it found so it has
only to leave, unless it waits for the rest of a request. -/
def RingRun.Recvs (s : RingRun M Req Resp) : Prop :=
  match s.recv with
  | .created => s.write.closed = false ∧ s.reads = []
  | .running p =>
    s.write.closed = false ∧ s.reads = [] ∨
      s.write.closed = true ∧ RpcServer.waits s.conn.reopen p = true ∧
        (s.reads = [] ∨ RpcServer.waits s.conn p = true)
  | .suspended p =>
    s.write.closed = false ∧ s.reads = [s.input.getBuffer] ∧ RpcServer.waits s.conn p = true
  | .finished => s.write.closed = true ∧ s.reads = []

/- Only between a response and the `resume_write` after it is there output that `send_fn`
has not seen. -/
def RingRecv.Announced : RingRecv M → Prop
  | .running .reply => False
  | _ => True

structure RingRun.Inv (s : RingRun M Req Resp) : Prop where
  write : s.write.Inv
  settled : s.write.out.region = 0
  laid : ∃ n, s.input.Laid n
  sends : s.write.Waits s.recv.Announced
  recvs : s.Recvs

theorem ring_start (srv : RpcServer M Req Resp) : (ringMachine srv).start.Inv where
  write := uring_start
  settled := rfl
  laid := ⟨0, .init⟩
  sends := ⟨rfl, fun _ => rfl⟩
  recvs := ⟨rfl, rfl⟩

theorem UringRun.Waits.mono {w : UringRun} {P Q : Prop} (h : w.Waits P) (weaker : Q → P) :
    w.Waits Q := by
  unfold UringRun.Waits at h ⊢
  split at h
  · exact ⟨h.1, fun announced => h.2 (weaker announced)⟩
  · exact h
  · exact h

theorem UringRun.Waits.wrote {w v : UringRun} {P Q : Prop} (h : w.Waits P) (send : v.send = w.send)
    (left : v.backLeft = w.backLeft) (flight : v.inflight = w.inflight)
    (closed : w.closed = true → v.closed = true) (more : w.writeBytes ≤ v.writeBytes)
    (quiet : Q → P ∧ v.writeBytes = w.writeBytes) : v.Waits Q := by
  unfold UringRun.Waits at h ⊢
  rw [send, left, flight]
  split at h
  · exact ⟨h.1, fun announced => (quiet announced).2.trans (h.2 (quiet announced).1)⟩
  · exact ⟨h.1, Nat.lt_of_lt_of_le h.2 more⟩
  · exact ⟨closed h.1, h.2⟩

theorem RingRun.Inv.not_done (h : s.Inv) (opened : s.write.closed = false) :
    s.write.send ≠ .done := by
  intro done
  have sends := h.sends
  rw [UringRun.Waits, done] at sends
  cases sends.1.symm.trans opened

theorem RingRun.Inv.resumable (h : s.Inv) (opened : s.write.closed = false) :
    s.write.Resumable := by
  refine ⟨h.write.no_flight, fun left => ?_, fun closed => by cases opened.symm.trans closed⟩
  have sends := h.sends
  unfold UringRun.Waits at sends
  cases send : s.write.send with
  | waitWrite =>
    rw [send] at sends
    exact absurd sends.1 (Nat.ne_of_gt left)
  | write =>
    rw [send] at sends
    exact sends.2
  | done => exact absurd send (h.not_done opened)

theorem recvAdd_failed {b : InputBuffer} {res : Int} (negative : res < 0) : b.recvAdd res = b :=
  if_neg (Int.not_lt.mpr (Int.le_of_lt negative))

theorem RpcServer.waits_same {c d : Connection} {p : RecvPoint M} (readBuf : d.readBuf = c.readBuf)
    (closed : d.closed = c.closed) : RpcServer.waits d p = RpcServer.waits c p := by
  obtain ⟨r, w, z⟩ := d
  cases readBuf
  cases closed
  cases p <;> rfl

theorem announced_of_waits {c : Connection} {p : RecvPoint M} (waits : RpcServer.waits c p = true) :
    (RingRecv.running p).Announced := by
  cases p with
  | reply => cases waits
  | _ => trivial

theorem announced_of_quiet {p : RecvPoint M} (quiet : p ≠ .reply) :
    (RingRecv.running p).Announced := by
  cases p with
  | reply => exact absurd rfl quiet
  | _ => trivial

theorem announced_of_idle (idle : s.idle = true) : s.recv.Announced := by
  cases recv : s.recv with
  | running p => simp [RingRun.idle, recv] at idle
  | created | suspended | finished => trivial

theorem RingRun.Inv.of_suspended (h : s.Inv) {p : RecvPoint M} (recv : s.recv = .suspended p) :
    s.write.closed = false ∧ s.reads = [s.input.getBuffer] ∧ RpcServer.waits s.conn p = true := by
  have recvs := h.recvs
  rw [RingRun.Recvs, recv] at recvs
  exact recvs

theorem RingRun.Inv.of_running (h : s.Inv) {p : RecvPoint M} (recv : s.recv = .running p) :
    s.write.closed = false ∧ s.reads = [] ∨ s.write.closed = true ∧
    RpcServer.waits s.conn.reopen p = true ∧
      (s.reads = [] ∨ RpcServer.waits s.conn p = true) := by
  have recvs := h.recvs
  rw [RingRun.Recvs, recv] at recvs
  exact recvs

theorem RingRun.Inv.asyncRead (h : s.Inv) {p : RecvPoint M} (recv : s.recv = .running p)
    (waits : RpcServer.waits s.conn p = true) : (s.asyncRead p).Inv := by
  have before : s.recv.Announced := recv ▸ announced_of_waits waits
  refine ⟨h.write, h.settled, h.laid, h.sends.mono fun _ => before, ?_⟩
  rcases h.of_running recv with ⟨opened, none⟩ | ⟨closed, short, _⟩
  · simp only [RingRun.Recvs, RingRun.asyncRead, opened, none, Bool.false_eq_true, if_false]
    exact ⟨trivial, rfl, waits⟩
  · simp only [RingRun.Recvs, RingRun.asyncRead, closed, if_true]
    exact Or.inr ⟨trivial, short, Or.inr waits⟩

theorem RingRun.Inv.goes (h : s.Inv) {p : RecvPoint M} {memory : Nat → UInt8} {response : Resp}
    {r : Connection × RecvPoint M × List (Call M Req Resp)} (recv : s.recv = .running p)
    (quiet : p ≠ .reply) (waits : RpcServer.waits s.conn p = false)
    (run : srv.recvStep memory response s.conn p = some r) :
    (s.goes r).Inv := by
  obtain ⟨d, q, calls⟩ := r
  obtain ⟨marks, adds⟩ := RpcServer.recvStep_blocks run
  have adds := adds h.write.refines.inv
  obtain ⟨n, laid⟩ := h.laid
  have closes : d.closed = (s.write.closed || RpcServer.finished q) := RpcServer.recvStep_closed run
  refine ⟨h.write.wrote h.settled adds.inv adds.grows d.closed, rfl, ⟨n, marks.laid laid⟩, ?_, ?_⟩
  · have announced : s.recv.Announced := recv ▸ announced_of_quiet quiet
    refine h.sends.wrote rfl rfl rfl (fun closed => ?_) ?_ (fun said => ⟨announced, ?_⟩)
    · rw [closed, Bool.true_or] at closes
      exact closes
    · have longer := (adds.grows.pending h.write.refines.inv.toShape).length_le
      have counted : s.write.writeBytes = s.write.out.buf.pending.length :=
        h.write.refines.inv.counted
      have counted' : d.writeBuf.bytes = d.writeBuf.pending.length := adds.inv.counted
      exact counted.le.trans (longer.trans counted'.ge)
    · rcases RpcServer.recvStep_output run with same | ⟨rfl, _⟩
      · exact congrArg OutputBuffer.bytes same
      · exact absurd said id
  · rcases h.of_running recv with ⟨opened, none⟩ | ⟨closed, short, none | waiting⟩
    · rw [opened, Bool.false_or] at closes
      cases ends : RpcServer.finished q with
      | true =>
        simp only [RingRun.Recvs, RingRun.goes, ends, if_true]
        exact ⟨closes.trans ends, none⟩
      | false =>
        simp only [RingRun.Recvs, RingRun.goes, ends, Bool.false_eq_true, if_false]
        exact Or.inl ⟨closes.trans ends, none⟩
    · cases (recvStep_cut_short closed short).symm.trans run
      exact ⟨rfl, none⟩
    · cases waits.symm.trans waiting

theorem ring_step (h : s.Inv) (move : RingMove srv s op t) : t.Inv := by
  cases move with
  | start recv =>
    have recvs := h.recvs
    rw [RingRun.Recvs, recv] at recvs
    refine ⟨h.write, h.settled, h.laid, h.sends.mono fun _ => ?_, Or.inl recvs⟩
    rw [recv]
    trivial
  | asyncRead recv waits => exact h.asyncRead recv waits
  | step recv quiet waits run => exact h.goes recv quiet waits run
  | reply recv run =>
    rcases h.of_running recv with ⟨opened, none⟩ | ⟨_, waits, _⟩
    · obtain ⟨out, closed, _⟩ := UringRun.resumeWrite_same run
      refine ⟨h.write.resumeWrite_keeps h.settled run, by rw [out]; exact h.settled, h.laid,
        ((h.resumable opened).waits run).mono fun _ => trivial, Or.inl ⟨closed.trans opened, none⟩⟩
    · cases waits
  | data recv sent nonempty fits run =>
    obtain ⟨opened, alone, waits⟩ := h.of_suspended recv
    obtain ⟨n, laid⟩ := h.laid
    rw [alone] at sent
    cases List.mem_singleton.mp sent
    cases (laid.poke _).symm.trans run
    refine ⟨h.write, h.settled, ⟨_, laid.receive fits⟩, h.sends.mono fun _ => ?_,
      Or.inl ⟨opened, ?_⟩⟩
    · rw [recv]
      trivial
    · rw [alone]
      exact List.erase_cons_head _ _
  | eof recv sent run =>
    obtain ⟨opened, alone, waits⟩ := h.of_suspended recv
    rw [alone] at sent
    cases List.mem_singleton.mp sent
    obtain ⟨sends, closed, out, _⟩ :=
      h.write.readEof_waits (h.sends.mono fun _ => by rw [recv]; trivial) run
    refine ⟨h.write.readEof h.settled run, by rw [out]; exact h.settled, h.laid,
      sends.mono fun _ => trivial, Or.inr ⟨closed, ?_, Or.inl ?_⟩⟩
    · refine Eq.trans (RpcServer.waits_same (c := s.conn) ?_ ?_) waits
      · rfl
      · exact opened.symm
    · rw [alone]
      exact List.erase_cons_head _ _
  | failed recv sent negative =>
    obtain ⟨opened, alone, waits⟩ := h.of_suspended recv
    rw [alone] at sent
    cases List.mem_singleton.mp sent
    obtain ⟨n, laid⟩ := h.laid
    refine ⟨h.write, h.settled, ⟨n, ?_⟩, h.sends.mono fun _ => by rw [recv]; trivial,
      Or.inl ⟨opened, ?_⟩⟩
    · rw [recvAdd_failed negative]
      exact laid
    · rw [alone]
      exact List.erase_cons_head _ _
  | completeWrite idle sent run =>
    have announced := announced_of_idle idle
    obtain ⟨sends, closed, settled, _⟩ :=
      h.write.complete_credits (h.sends.mono fun _ => announced) sent run
    refine ⟨h.write.complete sent run, settled, h.laid, sends.mono fun _ => trivial, ?_⟩
    have recvs := h.recvs
    unfold RingRun.Recvs at recvs ⊢
    cases recv : s.recv with
    | created | finished =>
      rw [recv] at recvs
      exact ⟨closed.trans recvs.1, recvs.2⟩
    | running p => simp [RingRun.idle, recv] at idle
    | suspended p =>
      rw [recv] at recvs
      refine ⟨closed.trans recvs.1, recvs.2.1,
        Eq.trans (RpcServer.waits_same (c := s.conn) ?_ ?_) recvs.2.2⟩
      · rfl
      · exact closed

theorem ring_reach (h : (ringMachine srv).Reach s) : s.Inv :=
  h.invariant (ring_start srv) fun _ _ _ inv hs => ring_step inv (ring_move hs)

theorem released_iff : s.released = true ↔ s.write.send = .done ∧ s.recv = .finished := by
  unfold RingRun.released
  cases s.recv <;> simp

/- What the kernel may report for a READ into `buffer`. -/
def RingRead.Reports (buffer : Region) : RingRead → Prop
  | .data bs => bs ≠ [] ∧ (bs.length : Int) ≤ buffer.size
  | .eof => True
  | .failed res => res < 0

theorem RingRun.Inv.read_due (h : s.Inv) {p : RecvPoint M} (recv : s.recv = .suspended p) :
    (s.idle && s.reads.contains s.input.getBuffer) = true := by
  rw [(h.of_suspended recv).2.1, RingRun.idle, recv]
  simp

theorem RingRun.Inv.completes_read (h : s.Inv) {p : RecvPoint M} (recv : s.recv = .suspended p)
    {result : RingRead} (reports : result.Reports s.input.getBuffer) :
    ∃ t, (ringMachine srv).step s (.completeRead s.input.getBuffer result) = some t := by
  obtain ⟨opened, alone, _⟩ := h.of_suspended recv
  obtain ⟨n, laid⟩ := h.laid
  simp only [ringMachine, if_pos (h.read_due recv)]
  cases result with
  | data bs =>
    obtain ⟨nonempty, fits⟩ := reports
    simp only [RingRun.takeRead, if_pos (And.intro nonempty fits), laid.poke bs, Option.map_some,
      Option.bind_some, RingRun.resumeRead, recv]
    exact ⟨_, rfl⟩
  | eof =>
    obtain ⟨w, run⟩ := UringRun.readEof_returns (h.not_done opened)
    simp only [RingRun.takeRead, run, Option.map_some, Option.bind_some, RingRun.resumeRead, recv]
    exact ⟨_, rfl⟩
  | failed res =>
    simp only [RingRun.takeRead, if_pos (show res < 0 from reports), Option.bind_some,
      RingRun.resumeRead, recv]
    exact ⟨_, rfl⟩

theorem RingRun.Inv.suspended_iff (h : s.Inv) (idle : s.idle = true) :
    s.reads ≠ [] ↔ ∃ p, s.recv = .suspended p := by
  have recvs := h.recvs
  unfold RingRun.Recvs at recvs
  cases recv : s.recv with
  | running p => simp [RingRun.idle, recv] at idle
  | suspended p =>
    rw [recv] at recvs
    simp [recvs.2.1]
  | created | finished =>
    rw [recv] at recvs
    simp [recvs.2]

/-- In every run on the ring: while the thread is in the loop of the executor, a READ is in flight
just when `recv_fn` is suspended, one and into the free part of the last block; whatever the kernel
reports for what is in flight, the coroutine to be resumed is there; and when the connection is
deleted nothing is in flight. -/
theorem ring_completions_find_their_coroutine (srv : RpcServer M Req Resp) (s : RingRun M Req Resp)
    (h : (ringMachine srv).Reach s) :
    (s.idle = true → (s.reads ≠ [] ↔ ∃ p, s.recv = .suspended p)) ∧
    (∀ p, s.recv = .suspended p → s.reads = [s.input.getBuffer] ∧ 0 < s.input.getBuffer.size ∧
      ∀ result : RingRead, result.Reports s.input.getBuffer →
        ∃ t, (ringMachine srv).step s (.completeRead s.input.getBuffer result) = some t) ∧
    (s.idle = true → ∀ iovs ∈ s.write.inflight, ∃ bytes,
      s.write.out.buf.readRegions iovs = some bytes ∧
      ∀ res : Int, res ≤ bytes.length →
      ∃ t, (ringMachine srv).step s (.completeWrite iovs res) = some t) ∧
    (s.recv = .running .reply → ∃ t, (ringMachine srv).step s .reply = some t) ∧
    (s.released = true → s.reads = [] ∧ s.write.inflight = []) := by
  have inv := ring_reach h
  refine ⟨inv.suspended_iff, ?_, ?_, ?_, ?_⟩
  · intro p recv
    obtain ⟨_, alone, _⟩ := inv.of_suspended recv
    obtain ⟨n, laid⟩ := inv.laid
    exact ⟨alone, laid.room, fun result reports => inv.completes_read recv reports⟩
  · intro idle iovs sent
    have waits : s.write.Waits True := inv.sends.mono fun _ => announced_of_idle idle
    obtain ⟨bytes, read, returns⟩ := inv.write.complete_returns waits sent
    refine ⟨bytes, read, fun res bound => ?_⟩
    obtain ⟨w, run⟩ := returns res bound
    simp only [ringMachine, idle, List.contains_iff_mem.mpr sent, Bool.and_self, if_true, run,
      Option.map_some]
    exact ⟨_, rfl⟩
  · intro recv
    rcases inv.of_running recv with ⟨opened, _⟩ | ⟨_, waits, _⟩
    · obtain ⟨w, run⟩ := UringRun.resumeWrite_returns (inv.not_done opened)
      simp only [ringMachine, recv, run, Option.map_some]
      exact ⟨_, rfl⟩
    · cases waits
  · intro released
    obtain ⟨done, finished⟩ := released_iff.mp released
    have sends := inv.sends
    have recvs := inv.recvs
    rw [UringRun.Waits, done] at sends
    rw [RingRun.Recvs, finished] at recvs
    exact ⟨recvs.2, sends.2⟩

end

theorem ring_completions_find_their_coroutine_after_a_response :
    ∃ s, (ringMachine echoServer).run (ringMachine echoServer).start
        [.start, .asyncRead, .completeRead ⟨0, 0, 8192⟩ (.data [2, 0, 0, 0, 1, 7, 1, 0, 0, 0, 9]),
          .step (fun _ => 0) [5], .step (fun _ => 0) [5], .step (fun _ => 0) [5],
          .step (fun _ => 0) [5], .reply, .asyncRead] = some s ∧
      s.reads = [⟨0, 11, 8181⟩] ∧ s.write.inflight = [[⟨0, 0, 11⟩]] ∧
      (∃ t, (ringMachine echoServer).step s (.completeRead ⟨0, 11, 8181⟩ .eof) = some t) ∧
      ∃ t, (ringMachine echoServer).step s (.completeWrite [⟨0, 0, 11⟩] 4) = some t := by
  obtain ⟨s, hs, recv, buffer, reads, flight, idle, read⟩ : ∃ s,
      (ringMachine echoServer).run (ringMachine echoServer).start
        [.start, .asyncRead, .completeRead ⟨0, 0, 8192⟩ (.data [2, 0, 0, 0, 1, 7, 1, 0, 0, 0, 9]),
          .step (fun _ => 0) [5], .step (fun _ => 0) [5], .step (fun _ => 0) [5],
          .step (fun _ => 0) [5], .reply, .asyncRead] = some s ∧
      s.recv = .suspended .headerLen ∧ s.input.getBuffer = ⟨0, 11, 8181⟩ ∧
      s.reads = [⟨0, 11, 8181⟩] ∧
      s.write.inflight = [[⟨0, 0, 11⟩]] ∧ s.idle = true ∧
      (s.write.out.buf.readRegions [⟨0, 0, 11⟩]).map List.length = some 11 :=
    ⟨_, rfl, rfl, rfl, rfl, rfl, rfl, rfl⟩
  obtain ⟨_, reading, writing, _⟩ :=
    ring_completions_find_their_coroutine echoServer s (Machine.reach_run .start hs)
  obtain ⟨bytes, held, writes⟩ :=
    writing idle [⟨0, 0, 11⟩] (by rw [flight]; exact List.mem_singleton_self _)
  rw [held, Option.map_some, Option.some.injEq] at read
  refine ⟨s, hs, reads, flight, ?_, writes 4 (by rw [read]; decide)⟩
  rw [← buffer]
  exact (reading .headerLen recv).2.2 .eof trivial

end Xuanqiong
