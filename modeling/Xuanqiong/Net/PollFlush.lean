import Xuanqiong.Client.Sessions
import Xuanqiong.Net.ConnInv
import Xuanqiong.Server.Pipeline

/-! Output of a polled connection between the steps of its executor: whatever is pending on an
open connection is waited for with EPOLLOUT, because everything that puts bytes into the buffer
resumes `send_fn` before the thread does anything else. -/
namespace Xuanqiong

/- Nothing is left over without somebody who waits to write it. -/
structure ConnRun.Flushed {σ P T : Type} (s : ConnRun σ P T) : Prop where
  registered : 0 < s.conn.writeBytes → s.send = .write ∧ s.interest = some .readWrite
  waiting : s.send = .waitWrite → s.conn.writeBytes = 0

/- Every `async_write` of `send_fn` finds fewer bytes than an `int` holds, and its `send_add` is
credited with no more than there are. -/
def Credits (c : Connection) : List (List WriteResult) → Prop
  | [] => True
  | results :: rest =>
    c.writeBytes < 2 ^ 31 ∧
    (∀ nwrite taken, writeLoop c.writeBuf (toInt32 c.writeBytes) 0 [] results =
      some (nwrite, taken) →
      nwrite ≤ c.writeBytes) ∧
    ∀ d suspend, c.asyncWrite results = some (d, suspend) → Credits d rest

theorem asyncWrite_credited {c d : Connection} {results : List WriteResult} {suspend : Bool}
    (inv : c.writeBuf.Inv) (small : c.writeBytes < 2 ^ 31)
    (credits : ∀ nwrite taken,
      writeLoop c.writeBuf (toInt32 c.writeBytes) 0 [] results = some (nwrite, taken) →
      nwrite ≤ c.writeBytes)
    (hs : c.asyncWrite results = some (d, suspend)) :
    d.writeBuf.Inv ∧ (suspend = false → c.closed = false → d.writeBytes = 0) := by
  obtain ⟨⟨nwrite, taken⟩, hw, hs⟩ := Option.bind_eq_some_iff.mp hs
  obtain ⟨b, hb, hi, hp⟩ := OutputBuffer.sendAdd_spec inv (credits nwrite taken hw)
  simp only [hb, Option.map_some, Option.some.injEq, Prod.mk.injEq] at hs
  obtain ⟨rfl, rfl⟩ := hs
  refine ⟨hi, ?_⟩
  intro returns opened
  have all : ¬ nwrite < toInt32 c.writeBytes := by simpa [opened] using returns
  rw [toInt32_of_lt small] at all
  have before : c.writeBytes = c.writeBuf.pending.length := inv.counted
  have after : b.bytes = b.pending.length := hi.counted
  simp only [Connection.writeBytes] at after ⊢
  rw [after, hp, List.length_drop]
  omega

theorem sendWrite_keeps_inv (rounds : List (List WriteResult)) {c d : Connection} {f : SendFn}
    (inv : c.writeBuf.Inv) (credits : Credits c rounds) (hs : sendWrite c rounds = some (d, f)) :
    d.writeBuf.Inv := by
  induction rounds generalizing c with
  | nil => cases hs
  | cons results rest ih =>
    obtain ⟨small, bound, later⟩ := credits
    obtain ⟨⟨b, suspend⟩, run, hs⟩ := Option.bind_eq_some_iff.mp hs
    have kept := (asyncWrite_credited inv small bound run).1
    simp only at hs
    split at hs
    · cases hs
      exact kept
    · split at hs
      · cases hs
        exact kept
      · split at hs
        · cases hs
          exact kept
        · exact ih kept (later _ _ run) hs

theorem sendLoop_keeps_inv {rounds : List (List WriteResult)} {c d : Connection} {f : SendFn}
    (inv : c.writeBuf.Inv) (credits : Credits c rounds) (hs : sendLoop c rounds = some (d, f)) :
    d.writeBuf.Inv := by
  unfold sendLoop at hs
  split at hs
  · cases hs
    exact inv
  · split at hs
    · cases hs
      exact inv
    · exact sendWrite_keeps_inv rounds inv credits hs

theorem resume_keeps_inv {rounds : List (List WriteResult)} {c d : Connection} {f g : SendFn}
    (inv : c.writeBuf.Inv) (credits : Credits c rounds) (hs : f.resume c rounds = some (d, g)) :
    d.writeBuf.Inv := by
  cases f with
  | created | finished => cases hs
  | waitWrite => exact sendWrite_keeps_inv rounds inv credits hs
  | write => exact sendLoop_keeps_inv inv credits hs

theorem sendWrite_waits (rounds : List (List WriteResult)) {c d : Connection}
    (hs : sendWrite c rounds = some (d, .waitWrite)) : d.writeBytes = 0 := by
  induction rounds generalizing c with
  | nil => cases hs
  | cons results rest ih =>
    obtain ⟨⟨b, suspend⟩, run, hs⟩ := Option.bind_eq_some_iff.mp hs
    simp only at hs
    split at hs
    · cases hs
    · split at hs
      · cases hs
      · split at hs
        · rename_i empty
          cases hs
          exact empty
        · exact ih hs

theorem sendLoop_waits {rounds : List (List WriteResult)} {c d : Connection}
    (hs : sendLoop c rounds = some (d, .waitWrite)) : d.writeBytes = 0 := by
  unfold sendLoop at hs
  split at hs
  · cases hs
  · split at hs
    · rename_i empty
      cases hs
      exact empty
    · exact sendWrite_waits rounds hs

theorem resume_waits {rounds : List (List WriteResult)} {c d : Connection} {f : SendFn}
    (hs : f.resume c rounds = some (d, .waitWrite)) : d.writeBytes = 0 := by
  cases f with
  | created | finished => cases hs
  | waitWrite => exact sendWrite_waits rounds hs
  | write => exact sendLoop_waits hs

theorem sendWrite_returns {c d : Connection} {results : List WriteResult} {suspend : Bool}
    (inv : c.writeBuf.Inv) (opened : c.closed = false) (credits : Credits c [results])
    (run : c.asyncWrite results = some (d, suspend)) : ∃ r, sendWrite c [results] = some r := by
  obtain ⟨small, bound, _⟩ := credits
  obtain ⟨_, drained⟩ := asyncWrite_credited inv small bound run
  have same := (Connection.asyncWrite_closed run).trans opened
  cases suspend with
  | true => exact ⟨(d, .write), by simp [sendWrite, run]⟩
  | false => exact ⟨(d, .waitWrite), by simp [sendWrite, run, same, drained rfl opened]⟩

theorem resume_returns {c d : Connection} {results : List WriteResult} {suspend : Bool} {f : SendFn}
    (inv : c.writeBuf.Inv) (opened : c.closed = false) (suspended : f.Suspended)
    (credits : Credits c [results]) (run : c.asyncWrite results = some (d, suspend)) :
    ∃ r, f.resume c [results] = some r := by
  obtain ⟨r, hr⟩ := sendWrite_returns inv opened credits run
  rcases suspended with rfl | rfl
  · exact ⟨r, hr⟩
  · by_cases empty : c.writeBytes = 0
    · exact ⟨(c, .waitWrite), by simp [SendFn.resume, sendLoop, opened, empty]⟩
    · exact ⟨r, by simp [SendFn.resume, sendLoop, opened, empty, hr]⟩

section

variable {σ P X T : Type} {e : Endpoint σ P X T} {s t : ConnRun σ P T} {op : ConnOp X T}

/-- What is above the connection puts bytes into it only on the way to a `resume_write`, which it
does not put off for more input, and keeps the buffer whole. -/
structure Endpoint.Announces (e : Endpoint σ P X T) : Prop where
  waits : ∀ c p, e.waits c p = true → e.replies p = none
  step : ∀ x a c p a' c' q, e.step x a c p = some (a', c', q) → e.replies q = none →
    c'.writeBuf = c.writeBuf
  stepInv : ∀ x a c p a' c' q, e.step x a c p = some (a', c', q) → c.writeBuf.Inv → c'.writeBuf.Inv
  submitInv : ∀ junk r a c a' c', e.submit junk r a c = some (a', c') → c.writeBuf.Inv →
    c'.writeBuf.Inv

def Ctl.Announced (e : Endpoint σ P X T) : Ctl P T → Prop
  | .recv p => e.replies p = none
  | .call _ | .writable _ => False
  | .idle | .reading _ _ | .awaiting _ _ | .readable => True

def Credited (s : ConnRun σ P T) : ConnOp X T → Prop
  | .startSend rounds | .resumeWrite rounds => Credits s.conn rounds
  | _ => True

structure ConnRun.Flushing (e : Endpoint σ P X T) (s : ConnRun σ P T) : Prop where
  placed : s.Placed e
  writeInv : s.conn.writeBuf.Inv
  created : s.send = .created → s.conn.writeBytes = 0
  flushed : s.conn.closed = false → s.send ≠ .created → s.ctl.Announced e → s.Flushed

theorem flushed_sent {r : Connection × SendFn} (waits : r.2 = .waitWrite → r.1.writeBytes = 0)
    (suspended : r.2.Suspended) (registered : s.interest ≠ none) {ctl : Ctl P T} :
    ConnRun.Flushed { s.sent r with ctl := ctl } := by
  obtain ⟨i, hi⟩ := Option.ne_none_iff_exists'.mp registered
  rcases suspended with waiting | writing
  · refine ⟨fun pending => ?_, fun _ => waits waiting⟩
    have none := waits waiting
    simp only [ConnRun.sent] at pending
    omega
  · refine ⟨fun _ => ⟨writing, ?_⟩, fun waiting => ?_⟩
    · simp [ConnRun.sent, writing, hi]
    · simp only [ConnRun.sent] at waiting
      cases writing.symm.trans waiting

theorem readAll_writeBuf {c d : Connection} {results : List ReadResult} {n : Nat}
    (hs : c.readAll results = some (d, n)) : d.writeBuf = c.writeBuf := by
  obtain ⟨r, _, hd⟩ := Option.map_eq_some_iff.mp hs
  cases hd
  rfl

theorem ConnRun.Flushed.keeps (h : s.Flushed) (writeBuf : t.conn.writeBuf = s.conn.writeBuf)
    (send : t.send = s.send) (interest : t.interest = s.interest) : t.Flushed := by
  have bytes : t.conn.writeBytes = s.conn.writeBytes := congrArg OutputBuffer.bytes writeBuf
  constructor
  · intro pending
    rw [send, interest]
    exact h.registered (bytes ▸ pending)
  · intro waiting
    rw [bytes]
    exact h.waiting (send ▸ waiting)

theorem ConnRun.Placed.created_of_queue (h : s.Placed e) {rest : List (SpawnedTask T)}
    (queue : s.queue = .sendFn :: rest) : s.send = .created := by
  cases h.queued with
  | fresh requests hs hr hq => exact hs
  | sending requests hs hr hq => simp [queue] at hq
  | started requests hs hr hq => cases requests <;> simp [queue] at hq

theorem suspended_of_spec {f : SendFn} {c : Connection} (opened : c.closed = false)
    (created : f ≠ .created) (ends : f = .finished ↔ c.closed = true) : f.Suspended := by
  cases f with
  | created => exact absurd rfl created
  | waitWrite => exact Or.inl rfl
  | write => exact Or.inr rfl
  | finished => cases opened.symm.trans (ends.mp rfl)

theorem flushing_step (announces : e.Announces) (h : s.Flushing e) (credited : Credited s op)
    (hs : (connMachine e).step s op = some t) : t.Flushing e := by
  have move := conn_move hs
  have placed := placed_step h.placed move
  have idle : s.ctl = .idle → s.conn.closed = false → s.send ≠ .created → s.Flushed := by
    intro ctl opened created
    exact h.flushed opened created (by rw [ctl]; trivial)
  cases move with
  | spawn =>
    exact ⟨placed, h.writeInv, h.created, fun opened created said =>
      (h.flushed opened created said).keeps rfl rfl rfl⟩
  | close owned => exact ⟨placed, h.writeInv, h.created, fun opened => by cases opened⟩
  | startSend ctl queue run =>
    have empty := h.created (h.placed.created_of_queue queue)
    obtain ⟨same, created, _⟩ := sendLoop_spec run
    refine ⟨placed, sendLoop_keeps_inv h.writeInv credited run, fun hs => absurd hs created, ?_⟩
    intro opened _ _
    have before : s.conn.closed = false := same.symm.trans opened
    simp only [sendLoop, before, empty, Bool.false_eq_true, if_false, if_true,
      Option.some.injEq] at run
    subst run
    refine ⟨fun pending => ?_, fun _ => empty⟩
    simp only [ConnRun.sent] at pending
    omega
  | startRecv ctl queue =>
    refine ⟨placed, h.writeInv, h.created, ?_⟩
    intro opened created _
    have flushed := idle ctl opened created
    refine ⟨fun pending => ?_, flushed.waiting⟩
    obtain ⟨send, interest⟩ := flushed.registered pending
    exact ⟨send, by simp [interest]⟩
  | startCall ctl queue run =>
    refine ⟨placed, announces.submitInv _ _ _ _ _ _ run h.writeInv, ?_, fun _ _ said => said.elim⟩
    intro created
    exact absurd created (h.placed.ready (h.placed.call_of_queue queue).1)
  | hangUp ctl interest => exact ⟨placed, h.writeInv, h.created, fun opened => by cases opened⟩
  | writable ctl interest => exact ⟨placed, h.writeInv, h.created, fun _ _ said => said.elim⟩
  | readable ctl interest held =>
    exact ⟨placed, h.writeInv, h.created,
      fun opened created _ => (idle ctl opened created).keeps rfl rfl rfl⟩
  | resumeRead ctl recv =>
    refine ⟨placed, h.writeInv, h.created, ?_⟩
    intro opened created _
    exact (h.flushed opened created (by rw [ctl]; trivial)).keeps rfl rfl rfl
  | @resumeWrite rounds r next site run =>
    obtain ⟨same, created, ends⟩ := resume_spec run
    refine ⟨placed, resume_keeps_inv h.writeInv credited run, fun hs => absurd hs created, ?_⟩
    intro opened _ _
    have before : s.conn.closed = false := same.symm.trans opened
    have waits : r.2 = .waitWrite → r.1.writeBytes = 0 := by
      intro waiting
      obtain ⟨d, f⟩ := r
      cases waiting
      exact resume_waits run
    exact flushed_sent waits (suspended_of_spec before created ends)
      (h.placed.registered before (h.placed.after site r).1)
  | read ctl waits run =>
    have same := readAll_writeBuf run
    refine ⟨placed, same ▸ h.writeInv, ?_, ?_⟩
    · intro created
      exact (congrArg OutputBuffer.bytes same).trans (h.created created)
    · intro opened created _
      refine (h.flushed (Connection.readAll_opened run opened) created ?_).keeps same rfl rfl
      rw [ctl]
      exact announces.waits _ _ waits
  | proceed ctl opened =>
    refine ⟨placed, h.writeInv, h.created, ?_⟩
    intro _ created _
    exact (h.flushed opened created (by rw [ctl]; trivial)).keeps rfl rfl rfl
  | deleted ctl closed =>
    exact ⟨placed, h.writeInv, h.created, fun opened => by cases closed.symm.trans opened⟩
  | suspended ctl opened =>
    refine ⟨placed, h.writeInv, h.created, ?_⟩
    intro _ created _
    exact (h.flushed opened created (by rw [ctl]; trivial)).keeps rfl rfl rfl
  | received ctl opened =>
    refine ⟨placed, h.writeInv, h.created, ?_⟩
    intro _ created _
    exact (h.flushed opened created (by rw [ctl]; trivial)).keeps rfl rfl rfl
  | finish ctl waits run finished =>
    have started : s.recv ≠ .created := by
      have fits := h.placed.fits
      rw [ctl] at fits
      rw [fits]
      simp
    have closed := e.step_closed run
    rw [finished, Bool.or_true] at closed
    exact ⟨placed, announces.stepInv _ _ _ _ _ _ _ run h.writeInv,
      fun created => absurd created (h.placed.ready started),
      fun opened => by cases closed.symm.trans opened⟩
  | @go x p a c q ctl waits run finished =>
    have started : s.recv ≠ .created := by
      have fits := h.placed.fits
      rw [ctl] at fits
      rw [fits]
      simp
    have same := e.step_closed run
    rw [finished, Bool.or_false] at same
    refine ⟨placed, announces.stepInv _ _ _ _ _ _ _ run h.writeInv,
      fun created => absurd created (h.placed.ready started), ?_⟩
    intro opened created said
    have quiet : e.replies p = none := by
      simp only [connMachine, ctl, Option.ite_none_left_eq_some, Bool.or_eq_true, not_or] at hs
      simpa using hs.1.2
    refine (h.flushed (same.symm.trans opened) created ?_).keeps
      (announces.step _ _ _ _ _ _ _ run said) rfl rfl
    rw [ctl]
    exact quiet

theorem flushing_reach (announces : e.Announces) (h : (connMachine e).ReachWith Credited s) :
    s.Flushing e := by
  refine h.invariant ⟨placed_reach .start, OutputBuffer.init_inv, fun _ => rfl,
    fun _ created => absurd rfl created⟩ ?_
  intro s op t hs credited hstep
  exact flushing_step announces hs credited hstep

theorem ConnRun.Flushing.returns (h : s.Flushing e) {next : Ctl P T} {results : List WriteResult}
    (site : s.afterResume e = some next) (opened : s.conn.closed = false)
    (credits : Credits s.conn [results]) (finishes : (s.conn.asyncWrite results).isSome) :
    ∃ t, (connMachine e).step s (.resumeWrite [results]) = some t := by
  obtain ⟨⟨d, suspend⟩, run⟩ := Option.isSome_iff_exists.mp finishes
  have started := (h.placed.after site (s.conn, s.send)).1
  have suspended := suspended_of_spec opened (h.placed.ready started)
    ⟨fun finished => absurd finished (h.placed.opened opened),
      fun closed => by cases opened.symm.trans closed⟩
  obtain ⟨r, hr⟩ := resume_returns h.writeInv opened suspended credits run
  exact ⟨{ s.sent r with ctl := next }, by simp [connMachine, site, hr]⟩

end

section

variable {M Req Resp Args R D Msg : Type}

theorem RpcServer.recvStep_output {srv : RpcServer M Req Resp} {memory : Nat → UInt8}
    {response : Resp} {c d : Connection} {p q : RecvPoint M} {calls : List (Call M Req Resp)}
    (hs : srv.recvStep memory response c p = some (d, q, calls)) :
    d.writeBuf = c.writeBuf ∨ (q = .reply ∧ (c.writeBuf.Inv → d.writeBuf.Inv)) := by
  cases recvStep_turn hs with
  | leave took | goOn took =>
    have same := took.writeBuf
    exact Or.inl same
  | @answer _ _ _ _ _ _ call _ point took run =>
    refine Or.inr ⟨(sendResponse_cases run).1, fun inv => ?_⟩
    obtain ⟨w, hw, hi, _⟩ := sendResponse_spec srv (took.writeBuf ▸ inv) memory call
    cases hw.symm.trans run
    exact hi

theorem RpcServer.announces (srv : RpcServer M Req Resp) : srv.endpoint.Announces where
  waits c p hw := by
    cases p with
    | reply => cases hw
    | _ => rfl
  step x a c p a' c' q hs quiet := by
    obtain ⟨⟨d, q', calls⟩, hr, hd⟩ := Option.map_eq_some_iff.mp hs
    cases hd
    rcases recvStep_output hr with same | ⟨rfl, _⟩
    · exact same
    · cases quiet
  stepInv x a c p a' c' q hs inv := by
    obtain ⟨⟨d, q', calls⟩, hr, hd⟩ := Option.map_eq_some_iff.mp hs
    cases hd
    rcases recvStep_output hr with same | ⟨_, keeps⟩
    · rw [same]
      exact inv
    · exact keeps inv
  submitInv _ request := request.elim

theorem ClientChannel.announces (ch : ClientChannel Args R Msg) :
    (ch.endpoint (D := D)).Announces where
  waits _ _ _ := rfl
  step x a c p a' c' q hs _ := (recvStep_effect hs).1
  stepInv x a c p a' c' q hs inv := by
    rw [(recvStep_effect hs).1]
    exact inv
  submitInv junk call a c a' c' hs inv := by
    obtain ⟨b, hb, hi, _⟩ := ch.sendRequest_spec inv junk call a
    cases hs.symm.trans hb
    exact hi

/-- At both ends of an rpc, between the steps of the executor: bytes pending on an open connection
have `send_fn` suspended in `WriteAwaiter` and EPOLLOUT asked for, and `send_fn` waits for output
only where there is none. And a `resume_write` comes back after one `async_write`. -/
theorem poll_output_is_waited_for (srv : RpcServer M Req Resp) (ch : ClientChannel Args R Msg) :
    (∀ s, (connMachine srv.endpoint).ReachWith Credited s →
      (s.ctl = .idle → s.conn.closed = false → s.send ≠ .created →
        (0 < s.conn.writeBytes → s.send = .write ∧ s.interest = some .readWrite) ∧
        (s.send = .waitWrite → s.conn.writeBytes = 0)) ∧
      ∀ next results, s.afterResume srv.endpoint = some next → s.conn.closed = false →
        Credits s.conn [results] → (s.conn.asyncWrite results).isSome →
        ∃ t, (connMachine srv.endpoint).step s (.resumeWrite [results]) = some t) ∧
    ∀ s, (connMachine (ch.endpoint (D := D))).ReachWith Credited s →
      (s.ctl = .idle → s.conn.closed = false → s.send ≠ .created →
        (0 < s.conn.writeBytes → s.send = .write ∧ s.interest = some .readWrite) ∧
        (s.send = .waitWrite → s.conn.writeBytes = 0)) ∧
      ∀ next results, s.afterResume (ch.endpoint (D := D)) = some next → s.conn.closed = false →
        Credits s.conn [results] → (s.conn.asyncWrite results).isSome →
        ∃ t, (connMachine (ch.endpoint (D := D))).step s (.resumeWrite [results]) = some t := by
  constructor
  · intro s h
    have inv := flushing_reach srv.announces h
    refine ⟨?_, fun next results => inv.returns⟩
    intro ctl opened created
    have flushed := inv.flushed opened created (by rw [ctl]; trivial)
    exact ⟨flushed.registered, flushed.waiting⟩
  · intro s h
    have inv := flushing_reach ch.announces h
    refine ⟨?_, fun next results => inv.returns⟩
    intro ctl opened created
    have flushed := inv.flushed opened created (by rw [ctl]; trivial)
    exact ⟨flushed.registered, flushed.waiting⟩

end

theorem poll_output_is_waited_for_when_cut :
    (∃ s, (connMachine echoServer.endpoint).Reach s ∧ s.ctl = .idle ∧ s.conn.writeBytes = 7 ∧
      s.send = .write ∧ s.interest = some .readWrite) ∧
    ∃ s, (connMachine (byteClient.endpoint (D := Unit))).Reach s ∧ s.ctl = .idle ∧
      s.conn.writeBytes = 7 ∧ s.send = .write ∧ s.interest = some .readWrite := by
  constructor
  · obtain ⟨u, v, s, hu, bytes, hv, hs, ctl, opened, created, pending⟩ : ∃ u v s,
        (connMachine echoServer.endpoint).run (connMachine echoServer.endpoint).start
          [.startSend [], .startRecv, .read [.data [2, 0, 0, 0, 1, 7, 1, 0, 0, 0, 9], .eagain],
            .proceed, .await, .step (fun _ => 0, [5]), .step (fun _ => 0, [5]),
            .step (fun _ => 0, [5]), .step (fun _ => 0, [5])] = some u ∧ u.conn.writeBytes = 11 ∧
        (connMachine echoServer.endpoint).step u (.resumeWrite [[.accepted 4, .eagain]]) = some v ∧
        (connMachine echoServer.endpoint).run v [.read [.eagain], .proceed, .await] = some s ∧
        s.ctl = .idle ∧ s.conn.closed = false ∧ s.send ≠ .created ∧ s.conn.writeBytes = 7 :=
      ⟨_, _, _, rfl, rfl, rfl, rfl, rfl, rfl, by decide, rfl⟩
    have before : (connMachine echoServer.endpoint).ReachWith Credited u :=
      Machine.reachWith_run .start (Machine.along_of_forall (by simp [Credited, Credits]) _) hu
    have credited : Credited u (.resumeWrite [[.accepted 4, .eagain]] :
        ConnOp ((Nat → UInt8) × List UInt8) Empty) := by
      refine ⟨by rw [bytes]; decide, fun nwrite taken hw => ?_, fun _ _ _ => trivial⟩
      rw [(writeLoop_taken _ _ _ _ _ _ _ hw).1, bytes]
      decide
    have reached := Machine.reachWith_run (before.next credited hv)
      (Machine.along_of_forall (by simp [Credited]) _) hs
    have waited := (poll_output_is_waited_for (D := Unit) echoServer byteClient).1 s reached
    exact ⟨s, reached.reach, ctl, pending, (waited.1 ctl opened created).1 (by omega)⟩
  · obtain ⟨u, s, hu, bytes, hs, ctl, opened, created, pending⟩ : ∃ u s,
        (connMachine (byteClient.endpoint (D := Unit))).run (connMachine byteClient.endpoint).start
          [.startSend [], .startRecv, .read [.eagain], .proceed, .await, .spawn (byteCall 5),
            .startCall (fun _ => 0)] = some u ∧ u.conn.writeBytes = 10 ∧
        (connMachine byteClient.endpoint).step u (.resumeWrite [[.accepted 3, .eagain]]) = some s ∧
        s.ctl = .idle ∧ s.conn.closed = false ∧ s.send ≠ .created ∧ s.conn.writeBytes = 7 :=
      ⟨_, _, rfl, rfl, rfl, rfl, rfl, by decide, rfl⟩
    have before : (connMachine (byteClient.endpoint (D := Unit))).ReachWith Credited u :=
      Machine.reachWith_run .start (Machine.along_of_forall (by simp [Credited, Credits]) _) hu
    have credited : Credited u (.resumeWrite [[.accepted 3, .eagain]] :
        ConnOp (Nat → UInt8) (MethodCall UInt8 Unit Unit)) := by
      refine ⟨by rw [bytes]; decide, fun nwrite taken hw => ?_, fun _ _ _ => trivial⟩
      rw [(writeLoop_taken _ _ _ _ _ _ _ hw).1, bytes]
      decide
    have reached := before.next credited hs
    have waited := (poll_output_is_waited_for echoServer byteClient).2 s reached
    exact ⟨s, reached.reach, ctl, pending, (waited.1 ctl opened created).1 (by omega)⟩

end Xuanqiong
