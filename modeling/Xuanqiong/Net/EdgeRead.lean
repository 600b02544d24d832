import Mathlib.Data.List.Induction
import Xuanqiong.Client.Sessions
import Xuanqiong.Net.AsyncRead
import Xuanqiong.Net.ConnInv
import Xuanqiong.Server.RecvFn

/-! Reading from an edge-triggered socket. Whatever the two ends of an rpc do with their connection,
there is room in the block that `async_read` fills, so `recv_fn` suspends only after a `read` that
has found the kernel empty. -/
namespace Xuanqiong

theorem asyncWrite_readBuf {c d : Connection} {results : List WriteResult} {suspend : Bool}
    (h : c.asyncWrite results = some (d, suspend)) : d.readBuf = c.readBuf := by
  obtain ⟨⟨nwrite, taken⟩, _, hs⟩ := Option.bind_eq_some_iff.mp h
  obtain ⟨b, _, hb⟩ := Option.map_eq_some_iff.mp hs
  cases hb
  rfl

theorem sendWrite_readBuf (rounds : List (List WriteResult)) {c d : Connection} {f : SendFn}
    (h : sendWrite c rounds = some (d, f)) : d.readBuf = c.readBuf := by
  induction rounds generalizing c with
  | nil => cases h
  | cons results rest ih =>
    obtain ⟨⟨b, suspend⟩, run, h⟩ := Option.bind_eq_some_iff.mp h
    have same := asyncWrite_readBuf run
    simp only at h
    split at h
    · cases h
      exact same
    · split at h
      · cases h
        exact same
      · split at h
        · cases h
          exact same
        · exact (ih h).trans same

theorem sendLoop_readBuf {rounds : List (List WriteResult)} {c d : Connection} {f : SendFn}
    (h : sendLoop c rounds = some (d, f)) : d.readBuf = c.readBuf := by
  unfold sendLoop at h
  split at h
  · cases h
    rfl
  · split at h
    · cases h
      rfl
    · exact sendWrite_readBuf rounds h

theorem resume_readBuf {rounds : List (List WriteResult)} {c d : Connection} {f g : SendFn}
    (h : f.resume c rounds = some (d, g)) : d.readBuf = c.readBuf := by
  cases f with
  | created | finished => cases h
  | waitWrite => exact sendWrite_readBuf rounds h
  | write => exact sendLoop_readBuf h

theorem Connection.fetchUint32_roomy {c d : Connection} {memory : Nat → UInt8} {v : Option Nat}
    (room : c.readBuf.Roomy) (h : c.fetchUint32 memory = some (v, d)) : d.readBuf.Roomy := by
  obtain ⟨⟨ok, value, b⟩, hf, hd⟩ := Option.map_eq_some_iff.mp h
  cases hd
  exact room.fetchUint32 hf

theorem Connection.pull_roomy {c d : Connection} {len : Nat} {bytes : List UInt8}
    (room : c.readBuf.Roomy) (h : c.pull len = some (bytes, d)) : d.readBuf.Roomy := by
  obtain ⟨⟨bs, b⟩, hp, hd⟩ := Option.map_eq_some_iff.mp h
  cases hd
  exact (room.pushLimit _).pull hp

theorem Connection.Takes.roomy {c d : Connection} (h : c.Takes d) (room : c.readBuf.Roomy) :
    d.readBuf.Roomy := by
  cases h with
  | nothing => exact room
  | word run => exact fetchUint32_roomy room run
  | bytes run | message run =>
    have after := pull_roomy room run
    exact after

theorem Connection.appendMessage_readBuf {c d : Connection} {junk : Nat → UInt8}
    {message : List UInt8} (h : c.appendMessage junk message = some d) : d.readBuf = c.readBuf := by
  obtain ⟨b, _, hb⟩ := Option.bind_eq_some_iff.mp h
  obtain ⟨r, _, hd⟩ := Option.map_eq_some_iff.mp hb
  cases hd
  rfl

section

variable {σ P X T : Type} {e : Endpoint σ P X T} {s t : ConnRun σ P T} {op : ConnOp X T}

def ConnOp.input : ConnOp X T → List UInt8
  | .read results => fetched results
  | _ => []

/- The connection when the bytes of an `async_read` on its way are counted. -/
def Ctl.settle : Ctl P T → Connection → Connection
  | .reading _ n, c | .awaiting _ n, c => c.recvAdd n
  | .recv _, c | .idle, c | .writable _, c | .readable, c | .call _, c => c

def Ctl.point : Ctl P T → Option P
  | .recv p | .reading p _ | .awaiting p _ => some p
  | .idle | .writable _ | .readable | .call _ => none

theorem settle_output (ctl : Ctl P T) (c : Connection) (b : OutputBuffer) :
    { ctl.settle c with writeBuf := b } = ctl.settle { c with writeBuf := b } := by
  cases ctl <;> rfl

theorem settle_close (ctl : Ctl P T) (c : Connection) :
    (ctl.settle c).close = ctl.settle c.close := by
  cases ctl <;> rfl

theorem settle_writeBuf (ctl : Ctl P T) (c : Connection) :
    (ctl.settle c).writeBuf = c.writeBuf := by
  cases ctl <;> rfl

theorem settle_closed (ctl : Ctl P T) (c : Connection) : (ctl.settle c).closed = c.closed := by
  cases ctl <;> rfl

theorem settle_readBuf (ctl : Ctl P T) {c d : Connection} (same : d.readBuf = c.readBuf) :
    (ctl.settle d).readBuf = (ctl.settle c).readBuf := by
  cases ctl with
  | reading | awaiting => simp only [Ctl.settle, Connection.recvAdd, same]
  | recv | idle | writable | readable | call => exact same

theorem afterResume_cases {r : ConnRun σ P T} {next : Ctl P T}
    (site : r.afterResume e = some next) :
    (∀ c, r.ctl.settle c = next.settle c) ∧
      ((∀ p, next.point = some p → r.ctl.point = some p) ∨
        ∃ p q, r.ctl = .recv p ∧ e.replies p = some q ∧ next = .recv q) := by
  unfold ConnRun.afterResume at site
  split at site
  · rename_i ctl
    rw [ctl]
    split at site
    · cases site
      exact ⟨fun _ => rfl, Or.inl fun _ here => here⟩
    · cases site
  · rename_i p ctl
    obtain ⟨q, replies, rfl⟩ := Option.map_eq_some_iff.mp site
    rw [ctl]
    exact ⟨fun _ => rfl, Or.inr ⟨p, q, rfl, replies, rfl⟩⟩
  · rename_i readable ctl
    cases site
    rw [ctl]
    cases readable <;>
    · refine ⟨fun _ => rfl, Or.inl ?_⟩
      rintro p ⟨⟩
  · rename_i ctl
    cases site
    rw [ctl]
    refine ⟨fun _ => rfl, Or.inl ?_⟩
    rintro p ⟨⟩
  · cases site
  · cases site
  · cases site

structure Endpoint.LeavesRoom (e : Endpoint σ P X T) : Prop where
  step : ∀ {x a c p a' c' p'}, e.step x a c p = some (a', c', p') → c.readBuf.Roomy →
    c'.readBuf.Roomy
  submit : ∀ {junk t a c a' c'}, e.submit junk t a c = some (a', c') → c'.readBuf = c.readBuf

/- Between the loop of `async_read` and its `recv_add` the new bytes are in the block but not yet
counted. -/
structure ConnRun.Roomy (s : ConnRun σ P T) : Prop where
  room : s.conn.readBuf.Roomy
  fits : ∀ p n, s.ctl = .reading p n ∨ s.ctl = .awaiting p n →
    (n : Int) ≤ s.conn.readBuf.getBuffer.size

theorem ConnRun.Roomy.same (h : s.Roomy) (readBuf : t.conn.readBuf = s.conn.readBuf)
    (ctl : ∀ p n, t.ctl = .reading p n ∨ t.ctl = .awaiting p n →
      s.ctl = .reading p n ∨ s.ctl = .awaiting p n) : t.Roomy where
  room := readBuf ▸ h.room
  fits p n ht := readBuf ▸ h.fits p n (ctl p n ht)

theorem ConnRun.Roomy.quiet (room : t.conn.readBuf.Roomy)
    (ctl : ∀ p n, ¬ (t.ctl = .reading p n ∨ t.ctl = .awaiting p n)) : t.Roomy where
  room := room
  fits p n ht := absurd ht (ctl p n)

theorem afterResume_reading {next : Ctl P T} (site : s.afterResume e = some next) (p : P) (n : Nat)
    (h : next = .reading p n ∨ next = .awaiting p n) :
    s.conn.closed = true ∧ s.ctl = .reading p n ∧ next = .awaiting p n := by
  unfold ConnRun.afterResume at site
  split at site
  · rename_i ctl
    split at site
    · rename_i closed
      cases site
      simp only [reduceCtorEq, false_or, Ctl.awaiting.injEq] at h
      obtain ⟨rfl, rfl⟩ := h
      exact ⟨closed, ctl, rfl⟩
    · cases site
  · obtain ⟨q, _, rfl⟩ := Option.map_eq_some_iff.mp site
    simp at h
  · rename_i readable _
    cases site
    cases readable <;> simp at h
  · cases site
    simp at h
  · cases site
  · cases site
  · cases site

theorem roomy_step (leaves : e.LeavesRoom) (h : s.Roomy) (move : ConnMove e s op t) : t.Roomy := by
  cases move with
  | spawn | close | hangUp => exact h.same rfl fun _ _ ht => ht
  | startSend ctl queue run =>
    exact h.same (sendLoop_readBuf run) fun _ _ ht => ht
  | startRecv | writable | readable | resumeRead => exact .quiet h.room (by simp)
  | startCall ctl queue run =>
    refine .quiet ?_ (by simp)
    simp only [leaves.submit run]
    exact h.room
  | resumeWrite site run =>
    refine h.same (resume_readBuf run) fun p n ht => ?_
    exact Or.inl (afterResume_reading site p n ht).2.1
  | read ctl waits run =>
    obtain ⟨ends, _, _, _, _, _, rfl, rfl, fits⟩ := Connection.readAll_cases h.room run
    refine ⟨h.room.fill _, fun p n ht => ?_⟩
    simp only [Ctl.reading.injEq, reduceCtorEq, or_false] at ht
    rw [← ht.2]
    simp only [InputBuffer.fill_size]
    exact fits
  | proceed ctl opened =>
    refine h.same rfl fun p n ht => Or.inl ?_
    simp only [reduceCtorEq, false_or, Ctl.awaiting.injEq] at ht
    rw [ctl, ht.1, ht.2]
  | deleted ctl _ | suspended ctl _ | received ctl _ =>
    exact .quiet (h.room.recvAdd (h.fits _ _ (Or.inr ctl))) (by simp)
  | finish ctl waits run | go ctl waits run => exact .quiet (leaves.step run h.room) (by simp)

theorem roomy_reach (leaves : e.LeavesRoom) (h : (connMachine e).Reach s) : s.Roomy := by
  refine h.invariant ?_ (fun s op t hs step => roomy_step leaves hs (conn_move step))
  exact .quiet InputBuffer.init_inv.roomy (by simp [connMachine])

end

section

variable {M Req Resp : Type} {c d : Connection}

theorem RpcServer.recvStep_roomy {srv : RpcServer M Req Resp} {memory : Nat → UInt8}
    {response : Resp} {p q : RecvPoint M} {calls : List (Call M Req Resp)}
    (hs : srv.recvStep memory response c p = some (d, q, calls)) (room : c.readBuf.Roomy) :
    d.readBuf.Roomy := by
  cases recvStep_turn hs with
  | leave took | goOn took =>
    have after := took.roomy room
    exact after
  | answer point took run =>
    obtain ⟨a, ha, run⟩ := Option.bind_eq_some_iff.mp run
    obtain ⟨r, hr, hd⟩ := Option.map_eq_some_iff.mp run
    cases hd
    rw [Connection.appendMessage_readBuf hr, Connection.appendMessage_readBuf ha]
    exact took.roomy room

theorem RpcServer.leavesRoom (srv : RpcServer M Req Resp) : srv.endpoint.LeavesRoom where
  step := by
    intro x a c p a' c' p' h room
    obtain ⟨⟨d, q, calls⟩, run, hd⟩ := Option.map_eq_some_iff.mp h
    cases hd
    exact recvStep_roomy run room
  submit := by
    intro _ t
    cases t

end

section

variable {Args R D Msg : Type} {c d : Connection}

theorem ClientChannel.leavesRoom (ch : ClientChannel Args R Msg) :
    (ch.endpoint (D := D)).LeavesRoom where
  step := by
    intro memory st c p st' d q hs room
    obtain ⟨b, took, ⟨rfl, rfl⟩ | ⟨rfl, _⟩⟩ := recvStep_takes hs
    · exact took.roomy room
    · exact took.roomy room
  submit := by
    intro junk call st c st' d hs
    obtain ⟨b, hb, hs⟩ := Option.bind_eq_some_iff.mp hs
    obtain ⟨r, hr, hd⟩ := Option.map_eq_some_iff.mp hs
    cases hd
    rw [Connection.appendMessage_readBuf hr, Connection.appendMessage_readBuf hb]

end

/-- The bytes that the kernel holds for the connection: those from before the last `read`, and those
that have come since. -/
structure Kernel where
  early : List UInt8
  late : List UInt8

inductive KernelEvent where
  | arrive (bs : List UInt8)
  | answer (r : ReadResult)

/- A `read` finds what is there. It takes from the front, and it reports EAGAIN and the end of the
stream only when nothing is left. -/
def Kernel.event (k : Kernel) : KernelEvent → Option Kernel
  | .arrive bs => some { k with late := k.late ++ bs }
  | .answer (.data bs) =>
    if bs <+: k.early ++ k.late then some ⟨(k.early ++ k.late).drop bs.length, []⟩ else none
  | .answer .eagain | .answer .eof => if k.early ++ k.late = [] then some ⟨[], []⟩ else none
  | .answer .eintr | .answer .failed => some ⟨k.early ++ k.late, []⟩

def answers (events : List KernelEvent) : List ReadResult :=
  events.filterMap fun
    | .arrive _ => none
    | .answer r => some r

structure EdgeRun (σ P T : Type) where
  conn : ConnRun σ P T
  kernel : Kernel

inductive EdgeOp (X T : Type) where
  | arrive (bs : List UInt8)
  | read (events : List KernelEvent)
  | other (op : ConnOp X T)

/- The connection with its kernel, into which bytes may come at any time, also between two calls of
`read` in one `async_read`. -/
def edgeMachine {σ P X T : Type} (e : Endpoint σ P X T) : Machine (EdgeRun σ P T) (EdgeOp X T) where
  start := ⟨(connMachine e).start, ⟨[], []⟩⟩
  step s
    | .arrive bs => some { s with kernel := { s.kernel with late := s.kernel.late ++ bs } }
    | .read events =>
      (events.foldlM Kernel.event s.kernel).bind fun kernel =>
        ((connMachine e).step s.conn (.read (answers events))).map fun conn => ⟨conn, kernel⟩
    | .other op =>
      match op with
      | .read _ => none
      | op => ((connMachine e).step s.conn op).map fun conn => { s with conn := conn }

theorem kernel_early {events : List KernelEvent} {k k' : Kernel}
    (run : events.foldlM Kernel.event k = some k')
    (last : (answers events).getLast? = some .eagain) : k'.early = [] := by
  induction events using List.reverseRecOn generalizing k' with
  | nil => cases last
  | append_singleton events ev ih =>
    rw [List.foldlM_append] at run
    obtain ⟨j, before, step⟩ := Option.bind_eq_some_iff.mp run
    simp only [List.foldlM_cons, List.foldlM_nil, bind_pure] at step
    cases ev with
    | arrive bs =>
      have empty := ih before (by simpa [answers] using last)
      cases step
      exact empty
    | answer r =>
      have hr : r = .eagain := by simpa [answers] using last
      subst hr
      simp only [Kernel.event, Option.ite_none_right_eq_some, Option.some.injEq] at step
      rw [← step.2]

section

variable {σ P X T : Type} {e : Endpoint σ P X T} {s : EdgeRun σ P T} {c d : ConnRun σ P T}
  {op : ConnOp X T} {early : List UInt8}

/- Where `recv_fn` is suspended or on its way to it, the last `read` has emptied the kernel. -/
structure ConnRun.Calm (c : ConnRun σ P T) (early : List UInt8) : Prop where
  coming : ∀ p, c.ctl = .reading p 0 ∨ c.ctl = .awaiting p 0 → c.conn.closed = false → early = []
  suspended : ∀ p, c.recv = .suspended p → early = []

theorem calm_step (h : c.Calm early) (other : ∀ results, op ≠ .read results)
    (move : ConnMove e c op d) :
    d.Calm early := by
  obtain ⟨coming, suspended⟩ := h
  cases move with
  | spawn => exact ⟨coming, suspended⟩
  | close | hangUp => exact ⟨fun _ _ opened => by simp [Connection.close] at opened, suspended⟩
  | startSend ctl => exact ⟨fun p hp => by simp [ConnRun.sent, ctl] at hp, suspended⟩
  | startRecv => exact ⟨by simp, by simp⟩
  | startCall | writable | readable => exact ⟨by simp, suspended⟩
  | resumeRead | finish => exact ⟨by simp, by simp⟩
  | resumeWrite site run =>
    refine ⟨fun p hp opened => ?_, suspended⟩
    have closed := (afterResume_reading site p 0 hp).1
    have same := (resume_spec run).1
    simp [ConnRun.sent, same, closed] at opened
  | read => exact absurd rfl (other _)
  | proceed ctl opened =>
    refine ⟨fun p hp => coming p (Or.inl ?_), suspended⟩
    simp only [reduceCtorEq, false_or, Ctl.awaiting.injEq] at hp
    rw [ctl, hp.1, hp.2]
  | deleted | received | go => exact ⟨by simp, suspended⟩
  | suspended ctl opened => exact ⟨by simp, fun _ _ => coming _ (Or.inr ctl) opened⟩

/- The steps of the connection, each with what has happened in the kernel. -/
inductive EdgeMove (e : Endpoint σ P X T) (s : EdgeRun σ P T) : EdgeRun σ P T → Prop where
  | arrive (bs : List UInt8) : EdgeMove e s ⟨s.conn, { s.kernel with late := s.kernel.late ++ bs }⟩
  | read {events : List KernelEvent} {kernel : Kernel} {conn : ConnRun σ P T}
      (fed : events.foldlM Kernel.event s.kernel = some kernel)
      (step : (connMachine e).step s.conn (.read (answers events)) = some conn) :
      EdgeMove e s ⟨conn, kernel⟩
  | other {op : ConnOp X T} {conn : ConnRun σ P T} (other : ∀ results, op ≠ .read results)
      (step : (connMachine e).step s.conn op = some conn) : EdgeMove e s ⟨conn, s.kernel⟩

theorem edge_move {op : EdgeOp X T} {t : EdgeRun σ P T} (h : (edgeMachine e).step s op = some t) :
    EdgeMove e s t := by
  cases op with
  | arrive bs =>
    cases h
    exact .arrive bs
  | read events =>
    obtain ⟨kernel, fed, h⟩ := Option.bind_eq_some_iff.mp h
    obtain ⟨conn, step, rfl⟩ := Option.map_eq_some_iff.mp h
    exact .read fed step
  | other op =>
    simp only [edgeMachine] at h
    split at h
    · cases h
    · rename_i other
      obtain ⟨conn, step, rfl⟩ := Option.map_eq_some_iff.mp h
      exact .other (fun results hop => other results hop) step

theorem calm_reach (leaves : e.LeavesRoom) (h : (edgeMachine e).Reach s) :
    (connMachine e).Reach s.conn ∧ s.conn.Calm s.kernel.early := by
  have initial : (connMachine e).Reach (edgeMachine e).start.conn ∧
      (edgeMachine e).start.conn.Calm (edgeMachine e).start.kernel.early :=
    ⟨.start, by simp [edgeMachine, connMachine], by simp [edgeMachine, connMachine]⟩
  refine h.invariant (I := fun s => (connMachine e).Reach s.conn ∧
    s.conn.Calm s.kernel.early) initial ?_
  rintro s op t ⟨reached, calm⟩ hs
  cases edge_move hs with
  | arrive bs => exact ⟨reached, calm⟩
  | other other step => exact ⟨reached.step step, calm_step calm other (conn_move step)⟩
  | read fed step =>
    refine ⟨reached.step step, ?_⟩
    have fits := (placed_reach reached).fits
    cases conn_move step with
    | read ctl waits run =>
      rw [ctl] at fits
      have running : s.conn.recv = .running := fits
      refine ⟨fun p hp opened => ?_, by simp [running]⟩
      simp only [Ctl.reading.injEq, reduceCtorEq, or_false] at hp
      obtain ⟨rfl, rfl⟩ := hp
      exact kernel_early fed (Connection.readAll_empty (roomy_reach leaves reached).room run opened)

end

section

variable {M Req Resp Args R D Msg : Type}

/-- At both ends of an rpc `async_read` returns at the first result that is neither data nor EINTR
or with a full block, appends the data in order, and asks to be suspended only after an EAGAIN
with nothing read before it. Where `recv_fn` is suspended, what the kernel holds has come after
the last `read`. -/
theorem async_read_leaves_nothing_behind (srv : RpcServer M Req Resp)
    (ch : ClientChannel Args R Msg) :
    ((∀ s, (connMachine srv.endpoint).Reach s → s.conn.ReadsSafely) ∧
      ∀ s p, (edgeMachine srv.endpoint).Reach s → s.conn.recv = .suspended p →
      s.kernel.early = []) ∧
    (∀ s, (connMachine (ch.endpoint (D := D))).Reach s → s.conn.ReadsSafely) ∧
      ∀ s p, (edgeMachine (ch.endpoint (D := D))).Reach s → s.conn.recv = .suspended p →
        s.kernel.early = [] := by
  refine ⟨⟨fun s h => ?_, fun s p h => ?_⟩, fun s h => ?_, fun s p h => ?_⟩
  · exact Connection.reads_safely (roomy_reach srv.leavesRoom h).room
  · exact (calm_reach srv.leavesRoom h).2.suspended p
  · exact Connection.reads_safely (roomy_reach ch.leavesRoom h).room
  · exact (calm_reach ch.leavesRoom h).2.suspended p

end

theorem async_read_leaves_nothing_behind_at_late_byte :
    ∃ s, (edgeMachine echoServer.endpoint).Reach s ∧ s.conn.recv = .suspended .headerLen ∧
      s.conn.conn.readBytes = 1 ∧ s.kernel.late = [7] ∧ s.kernel.early = [] ∧
      s.conn.conn.ReadsSafely := by
  obtain ⟨s, hs, suspended, bytes, late⟩ : ∃ s,
      (edgeMachine echoServer.endpoint).run (edgeMachine echoServer.endpoint).start
        [.other (.startSend []), .other .startRecv, .arrive [2],
          .read [.answer (.data [2]), .answer .eagain], .other .proceed, .other .await,
          .read [.answer .eintr, .answer .eagain, .arrive [7]], .other .proceed,
          .other .await] = some s ∧
      s.conn.recv = .suspended .headerLen ∧ s.conn.conn.readBytes = 1 ∧ s.kernel.late = [7] :=
    ⟨_, rfl, rfl, rfl, rfl⟩
  have reached := Machine.reach_run .start hs
  have safe := (async_read_leaves_nothing_behind (D := Unit) echoServer byteClient).1
  exact ⟨s, reached, suspended, bytes, late, safe.2 s _ reached suspended,
    safe.1 _ (calm_reach echoServer.leavesRoom reached).1⟩

/- After data that does not fill the block `async_read` asks again, and again if it is
interrupted. -/
theorem async_read_goes_on_after_data :
    ∃ s, (connMachine echoServer.endpoint).Reach s ∧ s.ctl = .recv .headerLen ∧
    s.conn.closed = false ∧
      ∀ k, s.conn.asyncRead (.data [1] :: List.replicate k .eintr) = none := by
  obtain ⟨s, hs, ctl, opened⟩ : ∃ s, (connMachine echoServer.endpoint).run
      (connMachine echoServer.endpoint).start [.startSend [], .startRecv] = some s ∧
      s.ctl = .recv .headerLen ∧ s.conn = .init := ⟨_, rfl, rfl, rfl⟩
  refine ⟨s, Machine.reach_run .start hs, ctl, by rw [opened]; rfl, fun k => ?_⟩
  have passes : Passes s.conn.readBuf.getBuffer.size (.data [1] :: List.replicate k .eintr) := by
    rw [opened]
    have one : fetched (.data [1] :: List.replicate k .eintr) = [1] := by
      simp [fetched, ReadResult.bytes, List.flatMap_replicate]
    refine ⟨by simp [ReadResult.Again], by simp, ?_⟩
    rw [one]
    decide
  simp only [Connection.asyncRead, Connection.readAll, readLoop_unfinished passes, Option.map_none]

end Xuanqiong
