import Xuanqiong.Net.ResumeWrite
import Xuanqiong.Server.ResumeRead

/-! How a server connection comes to its end once it is closed. `async_read` wakes `send_fn` when it
closes; the hang-up branch of the executor wakes nobody and takes the interest out of epoll, and an
error in what the peer sent ends `recv_fn` without a word to `send_fn`. When both coroutines have
ended, the loop of the executor may still hold the connection, by the last task that it took. -/
namespace Xuanqiong

section

variable {σ P X T : Type}

/-- A closed connection on which a coroutine is suspended and stays so, whatever the thread does
from here on. -/
def ConnRun.Stranded (e : Endpoint σ P X T) (s : ConnRun σ P T) : Prop :=
  s.conn.closed = true ∧
    ((∀ ops t, (connMachine e).run s ops = some t → ∃ p, t.recv = .suspended p) ∨
      ∀ ops t, (connMachine e).run s ops = some t → t.send.Suspended)

/-- A connection with the local `task` of the executor's loop, which holds the connection from the
time its task is taken until the loop takes another one or comes to the end of its turn. -/
structure ServedRun (σ P T : Type) where
  run : ConnRun σ P T
  task : Bool

inductive ServedOp (X T : Type) where
  | conn (op : ConnOp X T)
  | dropTask

def servedMachine (e : Endpoint σ P X T) : Machine (ServedRun σ P T) (ServedOp X T) where
  start := ⟨(connMachine e).start, false⟩
  step s
    | .conn op => ((connMachine e).step s.run op).map fun t => ⟨t, s.task || op.isTask⟩
    | .dropTask =>
      match s.run.ctl, s.task with
      | .idle, true => some { s with task := false }
      | _, _ => none

/- The destructor of the connection closes its fd. -/
def ServedRun.deleted (e : Endpoint σ P X T) (s : ServedRun σ P T) : Bool :=
    s.run.ended e && !s.task

def ServedOp.Meets (ok : ConnRun σ P T → ConnOp X T → Prop) (s : ServedRun σ P T) :
    ServedOp X T → Prop
  | .conn op => ok s.run op
  | .dropTask => True

variable {e : Endpoint σ P X T} {s t : ServedRun σ P T}

theorem dropTask_run (hs : (servedMachine e).step s .dropTask = some t) :
    t.run = s.run ∧ s.task = true ∧ t.task = false := by
  simp only [servedMachine] at hs
  split at hs
  · rename_i held
    cases hs
    exact ⟨rfl, held, rfl⟩
  · cases hs

theorem served_reach {ok : ConnRun σ P T → ConnOp X T → Prop}
    (h : (servedMachine e).ReachWith (ServedOp.Meets ok) s) :
    (connMachine e).ReachWith ok s.run := by
  refine h.invariant (I := fun s => (connMachine e).ReachWith ok s.run) .start ?_
  intro s op t reached meets hs
  cases op with
  | conn op =>
    obtain ⟨r, step, rfl⟩ := Option.map_eq_some_iff.mp hs
    exact reached.next meets step
  | dropTask =>
    rw [(dropTask_run hs).1]
    exact reached

theorem dropTask_step (ctl : s.run.ctl = .idle) (held : s.task = true) :
    (servedMachine e).step s .dropTask = some { s with task := false } := by
  simp only [servedMachine, ctl, held]

end

section

variable {M Req Resp : Type} {srv : RpcServer M Req Resp}
  {s t : ConnRun (List (Call M Req Resp)) (RecvPoint M) Empty}
  {op : ConnOp ((Nat → UInt8) × Resp) Empty}

def EndsOrderly (srv : RpcServer M Req Resp)
    (s : ConnRun (List (Call M Req Resp)) (RecvPoint M) Empty) :
    ConnOp ((Nat → UInt8) × Resp) Empty → Prop
  | .event hup _ _ => hup = false
  | op => ObeysProtocol srv s op

theorem EndsOrderly.obeys (h : EndsOrderly srv s op) : ObeysProtocol srv s op := by
  cases op with
  | step x => exact h
  | _ => trivial

/- How far the end of a closed connection has come when the thread is at a place. -/
def Ctl.Closing {P T : Type} (send : SendFn) (recv : RecvFn P) : Ctl P T → Prop
  | .idle => recv = .finished ∧ send = .finished
  | .writable _ | .readable => False
  | .recv _ | .reading _ _ | .awaiting _ _ | .call _ => True

structure ConnRun.Ending (srv : RpcServer M Req Resp)
    (s : ConnRun (List (Call M Req Resp)) (RecvPoint M) Empty) : Prop where
  unregistered : s.Deregistered srv
  closing : s.conn.closed = true → s.ctl.Closing s.send s.recv

theorem closing_after (h : s.Ending srv) {next : Ctl (RecvPoint M) Empty}
    (site : s.afterResume srv.endpoint = some next) (closed : s.conn.closed = true)
    (send : SendFn) :
    next.Closing send s.recv := by
  have closing := h.closing closed
  unfold ConnRun.afterResume at site
  split at site
  · rw [if_pos closed] at site
    cases site
    trivial
  · obtain ⟨q, _, rfl⟩ := Option.map_eq_some_iff.mp site
    trivial
  · rename_i readable ctl
    rw [ctl] at closing
    exact closing.elim
  · rename_i request _
    exact request.elim
  · cases site
  · cases site
  · cases site

theorem ConnRun.Ending.no_event (h : s.Ending srv) (closed : s.conn.closed = true)
    (ctl : s.ctl = .idle) :
    s.interest = none := by
  have closing := h.closing closed
  rw [ctl] at closing
  exact h.unregistered.finished closing.1

theorem ending_step (h : s.Ending srv) (orderly : EndsOrderly srv s op)
    (move : ConnMove srv.endpoint s op t) : t.Ending srv := by
  refine ⟨deregistered_step h.unregistered orderly.obeys move, ?_⟩
  have placed := h.unregistered.alone.placed
  intro closed
  cases move with
  | @spawn request => exact request.elim
  | close owned => cases owned
  | startSend ctl queue run =>
    have before : s.conn.closed = true := (sendLoop_spec run).1.symm.trans closed
    exact absurd (placed.send_of_queue queue).1 (placed.parked before rfl).1
  | startRecv ctl queue => trivial
  | @startCall _ request => exact request.elim
  | hangUp => cases orderly
  | writable ctl interest | readable ctl interest =>
    cases (h.no_event closed ctl).symm.trans interest
  | resumeRead => trivial
  | resumeWrite site run => exact closing_after h site ((resume_spec run).1.symm.trans closed) _
  | read | proceed | deleted | received | go => trivial
  | suspended ctl opened => cases opened.symm.trans closed
  | finish ctl waits run finished =>
    refine ⟨rfl, ?_⟩
    by_cases before : s.conn.closed = true
    · exact h.unregistered.alone.sent before _ (Or.inl ctl)
    · -- on an open connection the end of `recv_fn` is an error of the peer
      have opened := Bool.eq_false_iff.mpr before
      obtain ⟨r, hr, hd⟩ := Option.map_eq_some_iff.mp run
      cases hd
      exact absurd ((RpcServer.recvStep_finished opened waits hr).mp finished)
        (orderly _ ctl opened)

theorem ending_reach (h : (connMachine srv.endpoint).ReachWith (EndsOrderly srv) s) :
    s.Ending srv := by
  refine h.invariant ⟨deregistered_reach .start, fun closed => by cases closed⟩ ?_
  intro s op t hs orderly step
  exact ending_step hs orderly (conn_move step)

theorem ConnRun.Placed.send_suspended (h : s.Placed srv.endpoint) (started : s.recv ≠ .created)
    (alive : s.send ≠ .finished) : s.send.Suspended := by
  have created := h.ready started
  cases hs : s.send with
  | created => exact absurd hs created
  | waitWrite => exact Or.inl rfl
  | write => exact Or.inr rfl
  | finished => exact absurd hs alive

theorem ConnRun.Ending.not_stranded (h : s.Ending srv) : ¬ s.Stranded srv.endpoint := by
  rintro ⟨closed, stays⟩
  have closing := h.closing closed
  have fits := h.unregistered.alone.placed.fits
  have here : (connMachine srv.endpoint).run s [] = some s := rfl
  rcases stays with recv | send
  · obtain ⟨p, hp⟩ := recv [] s here
    cases ctl : s.ctl with
    | idle =>
      rw [ctl] at closing
      cases hp.symm.trans closing.1
    | recv | reading | awaiting =>
      rw [ctl] at fits
      cases hp.symm.trans fits
    | writable | readable =>
      rw [ctl] at closing
      exact closing
    | call request => exact request.elim
  · have suspended := send [] s here
    have alive : s.send ≠ .finished := by rcases suspended with hs | hs <;> simp [hs]
    cases ctl : s.ctl with
    | idle =>
      rw [ctl] at closing
      exact alive closing.2
    | recv p => exact alive (h.unregistered.alone.sent closed p (Or.inl ctl))
    | awaiting p n => exact alive (h.unregistered.alone.sent closed p (Or.inr ⟨n, ctl⟩))
    | reading p n =>
      obtain ⟨rounds, run⟩ := resume_ends suspended closed
      have site : s.afterResume srv.endpoint = some (.awaiting p n) := by
        simp [ConnRun.afterResume, ctl, closed]
      have step : (connMachine srv.endpoint).run s [.resumeWrite rounds] =
          some { s.sent (s.conn, .finished) with ctl := .awaiting p n } := by
        simp [Machine.run, connMachine, site, run]
      have after : (SendFn.finished).Suspended := send _ _ step
      simp [SendFn.Suspended] at after
    | writable | readable =>
      rw [ctl] at closing
      exact closing
    | call request => exact request.elim

theorem ConnRun.Placed.no_tasks (h : s.Placed srv.endpoint) (started : s.recv ≠ .created) :
    s.queue = [] := by
  cases h.queued with
  | fresh requests hs hr hq => exact absurd hr started
  | sending requests hs hr hq => exact absurd hr started
  | started requests hs hr hq =>
    cases requests with
    | nil => exact hq
    | cons request rest => exact request.elim

theorem unregistered_rests (idle : s.ctl = .idle) (noTasks : s.queue = [])
    (gone : s.interest = none) (move : ConnMove srv.endpoint s op t) : False := by
  cases move with
  | @spawn request => exact request.elim
  | close owned => cases owned
  | startSend ctl queue | startRecv ctl queue => cases noTasks.symm.trans queue
  | @startCall _ request => exact request.elim
  | hangUp ctl interest | writable ctl interest | readable ctl interest =>
    cases gone.symm.trans interest
  | resumeRead ctl | read ctl | proceed ctl | deleted ctl | suspended ctl | received ctl
  | finish ctl
  | go ctl => cases idle.symm.trans ctl
  | resumeWrite site => simp [ConnRun.afterResume, idle] at site

/- `recv_fn` is suspended on a connection that is not registered. -/
structure ConnRun.Hung (s : ConnRun (List (Call M Req Resp)) (RecvPoint M) Empty) : Prop where
  suspended : ∃ p, s.recv = .suspended p
  queue : s.queue = []
  ctl : s.ctl = .idle
  interest : s.interest = none

/- `send_fn` is left when `recv_fn` has ended: there is nothing to report to it, or the thread
is before the resume of a coroutine that is gone. -/
structure ConnRun.Left (s : ConnRun (List (Call M Req Resp)) (RecvPoint M) Empty) : Prop where
  suspended : s.send.Suspended
  recv : s.recv = .finished
  queue : s.queue = []
  ctl : s.ctl = .readable ∨ s.ctl = .idle ∧ s.interest ≠ some .readWrite

theorem left_step (h : s.Left) (move : ConnMove srv.endpoint s op t) : t.Left := by
  have place := h.ctl
  cases move with
  | @spawn request => exact request.elim
  | close owned => cases owned
  | startSend ctl queue | startRecv ctl queue => cases h.queue.symm.trans queue
  | @startCall _ request => exact request.elim
  | hangUp ctl => exact ⟨h.suspended, h.recv, h.queue, Or.inr ⟨ctl, by simp⟩⟩
  | writable ctl interest => simp [ctl, interest] at place
  | readable => exact ⟨h.suspended, h.recv, h.queue, Or.inl rfl⟩
  | resumeRead ctl recv => cases h.recv.symm.trans recv
  | read ctl | proceed ctl | deleted ctl | suspended ctl | received ctl | finish ctl | go ctl =>
    simp [ctl] at place
  | resumeWrite site =>
    rcases place with ctl | ⟨ctl, _⟩ <;> simp [ConnRun.afterResume, ctl] at site

theorem ConnRun.Hung.stranded (h : s.Hung) (closed : s.conn.closed = true) :
    s.Stranded srv.endpoint := by
  refine ⟨closed, Or.inl fun ops t run => ?_⟩
  have hung := Machine.run_invariant (I := ConnRun.Hung)
    (fun s op t hs step => (unregistered_rests hs.ctl hs.queue hs.interest (conn_move step)).elim) h
      run
  exact hung.suspended

theorem ConnRun.Left.stranded (h : s.Left) (closed : s.conn.closed = true) :
    s.Stranded srv.endpoint := by
  refine ⟨closed, Or.inr fun ops t run => ?_⟩
  have left := Machine.run_invariant (I := ConnRun.Left)
    (fun s op t hs step => left_step hs (conn_move step)) h run
  exact left.suspended

theorem hang_up_strands (h : s.Placed srv.endpoint) {out readable : Bool}
    (hs : (connMachine srv.endpoint).step s (.event true out readable) = some t) :
    t.Stranded srv.endpoint := by
  have held : s.ended srv.endpoint = false := by
    by_contra ended
    simp only [connMachine, ConnRun.event, Bool.not_eq_false] at hs ended
    split at hs
    · rw [ended] at hs
      cases hs
    · cases hs
  cases conn_move hs with
  | hangUp ctl interest =>
    have started : s.recv ≠ .created := fun hr => by simp [h.unregistered hr] at interest
    have running : s.recv ≠ .running := by
      have fits := h.fits
      rw [ctl] at fits
      exact fits
    have queue := h.no_tasks started
    cases hr : s.recv with
    | created => exact absurd hr started
    | running => exact absurd hr running
    | suspended p => exact ConnRun.Hung.stranded ⟨⟨p, rfl⟩, queue, ctl, rfl⟩ rfl
    | finished =>
      have alive : s.send ≠ .finished := fun hs => by
        simp [ConnRun.ended, RpcServer.endpoint, hs, hr] at held
      have suspended := h.send_suspended started alive
      exact ConnRun.Left.stranded ⟨suspended, rfl, queue, Or.inr ⟨ctl, by simp⟩⟩ rfl

theorem protocol_error_strands (h : s.Placed srv.endpoint) {p : RecvPoint M} (ctl : s.ctl = .recv p)
    (opened : s.conn.closed = false) (error : srv.ProtocolError s.conn p) {x : (Nat → UInt8) × Resp}
    (hs : (connMachine srv.endpoint).step s (.step x) = some t) :
    ∃ u, (connMachine srv.endpoint).step t (.event false false true) = some u ∧
      u.Stranded srv.endpoint := by
  have started : s.recv ≠ .created := by
    have fits := h.fits
    rw [ctl] at fits
    rw [fits]
    simp
  have alive := h.opened opened
  obtain ⟨i, interest⟩ := Option.ne_none_iff_exists'.mp (h.registered opened started)
  cases conn_move hs with
  | finish ctl' waits run finished =>
    have held : ({ s with recv := .finished } : ConnRun _ _ _).ended srv.endpoint = false := by
      simp [ConnRun.ended, alive]
    have closed := srv.endpoint.step_closed run
    rw [finished, Bool.or_true] at closed
    refine ⟨_, event_readable rfl interest held, ConnRun.Left.stranded ?_ closed⟩
    exact ⟨h.send_suspended started alive, rfl, h.no_tasks started, Or.inl rfl⟩
  | go ctl' waits run finished =>
    cases ctl.symm.trans ctl'
    obtain ⟨r, hr, hd⟩ := Option.map_eq_some_iff.mp run
    cases hd
    have ends := (RpcServer.recvStep_finished opened waits hr).mpr error
    cases ends.symm.trans finished

/-- A closed connection on its way to its end, with bytes with which `recv_fn` leaves its loop. -/
structure ConnRun.Draining (srv : RpcServer M Req Resp) (received : List UInt8)
    (s : ConnRun (List (Call M Req Resp)) (RecvPoint M) Empty) : Prop where
  ending : s.Ending srv
  closed : s.conn.closed = true
  waking : ∀ p n, s.ctl = .reading p n → s.send.Suspended
  drains : ∀ p, s.ctl.point = some p → srv.Drains received (s.ctl.settle s.conn) p

/- The steps that are left to `recv_fn`. -/
def ConnRun.left (s : ConnRun (List (Call M Req Resp)) (RecvPoint M) Empty) : Nat :=
  match s.ctl with
  | .reading p n => remaining (s.conn.recvAdd n) p + 3
  | .awaiting p n => remaining (s.conn.recvAdd n) p + 2
  | .recv p => remaining s.conn p + 1
  | .idle | .writable _ | .readable | .call _ => 0

variable {received : List UInt8}

theorem ConnRun.Draining.orderly (h : s.Draining srv received)
    (move : ConnMove srv.endpoint s op t) :
    EndsOrderly srv s op := by
  cases op with
  | event hup out readable =>
    cases move with
    | hangUp ctl interest => cases (h.ending.no_event h.closed ctl).symm.trans interest
    | writable | readable => rfl
  | step x => exact fun p _ opened => by cases h.closed.symm.trans opened
  | _ => trivial

theorem ConnRun.Draining.here (h : s.Draining srv received) {p : RecvPoint M}
    {ctl : Ctl (RecvPoint M) Empty} (at_ : s.ctl = ctl) (point : ctl.point = some p) :
    srv.Drains received (ctl.settle s.conn) p := by
  subst at_
  exact h.drains p point

theorem ConnRun.Draining.site (h : s.Draining srv received) {next : Ctl (RecvPoint M) Empty}
    (site : s.afterResume srv.endpoint = some next) :
    ∃ p n, s.ctl = .reading p n ∧ next = .awaiting p n := by
  have place := h.ending.closing h.closed
  unfold ConnRun.afterResume at site
  split at site
  · rename_i p n ctl
    rw [if_pos h.closed] at site
    cases site
    exact ⟨p, n, ctl, rfl⟩
  · rename_i p ctl
    have silent := (h.here ctl rfl).silent
    obtain ⟨q, replies, _⟩ := Option.map_eq_some_iff.mp site
    cases p with
    | reply => exact absurd rfl silent
    | headerLen | header | requestLen | request | done => cases replies
  · rename_i ctl
    rw [ctl] at place
    exact place.elim
  · rename_i request _
    exact request.elim
  · cases site
  · cases site
  · cases site

theorem draining_step (h : s.Draining srv received) (move : ConnMove srv.endpoint s op t) :
    t.Draining srv received ∧ t.left < s.left ∧ op.isTask = false := by
  have after := ending_step h.ending (h.orderly move) move
  have placed := h.ending.unregistered.alone.placed
  have closed := h.closed
  cases move with
  | @spawn request => exact request.elim
  | close owned => cases owned
  | startSend ctl queue => exact absurd (placed.send_of_queue queue).1 (placed.parked closed rfl).1
  | startRecv ctl queue =>
    exact absurd (placed.recv_of_queue queue).2.1 (placed.parked closed rfl).1
  | @startCall _ request => exact request.elim
  | hangUp ctl interest | writable ctl interest | readable ctl interest =>
    cases (h.ending.no_event closed ctl).symm.trans interest
  | resumeRead ctl =>
    have closing := h.ending.closing closed
    rw [ctl] at closing
    exact closing.elim
  | resumeWrite site run =>
    obtain ⟨p, n, ctl, rfl⟩ := h.site site
    have still := (resume_spec run).1.trans closed
    have input := resume_readBuf run
    refine ⟨⟨after, still, by simp, ?_⟩, ?_, rfl⟩
    · rintro _ ⟨⟩
      exact (h.here ctl rfl).same still
        (by simp only [Ctl.settle, Connection.recvAdd, ConnRun.sent, input])
    · simp only [ConnRun.left, ConnRun.sent, ctl, remaining, Connection.readBytes,
        Connection.recvAdd, input]
      omega
  | read ctl waits =>
    cases waits.symm.trans (h.here ctl rfl).goes
  | proceed ctl opened | suspended ctl opened | received ctl opened =>
    cases opened.symm.trans closed
  | deleted ctl =>
    refine ⟨⟨after, closed, by simp, ?_⟩, ?_, rfl⟩
    · rintro p ⟨⟩
      exact h.here ctl rfl
    · simp only [ConnRun.left, ctl]
      omega
  | finish ctl waits run finished =>
    obtain ⟨r, hr, hd⟩ := Option.map_eq_some_iff.mp run
    cases hd
    have drains := ((h.here ctl rfl).next hr).1
    refine ⟨⟨after, drains.closed, by simp, ?_⟩, ?_, rfl⟩
    · rintro p ⟨⟩
    · simp only [ConnRun.left, ctl]
      omega
  | go ctl waits run finished =>
    obtain ⟨r, hr, hd⟩ := Option.map_eq_some_iff.mp run
    cases hd
    obtain ⟨drains, less⟩ := (h.here ctl rfl).next hr
    refine ⟨⟨after, drains.closed, by simp, ?_⟩, ?_, rfl⟩
    · rintro p ⟨⟩
      exact drains
    · simp only [ConnRun.left, ctl]
      exact Nat.add_lt_add_right less 1

theorem ConnRun.Draining.goes [Inhabited Resp] (h : s.Draining srv received) :
    s.ctl = .idle ∧ s.ended srv.endpoint = true ∨
    ∃ op t, (connMachine srv.endpoint).step s op = some t := by
  have closing := h.ending.closing h.closed
  cases ctl : s.ctl with
  | idle =>
    rw [ctl] at closing
    exact Or.inl ⟨rfl, by simp [ConnRun.ended, RpcServer.endpoint, closing.1, closing.2]⟩
  | reading p n =>
    obtain ⟨rounds, run⟩ := resume_ends (h.waking p n ctl) h.closed
    have site : s.afterResume srv.endpoint = some (.awaiting p n) := by
      simp [ConnRun.afterResume, ctl, h.closed]
    exact Or.inr ⟨.resumeWrite rounds,
      _, by simp only [connMachine, site, run, Option.bind_some]; rfl⟩
  | awaiting p n => exact Or.inr ⟨.await, s.await p n, by simp only [connMachine, ctl]⟩
  | recv p =>
    have drains := h.here ctl rfl
    have running := h.ending.unregistered.alone.inLoop p (Or.inl (by rw [ctl]; rfl))
    obtain ⟨d, q, run⟩ :=
      recvStep_leaves drains.readInv drains.small drains.goes running drains.leaves
      (fun _ => 0) default
    exact Or.inr ⟨.step (fun _ => 0, default), _, server_step ctl drains.goes drains.silent run⟩
  | writable | readable =>
    rw [ctl] at closing
    exact closing.elim
  | call request => exact request.elim

/- Whatever the thread does from here on, it is done after finitely many steps, and the connection
is deleted then. -/
def ServedRun.Released {σ P X T : Type} (e : Endpoint σ P X T) (s : ServedRun σ P T) : Prop :=
  (servedMachine e).Halts (fun _ => true) (fun s op => ((servedMachine e).step s op).isSome)
    (fun s => s.deleted e = true) s

theorem draining_released [Inhabited Resp]
    {s : ServedRun (List (Call M Req Resp)) (RecvPoint M) Empty} (h : s.run.Draining srv received) :
    s.Released srv.endpoint := by
  refine Machine.halts_of_measure (I := fun s => s.run.Draining srv received)
    (fun s => s.run.left + s.task.toNat) ?_ ?_ ?_ h
  · intro s op t hs step
    cases op with
    | conn op =>
      obtain ⟨r, run, rfl⟩ := Option.map_eq_some_iff.mp step
      exact (draining_step hs (conn_move run)).1
    | dropTask => exact (dropTask_run step).1 ▸ hs
  · intro s op t hs step
    cases op with
    | conn op =>
      obtain ⟨r, run, rfl⟩ := Option.map_eq_some_iff.mp step
      obtain ⟨_, less, other⟩ := draining_step hs (conn_move run)
      simp only [other, Bool.or_false, if_true]
      omega
    | dropTask =>
      obtain ⟨same, held, dropped⟩ := dropTask_run step
      simp [same, held, dropped, Nat.add_comm]
  · intro s hs
    rcases hs.goes with ⟨ctl, ended⟩ | ⟨op, t, step⟩
    · cases task : s.task with
      | false => exact Or.inl (by simp [ServedRun.deleted, ended, task])
      | true =>
        exact Or.inr ⟨⟨.dropTask, by simp [dropTask_step ctl task]⟩,
          fun _ => Option.isSome_iff_exists.mp⟩
    · refine Or.inr ⟨⟨.conn op, ?_⟩, fun _ => Option.isSome_iff_exists.mp⟩
      simp [servedMachine, step]

theorem draining_reach {s : ConnRun (List (Call M Req Resp)) (RecvPoint M) Empty}
    (h : (connMachine srv.endpoint).ReachWith
      (fun s op => EndsOrderly srv s op ∧ s.Bounded ∧ ClosesDrained srv s op) s)
    (closed : s.conn.closed = true) (bounded : s.Bounded)
    (drains : ∀ p, s.ctl.point = some p →
      PrefixesWhole (s.ctl.settle s.conn).readBuf.consumedBytes
        (s.ctl.settle s.conn).readBuf.unread p ∧
        srv.LeavesWith (s.ctl.settle s.conn).readBuf.unread p) :
    ∃ received, s.Draining srv received := by
  have drained := h.mono (fun _ op ok => And.intro (fun _ : op.isEvent = false => ok.2.1) ok.2.2)
  obtain ⟨received, buffers⟩ := (quiet_reach drained).2
  refine ⟨received, ending_reach (h.mono fun _ _ ok => ok.1), closed, ?_, ?_⟩
  · intro p n ctl
    have knows := (server_disciplined drained).knows
    have fits := buffers.placed.fits
    rw [ctl] at knows fits
    exact buffers.placed.send_suspended (fits ▸ by simp) knows
  · intro p hp
    obtain ⟨whole, leaves⟩ := drains p hp
    refine ⟨⟨?_, buffers.readInv, bounded, whole⟩, leaves⟩
    rw [settle_closed]
    exact closed

/-- As long as the peer does not hang up and makes no protocol error on an open connection, no
coroutine is left suspended on a closed connection: when the thread is back in its loop both have
ended, and the connection is deleted as soon as the loop drops its task. The first hang-up strands a
coroutine, and so does the first EPOLLIN after such an error. And the thread does come back: with
fewer than 2³¹ bytes buffered, and those that are there when the connection is closed making
`recv_fn` leave its loop, the connection is deleted after finitely many steps. -/
theorem server_teardown_completes [Inhabited Resp] (srv : RpcServer M Req Resp) :
    (∀ s, (servedMachine srv.endpoint).ReachWith (ServedOp.Meets (EndsOrderly srv)) s →
      ¬ s.run.Stranded srv.endpoint ∧
      (s.run.conn.closed = true → s.run.ctl = .idle →
        s.run.recv = .finished ∧ s.run.send = .finished ∧
        (s.deleted srv.endpoint = true ∨
          ∃ t, (servedMachine srv.endpoint).step s .dropTask = some t ∧
          t.deleted srv.endpoint = true)) ∧
      (∀ out readable t, (connMachine srv.endpoint).step s.run (.event true out readable) = some t →
        t.Stranded srv.endpoint) ∧
      ∀ p x t, s.run.ctl = .recv p → s.run.conn.closed = false → srv.ProtocolError s.run.conn p →
        (connMachine srv.endpoint).step s.run (.step x) = some t →
        ∃ u, (connMachine srv.endpoint).step t (.event false false true) = some u ∧
          u.Stranded srv.endpoint) ∧
    ∀ s, (servedMachine srv.endpoint).ReachWith (ServedOp.Meets fun s op =>
        EndsOrderly srv s op ∧ s.Bounded ∧ ClosesDrained srv s op) s →
      s.run.conn.closed = true → s.run.Bounded →
      (∀ p, s.run.ctl.point = some p →
        PrefixesWhole (s.run.ctl.settle s.run.conn).readBuf.consumedBytes
          (s.run.ctl.settle s.run.conn).readBuf.unread p ∧
        srv.LeavesWith (s.run.ctl.settle s.run.conn).readBuf.unread p) →
      s.Released srv.endpoint := by
  constructor
  · intro s h
    have inv := ending_reach (served_reach h)
    refine ⟨inv.not_stranded, ?_, ?_, ?_⟩
    · intro closed ctl
      have closing := inv.closing closed
      rw [ctl] at closing
      have ended : s.run.ended srv.endpoint = true := by
        simp [ConnRun.ended, RpcServer.endpoint, closing.1, closing.2]
      refine ⟨closing.1, closing.2, ?_⟩
      cases task : s.task with
      | false => exact Or.inl (by simp [ServedRun.deleted, ended, task])
      | true => exact Or.inr ⟨_, dropTask_step ctl task, by simp [ServedRun.deleted, ended]⟩
    · intro out readable t hs
      exact hang_up_strands inv.unregistered.alone.placed hs
    · intro p x t ctl opened error hs
      exact protocol_error_strands inv.unregistered.alone.placed ctl opened error hs
  · intro s h closed bounded drains
    obtain ⟨received, draining⟩ := draining_reach (served_reach h) closed bounded drains
    exact draining_released draining

end

/- No hang-up, and no step of `recv_fn` on an open connection. -/
def Gentle {σ P X T : Type} (s : ConnRun σ P T) : ConnOp X T → Bool
  | .event hup _ _ => !hup
  | .step _ => s.conn.closed
  | _ => true

theorem ends_orderly_of_gentle {M Req Resp : Type} (srv : RpcServer M Req Resp)
    {s : ConnRun (List (Call M Req Resp)) (RecvPoint M) Empty}
    {op : ConnOp ((Nat → UInt8) × Resp) Empty} (gentle : Gentle s op = true) :
    EndsOrderly srv s op := by
  cases op with
  | event hup out readable =>
    cases hup
    · rfl
    · cases gentle
  | step x =>
    intro p _ opened
    cases gentle.symm.trans opened
  | _ => trivial

instance {σ P X T : Type} (ok : ConnRun σ P T → ConnOp X T → Prop) [∀ s op, Decidable (ok s op)]
    (s : ServedRun σ P T) : ∀ op, Decidable (ServedOp.Meets ok s op)
  | .conn op => inferInstanceAs (Decidable (ok s.run op))
  | .dropTask => inferInstanceAs (Decidable True)

theorem ServedOp.Meets.mono {σ P X T : Type} {ok ok' : ConnRun σ P T → ConnOp X T → Prop}
    (weaker : ∀ s op, ok s op → ok' s op) (s : ServedRun σ P T) (op : ServedOp X T)
    (h : ServedOp.Meets ok s op) : ServedOp.Meets ok' s op := by
  cases op with
  | conn op => exact weaker s.run op h
  | dropTask => trivial

/- Two bytes come with the end of the stream, on a later turn of the loop; and the end alone
on the first. -/
def lateEnd : List (ServedOp ((Nat → UInt8) × List UInt8) Empty) :=
  [.conn (.startSend []), .conn .startRecv, .conn (.read [.eagain]), .conn .proceed, .conn .await,
    .dropTask, .conn (.event false false true), .conn .resumeRead,
    .conn (.read [.data [2, 0], .eof])]

def earlyEnd : List (ServedOp ((Nat → UInt8) × List UInt8) Empty) :=
  [.conn (.startSend []), .conn .startRecv, .conn (.read [.eof]), .conn (.resumeWrite [[]]),
    .conn .await, .conn (.step (fun _ => 0, []))]

theorem server_teardown_completes_at_eof :
    (∃ s, (servedMachine echoServer.endpoint).run
      (servedMachine echoServer.endpoint).start lateEnd = some s ∧
      s.run.conn.closed = true ∧ s.run.ctl = .reading .headerLen 2 ∧
      ¬ s.run.Stranded echoServer.endpoint ∧
      s.Released echoServer.endpoint) ∧
    ∃ s, (servedMachine echoServer.endpoint).run
      (servedMachine echoServer.endpoint).start earlyEnd = some s ∧
      s.run.recv = .finished ∧ s.run.send = .finished ∧ s.deleted echoServer.endpoint = false ∧
      ∃ t, (servedMachine echoServer.endpoint).step s .dropTask = some t ∧
        t.deleted echoServer.endpoint = true := by
  have parts := server_teardown_completes echoServer
  constructor
  · obtain ⟨s, hs, closed, ctl, few⟩ : ∃ s,
        (servedMachine echoServer.endpoint).run
          (servedMachine echoServer.endpoint).start lateEnd = some s ∧
        s.run.conn.closed = true ∧ s.run.ctl = .reading .headerLen 2 ∧
        (s.run.ctl.settle s.run.conn).readBuf.unread = [2, 0] ∧ s.run.Bounded :=
      ⟨_, rfl, rfl, rfl, rfl, by decide +kernel⟩
    have along : (servedMachine echoServer.endpoint).Along
        (ServedOp.Meets fun s op => Gentle s op = true ∧ s.Bounded ∧ AwaitsOpen s op = true)
        (servedMachine echoServer.endpoint).start lateEnd := by decide +kernel
    have reached := Machine.reachWith_run .start along hs
    have orderly :=
      reached.mono (ServedOp.Meets.mono fun _ _ ok => ends_orderly_of_gentle echoServer ok.1)
    have drained := reached.mono (ServedOp.Meets.mono fun _ _ ok =>
      And.intro (ends_orderly_of_gentle echoServer ok.1)
        (And.intro ok.2.1 (closes_drained_of_open echoServer ok.2.2)))
    refine ⟨s, hs, closed, ctl, (parts.1 s orderly).1, parts.2 s drained closed few.2 ?_⟩
    intro p hp
    rw [ctl] at hp
    cases hp
    rw [few.1]
    exact ⟨by simp [PrefixesWhole], Or.inl (by simp)⟩
  · obtain ⟨s, hs, closed, ctl, kept⟩ : ∃ s,
        (servedMachine echoServer.endpoint).run
          (servedMachine echoServer.endpoint).start earlyEnd = some s ∧
        s.run.conn.closed = true ∧ s.run.ctl = .idle ∧ s.deleted echoServer.endpoint = false :=
      ⟨_, rfl, rfl, rfl, rfl⟩
    have along : (servedMachine echoServer.endpoint).Along
        (ServedOp.Meets fun s op => Gentle s op = true)
        (servedMachine echoServer.endpoint).start earlyEnd := by decide +kernel
    have orderly := (Machine.reachWith_run .start along hs).mono
      (ServedOp.Meets.mono fun _ _ ok => ends_orderly_of_gentle echoServer ok)
    obtain ⟨recv, send, dropped⟩ := (parts.1 s orderly).2.1 closed ctl
    exact ⟨s, hs, recv, send, kept, dropped.resolve_left (by simp [kept])⟩

/-- A hang-up while both coroutines are suspended; a header with the wrong magic number while
`send_fn` waits for output, and while it waits for EPOLLOUT, where the next EPOLLIN is for a
`recv_fn` that is gone; and the end of the stream on the first turn, where the loop goes into its
wait with the connection in its `task`. -/
theorem server_teardown_strands :
    (∃ s, (connMachine echoServer.endpoint).run (connMachine echoServer.endpoint).start
        [.startSend [], .startRecv, .read [.eagain], .proceed, .await, .event true false false] =
          some s ∧
      s.Stranded echoServer.endpoint ∧ s.recv = .suspended .headerLen ∧ s.send = .waitWrite) ∧
    (∃ s, (connMachine echoServer.endpoint).run (connMachine echoServer.endpoint).start
        [.startSend [], .startRecv, .read [.data [2, 0, 0, 0, 0, 7], .eagain], .proceed, .await,
          .step (fun _ => 0, []), .step (fun _ => 0, [])] = some s ∧
      s.Stranded echoServer.endpoint ∧ s.recv = .finished ∧ s.send = .waitWrite) ∧
    (∃ s, (connMachine echoServer.endpoint).run (connMachine echoServer.endpoint).start
        [.startSend [], .startRecv,
          .read [.data [2, 0, 0, 0, 1, 7, 1, 0, 0, 0, 9, 2, 0, 0, 0, 0, 7], .eagain],
          .proceed, .await, .step (fun _ => 0, [5]), .step (fun _ => 0, [5]),
          .step (fun _ => 0, [5]), .step (fun _ => 0, [5]), .resumeWrite [[.eagain]],
          .step (fun _ => 0, []), .step (fun _ => 0, []), .event false false true] = some s ∧
      s.Stranded echoServer.endpoint ∧ s.ctl = .readable ∧ s.recv = .finished ∧ s.send = .write) ∧
    ∃ s, (servedMachine echoServer.endpoint).run
      (servedMachine echoServer.endpoint).start earlyEnd = some s ∧
      s.run.conn.closed = true ∧ s.run.ended echoServer.endpoint = true ∧
      s.deleted echoServer.endpoint = false ∧
      ∀ op t, (servedMachine echoServer.endpoint).step s op = some t → op = .dropTask := by
  refine ⟨?_, ?_, ?_, ?_⟩
  · exact ⟨_, rfl, ConnRun.Hung.stranded ⟨⟨_, rfl⟩, rfl, rfl, rfl⟩ rfl, rfl, rfl⟩
  · exact ⟨_, rfl, ConnRun.Left.stranded
      ⟨Or.inl rfl, rfl, rfl, Or.inr ⟨rfl, by decide⟩⟩ rfl, rfl, rfl⟩
  · exact ⟨_, rfl, ConnRun.Left.stranded ⟨Or.inr rfl, rfl, rfl, Or.inl rfl⟩ rfl, rfl, rfl, rfl⟩
  · obtain ⟨s, hs, closed, ended, kept, ctl, queue, interest⟩ : ∃ s,
        (servedMachine echoServer.endpoint).run
          (servedMachine echoServer.endpoint).start earlyEnd = some s ∧
        s.run.conn.closed = true ∧ s.run.ended echoServer.endpoint = true ∧
        s.deleted echoServer.endpoint = false ∧ s.run.ctl = .idle ∧ s.run.queue = [] ∧
        s.run.interest = none := ⟨_, rfl, rfl, rfl, rfl, rfl, rfl, rfl⟩
    refine ⟨s, hs, closed, ended, kept, fun op t step => ?_⟩
    cases op with
    | dropTask => rfl
    | conn op =>
      obtain ⟨r, run, _⟩ := Option.map_eq_some_iff.mp step
      exact (unregistered_rests ctl queue interest (conn_move run)).elim

end Xuanqiong
