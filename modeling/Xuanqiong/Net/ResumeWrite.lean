import Xuanqiong.Client.RecvFn
import Xuanqiong.Server.LeftBytes

/-! Who calls `resume_write`, and when. `send_fn` ends as soon as it is resumed on a closed
connection, so nobody may call it after that; `recv_fn` goes on with what it has read. -/
namespace Xuanqiong

section

variable {σ P X T : Type} {e : Endpoint σ P X T} {s t : ConnRun σ P T} {op : ConnOp X T}

def Endpoint.Goes (e : Endpoint σ P X T) (a b : σ × Connection × P) : Prop :=
  ∃ x, e.step x a.1 a.2.1 a.2.2 = some b

/-- From here on `recv_fn` comes to no loop that wants more bytes and to no `resume_write`: the
bytes it has take it to its end. -/
def Endpoint.Quiet (e : Endpoint σ P X T) (a : σ × Connection × P) : Prop :=
  ∀ b, Relation.ReflTransGen e.Goes a b → e.waits b.2.1 b.2.2 = false ∧ e.replies b.2.2 = none

theorem Endpoint.Quiet.rests {a : σ × Connection × P} (h : e.Quiet a) :
    e.waits a.2.1 a.2.2 = false ∧ e.replies a.2.2 = none := h a .refl

theorem Endpoint.Quiet.next {a b : σ × Connection × P} (h : e.Quiet a) (go : e.Goes a b) :
    e.Quiet b :=
  fun c run => h c (.head go run)

theorem quiet_of_closed (waits : ∀ c p, c.closed = true → e.waits c p = false)
    (replies : ∀ p, e.replies p = none) {a : σ × Connection × P} (closed : a.2.1.closed = true) :
    e.Quiet a := by
  intro b run
  have still : b.2.1.closed = true := by
    induction run with
    | refl => exact closed
    | tail _ go ih =>
      obtain ⟨x, hx⟩ := go
      rw [e.step_closed hx, ih, Bool.true_or]
  exact ⟨waits _ _ still, replies _⟩

/- When `recv_fn` goes on after an `async_read` that found the connection closed, what it has
read takes it to its end. -/
def ClosesQuietly (e : Endpoint σ P X T) (s : ConnRun σ P T) : ConnOp X T → Prop
  | .await => ∀ p n, s.ctl = .awaiting p n → s.conn.closed = true →
      e.Quiet (s.app, s.conn.recvAdd n, p)
  | _ => True

/- The connection is open when a task of `CallMethod` starts and when it calls `resume_write`. -/
def CallsOpen (s : ConnRun σ P T) : ConnOp X T → Prop
  | .startCall _ => ∀ request rest, s.queue = .call request :: rest → s.conn.closed = false
  | .resumeWrite _ => ∀ request, s.ctl = .call request → s.conn.closed = false
  | _ => True

/- What the thread does says what it may still ask of `send_fn`. -/
def Ctl.Knows (e : Endpoint σ P X T) (s : ConnRun σ P T) : Ctl P T → Prop
  | .recv p => s.conn.closed = true → e.Quiet (s.app, s.conn, p)
  | .reading _ _ | .call _ => s.send ≠ .finished
  | .writable _ => s.send ≠ .finished ∧ s.interest ≠ some .readWrite
  | .idle | .awaiting _ _ | .readable => True

/-- `send_fn` is there wherever it may be resumed, and while EPOLLOUT may be reported. -/
structure ConnRun.Disciplined (e : Endpoint σ P X T) (s : ConnRun σ P T) : Prop where
  placed : s.Placed e
  knows : s.ctl.Knows e s
  armed : s.interest = some .readWrite → s.send ≠ .finished ∨ ∃ p n, s.ctl = .awaiting p n

theorem sent_armed {r : Connection × SendFn} (h : (s.sent r).interest = some .readWrite) :
    r.2 ≠ .finished ∨ s.interest = some .readWrite := by
  unfold ConnRun.sent at h
  simp only at h
  split at h
  · rename_i write
    exact .inl (write ▸ nofun)
  · exact .inr h

theorem ConnRun.Disciplined.unarmed (h : s.Disciplined e) (ctl : ∀ p n, s.ctl ≠ .awaiting p n)
    (armed : s.interest = some .readWrite) : s.send ≠ .finished := by
  rcases h.armed armed with send | ⟨p, n, hc⟩
  · exact send
  · exact absurd hc (ctl p n)

theorem ConnRun.Disciplined.busy (h : s.Disciplined e) {p : P} (ctl : s.ctl = .recv p)
    (busy : e.waits s.conn p = true ∨ ∃ q, e.replies p = some q) : s.conn.closed = false := by
  have knows := h.knows
  rw [ctl] at knows
  by_contra closed
  obtain ⟨waits, replies⟩ := (knows (Bool.not_eq_false _ ▸ closed)).rests
  rcases busy with hw | ⟨q, hq⟩
  · exact Bool.noConfusion (hw.symm.trans waits)
  · simp [hq] at replies

theorem ConnRun.Disciplined.suspended (h : s.Disciplined e) {next : Ctl P T}
    (site : s.afterResume e = some next) : s.send.Suspended := by
  have started := h.placed.ready (h.placed.after site (s.conn, s.send)).1
  have knows := h.knows
  have unfinished : s.send ≠ .finished := by
    unfold ConnRun.afterResume at site
    split at site
    · rename_i ctl
      rw [ctl] at knows
      exact knows
    · rename_i p ctl
      obtain ⟨q, hq, _⟩ := Option.map_eq_some_iff.mp site
      exact h.placed.opened (h.busy ctl (.inr ⟨q, hq⟩))
    · rename_i readable ctl
      rw [ctl] at knows
      exact knows.1
    · rename_i request ctl
      rw [ctl] at knows
      exact knows
    · cases site
    · cases site
    · cases site
  cases hs : s.send with
  | created => exact absurd hs started
  | waitWrite => exact .inl rfl
  | write => exact .inr rfl
  | finished => exact absurd hs unfinished

theorem resume_disciplined (h : s.Disciplined e) (calls : CallsOpen s op) {next : Ctl P T}
    {rounds : List (List WriteResult)} {r : Connection × SendFn} (hop : op = .resumeWrite rounds)
    (site : s.afterResume e = some next) (run : s.send.resume s.conn rounds = some r) :
    next.Knows e { s.sent r with ctl := next } ∧
    ((s.sent r).interest = some .readWrite → r.2 ≠ .finished ∨ ∃ p n, next = .awaiting p n) := by
  subst hop
  obtain ⟨same, _, ends⟩ := resume_spec run
  have opened : r.1.closed = false → r.2 ≠ .finished := by
    intro hc hf
    simp [same, ends.mp hf] at hc
  have knows := h.knows
  unfold ConnRun.afterResume at site
  split at site
  · split at site
    · cases site
      exact ⟨trivial, fun _ => .inr ⟨_, _, rfl⟩⟩
    · cases site
  · rename_i p ctl
    obtain ⟨q, hq, rfl⟩ := Option.map_eq_some_iff.mp site
    have hc := h.busy ctl (.inr ⟨q, hq⟩)
    refine ⟨fun closed => ?_, fun _ => .inl (opened (same.trans hc))⟩
    have : r.1.closed = true := closed
    simp [same, hc] at this
  · rename_i readable ctl
    rw [ctl] at knows
    cases site
    constructor
    · cases readable <;> trivial
    · intro armed
      exact .inl ((sent_armed armed).resolve_right knows.2)
  · rename_i request ctl
    cases site
    have hc := calls request ctl
    exact ⟨trivial, fun _ => .inl (opened (same.trans hc))⟩
  · cases site
  · cases site
  · cases site

/-- One step keeps the discipline. An owner may close the connection at any time, which does no
harm if a `recv_fn` on a closed connection is always quiet. -/
theorem disciplined_step
    (quiet : e.owned = true → ∀ a : σ × Connection × P, a.2.1.closed = true → e.Quiet a)
    (h : s.Disciplined e) (closes : ClosesQuietly e s op) (calls : CallsOpen s op)
    (move : ConnMove e s op t) : t.Disciplined e := by
  have placed := placed_step h.placed move
  have knows := h.knows
  have fits := h.placed.fits
  cases move with
  | spawn => exact { h with placed := placed }
  | close owned =>
    refine { h with placed := placed, knows := ?_ }
    cases hc : s.ctl with
    | recv p => exact fun _ => quiet owned _ rfl
    | idle | awaiting p n | readable => trivial
    | reading p n | call request | writable b =>
      rw [hc] at knows
      exact knows
  | startSend ctl queue run =>
    obtain ⟨recv, _⟩ := h.placed.send_of_queue queue
    refine ⟨placed, ?_, ?_⟩
    · simp only [ConnRun.sent, ctl]
      trivial
    · intro armed
      refine .inl ((sent_armed armed).resolve_right ?_)
      simp [h.placed.unregistered recv]
  | startRecv ctl queue =>
    obtain ⟨_, recv, _⟩ := h.placed.recv_of_queue queue
    refine ⟨placed, ?_, ?_⟩
    · intro closed
      apply quiet _ _ closed
      by_contra shared
      exact (h.placed.parked closed (Bool.eq_false_iff.mpr shared)).1 recv
    · intro armed
      simp [h.placed.unregistered recv] at armed
  | startCall ctl queue run =>
    have send := h.placed.opened (calls _ _ queue)
    exact ⟨placed, send, fun _ => .inl send⟩
  | hangUp ctl interest =>
    refine ⟨placed, ?_, by simp⟩
    simp only [ctl]
    trivial
  | writable ctl interest =>
    -- the handler takes EPOLLOUT back before it resumes, so it is not reported again
    have send := h.unarmed (by simp [ctl]) interest
    exact ⟨placed, ⟨send, by simp⟩, by simp⟩
  | readable ctl interest held =>
    exact ⟨placed, trivial, fun armed => .inl (h.unarmed (by simp [ctl]) armed)⟩
  | resumeRead ctl recv =>
    rw [ctl] at fits
    refine ⟨placed, ?_, fun armed => .inl (h.unarmed (by simp [ctl]) armed)⟩
    -- a connection that is closed and still registered was closed by its owner
    intro closed
    apply quiet _ _ closed
    by_contra shared
    exact fits.2.2 ((h.placed.parked closed (Bool.eq_false_iff.mpr shared)).2 _ recv)
  | resumeWrite site run =>
    obtain ⟨next, armed⟩ := resume_disciplined h calls rfl site run
    exact ⟨placed, next, armed⟩
  | read ctl waits run =>
    have send := h.placed.opened (h.busy ctl (.inl waits))
    exact ⟨placed, send, fun _ => .inl send⟩
  | proceed ctl opened =>
    exact ⟨placed, trivial, fun _ => .inl (h.placed.opened opened)⟩
  | deleted ctl closed =>
    exact ⟨placed, fun _ => closes _ _ ctl closed, by simp⟩
  | suspended ctl opened =>
    exact ⟨placed, trivial, fun _ => .inl (h.placed.opened opened)⟩
  | received ctl opened =>
    refine ⟨placed, ?_, fun _ => .inl (h.placed.opened opened)⟩
    intro closed
    exact Bool.noConfusion (opened.symm.trans closed)
  | finish ctl waits run finished =>
    exact ⟨placed, trivial, fun armed => .inl (h.unarmed (by simp [ctl]) armed)⟩
  | go ctl waits run finished =>
    rw [ctl] at knows
    have same := e.step_closed run
    rw [finished, Bool.or_false] at same
    refine ⟨placed, ?_, fun armed => .inl (h.unarmed (by simp [ctl]) armed)⟩
    intro closed
    exact (knows (same ▸ closed)).next ⟨_, run⟩

theorem disciplined_reach
    (quiet : e.owned = true → ∀ a : σ × Connection × P, a.2.1.closed = true → e.Quiet a)
    (h : (connMachine e).ReachWith (fun s op => ClosesQuietly e s op ∧ CallsOpen s op) s) :
    s.Disciplined e := by
  refine h.invariant ⟨placed_reach .start, trivial, by simp [connMachine]⟩ ?_
  intro s op t hs ok hstep
  exact disciplined_step quiet hs ok.1 ok.2 (conn_move hstep)

end

theorem server_calls_open {M Req Resp : Type}
    (s : ConnRun (List (Call M Req Resp)) (RecvPoint M) Empty)
    (op : ConnOp ((Nat → UInt8) × Resp) Empty) :
    CallsOpen s op := by
  cases op with
  | startCall junk => exact fun request => request.elim
  | resumeWrite rounds => exact fun request => request.elim
  | _ => trivial

section

variable {M Req Resp : Type} {srv : RpcServer M Req Resp} {received : List UInt8}

/-- When `recv_fn` goes on after an `async_read` that found the connection closed, it leaves its
loop with the bytes that it has. -/
def ClosesDrained (srv : RpcServer M Req Resp)
    (s : ConnRun (List (Call M Req Resp)) (RecvPoint M) Empty) :
    ConnOp ((Nat → UInt8) × Resp) Empty → Prop
  | .await => ∀ p n, s.ctl = .awaiting p n → s.conn.closed = true →
      PrefixesWhole (s.conn.recvAdd n).readBuf.consumedBytes (s.conn.recvAdd n).readBuf.unread p ∧
        srv.LeavesWith (s.conn.recvAdd n).readBuf.unread p
  | _ => True

theorem RpcServer.Drains.quiet {c : Connection} {p : RecvPoint M} (h : srv.Drains received c p)
    (made : List (Call M Req Resp)) : srv.endpoint.Quiet (made, c, p) := by
  intro b run
  have drains : srv.Drains received b.2.1 b.2.2 := by
    induction run with
    | refl => exact h
    | tail _ go ih =>
      obtain ⟨x, hx⟩ := go
      obtain ⟨r, hr, hd⟩ := Option.map_eq_some_iff.mp hx
      cases hd
      exact (ih.next hr).1
  have silent := drains.silent
  refine ⟨drains.goes, ?_⟩
  cases hp : b.2.2 with
  | reply => exact absurd hp silent
  | headerLen | header | requestLen | request | done => rfl

theorem server_closes_quietly {s : ConnRun (List (Call M Req Resp)) (RecvPoint M) Empty}
    {op : ConnOp ((Nat → UInt8) × Resp) Empty} (h : s.Buffers srv received)
    (bounded : op.isEvent = false → s.Bounded) (drained : ClosesDrained srv s op) :
    ClosesQuietly srv.endpoint s op := by
  cases op with
  | await =>
    intro p n ctl closed
    obtain ⟨whole, leaves⟩ := drained p n ctl closed
    have readInv := h.readInv
    have small := bounded rfl
    unfold ConnRun.Bounded at small
    rw [ctl] at readInv small
    have drains : srv.Drains received (s.conn.recvAdd n) p :=
      ⟨⟨closed, readInv, small, whole⟩, leaves⟩
    exact drains.quiet s.app
  | _ => trivial

theorem quiet_reach {s : ConnRun (List (Call M Req Resp)) (RecvPoint M) Empty}
    (h : (connMachine srv.endpoint).ReachWith
      (fun s op => (op.isEvent = false → s.Bounded) ∧ ClosesDrained srv s op) s) :
    (connMachine srv.endpoint).ReachWith (ClosesQuietly srv.endpoint) s ∧
      ∃ received, s.Buffers srv received := by
  refine h.meeting (I := fun s => ∃ received, ConnRun.Buffers srv s received)
    ⟨[], buffers_start srv⟩ ?_ ?_
  · rintro s op t ⟨received, inv⟩ ok step
    exact ⟨_, buffers_step inv ok.1 (conn_move step)⟩
  · rintro s op ⟨received, inv⟩ ok
    exact server_closes_quietly inv ok.1 ok.2

theorem server_disciplined {s : ConnRun (List (Call M Req Resp)) (RecvPoint M) Empty}
    (h : (connMachine srv.endpoint).ReachWith
      (fun s op => (op.isEvent = false → s.Bounded) ∧ ClosesDrained srv s op) s) :
    s.Disciplined srv.endpoint := by
  have reached := (quiet_reach h).1.mono (fun s op ok => And.intro ok (server_calls_open s op))
  exact disciplined_reach (fun owned => (Bool.false_ne_true owned).elim) reached

end

theorem client_quiet {Req R D Msg : Type} (ch : ClientChannel Req R Msg)
    {a : ClientState R D Msg × Connection × ClientPoint} (closed : a.2.1.closed = true) :
    ch.endpoint.Quiet a := by
  apply quiet_of_closed _ (fun _ => rfl) closed
  intro c p hc
  cases p <;> simp [ClientChannel.endpoint, ClientChannel.waits, hc]

theorem client_closes_quietly {Req R D Msg : Type} (ch : ClientChannel Req R Msg)
    (s : ConnRun (ClientState R D Msg) ClientPoint (MethodCall Req R D))
    (op : ConnOp (Nat → UInt8) (MethodCall Req R D)) : ClosesQuietly ch.endpoint s op := by
  cases op with
  | await => exact fun p n ctl closed => client_quiet ch closed
  | _ => trivial

/-- Every call of `resume_write` finds `send_fn` suspended: at a server, as long as fewer than
2³¹ bytes are buffered and those that are there after the `async_read` that finds the
connection closed make `recv_fn` leave its loop; and at a client, as long as no call is made on
a closed connection. -/
theorem resume_write_finds_send_fn_suspended {M Req Resp Req' R D Msg : Type}
    (srv : RpcServer M Req Resp) (ch : ClientChannel Req' R Msg) :
    (∀ (s : ConnRun (List (Call M Req Resp)) (RecvPoint M) Empty) (next : Ctl (RecvPoint M) Empty),
      (connMachine srv.endpoint).ReachWith (fun s op => s.Bounded ∧ ClosesDrained srv s op) s →
      s.afterResume srv.endpoint = some next → s.send.Suspended) ∧
    ∀ (s : ConnRun (ClientState R D Msg) ClientPoint (MethodCall Req' R D))
      (next : Ctl ClientPoint (MethodCall Req' R D)),
      (connMachine ch.endpoint).ReachWith CallsOpen s →
      s.afterResume ch.endpoint = some next → s.send.Suspended := by
  constructor
  · intro s next h site
    have drained := h.mono (fun _ op ok => And.intro (fun _ : op.isEvent = false => ok.1) ok.2)
    exact (server_disciplined drained).suspended site
  · intro s next h site
    have reached := h.mono (fun s op ok => And.intro (client_closes_quietly ch s op) ok)
    exact (disciplined_reach (fun _ a closed => client_quiet ch closed) reached).suspended site

def echoClient : ClientChannel (List UInt8) Unit (List UInt8) where
  parseHeader := echoServer.parseHeader
  serializeHeader := echoServer.serializeHeader
  serializeRequest bytes := bytes
  parseResponse _ bytes := some bytes

def echoCall : MethodCall (List UInt8) Unit Unit := ⟨"Echo", "echo", [9], ⟨(), none⟩⟩

/- No `async_read` ends on a closed connection. -/
def AwaitsOpen {σ P X T : Type} (s : ConnRun σ P T) : ConnOp X T → Bool
  | .await => !s.conn.closed
  | _ => true

theorem closes_drained_of_open {M Req Resp : Type} (srv : RpcServer M Req Resp)
    {s : ConnRun (List (Call M Req Resp)) (RecvPoint M) Empty}
    {op : ConnOp ((Nat → UInt8) × Resp) Empty} (opened : AwaitsOpen s op = true) :
    ClosesDrained srv s op := by
  cases op with
  | await =>
    intro p n _ closed
    simp [AwaitsOpen, closed] at opened
  | _ => trivial

instance {σ P T : Type} (s : ConnRun σ P T) : Decidable s.Bounded :=
    inferInstanceAs (Decidable (_ < _))

/- A request is answered; then the peer closes within the next length prefix. -/
def cutAfterAnswer : List (ConnOp ((Nat → UInt8) × List UInt8) Empty) :=
  [.startSend [], .startRecv, .read [.data [2, 0, 0, 0, 1, 7, 1, 0, 0, 0, 9], .eagain], .proceed,
    .await, .step (fun _ => 0, [5]), .step (fun _ => 0, [5]), .step (fun _ => 0, [5]),
    .step (fun _ => 0, [5]), .resumeWrite [[.accepted 11]], .read [.data [2, 0], .eof]]

theorem resume_write_finds_send_fn_suspended_at_close :
    (∃ s, (connMachine echoServer.endpoint).Reach s ∧ s.conn.closed = true ∧
      s.afterResume echoServer.endpoint = some (.awaiting .headerLen 2) ∧ s.send.Suspended ∧
      ∃ t u, (connMachine echoServer.endpoint).step s (.resumeWrite [[]]) = some t ∧
        ClosesDrained echoServer t .await ∧
        (connMachine echoServer.endpoint).run t [.await, .step (fun _ => 0, [])] = some u ∧
        u.recv = .finished) ∧
    ∃ s, (connMachine (echoClient.endpoint (D := Unit))).Reach s ∧
      s.afterResume (echoClient.endpoint (D := Unit)) = some .idle ∧ s.send.Suspended := by
  constructor
  · obtain ⟨s, t, u, hs, closed, site, ht, ctl, left, hu, recv⟩ : ∃ s t u,
        (connMachine echoServer.endpoint).run (connMachine echoServer.endpoint).start
          cutAfterAnswer = some s ∧
        s.conn.closed = true ∧ s.afterResume echoServer.endpoint = some (.awaiting .headerLen 2) ∧
        (connMachine echoServer.endpoint).step s (.resumeWrite [[]]) = some t ∧
        t.ctl = .awaiting .headerLen 2 ∧ (t.conn.recvAdd 2).readBuf.unread = [2, 0] ∧
        (connMachine echoServer.endpoint).run t [.await, .step (fun _ => 0, [])] = some u ∧
        u.recv = .finished := ⟨_, _, _, rfl, rfl, rfl, rfl, rfl, rfl, rfl, rfl⟩
    have along : (connMachine echoServer.endpoint).Along
        (fun s op => s.Bounded ∧ AwaitsOpen s op = true)
        (connMachine echoServer.endpoint).start cutAfterAnswer := by decide +kernel
    have answered := (Machine.reachWith_run .start along hs).mono
      (fun _ _ ok => And.intro ok.1 (closes_drained_of_open echoServer ok.2))
    refine ⟨s, answered.reach, closed, site,
      (resume_write_finds_send_fn_suspended (D := Unit) echoServer echoClient).1 s _ answered site,
      t, u, ht, ?_, hu, recv⟩
    intro p n hc _
    cases ctl.symm.trans hc
    rw [left]
    exact ⟨by simp [PrefixesWhole], Or.inl (by simp)⟩
  · obtain ⟨u, s, hu, opened, hs, site⟩ : ∃ u s,
        (connMachine (echoClient.endpoint (D := Unit))).run (connMachine echoClient.endpoint).start
          [.startSend [], .startRecv, .read [.eagain], .proceed, .await, .spawn echoCall] = some u ∧
        u.conn.closed = false ∧
        (connMachine echoClient.endpoint).step u (.startCall (fun _ => 0)) = some s ∧
        s.afterResume echoClient.endpoint = some .idle := ⟨_, _, rfl, rfl, rfl, rfl⟩
    have before : (connMachine (echoClient.endpoint (D := Unit))).ReachWith CallsOpen u :=
      Machine.reachWith_run .start (Machine.along_of_forall (by simp [CallsOpen]) _) hu
    have calls : CallsOpen u (.startCall (fun _ => 0) : ConnOp (Nat → UInt8) _) :=
      fun _ _ _ => opened
    have called := before.next calls hs
    exact ⟨s, called.reach, site,
      (resume_write_finds_send_fn_suspended echoServer echoClient).2 s _ called site⟩

/-- A request that comes together with the end of the stream is answered after `send_fn` is gone;
a request cut off by it is waited for in a loop that resumes `send_fn` on every turn; and so does
a call made after the server closed. -/
theorem resume_write_reaches_finished_send_fn :
    (∃ s, (connMachine echoServer.endpoint).Reach s ∧ s.ctl = .recv .reply ∧
      s.afterResume echoServer.endpoint = some (.recv .headerLen) ∧ s.send = .finished) ∧
    (∃ s, (connMachine echoServer.endpoint).Reach s ∧ (∃ p, s.ctl = .reading p 0) ∧
      (s.afterResume echoServer.endpoint).isSome ∧ s.send = .finished) ∧
    ∃ s, (connMachine (echoClient.endpoint (D := Unit))).Reach s ∧ s.ctl = .call echoCall ∧
      s.afterResume (echoClient.endpoint (D := Unit)) = some .idle ∧ s.send = .finished := by
  refine ⟨?_, ?_, ?_⟩
  · obtain ⟨s, hs, rest⟩ : ∃ s,
        (connMachine echoServer.endpoint).run (connMachine echoServer.endpoint).start
          [.startSend [], .startRecv, .read [.data [2, 0, 0, 0, 1, 7, 1, 0, 0, 0, 9], .eof],
            .resumeWrite [[]], .await, .step (fun _ => 0, [5]), .step (fun _ => 0, [5]),
            .step (fun _ => 0, [5]), .step (fun _ => 0, [5])] = some s ∧ s.ctl = .recv .reply ∧
        s.afterResume echoServer.endpoint = some (.recv .headerLen) ∧ s.send = .finished :=
      ⟨_, rfl, rfl, rfl, rfl⟩
    exact ⟨s, Machine.reach_run .start hs, rest⟩
  · obtain ⟨s, hs, rest⟩ : ∃ s,
        (connMachine echoServer.endpoint).run (connMachine echoServer.endpoint).start
          [.startSend [], .startRecv, .read [.data [2, 0, 0, 0, 1, 7, 1, 0, 0, 0], .eof],
            .resumeWrite [[]], .await, .step (fun _ => 0, [5]), .step (fun _ => 0, [5]),
            .step (fun _ => 0, [5]), .read [.eof]] = some s ∧ (∃ p, s.ctl = .reading p 0) ∧
        (s.afterResume echoServer.endpoint).isSome ∧ s.send = .finished :=
      ⟨_, rfl, ⟨_, rfl⟩, rfl, rfl⟩
    exact ⟨s, Machine.reach_run .start hs, rest⟩
  · obtain ⟨s, hs, rest⟩ : ∃ s,
        (connMachine (echoClient.endpoint (D := Unit))).run (connMachine echoClient.endpoint).start
          [.startSend [], .startRecv, .read [.eof], .resumeWrite [[]], .await, .step (fun _ => 0),
            .spawn echoCall, .startCall (fun _ => 0)] = some s ∧ s.ctl = .call echoCall ∧
        s.afterResume (echoClient.endpoint (D := Unit)) = some .idle ∧ s.send = .finished :=
      ⟨_, rfl, rfl, rfl, rfl⟩
    exact ⟨s, Machine.reach_run .start hs, rest⟩

end Xuanqiong
