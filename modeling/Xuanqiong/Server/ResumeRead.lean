import Xuanqiong.Net.EdgeRead

/-! How `recv_fn` of a server ends. On a connection that was closed before, `ReadAwaiter` has
taken the interest out of epoll; after an error in what the peer sent, nobody has. -/
namespace Xuanqiong

section

variable {M Req Resp : Type} {srv : RpcServer M Req Resp}

namespace RpcServer

/-- What the peer sent is refused here: a header that does not parse or has the wrong magic number
or version, an unknown service or method, or a request that does not parse. -/
def ProtocolError (srv : RpcServer M Req Resp) (c : Connection) : RecvPoint M → Prop
  | .header n => ∃ bytes d, c.pull n = some (bytes, d) ∧
      ∀ h, srv.parseHeader bytes = some h → h.magic ≠ MAGIC_NUM ∨ h.version ≠ VERSION
  | .requestLen h => srv.lookup h = none
  | .request _ m n => ∃ bytes d, c.pull n = some (bytes, d) ∧ srv.parseRequest m bytes = none
  | .headerLen | .reply | .done => False

theorem checkHeader_finished {c d : Connection} {h : Header} {q : RecvPoint M}
    {calls : List (Call M Req Resp)} (hs : checkHeader c h = (d, q, calls)) :
    finished q = true ↔ h.magic ≠ MAGIC_NUM ∨ h.version ≠ VERSION := by
  unfold checkHeader at hs
  split at hs
  · rename_i magic
    cases hs
    simp [finished, magic]
  · rename_i magic
    split at hs
    · rename_i version
      cases hs
      simp [finished, version]
    · rename_i version
      cases hs
      simp [finished, not_not.mp magic, not_not.mp version]

theorem findMethod_finished {c d : Connection} {h : Header} {n : Nat} {q : RecvPoint M}
    {calls : List (Call M Req Resp)} (hs : srv.findMethod c h n = (d, q, calls)) :
    finished q = true ↔ srv.lookup h = none := by
  unfold findMethod at hs
  split at hs
  · rename_i service
    cases hs
    simp [finished, lookup, service]
  · rename_i service found
    split at hs
    · rename_i method
      cases hs
      simp [finished, lookup, found, method]
    · rename_i method
      cases hs
      simp [finished, lookup, found, method]

theorem sendResponse_finished {c d : Connection} {junk : Nat → UInt8} {call : Call M Req Resp}
    {q : RecvPoint M} {calls : List (Call M Req Resp)}
    (hs : srv.sendResponse c junk call = some (d, q, calls)) : finished q = false := by
  obtain ⟨rfl, _⟩ := sendResponse_cases hs
  rfl

/-- With the bytes it waited for on an open connection, `recv_fn` leaves its loop just when they
are refused. -/
theorem recvStep_finished {memory : Nat → UInt8} {response : Resp} {c d : Connection}
    {p q : RecvPoint M} {calls : List (Call M Req Resp)} (opened : c.closed = false)
    (ready : waits c p = false) (hs : srv.recvStep memory response c p = some (d, q, calls)) :
    finished q = true ↔ srv.ProtocolError c p := by
  cases p with
  | headerLen =>
    have enough : ¬ c.readBytes < 4 := by simpa [waits, opened] using ready
    simp only [recvStep, opened, Bool.false_eq_true, false_and, if_false] at hs
    obtain ⟨⟨v, b⟩, hv, hs⟩ := Option.map_eq_some_iff.mp hs
    obtain ⟨n, rfl⟩ := Connection.fetchUint32_enough enough hv
    cases hs
    simp [finished, ProtocolError]
  | header n =>
    simp only [recvStep, opened, Bool.false_eq_true, false_and, if_false] at hs
    obtain ⟨⟨bytes, b⟩, hb, hs⟩ := Option.map_eq_some_iff.mp hs
    simp only at hs
    split at hs
    · rename_i parse
      cases hs
      simp [finished, ProtocolError, hb, parse]
    · rename_i h parse
      rw [checkHeader_finished hs]
      simp [ProtocolError, hb, parse]
  | requestLen h =>
    have enough : ¬ c.readBytes < 4 := by simpa [waits, opened] using ready
    simp only [recvStep, opened, Bool.false_eq_true, false_and, if_false] at hs
    obtain ⟨⟨v, b⟩, hv, hs⟩ := Option.map_eq_some_iff.mp hs
    obtain ⟨n, rfl⟩ := Connection.fetchUint32_enough enough hv
    exact findMethod_finished hs
  | request h m n =>
    simp only [recvStep, opened, Bool.false_eq_true, false_and, if_false] at hs
    obtain ⟨⟨bytes, b⟩, hb, hs⟩ := Option.bind_eq_some_iff.mp hs
    simp only at hs
    split at hs
    · rename_i parse
      cases hs
      simp [finished, ProtocolError, hb, parse]
    · rename_i r parse
      simp [sendResponse_finished hs, ProtocolError, hb, parse]
  | reply =>
    cases hs
    simp [finished, ProtocolError]
  | done => cases hs

end RpcServer

variable {s t : ConnRun (List (Call M Req Resp)) (RecvPoint M) Empty}
  {op : ConnOp ((Nat → UInt8) × Resp) Empty}

/- No step of `recv_fn` on an open connection meets an error in what the peer sent. -/
def ObeysProtocol (srv : RpcServer M Req Resp)
    (s : ConnRun (List (Call M Req Resp)) (RecvPoint M) Empty) :
    ConnOp ((Nat → UInt8) × Resp) Empty → Prop
  | .step _ => ∀ p, s.ctl = .recv p → s.conn.closed = false → ¬ srv.ProtocolError s.conn p
  | _ => True

def ConnRun.InLoop (s : ConnRun (List (Call M Req Resp)) (RecvPoint M) Empty) : Prop :=
  ∀ p, s.ctl.point = some p ∨ s.recv = .suspended p → p ≠ .done

theorem inLoop_step (h : s.InLoop) (move : ConnMove srv.endpoint s op t) : t.InLoop := by
  intro p hp
  cases move with
  | @spawn request => exact request.elim
  | close owned => cases owned
  | startSend | hangUp => exact h p hp
  | startRecv =>
    rcases hp with here | recv
    · cases here
      simp [RpcServer.endpoint]
    · cases recv
  | @startCall _ request => exact request.elim
  | writable | readable =>
    rcases hp with here | recv
    · cases here
    · exact h p (Or.inr recv)
  | resumeRead ctl recv =>
    rcases hp with here | later
    · cases here
      exact h p (Or.inr recv)
    · cases later
  | resumeWrite site run =>
    rcases hp with here | recv
    · obtain ⟨_, stays | ⟨r, q, _, replies, rfl⟩⟩ := afterResume_cases site
      · exact h p (Or.inl (stays p here))
      · cases here
        rintro rfl
        cases r <;> cases replies
    · exact h p (Or.inr recv)
  | read ctl | proceed ctl | deleted ctl | received ctl =>
    rcases hp with here | recv
    · cases here
      exact h p (Or.inl (by rw [ctl]; rfl))
    · exact h p (Or.inr recv)
  | suspended ctl =>
    rcases hp with here | recv
    · cases here
    · cases recv
      exact h p (Or.inl (by rw [ctl]; rfl))
  | finish => rcases hp with hp | hp <;> cases hp
  | go ctl waits run finished =>
    rcases hp with here | recv
    · cases here
      rintro rfl
      cases finished
    · exact h p (Or.inr recv)

/-- Once the connection is closed `recv_fn` goes on alone: `send_fn` has ended, and nothing
is registered. -/
structure ConnRun.Alone (srv : RpcServer M Req Resp)
    (s : ConnRun (List (Call M Req Resp)) (RecvPoint M) Empty) : Prop where
  placed : s.Placed srv.endpoint
  inLoop : s.InLoop
  sent : s.conn.closed = true → ∀ p, (s.ctl = .recv p ∨ ∃ n, s.ctl = .awaiting p n) →
    s.send = .finished
  going : ∀ p, s.ctl = .recv p → s.conn.closed = true → s.interest = none

theorem sent_step (h : s.Alone srv) (move : ConnMove srv.endpoint s op t)
    (closed : t.conn.closed = true) {p : RecvPoint M}
    (hp : t.ctl = .recv p ∨ ∃ n, t.ctl = .awaiting p n) : t.send = .finished := by
  cases move with
  | @spawn request => exact request.elim
  | close owned => cases owned
  | startSend ctl queue run => simp [ConnRun.sent, ctl] at hp
  | startRecv ctl queue =>
    exact absurd (h.placed.recv_of_queue queue).2.1 (h.placed.parked closed rfl).1
  | @startCall _ request => exact request.elim
  | hangUp ctl => simp [ctl] at hp
  | writable | readable | read | suspended | finish => simp at hp
  | resumeRead ctl recv =>
    have fits := h.placed.fits
    rw [ctl] at fits
    exact absurd ((h.placed.parked closed rfl).2 _ recv) fits.2.2
  | resumeWrite site run =>
    obtain ⟨same, _, ends⟩ := resume_spec run
    exact ends.mpr (same.symm.trans closed)
  | proceed ctl opened | received ctl opened => cases opened.symm.trans closed
  | deleted ctl before => exact h.sent before _ (Or.inr ⟨_, ctl⟩)
  | go ctl waits run finished =>
    have same := srv.endpoint.step_closed run
    rw [finished, Bool.or_false] at same
    exact h.sent (same.symm.trans closed) _ (Or.inl ctl)

theorem resume_going (h : s.Alone srv) {next : Ctl (RecvPoint M) Empty}
    (site : s.afterResume srv.endpoint = some next) {p : RecvPoint M} (hp : next = .recv p)
    (closed : s.conn.closed = true) : s.interest = none := by
  subst hp
  unfold ConnRun.afterResume at site
  split at site
  · split at site <;> cases site
  · exact h.going _ ‹_› closed
  · rename_i readable ctl
    cases readable <;> cases site
  · cases site
  · cases site
  · cases site
  · cases site

theorem going_step (h : s.Alone srv) (move : ConnMove srv.endpoint s op t) {p : RecvPoint M}
    (hp : t.ctl = .recv p) (closed : t.conn.closed = true) : t.interest = none := by
  cases move with
  | @spawn request => exact request.elim
  | close owned => cases owned
  | startSend ctl queue run => cases ctl.symm.trans hp
  | startRecv ctl queue =>
    exact absurd (h.placed.recv_of_queue queue).2.1 (h.placed.parked closed rfl).1
  | @startCall _ request => exact request.elim
  | hangUp | deleted => rfl
  | writable | readable | read | proceed | suspended | finish => cases hp
  | resumeRead ctl recv => exact (h.placed.parked closed rfl).2 _ recv
  | resumeWrite site run =>
    have same := (resume_spec run).1
    exact (sent_interest s _).mpr (resume_going h site hp (same.symm.trans closed))
  | received ctl opened => cases opened.symm.trans closed
  | go ctl waits run finished =>
    have same := srv.endpoint.step_closed run
    rw [finished, Bool.or_false] at same
    exact h.going _ ctl (same.symm.trans closed)

theorem alone_step (h : s.Alone srv) (move : ConnMove srv.endpoint s op t) : t.Alone srv where
  placed := placed_step h.placed move
  inLoop := inLoop_step h.inLoop move
  sent closed _ := sent_step h move closed
  going _ := going_step h move

theorem alone_reach (h : (connMachine srv.endpoint).Reach s) : s.Alone srv := by
  refine h.invariant ⟨placed_reach .start, ?_, ?_, ?_⟩ fun s op t hs step =>
    alone_step hs (conn_move step)
  · rintro p (hp | hp) <;> cases hp
  · intro closed
    cases closed
  · intro p hp
    cases hp

structure ConnRun.Deregistered (srv : RpcServer M Req Resp)
    (s : ConnRun (List (Call M Req Resp)) (RecvPoint M) Empty) : Prop where
  alone : s.Alone srv
  finished : s.recv = .finished → s.interest = none

theorem deregistered_step (h : s.Deregistered srv) (obeys : ObeysProtocol srv s op)
    (move : ConnMove srv.endpoint s op t) : t.Deregistered srv := by
  refine ⟨alone_step h.alone move, ?_⟩
  intro recv
  cases move with
  | @spawn request => exact request.elim
  | close owned => cases owned
  | startSend ctl queue run => exact (sent_interest s _).mpr (h.finished recv)
  | startRecv | resumeRead | suspended => cases recv
  | @startCall _ request => exact request.elim
  | hangUp | deleted => rfl
  | writable ctl interest => cases (h.finished recv).symm.trans interest
  | resumeWrite site run => exact (sent_interest s _).mpr (h.finished recv)
  | readable | read | proceed | received | go => exact h.finished recv
  | finish ctl waits run finished =>
    -- on an open connection the end of `recv_fn` would be an error of the peer
    apply h.alone.going _ ctl
    by_contra opened
    have opened := Bool.eq_false_iff.mpr opened
    obtain ⟨r, hr, hd⟩ := Option.map_eq_some_iff.mp run
    cases hd
    exact obeys _ ctl opened ((RpcServer.recvStep_finished opened waits hr).mp finished)

theorem deregistered_reach (h : (connMachine srv.endpoint).ReachWith (ObeysProtocol srv) s) :
    s.Deregistered srv := by
  refine h.invariant ⟨alone_reach .start, fun recv => by cases recv⟩ ?_
  intro s op t hs obeys hstep
  exact deregistered_step hs obeys (conn_move hstep)

theorem event_readable {i : Interest} (ctl : s.ctl = .idle) (interest : s.interest = some i)
    (held : s.ended srv.endpoint = false) :
    (connMachine srv.endpoint).step s (.event false false true) = some { s with
      ctl := .readable } := by
  simp [connMachine, ConnRun.event, ctl, interest, held]

theorem protocol_error_leaves_registered (h : s.Placed srv.endpoint) {p : RecvPoint M}
    (ctl : s.ctl = .recv p) (opened : s.conn.closed = false) (error : srv.ProtocolError s.conn p)
    {x : (Nat → UInt8) × Resp} (hs : (connMachine srv.endpoint).step s (.step x) = some t) :
    t.recv = .finished ∧ ∃ u,
      (connMachine srv.endpoint).step t (.event false false true) = some u ∧
      u.ctl = .readable ∧ u.recv = .finished := by
  have registered : s.interest ≠ none := by
    have fits := h.fits
    rw [ctl] at fits
    exact h.registered opened (fits ▸ nofun)
  obtain ⟨i, hi⟩ := Option.ne_none_iff_exists'.mp registered
  cases conn_move hs with
  | finish ctl' waits run finished =>
    have send := h.opened opened
    have held : ({ s with recv := .finished } : ConnRun _ _ _).ended srv.endpoint = false := by
      simp [ConnRun.ended, send]
    exact ⟨rfl, _, event_readable rfl hi held, rfl, rfl⟩
  | go ctl' waits run finished =>
    cases ctl.symm.trans ctl'
    obtain ⟨r, hr, hd⟩ := Option.map_eq_some_iff.mp run
    cases hd
    have ends := (RpcServer.recvStep_finished opened waits hr).mpr error
    exact nomatch ends.symm.trans finished

/-- As long as the peer makes no protocol error on an open connection, every call of
`resume_read` finds `recv_fn` suspended, and `recv_fn` ends only after its interest is gone; the
first such error leaves it registered for an EPOLLIN that resumes it when it is finished. -/
theorem resume_read_finds_recv_fn_suspended (srv : RpcServer M Req Resp)
    (s : ConnRun (List (Call M Req Resp)) (RecvPoint M) Empty)
    (h : (connMachine srv.endpoint).ReachWith (ObeysProtocol srv) s) :
    (s.ctl = .readable → ∃ p, s.recv = .suspended p) ∧
    (s.recv = .finished → s.interest = none) ∧
    ∀ p x t, s.ctl = .recv p → s.conn.closed = false → srv.ProtocolError s.conn p →
      (connMachine srv.endpoint).step s (.step x) = some t → t.recv = .finished ∧ ∃ u,
        (connMachine srv.endpoint).step t (.event false false true) = some u ∧
        u.ctl = .readable ∧ u.recv = .finished := by
  have inv := deregistered_reach h
  refine ⟨?_, inv.finished, ?_⟩
  · intro ctl
    have fits := inv.alone.placed.fits
    rw [ctl] at fits
    obtain ⟨running, created, registered⟩ := fits
    cases hr : s.recv with
    | created => exact absurd hr created
    | running => exact absurd hr running
    | suspended p => exact ⟨p, rfl⟩
    | finished => exact absurd (inv.finished hr) registered
  · intro p x t ctl opened error hs
    exact protocol_error_leaves_registered inv.alone.placed ctl opened error hs

end

theorem resume_read_finds_recv_fn_suspended_at_close :
    (∃ s, (connMachine echoServer.endpoint).run (connMachine echoServer.endpoint).start
        [.startSend [], .startRecv, .read [.eagain], .proceed, .await, .event false false true] =
          some s ∧
      s.ctl = .readable ∧ ∃ p, s.recv = .suspended p) ∧
    ∃ s, (connMachine echoServer.endpoint).Reach s ∧ s.recv = .finished ∧ s.interest = none := by
  obtain ⟨s, u, t, hs, ctl, hu, closed, ht, recv⟩ : ∃ s u t,
      (connMachine echoServer.endpoint).run (connMachine echoServer.endpoint).start
        [.startSend [], .startRecv, .read [.eagain], .proceed, .await, .event false false true] =
          some s ∧
      s.ctl = .readable ∧
      (connMachine echoServer.endpoint).run s
        [.resumeRead, .read [.eof], .resumeWrite [[]], .await] = some u ∧ u.conn.closed = true ∧
      (connMachine echoServer.endpoint).step u (.step (fun _ => 0, [])) = some t ∧
      t.recv = .finished :=
    ⟨_, _, _, rfl, rfl, rfl, rfl, rfl, rfl⟩
  have woken : (connMachine echoServer.endpoint).ReachWith (ObeysProtocol echoServer) s :=
    Machine.reachWith_run .start (Machine.along_of_forall (by simp [ObeysProtocol]) _) hs
  have ended : (connMachine echoServer.endpoint).ReachWith (ObeysProtocol echoServer) u :=
    Machine.reachWith_run woken (Machine.along_of_forall (by simp [ObeysProtocol]) _) hu
  have obeys : ObeysProtocol echoServer u (.step (fun _ => 0, [])) := by
    intro p _ opened
    exact nomatch closed.symm.trans opened
  have left := ended.next obeys ht
  exact ⟨⟨s, hs, ctl, (resume_read_finds_recv_fn_suspended echoServer s woken).1 ctl⟩, t,
    left.reach, recv, (resume_read_finds_recv_fn_suspended echoServer t left).2.1 recv⟩

/-- After a header with the wrong magic number, more bytes from the peer resume `recv_fn` when it
is gone. -/
theorem resume_read_reaches_finished_recv_fn :
    ∃ s, (connMachine echoServer.endpoint).Reach s ∧ s.ctl = .readable ∧ s.recv = .finished ∧
      s.send = .waitWrite := by
  obtain ⟨s, hs, rest⟩ : ∃ s,
      (connMachine echoServer.endpoint).run (connMachine echoServer.endpoint).start
        [.startSend [], .startRecv, .read [.data [2, 0, 0, 0, 0, 7], .eagain], .proceed, .await,
          .step (fun _ => 0, []), .step (fun _ => 0, []), .event false false true] = some s ∧
      s.ctl = .readable ∧ s.recv = .finished ∧ s.send = .waitWrite := ⟨_, rfl, rfl, rfl, rfl⟩
  exact ⟨s, Machine.reach_run .start hs, rest⟩

end Xuanqiong
