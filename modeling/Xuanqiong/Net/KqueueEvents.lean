import Xuanqiong.Net.EdgeRead
import Xuanqiong.Net.Kqueue
import Xuanqiong.Server.Teardown

/-! What the events of a kqueue do to the coroutines of a connection. The loop asks nothing before
it handles an event, not even whether the connection is still there; and the end of the connection,
which kqueue reports by itself, resumes nobody. -/
namespace Xuanqiong

section

variable {σ P X T : Type} {e : Endpoint σ P X T} {s t u : KqueueRun σ P T} {op : KqueueOp X T}

/- Both coroutines have ended, and the loop has an event for one of them. Its pointer to the
connection is good only while the loop has the task that started `recv_fn`. -/
def KqueueRun.Orphaned (e : Endpoint σ P X T) (s : KqueueRun σ P T) : Prop :=
  s.run.ended e = true ∧ s.batch ≠ []

/-- The loop has handled an event with EV_EOF: no filter is left, and of the thread there are only
the tasks of `CallMethod`. -/
structure KqueueRun.Ended (e : Endpoint σ P X T) (s : KqueueRun σ P T) : Prop where
  follows : s.Follows e
  closed : s.run.conn.closed = true
  filters : s.filters = ⟨false, false⟩
  started : s.run.recv ≠ .created
  tasks : s.run.ctl = .idle ∨ ∃ request, s.run.ctl = .call request

/- What a task of `CallMethod` leaves alone. -/
inductive KqueueRun.Later (e : Endpoint σ P X T) (s t : KqueueRun σ P T) : Prop where
  | same (send : t.run.send = s.run.send) (app : t.run.app = s.run.app)
  | call (junk : Nat → UInt8) (request : T)
      (submit : e.submit junk request s.run.app s.run.conn = some (t.run.app, t.run.conn))
  | resume (request : T) (app : t.run.app = s.run.app)

namespace KqueueRun

theorem Ended.no_filter (h : s.Ended e) (filter : EvFilt) : s.filters.has filter = false := by
  rw [h.filters]
  cases filter <;> rfl

theorem Ended.no_events (h : s.Ended e) {events : List Kevent}
    (registered : ∀ ev ∈ events, s.filters.has ev.filter = true) : events = [] := by
  refine List.eq_nil_iff_forall_not_mem.mpr fun ev there => ?_
  cases (h.no_filter ev.filter).symm.trans (registered ev there)

theorem Ended.resume (h : s.Ended e) {r : Connection × SendFn} {next : Ctl P T}
    {rounds : List (List WriteResult)} (site : s.run.afterResume e = some next)
    (run : s.run.send.resume s.run.conn rounds = some r) :
    r.2 = .finished ∧ next = .idle ∧ ∃ request, s.run.ctl = .call request := by
  refine ⟨(resume_spec run).2.2.mpr h.closed, ?_⟩
  unfold ConnRun.afterResume at site
  rcases h.tasks with ctl | ⟨request, ctl⟩
  · rw [ctl] at site
    cases site
  · rw [ctl] at site
    cases site
    exact ⟨rfl, request, ctl⟩

theorem Ended.conn_step (h : s.Ended e) {op : ConnOp X T} {r : ConnRun σ P T}
    (other : op.isEvent = false) (move : ConnMove e s.run op r)
    (follows : Follows e ⟨r, (s.run.adds r op).elim s.filters s.filters.addEvent, s.batch⟩) :
    Ended e ⟨r, (s.run.adds r op).elim s.filters s.filters.addEvent, s.batch⟩ ∧
      r.recv = s.run.recv ∧
      s.Later e ⟨r, (s.run.adds r op).elim s.filters s.filters.addEvent, s.batch⟩ := by
  have quiet : ∀ {ctl : Ctl P T}, s.run.ctl = ctl → ctl = .idle ∨
      ∃ request, ctl = .call request := by
    rintro ctl rfl
    exact h.tasks
  cases move with
  | spawn => exact ⟨⟨follows, h.closed, h.filters, h.started, h.tasks⟩, rfl, .same rfl rfl⟩
  | close => exact ⟨⟨follows, rfl, h.filters, h.started, h.tasks⟩, rfl, .same rfl rfl⟩
  | startSend ctl queue run => exact absurd (h.follows.placed.send_of_queue queue).1 h.started
  | startRecv ctl queue => exact absurd (h.follows.placed.recv_of_queue queue).2.1 h.started
  | startCall ctl queue run =>
    have closed := (e.submit_closed run).trans h.closed
    exact ⟨⟨follows, closed, h.filters, h.started, Or.inr ⟨_, rfl⟩⟩, rfl, .call _ _ run⟩
  | hangUp | writable | readable => cases other
  | @resumeWrite rounds q next site run =>
    obtain ⟨finished, rfl, request, _⟩ := h.resume site run
    have same : s.run.adds { s.run.sent q with
        ctl := .idle } (.resumeWrite rounds : ConnOp X T) = none := by
      simp only [ConnRun.adds, ConnRun.sent, finished]
      rfl
    have closed := (resume_spec run).1.trans h.closed
    refine ⟨⟨follows, closed, ?_, h.started, Or.inl rfl⟩, rfl, .resume request rfl⟩
    rw [same]
    exact h.filters
  | resumeRead ctl | read ctl | proceed ctl | deleted ctl | suspended ctl | received ctl
  | finish ctl
  | go ctl =>
    rcases quiet ctl with idle | ⟨request, call⟩
    · cases idle
    · cases call

theorem Ended.next (h : s.Ended e) (hs : (kqueueMachine e).step s op = some t) :
    t.Ended e ∧ t.run.recv = s.run.recv ∧ s.Later e t := by
  have within : s.Within (fun _ _ => True) op := by
    cases op with
    | conn | next => trivial
    | kevent events =>
      cases kqueue_move hs with
      | kevent ctl done held registered distinct =>
        rw [h.no_events registered]
        exact List.Pairwise.nil
  have follows := (kqueue_step h.follows within hs).1
  cases kqueue_move hs with
  | conn other tasks step => exact h.conn_step other (conn_move step) follows
  | kevent ctl done held registered distinct =>
    exact ⟨⟨follows, h.closed, h.filters, h.started, h.tasks⟩, rfl, .same rfl rfl⟩
  | eof ctl batch held ends =>
    exact ⟨⟨follows, rfl, rfl, h.started, Or.inl ctl⟩, rfl, .same rfl rfl⟩
  | write ctl batch held goes filter | read ctl batch held goes filter =>
    rcases h.follows.pending _ (batch ▸ List.mem_cons_self) with has | ⟨ends, _⟩
    · cases (h.no_filter _).symm.trans has
    · cases goes.symm.trans ends

theorem Follows.ended (h : s.Follows e) {ev : Kevent} {rest : List Kevent}
    (batch : s.batch = ev :: rest) (ends : ev.eof = true)
    (hs : (kqueueMachine e).step s .next = some t) :
    t.Ended e ∧ t.run.recv = s.run.recv ∧ t.run.send = s.run.send ∧ t.run.app = s.run.app ∧
      t.run.ended e = false := by
  have within : s.Within (fun _ _ => True) (.next : KqueueOp X T) := trivial
  have follows := (kqueue_step h within hs).1
  have started := h.started (batch ▸ List.mem_cons_self : ev ∈ s.batch)
  cases kqueue_move hs with
  | eof ctl batch' held ends' =>
    exact ⟨⟨follows, rfl, rfl, started, Or.inl ctl⟩, rfl, rfl, rfl, held⟩
  | write ctl batch' held goes filter | read ctl batch' held goes filter =>
    cases batch.symm.trans batch'
    cases goes.symm.trans ends

theorem Ended.run (h : s.Ended e) {ops : List (KqueueOp X T)}
    (hr : (kqueueMachine e).run s ops = some t) {I : KqueueRun σ P T → Prop} (initial : I s)
    (keeps : ∀ {s t}, I s → s.Later e t → I t) :
    t.run.recv = s.run.recv ∧ I t := by
  induction ops generalizing s with
  | nil =>
    cases Option.some.inj hr
    exact ⟨rfl, initial⟩
  | cons op rest ih =>
    obtain ⟨u, hu, ht⟩ := Option.bind_eq_some_iff.mp hr
    obtain ⟨ended, recv, later⟩ := h.next hu
    obtain ⟨recv', final⟩ := ih ended ht (keeps initial later)
    exact ⟨recv'.trans recv, final⟩

end KqueueRun

end

section

variable {M Req Resp Args R D Msg : Type}

theorem readAll_eof {c : Connection} (room : c.readBuf.Roomy) :
    c.readAll [.eof] = some ({ c with readBuf := c.readBuf.fill [], closed := true }, 0) := by
  simp [Connection.readAll, readLoop, room.size]

/- The events of a batch whose readable one is first, when the peer has closed
between two frames. -/
def readableFirst (x : (Nat → UInt8) × Resp) : List (KqueueOp ((Nat → UInt8) × Resp) Empty) :=
  [.kevent [⟨.read, false⟩, ⟨.write, false⟩], .next, .conn .resumeRead, .conn (.read [.eof]),
    .conn (.resumeWrite []), .conn .await, .conn (.step x)]

theorem readable_first_orphans {srv : RpcServer M Req Resp}
    {s : KqueueRun (List (Call M Req Resp)) (RecvPoint M) Empty} (room : s.run.conn.readBuf.Roomy)
    (ctl : s.run.ctl = .idle) (batch : s.batch = []) (filters : s.filters = ⟨true, true⟩)
    (opened : s.run.conn.closed = false) (recv : s.run.recv = .suspended .headerLen)
    (few : s.run.conn.readBytes < 4) (send : s.run.send = .write) (x : (Nat → UInt8) × Resp) :
    ∃ t, (kqueueMachine srv.endpoint).run s (readableFirst x) = some t ∧
    t.Orphaned srv.endpoint := by
  obtain ⟨⟨conn, app, i, send', recv', queue, ctl'⟩, filters', batch'⟩ := s
  simp only at room ctl batch filters opened recv few send
  subst ctl batch filters recv send
  have waits : RpcServer.waits conn (.headerLen : RecvPoint M) = true := by
    simp [RpcServer.waits, few, opened]
  have reads : (connMachine srv.endpoint).step
      ⟨conn, app, i, .write, .running, queue, .recv .headerLen⟩ (.read [.eof]) = some
        ⟨{ conn with
          readBuf := conn.readBuf.fill [], closed := true }, app, i, .write, .running, queue,
          .reading .headerLen 0⟩ := by
    simp only [connMachine, RpcServer.endpoint, waits, if_true, readAll_eof room, Option.map_some]
  have counted : ({ conn with
      readBuf := conn.readBuf.fill [], closed := true } : Connection).recvAdd 0 =
      { conn with closed := true } := by
    have nothing : (conn.readBuf.fill []).recvAdd 0 = conn.readBuf := conn.readBuf.receive_nil
    simp [Connection.recvAdd, nothing]
  have leaves : (connMachine srv.endpoint).step
      ⟨{ conn with closed := true }, app, none, .finished, .running, queue, .recv .headerLen⟩
        (.step x) =
        some ⟨{ conn with closed := true }, app, none, .finished, .finished, queue, .idle⟩ := by
    have short : ({ conn with closed := true } : Connection).readBytes < 4 := few
    simp [connMachine, RpcServer.endpoint, RpcServer.waits, RpcServer.recvStep, short,
      RpcServer.leave, Connection.close, ConnRun.goes, RpcServer.finished]
  refine ⟨⟨⟨{ conn with closed := true }, app, none, .finished, .finished, queue, .idle⟩,
    ⟨false, false⟩, [⟨.write, false⟩]⟩, ?_, rfl, List.cons_ne_nil _ _⟩
  refine Option.bind_eq_some_iff.mpr ⟨_, rfl, ?_⟩
  refine Option.bind_eq_some_iff.mpr ⟨_, rfl, ?_⟩
  refine Option.bind_eq_some_iff.mpr ⟨_, rfl, ?_⟩
  refine Option.bind_eq_some_iff.mpr ⟨_, Option.map_eq_some_iff.mpr ⟨_, reads, rfl⟩, ?_⟩
  refine Option.bind_eq_some_iff.mpr ⟨_, rfl, ?_⟩
  refine Option.bind_eq_some_iff.mpr
    ⟨⟨⟨{ conn with closed := true }, app, none, .finished, .running, queue,
    .recv .headerLen⟩, ⟨false, false⟩, [⟨.write, false⟩]⟩, ?_, ?_⟩
  · rw [← counted]
    rfl
  · exact Option.bind_eq_some_iff.mpr ⟨_, Option.map_eq_some_iff.mpr ⟨_, leaves, rfl⟩, rfl⟩

theorem event_obeys {srv : RpcServer M Req Resp}
    (c : ConnRun (List (Call M Req Resp)) (RecvPoint M) Empty)
    (op : ConnOp ((Nat → UInt8) × Resp) Empty) (event : op.isEvent = true) :
    ((op.isEvent = false → c.Bounded) ∧ ClosesDrained srv c op) ∧ ObeysProtocol srv c op := by
  cases op with
  | event => exact ⟨⟨fun other => absurd other (by simp [ConnOp.isEvent]), trivial⟩, trivial⟩
  | _ => cases event

theorem not_orphaned {srv : RpcServer M Req Resp}
    {s : KqueueRun (List (Call M Req Resp)) (RecvPoint M) Empty} (follows : s.Follows srv.endpoint)
    (registered : s.view.Deregistered srv) : ¬ s.Orphaned srv.endpoint := by
  rintro ⟨ended, more⟩
  obtain ⟨ev, rest, batch⟩ := List.exists_cons_of_ne_nil more
  rcases follows.pending ev (batch ▸ List.mem_cons_self) with has | ⟨_, hung⟩
  · obtain ⟨i, interest⟩ := KqueueRun.interest_of_has follows.both has
    have finished : s.run.recv = .finished := by
      unfold ConnRun.ended at ended
      split at ended
      · assumption
      · simp at ended
    cases (registered.finished finished).symm.trans interest
  · cases hung.held.symm.trans ended

theorem readable_suspended {srv : RpcServer M Req Resp}
    {s : ConnRun (List (Call M Req Resp)) (RecvPoint M) Empty} (h : s.Deregistered srv)
    (ctl : s.ctl = .readable) : ∃ p, s.recv = .suspended p := by
  have fits := h.alone.placed.fits
  rw [ctl] at fits
  obtain ⟨running, created, registered⟩ := fits
  cases hr : s.recv with
  | created => exact absurd hr created
  | running => exact absurd hr running
  | suspended p => exact ⟨p, rfl⟩
  | finished => exact absurd (h.finished hr) registered

/-- As long as the batches of `kevent` are orderly, fewer than 2³¹ bytes are buffered, the peer
makes no protocol error, and what is buffered when it closes makes `recv_fn` leave its loop, no
event of a server's connection is left when its coroutines have ended, and every resume finds its
coroutine suspended. Where both events are due and the readable one is first, the end of the stream
between two frames ends both coroutines before the writable event is handled. -/
theorem kqueue_events_find_their_connection (srv : RpcServer M Req Resp) :
    (∀ s, (kqueueMachine srv.endpoint).ReachWith
        (KqueueRun.Within fun c op => (c.Bounded ∧ ClosesDrained srv c op) ∧
          ObeysProtocol srv c op) s →
      ¬ s.Orphaned srv.endpoint ∧ (s.run.ctl = .readable → ∃ p, s.run.recv = .suspended p) ∧
        ∀ next, s.run.afterResume srv.endpoint = some next → s.run.send.Suspended) ∧
    ∀ s x, (kqueueMachine srv.endpoint).ReachWith (KqueueRun.Within fun _ _ => True) s →
      s.run.ctl = .idle → s.batch = [] → s.filters = ⟨true, true⟩ → s.run.conn.closed = false →
      s.run.recv = .suspended .headerLen → s.run.conn.readBytes < 4 → s.run.send = .write →
      ∃ t, (kqueueMachine srv.endpoint).run s (readableFirst x) = some t ∧
        t.Orphaned srv.endpoint := by
  constructor
  · intro s h
    have steps := h.mono (KqueueRun.Within.mono fun _ op ok =>
      And.intro (And.intro (fun _ : op.isEvent = false => ok.1.1) ok.1.2) ok.2)
    obtain ⟨follows, reached⟩ := kqueue_reach event_obeys steps
    have registered := deregistered_reach (reached.mono fun _ _ ok => ok.2)
    have disciplined := server_disciplined (reached.mono fun _ _ ok => ok.1)
    have readable := readable_suspended registered
    exact ⟨not_orphaned follows registered, readable, fun next site => disciplined.suspended site⟩
  · intro s x h ctl batch filters opened recv few send
    have reached := (kqueue_reach (fun _ _ _ => trivial) h).2
    have room := (roomy_reach srv.leavesRoom reached).room
    exact readable_first_orphans room ctl batch filters opened recv few send x

def readableOnce : List (KqueueOp ((Nat → UInt8) × List UInt8) Empty) :=
  [.conn (.startSend []), .conn .startRecv, .conn (.read [.eagain]), .conn .proceed, .conn .await,
    .kevent [⟨.read, false⟩], .next]

/- A server resumed by a readable event; and one whose response is half written when the
peer closes. -/
theorem kqueue_events_find_their_connection_in_order :
    (∃ s, (kqueueMachine echoServer.endpoint).Reach s ∧ s.run.ctl = .readable ∧
      ¬ s.Orphaned echoServer.endpoint ∧ ∃ p, s.run.recv = .suspended p) ∧
    ∃ s t, (kqueueMachine echoServer.endpoint).Reach s ∧
      (kqueueMachine echoServer.endpoint).run s (readableFirst (fun _ => 0, [])) = some t ∧
      t.Orphaned echoServer.endpoint := by
  constructor
  · obtain ⟨s, hs, ctl⟩ : ∃ s,
        (kqueueMachine echoServer.endpoint).run
          (kqueueMachine echoServer.endpoint).start readableOnce =
          some s ∧ s.run.ctl = .readable := ⟨_, rfl, rfl⟩
    have along : (kqueueMachine echoServer.endpoint).Along
        (KqueueRun.Within fun c op => c.Bounded ∧ AwaitsOpen c op = true ∧ Gentle c op = true)
        (kqueueMachine echoServer.endpoint).start readableOnce := by decide +kernel
    have reached :=
      (Machine.reachWith_run .start along hs).mono (KqueueRun.Within.mono fun _ _ ok =>
      And.intro (And.intro ok.1 (closes_drained_of_open echoServer ok.2.1))
        (ends_orderly_of_gentle echoServer ok.2.2).obeys)
    obtain ⟨held, resumes, _⟩ := (kqueue_events_find_their_connection echoServer).1 s reached
    exact ⟨s, reached.reach, ctl, held, resumes ctl⟩
  · obtain ⟨s, hs, ctl, batch, filters, opened, recv, few, send⟩ : ∃ s,
        (kqueueMachine echoServer.endpoint).run (kqueueMachine echoServer.endpoint).start
          [.conn (.startSend []), .conn .startRecv,
            .conn (.read [.data [2, 0, 0, 0, 1, 7, 1, 0, 0, 0, 9], .eagain]), .conn .proceed,
            .conn .await, .conn (.step (fun _ => 0, [5])), .conn (.step (fun _ => 0, [5])),
            .conn (.step (fun _ => 0, [5])), .conn (.step (fun _ => 0, [5])),
            .conn (.resumeWrite [[.accepted 4, .eagain]]), .conn (.read [.eagain]), .conn .proceed,
            .conn .await] = some s ∧
        s.run.ctl = .idle ∧ s.batch = [] ∧ s.filters = ⟨true, true⟩ ∧ s.run.conn.closed = false ∧
        s.run.recv = .suspended .headerLen ∧ s.run.conn.readBytes = 0 ∧ s.run.send = .write :=
      ⟨_, rfl, rfl, rfl, rfl, rfl, rfl, rfl, rfl⟩
    have reached : (kqueueMachine echoServer.endpoint).ReachWith
      (KqueueRun.Within fun _ _ => True) s :=
      Machine.reachWith_run .start (Machine.along_of_forall (by simp [KqueueRun.Within]) _) hs
    obtain ⟨t, ht, orphaned⟩ :=
      (kqueue_events_find_their_connection echoServer).2 s (fun _ => 0, []) reached
      ctl batch filters opened recv (by omega) send
    exact ⟨s, t, reached.reach, ht, orphaned⟩

theorem ClientChannel.sendRequest_endings {ch : ClientChannel Args R Msg} {junk : Nat → UInt8}
    {call : MethodCall Args R D} {st st' : ClientState R D Msg} {c d : Connection}
    (hs : ch.sendRequest junk call st c = some (st', d)) : st'.endings = st.endings := by
  obtain ⟨b, _, hs⟩ := Option.bind_eq_some_iff.mp hs
  obtain ⟨r, _, hd⟩ := Option.map_eq_some_iff.mp hs
  cases hd
  rfl

/-- kqueue reports the end of the stream with an event of its own, also over bytes that nobody has
read. After it `recv_fn` is never resumed: a server serves no request any more and keeps the
connection for ever, and of the calls of a channel none ends any more. -/
theorem kqueue_eof_is_final (srv : RpcServer M Req Resp) (ch : ClientChannel Args R Msg) :
    (∀ s ev rest t ops u, (kqueueMachine srv.endpoint).ReachWith
      (KqueueRun.Within fun _ _ => True) s →
      s.batch = ev :: rest → ev.eof = true → (kqueueMachine srv.endpoint).step s .next = some t →
      (kqueueMachine srv.endpoint).run t ops = some u →
      u.run.recv = s.run.recv ∧ u.run.app = s.run.app ∧ u.run.ended srv.endpoint = false) ∧
    ∀ s ev rest t ops u,
      (kqueueMachine (ch.endpoint (D := D))).ReachWith (KqueueRun.Within fun _ _ => True) s →
      s.batch = ev :: rest → ev.eof = true → (kqueueMachine ch.endpoint).step s .next = some t →
      (kqueueMachine ch.endpoint).run t ops = some u →
      u.run.recv = s.run.recv ∧ u.run.app.endings = s.run.app.endings := by
  constructor
  · intro s ev rest t ops u reached batch ends hs hr
    have follows := (kqueue_reach (fun _ _ _ => trivial) reached).1
    obtain ⟨ended, recv, send, app, held⟩ := follows.ended batch ends hs
    have final :=
      ended.run hr (I := fun v => v.run.send = t.run.send ∧ v.run.app = t.run.app) ⟨rfl, rfl⟩ ?_
    · obtain ⟨recv', send', app'⟩ := final
      refine ⟨recv'.trans recv, app'.trans app, ?_⟩
      rw [← held, ConnRun.ended, ConnRun.ended, recv', send']
    · rintro v w ⟨send', app'⟩ later
      cases later with
      | same send'' app'' => exact ⟨send''.trans send', app''.trans app'⟩
      | call junk request submit => exact request.elim
      | resume request app'' => exact request.elim
  · intro s ev rest t ops u reached batch ends hs hr
    have follows := (kqueue_reach (fun _ _ _ => trivial) reached).1
    obtain ⟨ended, recv, send, app, held⟩ := follows.ended batch ends hs
    have final := ended.run hr (I := fun v => v.run.app.endings = t.run.app.endings) rfl ?_
    · exact ⟨final.1.trans recv, final.2.trans (congrArg ClientState.endings app)⟩
    · intro v w same later
      cases later with
      | same send'' app'' => exact (congrArg ClientState.endings app'').trans same
      | call junk request submit => exact (ClientChannel.sendRequest_endings submit).trans same
      | resume request app'' => exact (congrArg ClientState.endings app'').trans same

end

/- The peer closes while both coroutines of a server are suspended: they stay so. -/
theorem kqueue_eof_is_final_between_frames :
    ∃ s, (kqueueMachine echoServer.endpoint).Reach s ∧
      ∀ ops u, (kqueueMachine echoServer.endpoint).run s ops = some u →
        u.run.recv = .suspended .headerLen ∧ u.run.ended echoServer.endpoint = false := by
  obtain ⟨s, t, hs, batch, recv, ht⟩ : ∃ s t,
      (kqueueMachine echoServer.endpoint).run (kqueueMachine echoServer.endpoint).start
        [.conn (.startSend []), .conn .startRecv, .conn (.read [.eagain]), .conn .proceed,
          .conn .await, .kevent [⟨.read, true⟩]] = some s ∧
      s.batch = [⟨.read, true⟩] ∧ s.run.recv = .suspended .headerLen ∧
      (kqueueMachine echoServer.endpoint).step s .next = some t := ⟨_, _, rfl, rfl, rfl, rfl⟩
  have reached : (kqueueMachine echoServer.endpoint).ReachWith
    (KqueueRun.Within fun _ _ => True) s :=
    Machine.reachWith_run .start
      (Machine.along_of_forall (by simp [KqueueRun.Within, Kevent.Orderly]) _) hs
  refine ⟨t, reached.reach.step ht, fun ops u hu => ?_⟩
  obtain ⟨same, _, held⟩ :=
    (kqueue_eof_is_final (D := Unit) echoServer echoClient).1 s _ _ t ops u reached
    batch rfl ht hu
  exact ⟨same.trans recv, held⟩

end Xuanqiong
