import Xuanqiong.Server.RingConn

/-! How a connection on the ring ends. The READ that finds the end of the stream resumes `send_fn`,
or leaves that to the WRITE in flight; a `recv_fn` that leaves its loop by itself resumes nobody.
And an error is no end: the READ is submitted again. -/
namespace Xuanqiong

section

variable {M Req Resp : Type} {srv : RpcServer M Req Resp} {s t : RingRun M Req Resp}

/- The connection is there, and nothing will ever happen to it. -/
def RingRun.Leaked (srv : RpcServer M Req Resp) (s : RingRun M Req Resp) : Prop :=
  s.released = false ∧ ∀ op, (ringMachine srv).step s op = none

theorem RingRun.Inv.of_finished (h : s.Inv) (recv : s.recv = .finished) :
    s.write.closed = true ∧ s.reads = [] := by
  have recvs := h.recvs
  rw [RingRun.Recvs, recv] at recvs
  exact recvs

theorem RingMove.last {op : RingOp Resp} (move : RingMove srv s op t) (recv : s.recv = .finished) :
    ∃ iovs res w, op = .completeWrite iovs res ∧ iovs ∈ s.write.inflight ∧
      s.write.complete iovs res = some w ∧ t = { s with write := w } := by
  cases move with
  | start busy | asyncRead busy | step busy | reply busy | data busy | eof busy | failed busy =>
    cases recv.symm.trans busy
  | completeWrite idle sent run => exact ⟨_, _, _, rfl, sent, run, rfl⟩

theorem leaked_of_none (recv : s.recv = .finished) (alive : s.write.send ≠ .done)
    (none : s.write.inflight = []) : s.Leaked srv := by
  constructor
  · refine Bool.eq_false_iff.mpr fun released => alive (released_iff.mp released).1
  · intro op
    cases hs : (ringMachine srv).step s op with
    | none => rfl
    | some t =>
      obtain ⟨iovs, _, _, _, sent, _⟩ := (ring_move hs).last recv
      rw [none] at sent
      cases sent

theorem complete_ends {w v : UringRun} (h : w.Inv) (waits : w.Waits True) (closed : w.closed = true)
    {iovs : List Region} {res : Int} (sent : iovs ∈ w.inflight)
    (run : w.complete iovs res = some v) :
    v.send = .done := by
  have suspended := waits.of_flight h (List.ne_nil_of_mem sent)
  obtain ⟨bytes, _, run⟩ := Option.bind_eq_some_iff.mp run
  split at run
  · obtain ⟨u, credit, run⟩ := Option.bind_eq_some_iff.mp run
    obtain ⟨b, _, rfl⟩ := Option.map_eq_some_iff.mp credit
    simp only [UringRun.resumeWrite, suspended, closed, if_true, Option.some.injEq] at run
    rw [← run]
  · cases run

theorem readEof_ends {w v : UringRun} (waits : w.Waits True) (alive : w.send ≠ .done)
    (free : w.backLeft = 0) (run : w.readEof = some v) : v.send = .done := by
  have empty : w.out.buf.bytes = 0 ∧ w.send = .waitWrite := by
    unfold UringRun.Waits at waits
    cases send : w.send with
    | waitWrite =>
      rw [send] at waits
      exact ⟨waits.2 trivial, rfl⟩
    | write =>
      rw [send] at waits
      exact absurd free (Nat.ne_of_gt waits.1)
    | done => exact absurd send alive
  have idle : ¬ 0 < w.backLeft := by omega
  simp only [UringRun.readEof, if_pos free, UringRun.resumeWrite, empty.2, UringRun.sendLoop,
    UringRun.asyncWrite, if_neg idle, empty.1, if_true, Bool.false_eq_true, if_false,
    Option.some.injEq] at run
  rw [← run]

/- `recv_fn` waits on a closed connection for the rest of a request, in the one loop that does not
ask whether it is closed. -/
structure RingRun.Spins (s : RingRun M Req Resp) : Prop where
  closed : s.write.closed = true
  waits : ∃ h m n, s.recv = .running (.request h m n) ∧ s.conn.readBytes < n

theorem RingRun.Spins.not_released (h : s.Spins) : s.released = false := by
  obtain ⟨_, _, _, recv, _⟩ := h.waits
  refine Bool.eq_false_iff.mpr fun released => ?_
  cases recv.symm.trans (released_iff.mp released).2

theorem RingRun.Spins.goes (h : s.Spins) : ∃ t, (ringMachine srv).step s .asyncRead = some t := by
  obtain ⟨header, m, n, recv, short⟩ := h.waits
  refine ⟨s.asyncRead (.request header m n), ?_⟩
  simp only [ringMachine, recv, RpcServer.waits, short, decide_true, if_true]

theorem spins_step {op : RingOp Resp} (h : s.Spins) (move : RingMove srv s op t) : t.Spins := by
  obtain ⟨header, m, n, recv, short⟩ := h.waits
  cases move with
  | start busy | data busy | eof busy | failed busy => cases recv.symm.trans busy
  | asyncRead busy waits =>
    cases recv.symm.trans busy
    exact ⟨h.closed, header, m, n, by simp only [RingRun.asyncRead, h.closed, if_true], short⟩
  | step busy quiet goes run =>
    cases recv.symm.trans busy
    exact absurd short (by simpa [RpcServer.waits] using goes)
  | reply busy run => cases recv.symm.trans busy
  | completeWrite idle sent run => simp [RingRun.idle, recv] at idle

theorem RingRun.Inv.cut_short (h : s.Inv) {p : RecvPoint M} (recv : s.recv = .running p)
    (closed : s.write.closed = true) : s.conn.readBytes < p.needs := by
  rcases h.of_running recv with ⟨opened, _⟩ | ⟨_, short, _⟩
  · cases closed.symm.trans opened
  · exact waits_reopen.mp short

theorem RingRun.Inv.leaves (h : s.Inv) {p : RecvPoint M} (recv : s.recv = .running p)
    (closed : s.write.closed = true) (done : s.write.send = .done)
    (outside : ∀ h m n, p ≠ .request h m n) :
    (∀ memory response, ∃ t, (ringMachine srv).step s (.step memory response) = some t) ∧
      ∀ op t, (ringMachine srv).step s op = some t → t.released = true := by
  have short := h.cut_short recv closed
  have quiet : p ≠ .reply := by
    rintro rfl
    exact absurd short (Nat.not_lt_zero _)
  have goes : RpcServer.waits s.conn p = false := by
    have closed' : s.conn.closed = true := closed
    cases p with
    | request header m n => exact absurd rfl (outside header m n)
    | headerLen | header | requestLen | reply | done => simp [RpcServer.waits, closed']
  constructor
  · intro memory response
    have leaves : srv.recvStep memory response s.conn p = some (RpcServer.leave s.conn) :=
      recvStep_cut_short closed (waits_reopen.mpr short)
    refine ⟨s.goes (RpcServer.leave s.conn), ?_⟩
    simp only [ringMachine, recv, goes, leaves, Bool.false_eq_true, if_false, Option.map_some]
  · intro op t hs
    cases ring_move hs with
    | start busy | data busy | eof busy | failed busy => cases recv.symm.trans busy
    | asyncRead busy waits =>
      cases recv.symm.trans busy
      cases goes.symm.trans waits
    | step busy quiet' goes' run =>
      cases recv.symm.trans busy
      cases (recvStep_cut_short closed (waits_reopen.mpr short)).symm.trans run
      exact released_iff.mpr ⟨done, rfl⟩
    | reply busy run =>
      cases recv.symm.trans busy
      exact absurd rfl quiet
    | completeWrite idle sent run => simp [RingRun.idle, recv] at idle

/-- Once `recv_fn` is gone the connection is deleted, or will be with the WRITE in flight, or never.
When the stream ends, not within a request, and nothing is being sent, the next step is the last;
within a request READs are submitted for ever and it is never deleted. Nor is it when `recv_fn` has
left an open connection while `send_fn` waits for output. -/
theorem ring_teardown (srv : RpcServer M Req Resp) (s : RingRun M Req Resp)
    (h : (ringMachine srv).Reach s) :
    (s.recv = .finished → s.released = true ∨ s.Leaked srv ∨
      s.write.inflight ≠ [] ∧ ∀ iovs res t,
        (ringMachine srv).step s (.completeWrite iovs res) = some t → t.released = true) ∧
    (∀ buffer p t, s.recv = .suspended p → (∀ h m n, p ≠ .request h m n) → s.write.backLeft = 0 →
      (ringMachine srv).step s (.completeRead buffer .eof) = some t →
      (∀ memory response, ∃ u, (ringMachine srv).step t (.step memory response) = some u) ∧
        ∀ op u, (ringMachine srv).step t op = some u → u.released = true) ∧
    (∀ buffer h m n t, s.recv = .suspended (.request h m n) →
      (ringMachine srv).step s (.completeRead buffer .eof) = some t →
      ∀ ops u, (ringMachine srv).run t ops = some u →
        u.released = false ∧ ∃ v, (ringMachine srv).step u .asyncRead = some v) ∧
    ∀ memory response t, s.write.closed = false → s.write.send = .waitWrite →
      (ringMachine srv).step s (.step memory response) = some t → t.recv = .finished →
      t.Leaked srv := by
  have inv := ring_reach h
  refine ⟨?_, ?_, ?_, ?_⟩
  · intro recv
    obtain ⟨closed, _⟩ := inv.of_finished recv
    have waits : s.write.Waits True := inv.sends.mono fun _ => by rw [recv]; trivial
    by_cases done : s.write.send = .done
    · exact Or.inl (released_iff.mpr ⟨done, recv⟩)
    · by_cases none : s.write.inflight = []
      · exact Or.inr (Or.inl (leaked_of_none recv done none))
      · refine Or.inr (Or.inr ⟨none, fun iovs res t hs => ?_⟩)
        obtain ⟨_, _, w, same, sent, run, rfl⟩ := (ring_move hs).last recv
        cases same
        exact released_iff.mpr ⟨complete_ends inv.write waits closed sent run, recv⟩
  · intro buffer p t recv outside free hs
    have after := ring_step inv (ring_move hs)
    have waits : s.write.Waits True := inv.sends.mono fun _ => by rw [recv]; trivial
    cases ring_move hs with
    | eof suspended sent run =>
      cases recv.symm.trans suspended
      have done := readEof_ends waits (inv.not_done (inv.of_suspended recv).1) free run
      have closed := (inv.write.readEof_waits waits run).2.1
      exact after.leaves rfl closed done outside
  · intro buffer header m n t recv hs ops u hu
    have after := ring_step inv (ring_move hs)
    have waits : s.write.Waits True := inv.sends.mono fun _ => by rw [recv]; trivial
    have spins : t.Spins := by
      cases ring_move hs with
      | eof suspended sent run =>
        cases recv.symm.trans suspended
        have closed := (inv.write.readEof_waits waits run).2.1
        exact ⟨closed, header, m, n, rfl, after.cut_short rfl closed⟩
    have still :=
      Machine.run_invariant (fun s op t hs step => spins_step hs (ring_move step)) spins hu
    exact ⟨still.not_released, still.goes⟩
  · intro memory response t opened waitWrite hs recv
    cases ring_move hs with
    | step busy quiet waits run =>
      have free : s.write.backLeft = 0 := by
        have sends := inv.sends
        rw [UringRun.Waits, waitWrite] at sends
        exact sends.1
      refine leaked_of_none recv ?_ (inv.write.no_flight free)
      simp only [RingRun.goes, waitWrite]
      decide

/- The stream ends between two requests, and within one; and a header is refused on a connection
that has nothing to send. -/
theorem ring_teardown_of_three_ends :
    (∃ s t u, (ringMachine echoServer).run (ringMachine echoServer).start
        [.start, .asyncRead] = some s ∧
      (ringMachine echoServer).step s (.completeRead s.input.getBuffer .eof) = some t ∧
      (ringMachine echoServer).step t (.step (fun _ => 0) [5]) = some u ∧ u.released = true) ∧
    (∃ s t, (ringMachine echoServer).run (ringMachine echoServer).start
        [.start, .asyncRead, .completeRead ⟨0, 0, 8192⟩ (.data [2, 0, 0, 0, 1, 7, 3, 0, 0, 0, 9]),
          .step (fun _ => 0) [5], .step (fun _ => 0) [5], .step (fun _ => 0) [5],
          .asyncRead] = some s ∧
      (ringMachine echoServer).step s (.completeRead s.input.getBuffer .eof) = some t ∧
      ∀ ops u, (ringMachine echoServer).run t ops = some u → u.released = false) ∧
    ∃ s t, (ringMachine echoServer).run (ringMachine echoServer).start
        [.start, .asyncRead, .completeRead ⟨0, 0, 8192⟩ (.data [2, 0, 0, 0, 0, 7]),
          .step (fun _ => 0) [5]] = some s ∧
      (ringMachine echoServer).step s (.step (fun _ => 0) [5]) = some t ∧ t.Leaked echoServer := by
  refine ⟨?_, ?_, ?_⟩
  · obtain ⟨s, t, hs, recv, free, ht⟩ : ∃ s t,
        (ringMachine echoServer).run (ringMachine echoServer).start [.start, .asyncRead] = some s ∧
        s.recv = .suspended .headerLen ∧ s.write.backLeft = 0 ∧
        (ringMachine echoServer).step s (.completeRead s.input.getBuffer .eof) = some t :=
      ⟨_, _, rfl, rfl, rfl, rfl⟩
    have ends := ring_teardown echoServer s (Machine.reach_run .start hs)
    obtain ⟨goes, last⟩ := ends.2.1 _ _ t recv (by simp) free ht
    obtain ⟨u, hu⟩ := goes (fun _ => 0) [5]
    exact ⟨s, t, u, hs, ht, hu, last _ u hu⟩
  · obtain ⟨s, t, hs, recv, ht⟩ : ∃ s t,
        (ringMachine echoServer).run (ringMachine echoServer).start
          [.start, .asyncRead, .completeRead ⟨0, 0, 8192⟩ (.data [2, 0, 0, 0, 1, 7, 3, 0, 0, 0, 9]),
            .step (fun _ => 0) [5], .step (fun _ => 0) [5], .step (fun _ => 0) [5],
            .asyncRead] = some s ∧
        s.recv = .suspended (.request echoFrame.header () 3) ∧
        (ringMachine echoServer).step s (.completeRead s.input.getBuffer .eof) = some t :=
      ⟨_, _, rfl, rfl, rfl⟩
    have ends := ring_teardown echoServer s (Machine.reach_run .start hs)
    exact ⟨s, t, hs, ht, fun ops u hu => (ends.2.2.1 _ _ _ _ t recv ht ops u hu).1⟩
  · obtain ⟨s, t, hs, ht, opened, waitWrite, recv⟩ : ∃ s t,
        (ringMachine echoServer).run (ringMachine echoServer).start
          [.start, .asyncRead, .completeRead ⟨0, 0, 8192⟩ (.data [2, 0, 0, 0, 0, 7]),
            .step (fun _ => 0) [5]] =
            some s ∧
        (ringMachine echoServer).step s (.step (fun _ => 0) [5]) = some t ∧
        s.write.closed = false ∧ s.write.send = .waitWrite ∧ t.recv = .finished :=
      ⟨_, _, rfl, rfl, rfl, rfl, rfl⟩
    have ends := ring_teardown echoServer s (Machine.reach_run .start hs)
    exact ⟨s, t, hs, ht, ends.2.2.2 _ _ t opened waitWrite ht recv⟩

/-- A READ that fails leaves no trace: `recv_fn` submits it again and all is as before,
however often. -/
theorem ring_failed_reads_change_nothing (srv : RpcServer M Req Resp) (s : RingRun M Req Resp)
    (h : (ringMachine srv).Reach s) (p : RecvPoint M) (recv : s.recv = .suspended p)
    (errors : List Int) (negative : ∀ res ∈ errors, res < 0) :
    (ringMachine srv).run s (errors.flatMap fun res =>
      [.completeRead s.input.getBuffer (.failed res), .asyncRead]) = some s := by
  have inv := ring_reach h
  obtain ⟨opened, alone, waits⟩ := inv.of_suspended recv
  induction errors with
  | nil => rfl
  | cons res rest ih =>
    have error : res < 0 := negative res List.mem_cons_self
    have failed : (ringMachine srv).step s (.completeRead s.input.getBuffer (.failed res)) =
        some { s with reads := [], recv := .running p } := by
      refine (if_pos (inv.read_due recv)).trans ?_
      simp only [RingRun.takeRead, if_pos error, Option.bind_some, RingRun.resumeRead, recv,
        recvAdd_failed error, alone, List.erase_cons_head]
    have again : (ringMachine srv).step { s with
        reads := [], recv := .running p } .asyncRead = some s := by
      have same : ({ s with
          reads := [], recv := .running p } : RingRun M Req Resp).asyncRead p = s := by
        simp only [RingRun.asyncRead, opened, Bool.false_eq_true, if_false, List.nil_append,
          ← alone, ← recv]
      exact (if_pos waits).trans (congrArg some same)
    have tail := ih fun res' hm => negative res' (List.mem_cons_of_mem _ hm)
    simp only [List.flatMap_cons, List.cons_append, List.nil_append, Machine.run, failed, again,
      Option.bind_some]
    exact tail

/- The peer has reset the connection (ECONNRESET). -/
theorem ring_failed_reads_change_nothing_after_reset :
    ∃ s, (ringMachine echoServer).run (ringMachine echoServer).start [.start, .asyncRead] = some s ∧
      (ringMachine echoServer).run s ((List.replicate 1000 (-104)).flatMap fun res =>
        [.completeRead s.input.getBuffer (.failed res), .asyncRead]) = some s := by
  obtain ⟨s, hs, recv⟩ : ∃ s, (ringMachine echoServer).run (ringMachine echoServer).start
      [.start, .asyncRead] = some s ∧ s.recv = .suspended .headerLen := ⟨_, rfl, rfl⟩
  refine ⟨s, hs, ring_failed_reads_change_nothing echoServer s
    (Machine.reach_run .start hs) _ recv _ ?_⟩
  intro res hm
  rw [List.eq_of_mem_replicate hm]
  decide

end

end Xuanqiong
