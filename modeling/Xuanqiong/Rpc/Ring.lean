import Xuanqiong.Rpc.Poll
import Xuanqiong.Server.RingConn

/-! A server on the ring as one end of an rpc. The completions take the bytes of the socket in order
and put those of the output in order into it, without a condition on what the kernel reports, so
that the server is what it is without its executor. -/
namespace Xuanqiong

section

variable {M Req Resp : Type}

structure RingEnd (M Req Resp : Type) where
  run : RingRun M Req Resp
  received : List UInt8

def RingOp.input : RingOp Resp → List UInt8
  | .completeRead _ (.data bs) => bs
  | _ => []

def ringEndMachine (srv : RpcServer M Req Resp) : Machine (RingEnd M Req Resp) (RingOp Resp) where
  start := ⟨(ringMachine srv).start, []⟩
  step s op := ((ringMachine srv).step s.run op).map fun t => ⟨t, s.received ++ op.input⟩

variable {srv : RpcServer M Req Resp} {s t : RingRun M Req Resp} {op : RingOp Resp}

theorem UringRun.readEof_kernel {w v : UringRun} (hs : w.readEof = some v) :
    v.kernel = w.kernel := by
  unfold UringRun.readEof at hs
  split at hs
  · exact (UringRun.resumeWrite_same hs).kernel
  · cases hs
    rfl

theorem UringRun.complete_kernel {w v : UringRun} {iovs : List Region} {res : Int}
    (hs : w.complete iovs res = some v) : w.kernel <+: v.kernel := by
  obtain ⟨bytes, _, hs⟩ := Option.bind_eq_some_iff.mp hs
  split at hs
  · obtain ⟨u, credit, hs⟩ := Option.bind_eq_some_iff.mp hs
    obtain ⟨b, _, rfl⟩ := Option.map_eq_some_iff.mp credit
    rw [(UringRun.resumeWrite_same hs).kernel]
    exact List.prefix_append _ _
  · cases hs

theorem ring_kernel (move : RingMove srv s op t) : s.write.kernel <+: t.write.kernel := by
  cases move with
  | start | asyncRead | step | data | failed => exact List.prefix_refl _
  | reply recv run => exact (UringRun.resumeWrite_same run).kernel ▸ List.prefix_refl _
  | eof recv sent run => exact UringRun.readEof_kernel run ▸ List.prefix_refl _
  | completeWrite idle sent run => exact UringRun.complete_kernel run

def RpcServer.ring (srv : RpcServer M Req Resp) :
    Party (RingEnd M Req Resp) (RingOp Resp) UInt8 where
  machine := ringEndMachine srv
  received := RingEnd.received
  sent s := s.run.write.kernel
  received_start := rfl
  received_grows hs := by
    obtain ⟨t, _, rfl⟩ := Option.map_eq_some_iff.mp hs
    exact List.prefix_append _ _
  sent_grows hs := by
    obtain ⟨t, step, rfl⟩ := Option.map_eq_some_iff.mp hs
    exact ring_kernel (ring_move step)

def RingRecv.point : RingRecv M → Option (RecvPoint M)
  | .created => some .headerLen
  | .running p | .suspended p => some p
  | .finished => none

/-- The end on the ring is where the one without its executor is. -/
structure Rings (s : RingEnd M Req Resp)
    (u : StreamRun (List (Call M Req Resp)) (RecvPoint M) Empty) :
    Prop where
  inv : s.run.Inv
  conn : u.conn = s.run.conn
  app : u.app = s.run.calls
  traffic : u.traffic = ⟨[], s.received, s.run.write.kernel⟩
  point : ∀ p, s.run.recv.point = some p → u.point = p

section

variable {s t : RingEnd M Req Resp} {u : StreamRun (List (Call M Req Resp)) (RecvPoint M) Empty}

theorem Rings.stays (h : Rings s u) (inv : t.run.Inv) (conn : t.run.conn = s.run.conn)
    (calls : t.run.calls = s.run.calls) (received : t.received = s.received ++ [])
    (kernel : t.run.write.kernel = s.run.write.kernel)
    (point : ∀ p, t.run.recv.point = some p → s.run.recv.point = some p) :
    ∃ ops u', (streamMachine srv.endpoint).run u ops = some u' ∧ Rings t u' := by
  refine ⟨[], u, rfl, inv, h.conn.trans conn.symm, h.app.trans calls.symm, ?_,
    fun p here => h.point p (point p here)⟩
  rw [h.traffic, received, kernel, List.append_nil]

theorem rings_data (h : Rings s u) {bs : List UInt8} {p : RecvPoint M}
    (recv : s.run.recv = .suspended p) (fits : (bs.length : Int) ≤ s.run.input.getBuffer.size)
    (inv : RingRun.Inv { s.run with
      input := s.run.input.receive bs
      reads := s.run.reads.erase s.run.input.getBuffer
      recv := .running p }) :
    ∃ ops u', (streamMachine srv.endpoint).run u ops = some u' ∧
      Rings ⟨{ s.run with
        input := s.run.input.receive bs
        reads := s.run.reads.erase s.run.input.getBuffer
        recv := .running p },
        s.received ++ bs⟩ u' := by
  obtain ⟨_, _, waits⟩ := h.inv.of_suspended recv
  have here : u.point = p := h.point p (by rw [recv]; rfl)
  have step : (streamMachine srv.endpoint).step u (.read bs) = some { u with
      conn := { u.conn with readBuf := u.conn.readBuf.receive bs }
      traffic := u.traffic.add [] bs [] } := by
    apply if_pos
    rw [h.conn, here]
    exact ⟨waits, fits⟩
  refine ⟨[.read bs], _, Option.bind_eq_some_iff.mpr ⟨_, step, rfl⟩, inv, ?_, h.app, ?_, ?_⟩
  · rw [h.conn]
    rfl
  · rw [h.traffic]
    simp [Traffic.add]
  · rintro q ⟨⟩
    exact here

theorem rings_goes (h : Rings s u) {memory : Nat → UInt8} {response : Resp} {p : RecvPoint M}
    {r : Connection × RecvPoint M × List (Call M Req Resp)} (recv : s.run.recv = .running p)
    (quiet : p ≠ .reply) (waits : RpcServer.waits s.run.conn p = false)
    (run : srv.recvStep memory response s.run.conn p = some r) (inv : (s.run.goes r).Inv) :
    ∃ ops u', (streamMachine srv.endpoint).run u ops = some u' ∧
      Rings ⟨s.run.goes r, s.received ++ []⟩ u' := by
  obtain ⟨d, q, calls⟩ := r
  have here : u.point = p := h.point p (by rw [recv]; rfl)
  have silent : srv.endpoint.replies p = none := by
    cases p with
    | reply => exact absurd rfl quiet
    | _ => rfl
  have turn : srv.endpoint.step (memory, response) s.run.calls s.run.conn p =
      some (s.run.calls ++ calls, d, q) := by
    simp only [RpcServer.endpoint, run, Option.map_some]
  have step : (streamMachine srv.endpoint).step u (.step (memory, response)) = some { u with
      app := s.run.calls ++ calls, conn := d, point := q } := by
    have go : srv.endpoint.waits s.run.conn p = false := waits
    simp only [streamMachine, go, here, silent, Option.isSome_none, Bool.or_self,
      Bool.false_eq_true, if_false, h.conn, h.app, turn, Option.map_some]
  refine ⟨[.step (memory, response)], _, Option.bind_eq_some_iff.mpr ⟨_, step, rfl⟩, inv, rfl,
    rfl, ?_, ?_⟩
  · rw [List.append_nil]
    exact h.traffic
  · intro q' there
    simp only [RingRun.goes] at there
    split at there
    · cases there
    · cases there
      rfl

theorem rings_step (h : Rings s u) {op : RingOp Resp}
    (hs : (ringEndMachine srv).step s op = some t) :
    ∃ ops u', (streamMachine srv.endpoint).run u ops = some u' ∧ Rings t u' := by
  obtain ⟨r, step, rfl⟩ := Option.map_eq_some_iff.mp hs
  have move := ring_move step
  have inv := ring_step h.inv move
  cases move with
  | start recv =>
    refine h.stays inv rfl rfl rfl rfl fun p here => ?_
    rw [recv]
    exact here
  | asyncRead recv waits =>
    refine h.stays inv rfl rfl rfl rfl fun p here => ?_
    rw [recv]
    simp only [RingRun.asyncRead] at here
    split at here <;> exact here
  | step recv quiet waits run => exact rings_goes h recv quiet waits run inv
  | reply recv run =>
    obtain ⟨out, closed, kernel⟩ := UringRun.resumeWrite_same run
    have here : u.point = .reply := h.point .reply (by rw [recv]; rfl)
    refine ⟨[.reply], { u with point := .headerLen }, ?_, inv, ?_, h.app, ?_, ?_⟩
    · simp only [Machine.run, streamMachine, here, RpcServer.endpoint, Option.map_some,
        Option.bind_some]
    · simp only [h.conn, RingRun.conn, out, closed]
    · rw [h.traffic, kernel]
      exact congrArg (fun bs => (⟨[], bs, s.run.write.kernel⟩ : Traffic Empty))
        (List.append_nil _).symm
    · rintro p ⟨⟩
      rfl
  | data recv sent nonempty fits run =>
    obtain ⟨_, alone, _⟩ := h.inv.of_suspended recv
    obtain ⟨n, laid⟩ := h.inv.laid
    rw [alone] at sent
    cases List.mem_singleton.mp sent
    cases (laid.poke _).symm.trans run
    exact rings_data h recv fits inv
  | eof recv sent run =>
    have waits : s.run.write.Waits True := h.inv.sends.mono fun _ => by rw [recv]; trivial
    obtain ⟨_, closed, out, kernel⟩ := h.inv.write.readEof_waits waits run
    refine ⟨[.close], { u with
      conn := u.conn.close }, rfl, inv, ?_, h.app, ?_, fun p here => h.point p ?_⟩
    · simp only [h.conn, RingRun.conn, Connection.close, out, closed]
    · rw [h.traffic, kernel]
      exact congrArg (fun bs => (⟨[], bs, s.run.write.kernel⟩ : Traffic Empty))
        (List.append_nil _).symm
    · rw [recv]
      exact here
  | failed recv sent negative =>
    refine h.stays inv ?_ rfl rfl rfl fun p here => ?_
    · rw [RingRun.conn, recvAdd_failed negative]
      rfl
    · rw [recv]
      exact here
  | @completeWrite iovs res w idle sent run =>
    have waits : s.run.write.Waits True := h.inv.sends.mono fun _ => announced_of_idle idle
    obtain ⟨_, closed, _, n, le, credit, kernel⟩ := h.inv.write.complete_credits waits sent run
    have output : u.conn.writeBuf = s.run.write.out.buf := by rw [h.conn]; rfl
    have step : (streamMachine srv.endpoint).step u (.sendAdd n) = some { u with
        conn := { u.conn with writeBuf := w.out.buf }
        traffic := u.traffic.add [] [] (s.run.write.out.buf.pending.take n) } := by
      have le' : n ≤ u.conn.writeBytes := by
        rw [Connection.writeBytes, output]
        exact le
      simp only [streamMachine, if_pos le', output, credit, Option.map_some]
    refine ⟨[.sendAdd n], _, Option.bind_eq_some_iff.mpr ⟨_, step, rfl⟩, inv, ?_, h.app,
      ?_, h.point⟩
    · simp only [h.conn, RingRun.conn, closed]
    · simp only [h.traffic, kernel, Traffic.add, RingOp.input, List.append_nil]

end

/-- The completions drive the server through what it does without them. -/
theorem ring_simulates (srv : RpcServer M Req Resp) :
    Party.Simulates srv.ring srv.endpoint.stream (fun _ _ => True) Rings where
  start := {
    inv := ring_start srv
    conn := rfl
    app := rfl
    traffic := rfl
    point := by
      rintro p ⟨⟩
      rfl }
  received h := congrArg Traffic.received h.traffic
  sent h := congrArg Traffic.sent h.traffic
  step related _ hs := rings_step related hs

end

namespace Rpc

variable {Args R D Msg M Req Resp : Type}

def ringed (g : Rpc Args R D Msg M Req Resp) :
    Machine (PollRun (ClientState R D Msg) ClientPoint (MethodCall Args R D) × RingEnd M Req Resp)
      (ConnOp (Nat → UInt8) (MethodCall Args R D) ⊕ RingOp Resp) :=
  g.channel.endpoint.poll.joined g.server.ring

/-- Nothing that the completions of the server report gets the answers out of order. -/
theorem ringed_calls_are_answered_in_order [Nonempty Resp] (g : Rpc Args R D Msg M Req Resp)
    (s : PollRun (ClientState R D Msg) ClientPoint (MethodCall Args R D) × RingEnd M Req Resp)
    (h : g.ringed.ReachWith (Party.Both SendsOnce fun _ _ => True) s)
    (fits : g.Fits (numbered s.1.traffic.submitted) s.2.run.calls) :
    g.InOrder (numbered s.1.traffic.submitted) s.2.run.calls s.1.run.app := by
  have client := poll_simulates g.channel.leavesRoom (g.channel.announces (D := D))
  obtain ⟨u, v, left, right, answered⟩ := inOrder_of_simulates client (ring_simulates g.server) h
  rw [left.traffic, right.app, left.app] at answered
  exact answered fits

/- One call. The READs of the server find its request in two pieces. -/
theorem ringed_calls_are_answered_in_order_in_pieces :
    ∃ s, byteRpc.ringed.ReachWith (Party.Both SendsOnce fun _ _ => True) s ∧
      s.1.traffic.submitted = [byteCall 5] ∧ s.1.run.app.endings = [(0, .run () () 50)] ∧
      byteRpc.InOrder (numbered s.1.traffic.submitted) s.2.run.calls s.1.run.app := by
  obtain ⟨s, hs, submitted, endings, served⟩ : ∃ s, byteRpc.ringed.run byteRpc.ringed.start
      [.inl (.startSend []), .inl .startRecv, .inl (.read [.eagain]), .inl .proceed, .inl .await,
        .inl (.spawn (byteCall 5)), .inl (.startCall fun _ => 0),
        .inl (.resumeWrite [[.accepted 10]]), .inr .start, .inr .asyncRead,
        .inr (.completeRead ⟨0, 0, 8192⟩ (.data [1, 0, 0, 0, 0, 1, 0])),
        .inr (.step (fun _ => 0) 50), .inr (.step (fun _ => 0) 50), .inr .asyncRead,
        .inr (.completeRead ⟨0, 7, 8185⟩ (.data [0, 0, 5])), .inr (.step (fun _ => 0) 50),
        .inr (.step (fun _ => 0) 50), .inr .reply, .inr .asyncRead,
        .inr (.completeWrite [⟨0, 0, 10⟩] 10), .inl (.event false false true), .inl .resumeRead,
        .inl (.read [.data [1, 0, 0, 0, 0, 1, 0, 0, 0, 50], .eagain]), .inl .proceed, .inl .await,
        .inl (.step fun _ => 0), .inl (.step fun _ => 0), .inl (.step fun _ => 0),
        .inl (.step fun _ => 0)] = some s ∧
      s.1.traffic.submitted = [byteCall 5] ∧ s.1.run.app.endings = [(0, .run () () 50)] ∧
      s.2.run.calls = [⟨ClientChannel.reqHeader 0 (byteCall 5), (), 5, 50⟩] :=
      ⟨_, rfl, rfl, rfl, rfl⟩
  have reached : byteRpc.ringed.ReachWith (Party.Both SendsOnce fun _ _ => True) s := by
    refine Machine.reachWith_run .start (Machine.along_of_forall ?_ _) hs
    simp [Party.Both, SendsOnce, TakesOnce, accepts]
  have fits : byteRpc.Fits (numbered s.1.traffic.submitted) s.2.run.calls := by
    rw [submitted, served]
    exact byteRpc_fits
  exact ⟨s, reached, submitted, endings, ringed_calls_are_answered_in_order byteRpc s reached fits⟩

end Rpc

end Xuanqiong
