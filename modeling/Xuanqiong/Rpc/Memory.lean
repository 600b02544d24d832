import Xuanqiong.Rpc.Ring

/-! The blocks that a connection holds. Parsing consumes what `Next` hands out to the last byte, so
`BackUp`, which alone frees the blocks of the input, is never called: the input of a connection
keeps all that it has ever received. The output keeps what is pending. -/
namespace Xuanqiong

/-- Every block of the input that was ever made is there, and one for each `kBlockSize` received
bytes was made. -/
def Connection.KeepsInput (c : Connection) (received : List UInt8) : Prop :=
  c.readBuf.blocks.map BufferBlock.addr = List.range (received.length / kBlockSize.toNat + 1)

/-- The output has two blocks at most that pending bytes do not fill. -/
def Connection.DropsOutput (c : Connection) : Prop :=
  c.writeBuf.blocks.length ≤ c.writeBuf.pending.length / kBlockSize.toNat + 2

theorem Connection.keepsInput_of_laid {c : Connection} {received : List UInt8}
    (laid : c.readBuf.Laid received.length) : c.KeepsInput received := by
  rw [KeepsInput, laid.addrs, laid.allocated, InputBuffer.layout_length]

section

variable {σ P X T : Type} {e : Endpoint σ P X T} {s t : StreamRun σ P T} {op : StreamOp X T}

structure Endpoint.KeepsBlocks (e : Endpoint σ P X T) : Prop where
  step : ∀ {x a c p a' c' q}, e.step x a c p = some (a', c', q) →
    c.readBuf.SameMarks c'.readBuf ∧ (c.writeBuf.Inv → c.Adds c')
  submit : ∀ {junk t a c a' c'}, e.submit junk t a c = some (a', c') →
    c.readBuf.SameMarks c'.readBuf ∧ (c.writeBuf.Inv → c.Adds c')

structure StreamRun.Stored (s : StreamRun σ P T) : Prop where
  laid : s.conn.readBuf.Laid s.traffic.received.length
  inv : s.conn.writeBuf.Inv
  compact : s.conn.writeBuf.Compact

theorem StreamRun.Stored.output (h : s.Stored) : s.conn.DropsOutput := h.compact.length_le h.inv

theorem stored_step (keeps : e.KeepsBlocks) (h : s.Stored)
    (hs : (streamMachine e).step s op = some t) :
    t.Stored := by
  cases op with
  | read bs =>
    simp only [streamMachine, Option.ite_none_right_eq_some, Option.some.injEq] at hs
    obtain ⟨⟨_, fits⟩, rfl⟩ := hs
    refine ⟨?_, h.inv, h.compact⟩
    simp only [Traffic.add, List.length_append]
    exact h.laid.receive fits
  | reply =>
    obtain ⟨p, _, rfl⟩ := Option.map_eq_some_iff.mp hs
    exact ⟨h.laid, h.inv, h.compact⟩
  | step x =>
    simp only [streamMachine, Option.ite_none_left_eq_some] at hs
    obtain ⟨⟨a, c, p⟩, run, rfl⟩ := Option.map_eq_some_iff.mp hs.2
    obtain ⟨marks, adds⟩ := keeps.step run
    exact ⟨marks.laid h.laid, (adds h.inv).inv, (adds h.inv).compact h.compact⟩
  | submit junk request =>
    obtain ⟨⟨a, c⟩, run, rfl⟩ := Option.map_eq_some_iff.mp hs
    obtain ⟨marks, adds⟩ := keeps.submit run
    refine ⟨?_, (adds h.inv).inv, (adds h.inv).compact h.compact⟩
    simp only [Traffic.add, List.append_nil]
    exact marks.laid h.laid
  | sendAdd n =>
    simp only [streamMachine, Option.ite_none_right_eq_some] at hs
    obtain ⟨le, hs⟩ := hs
    obtain ⟨b, credit, rfl⟩ := Option.map_eq_some_iff.mp hs
    obtain ⟨b', credit', inv, _⟩ := OutputBuffer.sendAdd_spec h.inv (n := n) (by exact_mod_cast le)
    cases credit.symm.trans credit'
    refine ⟨?_, inv, h.compact.sendAdd credit⟩
    simp only [Traffic.add, List.append_nil]
    exact h.laid
  | close =>
    cases hs
    exact ⟨h.laid, h.inv, h.compact⟩

theorem stored_reach (keeps : e.KeepsBlocks) (h : (streamMachine e).Reach s) : s.Stored :=
  h.invariant ⟨.init, OutputBuffer.init_inv, OutputBuffer.init_compact⟩
    fun _ _ _ stored hs => stored_step keeps stored hs

theorem laid_step {s t : ConnRun σ P T} {op : ConnOp X T} {n : Nat} (keeps : e.KeepsBlocks)
    (roomy : s.Roomy) (h : (s.ctl.settle s.conn).readBuf.Laid n) (move : ConnMove e s op t) :
    (t.ctl.settle t.conn).readBuf.Laid (n + op.input.length) := by
  have same : (t.ctl.settle t.conn).readBuf = (s.ctl.settle s.conn).readBuf →
      (t.ctl.settle t.conn).readBuf.Laid (n + 0) := fun input => input ▸ h
  cases move with
  | spawn => exact h
  | close => exact same (settle_readBuf _ rfl)
  | startSend ctl queue run => exact same (settle_readBuf _ (sendLoop_readBuf run))
  | startRecv ctl | readable ctl | writable ctl | resumeRead ctl | hangUp ctl | proceed ctl
  | deleted ctl
  | suspended ctl | received ctl =>
    refine same ?_
    rw [ctl]
    rfl
  | resumeWrite site run =>
    refine same ?_
    rw [(afterResume_cases site).1]
    exact settle_readBuf _ (resume_readBuf run)
  | startCall ctl queue run =>
    rw [ctl] at h
    exact (keeps.submit run).1.laid h
  | read ctl waits run =>
    obtain ⟨ends, _, _, _, _, _, rfl, rfl, fits⟩ := Connection.readAll_cases roomy.room run
    rw [ctl] at h
    exact h.receive fits
  | finish ctl waits run | go ctl waits run =>
    rw [ctl] at h
    exact (keeps.step run).1.laid h

theorem laid_reach {s : PollRun σ P T} (keeps : e.KeepsBlocks) (leaves : e.LeavesRoom)
    (h : e.poll.machine.Reach s) :
    s.run.Roomy ∧ (s.run.ctl.settle s.run.conn).readBuf.Laid s.traffic.received.length := by
  refine h.invariant (I := fun s => s.run.Roomy ∧
    (s.run.ctl.settle s.run.conn).readBuf.Laid s.traffic.received.length)
    ⟨roomy_reach leaves .start, .init⟩ ?_
  rintro s op t ⟨roomy, laid⟩ hs
  obtain ⟨r, step, rfl⟩ := Option.map_eq_some_iff.mp hs
  refine ⟨roomy_step leaves roomy (conn_move step), ?_⟩
  simp only [Traffic.add, List.length_append]
  exact laid_step keeps roomy laid (conn_move step)

theorem poll_keeps_input {s : PollRun σ P T} (keeps : e.KeepsBlocks) (leaves : e.LeavesRoom)
    (h : e.poll.machine.Reach s) (idle : s.run.ctl = .idle) :
    s.run.conn.KeepsInput s.traffic.received := by
  have laid := (laid_reach keeps leaves h).2
  rw [idle] at laid
  exact Connection.keepsInput_of_laid laid

theorem poll_drops_output {s : PollRun σ P T} (keeps : e.KeepsBlocks) (leaves : e.LeavesRoom)
    (announces : e.Announces) (h : e.poll.machine.ReachWith SendsOnce s) :
    s.run.conn.DropsOutput := by
  obtain ⟨u, reached, polls⟩ := (poll_simulates leaves announces).reach h
  have drops := (stored_reach keeps reached).output
  rw [polls.conn] at drops
  unfold Connection.DropsOutput at drops ⊢
  rw [settle_writeBuf] at drops
  exact drops

end

section

variable {M Req Resp Args R D Msg : Type}

theorem RpcServer.keepsBlocks (srv : RpcServer M Req Resp) : srv.endpoint.KeepsBlocks where
  step := by
    intro x a c p a' c' q hs
    obtain ⟨⟨d, q', calls⟩, run, hd⟩ := Option.map_eq_some_iff.mp hs
    cases hd
    exact recvStep_blocks run
  submit := by
    intro _ t
    cases t

theorem ClientChannel.keepsBlocks (ch : ClientChannel Args R Msg) :
    (ch.endpoint (D := D)).KeepsBlocks where
  step := by
    intro memory st c p st' d q hs
    obtain ⟨b, took, ⟨rfl, rfl⟩ | ⟨rfl, _⟩⟩ := recvStep_takes hs
    · exact ⟨took.marks, fun inv => .nothing inv took.writeBuf⟩
    · exact ⟨took.marks, fun inv => .nothing inv took.writeBuf⟩
  submit := by
    intro junk call st c st' d hs
    obtain ⟨b, first, hs⟩ := Option.bind_eq_some_iff.mp hs
    obtain ⟨r, second, hd⟩ := Option.map_eq_some_iff.mp hs
    cases hd
    constructor
    · rw [Connection.appendMessage_readBuf second, Connection.appendMessage_readBuf first]
      exact ⟨rfl, rfl⟩
    · intro inv
      have header := Connection.appendMessage_adds inv first
      exact header.trans (Connection.appendMessage_adds header.inv second)

/-- However long a connection lasts, polled or on the ring, it frees no block of its input; and of
the output it keeps no more than is pending, if it is polled as long as no `async_write` goes on
after the kernel has taken something. -/
theorem connections_keep_all_their_input (srv : RpcServer M Req Resp)
    (ch : ClientChannel Args R Msg) :
    (∀ s, srv.endpoint.poll.machine.Reach s → s.run.ctl = .idle →
      s.run.conn.KeepsInput s.traffic.received) ∧
    (∀ s, srv.endpoint.poll.machine.ReachWith SendsOnce s → s.run.conn.DropsOutput) ∧
    (∀ s, (ch.endpoint (D := D)).poll.machine.Reach s → s.run.ctl = .idle →
      s.run.conn.KeepsInput s.traffic.received) ∧
    (∀ s, (ch.endpoint (D := D)).poll.machine.ReachWith SendsOnce s → s.run.conn.DropsOutput) ∧
    ∀ s, srv.ring.machine.Reach s → s.run.conn.KeepsInput s.received ∧ s.run.conn.DropsOutput := by
  refine ⟨?_, ?_, ?_, ?_, ?_⟩
  · exact fun s h idle => poll_keeps_input srv.keepsBlocks srv.leavesRoom h idle
  · exact fun s h => poll_drops_output srv.keepsBlocks srv.leavesRoom srv.announces h
  · exact fun s h idle => poll_keeps_input ch.keepsBlocks ch.leavesRoom h idle
  · exact fun s h => poll_drops_output ch.keepsBlocks ch.leavesRoom ch.announces h
  · intro s h
    obtain ⟨u, reached, rings⟩ := (ring_simulates srv).reach h
    have stored := stored_reach srv.keepsBlocks reached
    have input := Connection.keepsInput_of_laid stored.laid
    have output := stored.output
    rw [rings.conn] at output
    rw [rings.conn, rings.traffic] at input
    exact ⟨input, output⟩

end

/- A server on the ring that has answered a request, and a polled one that has read a byte. -/
theorem connections_keep_all_their_input_of_a_request :
    (∃ s, echoServer.ring.machine.Reach s ∧ s.received.length = 11 ∧
      s.run.conn.KeepsInput s.received ∧ s.run.conn.DropsOutput) ∧
    ∃ s, echoServer.endpoint.poll.machine.ReachWith SendsOnce s ∧ s.traffic.received = [2] ∧
      s.run.conn.KeepsInput s.traffic.received ∧ s.run.conn.DropsOutput := by
  obtain ⟨keeps, drops, _, _, rings⟩ :=
    connections_keep_all_their_input (D := Unit) echoServer byteClient
  constructor
  · obtain ⟨s, hs, length⟩ : ∃ s, echoServer.ring.machine.run echoServer.ring.machine.start
        [.start, .asyncRead, .completeRead ⟨0, 0, 8192⟩ (.data [2, 0, 0, 0, 1, 7, 1, 0, 0, 0, 9]),
          .step (fun _ => 0) [5], .step (fun _ => 0) [5], .step (fun _ => 0) [5],
          .step (fun _ => 0) [5], .reply] = some s ∧ s.received.length = 11 := ⟨_, rfl, rfl⟩
    have reached := Machine.reach_run .start hs
    exact ⟨s, reached, length, rings s reached⟩
  · obtain ⟨s, hs, received, idle⟩ : ∃ s, echoServer.endpoint.poll.machine.run
        echoServer.endpoint.poll.machine.start
        [.startSend [], .startRecv, .read [.data [2], .eagain], .proceed, .await,
          .read [.eagain], .proceed, .await] = some s ∧ s.traffic.received = [2] ∧
          s.run.ctl = .idle := ⟨_, rfl, rfl, rfl⟩
    have reached : echoServer.endpoint.poll.machine.ReachWith SendsOnce s :=
      Machine.reachWith_run .start (Machine.along_of_forall (by simp [SendsOnce, TakesOnce]) _) hs
    exact ⟨s, reached, received, keeps s reached.reach idle, drops s reached⟩

end Xuanqiong
