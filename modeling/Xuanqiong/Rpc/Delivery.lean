import Xuanqiong.Rpc.EndToEnd
import Xuanqiong.Util.InputRoom

/-! When no more calls are made, the connection only delivers what is there. Every such step takes
something off a count of what is left to do, and as long as a call has no answer there is such a
step, whichever of them were taken before. -/
namespace Xuanqiong

section

variable {Args R D Msg : Type} {ch : ClientChannel Args R Msg}

def ClientPoint.rank : ClientPoint → Nat
  | .done => 0
  | .headerLen | .responseLen _ => 1
  | .header _ | .response _ _ => 2

/- Every step of the client's `recv_fn` is bought with bytes or leads on. -/
def unhandled (c : Connection) (p : ClientPoint) : Nat := 4 * c.readBytes + p.rank

theorem ClientPoint.rank_le (p : ClientPoint) : p.rank ≤ 2 := by
  cases p <;> simp [rank]

theorem recvStep_rank {memory : Nat → UInt8} {st st' : ClientState R D Msg} {c d : Connection}
    {p q : ClientPoint} (message : p.rank = 2) (hs : ch.recvStep memory st c p = some (st', d, q)) :
    q.rank ≤ 1 := by
  cases p with
  | headerLen | responseLen h | done => cases message
  | header n =>
    simp only [ClientChannel.recvStep] at hs
    split at hs
    · cases hs
      exact Nat.zero_le _
    · obtain ⟨⟨bytes, b⟩, _, hs⟩ := Option.map_eq_some_iff.mp hs
      simp only at hs
      split at hs
      · cases hs
        exact Nat.zero_le _
      · cases hs
        exact Nat.le_refl _
  | response h n =>
    simp only [ClientChannel.recvStep] at hs
    split at hs
    · cases hs
      exact Nat.zero_le _
    · obtain ⟨_, rfl⟩ := ClientChannel.handleResponse_takes hs
      exact Nat.le_refl _

theorem unhandled_lt {received left : List UInt8} {c d : Connection} {p q : ClientPoint}
    {rest turned rest' : List (ResponseFrame ch)} {k : Nat} (h : Poised received c p rest left)
    (follows : Follows received c d p q rest left turned rest' k) (less : q.rank < p.rank + 4 * k) :
    unhandled d q < unhandled c p := by
  have read := readBytes_of_consumed h.readInv follows.poised.readInv follows.consumed
  simp only [unhandled, Connection.readBytes, InputBuffer.bytes]
  omega

theorem recvStep_spends {received left : List UInt8} {c d : Connection} {p q : ClientPoint}
    {rest : List (ResponseFrame ch)} (h : Poised received c p rest left)
    (feeds : c.readBuf.unread <+: left) (enough : p.needs ≤ c.readBytes) {memory : Nat → UInt8}
    {st st' : ClientState R D Msg}
    (answers : ∀ hd n, p = .response hd n → (st.id2session hd.requestId = none ∧ n = 0) ∨
      ∃ session, st.id2session hd.requestId = some session ∧
        ∀ bytes d, c.pull n = some (bytes, d) → (ch.parseResponse session.response bytes).isSome)
    (hs : ch.recvStep memory st c p = some (st', d, q)) :
    unhandled d q < unhandled c p ∧ ClientChannel.finished q = false := by
  have rank := q.rank_le
  have goes : ∀ {rest' : List (ResponseFrame ch)} {left' : List UInt8},
      Poised received d q rest' left' → ClientChannel.finished q = false := by
    intro rest' left' poised
    cases poised.awaits <;> rfl
  cases p with
  | headerLen =>
    obtain ⟨d', q', hr, follows⟩ := headerLen_follows h feeds enough memory st
    cases hs.symm.trans hr
    refine ⟨unhandled_lt h follows ?_, goes follows.poised⟩
    exact Nat.lt_of_le_of_lt rank (show 2 < 1 + 4 * 4 by decide)
  | header n =>
    obtain ⟨d', q', hr, follows⟩ := header_follows h feeds enough memory st
    have less := recvStep_rank rfl hs
    cases hs.symm.trans hr
    refine ⟨unhandled_lt h follows ?_, goes follows.poised⟩
    exact Nat.lt_of_le_of_lt less (Nat.lt_add_right _ Nat.one_lt_two)
  | responseLen hd =>
    obtain ⟨d', q', hr, follows⟩ := responseLen_follows h feeds enough memory st
    cases hs.symm.trans hr
    refine ⟨unhandled_lt h follows ?_, goes follows.poised⟩
    exact Nat.lt_of_le_of_lt rank (show 2 < 1 + 4 * 4 by decide)
  | response hd n =>
    obtain ⟨st'', d', q', f, rest', hr, follows⟩ :=
      response_follows h feeds enough memory st (answers hd n rfl)
    have less := recvStep_rank rfl hs
    cases hs.symm.trans hr
    refine ⟨unhandled_lt h follows ?_, goes follows.poised⟩
    exact Nat.lt_of_le_of_lt less (Nat.lt_add_right _ Nat.one_lt_two)
  | done => cases h.awaits

theorem open_of_running {s : ClientRun Args R D Msg} (h : (clientMachine ch).Reach s)
    (opened : s.conn.closed = false) : s.point ≠ .done := by
  have ended : s.point = .done → s.conn.closed = true := by
    refine h.invariant (I := fun s => s.point = .done → s.conn.closed = true)
      (fun left => by cases left) ?_
    intro s op t before hs left
    cases op with
    | read bs =>
      simp only [clientMachine, Option.ite_none_right_eq_some, Option.some.injEq] at hs
      obtain ⟨_, rfl⟩ := hs
      exact before left
    | resume memory =>
      simp only [clientMachine, Option.ite_none_left_eq_some] at hs
      obtain ⟨⟨st, c, q⟩, hr, rfl⟩ := Option.map_eq_some_iff.mp hs.2
      cases left
      rw [ClientChannel.recvStep_closed hr]
      exact Bool.or_true _
    | call junk call =>
      obtain ⟨⟨st, c⟩, hr, rfl⟩ := Option.map_eq_some_iff.mp hs
      exact (ClientChannel.sendRequest_closed hr).trans (before left)
    | sendAdd n =>
      simp only [clientMachine, Option.ite_none_right_eq_some] at hs
      obtain ⟨b, _, rfl⟩ := Option.map_eq_some_iff.mp hs.2
      exact before left
    | close =>
      cases hs
      rfl
  intro left
  rw [ended left] at opened
  cases opened

theorem ClientRun.InStep.feeds {s : ClientRun Args R D Msg}
    {frames handled rest : List (ResponseFrame ch)} (h : s.InStep frames handled rest)
    (within : s.received <+: responses frames) :
    s.conn.readBuf.unread <+: (responses frames).drop s.conn.readBuf.consumedBytes := by
  rw [h.poised.readInv.unread_eq]
  exact within.drop _

theorem ClientRun.InStep.complete {s : ClientRun Args R D Msg}
    {frames handled rest : List (ResponseFrame ch)} (h : s.InStep frames handled rest)
    (all : s.received = responses frames) (settled : ClientChannel.waits s.conn s.point = true) :
    rest = [] := by
  have available : s.conn.readBytes =
      ((responses frames).drop s.conn.readBuf.consumedBytes).length := by
    rw [← all, ← h.poised.readInv.unread_eq, h.poised.readInv.unread_length]
    rfl
  have awaits := h.poised.awaits
  generalize (responses frames).drop s.conn.readBuf.consumedBytes = left at available awaits
  generalize s.point = p at settled awaits
  cases awaits with
  | headerLen _ bytes =>
    cases rest with
    | nil => rfl
    | cons f rest =>
      simp [ClientChannel.waits, available, bytes, responses, ResponseFrame.bytes,
        length_message] at settled
      omega
  | header len _ _ bytes =>
    simp only [ClientChannel.waits, available, bytes, len, List.length_append, Bool.and_eq_true,
      decide_eq_true_eq] at settled
    omega
  | responseLen _ _ bytes =>
    simp [ClientChannel.waits, available, bytes, length_message] at settled
    omega
  | response len _ bytes =>
    simp only [ClientChannel.waits, available, bytes, len, List.length_append, Bool.and_eq_true,
      decide_eq_true_eq] at settled
    omega

end

namespace Rpc

variable {Args R D Msg M Req Resp : Type} {g : Rpc Args R D Msg M Req Resp}
  {s t : ClientRun Args R D Msg × PipelineRun M Req Resp}

/- What goes on when nobody calls and nobody closes. -/
def delivers : ClientOp Args R D ⊕ PipelineOp Resp → Bool
  | .inl (.call _ _) | .inl .close => false
  | _ => true

/- A read of no bytes and a credit of none do nothing. -/
def moves : ClientOp Args R D ⊕ PipelineOp Resp → Bool
  | .inl (.read bs) | .inr (.read bs) => 0 < bs.length
  | .inl (.sendAdd n) | .inr (.sendAdd n) => 0 < n
  | .inl (.resume _) | .inr (.resume _ _) => true
  | .inl (.call _ _) | .inl .close => false

/- Two lengths and two messages. -/
def maxReply : Nat := 4294967302

/-- A byte weighs less the further it has come: in an output buffer, on its way, received. A call
that was not served yet weighs as much as its reply can. -/
def debt (s : ClientRun Args R D Msg × PipelineRun M Req Resp) : Nat :=
  6 * s.1.conn.writeBuf.pending.length + 5 * (s.1.sent.length - s.2.received.length) +
    remaining s.2.conn s.2.point + 6 * (maxReply * (s.1.calls.length - s.2.calls.length)) +
    6 * s.2.conn.writeBuf.pending.length + 5 * (s.2.sent.length - s.1.received.length) +
    unhandled s.1.conn s.1.point

theorem Inv.output (h : g.Inv s) (fits : g.Fits s.1.calls s.2.calls) :
    s.2.sent ++ s.2.conn.writeBuf.pending = s.2.calls.flatMap g.server.reply := by
  obtain ⟨_, _, _, _, _, hh⟩ := h.handled fits
  exact hh.output

theorem Inv.served_le (h : g.Inv s) (fits : g.Fits s.1.calls s.2.calls) :
    s.2.calls.length ≤ s.1.calls.length := by
  have served := (h.asked fits).length_le
  simp only [List.length_map] at served
  exact served

theorem Inv.reply_le (h : g.Inv s) (fits : g.Fits s.1.calls s.2.calls) {call : Call M Req Resp}
    (served : call ∈ s.2.calls) :
    (g.server.reply call).length ≤ maxReply := by
  obtain ⟨e, he, header⟩ := entry_of_served (h.asked fits) served
  have id : call.header.requestId = e.1 := by rw [header]; rfl
  have short := (fits.covered e he).reply_short
  have payload := (fits.accepted e he call served id).short
  have max : INT32_MAX = 2147483647 := rfl
  simp only [RpcServer.reply, List.length_append, length_message, id, maxReply]
  omega

theorem flatMap_length_le {α β : Type} {f : α → List β} {bound : Nat} {l : List α}
    (each : ∀ a ∈ l, (f a).length ≤ bound) : (l.flatMap f).length ≤ bound * l.length := by
  induction l with
  | nil => exact Nat.zero_le _
  | cons a rest ih =>
    have first := each a List.mem_cons_self
    have others := ih fun b hb => each b (List.mem_cons_of_mem _ hb)
    rw [List.flatMap_cons, List.length_append, List.length_cons, Nat.mul_succ]
    omega

/-- A step of the server's `recv_fn`: if it has answered, the replies are worth less
than the calls. -/
theorem Inv.serverResume {memory : Nat → UInt8} {response : Resp} (h : g.Inv s)
    (fits : g.Fits t.1.calls t.2.calls)
    (hs : g.machine.step s (.inr (.resume memory response)) = some t) : debt t < debt s := by
  obtain ⟨calls, served⟩ := grows hs
  have before := fits.before calls served
  have after := inv_step h fits hs
  obtain ⟨step, _, same⟩ := Party.joined_right hs
  obtain ⟨frames, handled, rest, _, bytes, hh⟩ := h.handled before
  have go : RpcServer.waits s.2.conn s.2.point = false := by
    cases hw : RpcServer.waits s.2.conn s.2.point with
    | false => rfl
    | true => simp [RpcServer.party, pipelineMachine, hw] at step
  have running : s.2.point ≠ .done := by
    intro hp
    simp [RpcServer.party, pipelineMachine, hp, RpcServer.waits, RpcServer.recvStep] at step
  obtain ⟨u, _, _, hu, received, _, less⟩ :=
    resume_handled hh (bytes ▸ h.requested) go running memory response
  cases hu.symm.trans step
  have sent : t.2.sent = s.2.sent := by
    simp only [RpcServer.party, pipelineMachine, go] at step
    obtain ⟨r, _, ht⟩ := Option.map_eq_some_iff.mp step
    rw [← ht]
  obtain ⟨new, later⟩ := served
  -- what the step has put into the buffer are the replies of the new calls
  have output : t.2.conn.writeBuf.pending =
      s.2.conn.writeBuf.pending ++ new.flatMap g.server.reply := by
    have all := after.output fits
    rw [sent, ← later, List.flatMap_append, ← h.output before, List.append_assoc] at all
    exact List.append_cancel_left all
  have replies : (new.flatMap g.server.reply).length ≤ maxReply * new.length := by
    apply flatMap_length_le
    intro call hc
    exact after.reply_le fits (by rw [← later]; exact List.mem_append_right _ hc)
  have bound := after.served_le fits
  rw [same, ← later, List.length_append] at bound
  have split : maxReply * (s.1.calls.length - s.2.calls.length) =
      maxReply * (s.1.calls.length - (s.2.calls.length + new.length)) + maxReply * new.length := by
    rw [← Nat.mul_add]
    congr 1
    omega
  simp only [debt, same, sent, received, output, ← later, List.length_append, split]
  omega

theorem receive_readBytes {b : InputBuffer} {received bs : List UInt8} (inv : b.Inv received)
    (room : (bs.length : Int) ≤ b.getBuffer.size) :
    (b.receive bs).readBytes = b.readBytes + bs.length := by
  obtain ⟨inv', consumed, _⟩ := inv.receive bs room
  have before := inv.counted
  have after := inv'.counted
  rw [List.length_append] at after
  omega

theorem Inv.serverRead {bs : List UInt8} (h : g.Inv s) (before : g.Fits s.1.calls s.2.calls)
    (hs : g.machine.step s (.inr (.read bs)) = some t) : bs.length + debt t ≤ debt s := by
  obtain ⟨step, within, same⟩ := Party.joined_right hs
  obtain ⟨_, _, _, _, _, hh⟩ := h.handled before
  obtain ⟨run, server⟩ := t
  subst same
  simp only [RpcServer.party, pipelineMachine, Option.ite_none_right_eq_some,
    Option.some.injEq] at step
  obtain ⟨⟨_, room⟩, rfl⟩ := step
  have bytes := receive_readBytes hh.ready.readInv room
  have there := within.length_le
  simp only [RpcServer.party, ClientChannel.party, List.length_append] at there
  simp only [debt, remaining, Connection.readBytes, InputBuffer.bytes, bytes, List.length_append]
  omega

theorem Inv.serverSendAdd {n : Nat} (h : g.Inv s) (before : g.Fits s.1.calls s.2.calls)
    (hs : g.machine.step s (.inr (.sendAdd n)) = some t) : n + debt t ≤ debt s := by
  obtain ⟨step, _, same⟩ := Party.joined_right hs
  obtain ⟨_, _, _, _, _, hh⟩ := h.handled before
  have there := h.linked.left.length_le
  simp only [RpcServer.party, ClientChannel.party] at there
  obtain ⟨run, server⟩ := t
  subst same
  simp only [RpcServer.party, pipelineMachine, Option.ite_none_right_eq_some] at step
  obtain ⟨le, step⟩ := step
  obtain ⟨b, hb, rfl⟩ := Option.map_eq_some_iff.mp step
  obtain ⟨d, hd, inv, pending⟩ :=
    OutputBuffer.sendAdd_spec hh.ready.writeInv (n := n) (by exact_mod_cast le)
  cases Option.some.inj (hd.symm.trans hb)
  have counted : s.2.conn.writeBytes = s.2.conn.writeBuf.pending.length := hh.ready.writeInv.counted
  simp only [debt, remaining, Connection.readBytes, pending, Int.toNat_natCast, List.length_append,
    List.length_take, List.length_drop]
  omega

theorem Inv.inStep (h : g.Inv s) (fits : g.Fits s.1.calls s.2.calls)
    (opened : s.1.conn.closed = false) :
    ∃ frames handled rest : List (ResponseFrame g.channel),
      frames.map ResponseFrame.view = s.2.calls.map (fun call =>
        (RpcServer.respHeader call.header.requestId, g.server.replyMessages call)) ∧
      responses frames = s.2.calls.flatMap g.server.reply ∧ s.1.received <+: responses frames ∧
      s.1.InStep frames handled rest := by
  obtain ⟨frames, view, bytes, within, left | ⟨handled, rest, step⟩⟩ := h.replied fits
  · exact absurd left (open_of_running h.client.reach opened)
  · exact ⟨frames, handled, rest, view, bytes, within, step⟩

theorem Inv.clientRead {bs : List UInt8} (h : g.Inv s) (before : g.Fits s.1.calls s.2.calls)
    (opened : s.1.conn.closed = false)
    (hs : g.machine.step s (.inl (.read bs)) = some t) :
    bs.length + debt t ≤ debt s ∧ t.1.conn.closed = false := by
  obtain ⟨step, within, same⟩ := Party.joined_left hs
  obtain ⟨_, _, _, _, _, _, poised⟩ := h.inStep before opened
  obtain ⟨run, server⟩ := t
  subst same
  simp only [ClientChannel.party, clientMachine, Option.ite_none_right_eq_some,
    Option.some.injEq] at step
  obtain ⟨⟨_, room⟩, rfl⟩ := step
  have bytes := receive_readBytes poised.poised.readInv room
  have there := within.length_le
  simp only [RpcServer.party, ClientChannel.party, List.length_append] at there
  refine ⟨?_, opened⟩
  simp only [debt, unhandled, Connection.readBytes, InputBuffer.bytes, bytes, List.length_append]
  omega

theorem Inv.clientSendAdd {n : Nat} (h : g.Inv s) (opened : s.1.conn.closed = false)
    (hs : g.machine.step s (.inl (.sendAdd n)) = some t) :
    n + debt t ≤ debt s ∧ t.1.conn.closed = false := by
  obtain ⟨step, _, same⟩ := Party.joined_left hs
  have there := h.linked.right.length_le
  simp only [RpcServer.party, ClientChannel.party] at there
  have inv := (kept_reach h.client.reach).writeInv
  obtain ⟨run, server⟩ := t
  subst same
  simp only [ClientChannel.party, clientMachine, Option.ite_none_right_eq_some] at step
  obtain ⟨le, step⟩ := step
  obtain ⟨b, hb, rfl⟩ := Option.map_eq_some_iff.mp step
  obtain ⟨d, hd, _, pending⟩ := OutputBuffer.sendAdd_spec inv (n := n) (by exact_mod_cast le)
  cases Option.some.inj (hd.symm.trans hb)
  have counted : s.1.conn.writeBytes = s.1.conn.writeBuf.pending.length := inv.counted
  refine ⟨?_, opened⟩
  simp only [debt, unhandled, Connection.readBytes, pending, Int.toNat_natCast, List.length_append,
    List.length_take, List.length_drop]
  omega

theorem Inv.clientResume {memory : Nat → UInt8} (h : g.Inv s) (before : g.Fits s.1.calls s.2.calls)
    (opened : s.1.conn.closed = false) (hs : g.machine.step s (.inl (.resume memory)) = some t) :
    debt t < debt s ∧ t.1.conn.closed = false := by
  obtain ⟨step, _, same⟩ := Party.joined_left hs
  obtain ⟨_, _, _, _, _, within, poised⟩ := h.inStep before opened
  have answers := h.answersCalls before (.resume memory)
  obtain ⟨run, server⟩ := t
  subst same
  simp only [ClientChannel.party, clientMachine, Option.ite_none_left_eq_some] at step
  obtain ⟨go, step⟩ := step
  obtain ⟨⟨st, c, q⟩, hr, rfl⟩ := Option.map_eq_some_iff.mp step
  have enough : s.1.point.needs ≤ s.1.conn.readBytes := by
    by_contra short
    exact go (waits_of_short opened (Nat.lt_of_not_le short))
  obtain ⟨less, goes⟩ := recvStep_spends poised.poised (poised.feeds within) enough
    (fun hd n site => answers hd n site (by rw [site] at enough; exact enough)) hr
  have output := (ClientChannel.recvStep_effect hr).1
  constructor
  · simp only [debt, output]
    omega
  · have closed := ClientChannel.recvStep_closed hr
    rw [opened, goes] at closed
    exact closed

theorem debt_step {op : ClientOp Args R D ⊕ PipelineOp Resp} (h : g.Inv s)
    (opened : s.1.conn.closed = false) (fits : g.Fits t.1.calls t.2.calls)
    (delivery : delivers op = true) (hs : g.machine.step s op = some t) :
    (if moves op then 1 else 0) + debt t ≤ debt s ∧ t.1.conn.closed = false := by
  obtain ⟨calls, served⟩ := grows hs
  have before := fits.before calls served
  cases op with
  | inl a =>
    cases a with
    | read bs =>
      obtain ⟨less, still⟩ := h.clientRead before opened hs
      refine ⟨?_, still⟩
      simp only [moves, decide_eq_true_eq]
      split <;> omega
    | resume memory =>
      obtain ⟨less, still⟩ := h.clientResume before opened hs
      exact ⟨by simp only [moves, if_true]; omega, still⟩
    | sendAdd n =>
      obtain ⟨less, still⟩ := h.clientSendAdd opened hs
      refine ⟨?_, still⟩
      simp only [moves, decide_eq_true_eq]
      split <;> omega
    | call junk call => cases delivery
    | close => cases delivery
  | inr b =>
    obtain ⟨_, _, same⟩ := Party.joined_right hs
    rw [same]
    refine ⟨?_, opened⟩
    cases b with
    | read bs =>
      have less := h.serverRead before hs
      simp only [moves, decide_eq_true_eq]
      split <;> omega
    | resume memory response =>
      have less := h.serverResume fits hs
      simp only [moves, if_true]
      omega
    | sendAdd n =>
      have less := h.serverSendAdd before hs
      simp only [moves, decide_eq_true_eq]
      split <;> omega

/-- Every call has been served, and ended with its response. -/
structure Answered (g : Rpc Args R D Msg M Req Resp)
    (s : ClientRun Args R D Msg × PipelineRun M Req Resp) :
    Prop where
  served : s.2.calls.map Call.asked = s.1.calls.map g.asked
  ended : s.1.state.endings = List.zipWith g.ending s.1.calls s.2.calls
  empty : ∀ i, s.1.state.id2session i = none

theorem next_byte {received sent : List UInt8} (within : received <+: sent)
    (more : received ≠ sent) :
    ∃ byte, received ++ [byte] <+: sent := by
  obtain ⟨rest, rfl⟩ := within
  cases rest with
  | nil => exact absurd (List.append_nil _).symm more
  | cons byte rest =>
    refine ⟨byte, rest, ?_⟩
    rw [List.append_assoc]
    rfl

theorem Inv.clientGoes {a : ClientOp Args R D} {u : ClientRun Args R D Msg} (h : g.Inv s)
    (hu : (clientMachine g.channel).step s.1 a = some u) (received : u.received <+: s.1.received) :
    ∃ t, g.machine.step s (.inl a) = some t :=
  ⟨_, Party.joined_left_step hu (received.trans h.linked.left)⟩

theorem Inv.serverGoes {b : PipelineOp Resp} {u : PipelineRun M Req Resp} (h : g.Inv s)
    (hu : (pipelineMachine g.server).step s.2 b = some u) (received : u.received <+: s.2.received) :
    ∃ t, g.machine.step s (.inr b) = some t :=
  ⟨_, Party.joined_right_step hu (received.trans h.linked.right)⟩

theorem Inv.clientSends (h : g.Inv s) (pending : s.1.conn.writeBuf.pending ≠ []) :
    ∃ t, g.machine.step s (.inl (.sendAdd 1)) = some t := by
  have inv := (kept_reach h.client.reach).writeInv
  have counted : s.1.conn.writeBytes = s.1.conn.writeBuf.pending.length := inv.counted
  have le : 1 ≤ s.1.conn.writeBytes := by
    rw [counted]
    exact List.length_pos_of_ne_nil pending
  obtain ⟨b, hb, _⟩ := OutputBuffer.sendAdd_spec inv (n := (1 : Nat)) (by exact_mod_cast le)
  have step : ∃ u, (clientMachine g.channel).step s.1 (.sendAdd 1) = some u ∧
      u.received = s.1.received := by
    simp only [clientMachine, if_pos le, hb, Option.map_some]
    exact ⟨_, rfl, rfl⟩
  obtain ⟨u, hu, received⟩ := step
  exact h.clientGoes hu (received ▸ List.prefix_refl _)

theorem Inv.serverSends (h : g.Inv s) (fits : g.Fits s.1.calls s.2.calls)
    (pending : s.2.conn.writeBuf.pending ≠ []) :
    ∃ t, g.machine.step s (.inr (.sendAdd 1)) = some t := by
  obtain ⟨_, _, _, _, _, hh⟩ := h.handled fits
  have counted : s.2.conn.writeBytes = s.2.conn.writeBuf.pending.length := hh.ready.writeInv.counted
  have le : 1 ≤ s.2.conn.writeBytes := by
    rw [counted]
    exact List.length_pos_of_ne_nil pending
  obtain ⟨b, hb, _⟩ :=
    OutputBuffer.sendAdd_spec hh.ready.writeInv (n := (1 : Nat)) (by exact_mod_cast le)
  have step : ∃ u, (pipelineMachine g.server).step s.2 (.sendAdd 1) = some u ∧
      u.received = s.2.received := by
    simp only [pipelineMachine, if_pos le, hb, Option.map_some]
    exact ⟨_, rfl, rfl⟩
  obtain ⟨u, hu, received⟩ := step
  exact h.serverGoes hu (received ▸ List.prefix_refl _)

theorem Inv.serverReads (h : g.Inv s) (fits : g.Fits s.1.calls s.2.calls)
    (waits : RpcServer.waits s.2.conn s.2.point = true)
    (more : s.2.received ≠ s.1.sent) :
    ∃ byte t, g.machine.step s (.inr (.read [byte])) = some t := by
  obtain ⟨_, _, _, _, _, hh⟩ := h.handled fits
  obtain ⟨byte, within⟩ := next_byte h.linked.right more
  have room : (([byte] : List UInt8).length : Int) ≤ s.2.conn.readBuf.getBuffer.size := by
    have := hh.ready.readInv.roomy.size
    simp only [List.length_singleton]
    omega
  exact ⟨byte, _, Party.joined_right_step (if_pos ⟨waits, room⟩) within⟩

theorem Inv.clientReads (h : g.Inv s) (fits : g.Fits s.1.calls s.2.calls)
    (opened : s.1.conn.closed = false) (waits : ClientChannel.waits s.1.conn s.1.point = true)
    (more : s.1.received ≠ s.2.sent) :
    ∃ byte t, g.machine.step s (.inl (.read [byte])) = some t := by
  obtain ⟨_, _, _, _, _, _, poised⟩ := h.inStep fits opened
  obtain ⟨byte, within⟩ := next_byte h.linked.left more
  have room : (([byte] : List UInt8).length : Int) ≤ s.1.conn.readBuf.getBuffer.size := by
    have := poised.poised.readInv.roomy.size
    simp only [List.length_singleton]
    omega
  exact ⟨byte, _, Party.joined_left_step (if_pos ⟨waits, room⟩) within⟩

theorem Inv.serves_all (h : g.Inv s) (fits : g.Fits s.1.calls s.2.calls)
    (sent : s.1.conn.writeBuf.pending = [])
    (received : s.2.received = s.1.sent) (waits : RpcServer.waits s.2.conn s.2.point = true) :
    s.2.calls.map Call.asked = s.1.calls.map g.asked := by
  obtain ⟨frames, handled, rest, asked, bytes, hh⟩ := h.handled fits
  have output := (kept_reach h.client.reach).output
  rw [sent, List.append_nil] at output
  have all : s.2.received = stream frames .nothing := by rw [received, bytes, output]
  have none := hh.complete all (Or.inl waits)
  rw [hh.calls, ← asked, hh.cut, none, List.append_nil]

theorem Inv.ends_all (h : g.Inv s) (fits : g.Fits s.1.calls s.2.calls)
    (opened : s.1.conn.closed = false) (sent : s.2.conn.writeBuf.pending = [])
    (received : s.1.received = s.2.sent) (waits : ClientChannel.waits s.1.conn s.1.point = true) :
    s.1.handled.length = s.2.calls.length := by
  obtain ⟨frames, handled, rest, view, bytes, within, step⟩ := h.inStep fits opened
  have output := h.output fits
  rw [sent, List.append_nil] at output
  have all : s.1.received = responses frames := by rw [received, bytes, output]
  have none := step.complete all waits
  have length := congrArg List.length view
  simp only [List.length_map, step.cut, none, List.append_nil] at length
  rw [step.turns, List.length_map, length]

/-- As long as some call has no answer, there is something to deliver. -/
theorem Inv.deliverable [Nonempty Resp] (h : g.Inv s) (fits : g.Fits s.1.calls s.2.calls)
    (opened : s.1.conn.closed = false) :
    g.Answered s ∨ ∃ op t, delivers op = true ∧ moves op = true ∧ g.machine.step s op = some t := by
  by_cases upSent : s.1.conn.writeBuf.pending = []
  swap
  · obtain ⟨t, ht⟩ := h.clientSends upSent
    exact Or.inr ⟨_, t, rfl, rfl, ht⟩
  by_cases downSent : s.2.conn.writeBuf.pending = []
  swap
  · obtain ⟨t, ht⟩ := h.serverSends fits downSent
    exact Or.inr ⟨_, t, rfl, rfl, ht⟩
  cases serverWaits : RpcServer.waits s.2.conn s.2.point with
  | false =>
    obtain ⟨frames, handled, rest, _, bytes, hh⟩ := h.handled fits
    have running : s.2.point ≠ .done := by
      intro done
      have expects := hh.ready.expects
      rw [done] at expects
      cases expects with
      | done some => exact some rfl
    obtain ⟨response⟩ := (inferInstance : Nonempty Resp)
    obtain ⟨u, _, _, hu, received, _⟩ :=
      resume_handled hh (bytes ▸ h.requested) serverWaits running (fun _ => 0) response
    obtain ⟨t, ht⟩ := h.serverGoes hu (received ▸ List.prefix_refl _)
    exact Or.inr ⟨_, t, rfl, rfl, ht⟩
  | true =>
    by_cases upReceived : s.2.received = s.1.sent
    swap
    · obtain ⟨byte, t, ht⟩ := h.serverReads fits serverWaits upReceived
      exact Or.inr ⟨_, t, rfl, rfl, ht⟩
    cases clientWaits : ClientChannel.waits s.1.conn s.1.point with
    | false =>
      obtain ⟨_, _, _, _, _, within, step⟩ := h.inStep fits opened
      obtain ⟨u, hu, _⟩ :=
        resume_follows step within (h.answersCalls fits (.resume fun _ => 0)) clientWaits
      have received : u.received = s.1.received := by
        cases client_move (kept_reach h.client.reach).writeInv hu <;> rfl
      obtain ⟨t, ht⟩ := h.clientGoes hu (received ▸ List.prefix_refl _)
      exact Or.inr ⟨_, t, rfl, rfl, ht⟩
    | true =>
      by_cases downReceived : s.1.received = s.2.sent
      swap
      · obtain ⟨byte, t, ht⟩ := h.clientReads fits opened clientWaits downReceived
        exact Or.inr ⟨_, t, rfl, rfl, ht⟩
      left
      have served := h.serves_all fits upSent upReceived serverWaits
      have handled := h.ends_all fits opened downSent downReceived clientWaits
      have count := congrArg List.length served
      rw [List.length_map, List.length_map] at count
      refine ⟨served, ?_, ?_⟩
      · rw [h.endings, handled, List.take_length, count, List.take_length]
      · intro i
        have table := h.table i
        rw [handled, count, List.drop_length] at table
        exact Option.toList_eq_nil_iff.mp table

theorem grows_run {ops : List (ClientOp Args R D ⊕ PipelineOp Resp)}
    (hr : g.machine.run s ops = some t) :
    s.1.calls <+: t.1.calls ∧ s.2.calls <+: t.2.calls := by
  induction ops generalizing s with
  | nil =>
    cases Option.some.inj hr
    exact ⟨List.prefix_refl _, List.prefix_refl _⟩
  | cons op rest ih =>
    obtain ⟨u, hu, hr⟩ := Option.bind_eq_some_iff.mp hr
    obtain ⟨calls, served⟩ := grows hu
    obtain ⟨calls', served'⟩ := ih hr
    exact ⟨calls.trans calls', served.trans served'⟩

theorem debt_run {ops : List (ClientOp Args R D ⊕ PipelineOp Resp)} (h : g.Inv s)
    (opened : s.1.conn.closed = false) (hr : g.machine.run s ops = some t)
    (delivery : ∀ op ∈ ops, delivers op = true) (fits : g.Fits t.1.calls t.2.calls) :
    ops.countP moves + debt t ≤ debt s ∧ g.Inv t ∧ t.1.conn.closed = false := by
  induction ops generalizing s with
  | nil =>
    cases Option.some.inj hr
    exact ⟨by simp, h, opened⟩
  | cons op rest ih =>
    obtain ⟨u, hu, hr⟩ := Option.bind_eq_some_iff.mp hr
    obtain ⟨calls, served⟩ := grows_run hr
    have between := fits.before calls served
    obtain ⟨less, still⟩ := debt_step h opened between (delivery op List.mem_cons_self) hu
    obtain ⟨later, inv, ends⟩ := ih (inv_step h between hu) still hr
      fun op' mem => delivery op' (List.mem_cons_of_mem _ mem)
    refine ⟨?_, inv, ends⟩
    rw [List.countP_cons]
    omega

/-- Once no more calls are made, and while the channel is not closed: in whatever order and pieces
the connection delivers, it does so a bounded number of times, and it has not come to its end as
long as any call is without the response to its own request. -/
theorem every_call_is_answered [Nonempty Resp] (g : Rpc Args R D Msg M Req Resp)
    (s : ClientRun Args R D Msg × PipelineRun M Req Resp) (h : g.machine.Reach s)
    (opened : s.1.conn.closed = false) :
    ∃ bound, ∀ ops t, g.machine.run s ops = some t → (∀ op ∈ ops, delivers op = true) →
      g.Fits t.1.calls t.2.calls →
      ops.countP moves ≤ bound ∧
      (g.Answered t ∨ ∃ op u, delivers op = true ∧ moves op = true ∧
        g.machine.step t op = some u) := by
  refine ⟨debt s, ?_⟩
  intro ops t hr delivery fits
  obtain ⟨calls, served⟩ := grows_run hr
  have inv := inv_reach h (fits.before calls served)
  obtain ⟨spent, inv', opened'⟩ := debt_run inv opened hr delivery fits
  exact ⟨by omega, inv'.deliverable fits opened'⟩

/- One call of which nothing has been sent yet. -/
theorem every_call_is_answered_after_a_call :
    ∃ s, byteRpc.machine.run byteRpc.machine.start
      [.inl (.call (fun _ => 0) (byteCall 5))] = some s ∧
      s.1.conn.closed = false ∧
      ∃ bound, ∀ ops t, byteRpc.machine.run s ops = some t → (∀ op ∈ ops, delivers op = true) →
        byteRpc.Fits t.1.calls t.2.calls → ops.countP moves ≤ bound ∧
        (byteRpc.Answered t ∨
          ∃ op u, delivers op = true ∧ moves op = true ∧ byteRpc.machine.step t op = some u) := by
  obtain ⟨s, hs, opened⟩ : ∃ s, byteRpc.machine.run byteRpc.machine.start
      [.inl (.call (fun _ => 0) (byteCall 5))] = some s ∧ s.1.conn.closed = false := ⟨_, rfl, rfl⟩
  exact ⟨s, hs, opened, every_call_is_answered byteRpc s (Machine.reach_run .start hs) opened⟩

end Rpc

end Xuanqiong
