import Xuanqiong.Rpc.EndToEnd
import Xuanqiong.Server.LeftBytes

/-! An end of an rpc without its executor: what `recv_fn` does between its waits, the tasks of
`CallMethod`, and bytes that come and go. However it is driven, the server's end does what the
server does on a connection that stays open, up to where it stops, and the client's end is the
channel. -/
namespace Xuanqiong

/- What has gone through an end so far: the calls whose tasks have run, and the bytes taken from the
socket and put into it. -/
structure Traffic (T : Type) where
  submitted : List T
  received : List UInt8
  sent : List UInt8

def Traffic.add {T : Type} (h : Traffic T) (submitted : List T) (received sent : List UInt8) :
    Traffic T :=
  ⟨h.submitted ++ submitted, h.received ++ received, h.sent ++ sent⟩

theorem Traffic.add_nothing {T : Type} (h : Traffic T) : h.add [] [] [] = h := by
  simp [add]

theorem Traffic.add_sent {T : Type} (h : Traffic T) (xs ys : List UInt8) :
    (h.add [] [] xs).add [] [] ys = h.add [] [] (xs ++ ys) := by
  simp [add]

structure StreamRun (σ P T : Type) where
  conn : Connection
  app : σ
  point : P
  traffic : Traffic T

inductive StreamOp (X T : Type) where
  | read (bs : List UInt8)
  | reply
  | step (choice : X)
  | submit (junk : Nat → UInt8) (request : T)
  | sendAdd (n : Nat)
  | close

section

variable {σ P X T : Type}

def streamMachine (e : Endpoint σ P X T) : Machine (StreamRun σ P T) (StreamOp X T) where
  start := ⟨Connection.init, e.app, e.first, ⟨[], [], []⟩⟩
  step s
    | .read bs =>
      if e.waits s.conn s.point ∧ (bs.length : Int) ≤ s.conn.readBuf.getBuffer.size then
        some { s with
          conn := { s.conn with readBuf := s.conn.readBuf.receive bs }
          traffic := s.traffic.add [] bs [] }
      else none
    | .reply => (e.replies s.point).map fun p => { s with point := p }
    | .step x =>
      if e.waits s.conn s.point || (e.replies s.point).isSome then none
      else (e.step x s.app s.conn s.point).map fun (a, c, p) => { s with
        app := a, conn := c, point := p }
    | .submit junk t =>
      (e.submit junk t s.app s.conn).map fun (a, c) =>
        { s with app := a, conn := c, traffic := s.traffic.add [t] [] [] }
    | .sendAdd n =>
      if n ≤ s.conn.writeBytes then
        (s.conn.writeBuf.sendAdd n).map fun b =>
          { s with
            conn := { s.conn with writeBuf := b }
            traffic := s.traffic.add [] [] (s.conn.writeBuf.pending.take n) }
      else none
    | .close => some { s with conn := s.conn.close }

theorem stream_histories {e : Endpoint σ P X T} {s t : StreamRun σ P T} {op : StreamOp X T}
    (hs : (streamMachine e).step s op = some t) :
    s.traffic.received <+: t.traffic.received ∧ s.traffic.sent <+: t.traffic.sent := by
  have more : ∀ submitted received sent, t.traffic = s.traffic.add submitted received sent →
      s.traffic.received <+: t.traffic.received ∧ s.traffic.sent <+: t.traffic.sent := by
    intro submitted received sent added
    rw [added]
    exact ⟨List.prefix_append _ _, List.prefix_append _ _⟩
  have same : t.traffic = s.traffic →
      s.traffic.received <+: t.traffic.received ∧ s.traffic.sent <+: t.traffic.sent := by
    intro same
    rw [same]
    exact ⟨List.prefix_refl _, List.prefix_refl _⟩
  cases op with
  | read bs =>
    simp only [streamMachine, Option.ite_none_right_eq_some, Option.some.injEq] at hs
    obtain ⟨_, rfl⟩ := hs
    exact more _ _ _ rfl
  | reply =>
    obtain ⟨p, _, rfl⟩ := Option.map_eq_some_iff.mp hs
    exact same rfl
  | step x =>
    simp only [streamMachine, Option.ite_none_left_eq_some] at hs
    obtain ⟨r, _, rfl⟩ := Option.map_eq_some_iff.mp hs.2
    exact same rfl
  | submit junk request =>
    obtain ⟨r, _, rfl⟩ := Option.map_eq_some_iff.mp hs
    exact more _ _ _ rfl
  | sendAdd n =>
    simp only [streamMachine, Option.ite_none_right_eq_some] at hs
    obtain ⟨b, _, rfl⟩ := Option.map_eq_some_iff.mp hs.2
    exact more _ _ _ rfl
  | close =>
    cases hs
    exact same rfl

def Endpoint.stream (e : Endpoint σ P X T) : Party (StreamRun σ P T) (StreamOp X T) UInt8 where
  machine := streamMachine e
  received s := s.traffic.received
  sent s := s.traffic.sent
  received_start := rfl
  received_grows hs := (stream_histories hs).1
  sent_grows hs := (stream_histories hs).2

end

section

variable {M Req Resp : Type} {srv : RpcServer M Req Resp}

/-- The server has done so far what it does on an open connection, and until it ends it is where it
would be there. -/
structure ServesOpen (s : StreamRun (List (Call M Req Resp)) (RecvPoint M) Empty)
    (t : PipelineRun M Req Resp) : Prop where
  received : t.received = s.traffic.received
  sent : t.sent = s.traffic.sent
  calls : t.calls = s.app
  output : t.conn.writeBuf = s.conn.writeBuf
  running : s.point ≠ .done → t.conn = s.conn.reopen ∧ t.point = s.point

theorem resume_open {memory : Nat → UInt8} {response : Resp} {c d : Connection} {p q : RecvPoint M}
    {calls : List (Call M Req Resp)} (go : RpcServer.waits c.reopen p = false)
    (hs : srv.recvStep memory response c p = some (d, q, calls)) :
    ∃ d', srv.recvStep memory response c.reopen p = some (d', q, calls) ∧ d'.reopen = d.reopen ∧
      (q ≠ .done → d' = d.reopen) := by
  have same := recvStep_reopen srv memory response go
  rw [hs, Option.map_some] at same
  obtain ⟨⟨d', q', calls'⟩, hr, equal⟩ := Option.map_eq_some_iff.mp same.symm
  simp only [Prod.map, id, Prod.mk.injEq] at equal
  obtain ⟨conn, rfl, rfl⟩ := equal
  refine ⟨d', hr, conn, ?_⟩
  intro going
  have closed := RpcServer.recvStep_closed hr
  have opened : d'.closed = false := by
    cases q' with
    | done => exact absurd rfl going
    | _ => exact closed
  rw [← conn, Connection.reopen_of_open opened]

theorem serves_step {s t : StreamRun (List (Call M Req Resp)) (RecvPoint M) Empty}
    {u : PipelineRun M Req Resp}
    {x : (Nat → UInt8) × Resp} (h : ServesOpen s u)
    (hs : (streamMachine srv.endpoint).step s (.step x) = some t) :
    ∃ ops u', (pipelineMachine srv).run u ops = some u' ∧ ServesOpen t u' := by
  simp only [streamMachine, Option.ite_none_left_eq_some] at hs
  obtain ⟨⟨a, c, q⟩, hr, rfl⟩ := Option.map_eq_some_iff.mp hs.2
  obtain ⟨⟨d, p, calls⟩, hr, hd⟩ := Option.map_eq_some_iff.mp hr
  cases hd
  have running := RpcServer.recvStep_running hr
  obtain ⟨conn, point⟩ := h.running running
  cases waits : RpcServer.waits s.conn.reopen s.point with
  | true =>
    -- on an open connection `recv_fn` would go on waiting here
    have closed : s.conn.closed = true := by
      by_contra opened
      have same := Connection.reopen_of_open (Bool.eq_false_iff.mpr opened)
      rw [same] at waits
      simp [RpcServer.endpoint, waits] at hs
    cases (recvStep_cut_short closed waits).symm.trans hr
    refine ⟨[], u, rfl, h.received, h.sent, ?_, h.output, fun going => absurd rfl going⟩
    rw [List.append_nil]
    exact h.calls
  | false =>
    obtain ⟨d', hr', reopened, stays⟩ := resume_open waits hr
    refine ⟨[.resume x.1 x.2], { u with conn := d', point := q, calls := u.calls ++ calls }, ?_, ?_⟩
    · simp only [Machine.run, pipelineMachine, conn, point, waits, Bool.false_eq_true,
        if_false, hr', Option.map_some, Option.bind_some]
    · refine ⟨h.received, h.sent, by rw [h.calls], ?_, fun going => ⟨stays going, rfl⟩⟩
      have output := congrArg Connection.writeBuf reopened
      exact output

theorem waits_on_open {c : Connection} {p : RecvPoint M} (waits : RpcServer.waits c p = true) :
    RpcServer.waits c.reopen p = true := by
  apply waits_reopen.mpr
  cases p with
  | headerLen | header | requestLen =>
    simp only [RpcServer.waits, Bool.and_eq_true, decide_eq_true_eq] at waits
    exact waits.1
  | request => exact of_decide_eq_true waits
  | reply | done => cases waits

theorem serves_read {s t : StreamRun (List (Call M Req Resp)) (RecvPoint M) Empty}
    {u : PipelineRun M Req Resp}
    {bs : List UInt8} (h : ServesOpen s u)
    (hs : (streamMachine srv.endpoint).step s (.read bs) = some t) :
    ∃ ops u', (pipelineMachine srv).run u ops = some u' ∧ ServesOpen t u' := by
  simp only [streamMachine, Option.ite_none_right_eq_some, Option.some.injEq] at hs
  obtain ⟨⟨waits, room⟩, rfl⟩ := hs
  have running : s.point ≠ .done := by
    intro left
    rw [left] at waits
    cases waits
  obtain ⟨conn, point⟩ := h.running running
  have short : RpcServer.waits u.conn u.point = true := by
    rw [conn, point]
    exact waits_on_open waits
  have step : (pipelineMachine srv).step u (.read bs) = some { u with
      conn := { u.conn with readBuf := u.conn.readBuf.receive bs }
      received := u.received ++ bs } := by
    apply if_pos
    rw [conn] at short ⊢
    exact ⟨short, room⟩
  refine ⟨[.read bs], _, Option.bind_eq_some_iff.mpr ⟨_, step, rfl⟩, ?_⟩
  refine ⟨by rw [h.received]; rfl, h.sent.trans (List.append_nil _).symm, h.calls, h.output,
    fun _ => ⟨?_, point⟩⟩
  rw [conn]
  rfl

theorem serves_reply [Nonempty Resp] {s t : StreamRun (List (Call M Req Resp)) (RecvPoint M) Empty}
    {u : PipelineRun M Req Resp} (h : ServesOpen s u)
    (hs : (streamMachine srv.endpoint).step s .reply = some t) :
    ∃ ops u', (pipelineMachine srv).run u ops = some u' ∧ ServesOpen t u' := by
  obtain ⟨q, replies, rfl⟩ := Option.map_eq_some_iff.mp hs
  obtain ⟨response⟩ := (inferInstance : Nonempty Resp)
  cases hp : s.point with
  | reply =>
    rw [hp] at replies
    cases replies
    obtain ⟨conn, point⟩ := h.running (by rw [hp]; exact fun left => by cases left)
    rw [hp] at point
    refine ⟨[.resume (fun _ => 0) response], { u with
      point := .headerLen, calls := u.calls ++ [] }, ?_, ?_⟩
    · simp only [Machine.run, pipelineMachine, point, RpcServer.waits, Bool.false_eq_true, if_false,
        RpcServer.recvStep, Option.map_some, Option.bind_some]
    · exact ⟨h.received, h.sent, by rw [List.append_nil]; exact h.calls, h.output,
        fun _ => ⟨conn, rfl⟩⟩
  | _ =>
    rw [hp] at replies
    cases replies

theorem serves_sendAdd {s t : StreamRun (List (Call M Req Resp)) (RecvPoint M) Empty}
    {u : PipelineRun M Req Resp} {n : Nat} (h : ServesOpen s u)
    (hs : (streamMachine srv.endpoint).step s (.sendAdd n) = some t) :
    ∃ ops u', (pipelineMachine srv).run u ops = some u' ∧ ServesOpen t u' := by
  simp only [streamMachine, Option.ite_none_right_eq_some] at hs
  obtain ⟨le, hs⟩ := hs
  obtain ⟨b, hb, rfl⟩ := Option.map_eq_some_iff.mp hs
  have step : (pipelineMachine srv).step u (.sendAdd n) = some { u with
      conn := { u.conn with writeBuf := b }
      sent := u.sent ++ u.conn.writeBuf.pending.take n } := by
    have le' : n ≤ u.conn.writeBytes := by rw [Connection.writeBytes, h.output]; exact le
    simp only [pipelineMachine, if_pos le', h.output, hb, Option.map_some]
  refine ⟨[.sendAdd n], _, Option.bind_eq_some_iff.mpr ⟨_, step, rfl⟩, ?_⟩
  refine ⟨h.received.trans (List.append_nil _).symm, by rw [h.sent, h.output]; rfl,
    h.calls, rfl, ?_⟩
  intro running
  obtain ⟨conn, point⟩ := h.running running
  rw [conn]
  exact ⟨rfl, point⟩

/-- Whatever drives it, the server's end does what `pipelineMachine` does. -/
theorem server_simulates [Nonempty Resp] (srv : RpcServer M Req Resp) :
    Party.Simulates srv.endpoint.stream srv.party (fun _ _ => True) ServesOpen where
  start := ⟨rfl, rfl, rfl, rfl, fun _ => ⟨rfl, rfl⟩⟩
  received h := h.received
  sent h := h.sent
  step := by
    intro s op t u h _ hs
    cases op with
    | read bs => exact serves_read h hs
    | reply => exact serves_reply h hs
    | step x => exact serves_step h hs
    | submit junk request => cases request
    | sendAdd n => exact serves_sendAdd h hs
    | close =>
      cases hs
      exact ⟨[], u, rfl, h.received, h.sent, h.calls, h.output, h.running⟩

end

section

variable {Args R D Msg : Type} {ch : ClientChannel Args R Msg}

/- The channel, with the histories that its end does not keep. -/
def IsChannel (s : StreamRun (ClientState R D Msg) ClientPoint (MethodCall Args R D))
    (t : ClientRun Args R D Msg) : Prop :=
  t.conn = s.conn ∧ t.state = s.app ∧ t.point = s.point ∧
    s.traffic = ⟨t.calls.map Prod.snd, t.received, t.sent⟩

/-- Whatever drives it, the client's end does what `clientMachine` does. -/
theorem client_simulates (ch : ClientChannel Args R Msg) :
    Party.Simulates (ch.endpoint (D := D)).stream ch.party (fun _ _ => True) IsChannel where
  start := ⟨rfl, rfl, rfl, rfl⟩
  received h := by
    obtain ⟨_, _, _, traffic⟩ := h
    exact (congrArg Traffic.received traffic).symm
  sent h := by
    obtain ⟨_, _, _, traffic⟩ := h
    exact (congrArg Traffic.sent traffic).symm
  step := by
    intro s op t u h _ hs
    obtain ⟨c, a, p, traffic⟩ := s
    obtain ⟨c', st, p', received, handled, calls, sent⟩ := u
    obtain ⟨rfl, rfl, rfl, rfl⟩ := h
    cases op with
    | read bs =>
      simp only [Endpoint.stream, streamMachine, Option.ite_none_right_eq_some,
        Option.some.injEq] at hs
      obtain ⟨room, rfl⟩ := hs
      refine ⟨[.read bs], _, Option.bind_eq_some_iff.mpr ⟨_, if_pos room, rfl⟩, rfl, rfl, rfl, ?_⟩
      simp [Traffic.add]
    | reply => cases hs
    | step memory =>
      simp only [Endpoint.stream, streamMachine, Option.ite_none_left_eq_some] at hs
      obtain ⟨⟨a, c, p⟩, hr, rfl⟩ := Option.map_eq_some_iff.mp hs.2
      simp only [Bool.or_eq_true, not_or, Bool.not_eq_true] at hs
      exact ⟨[.resume memory], _, Option.bind_eq_some_iff.mpr ⟨_, resume_eq hs.1.1 hr, rfl⟩,
        rfl, rfl, rfl, rfl⟩
    | submit junk request =>
      obtain ⟨⟨a, c⟩, hr, rfl⟩ := Option.map_eq_some_iff.mp hs
      have step : (clientMachine ch).step ⟨c', st, p', received, handled, calls, sent⟩
          (.call junk request) =
          some ⟨c, a, p', received, handled, calls ++ [(st.requestId, request)], sent⟩ :=
        Option.map_eq_some_iff.mpr ⟨(a, c), hr, rfl⟩
      refine ⟨[.call junk request], _, Option.bind_eq_some_iff.mpr ⟨_, step, rfl⟩, rfl,
        rfl, rfl, ?_⟩
      simp [Traffic.add]
    | sendAdd n =>
      simp only [Endpoint.stream, streamMachine, Option.ite_none_right_eq_some] at hs
      obtain ⟨le, hs⟩ := hs
      obtain ⟨b, hb, rfl⟩ := Option.map_eq_some_iff.mp hs
      have step : (clientMachine ch).step ⟨c', st, p', received, handled, calls, sent⟩
          (.sendAdd n) =
          some ⟨{ c' with writeBuf := b }, st, p', received, handled, calls,
            sent ++ c'.writeBuf.pending.take n⟩ :=
        (if_pos le).trans (Option.map_eq_some_iff.mpr ⟨b, hb, rfl⟩)
      refine ⟨[.sendAdd n], _, Option.bind_eq_some_iff.mpr ⟨_, step, rfl⟩, rfl, rfl, rfl, ?_⟩
      simp [Traffic.add]
    | close =>
      cases hs
      exact ⟨[.close], _, rfl, rfl, rfl, rfl, rfl⟩

end

def numbered {T : Type} (calls : List T) : List (Int64 × T) :=
  ((List.range calls.length).map Int64.ofNat).zip calls

theorem ClientRun.Kept.numbered {Args R D Msg : Type} {ch : ClientChannel Args R Msg}
    {s : ClientRun Args R D Msg} (h : s.Kept ch) : numbered (s.calls.map Prod.snd) = s.calls := by
  rw [Xuanqiong.numbered, List.length_map, ← h.ids]
  exact (List.zip_of_prod rfl rfl).symm

namespace Rpc

variable {Args R D Msg M Req Resp : Type} {g : Rpc Args R D Msg M Req Resp}

/-- Two ends that do what the ends without an executor do answer the calls in order. -/
theorem inOrder_of_simulates [Nonempty Resp] {S T A B : Type} {p : Party S A UInt8}
    {q : Party T B UInt8} {ok : S → A → Prop} {ok' : T → B → Prop}
    {C : S → StreamRun (ClientState R D Msg) ClientPoint (MethodCall Args R D) → Prop}
    {Q : T → StreamRun (List (Call M Req Resp)) (RecvPoint M) Empty → Prop}
    (client : p.Simulates g.channel.endpoint.stream ok C)
    (server : q.Simulates g.server.endpoint.stream ok' Q)
    {s : S × T} (h : (p.joined q).ReachWith (Party.Both ok ok') s) :
    ∃ u v, C s.1 u ∧ Q s.2 v ∧ (g.Fits (numbered u.traffic.submitted) v.app →
      g.InOrder (numbered u.traffic.submitted) v.app u.app) := by
  obtain ⟨t, reached, ⟨u, left, channel⟩, v, right, serves⟩ :=
    (client.trans (client_simulates g.channel)).joined (server.trans (server_simulates g.server)) h
  refine ⟨u, v, left, right, ?_⟩
  obtain ⟨_, state, _, traffic⟩ := channel
  have calls : numbered u.traffic.submitted = t.1.calls := by
    rw [traffic]
    exact (kept_reach (Party.joined_parts reached).1).numbered
  rw [calls, ← serves.calls, ← state]
  exact inOrder_reach reached

end Rpc

theorem byteRpc_fits : byteRpc.Fits (numbered [byteCall 5])
    [⟨ClientChannel.reqHeader 0 (byteCall 5), (), 5, 50⟩] := by
  constructor
  · decide
  · intro e he
    cases List.mem_singleton.mp he
    exact byteRpc_covers (Or.inl rfl) 5
  · exact fun e _ call _ _ => byteRpc_accepts e call.response
  · show Whole 0 ∧ Whole 5 ∧ True
    decide
  · show Whole 0 ∧ Whole 5 ∧ True
    decide

end Xuanqiong
