import Xuanqiong.Rpc.Wire

/-! A channel and a server at the two ends of a connection. Calls are made at any time, and the
connection carries the bytes of either direction in pieces of any size: every call is ended with
the response that its own request was given, and with no other. -/
namespace Xuanqiong

section

variable {Args R D Msg M Req Resp : Type}

theorem client_histories {ch : ClientChannel Args R Msg} {s t : ClientRun Args R D Msg}
    {op : ClientOp Args R D} (hs : (clientMachine ch).step s op = some t) :
    s.received <+: t.received ∧ s.sent <+: t.sent ∧ s.calls <+: t.calls := by
  have same : ∀ {α : Type} (l : List α), l <+: l := fun l => List.prefix_refl l
  cases op with
  | read bs =>
    simp only [clientMachine, Option.ite_none_right_eq_some, Option.some.injEq] at hs
    obtain ⟨_, rfl⟩ := hs
    exact ⟨List.prefix_append _ _, same _, same _⟩
  | resume memory =>
    simp only [clientMachine, Option.ite_none_left_eq_some] at hs
    obtain ⟨r, _, rfl⟩ := Option.map_eq_some_iff.mp hs.2
    exact ⟨same _, same _, same _⟩
  | call junk call =>
    obtain ⟨r, _, rfl⟩ := Option.map_eq_some_iff.mp hs
    exact ⟨same _, same _, List.prefix_append _ _⟩
  | sendAdd n =>
    simp only [clientMachine, Option.ite_none_right_eq_some] at hs
    obtain ⟨b, _, rfl⟩ := Option.map_eq_some_iff.mp hs.2
    exact ⟨same _, List.prefix_append _ _, same _⟩
  | close =>
    cases hs
    exact ⟨same _, same _, same _⟩

theorem pipeline_histories {srv : RpcServer M Req Resp} {s t : PipelineRun M Req Resp}
    {op : PipelineOp Resp} (hs : (pipelineMachine srv).step s op = some t) :
    s.received <+: t.received ∧ s.sent <+: t.sent ∧ s.calls <+: t.calls := by
  have same : ∀ {α : Type} (l : List α), l <+: l := fun l => List.prefix_refl l
  cases op with
  | read bs =>
    simp only [pipelineMachine, Option.ite_none_right_eq_some, Option.some.injEq] at hs
    obtain ⟨_, rfl⟩ := hs
    exact ⟨List.prefix_append _ _, same _, same _⟩
  | resume memory response =>
    simp only [pipelineMachine, Option.ite_none_left_eq_some] at hs
    obtain ⟨r, _, rfl⟩ := Option.map_eq_some_iff.mp hs.2
    exact ⟨same _, same _, List.prefix_append _ _⟩
  | sendAdd n =>
    simp only [pipelineMachine, Option.ite_none_right_eq_some] at hs
    obtain ⟨b, _, rfl⟩ := Option.map_eq_some_iff.mp hs.2
    exact ⟨same _, List.prefix_append _ _, same _⟩

def ClientChannel.party (ch : ClientChannel Args R Msg) :
    Party (ClientRun Args R D Msg) (ClientOp Args R D) UInt8 where
  machine := clientMachine ch
  received := ClientRun.received
  sent := ClientRun.sent
  received_start := rfl
  received_grows hs := (client_histories hs).1
  sent_grows hs := (client_histories hs).2.1

def RpcServer.party (srv : RpcServer M Req Resp) :
    Party (PipelineRun M Req Resp) (PipelineOp Resp) UInt8 where
  machine := pipelineMachine srv
  received := PipelineRun.received
  sent := PipelineRun.sent
  received_start := rfl
  received_grows hs := (pipeline_histories hs).1
  sent_grows hs := (pipeline_histories hs).2.1

theorem under_eq_nil {α : Type} {i : Int64} {entries : List (Int64 × α)}
    (fresh : i ∉ entries.map Prod.fst) : under i entries = [] := by
  apply List.filterMap_eq_nil_iff.mpr
  intro e he
  apply if_neg
  intro same
  exact fresh (same ▸ List.mem_map_of_mem he)

theorem under_cons_self {α : Type} (i : Int64) (a : α) (rest : List (Int64 × α)) :
    under i ((i, a) :: rest) = a :: under i rest := by simp [under]

theorem under_cons_other {α : Type} {i j : Int64} (other : j ≠ i) (a : α)
    (rest : List (Int64 × α)) :
    under i ((j, a) :: rest) = under i rest := by simp [under, other]

theorem drop_of_getElem? {α : Type} {l : List α} {k : Nat} {a : α} (here : l[k]? = some a) :
    l.drop k = a :: l.drop (k + 1) := by
  obtain ⟨bound, rfl⟩ := List.getElem?_eq_some_iff.mp here
  exact List.drop_eq_getElem_cons bound

/-- A step of the client's `recv_fn` leaves the table alone, or it is the end of a turn and takes
off it the session of the frame, which the payload of the frame has ended. -/
theorem resume_turn {ch : ClientChannel Args R Msg} {s t : ClientRun Args R D Msg}
    {memory : Nat → UInt8} (known : ∀ h n, s.point = .response h n → n ≤ s.conn.readBytes →
      ∃ session bytes d message, s.state.id2session h.requestId = some session ∧
        s.conn.pull n = some (bytes, d) ∧ ch.parseResponse session.response bytes = some message)
    (hs : (clientMachine ch).step s (.resume memory) = some t) :
    (t.state = s.state ∧ t.handled = s.handled) ∨
      ∃ h n session bytes d message, s.point = .response h n ∧ n ≤ s.conn.readBytes ∧
        s.state.id2session h.requestId = some session ∧ s.conn.pull n = some (bytes, d) ∧
        ch.parseResponse session.response bytes = some message ∧
        t.state = s.state.settle h.requestId session (some message) ∧
        t.handled = s.handled ++ [h] := by
  simp only [clientMachine, Option.ite_none_left_eq_some] at hs
  obtain ⟨⟨st, c, q⟩, hr, rfl⟩ := Option.map_eq_some_iff.mp hs.2
  cases hp : s.point with
  | headerLen | header n | responseLen h =>
    rw [hp] at hr
    obtain ⟨_, same | ⟨h, n, session, bytes, d, site, _⟩⟩ := ClientChannel.recvStep_effect hr
    · left
      exact ⟨same, by simp [ClientPoint.turn]⟩
    · cases site
  | response h n =>
    rw [hp] at hr
    simp only [ClientChannel.recvStep] at hr
    split at hr
    · left
      cases hr
      exact ⟨rfl, by simp [ClientPoint.turn]⟩
    · right
      have enough : n ≤ s.conn.readBytes := by
        by_contra short
        simp only [hp, ClientChannel.waits, Bool.and_eq_true, decide_eq_true_eq, not_and] at hs
        rename_i going
        have opened := hs.1 (by omega)
        simp only [Bool.not_eq_true', Bool.not_eq_false] at opened
        exact going ⟨opened, by omega⟩
      obtain ⟨session, bytes, d, message, found, pulled, parses⟩ := known h n hp enough
      simp only [ClientChannel.handleResponse, found, pulled, parses, Option.map_some,
        Option.some.injEq] at hr
      cases hr
      exact ⟨h, n, session, bytes, d, message, rfl, enough, found, pulled, parses, rfl, rfl⟩
  | done =>
    rw [hp] at hr
    cases hr

end

namespace Rpc

variable {Args R D Msg M Req Resp : Type} {g : Rpc Args R D Msg M Req Resp}
  {s t : ClientRun Args R D Msg × PipelineRun M Req Resp}

def machine (g : Rpc Args R D Msg M Req Resp) :
    Machine (ClientRun Args R D Msg × PipelineRun M Req Resp)
      (ClientOp Args R D ⊕ PipelineOp Resp) :=
  g.channel.party.joined g.server.party

/-- What the calls of a run and the responses to them have to be like: the two ends agree on them,
the counter of ids has not gone round, and no length prefix straddles the end of a block. -/
structure Fits (g : Rpc Args R D Msg M Req Resp) (calls : List (Int64 × MethodCall Args R D))
    (served : List (Call M Req Resp)) : Prop where
  few : calls.length < 2 ^ 63
  covered : ∀ e ∈ calls, g.Covers e
  accepted : ∀ e ∈ calls, ∀ call ∈ served, call.header.requestId = e.1 → g.Accepts e call.response
  requests : WholeMessages 0 (calls.flatMap g.channel.requestMessages)
  replies : WholeMessages 0 (served.flatMap g.server.replyMessages)

theorem Fits.before {calls calls' : List (Int64 × MethodCall Args R D)}
    {served served' : List (Call M Req Resp)}
    (h : g.Fits calls' served') (made : calls <+: calls') (answered : served <+: served') :
    g.Fits calls served := by
  constructor
  · exact Nat.lt_of_le_of_lt made.length_le h.few
  · exact fun e he => h.covered e (made.subset he)
  · exact fun e he call hc => h.accepted e (made.subset he) call (answered.subset hc)
  · obtain ⟨more, later⟩ := made
    have whole := h.requests
    rw [← later, List.flatMap_append] at whole
    exact whole.left
  · obtain ⟨more, later⟩ := answered
    have whole := h.replies
    rw [← later, List.flatMap_append] at whole
    exact whole.left

theorem grows {op : ClientOp Args R D ⊕ PipelineOp Resp} (hs : g.machine.step s op = some t) :
    s.1.calls <+: t.1.calls ∧ s.2.calls <+: t.2.calls := by
  cases op with
  | inl a =>
    obtain ⟨step, _, same⟩ := Party.joined_left hs
    exact ⟨(client_histories step).2.2, same ▸ List.prefix_refl _⟩
  | inr b =>
    obtain ⟨step, _, same⟩ := Party.joined_right hs
    exact ⟨same ▸ List.prefix_refl _, (pipeline_histories step).2.2⟩

/-- As many calls as the client has put behind it have been ended, in order, each with the response
that the server gave to it, and the table holds the others. -/
structure Inv (g : Rpc Args R D Msg M Req Resp)
    (s : ClientRun Args R D Msg × PipelineRun M Req Resp) :
    Prop where
  client : (clientMachine g.channel).ReachWith (AnswersCalls g.channel) s.1
  server : (pipelineMachine g.server).Reach s.2
  linked : Party.Linked g.channel.party g.server.party s
  answered : s.1.handled.length ≤ s.2.calls.length
  endings : s.1.state.endings =
    List.zipWith g.ending (s.1.calls.take s.1.handled.length) (s.2.calls.take s.1.handled.length)
  table : ∀ i, (s.1.state.id2session i).toList =
    under i ((s.1.calls.drop s.1.handled.length).map fun e => (e.1, e.2.session))

theorem request_stream (fits : g.Fits s.1.calls s.2.calls) :
    ∃ frames : List (RequestFrame g.server),
    frames.map RequestFrame.asked = s.1.calls.map g.asked ∧
    stream frames .nothing = s.1.calls.flatMap g.channel.requestBytes ∧
    Unbroken 0 frames .nothing := by
  obtain ⟨frames, view⟩ := requests_framed fits.covered
  refine ⟨frames, ?_, ?_, ?_⟩
  · have told := congrArg (List.map Prod.fst) view
    simp only [List.map_map] at told
    exact told
  · rw [stream_view, view, List.flatMap_map, List.flatMap_assoc]
    apply List.flatMap_congr
    intro e _
    exact (g.channel.requestBytes_eq e).symm
  · rw [unbroken_view, view, List.flatMap_map]
    exact fits.requests

theorem reply_stream (fits : g.Fits s.1.calls s.2.calls)
    (asked : s.2.calls.map Call.asked <+: s.1.calls.map g.asked) :
    ∃ frames : List (ResponseFrame g.channel),
      frames.map ResponseFrame.view = s.2.calls.map (fun call =>
        (RpcServer.respHeader call.header.requestId, g.server.replyMessages call)) ∧
      responses frames = s.2.calls.flatMap g.server.reply ∧ WholePrefixes 0 frames := by
  obtain ⟨frames, view⟩ := replies_framed fits.covered fits.accepted asked
  refine ⟨frames, view, ?_, ?_⟩
  · rw [responses_view, view, List.flatMap_map, List.flatMap_assoc]
    apply List.flatMap_congr
    intro call _
    exact (g.server.reply_eq call).symm
  · rw [wholePrefixes_view, view, List.flatMap_map]
    exact fits.replies

theorem Inv.requested (h : g.Inv s) :
    s.2.received <+: s.1.calls.flatMap g.channel.requestBytes := by
  have output := (kept_reach h.client.reach).output
  exact h.linked.right.trans (output ▸ List.prefix_append _ _)

theorem Inv.handled (h : g.Inv s) (fits : g.Fits s.1.calls s.2.calls) :
    ∃ frames handled rest : List (RequestFrame g.server),
    frames.map RequestFrame.asked = s.1.calls.map g.asked ∧
    stream frames .nothing = s.1.calls.flatMap g.channel.requestBytes ∧
    s.2.Handled frames .nothing handled rest := by
  obtain ⟨frames, asked, bytes, unbroken⟩ := request_stream fits
  obtain ⟨handled, rest, hh⟩ := pipeline_reach unbroken h.server (bytes ▸ h.requested)
  exact ⟨frames, handled, rest, asked, bytes, hh⟩

theorem Inv.asked (h : g.Inv s) (fits : g.Fits s.1.calls s.2.calls) :
    s.2.calls.map Call.asked <+: s.1.calls.map g.asked := by
  obtain ⟨frames, handled, rest, asked, _, hh⟩ := h.handled fits
  rw [hh.calls, ← asked, hh.cut, List.map_append]
  exact List.prefix_append _ _

theorem Inv.replied (h : g.Inv s) (fits : g.Fits s.1.calls s.2.calls) :
    ∃ frames : List (ResponseFrame g.channel),
    frames.map ResponseFrame.view = s.2.calls.map (fun call =>
      (RpcServer.respHeader call.header.requestId, g.server.replyMessages call)) ∧
    responses frames = s.2.calls.flatMap g.server.reply ∧
    s.1.received <+: responses frames ∧ s.1.Follows frames := by
  obtain ⟨frames, view, bytes, whole⟩ := reply_stream fits (h.asked fits)
  obtain ⟨_, _, _, _, _, hh⟩ := h.handled fits
  have within : s.1.received <+: responses frames := by
    rw [bytes, ← hh.output]
    exact h.linked.left.trans (List.prefix_append _ _)
  exact ⟨frames, view, bytes, within, (follows_reach whole h.client).2 within⟩

theorem Inv.pair (h : g.Inv s) (fits : g.Fits s.1.calls s.2.calls) {k : Nat}
    {call : Call M Req Resp} (served : s.2.calls[k]? = some call) :
    ∃ e, s.1.calls[k]? = some e ∧ call.header = ClientChannel.reqHeader e.1 e.2 := by
  obtain ⟨bound, rfl⟩ := List.getElem?_eq_some_iff.mp served
  have same := List.prefix_iff_getElem?.mp (h.asked fits) k (by rw [List.length_map]; exact bound)
  rw [List.getElem?_map, List.getElem_map] at same
  obtain ⟨e, he, asked⟩ := Option.map_eq_some_iff.mp same
  exact ⟨e, he, (congrArg Prod.fst asked).symm⟩

/-- Where the client waits for the payload of a response, or has it, the response is that of the
first call that is not behind it. -/
theorem Inv.awaited (h : g.Inv s) (fits : g.Fits s.1.calls s.2.calls) {hd : Header} {n : Nat}
    (site : s.1.point = .response hd n) : ∃ e call,
      s.1.calls[s.1.handled.length]? = some e ∧ s.2.calls[s.1.handled.length]? = some call ∧
      hd = RpcServer.respHeader e.1 ∧ g.Accepts e call.response ∧
      (n ≤ s.1.conn.readBytes →
        ∃ d, s.1.conn.pull n = some (g.server.serializeResponse call.response, d)) := by
  obtain ⟨frames, view, _, within, follows⟩ := h.replied fits
  rcases follows with left | ⟨handled, rest, step⟩
  · rw [site] at left
    cases left
  · have awaits := step.poised.awaits
    have behind : s.1.handled.length = handled.length := by rw [step.turns, List.length_map]
    rw [site] at awaits
    cases awaits with
    | @response f rest _ _ _ len whole bytes =>
      -- the frame that is read is the one of the call in its place
      have place : (frames.map ResponseFrame.view)[handled.length]? = some f.view := by
        rw [step.cut]
        simp
      rw [view, List.getElem?_map] at place
      obtain ⟨call, served, same⟩ := Option.map_eq_some_iff.mp place
      obtain ⟨e, made, header⟩ := h.pair fits served
      have id : call.header.requestId = e.1 := by rw [header]; rfl
      have payload : g.server.serializeResponse call.response = f.responseBytes := by
        have parts := congrArg (fun v => v.2[1]?) same
        simpa [RpcServer.replyMessages, ResponseFrame.view] using parts
      refine ⟨e, call, behind ▸ made, behind ▸ served, ?_, ?_, ?_⟩
      · rw [← id]
        exact (congrArg Prod.fst same).symm
      · exact fits.accepted e (List.mem_of_getElem? made) call (List.mem_of_getElem? served) id
      · intro enough
        have feeds : s.1.conn.readBuf.unread <+: f.responseBytes ++ responses rest := by
          rw [step.poised.readInv.unread_eq, ← bytes]
          exact within.drop _
        obtain ⟨b, pulled, _⟩ :=
          Connection.pull_spec step.poised.readInv feeds (len ▸ enough) f.response_short
        rw [len, payload]
        exact ⟨_, pulled⟩

theorem Inv.session (h : g.Inv s) {e : Int64 × MethodCall Args R D}
    (made : s.1.calls[s.1.handled.length]? = some e) :
    s.1.state.id2session e.1 = some e.2.session ∧
      under e.1
        ((s.1.calls.drop (s.1.handled.length + 1)).map fun e => (e.1, e.2.session)) = [] := by
  have table := h.table e.1
  rw [drop_of_getElem? made, List.map_cons, under_cons_self] at table
  cases found : s.1.state.id2session e.1 with
  | none =>
    rw [found] at table
    cases table
  | some session =>
    rw [found] at table
    obtain ⟨same, none⟩ := List.cons.inj table
    exact ⟨congrArg some same, none.symm⟩

theorem Inv.known (h : g.Inv s) (fits : g.Fits s.1.calls s.2.calls) (hd : Header) (n : Nat)
    (site : s.1.point = .response hd n) (enough : n ≤ s.1.conn.readBytes) :
    ∃ session bytes d message, s.1.state.id2session hd.requestId = some session ∧
      s.1.conn.pull n = some (bytes, d) ∧
      g.channel.parseResponse session.response bytes = some message := by
  obtain ⟨e, call, made, served, header, accepts, pulled⟩ := h.awaited fits site
  obtain ⟨d, pulled⟩ := pulled enough
  exact ⟨e.2.session, _, d, _, header ▸ (h.session made).1, pulled, accepts.parses⟩

theorem Inv.answersCalls (h : g.Inv s) (fits : g.Fits s.1.calls s.2.calls)
    (op : ClientOp Args R D) :
    AnswersCalls g.channel s.1 op := by
  cases op with
  | resume memory =>
    intro hd n site enough
    obtain ⟨session, bytes, d, message, found, pulled, parses⟩ := h.known fits hd n site enough
    right
    refine ⟨session, found, ?_⟩
    intro bytes' d' pulled'
    cases pulled.symm.trans pulled'
    rw [parses]
    rfl
  | _ => trivial

theorem inv_start (g : Rpc Args R D Msg M Req Resp) : g.Inv g.machine.start where
  client := .start
  server := .start
  linked := Party.linked_start _ _
  answered := Nat.le_refl 0
  endings := rfl
  table _ := rfl

theorem Inv.handled_le (h : g.Inv s) (fits : g.Fits s.1.calls s.2.calls) :
    s.1.handled.length ≤ s.1.calls.length := by
  have served := (h.asked fits).length_le
  simp only [List.length_map] at served
  exact Nat.le_trans h.answered served

theorem Inv.serverStep {b : PipelineOp Resp} (h : g.Inv s)
    (hs : g.machine.step s (.inr b) = some t) :
    g.Inv t := by
  obtain ⟨step, _, same⟩ := Party.joined_right hs
  have linked := Party.linked_step h.linked hs
  obtain ⟨client, server⟩ := t
  subst same
  obtain ⟨more, later⟩ := (pipeline_histories step).2.2
  have taken : server.calls.take s.1.handled.length = s.2.calls.take s.1.handled.length := by
    rw [← later, List.take_append_of_le_length h.answered]
  have answered := Nat.le_trans h.answered (pipeline_histories step).2.2.length_le
  exact ⟨h.client, h.server.step step, linked, answered, taken ▸ h.endings, h.table⟩

theorem Inv.keeps (h : g.Inv s)
    (client : (clientMachine g.channel).ReachWith (AnswersCalls g.channel) t.1)
    (linked : Party.Linked g.channel.party g.server.party t) (server : t.2 = s.2)
    (state : t.1.state = s.1.state) (calls : t.1.calls = s.1.calls)
    (handled : t.1.handled = s.1.handled) :
    g.Inv t := by
  constructor
  · exact client
  · rw [server]
    exact h.server
  · exact linked
  · rw [handled, server]
    exact h.answered
  · rw [state, calls, handled, server]
    exact h.endings
  · rw [state, calls, handled]
    exact h.table

theorem fresh_id (kept : s.1.Kept g.channel) (few : s.1.calls.length + 1 < 2 ^ 63)
    (calls : List (Int64 × MethodCall Args R D)) (earlier : calls ⊆ s.1.calls) :
    under s.1.state.requestId (calls.map fun e => (e.1, e.2.session)) = [] := by
  apply under_eq_nil
  intro used
  simp only [List.map_map, List.mem_map, Function.comp_apply] at used
  obtain ⟨e, he, same⟩ := used
  have there : e.1 ∈ s.1.calls.map Prod.fst := List.mem_map_of_mem (earlier he)
  rw [kept.ids] at there
  obtain ⟨k, hk, id⟩ := List.mem_map.mp there
  have bound := List.mem_range.mp hk
  rw [same, kept.nextId] at id
  have equal := ofNat_inj_of_lt (by omega) (by omega) id
  omega

theorem Inv.call {junk : Nat → UInt8} {call : MethodCall Args R D} (h : g.Inv s)
    (fits : g.Fits t.1.calls t.2.calls)
    (before : g.Fits s.1.calls s.2.calls)
    (hs : g.machine.step s (.inl (.call junk call)) = some t) :
    g.Inv t := by
  obtain ⟨step, _, same⟩ := Party.joined_left hs
  have linked := Party.linked_step h.linked hs
  have client : (clientMachine g.channel).ReachWith (AnswersCalls g.channel) t.1 :=
    .next h.client (h.answersCalls before _) step
  have kept := kept_reach h.client.reach
  have behind := h.handled_le before
  have few := fits.few
  obtain ⟨run, server⟩ := t
  subst same
  cases client_move kept.writeInv step with
  | call inv pending =>
    refine ⟨client, h.server, linked, h.answered, ?_, ?_⟩
    · simp only [List.take_append_of_le_length behind]
      exact h.endings
    · intro i
      simp only [List.drop_append_of_le_length behind, List.map_append, under_append, List.map_cons,
        List.map_nil]
      simp only [List.length_append, List.length_singleton] at few
      by_cases mine : s.1.state.requestId = i
      · subst mine
        rw [fresh_id kept few _ (List.drop_subset _ _), under_self]
        simp [ClientState.enter]
      · rw [under_other mine, List.append_nil, ← h.table i]
        simp [ClientState.enter, Function.update_of_ne (Ne.symm mine)]

theorem Inv.resume {memory : Nat → UInt8} (h : g.Inv s) (before : g.Fits s.1.calls s.2.calls)
    (hs : g.machine.step s (.inl (.resume memory)) = some t) : g.Inv t := by
  obtain ⟨step, _, same⟩ := Party.joined_left hs
  have linked := Party.linked_step h.linked hs
  have client : (clientMachine g.channel).ReachWith (AnswersCalls g.channel) t.1 :=
    .next h.client (h.answersCalls before _) step
  have calls : t.1.calls = s.1.calls := by
    generalize t.1 = run at step
    cases client_move (kept_reach h.client.reach).writeInv step <;> rfl
  rcases resume_turn (h.known before) step with ⟨state, handled⟩ | turn
  · exact h.keeps client linked same state calls handled
  · obtain ⟨hd, n, session, bytes, d, message, site, enough, found, pulled, parses, state,
      handled⟩ := turn
    obtain ⟨e, call, made, served, header, accepts, pulled'⟩ := h.awaited before site
    obtain ⟨mine, later⟩ := h.session made
    obtain ⟨d', pulled'⟩ := pulled' enough
    have id : hd.requestId = e.1 := by rw [header]; rfl
    -- the session that was found is that of the call, and the payload is its response
    rw [id, mine] at found
    cases found
    rw [pulled] at pulled'
    cases pulled'
    rw [accepts.parses] at parses
    cases parses
    obtain ⟨madeBound, _⟩ := List.getElem?_eq_some_iff.mp made
    obtain ⟨servedBound, _⟩ := List.getElem?_eq_some_iff.mp served
    have more : t.1.handled.length =
      s.1.handled.length + 1 := by rw [handled, List.length_append]; rfl
    refine ⟨client, same ▸ h.server, linked, by rw [more, same]; exact servedBound, ?_, ?_⟩
    · have lengths : (s.1.calls.take s.1.handled.length).length =
          (s.2.calls.take s.1.handled.length).length := by
        rw [List.length_take, List.length_take]
        omega
      rw [more, same, calls, List.take_add_one, List.take_add_one, made, served,
        List.zipWith_append lengths, ← h.endings, state, id]
      rfl
    · intro i
      have table := h.table i
      rw [drop_of_getElem? made, List.map_cons] at table
      rw [more, calls, state, id]
      by_cases own : e.1 = i
      · subst own
        rw [later]
        simp [ClientState.settle]
      · rw [under_cons_other own] at table
        rw [← table]
        simp [ClientState.settle, Function.update_of_ne (Ne.symm own)]

theorem inv_step {op : ClientOp Args R D ⊕ PipelineOp Resp} (h : g.Inv s)
    (fits : g.Fits t.1.calls t.2.calls) (hs : g.machine.step s op = some t) : g.Inv t := by
  obtain ⟨calls, served⟩ := grows hs
  have before := fits.before calls served
  cases op with
  | inr b => exact h.serverStep hs
  | inl a =>
    cases a with
    | call junk call => exact h.call fits before hs
    | resume memory => exact h.resume before hs
    | read | sendAdd | close =>
      obtain ⟨step, _, same⟩ := Party.joined_left hs
      have linked := Party.linked_step h.linked hs
      have client : (clientMachine g.channel).ReachWith (AnswersCalls g.channel) t.1 :=
        .next h.client (h.answersCalls before _) step
      obtain ⟨run, server⟩ := t
      subst same
      cases client_move (kept_reach h.client.reach).writeInv step
      exact h.keeps client linked rfl rfl rfl rfl

theorem inv_reach (h : g.machine.Reach s) (fits : g.Fits s.1.calls s.2.calls) : g.Inv s := by
  refine h.invariant (I := fun s => g.Fits s.1.calls s.2.calls → g.Inv s)
    (fun _ => inv_start g) ?_ fits
  intro s op t before hs fits
  obtain ⟨calls, served⟩ := grows hs
  exact inv_step (before (fits.before calls served)) fits hs

/-- The server was asked for the first of the calls, in order and each once; the first of those
that it was asked for have been ended, each with the response that it gave to that very call; and
the sessions of all others are in the table, and nothing else. -/
def InOrder (g : Rpc Args R D Msg M Req Resp) (calls : List (Int64 × MethodCall Args R D))
    (served : List (Call M Req Resp)) (state : ClientState R D Msg) : Prop :=
  served.map Call.asked <+: calls.map g.asked ∧
    ∃ k, k ≤ served.length ∧ state.endings = List.zipWith g.ending (calls.take k) (served.take k) ∧
      ∀ i, (state.id2session i).toList = under i ((calls.drop k).map fun e => (e.1, e.2.session))

theorem inOrder_reach (h : g.machine.Reach s) (fits : g.Fits s.1.calls s.2.calls) :
    g.InOrder s.1.calls s.2.calls s.1.state := by
  have inv := inv_reach h fits
  exact ⟨inv.asked fits, s.1.handled.length, inv.answered, inv.endings, inv.table⟩

/-- Whatever is called and however the connection cuts its streams, the calls are
answered in order. -/
theorem responses_reach_their_calls (g : Rpc Args R D Msg M Req Resp)
    (s : ClientRun Args R D Msg × PipelineRun M Req Resp) (h : g.machine.Reach s)
    (fits : g.Fits s.1.calls s.2.calls) : g.InOrder s.1.calls s.2.calls s.1.state :=
  inOrder_reach h fits

end Rpc

/- The server of `byteClient`: one service with one method, that answers a byte with a byte. -/
def byteServer : RpcServer Unit UInt8 UInt8 where
  parseHeader
    | [id] => some ⟨MAGIC_NUM, VERSION, .request, Int64.ofNat id.toNat, some "Byte", some "byte"⟩
    | _ => none
  serializeHeader h := [UInt8.ofNat h.requestId.toNatClampNeg]
  name2service service :=
    if service = "Byte" then some fun method => if method = "byte" then some () else none else none
  parseRequest
    | _, [byte] => some byte
    | _, _ => none
  serializeResponse byte := [byte]

def byteRpc : Rpc UInt8 Unit Unit UInt8 Unit UInt8 UInt8 where
  channel := byteClient
  server := byteServer
  method _ := ()
  request call := call.request
  message byte := byte

theorem byteRpc_covers {id : Int64} (small : id = 0 ∨ id = 1) (byte : UInt8) :
    byteRpc.Covers (id, byteCall byte) := by
  have one : ((1 : Nat) : Int) < INT32_MAX := by decide
  rcases small with rfl | rfl
  · exact ⟨rfl, rfl, rfl, rfl, one, one, one⟩
  · exact ⟨rfl, rfl, rfl, rfl, one, one, one⟩

theorem byteRpc_accepts (entry : Int64 × MethodCall UInt8 Unit Unit) (byte : UInt8) :
    byteRpc.Accepts entry byte :=
  ⟨rfl, show ((1 : Nat) : Int) < INT32_MAX by decide⟩

namespace Rpc

/- Two calls. The first request comes to the server in two pieces, and its response is back before
the second request has been sent. -/
theorem responses_reach_their_calls_one_by_one :
    ∃ s, byteRpc.machine.run byteRpc.machine.start
        ([.inl (.call (fun _ => 0) (byteCall 5)), .inl (.call (fun _ => 0) (byteCall 6)),
          .inl (.sendAdd 12),
          .inr (.read [1, 0, 0, 0, 0, 1, 0]), .inr (.resume (fun _ => 0) 50),
          .inr (.resume (fun _ => 0) 50),
          .inr (.read [0, 0, 5, 1, 0]), .inr (.resume (fun _ => 0) 50),
          .inr (.resume (fun _ => 0) 50),
          .inr (.sendAdd 10), .inl (.read [1, 0, 0, 0, 0, 1, 0, 0, 0, 50])] ++
          List.replicate 4 (.inl (.resume fun _ => 0))) = some s ∧
      s.1.state.endings = [(0, .run () () 50)] ∧
      ∃ k, k ≤ s.2.calls.length ∧
        s.1.state.endings = List.zipWith byteRpc.ending (s.1.calls.take k) (s.2.calls.take k) := by
  obtain ⟨s, hs, endings, calls, served⟩ : ∃ s, byteRpc.machine.run byteRpc.machine.start
      ([.inl (.call (fun _ => 0) (byteCall 5)), .inl (.call (fun _ => 0) (byteCall 6)),
        .inl (.sendAdd 12), .inr (.read [1, 0, 0, 0, 0, 1, 0]), .inr (.resume (fun _ => 0) 50),
        .inr (.resume (fun _ => 0) 50), .inr (.read [0, 0, 5, 1, 0]),
        .inr (.resume (fun _ => 0) 50), .inr (.resume (fun _ => 0) 50), .inr (.sendAdd 10),
        .inl (.read [1, 0, 0, 0, 0, 1, 0, 0, 0, 50])] ++
        List.replicate 4 (.inl (.resume fun _ => 0))) = some s ∧
      s.1.state.endings = [(0, .run () () 50)] ∧ s.1.calls = [(0, byteCall 5), (1, byteCall 6)] ∧
      s.2.calls = [⟨ClientChannel.reqHeader 0 (byteCall 5), (), 5, 50⟩] := ⟨_, rfl, rfl, rfl, rfl⟩
  have fits : byteRpc.Fits s.1.calls s.2.calls := by
    constructor
    · rw [calls]
      decide
    · rw [calls]
      intro e he
      rcases List.mem_cons.mp he with rfl | he
      · exact byteRpc_covers (Or.inl rfl) 5
      · cases List.mem_singleton.mp he
        exact byteRpc_covers (Or.inr rfl) 6
    · exact fun e _ call _ _ => byteRpc_accepts e call.response
    · rw [calls]
      show Whole 0 ∧ Whole 5 ∧ Whole 10 ∧ Whole 15 ∧ True
      decide
    · rw [served]
      show Whole 0 ∧ Whole 5 ∧ True
      decide
  obtain ⟨_, k, bound, ended, _⟩ :=
    responses_reach_their_calls byteRpc s (Machine.reach_run .start hs) fits
  exact ⟨s, hs, endings, k, bound, ended⟩

end Rpc

end Xuanqiong
