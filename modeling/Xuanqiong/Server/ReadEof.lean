import Xuanqiong.Server.Teardown

/-! `recv_fn` once the peer has closed. It leaves its loop after finitely many steps just when the
bytes it has then make it leave; of a stream of requests that is cut off, when the complete ones
have been answered by then and the cut is before the payload of the last one. -/
namespace Xuanqiong

def ConnOp.ofRecvFn {X T : Type} : ConnOp X T → Bool
  | .read _ | .resumeWrite _ | .proceed | .await | .step _ => true
  | .spawn _ | .close | .startSend _ | .startRecv | .startCall _ | .event _ _ _ | .resumeRead =>
    false

section

variable {M Req Resp : Type} {srv : RpcServer M Req Resp}
  {s t : ConnRun (List (Call M Req Resp)) (RecvPoint M) Empty}
  {op : ConnOp ((Nat → UInt8) × Resp) Empty} {received : List UInt8}

/- What it has to do next, with reads that report EOF again, and with any results that the
`async_write` of a suspended `send_fn` can have. -/
def ConnRun.Due (srv : RpcServer M Req Resp)
    (s : ConnRun (List (Call M Req Resp)) (RecvPoint M) Empty) :
    ConnOp ((Nat → UInt8) × Resp) Empty → Prop
  | .read results => results = [.eof] ∧ ∃ p, s.ctl = .recv p ∧ RpcServer.waits s.conn p = true
  | .resumeWrite rounds => (s.afterResume srv.endpoint).isSome ∧
      (s.send.Suspended → (s.send.resume s.conn rounds).isSome)
  | .proceed => s.conn.closed = false ∧ ∃ p n, s.ctl = .reading p n
  | .await => ∃ p n, s.ctl = .awaiting p n
  | .step _ => ∃ p, s.ctl = .recv p ∧ RpcServer.waits s.conn p = false ∧ p ≠ .reply
  | .spawn _ | .close | .startSend _ | .startRecv | .startCall _ | .event _ _ _ | .resumeRead =>
    False

/-- After finitely many steps `recv_fn` has left its loop. -/
def Leaves (srv : RpcServer M Req Resp)
    (s : ConnRun (List (Call M Req Resp)) (RecvPoint M) Empty) : Prop :=
  (connMachine srv.endpoint).Halts ConnOp.ofRecvFn (ConnRun.Due srv) (fun t => t.recv = .finished) s

theorem dispatches_whole (move : ConnMove srv.endpoint s op t) (called : t.app ≠ s.app) :
    ∃ h m n, s.ctl = .recv (.request h m n) ∧ n ≤ s.conn.readBytes := by
  cases move with
  | @spawn request => exact request.elim
  | @startCall _ request => exact request.elim
  | close | startSend | startRecv | hangUp | writable | readable | resumeRead | resumeWrite | read
  | proceed
  | deleted | suspended | received => exact absurd rfl called
  | finish ctl waits run | go ctl waits run =>
    obtain ⟨⟨d, q, calls⟩, hr, hd⟩ := Option.map_eq_some_iff.mp run
    cases hd
    cases RpcServer.recvStep_turn hr with
    | leave | goOn => exact absurd (List.append_nil _) called
    | answer point =>
      subst point
      exact ⟨_, _, _, ctl, by simpa [RpcServer.endpoint, RpcServer.waits] using waits⟩

theorem ConnRun.Draining.due_step (h : s.Draining srv received) (due : s.Due srv op) :
    ∃ t, (connMachine srv.endpoint).step s op = some t := by
  cases op with
  | read results =>
    obtain ⟨_, p, ctl, waits⟩ := due
    cases waits.symm.trans (h.here ctl rfl).goes
  | resumeWrite rounds =>
    obtain ⟨next, site⟩ := Option.isSome_iff_exists.mp due.1
    obtain ⟨p, n, ctl, _⟩ := h.site site
    obtain ⟨r, run⟩ := Option.isSome_iff_exists.mp (due.2 (h.waking p n ctl))
    exact ⟨_, by simp only [connMachine, site, run, Option.bind_some]; rfl⟩
  | proceed => cases h.closed.symm.trans due.1
  | await =>
    obtain ⟨p, n, ctl⟩ := due
    exact ⟨s.await p n, by simp only [connMachine, ctl]⟩
  | step x =>
    obtain ⟨p, ctl, _, _⟩ := due
    have drains := h.here ctl rfl
    have running := h.ending.unregistered.alone.inLoop p (Or.inl (by rw [ctl]; rfl))
    obtain ⟨d, q, run⟩ :=
      recvStep_leaves drains.readInv drains.small drains.goes running drains.leaves x.1 x.2
    exact ⟨_, server_step ctl drains.goes drains.silent run⟩
  | _ => exact due.elim

theorem ConnRun.Draining.due [Inhabited Resp] (h : s.Draining srv received) :
    s.recv = .finished ∨ ∃ op, s.Due srv op := by
  have closing := h.ending.closing h.closed
  cases ctl : s.ctl with
  | idle =>
    rw [ctl] at closing
    exact Or.inl closing.1
  | reading p n =>
    obtain ⟨rounds, run⟩ := resume_ends (h.waking p n ctl) h.closed
    refine Or.inr ⟨.resumeWrite rounds, ?_, fun _ => by simp [run]⟩
    simp [ConnRun.afterResume, ctl, h.closed]
  | awaiting p n => exact Or.inr ⟨.await, p, n, ctl⟩
  | recv p =>
    have drains := h.here ctl rfl
    exact Or.inr ⟨.step (fun _ => 0, default), p, ctl, drains.goes, drains.silent⟩
  | writable | readable =>
    rw [ctl] at closing
    exact closing.elim
  | call request => exact request.elim

theorem draining_leaves [Inhabited Resp] (h : s.Draining srv received) : Leaves srv s := by
  refine Machine.halts_of_measure (I := fun s => s.Draining srv received) ConnRun.left ?_ ?_ ?_ h
  · exact fun s op t hs step => (draining_step hs (conn_move step)).1
  · intro s op t hs step
    have less := (draining_step hs (conn_move step)).2.1
    split <;> omega
  · intro s hs
    rcases hs.due with finished | due
    · exact Or.inl finished
    · exact Or.inr ⟨due, fun op => hs.due_step⟩

/- A closed connection with bytes with which `recv_fn` does not leave its loop. It has come to the
end of what `recv_fn` can do when it reads again. -/
structure ConnRun.Stays (srv : RpcServer M Req Resp) (received : List UInt8)
    (s : ConnRun (List (Call M Req Resp)) (RecvPoint M) Empty) : Prop where
  alone : s.Alone srv
  closed : s.conn.closed = true
  send : s.send = .finished
  busy : s.ctl.point ≠ none
  input : ∀ p, (s.ctl = .recv p ∨ ∃ n, s.ctl = .awaiting p n) →
    InputEnded received (s.ctl.settle s.conn) p ∧
    ¬ srv.LeavesWith (s.ctl.settle s.conn).readBuf.unread p

theorem ConnRun.Stays.here (h : s.Stays srv received) {p : RecvPoint M} (ctl : s.ctl = .recv p) :
    InputEnded received s.conn p ∧ ¬ srv.LeavesWith s.conn.readBuf.unread p := by
  have input := h.input p (Or.inl ctl)
  rw [ctl] at input
  exact input

theorem stays_step (h : s.Stays srv received) (move : ConnMove srv.endpoint s op t) :
    t.Stays srv received := by
  have alone := alone_step h.alone move
  have busy := h.busy
  cases move with
  | @spawn request => exact request.elim
  | close owned => cases owned
  | startSend ctl | startRecv ctl | hangUp ctl | writable ctl | readable ctl | resumeRead ctl =>
    rw [ctl] at busy
    exact absurd rfl busy
  | @startCall _ request => exact request.elim
  | resumeWrite site run =>
    rw [h.send] at run
    cases run
  | read ctl waits run =>
    refine ⟨alone, ?_, h.send, by simp [Ctl.point], by simp⟩
    obtain ⟨r, _, hd⟩ := Option.map_eq_some_iff.mp run
    cases hd
    simp [h.closed]
  | proceed ctl opened | suspended ctl opened | received ctl opened =>
    cases opened.symm.trans h.closed
  | deleted ctl =>
    have input := h.input _ (Or.inr ⟨_, ctl⟩)
    rw [ctl] at input
    refine ⟨alone, h.closed, h.send, by simp [Ctl.point], ?_⟩
    rintro p (hp | ⟨n, hp⟩)
    · cases hp
      exact input
    · cases hp
  | @finish x p a c q ctl waits run finished silent =>
    obtain ⟨⟨d, after, calls⟩, hr, hd⟩ := Option.map_eq_some_iff.mp run
    cases hd
    obtain ⟨ended, stays⟩ := h.here ctl
    obtain ⟨_, leaves, _⟩ := ended.next waits (by rintro rfl; cases silent) hr
    cases q with
    | done => exact absurd (leaves.mp trivial) stays
    | headerLen | header | requestLen | request | reply => cases finished
  | go ctl waits run finished silent =>
    obtain ⟨⟨d, q, calls⟩, hr, hd⟩ := Option.map_eq_some_iff.mp run
    cases hd
    obtain ⟨ended, stays⟩ := h.here ctl
    obtain ⟨ended', leaves, _⟩ := ended.next waits (by rintro rfl; cases silent) hr
    refine ⟨alone, ended'.closed, h.send, by simp [Ctl.point], ?_⟩
    rintro p (hp | ⟨n, hp⟩)
    · cases hp
      exact ⟨ended', fun still => stays (leaves.mp still)⟩
    · cases hp

theorem ConnRun.Stays.running (h : s.Stays srv received) : s.recv ≠ .finished := by
  have busy := h.busy
  have fits := h.alone.placed.fits
  intro finished
  cases ctl : s.ctl with
  | recv | reading | awaiting =>
    rw [ctl] at fits
    cases fits.symm.trans finished
  | idle | writable | readable | call => simp [ctl, Ctl.point] at busy

theorem stays_not_leaves (h : s.Stays srv received) : ¬ Leaves srv s := by
  intro leaves
  obtain ⟨ops, t, run, finished⟩ := leaves.reaches (by
    intro s op due
    cases op with
    | read | resumeWrite | proceed | await | step => rfl
    | _ => exact due.elim)
  have stays := Machine.run_invariant (fun s op t hs step => stays_step hs (conn_move step)) h run
  exact stays.running finished

section

variable {p : RecvPoint M} (here : s.ctl = .recv p ∨ ∃ n, s.ctl = .awaiting p n)

include here

theorem point_here : s.ctl.point = some p := by
  rcases here with ctl | ⟨n, ctl⟩ <;>
  · rw [ctl]
    rfl

theorem running_here (placed : s.Placed srv.endpoint) : s.recv = .running := by
  have fits := placed.fits
  rcases here with ctl | ⟨n, ctl⟩ <;>
  · rw [ctl] at fits
    exact fits

/-- On a closed connection the bytes say whether `recv_fn` leaves its loop. -/
theorem leaves_iff [Inhabited Resp] (alone : s.Alone srv)
    (ended : InputEnded received (s.ctl.settle s.conn) p) :
    Leaves srv s ↔ srv.LeavesWith (s.ctl.settle s.conn).readBuf.unread p := by
  have closed : s.conn.closed = true := by
    rw [← settle_closed s.ctl]
    exact ended.closed
  have point := point_here here
  have running := running_here here alone.placed
  constructor
  · intro leaves
    by_contra stays
    have there : s.Stays srv received := by
      refine ⟨alone, closed, alone.sent closed p here, by simp [point], fun q hq => ?_⟩
      cases point.symm.trans (point_here hq)
      exact ⟨ended, stays⟩
    exact stays_not_leaves there leaves
  · intro leaves
    have drains : s.Draining srv received := by
      refine ⟨⟨⟨alone, ?_⟩, fun _ => ?_⟩, closed, ?_, fun q hq => ?_⟩
      · intro finished
        cases running.symm.trans finished
      · rcases here with ctl | ⟨n, ctl⟩ <;>
        · rw [ctl]
          trivial
      · intro q n ctl
        rcases here with hc | ⟨m, hc⟩ <;> cases ctl.symm.trans hc
      · cases point.symm.trans hq
        exact ⟨ended, leaves⟩
    exact draining_leaves drains

end

end

section

variable {M Req Resp : Type} {srv : RpcServer M Req Resp}

/-- Complete requests, and of one more only a part. -/
structure CutStream (srv : RpcServer M Req Resp) where
  frames : List (RequestFrame srv)
  last : RequestFrame srv
  part : List UInt8
  front : part <+: last.bytes
  short : part.length < last.bytes.length

namespace CutStream

def all (cut : CutStream srv) : List (RequestFrame srv) := cut.frames ++ [cut.last]

def bytes (cut : CutStream srv) : List UInt8 := stream cut.frames .nothing ++ cut.part

def BeforeRequest (cut : CutStream srv) : Prop := cut.part.length < 8 + cut.last.headerBytes.length

end CutStream

theorem stream_concat (frames : List (RequestFrame srv)) (f : RequestFrame srv) :
    stream (frames ++ [f]) .nothing = stream frames .nothing ++ f.bytes := by
  induction frames with
  | nil => simp [stream, Tail.bytes]
  | cons g rest ih => rw [List.cons_append, stream, ih, stream, List.append_assoc]

theorem RequestFrame.length_bytes (f : RequestFrame srv) :
    f.bytes.length = 8 + f.headerBytes.length + f.requestBytes.length := by
  rw [bytes, List.length_append, length_message, length_message]
  omega

variable {cut : CutStream srv} {handled rest : List (RequestFrame srv)} {r : PipelineRun M Req Resp}

theorem CutStream.bytes_front (cut : CutStream srv) : cut.bytes <+: stream cut.all .nothing := by
  rw [all, stream_concat]
  exact List.prefix_append_right_inj _ |>.mpr cut.front

theorem CutStream.bytes_length (cut : CutStream srv) :
    cut.bytes.length + cut.last.bytes.length =
      (stream cut.all .nothing).length + cut.part.length := by
  rw [all, stream_concat, bytes, List.length_append, List.length_append]
  omega

theorem PipelineRun.Handled.last_ahead (h : r.Handled cut.all .nothing handled rest)
    (within : r.received <+: cut.bytes) :
    ∃ before, rest = before ++ [cut.last] ∧ cut.frames = handled ++ before := by
  have ahead : 0 < ((stream cut.all .nothing).drop r.conn.readBuf.consumedBytes).length := by
    have counted := h.ready.readInv.counted
    have total := cut.bytes_length
    have short := cut.short
    have le := within.length_le
    rw [List.length_drop]
    omega
  have some : rest ≠ [] := by
    rintro rfl
    have expects := h.ready.expects
    generalize (stream cut.all .nothing).drop r.conn.readBuf.consumedBytes = left at expects ahead
    generalize r.point = p at expects
    cases expects with
    | headerLen _ bytes | reply _ bytes => simp [bytes, stream, Tail.bytes] at ahead
    | refused tail | unknown tail | done tail => exact absurd rfl tail
  obtain ⟨before, f, rfl⟩ := (List.eq_nil_or_concat' rest).resolve_left some
  have split := h.cut
  rw [CutStream.all, ← List.append_assoc] at split
  obtain ⟨frames, last⟩ := List.append_inj' split rfl
  cases List.cons.inj last |>.1
  exact ⟨before, rfl, frames⟩

theorem PipelineRun.Handled.calls_within (h : r.Handled cut.all .nothing handled rest)
    (within : r.received <+: cut.bytes) :
    r.calls.map Call.asked <+: cut.frames.map RequestFrame.asked := by
  obtain ⟨before, _, frames⟩ := h.last_ahead within
  rw [h.calls, frames, List.map_append]
  exact List.prefix_append _ _

theorem last_or_later {f last : RequestFrame srv} {rest before : List (RequestFrame srv)}
    (h : f :: rest = before ++ [last]) : (before = [] ∧ f = last ∧ rest = []) ∨
      before ≠ [] ∧ last.bytes.length ≤ (stream rest .nothing).length := by
  cases before with
  | nil =>
    simp only [List.nil_append, List.cons.injEq] at h
    exact Or.inl ⟨rfl, h⟩
  | cons g before =>
    simp only [List.cons_append, List.cons.injEq] at h
    refine Or.inr ⟨by simp, ?_⟩
    rw [h.2, stream_concat, List.length_append]
    omega

theorem front_cut {bs a b : List UInt8} (front : bs <+: a ++ b) (enough : a.length ≤ bs.length) :
    bs.take a.length = a ∧ bs.drop a.length <+: b := by
  have first : a <+: bs := List.prefix_of_prefix_length_le (List.prefix_append a b) front enough
  obtain ⟨rest, rfl⟩ := first
  rw [List.take_left, List.drop_left]
  exact ⟨rfl, (List.prefix_append_right_inj a).mp front⟩

theorem word_cut {bs bytes after : List UInt8} (front : bs <+: message bytes ++ after)
    (short : (bytes.length : Int) < INT32_MAX) (enough : 4 ≤ bs.length) :
    fromLe (bs.take 4) = bytes.length ∧ bs.drop 4 <+: bytes ++ after := by
  have max : INT32_MAX = 2147483647 := rfl
  have four : (le32 bytes.length).length = 4 := rfl
  rw [message, List.append_assoc] at front
  obtain ⟨first, rest⟩ := front_cut front (four.symm ▸ enough)
  rw [four] at first rest
  rw [first, fromLe_le32 bytes.length (by omega)]
  exact ⟨rfl, rest⟩

variable (f : RequestFrame srv) {bs after : List UInt8}

theorem request_stays (front : bs <+: f.requestBytes ++ after) :
    ¬ srv.LeavesInRequest f.method f.requestBytes.length bs := by
  rintro ⟨enough, refused⟩
  rw [(front_cut front enough).1, f.request_parses] at refused
  cases refused

theorem requestLen_leaves (front : bs <+: message f.requestBytes ++ after) :
    srv.LeavesInRequestLen f.header bs ↔ bs.length < 4 := by
  refine or_iff_left_iff_imp.mpr fun leaves => ?_
  by_contra enough
  obtain ⟨value, rest⟩ := word_cut front f.request_short (Nat.le_of_not_lt enough)
  have refused := leaves f.method f.registered
  rw [value] at refused
  exact request_stays f rest refused

theorem header_leaves (front : bs <+: f.headerBytes ++ (message f.requestBytes ++ after)) :
    srv.LeavesInHeader f.headerBytes.length bs ↔ bs.length < f.headerBytes.length + 4 := by
  by_cases short : bs.length < f.headerBytes.length
  · exact iff_of_true (Or.inl short) (by omega)
  · obtain ⟨first, rest⟩ := front_cut front (Nat.le_of_not_lt short)
    have inner := requestLen_leaves f rest
    rw [List.length_drop] at inner
    constructor
    · rintro (few | leaves)
      · omega
      · have few :=
          inner.mp (leaves f.header (by rw [first]; exact f.header_parses) f.magic f.version)
        omega
    · intro few
      refine Or.inr fun h parses _ _ => ?_
      rw [first, f.header_parses] at parses
      cases parses
      exact inner.mpr (by omega)

theorem headerLen_leaves (front : bs <+: f.bytes ++ after) :
    srv.LeavesWith bs .headerLen ↔ bs.length < 8 + f.headerBytes.length := by
  by_cases short : bs.length < 4
  · exact iff_of_true (Or.inl short) (by omega)
  · rw [RequestFrame.bytes, List.append_assoc] at front
    obtain ⟨value, rest⟩ := word_cut front f.header_short (Nat.le_of_not_lt short)
    have inner := header_leaves f rest
    rw [List.length_drop, ← value] at inner
    rw [RpcServer.LeavesWith, or_iff_right short, inner]
    omega

/-- At a point of a stream `recv_fn` is `k` bytes into a frame, and leaves its loop with bytes that
end before the payload of that frame. -/
theorem Expects.inside {p : RecvPoint M} {o : Nat} {left : List UInt8}
    {rest : List (RequestFrame srv)} (h : Expects (.nothing : Tail srv) p rest o left)
    (some : rest ≠ []) (silent : p ≠ .reply) :
    ∃ f later k, rest = f :: later ∧
      left.length + k = f.bytes.length + (stream later .nothing).length ∧
      ∀ bs, bs <+: left → PrefixesWhole o bs p ∧
        (srv.LeavesWith bs p ↔ k + bs.length < 8 + f.headerBytes.length) := by
  cases h with
  | headerLen unbroken bytes =>
    obtain ⟨f, later, rfl⟩ := List.exists_cons_of_ne_nil some
    obtain ⟨first, second, _⟩ := unbroken
    refine ⟨f, later, 0, rfl, by rw [bytes, stream, List.length_append, Nat.add_zero],
      fun bs front => ?_⟩
    rw [bytes, stream] at front
    refine ⟨fun enough => ⟨first, fun _ => ?_⟩, by rw [headerLen_leaves f front, Nat.zero_add]⟩
    rw [RequestFrame.bytes, List.append_assoc] at front
    rw [(word_cut front f.header_short enough).1]
    exact second
  | reply => exact absurd rfl silent
  | @header f later _ n _ len whole _ bytes =>
    subst len
    refine ⟨f, later, 4, rfl, ?_, fun bs front => ⟨fun _ => whole, ?_⟩⟩
    · rw [bytes, f.length_bytes, List.length_append, List.length_append, length_message]
      omega
    · rw [RpcServer.LeavesWith, header_leaves f (bytes ▸ front)]
      omega
  | @requestLen f later _ _ whole _ bytes =>
    refine ⟨f, later, 4 + f.headerBytes.length, rfl, ?_, fun bs front => ⟨fun _ => whole, ?_⟩⟩
    · rw [bytes, f.length_bytes, List.length_append, length_message]
      omega
    · rw [RpcServer.LeavesWith, requestLen_leaves f (bytes ▸ front)]
      omega
  | @request f later _ n _ len _ bytes =>
    subst len
    refine ⟨f, later, 8 + f.headerBytes.length, rfl, ?_, fun bs front => ⟨trivial, ?_⟩⟩
    · rw [bytes, f.length_bytes, List.length_append]
      omega
    · exact iff_of_false (request_stays f (bytes ▸ front)) (by omega)
  | refused tail | unknown tail | done tail => exact absurd rfl tail

theorem PipelineRun.Handled.leaves_iff (h : r.Handled cut.all .nothing handled rest)
    (all : r.received = cut.bytes) (silent : r.point ≠ .reply) :
    PrefixesWhole r.conn.readBuf.consumedBytes r.conn.readBuf.unread r.point ∧
      (srv.LeavesWith r.conn.readBuf.unread r.point ↔
        r.calls.map Call.asked = cut.frames.map RequestFrame.asked ∧ cut.BeforeRequest) := by
  obtain ⟨before, hrest, frames⟩ := h.last_ahead (all ▸ List.prefix_rfl)
  have available : r.conn.readBuf.unread.length + cut.last.bytes.length =
      ((stream cut.all .nothing).drop r.conn.readBuf.consumedBytes).length + cut.part.length := by
    have counted := h.ready.readInv.counted
    have total := cut.bytes_length
    have le := cut.bytes_front.length_le
    rw [all] at counted
    rw [h.ready.readInv.unread_length, List.length_drop]
    omega
  have feeds := h.feeds (all ▸ cut.bytes_front)
  obtain ⟨f, later, k, split, layout, inside⟩ := h.ready.expects.inside (by rw [hrest]; simp) silent
  obtain ⟨whole, leaves⟩ := inside _ feeds
  refine ⟨whole, leaves.trans ?_⟩
  unfold CutStream.BeforeRequest
  rcases last_or_later (split.symm.trans hrest) with ⟨rfl, rfl, rfl⟩ | ⟨some, more⟩
  · simp only [stream, Tail.bytes, List.length_nil] at layout
    have answered : r.calls.map Call.asked = cut.frames.map RequestFrame.asked := by
      rw [h.calls, frames, List.append_nil]
    rw [and_iff_right answered]
    omega
  · have size := f.length_bytes
    refine iff_of_false (by omega) fun both => some ?_
    have lengths := congrArg List.length both.1
    rw [h.calls, frames, List.length_map, List.length_map, List.length_append] at lengths
    exact List.length_eq_zero_iff.mp (by omega)

end

section

variable {M Req Resp : Type} {srv : RpcServer M Req Resp} {c c' d : Connection} {p q : RecvPoint M}
  {memory : Nat → UInt8} {response : Resp} {calls : List (Call M Req Resp)}

theorem fetchUint32_input {v : Option Nat} (same : c'.readBuf = c.readBuf)
    (run : c.fetchUint32 memory = some (v, d)) :
    c'.fetchUint32 memory = some (v, { c' with readBuf := d.readBuf }) := by
  obtain ⟨r, hr, hd⟩ := Option.map_eq_some_iff.mp run
  cases hd
  simp only [Connection.fetchUint32, same, hr, Option.map_some]

theorem pull_input {n : Nat} {bytes : List UInt8} (same : c'.readBuf = c.readBuf)
    (run : c.pull n = some (bytes, d)) :
    c'.pull n = some (bytes, { c' with readBuf := d.readBuf }) := by
  obtain ⟨r, hr, hd⟩ := Option.map_eq_some_iff.mp run
  cases hd
  have read : c'.readBytes = c.readBytes := by rw [Connection.readBytes, same]; rfl
  simp only [Connection.pull, same, read, hr, Option.map_some]

/- A step that goes on depends on the input alone. -/
theorem recvStep_input (same : c'.readBuf = c.readBuf) (opened : c'.closed = false)
    (output : c'.writeBuf.Inv) (enough : ¬ c.readBytes < p.needs)
    (goes : RpcServer.finished q = false)
    (run : srv.recvStep memory response c p = some (d, q, calls)) :
    ∃ d', srv.recvStep memory response c' p = some (d', q, calls) ∧ d'.readBuf = d.readBuf ∧
      d'.closed = false ∧ d'.writeBuf.Inv := by
  cases p with
  | headerLen =>
    simp only [RecvPoint.needs] at enough
    simp only [RpcServer.recvStep, enough, and_false, if_false] at run
    obtain ⟨⟨v, b⟩, hv, run⟩ := Option.map_eq_some_iff.mp run
    cases v with
    | none =>
      cases run
      cases goes
    | some n =>
      cases run
      exact ⟨_, recvStep_headerLen opened (fetchUint32_input same hv), rfl, opened, output⟩
  | header n =>
    simp only [RecvPoint.needs] at enough
    simp only [RpcServer.recvStep, enough, and_false, if_false] at run
    obtain ⟨⟨bytes, b⟩, hb, run⟩ := Option.map_eq_some_iff.mp run
    have pulled := pull_input same hb
    simp only at run
    split at run
    · cases run
      cases goes
    · rename_i h parses
      by_cases invalid : h.magic ≠ MAGIC_NUM ∨ h.version ≠ VERSION
      · rw [checkHeader_invalid invalid] at run
        cases run
        cases goes
      · obtain ⟨magic, version⟩ := not_or.mp invalid
        have magic := not_ne_iff.mp magic
        have version := not_ne_iff.mp version
        rw [checkHeader_valid magic version] at run
        cases run
        refine ⟨({ c' with readBuf := b.readBuf } : Connection).popLimit, ?_, rfl, opened, output⟩
        rw [recvStep_header opened pulled parses, checkHeader_valid magic version]
  | requestLen h =>
    simp only [RecvPoint.needs] at enough
    simp only [RpcServer.recvStep, enough, and_false, if_false] at run
    obtain ⟨⟨v, b⟩, hv, run⟩ := Option.map_eq_some_iff.mp run
    cases v with
    | none =>
      cases run
      cases goes
    | some n =>
      simp only at run
      cases found : srv.lookup h with
      | none =>
        rw [findMethod_missing found] at run
        cases run
        cases goes
      | some m =>
        rw [findMethod_registered found] at run
        cases run
        refine ⟨{ c' with readBuf := d.readBuf }, ?_, rfl, opened, output⟩
        rw [recvStep_requestLen opened (fetchUint32_input same hv), findMethod_registered found]
  | request h m n =>
    simp only [RecvPoint.needs] at enough
    simp only [RpcServer.recvStep, enough, and_false, if_false] at run
    obtain ⟨⟨bytes, b⟩, hb, run⟩ := Option.bind_eq_some_iff.mp run
    have pulled := pull_input same hb
    simp only at run
    split at run
    · cases run
      cases goes
    · rename_i r parses
      obtain ⟨rfl, rfl, input⟩ := sendResponse_input run
      obtain ⟨e, sent, out, _⟩ := sendResponse_spec srv
        (d := { c' with readBuf := b.readBuf.popLimit }) output memory ⟨h, m, r, response⟩
      exact ⟨_, (recvStep_request opened pulled parses).trans sent, input.symm, opened, out⟩
  | reply =>
    cases run
    exact ⟨c', rfl, same, opened, output⟩
  | done => cases run

/- `recv_fn` after the `resume_write` that it is about to make. -/
def RecvPoint.past : RecvPoint M → RecvPoint M
  | .reply => .headerLen
  | p => p

theorem RecvPoint.past_eq (silent : p ≠ .reply) : p.past = p := by
  cases p with
  | reply => exact absurd rfl silent
  | headerLen | header | requestLen | request | done => rfl

variable {s t : ConnRun (List (Call M Req Resp)) (RecvPoint M) Empty}
  {op : ConnOp ((Nat → UInt8) × Resp) Empty} {received : List UInt8} {r : PipelineRun M Req Resp}

/-- Until it ends, `recv_fn` does on its connection what it would do on one that stays open and
whose output is sound: `r` is that one. -/
structure Feeds (s : ConnRun (List (Call M Req Resp)) (RecvPoint M) Empty) (received : List UInt8)
    (r : PipelineRun M Req Resp) : Prop where
  received : r.received = received
  calls : r.calls = s.app
  input : s.recv ≠ .finished → r.conn.readBuf = (s.ctl.settle s.conn).readBuf
  sound : s.recv ≠ .finished → r.conn.closed = false ∧ r.conn.writeBuf.Inv
  created : s.recv = .created → r.point = .headerLen
  point : ∀ p, s.ctl.point = some p ∨ s.recv = .suspended p → r.point = p.past

theorem Feeds.stays (h : Feeds s received r) (app : t.app = s.app)
    (alive : t.recv ≠ .finished → s.recv ≠ .finished)
    (input : (t.ctl.settle t.conn).readBuf = (s.ctl.settle s.conn).readBuf)
    (created : t.recv = .created → s.recv = .created)
    (point : ∀ p, t.ctl.point = some p ∨ t.recv = .suspended p → r.point = p.past) :
    ∃ ops r', (pipelineMachine srv).run r ops = some r' ∧ Feeds t (received ++ []) r' := by
  refine ⟨[], r, rfl, ?_, ?_, ?_, ?_, ?_, point⟩
  · rw [h.received, List.append_nil]
  · rw [h.calls, app]
  · intro running
    rw [input]
    exact h.input (alive running)
  · exact fun running => h.sound (alive running)
  · exact fun fresh => h.created (created fresh)

theorem waits_short (waits : RpcServer.waits c p = true) : c.readBytes < p.needs ∧ p ≠ .reply := by
  cases p with
  | headerLen | header | requestLen =>
    simp only [RpcServer.waits, Bool.and_eq_true, decide_eq_true_eq] at waits
    exact ⟨waits.1, by simp⟩
  | request => exact ⟨of_decide_eq_true waits, by simp⟩
  | reply | done => cases waits

theorem feeds_read (h : Feeds s received r) (running : s.recv = .running)
    {results : List ReadResult} (ctl : s.ctl = .recv p) (waits : RpcServer.waits s.conn p = true)
    (fits : ((fetched results).length : Int) ≤ s.conn.readBuf.getBuffer.size)
    (settled : (t.ctl.settle t.conn).readBuf = s.conn.readBuf.receive (fetched results))
    (app : t.app = s.app) (recv : t.recv = .running) (point : t.ctl.point = some p) :
    ∃ ops r', (pipelineMachine srv).run r ops = some r' ∧
    Feeds t (received ++ fetched results) r' := by
  have alive : s.recv ≠ .finished := by simp [running]
  obtain ⟨opened, output⟩ := h.sound alive
  have input : r.conn.readBuf = s.conn.readBuf := by
    have same := h.input alive
    rw [ctl] at same
    exact same
  obtain ⟨short, silent⟩ := waits_short waits
  have here : r.point = p :=
    (h.point p (Or.inl (by rw [ctl]; rfl))).trans (RecvPoint.past_eq silent)
  have waits' : RpcServer.waits r.conn r.point = true := by
    rw [here]
    refine (waits_open opened).mpr ?_
    rw [Connection.readBytes, input]
    exact short
  refine ⟨[.read (fetched results)], { r with
    conn := { r.conn with readBuf := r.conn.readBuf.receive (fetched results) }
    received := r.received ++ fetched results }, ?_, ?_, ?_, ?_, ?_, ?_, ?_⟩
  · have room : ((fetched results).length : Int) ≤ r.conn.readBuf.getBuffer.size := input ▸ fits
    simp [Machine.run, pipelineMachine, waits', room]
  · rw [h.received]
  · rw [h.calls, app]
  · intro _
    rw [settled, input]
  · exact fun _ => ⟨opened, output⟩
  · intro created
    cases recv.symm.trans created
  · rintro q (hq | hq)
    · cases point.symm.trans hq
      exact here.trans (RecvPoint.past_eq silent).symm
    · cases recv.symm.trans hq

theorem feeds_go (h : Feeds s received r) (running : s.recv = .running) (ctl : s.ctl = .recv p)
    (waits : RpcServer.waits s.conn p = false) (silent : p ≠ .reply)
    (goes : RpcServer.finished q = false)
    (run : srv.recvStep memory response s.conn p = some (d, q, calls)) :
    ∃ ops r', (pipelineMachine srv).run r ops = some r' ∧
      Feeds { s with app := s.app ++ calls, conn := d, ctl := .recv q } (received ++ []) r' := by
  have alive : s.recv ≠ .finished := by simp [running]
  obtain ⟨opened, output⟩ := h.sound alive
  have input : r.conn.readBuf = s.conn.readBuf := by
    have same := h.input alive
    rw [ctl] at same
    exact same
  have here : r.point = p :=
    (h.point p (Or.inl (by rw [ctl]; rfl))).trans (RecvPoint.past_eq silent)
  have enough : ¬ s.conn.readBytes < p.needs := by
    intro short
    cases closed : s.conn.closed with
    | false =>
      cases ((waits_open closed).mpr short).symm.trans waits
    | true =>
      cases (recvStep_cut_short closed (waits_reopen.mpr short)).symm.trans run
      cases goes
  obtain ⟨d', run', same, opened', output'⟩ := recvStep_input input opened output enough goes run
  have ready : RpcServer.waits r.conn p = false := by
    refine Bool.eq_false_iff.mpr fun short => enough ?_
    have few := (waits_open opened).mp short
    rw [Connection.readBytes, input] at few
    exact few
  have step : (pipelineMachine srv).step r (.resume memory response) =
      some { r with conn := d', point := q, calls := r.calls ++ calls } := by
    simp [pipelineMachine, here, ready, run']
  have feeds : ∀ r' : PipelineRun M Req Resp, r'.received = r.received →
      r'.calls = r.calls ++ calls →
      r'.conn = d' → r'.point = q.past →
      Feeds { s with app := s.app ++ calls, conn := d, ctl := .recv q } (received ++ []) r' := by
    intro r' hreceived hcalls hconn hpoint
    refine ⟨?_, ?_, ?_, ?_, ?_, ?_⟩
    · rw [hreceived, h.received, List.append_nil]
    · rw [hcalls, h.calls]
    · intro _
      rw [hconn, same]
      rfl
    · exact fun _ => hconn ▸ ⟨opened', output'⟩
    · intro created
      cases running.symm.trans created
    · rintro q' (hq | hq)
      · cases hq
        exact hpoint
      · cases running.symm.trans hq
  by_cases replies : q = .reply
  · -- the reply is behind it at once: the `resume_write` is not a step of the open connection
    subst replies
    refine ⟨[.resume memory response, .resume memory response],
      { r with
        conn := d', point := .headerLen, calls := r.calls ++ calls }, ?_, feeds _ rfl rfl rfl rfl⟩
    simp only [Machine.run, step, Option.bind_some]
    simp [pipelineMachine, RpcServer.waits, RpcServer.recvStep]
  · exact ⟨[.resume memory response], { r with conn := d', point := q, calls := r.calls ++ calls },
      by simp only [Machine.run, step, Option.bind_some],
      feeds _ rfl rfl rfl (RecvPoint.past_eq replies).symm⟩

theorem feeds_step (placed : s.Placed srv.endpoint) (roomy : s.Roomy) (h : Feeds s received r)
    (move : ConnMove srv.endpoint s op t) :
    ∃ ops r', (pipelineMachine srv).run r ops = some r' ∧ Feeds t (received ++ op.input) r' := by
  have fits := placed.fits
  cases move with
  | @spawn request => exact request.elim
  | close owned => cases owned
  | startSend ctl queue run =>
    exact h.stays rfl id (settle_readBuf _ (sendLoop_readBuf run)) id h.point
  | startRecv ctl queue =>
    have fresh := (placed.recv_of_queue queue).2.1
    refine h.stays rfl (by simp [fresh]) (by rw [ctl]; rfl) (by simp) ?_
    rintro p (hp | hp)
    · cases hp
      exact h.created fresh
    · cases hp
  | @startCall _ request => exact request.elim
  | hangUp ctl => exact h.stays rfl id (by rw [ctl]; rfl) id h.point
  | writable ctl | readable ctl =>
    refine h.stays rfl id (by rw [ctl]; rfl) id ?_
    rintro p (hp | hp)
    · cases hp
    · exact h.point p (Or.inr hp)
  | resumeRead ctl recv =>
    refine h.stays rfl (by simp [recv]) (by rw [ctl]; rfl) (by simp) ?_
    rintro p (hp | hp)
    · cases hp
      exact h.point _ (Or.inr recv)
    · cases hp
  | resumeWrite site run =>
    obtain ⟨settled, moved⟩ := afterResume_cases site
    refine h.stays rfl id ?_ id ?_
    · rw [settled]
      exact settle_readBuf _ (resume_readBuf run)
    · rintro p (hp | hp)
      · rcases moved with stays | ⟨p', q', ctl, replies, rfl⟩
        · exact h.point p (Or.inl (stays p hp))
        · cases hp
          cases p' with
          | reply =>
            cases replies
            exact h.point .reply (Or.inl (by rw [ctl]; rfl))
          | headerLen | header | requestLen | request | done => cases replies
      · exact h.point p (Or.inr hp)
  | read ctl waits run =>
    obtain ⟨ends, _, _, _, _, _, rfl, rfl, room⟩ := Connection.readAll_cases roomy.room run
    rw [ctl] at fits
    exact feeds_read h fits ctl waits room rfl rfl fits rfl
  | proceed ctl | deleted ctl | received ctl =>
    refine h.stays rfl id (by rw [ctl]; rfl) id ?_
    rintro p (hp | hp)
    · cases hp
      exact h.point _ (Or.inl (by rw [ctl]; rfl))
    · exact h.point p (Or.inr hp)
  | suspended ctl opened =>
    rw [ctl] at fits
    have running : s.recv = .running := fits
    refine h.stays rfl (by simp [running]) (by rw [ctl]; rfl) (by simp) ?_
    rintro p (hp | hp)
    · cases hp
    · cases hp
      exact h.point _ (Or.inl (by rw [ctl]; rfl))
  | @finish x p a c q ctl waits run finished silent =>
    obtain ⟨⟨d, after, calls⟩, hr, hd⟩ := Option.map_eq_some_iff.mp run
    cases hd
    have none : calls = [] := by
      cases RpcServer.recvStep_turn hr with
      | leave | goOn => rfl
      | answer point took answered =>
        obtain ⟨rfl, _⟩ := RpcServer.sendResponse_cases answered
        cases finished
    subst none
    refine ⟨[], r, rfl, ?_, ?_, by simp, by simp, by simp, ?_⟩
    · rw [h.received]
      exact (List.append_nil _).symm
    · rw [h.calls, List.append_nil]
    · rintro p (hp | hp) <;> cases hp
  | @go x p a c q ctl waits run finished silent =>
    obtain ⟨⟨d, after, calls⟩, hr, hd⟩ := Option.map_eq_some_iff.mp run
    cases hd
    rw [ctl] at fits
    exact feeds_go h fits ctl waits (by rintro rfl; cases silent) finished hr

theorem feeds_reach {x : ConnRun (List (Call M Req Resp)) (RecvPoint M) Empty × List UInt8}
    (h : (receivingMachine srv).Reach x) :
    x.1.Alone srv ∧ x.1.Roomy ∧ ∃ r, (pipelineMachine srv).Reach r ∧ Feeds x.1 x.2 r := by
  refine h.invariant (I := fun x => x.1.Alone srv ∧ x.1.Roomy ∧
    ∃ r, (pipelineMachine srv).Reach r ∧ Feeds x.1 x.2 r) ?_ ?_
  · refine ⟨alone_reach .start, roomy_reach srv.leavesRoom .start, _, .start, rfl, rfl,
      fun _ => rfl, fun _ => ⟨rfl, OutputBuffer.init_inv⟩, fun _ => rfl, ?_⟩
    rintro p (hp | hp) <;> cases hp
  · rintro x op y ⟨alone, roomy, r, reached, feeds⟩ hs
    obtain ⟨t, step, rfl⟩ := Option.map_eq_some_iff.mp hs
    have move := conn_move step
    obtain ⟨ops, r', run, feeds'⟩ := feeds_step alone.placed roomy feeds move
    exact ⟨alone_step alone move, roomy_step srv.leavesRoom roomy move, r',
      Machine.reach_run reached run, feeds'⟩

variable {cut : CutStream srv}

theorem cut_calls_within (unbroken : Unbroken 0 cut.all .nothing)
    (h : (receivingMachine srv).Reach (s, received)) (within : received <+: cut.bytes) :
    s.app.map Call.asked <+: cut.frames.map RequestFrame.asked := by
  obtain ⟨_, _, r, reached, feeds⟩ := feeds_reach h
  have within' : r.received <+: cut.bytes := feeds.received ▸ within
  obtain ⟨handled, rest, hh⟩ := pipeline_reach unbroken reached (within'.trans cut.bytes_front)
  rw [← feeds.calls]
  exact hh.calls_within within'

theorem cut_leaves_iff [Inhabited Resp] (unbroken : Unbroken 0 cut.all .nothing)
    (h : (receivingMachine srv).Reach (s, cut.bytes)) (bounded : s.Bounded)
    (closed : s.conn.closed = true) (here : s.ctl = .recv p ∨ ∃ n, s.ctl = .awaiting p n)
    (silent : p ≠ .reply) :
    Leaves srv s ↔
      s.app.map Call.asked = cut.frames.map RequestFrame.asked ∧ cut.BeforeRequest := by
  obtain ⟨alone, _, r, reached, feeds⟩ := feeds_reach h
  have all : r.received = cut.bytes := feeds.received
  obtain ⟨handled, rest, hh⟩ := pipeline_reach unbroken reached (all ▸ cut.bytes_front)
  have input := feeds.input (by simp [running_here here alone.placed])
  have point : r.point = p :=
    (feeds.point p (Or.inl (point_here here))).trans (RecvPoint.past_eq silent)
  obtain ⟨whole, leaves⟩ := hh.leaves_iff all (point ▸ silent)
  rw [feeds.calls, input, point] at leaves
  rw [input, point] at whole
  have ended : InputEnded r.received (s.ctl.settle s.conn) p :=
    ⟨(settle_closed s.ctl _).trans closed, input ▸ hh.ready.readInv, bounded, whole⟩
  exact (leaves_iff here alone ended).trans leaves

/-- A request is dispatched only with all its bytes there. On a connection that the peer has closed,
`recv_fn` leaves its loop if the bytes that are buffered make it leave, and only then: if they end
before the payload of the next request, or are refused. So of requests and a part of one more, it is
never called with that one, and it leaves just when the complete ones have been answered by the time
and the cut is before the payload. -/
theorem recv_fn_leaves_iff_cut_before_request [Inhabited Resp] (srv : RpcServer M Req Resp) :
    (∀ s op t, (connMachine srv.endpoint).Reach s → (connMachine srv.endpoint).step s op = some t →
      t.app ≠ s.app → ∃ h m n, s.ctl = .recv (.request h m n) ∧ n ≤ s.conn.readBytes) ∧
    (∀ s p, (connMachine srv.endpoint).ReachWith (fun s _ => s.Bounded) s → s.Bounded →
      s.conn.closed = true → (s.ctl = .recv p ∨ ∃ n, s.ctl = .awaiting p n) →
      PrefixesWhole (s.ctl.settle s.conn).readBuf.consumedBytes
        (s.ctl.settle s.conn).readBuf.unread p →
      (Leaves srv s ↔ srv.LeavesWith (s.ctl.settle s.conn).readBuf.unread p)) ∧
    ∀ cut : CutStream srv, Unbroken 0 cut.all .nothing →
      ∀ s received, (receivingMachine srv).Reach (s, received) → received <+: cut.bytes →
        s.app.map Call.asked <+: cut.frames.map RequestFrame.asked ∧
        (received = cut.bytes → s.Bounded → s.conn.closed = true →
          ∀ p, (s.ctl = .recv p ∨ ∃ n, s.ctl = .awaiting p n) → p ≠ .reply →
            (Leaves srv s ↔
              s.app.map Call.asked = cut.frames.map RequestFrame.asked ∧ cut.BeforeRequest)) := by
  refine ⟨?_, ?_, ?_⟩
  · intro s op t _ step called
    exact dispatches_whole (conn_move step) called
  · intro s p h bounded closed here whole
    obtain ⟨received, buffers⟩ :=
      h.invariant (I := fun s => ∃ received, ConnRun.Buffers srv s received)
      ⟨[], buffers_start srv⟩ (fun s op t ⟨received, inv⟩ ok step =>
        ⟨_, buffers_step inv (fun _ => ok) (conn_move step)⟩)
    exact leaves_iff here (alone_reach h.reach)
      ⟨(settle_closed s.ctl _).trans closed, buffers.readInv, bounded, whole⟩
  · intro cut unbroken s received h within
    refine ⟨cut_calls_within unbroken h within, ?_⟩
    rintro rfl bounded closed p here silent
    exact cut_leaves_iff unbroken h bounded closed here silent

end

def longFrame : RequestFrame echoServer :=
  { echoFrame with
    requestBytes := [9, 9, 9]
    request := [9, 9, 9]
    request_parses := rfl
    request_short := by decide }

/- After a complete request, one that ends in its header. -/
def cutHeader : CutStream echoServer where
  frames := [echoFrame]
  last := longFrame
  part := [2, 0, 0, 0, 1]
  front := ⟨[7, 3, 0, 0, 0, 9, 9, 9], by decide⟩
  short := by decide

/- The complete request comes in two pieces and is answered; then comes the cut one, and the
peer closes. -/
def cutInHeader : List (ConnOp ((Nat → UInt8) × List UInt8) Empty) :=
  [.startSend [], .startRecv, .read [.data [2, 0, 0, 0, 1, 7, 1, 0], .eagain], .proceed, .await,
    .step (fun _ => 0, [5]), .step (fun _ => 0, [5]),
    .read [.eintr, .data [0, 0, 9, 2, 0], .eagain], .proceed, .await, .step (fun _ => 0, [5]),
    .step (fun _ => 0, [5]), .resumeWrite [[.accepted 11]], .read [.data [0, 0, 1], .eof],
    .resumeWrite [[]], .await]

theorem recv_fn_leaves_iff_cut_before_request_at_header :
    ∃ s, (receivingMachine echoServer).run (receivingMachine echoServer).start cutInHeader =
        some (s, cutHeader.bytes) ∧
      s.conn.closed = true ∧ s.app.map Call.asked = [echoFrame.asked] ∧ Leaves echoServer s := by
  obtain ⟨s, hs, closed, ctl, bounded, answered⟩ : ∃ s,
      (receivingMachine echoServer).run (receivingMachine echoServer).start cutInHeader =
        some (s, cutHeader.bytes) ∧
      s.conn.closed = true ∧ s.ctl = .recv .headerLen ∧ s.Bounded ∧
      s.app.map Call.asked = [echoFrame.asked] := ⟨_, rfl, rfl, rfl, by decide +kernel, rfl⟩
  have unbroken : Unbroken 0 cutHeader.all .nothing := by
    show Whole 0 ∧ Whole 6 ∧ Whole 11 ∧ Whole 17 ∧ True
    decide
  have leaves := ((recv_fn_leaves_iff_cut_before_request echoServer).2.2 cutHeader unbroken s _
    (Machine.reach_run .start hs) List.prefix_rfl).2 rfl bounded closed _ (Or.inl ctl) (by simp)
  exact ⟨s, hs, closed, answered, leaves.mpr ⟨answered, by show 5 < 8 + 2; decide⟩⟩

def cutPayload : CutStream echoServer where
  frames := []
  last := longFrame
  part := [2, 0, 0, 0, 1, 7, 3, 0, 0, 0, 9]
  front := ⟨[9, 9], by decide⟩
  short := by decide

def cutBetween : CutStream echoServer where
  frames := [echoFrame]
  last := longFrame
  part := []
  front := List.nil_prefix
  short := by decide

/- All the bytes come with the end of the stream. -/
def atOnce (bytes : List UInt8) : List (ConnOp ((Nat → UInt8) × List UInt8) Empty) :=
  [.startSend [], .startRecv, .read [.data bytes, .eof], .resumeWrite [[]], .await]

/-- A payload that is cut off is waited for, and the `async_read` that gets nothing resumes the
`send_fn` that ended at the first EOF; so does the answer to a complete request that came
together with it. -/
theorem recv_fn_never_leaves_closed_connection :
    (∃ s t, (receivingMachine echoServer).run (receivingMachine echoServer).start
        (atOnce cutPayload.bytes) = some (s, cutPayload.bytes) ∧
      s.conn.closed = true ∧ ¬ Leaves echoServer s ∧
      (connMachine echoServer.endpoint).run s [.step (fun _ => 0, []), .step (fun _ => 0, []),
        .step (fun _ => 0, []), .read [.eof]] = some t ∧
      t.ctl = .reading (.request longFrame.header () 3) 0 ∧
      (t.afterResume echoServer.endpoint).isSome ∧ t.send = .finished) ∧
    ∃ s t, (receivingMachine echoServer).run (receivingMachine echoServer).start
        (atOnce cutBetween.bytes) = some (s, cutBetween.bytes) ∧
      s.conn.closed = true ∧ ¬ Leaves echoServer s ∧
      (connMachine echoServer.endpoint).run s [.step (fun _ => 0, [5]), .step (fun _ => 0, [5]),
        .step (fun _ => 0, [5]), .step (fun _ => 0, [5])] = some t ∧
      t.ctl = .recv .reply ∧ (t.afterResume echoServer.endpoint).isSome ∧ t.send = .finished := by
  constructor
  · obtain ⟨s, t, hs, closed, ctl, bounded, rest⟩ : ∃ s t, (receivingMachine echoServer).run
        (receivingMachine echoServer).start (atOnce cutPayload.bytes) = some (s, cutPayload.bytes) ∧
        s.conn.closed = true ∧ s.ctl = .recv .headerLen ∧ s.Bounded ∧
        (connMachine echoServer.endpoint).run s [.step (fun _ => 0, []), .step (fun _ => 0, []),
          .step (fun _ => 0, []), .read [.eof]] = some t ∧
        t.ctl = .reading (.request longFrame.header () 3) 0 ∧
        (t.afterResume echoServer.endpoint).isSome ∧ t.send = .finished :=
      ⟨_, _, rfl, rfl, rfl, by decide +kernel, rfl, rfl, rfl, rfl⟩
    have unbroken : Unbroken 0 cutPayload.all .nothing := by
      show Whole 0 ∧ Whole 6 ∧ True
      decide
    have leaves :=
      cut_leaves_iff unbroken (Machine.reach_run .start hs) bounded closed (Or.inl ctl) (by simp)
    refine ⟨s, t, hs, closed, fun h => ?_, rest⟩
    exact absurd (leaves.mp h).2 (by show ¬ 11 < 8 + 2; decide)
  · obtain ⟨s, t, hs, closed, ctl, bounded, none, rest⟩ : ∃ s t, (receivingMachine echoServer).run
        (receivingMachine echoServer).start (atOnce cutBetween.bytes) = some (s, cutBetween.bytes) ∧
        s.conn.closed = true ∧ s.ctl = .recv .headerLen ∧ s.Bounded ∧ s.app = [] ∧
        (connMachine echoServer.endpoint).run s [.step (fun _ => 0, [5]), .step (fun _ => 0, [5]),
          .step (fun _ => 0, [5]), .step (fun _ => 0, [5])] = some t ∧
        t.ctl = .recv .reply ∧ (t.afterResume echoServer.endpoint).isSome ∧ t.send = .finished :=
      ⟨_, _, rfl, rfl, rfl, by decide +kernel, rfl, rfl, rfl, rfl, rfl⟩
    have unbroken : Unbroken 0 cutBetween.all .nothing := by
      show Whole 0 ∧ Whole 6 ∧ Whole 11 ∧ Whole 17 ∧ True
      decide
    have leaves :=
      cut_leaves_iff unbroken (Machine.reach_run .start hs) bounded closed (Or.inl ctl) (by simp)
    refine ⟨s, t, hs, closed, fun h => ?_, rest⟩
    have answered := (leaves.mp h).1
    rw [none] at answered
    cases answered

end Xuanqiong
