import Xuanqiong.Client.Sessions

/-! Streams of response frames through the `recv_fn` of a channel: whether the read position is at
the end of a frame when a turn of its loop is over, for any cut of the stream and whatever calls
are made meanwhile. -/
namespace Xuanqiong

section

variable {Req R D Msg : Type} {ch : ClientChannel Req R Msg}

/-- A response as a server frames it; which call it is for and what its payload is are open. -/
structure ResponseFrame (ch : ClientChannel Req R Msg) where
  headerBytes : List UInt8
  responseBytes : List UInt8
  header : Header
  header_parses : ch.parseHeader headerBytes = some header
  header_short : (headerBytes.length : Int) < INT32_MAX
  response_short : (responseBytes.length : Int) < INT32_MAX

def ResponseFrame.bytes (f : ResponseFrame ch) : List UInt8 :=
  message f.headerBytes ++ message f.responseBytes

def responses (frames : List (ResponseFrame ch)) : List UInt8 := frames.flatMap ResponseFrame.bytes

/- No length prefix of the frames from offset `o` on straddles the end of a block. -/
def WholePrefixes (o : Nat) : List (ResponseFrame ch) → Prop
  | [] => True
  | f :: rest =>
    Whole o ∧ Whole (o + 4 + f.headerBytes.length) ∧ WholePrefixes (o + f.bytes.length) rest

/- A frame that is there in full is for a call in the table and parses for it, or it is for none
and has no payload. -/
def AnswersCalls (ch : ClientChannel Req R Msg) (s : ClientRun Req R D Msg) :
    ClientOp Req R D → Prop
  | .resume _ => ∀ h n, s.point = .response h n → n ≤ s.conn.readBytes →
      (s.state.id2session h.requestId = none ∧ n = 0) ∨
      ∃ session, s.state.id2session h.requestId = some session ∧
        ∀ bytes d, s.conn.pull n = some (bytes, d) →
        (ch.parseResponse session.response bytes).isSome
  | _ => True

def ClientPoint.needs : ClientPoint → Nat
  | .headerLen | .responseLen _ => 4
  | .header n | .response _ n => n
  | .done => 0

/- What is left of the stream at a point, with the frames that are not behind it yet. -/
inductive Awaits : ClientPoint → List (ResponseFrame ch) → Nat → List UInt8 → Prop
  | headerLen {rest : List (ResponseFrame ch)} {o : Nat} {left : List UInt8}
      (whole : WholePrefixes o rest) (bytes : left = responses rest) : Awaits .headerLen rest o left
  | header {f : ResponseFrame ch} {rest : List (ResponseFrame ch)} {o n : Nat} {left : List UInt8}
      (len : n = f.headerBytes.length) (here : Whole (o + n))
      (whole : WholePrefixes (o + n + 4 + f.responseBytes.length) rest)
      (bytes : left = f.headerBytes ++ (message f.responseBytes ++ responses rest)) :
      Awaits (.header n) (f :: rest) o left
  | responseLen {f : ResponseFrame ch} {rest : List (ResponseFrame ch)} {o : Nat}
      {left : List UInt8} (here : Whole o)
      (whole : WholePrefixes (o + 4 + f.responseBytes.length) rest)
      (bytes : left = message f.responseBytes ++ responses rest) :
      Awaits (.responseLen f.header) (f :: rest) o left
  | response {f : ResponseFrame ch} {rest : List (ResponseFrame ch)} {o n : Nat} {left : List UInt8}
      (len : n = f.responseBytes.length) (whole : WholePrefixes (o + n) rest)
      (bytes : left = f.responseBytes ++ responses rest) :
      Awaits (.response f.header n) (f :: rest) o left

structure Poised (received : List UInt8) (c : Connection) (p : ClientPoint)
    (rest : List (ResponseFrame ch)) (left : List UInt8) : Prop where
  readInv : c.readBuf.Inv received
  limit : c.readBuf.limit = INT32_MAX
  awaits : Awaits p rest c.readBuf.consumedBytes left

/- A step has read `k` bytes and gone on to `q`; `turned` is the frame it has put behind it. -/
structure Follows (received : List UInt8) (c d : Connection) (p q : ClientPoint)
    (rest : List (ResponseFrame ch)) (left : List UInt8) (turned rest' : List (ResponseFrame ch))
    (k : Nat) : Prop where
  poised : Poised received d q rest' (left.drop k)
  consumed : d.readBuf.consumedBytes = c.readBuf.consumedBytes + k
  frames : rest = turned ++ rest'
  turns : p.turn q = turned.map ResponseFrame.header

section

variable {received left : List UInt8} {c : Connection} {rest : List (ResponseFrame ch)}

theorem headerLen_follows (h : Poised received c .headerLen rest left)
    (feeds : c.readBuf.unread <+: left) (enough : 4 ≤ c.readBytes) (memory : Nat → UInt8)
    (st : ClientState R D Msg) :
    ∃ d q, ch.recvStep memory st c .headerLen = some (st, d, q) ∧
      Follows received c d .headerLen q rest left [] rest 4 := by
  have max : INT32_MAX = 2147483647 := rfl
  cases h.awaits with
  | headerLen whole bytes =>
    cases rest with
    | nil =>
      -- no frame is left, so the four bytes cannot be there
      rw [bytes] at feeds
      have none := List.prefix_nil.mp feeds
      have len := h.readInv.unread_length
      rw [none] at len
      simp only [Connection.readBytes, InputBuffer.bytes, ← len, List.length_nil] at enough
      omega
    | cons f rest =>
      have short := f.header_short
      obtain ⟨here, there, whole⟩ := whole
      rw [responses, List.flatMap_cons, ResponseFrame.bytes, message, List.append_assoc,
        List.append_assoc] at bytes
      obtain ⟨b, hf, hi, consumed, hl⟩ :=
        Connection.fetchUint32_spec h.readInv (bytes ▸ feeds) enough
        here (by omega) memory
      have some : ¬ (c.closed = true ∧ c.readBytes < 4) := by omega
      refine ⟨{ c with readBuf := b }, .header f.headerBytes.length, ?_, ⟨hi, hl.trans h.limit, ?_⟩,
        consumed, rfl, rfl⟩
      · simp [ClientChannel.recvStep, some, hf]
      · rw [ResponseFrame.bytes, List.length_append, length_message, length_message] at whole
        refine .header rfl (consumed ▸ there) ?_ (by rw [bytes]; rfl)
        simp only [consumed]
        convert whole using 1
        omega

theorem header_follows {n : Nat} (h : Poised received c (.header n) rest left)
    (feeds : c.readBuf.unread <+: left) (enough : n ≤ c.readBytes) (memory : Nat → UInt8)
    (st : ClientState R D Msg) :
    ∃ d q, ch.recvStep memory st c (.header n) = some (st, d, q) ∧
      Follows received c d (.header n) q rest left [] rest n := by
  cases h.awaits with
  | @header f rest _ _ _ len here whole bytes =>
    subst len
    obtain ⟨b, hp, hi, consumed⟩ :=
      Connection.pull_spec h.readInv (bytes ▸ feeds) enough f.header_short
    have hpop : b.popLimit.Inv received := hi.set_limit _ (by decide)
    have some : ¬ (c.closed = true ∧ c.readBytes < f.headerBytes.length) := by omega
    refine ⟨{ c with
      readBuf := b.popLimit }, .responseLen f.header, ?_, ⟨hpop, rfl, ?_⟩, consumed, rfl, rfl⟩
    · simp [ClientChannel.recvStep, some, hp, f.header_parses, Connection.popLimit]
    · have moved : b.popLimit.consumedBytes = c.readBuf.consumedBytes + f.headerBytes.length :=
        consumed
      exact .responseLen (moved ▸ here) (moved ▸ whole) (by rw [bytes, List.drop_left])

theorem responseLen_follows {hd : Header} (h : Poised received c (.responseLen hd) rest left)
    (feeds : c.readBuf.unread <+: left) (enough : 4 ≤ c.readBytes) (memory : Nat → UInt8)
    (st : ClientState R D Msg) :
    ∃ d q, ch.recvStep memory st c (.responseLen hd) = some (st, d, q) ∧
      Follows received c d (.responseLen hd) q rest left [] rest 4 := by
  have max : INT32_MAX = 2147483647 := rfl
  cases h.awaits with
  | @responseLen f rest _ _ here whole bytes =>
    have short := f.response_short
    rw [message, List.append_assoc] at bytes
    obtain ⟨b, hf, hi, consumed, hl⟩ := Connection.fetchUint32_spec h.readInv (bytes ▸ feeds) enough
      here (by omega) memory
    have some : ¬ (c.closed = true ∧ c.readBytes < 4) := by omega
    refine ⟨{ c with readBuf := b }, .response f.header f.responseBytes.length, ?_,
      ⟨hi, hl.trans h.limit, ?_⟩, consumed, rfl, rfl⟩
    · simp [ClientChannel.recvStep, some, hf]
    · exact .response rfl (consumed ▸ whole) (by rw [bytes]; rfl)

theorem response_follows {hd : Header} {n : Nat} (h : Poised received c (.response hd n) rest left)
    (feeds : c.readBuf.unread <+: left) (enough : n ≤ c.readBytes) (memory : Nat → UInt8)
    (st : ClientState R D Msg)
    (answers : (st.id2session hd.requestId = none ∧ n = 0) ∨
      ∃ session, st.id2session hd.requestId = some session ∧
        ∀ bytes d, c.pull n = some (bytes, d) → (ch.parseResponse session.response bytes).isSome) :
    ∃ st' d q f rest', ch.recvStep memory st c (.response hd n) = some (st', d, q) ∧
      Follows received c d (.response hd n) q rest left [f] rest' n := by
  cases h.awaits with
  | @response f rest _ _ _ len whole bytes =>
    have some : ¬ (c.closed = true ∧ c.readBytes < n) := by omega
    rcases answers with ⟨unknown, empty⟩ | ⟨session, found, parses⟩
    · -- nothing is read, and there is nothing to read
      subst empty
      have empty := List.length_eq_zero_iff.mp len.symm
      rw [empty, List.nil_append] at bytes
      refine ⟨st, c, .headerLen, f, rest, ?_, ⟨h.readInv, h.limit, .headerLen whole bytes⟩,
        rfl, rfl, rfl⟩
      simp [ClientChannel.recvStep, ClientChannel.handleResponse, unknown]
    · subst len
      obtain ⟨b, hp, hi, consumed⟩ :=
        Connection.pull_spec h.readInv (bytes ▸ feeds) enough f.response_short
      have hpop : b.popLimit.Inv received := hi.set_limit _ (by decide)
      obtain ⟨message, hm⟩ := Option.isSome_iff_exists.mp (parses _ _ hp)
      have moved : b.popLimit.consumedBytes = c.readBuf.consumedBytes + f.responseBytes.length :=
        consumed
      refine ⟨st.settle f.header.requestId session (.some message), { c with
        readBuf := b.popLimit },
        .headerLen, f, rest, ?_,
        ⟨hpop, rfl, .headerLen (moved ▸ whole) (by rw [bytes, List.drop_left])⟩, consumed, rfl, rfl⟩
      simp only [ClientChannel.recvStep, if_neg some, ClientChannel.handleResponse, found, hp, hm,
        Option.map_some]
      rfl

theorem recvStep_follows {p : ClientPoint} (h : Poised received c p rest left)
    (feeds : c.readBuf.unread <+: left) (enough : p.needs ≤ c.readBytes) (memory : Nat → UInt8)
    (st : ClientState R D Msg)
    (answers : ∀ hd n, p = .response hd n → (st.id2session hd.requestId = none ∧ n = 0) ∨
      ∃ session, st.id2session hd.requestId = some session ∧
        ∀ bytes d, c.pull n = some (bytes, d) → (ch.parseResponse session.response bytes).isSome) :
    ∃ st' d q turned rest' k, ch.recvStep memory st c p = some (st', d, q) ∧
      Follows received c d p q rest left turned rest' k := by
  cases p with
  | headerLen =>
    obtain ⟨d, q, hr, follows⟩ := headerLen_follows h feeds enough memory st
    exact ⟨st, d, q, [], rest, 4, hr, follows⟩
  | header n =>
    obtain ⟨d, q, hr, follows⟩ := header_follows h feeds enough memory st
    exact ⟨st, d, q, [], rest, n, hr, follows⟩
  | responseLen hd =>
    obtain ⟨d, q, hr, follows⟩ := responseLen_follows h feeds enough memory st
    exact ⟨st, d, q, [], rest, 4, hr, follows⟩
  | response hd n =>
    obtain ⟨st', d, q, f, rest', hr, follows⟩ :=
      response_follows h feeds enough memory st (answers hd n rfl)
    exact ⟨st', d, q, [f], rest', n, hr, follows⟩
  | done => cases h.awaits

theorem recvStep_short {p : ClientPoint} (closed : c.closed = true) (short : c.readBytes < p.needs)
    (memory : Nat → UInt8) (st : ClientState R D Msg) :
    ch.recvStep memory st c p = some (st, c.close, .done) := by
  cases p with
  | done => exact absurd short (Nat.not_lt_zero _)
  | _ => exact if_pos ⟨closed, short⟩

theorem waits_of_short {p : ClientPoint} (opened : c.closed = false)
    (short : c.readBytes < p.needs) :
    ClientChannel.waits c p = true := by
  cases p with
  | done => exact absurd short (Nat.not_lt_zero _)
  | _ =>
    simp only [ClientPoint.needs] at short
    simp [ClientChannel.waits, opened, short]

end

/-- Of the frames, `handled` are behind `recv_fn`, and it is poised for the `rest`. -/
structure ClientRun.InStep (s : ClientRun Req R D Msg)
    (frames handled rest : List (ResponseFrame ch)) :
    Prop where
  cut : frames = handled ++ rest
  turns : s.handled = handled.map ResponseFrame.header
  poised : Poised s.received s.conn s.point rest
    ((responses frames).drop s.conn.readBuf.consumedBytes)

def ClientRun.Follows (s : ClientRun Req R D Msg) (frames : List (ResponseFrame ch)) : Prop :=
  s.point = .done ∨ ∃ handled rest, s.InStep frames handled rest

theorem resume_eq {s : ClientRun Req R D Msg} {memory : Nat → UInt8} {st : ClientState R D Msg}
    {c : Connection} {q : ClientPoint} (go : ClientChannel.waits s.conn s.point = false)
    (hr : ch.recvStep memory s.state s.conn s.point = some (st, c, q)) :
    (clientMachine ch).step s (.resume memory) =
      some { s with
        state := st, conn := c, point := q, handled := s.handled ++ s.point.turn q } := by
  simp only [clientMachine, go, Bool.false_eq_true, if_false, hr, Option.map_some]

/-- A step of `recv_fn` that does not wait goes through; it leaves the loop for lack of bytes on
a closed connection, or stays in step. -/
theorem resume_follows {s : ClientRun Req R D Msg} {frames handled rest : List (ResponseFrame ch)}
    (h : s.InStep frames handled rest) (within : s.received <+: responses frames)
    {memory : Nat → UInt8} (answers : AnswersCalls ch s (.resume memory : ClientOp Req R D))
    (go : ClientChannel.waits s.conn s.point = false) :
    ∃ t, (clientMachine ch).step s (.resume memory) = some t ∧ t.Follows frames := by
  by_cases short : s.conn.readBytes < s.point.needs
  · cases closed : s.conn.closed with
    | false => exact absurd (waits_of_short closed short) (by rw [go]; exact Bool.false_ne_true)
    | true => exact ⟨_, resume_eq go (recvStep_short closed short memory s.state), Or.inl rfl⟩
  · have feeds : s.conn.readBuf.unread <+:
        (responses frames).drop s.conn.readBuf.consumedBytes := by
      rw [h.poised.readInv.unread_eq]
      exact within.drop _
    obtain ⟨st, d, q, turned, rest', k, hr, follows⟩ := recvStep_follows h.poised feeds
      (Nat.not_lt.mp short) memory s.state (fun hd n site => answers hd n site (by
        rw [site] at short
        exact Nat.not_lt.mp short))
    refine ⟨_, resume_eq go hr, Or.inr ⟨handled ++ turned, rest', ?_, ?_, ?_⟩⟩
    · rw [h.cut, follows.frames, List.append_assoc]
    · simp only [h.turns, follows.turns, List.map_append]
    · have poised := follows.poised
      rw [List.drop_drop, ← follows.consumed] at poised
      exact poised

theorem ClientRun.Follows.keeps {s t : ClientRun Req R D Msg} {frames : List (ResponseFrame ch)}
    (h : s.Follows frames) (point : t.point = s.point) (handled : t.handled = s.handled)
    (readInv : s.conn.readBuf.Inv s.received → t.conn.readBuf.Inv t.received)
    (limit : t.conn.readBuf.limit = s.conn.readBuf.limit)
    (consumed : t.conn.readBuf.consumedBytes = s.conn.readBuf.consumedBytes) :
    t.Follows frames := by
  rcases h with left | ⟨before, rest, h⟩
  · exact Or.inl (point.trans left)
  · refine Or.inr ⟨before, rest, h.cut, handled.trans h.turns, readInv h.poised.readInv,
      limit.trans h.poised.limit, ?_⟩
    rw [point, consumed]
    exact h.poised.awaits

theorem follows_step {frames : List (ResponseFrame ch)} {s t : ClientRun Req R D Msg}
    {op : ClientOp Req R D} (kept : s.Kept ch)
    (h : s.received <+: responses frames → s.Follows frames) (answers : AnswersCalls ch s op)
    (hs : (clientMachine ch).step s op = some t) (within : t.received <+: responses frames) :
    t.Follows frames := by
  cases op with
  | read bs =>
    simp only [clientMachine] at hs
    split at hs
    · rename_i room
      cases hs
      have before := h ((List.prefix_append _ _).trans within)
      rcases before with left | ⟨handled, rest, before⟩
      · exact Or.inl left
      · obtain ⟨inv, consumed, limit⟩ := before.poised.readInv.receive bs room.2
        exact ClientRun.Follows.keeps (Or.inr ⟨handled, rest, before⟩) rfl rfl
          (fun _ => inv) limit consumed
    · cases hs
  | resume memory =>
    cases go : ClientChannel.waits s.conn s.point with
    | true =>
      simp only [clientMachine, go, if_true] at hs
      cases hs
    | false =>
      have same : t.received = s.received := by
        cases client_move kept.writeInv hs <;> rfl
      rcases h (same ▸ within) with left | ⟨handled, rest, before⟩
      · simp only [clientMachine, left, ClientChannel.waits, ClientChannel.recvStep,
          Option.map_none, ite_self] at hs
        cases hs
      · obtain ⟨t', ht, follows⟩ := resume_follows before (same ▸ within) answers go
        cases hs.symm.trans ht
        exact follows
  | call junk call =>
    cases client_move kept.writeInv hs with
    | call inv pending => exact (h within).keeps rfl rfl id rfl rfl
  | sendAdd n =>
    cases client_move kept.writeInv hs with
    | sendAdd inv pending => exact (h within).keeps rfl rfl id rfl rfl
  | close =>
    cases client_move kept.writeInv hs with
    | close => exact (h within).keeps rfl rfl id rfl rfl

theorem follows_reach {frames : List (ResponseFrame ch)} (whole : WholePrefixes 0 frames)
    {s : ClientRun Req R D Msg} (h : (clientMachine ch).ReachWith (AnswersCalls ch) s) :
    s.Kept ch ∧ (s.received <+: responses frames → s.Follows frames) := by
  refine h.invariant (I := fun s => s.Kept ch ∧
    (s.received <+: responses frames → s.Follows frames))
    ⟨kept_start ch, fun _ => ?_⟩ ?_
  · exact Or.inr ⟨[], frames, rfl, rfl, InputBuffer.init_inv, rfl, .headerLen whole rfl⟩
  · intro s op t hi answers hs
    exact ⟨kept_step hi.1 hs, follows_step hi.1 hi.2 answers hs⟩

/-- When no length prefix of the stream straddles the end of a block and every frame is for a call
in the table and parses for it (or is for none and empty), then whenever `recv_fn` is at the head
of its loop it has taken a number of whole frames off the stream, one a turn, and no limit is in
force; and it is never stuck in between. -/
theorem client_stays_in_step (frames : List (ResponseFrame ch)) (whole : WholePrefixes 0 frames)
    (s : ClientRun Req R D Msg) (h : (clientMachine ch).ReachWith (AnswersCalls ch) s)
    (within : s.received <+: responses frames) :
    (s.point = .headerLen → ∃ handled rest, frames = handled ++ rest ∧
      s.handled = handled.map ResponseFrame.header ∧
      s.conn.readBuf.consumedBytes = (responses handled).length ∧
      s.conn.readBuf.unread <+: responses rest ∧ s.conn.readBuf.limit = INT32_MAX) ∧
    ∀ memory, s.point ≠ .done → ClientChannel.waits s.conn s.point = false →
      AnswersCalls ch s (.resume memory : ClientOp Req R D) →
      ∃ t, (clientMachine ch).step s (.resume memory) = some t := by
  have follows := (follows_reach whole h).2 within
  constructor
  · intro head
    rcases follows with left | ⟨handled, rest, step⟩
    · rw [head] at left
      cases left
    · have awaits := step.poised.awaits
      rw [head] at awaits
      cases awaits with
      | headerLen _ bytes =>
        have total : (responses frames).length =
            (responses handled).length + (responses rest).length := by
          rw [step.cut, responses, List.flatMap_append, List.length_append]
          rfl
        have left := congrArg List.length bytes
        rw [List.length_drop] at left
        have counted := step.poised.readInv.counted
        have bounded := within.length_le
        refine ⟨handled, rest, step.cut, step.turns, by omega, ?_, step.poised.limit⟩
        rw [← bytes, step.poised.readInv.unread_eq]
        exact within.drop _
  · intro memory running go answers
    rcases follows with left | ⟨handled, rest, step⟩
    · exact absurd left running
    · obtain ⟨t, ht, _⟩ := resume_follows step within answers go
      exact ⟨t, ht⟩

end

def byteFrame (id : UInt8) (payload : List UInt8) (short : (payload.length : Int) < INT32_MAX) :
    ResponseFrame byteClient where
  headerBytes := [id]
  responseBytes := payload
  header := ⟨MAGIC_NUM, VERSION, .response, Int64.ofNat id.toNat, none, none⟩
  header_parses := rfl
  header_short := by
    rw [List.length_singleton]
    decide
  response_short := short

/- A call and its answer, which comes in two reads and is followed by the start of a second one. -/
theorem client_stays_in_step_at_answer :
    ∃ s, (clientMachine byteClient).run (clientMachine byteClient).start
        [.call (fun _ => 0) (byteCall 5), .read [1, 0, 0, 0, 0, 1], .resume fun _ => 0,
          .resume fun _ => 0, .read [0, 0, 0, 9, 1, 0], .resume fun _ => 0,
          .resume fun _ => 0] = some s ∧
      s.point = .headerLen ∧ s.received.length = 12 ∧
      ∃ handled rest, [byteFrame 0 [9] (by decide), byteFrame 1 [] (by decide)] = handled ++ rest ∧
        s.handled = handled.map ResponseFrame.header ∧
        s.conn.readBuf.consumedBytes = (responses handled).length ∧
        s.conn.readBuf.unread <+: responses rest ∧ s.conn.readBuf.limit = INT32_MAX := by
  obtain ⟨s, hs, head, received⟩ : ∃ s,
      (clientMachine byteClient).run (clientMachine byteClient).start
      [.call (fun _ => 0) (byteCall 5), .read [1, 0, 0, 0, 0, 1], .resume fun _ => 0,
        .resume fun _ => 0, .read [0, 0, 0, 9, 1, 0], .resume fun _ => 0,
        .resume fun _ => 0] = some s ∧
      s.point = .headerLen ∧ s.received = [1, 0, 0, 0, 0, 1, 0, 0, 0, 9, 1, 0] := ⟨_, rfl, rfl, rfl⟩
  have along : (clientMachine byteClient).Along (AnswersCalls byteClient)
      (clientMachine byteClient).start
      [.call (fun _ => 0) (byteCall 5), .read [1, 0, 0, 0, 0, 1], .resume fun _ => 0,
        .resume fun _ => 0, .read [0, 0, 0, 9, 1, 0], .resume fun _ => 0, .resume fun _ => 0] := by
    refine ⟨trivial, fun _ h₁ => ⟨trivial, fun _ h₂ => ?_⟩⟩
    cases h₁
    cases h₂
    refine ⟨fun _ _ site => (by cases site), fun _ h₃ => ?_⟩
    cases h₃
    refine ⟨fun _ _ site => (by cases site), fun _ h₄ => ⟨trivial, fun _ h₅ => ?_⟩⟩
    cases h₄
    cases h₅
    refine ⟨fun _ _ site => (by cases site), fun _ h₆ => ?_⟩
    cases h₆
    refine ⟨fun _ _ site _ => Or.inr ⟨⟨(), some ()⟩, ?_, fun _ _ pulled => ?_⟩, fun _ _ => trivial⟩
    · cases site
      rfl
    · cases site
      cases pulled
      rfl
  have within : s.received <+:
      responses [byteFrame 0 [9] (by decide), byteFrame 1 [] (by decide)] := by
    rw [received]
    exact ⟨[0, 0, 1, 0, 0, 0, 0], by decide⟩
  have whole : WholePrefixes 0 [byteFrame 0 [9] (by decide), byteFrame 1 [] (by decide)] := by
    show Whole 0 ∧ Whole 5 ∧ Whole 10 ∧ Whole 15 ∧ True
    decide
  exact ⟨s, hs, head, by rw [received]; rfl,
    (client_stays_in_step _ whole s (Machine.reachWith_run .start along hs) within).1 head⟩

/- A frame of 13 bytes for an unknown id is left at its ninth, and the next turn takes its payload
for a length and a header; one that does not parse leaves a limit of zero in force. -/
theorem client_loses_step :
    (∃ s, (clientMachine (D := Unit) byteClient).run (clientMachine byteClient).start
        ([.read (responses [byteFrame 7 [1, 0, 0, 0] (by decide), byteFrame 8 [9] (by decide)])] ++
          List.replicate 4 (.resume fun _ => 0)) = some s ∧
      s.point = .headerLen ∧ s.handled = [(byteFrame 7 [1, 0, 0, 0] (by decide)).header] ∧
      s.conn.readBuf.consumedBytes = 9) ∧
    ∃ s, (clientMachine byteClient).run (clientMachine byteClient).start
        ([.call (fun _ => 0) (byteCall 5), .read (responses [byteFrame 0 [9, 9] (by decide)])] ++
          List.replicate 4 (.resume fun _ => 0)) = some s ∧
      s.point = .headerLen ∧ s.conn.readBuf.limit = 0 :=
  ⟨⟨_, rfl, rfl, rfl, rfl⟩, ⟨_, rfl, rfl, rfl⟩⟩

end Xuanqiong
