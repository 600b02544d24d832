import Xuanqiong.Net.EdgeRead
import Xuanqiong.Net.PollFlush
import Xuanqiong.Rpc.Stream

/-! An end of an rpc on an `EpollExecutor`. As long as no `async_write` is accepted from more than
once, the coroutines and the loop of the executor take every byte once and in order off the socket
and put every byte once and in order into it: the end is the one without its executor, and so two
such ends are an rpc. -/
namespace Xuanqiong

/- What the kernel took in one `async_write`, and in all that `send_fn` does from one on, or from
the condition of its loop on. -/
def Connection.writeTaken (c : Connection) (results : List WriteResult) : List UInt8 :=
  ((writeLoop c.writeBuf (toInt32 c.writeBytes) 0 [] results).map Prod.snd).getD []

def takenFrom (c : Connection) : List (List WriteResult) → List UInt8
  | [] => []
  | results :: rest =>
    c.writeTaken results ++
      match c.asyncWrite results with
      | some (d, false) => if d.closed ∨ d.writeBytes = 0 then [] else takenFrom d rest
      | _ => []

def takenInLoop (c : Connection) (rounds : List (List WriteResult)) : List UInt8 :=
  if c.closed ∨ c.writeBytes = 0 then [] else takenFrom c rounds

def SendFn.taken (c : Connection) (rounds : List (List WriteResult)) : SendFn → List UInt8
  | .waitWrite => takenFrom c rounds
  | .write => takenInLoop c rounds
  | .created | .finished => []

/- No `async_write` goes on after the kernel has taken something. -/
def TakesOnce (rounds : List (List WriteResult)) : Prop :=
  ∀ results ∈ rounds, (accepts results).length ≤ 1

theorem asyncWrite_credit {c d : Connection} {results : List WriteResult} {suspend : Bool}
    (inv : c.writeBuf.Inv) (once : (accepts results).length ≤ 1)
    (hs : c.asyncWrite results = some (d, suspend)) :
    ∃ n : Nat, n ≤ c.writeBytes ∧ c.writeBuf.sendAdd n = some d.writeBuf ∧ d.writeBuf.Inv ∧
      c.writeTaken results = c.writeBuf.pending.take n := by
  obtain ⟨⟨nwrite, taken⟩, hw, hs⟩ := Option.bind_eq_some_iff.mp hs
  obtain ⟨nonneg, bound, front⟩ := writeLoop_once inv once hw
  have offers := (offered_front inv).length_le
  have counted : c.writeBytes = c.writeBuf.pending.length := inv.counted
  obtain ⟨n, rfl⟩ := Int.eq_ofNat_of_zero_le nonneg
  have le : n ≤ c.writeBytes := by omega
  obtain ⟨b, hb, inv', _⟩ := OutputBuffer.sendAdd_spec inv (n := n) (by exact_mod_cast le)
  simp only [hb, Option.map_some, Option.some.injEq, Prod.mk.injEq] at hs
  obtain ⟨rfl, _⟩ := hs
  refine ⟨n, le, hb, inv', ?_⟩
  simp only [Connection.writeTaken, hw, Option.map_some, Option.getD_some, front, Int.toNat_natCast]

section

variable {σ P X T : Type} {e : Endpoint σ P X T}

theorem stream_sendWrite {rounds : List (List WriteResult)} {c d : Connection} {f : SendFn}
    {t : StreamRun σ P T} (inv : c.writeBuf.Inv) (output : t.conn.writeBuf = c.writeBuf)
    (once : TakesOnce rounds) (hs : sendWrite c rounds = some (d, f)) :
    d.writeBuf.Inv ∧ ∃ ops, (streamMachine e).run t ops = some { t with
      conn := { t.conn with writeBuf := d.writeBuf }
      traffic := t.traffic.add [] [] (takenFrom c rounds) } := by
  induction rounds generalizing c t with
  | nil => cases hs
  | cons results rest ih =>
    obtain ⟨⟨b, suspend⟩, run, hs⟩ := Option.bind_eq_some_iff.mp hs
    obtain ⟨n, le, credit, inv', front⟩ :=
      asyncWrite_credit inv (once results List.mem_cons_self) run
    have step : (streamMachine e).step t (.sendAdd n) = some { t with
        conn := { t.conn with writeBuf := b.writeBuf }
        traffic := t.traffic.add [] [] (c.writeTaken results) } := by
      have le' : n ≤ t.conn.writeBytes := by rw [Connection.writeBytes, output]; exact le
      simp only [streamMachine, if_pos le', output, credit, Option.map_some, front]
    have last : ∀ taken, takenFrom c (results :: rest) = c.writeTaken results ++ taken →
        taken = [] →
        ∃ ops, (streamMachine e).run t ops = some { t with
          conn := { t.conn with writeBuf := b.writeBuf }
          traffic := t.traffic.add [] [] (takenFrom c (results :: rest)) } := by
      rintro taken cut rfl
      refine ⟨[.sendAdd n], Option.bind_eq_some_iff.mpr ⟨_, step, ?_⟩⟩
      rw [cut, List.append_nil]
      rfl
    simp only at hs
    cases suspend with
    | true =>
      cases hs
      exact ⟨inv', last _ (by simp [takenFrom, run]) rfl⟩
    | false =>
      simp only [Bool.false_eq_true, if_false] at hs
      split at hs
      · rename_i closed
        cases hs
        exact ⟨inv', last _ (by simp [takenFrom, run, closed]) rfl⟩
      · rename_i opened
        split at hs
        · rename_i empty
          cases hs
          exact ⟨inv', last _ (by simp [takenFrom, run, empty]) rfl⟩
        · rename_i more
          obtain ⟨inv'', ops, hr⟩ := ih (t := { t with
            conn := { t.conn with writeBuf := b.writeBuf }
            traffic := t.traffic.add [] [] (c.writeTaken results) })
            inv' rfl (fun r hr => once r (List.mem_cons_of_mem _ hr)) hs
          refine ⟨inv'', .sendAdd n :: ops, Option.bind_eq_some_iff.mpr ⟨_, step, ?_⟩⟩
          simp only [hr, takenFrom, run, opened, more, Bool.false_eq_true, or_self, if_false,
            Traffic.add_sent]

theorem stream_sendLoop {rounds : List (List WriteResult)} {c d : Connection} {f : SendFn}
    {t : StreamRun σ P T} (inv : c.writeBuf.Inv) (output : t.conn.writeBuf = c.writeBuf)
    (once : TakesOnce rounds) (hs : sendLoop c rounds = some (d, f)) :
    d.writeBuf.Inv ∧ ∃ ops, (streamMachine e).run t ops = some { t with
      conn := { t.conn with writeBuf := d.writeBuf }
      traffic := t.traffic.add [] [] (takenInLoop c rounds) } := by
  have rests : takenInLoop c rounds = [] → d = c → d.writeBuf.Inv ∧
      ∃ ops, (streamMachine e).run t ops = some { t with
        conn := { t.conn with writeBuf := d.writeBuf }
        traffic := t.traffic.add [] [] (takenInLoop c rounds) } := by
    rintro none rfl
    refine ⟨inv, [], ?_⟩
    rw [none, Traffic.add_nothing, ← output]
    rfl
  unfold sendLoop at hs
  split at hs
  · rename_i closed
    cases hs
    exact rests (by simp [takenInLoop, closed]) rfl
  · rename_i opened
    split at hs
    · rename_i empty
      cases hs
      exact rests (by simp [takenInLoop, empty]) rfl
    · rename_i more
      have same : takenInLoop c rounds = takenFrom c rounds := by simp [takenInLoop, opened, more]
      rw [same]
      exact stream_sendWrite inv output once hs

theorem stream_resume {rounds : List (List WriteResult)} {c d : Connection} {f f' : SendFn}
    {t : StreamRun σ P T} (inv : c.writeBuf.Inv) (output : t.conn.writeBuf = c.writeBuf)
    (once : TakesOnce rounds) (hs : f.resume c rounds = some (d, f')) :
    d.writeBuf.Inv ∧ ∃ ops, (streamMachine e).run t ops = some { t with
      conn := { t.conn with writeBuf := d.writeBuf }
      traffic := t.traffic.add [] [] (f.taken c rounds) } := by
  cases f with
  | created | finished => cases hs
  | waitWrite => exact stream_sendWrite inv output once hs
  | write => exact stream_sendLoop inv output once hs

structure PollRun (σ P T : Type) where
  run : ConnRun σ P T
  traffic : Traffic T

def ConnRun.output (s : ConnRun σ P T) : ConnOp X T → List UInt8
  | .startSend rounds => takenInLoop s.conn rounds
  | .resumeWrite rounds => s.send.taken s.conn rounds
  | _ => []

def ConnRun.submits (s : ConnRun σ P T) : ConnOp X T → List T
  | .startCall _ =>
    match s.queue with
    | .call request :: _ => [request]
    | _ => []
  | _ => []

def pollMachine (e : Endpoint σ P X T) : Machine (PollRun σ P T) (ConnOp X T) where
  start := ⟨(connMachine e).start, ⟨[], [], []⟩⟩
  step s op :=
    ((connMachine e).step s.run op).map fun t =>
      ⟨t, s.traffic.add (s.run.submits op) op.input (s.run.output op)⟩

def Endpoint.poll (e : Endpoint σ P X T) : Party (PollRun σ P T) (ConnOp X T) UInt8 where
  machine := pollMachine e
  received s := s.traffic.received
  sent s := s.traffic.sent
  received_start := rfl
  received_grows hs := by
    obtain ⟨t, _, rfl⟩ := Option.map_eq_some_iff.mp hs
    exact List.prefix_append _ _
  sent_grows hs := by
    obtain ⟨t, _, rfl⟩ := Option.map_eq_some_iff.mp hs
    exact List.prefix_append _ _

def SendsOnce (_ : PollRun σ P T) : ConnOp X T → Prop
  | .startSend rounds | .resumeWrite rounds => TakesOnce rounds
  | _ => True

/-- The end with its executor is where the one without it is. -/
structure Polls (e : Endpoint σ P X T) (s : PollRun σ P T) (t : StreamRun σ P T) : Prop where
  placed : s.run.Placed e
  roomy : s.run.Roomy
  writeInv : s.run.conn.writeBuf.Inv
  conn : t.conn = s.run.ctl.settle s.run.conn
  app : t.app = s.run.app
  traffic : t.traffic = s.traffic
  created : s.run.recv = .created → t.point = e.first
  suspended : ∀ p, s.run.recv = .suspended p → t.point = p
  running : ∀ p, s.run.ctl.point = some p → t.point = p

section

variable {s t : PollRun σ P T} {u : StreamRun σ P T} {op : ConnOp X T}

theorem conn_of_resume {f f' : SendFn} {c d : Connection} {rounds : List (List WriteResult)}
    (hs : f.resume c rounds = some (d, f')) : d = { c with writeBuf := d.writeBuf } := by
  have readBuf := resume_readBuf hs
  have closed := (resume_spec hs).1
  obtain ⟨r, w, z⟩ := d
  simp only at readBuf closed
  rw [readBuf, closed]

theorem conn_of_sendLoop {f : SendFn} {c d : Connection} {rounds : List (List WriteResult)}
    (hs : sendLoop c rounds = some (d, f)) : d = { c with writeBuf := d.writeBuf } := by
  have readBuf := sendLoop_readBuf hs
  have closed := (sendLoop_spec hs).1
  obtain ⟨r, w, z⟩ := d
  simp only at readBuf closed
  rw [readBuf, closed]

theorem Polls.stays (h : Polls e s u) (placed : t.run.Placed e) (roomy : t.run.Roomy)
    (writeBuf : t.run.conn.writeBuf = s.run.conn.writeBuf)
    (settled : t.run.ctl.settle t.run.conn = s.run.ctl.settle s.run.conn)
    (app : t.run.app = s.run.app) (traffic : t.traffic = s.traffic.add [] [] [])
    (created : t.run.recv = .created → u.point = e.first)
    (suspended : ∀ p, t.run.recv = .suspended p → u.point = p)
    (running : ∀ p, t.run.ctl.point = some p → u.point = p) :
    ∃ ops u', (streamMachine e).run u ops = some u' ∧ Polls e t u' := by
  refine ⟨[], u, rfl, placed, roomy, writeBuf ▸ h.writeInv, ?_, ?_, ?_, created, suspended, running⟩
  · rw [settled, h.conn]
  · rw [app, h.app]
  · rw [traffic, Traffic.add_nothing, h.traffic]

theorem Polls.closes (h : Polls e s u) (placed : t.run.Placed e) (roomy : t.run.Roomy)
    (conn : t.run.conn = s.run.conn.close) (app : t.run.app = s.run.app)
    (recv : t.run.recv = s.run.recv) (ctl : t.run.ctl = s.run.ctl)
    (traffic : t.traffic = s.traffic.add [] [] []) :
    ∃ ops u', (streamMachine e).run u ops = some u' ∧ Polls e t u' := by
  refine ⟨[.close], { u with conn := u.conn.close }, rfl, placed, roomy, ?_, ?_, ?_, ?_, ?_, ?_, ?_⟩
  · rw [conn]
    exact h.writeInv
  · rw [h.conn, settle_close, conn, ctl]
  · rw [app, h.app]
  · rw [traffic, Traffic.add_nothing, h.traffic]
  · rw [recv]
    exact h.created
  · rw [recv]
    exact h.suspended
  · rw [ctl]
    exact h.running

theorem polls_resumeWrite {rounds : List (List WriteResult)} {d : Connection} {f : SendFn}
    {next : Ctl P T} (h : Polls e s u) (once : TakesOnce rounds)
    (site : s.run.afterResume e = some next)
    (run : s.run.send.resume s.run.conn rounds = some (d, f)) {t : PollRun σ P T}
    (after : t = ⟨{ s.run.sent (d, f) with ctl := next },
      s.traffic.add [] [] (s.run.send.taken s.run.conn rounds)⟩)
    (placed : t.run.Placed e) (roomy : t.run.Roomy) :
    ∃ ops u', (streamMachine e).run u ops = some u' ∧ Polls e t u' := by
  subst after
  have output : u.conn.writeBuf = s.run.conn.writeBuf := by rw [h.conn, settle_writeBuf]
  obtain ⟨inv, ops, hr⟩ := stream_resume (e := e) (t := u) h.writeInv output once run
  obtain ⟨settled, stays | ⟨p, q, ctl, replies, rfl⟩⟩ := afterResume_cases site
  · refine ⟨ops, _, hr, placed, roomy, inv, ?_, h.app, by rw [h.traffic], h.created,
      h.suspended, ?_⟩
    · simp only [h.conn, settle_output, ← conn_of_resume run, settled]
      rfl
    · exact fun p here => h.running p (stays p here)
  · have here : u.point = p := h.running p (by rw [ctl]; rfl)
    have busy : s.run.recv = .running := by
      have fits := h.placed.fits
      rw [ctl] at fits
      exact fits
    refine ⟨ops ++ [.reply], { u with
      conn := { u.conn with writeBuf := d.writeBuf }
      traffic := u.traffic.add [] [] (s.run.send.taken s.run.conn rounds)
      point := q }, ?_, placed, roomy, inv, ?_, h.app, by rw [h.traffic], ?_, ?_, ?_⟩
    · rw [Machine.run_append, hr, Option.bind_some]
      simp only [Machine.run, streamMachine, here, replies, Option.map_some, Option.bind_some]
    · simp only [h.conn, settle_output, ← conn_of_resume run, settled]
      rfl
    · intro created
      cases busy.symm.trans created
    · intro p suspended
      cases busy.symm.trans suspended
    · rintro p ⟨⟩
      rfl

theorem polls_startSend {rounds : List (List WriteResult)} {d : Connection} {f : SendFn}
    {rest : List (SpawnedTask T)} (h : Polls e s u) (once : TakesOnce rounds)
    (run : sendLoop s.run.conn rounds = some (d, f)) {t : PollRun σ P T}
    (after : t = ⟨{ s.run.sent (d, f) with queue := rest },
      s.traffic.add [] [] (takenInLoop s.run.conn rounds)⟩)
    (placed : t.run.Placed e) (roomy : t.run.Roomy) :
    ∃ ops u', (streamMachine e).run u ops = some u' ∧ Polls e t u' := by
  subst after
  have output : u.conn.writeBuf = s.run.conn.writeBuf := by rw [h.conn, settle_writeBuf]
  obtain ⟨inv, ops, hr⟩ := stream_sendLoop (e := e) (t := u) h.writeInv output once run
  refine ⟨ops, _, hr, placed, roomy, inv, ?_, h.app, by rw [h.traffic], h.created, h.suspended,
    h.running⟩
  simp only [h.conn, settle_output, ← conn_of_sendLoop run]
  rfl

theorem polls_read {results : List ReadResult} {p : P} {c : Connection} {n : Nat} (h : Polls e s u)
    (ctl : s.run.ctl = .recv p) (waits : e.waits s.run.conn p = true)
    (run : s.run.conn.readAll results = some (c, n)) {t : PollRun σ P T}
    (after : t = ⟨{ s.run with
      conn := c, ctl := .reading p n }, s.traffic.add [] (fetched results) []⟩)
    (placed : t.run.Placed e) (roomy : t.run.Roomy) :
    ∃ ops u', (streamMachine e).run u ops = some u' ∧ Polls e t u' := by
  subst after
  obtain ⟨ends, _, _, _, _, _, rfl, rfl, fits⟩ := Connection.readAll_cases h.roomy.room run
  have conn : u.conn = s.run.conn := by rw [h.conn, ctl]; rfl
  have here : u.point = p := h.running p (by rw [ctl]; rfl)
  have step : (streamMachine e).step u (.read (fetched results)) = some { u with
      conn := { u.conn with readBuf := u.conn.readBuf.receive (fetched results) }
      traffic := u.traffic.add [] (fetched results) [] } := by
    apply if_pos
    rw [conn, here]
    exact ⟨waits, fits⟩
  have busy : s.run.recv = .running := by
    have fits := h.placed.fits
    rw [ctl] at fits
    exact fits
  have arrives : ∀ c : Connection, c = (Ctl.reading p (fetched results).length : Ctl P T).settle
      { s.run.conn with
        readBuf := s.run.conn.readBuf.fill (fetched results)
        closed := s.run.conn.closed || ends } →
      Polls e ⟨{ s.run with
        conn := { s.run.conn with
          readBuf := s.run.conn.readBuf.fill (fetched results)
          closed := s.run.conn.closed || ends }
        ctl := .reading p (fetched results).length }, s.traffic.add [] (fetched results) []⟩
        { u with conn := c, traffic := u.traffic.add [] (fetched results) [] } := by
    intro c settled
    refine ⟨placed, roomy, h.writeInv, settled, h.app, by rw [h.traffic], ?_, ?_, ?_⟩
    · intro created
      cases busy.symm.trans created
    · intro p suspended
      cases busy.symm.trans suspended
    · rintro p ⟨⟩
      exact here
  cases ends with
  | false =>
    refine ⟨[.read (fetched results)], _, Option.bind_eq_some_iff.mpr ⟨_, step, rfl⟩, arrives _ ?_⟩
    rw [conn, Bool.or_false]
    rfl
  | true =>
    refine ⟨[.read (fetched results), .close], _, Option.bind_eq_some_iff.mpr ⟨_, step, rfl⟩,
      arrives _ ?_⟩
    rw [conn, Bool.or_true]
    rfl

theorem step_quiet {r t : ConnRun σ P T} {x : X} {p : P} (ctl : r.ctl = .recv p)
    (hs : (connMachine e).step r (.step x) = some t) : e.replies p = none := by
  simp only [connMachine, ctl, Option.ite_none_left_eq_some, Bool.or_eq_true, not_or] at hs
  exact Option.not_isSome_iff_eq_none.mp hs.1.2

theorem stream_step {x : X} {p q : P} {a : σ} {c : Connection} (h : Polls e s u)
    (ctl : s.run.ctl = .recv p) (waits : e.waits s.run.conn p = false)
    (replies : e.replies p = none) (run : e.step x s.run.app s.run.conn p = some (a, c, q)) :
    (streamMachine e).run u [.step x] = some { u with app := a, conn := c, point := q } := by
  have conn : u.conn = s.run.conn := by rw [h.conn, ctl]; rfl
  have here : u.point = p := h.running p (by rw [ctl]; rfl)
  simp only [Machine.run, streamMachine, conn, here, waits, replies, Option.isSome_none,
    Bool.or_self, Bool.false_eq_true, if_false, h.app, run, Option.map_some, Option.bind_some]

theorem stream_submit {junk : Nat → UInt8} {request : T} {a : σ} {c : Connection} (h : Polls e s u)
    (ctl : s.run.ctl = .idle) (run : e.submit junk request s.run.app s.run.conn = some (a, c)) :
    (streamMachine e).run u [.submit junk request] =
      some { u with app := a, conn := c, traffic := u.traffic.add [request] [] [] } := by
  have conn : u.conn = s.run.conn := by rw [h.conn, ctl]; rfl
  simp only [Machine.run, streamMachine, conn, h.app, run, Option.map_some, Option.bind_some]

theorem polls_step (leaves : e.LeavesRoom) (announces : e.Announces) (h : Polls e s u)
    (once : SendsOnce s op) (hs : (pollMachine e).step s op = some t) :
    ∃ ops u', (streamMachine e).run u ops = some u' ∧ Polls e t u' := by
  obtain ⟨r, step, rfl⟩ := Option.map_eq_some_iff.mp hs
  have move := conn_move step
  have placed := placed_step h.placed move
  have roomy := roomy_step leaves h.roomy move
  cases move with
  | spawn => exact h.stays placed roomy rfl rfl rfl rfl h.created h.suspended h.running
  | close owned => exact h.closes placed roomy rfl rfl rfl rfl rfl
  | hangUp ctl interest => exact h.closes placed roomy rfl rfl rfl rfl rfl
  | startSend ctl queue run => exact polls_startSend h once run rfl placed roomy
  | startRecv ctl queue =>
    have fresh := h.created (h.placed.recv_of_queue queue).2.1
    refine h.stays placed roomy rfl ?_ rfl rfl ?_ ?_ ?_
    · rw [ctl]
      rfl
    · intro created
      cases created
    · intro p suspended
      cases suspended
    · rintro p ⟨⟩
      exact fresh
  | startCall ctl queue run =>
    refine ⟨_, _, stream_submit h ctl run, ?_⟩
    refine ⟨placed, roomy, announces.submitInv _ _ _ _ _ _ run h.writeInv, rfl, rfl, ?_, h.created,
      h.suspended, ?_⟩
    · simp only [h.traffic, ConnRun.submits, queue]
      rfl
    · rintro p ⟨⟩
  | writable ctl interest | readable ctl interest held =>
    refine h.stays placed roomy rfl ?_ rfl rfl h.created h.suspended ?_
    · rw [ctl]
      rfl
    · rintro p ⟨⟩
  | resumeRead ctl recv =>
    refine h.stays placed roomy rfl ?_ rfl rfl ?_ ?_ ?_
    · rw [ctl]
      rfl
    · intro created
      cases created
    · intro p suspended
      cases suspended
    · rintro p ⟨⟩
      exact h.suspended _ recv
  | resumeWrite site run => exact polls_resumeWrite h once site run rfl placed roomy
  | read ctl waits run => exact polls_read h ctl waits run rfl placed roomy
  | proceed ctl opened =>
    refine h.stays placed roomy rfl ?_ rfl rfl h.created h.suspended ?_
    · rw [ctl]
      rfl
    · intro p here
      exact h.running p (by rw [ctl]; exact here)
  | deleted ctl closed | received ctl opened =>
    refine h.stays placed roomy rfl ?_ rfl rfl h.created h.suspended ?_
    · rw [ctl]
      rfl
    · intro p here
      exact h.running p (by rw [ctl]; exact here)
  | suspended ctl opened =>
    refine h.stays placed roomy rfl ?_ rfl rfl ?_ ?_ ?_
    · rw [ctl]
      rfl
    · intro created
      cases created
    · rintro p ⟨⟩
      exact h.running _ (by rw [ctl]; rfl)
    · rintro p ⟨⟩
  | finish ctl waits run finished =>
    refine ⟨_, _, stream_step h ctl waits (step_quiet ctl step) run, ?_⟩
    refine ⟨placed, roomy, announces.stepInv _ _ _ _ _ _ _ run h.writeInv, rfl, rfl, ?_, ?_, ?_, ?_⟩
    · exact h.traffic.trans s.traffic.add_nothing.symm
    · intro created
      cases created
    · intro p suspended
      cases suspended
    · rintro p ⟨⟩
  | go ctl waits run finished =>
    have busy : s.run.recv = .running := by
      have fits := h.placed.fits
      rw [ctl] at fits
      exact fits
    refine ⟨_, _, stream_step h ctl waits (step_quiet ctl step) run, ?_⟩
    refine ⟨placed, roomy, announces.stepInv _ _ _ _ _ _ _ run h.writeInv, rfl, rfl, ?_, ?_, ?_, ?_⟩
    · exact h.traffic.trans s.traffic.add_nothing.symm
    · intro created
      cases busy.symm.trans created
    · intro p suspended
      cases busy.symm.trans suspended
    · rintro p ⟨⟩
      rfl

end

/-- As long as no `async_write` goes on after the kernel has taken something, an end on its executor
does what the end without it does. -/
theorem poll_simulates (leaves : e.LeavesRoom) (announces : e.Announces) :
    Party.Simulates e.poll e.stream SendsOnce (Polls e) where
  start := {
    placed := placed_reach .start
    roomy := roomy_reach leaves .start
    writeInv := OutputBuffer.init_inv
    conn := rfl
    app := rfl
    traffic := rfl
    created := fun _ => rfl
    suspended := by
      intro p suspended
      cases suspended
    running := by
      intro p running
      cases running }
  received h := congrArg Traffic.received h.traffic
  sent h := congrArg Traffic.sent h.traffic
  step related once hs := polls_step leaves announces related once hs

end

namespace Rpc

variable {Args R D Msg M Req Resp : Type}

def polled (g : Rpc Args R D Msg M Req Resp) :
    Machine (PollRun (ClientState R D Msg) ClientPoint (MethodCall Args R D) ×
      PollRun (List (Call M Req Resp)) (RecvPoint M) Empty)
      (ConnOp (Nat → UInt8) (MethodCall Args R D) ⊕ ConnOp ((Nat → UInt8) × Resp) Empty) :=
  g.channel.endpoint.poll.joined g.server.endpoint.poll

/-- On their executors too the calls whose tasks have run are answered in order. -/
theorem polled_calls_are_answered_in_order [Nonempty Resp] (g : Rpc Args R D Msg M Req Resp)
    (s : PollRun (ClientState R D Msg) ClientPoint (MethodCall Args R D) ×
      PollRun (List (Call M Req Resp)) (RecvPoint M) Empty)
    (h : g.polled.ReachWith (Party.Both SendsOnce SendsOnce) s)
    (fits : g.Fits (numbered s.1.traffic.submitted) s.2.run.app) :
    g.InOrder (numbered s.1.traffic.submitted) s.2.run.app s.1.run.app := by
  have client := poll_simulates g.channel.leavesRoom (g.channel.announces (D := D))
  have server := poll_simulates g.server.leavesRoom g.server.announces
  obtain ⟨u, v, left, right, answered⟩ := inOrder_of_simulates client server h
  rw [left.traffic, right.app, left.app] at answered
  exact answered fits

/- One call. Its request goes out in two pieces, the second after an EPOLLOUT, and the server
suspends between them. -/
theorem polled_calls_are_answered_in_order_in_pieces :
    ∃ s, byteRpc.polled.ReachWith (Party.Both SendsOnce SendsOnce) s ∧
      s.1.traffic.submitted = [byteCall 5] ∧ s.1.run.app.endings = [(0, .run () () 50)] ∧
      byteRpc.InOrder (numbered s.1.traffic.submitted) s.2.run.app s.1.run.app := by
  obtain ⟨s, hs, submitted, endings, served⟩ : ∃ s, byteRpc.polled.run byteRpc.polled.start
      [.inl (.startSend []), .inl .startRecv, .inl (.read [.eagain]), .inl .proceed, .inl .await,
        .inl (.spawn (byteCall 5)), .inl (.startCall fun _ => 0),
        .inl (.resumeWrite [[.accepted 7, .eagain]]),
        .inr (.startSend []), .inr .startRecv, .inr (.read [.data [1, 0, 0, 0, 0, 1, 0], .eagain]),
        .inr .proceed, .inr .await, .inr (.step (fun _ => 0, 50)), .inr (.step (fun _ => 0, 50)),
        .inr (.read [.eagain]), .inr .proceed, .inr .await, .inl (.event false true false),
        .inl (.resumeWrite [[.accepted 3]]), .inr (.event false false true), .inr .resumeRead,
        .inr (.read [.data [0, 0, 5], .eagain]), .inr .proceed, .inr .await,
        .inr (.step (fun _ => 0, 50)), .inr (.step (fun _ => 0, 50)),
        .inr (.resumeWrite [[.accepted 10]]), .inl (.event false false true), .inl .resumeRead,
        .inl (.read [.data [1, 0, 0, 0, 0, 1, 0, 0, 0, 50], .eagain]), .inl .proceed, .inl .await,
        .inl (.step fun _ => 0), .inl (.step fun _ => 0), .inl (.step fun _ => 0),
        .inl (.step fun _ => 0)] = some s ∧
      s.1.traffic.submitted = [byteCall 5] ∧ s.1.run.app.endings = [(0, .run () () 50)] ∧
      s.2.run.app = [⟨ClientChannel.reqHeader 0 (byteCall 5), (), 5, 50⟩] := ⟨_, rfl, rfl, rfl, rfl⟩
  have reached : byteRpc.polled.ReachWith (Party.Both SendsOnce SendsOnce) s := by
    refine Machine.reachWith_run .start (Machine.along_of_forall ?_ _) hs
    simp [Party.Both, SendsOnce, TakesOnce, accepts]
  have fits : byteRpc.Fits (numbered s.1.traffic.submitted) s.2.run.app := by
    rw [submitted, served]
    exact byteRpc_fits
  exact ⟨s, reached, submitted, endings, polled_calls_are_answered_in_order byteRpc s reached fits⟩

end Rpc

end Xuanqiong
