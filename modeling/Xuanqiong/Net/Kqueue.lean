import Xuanqiong.Net.ConnInv

/-! A polled connection on a `KqueueExecutor`. Each direction has a filter of its own, and the loop
handles what one `kevent` has returned event by event, whether or not the filter of an event is
still there by then. As long as such a batch has its writable event first, the connection does what
it does on an `EpollExecutor`. -/
namespace Xuanqiong

inductive EvFilt where
  | read
  | write
  deriving DecidableEq

structure Kevent where
  filter : EvFilt
  eof : Bool
  deriving DecidableEq

inductive EventType where
  | read
  | write
  | delete
  | unknown
  deriving DecidableEq

structure Filters where
  read : Bool
  write : Bool
  deriving DecidableEq

namespace Filters

def has (f : Filters) : EvFilt → Bool
  | .read => f.read
  | .write => f.write

def addEvent (f : Filters) : EventType → Filters
  | .read => { f with read := true }
  | .write => { f with write := true }
  | .delete => ⟨false, false⟩
  | .unknown => f

/- What epoll has for the same events. It cannot have the writable one alone. -/
def interest (f : Filters) : Option Interest :=
  if f.read then some (if f.write then .readWrite else .read) else none

end Filters

section

variable {σ P X T : Type}

/- The event that a step of the coroutines adds, in `RegisterReadAwaiter`, `WriteAwaiter` or
`ReadAwaiter`. -/
def ConnRun.adds (s t : ConnRun σ P T) : ConnOp X T → Option EventType
  | .startRecv => some .read
  | .startSend _ | .resumeWrite _ => if t.send = .write then some .write else none
  | .await => if s.conn.closed then some .delete else none
  | _ => none

/-- `batch` is what the last `kevent` returned and the loop has not come to. The interest in `run`
is that of epoll, and nothing here looks at it. -/
structure KqueueRun (σ P T : Type) where
  run : ConnRun σ P T
  filters : Filters
  batch : List Kevent

inductive KqueueOp (X T : Type) where
  | conn (op : ConnOp X T)
  | kevent (events : List Kevent)
  | next

/- The loop of the executor over the next event. -/
def KqueueRun.event (e : Endpoint σ P X T) (s : KqueueRun σ P T) : Option (KqueueRun σ P T) :=
  match s.run.ctl, s.batch with
  | .idle, ev :: rest =>
    if s.run.ended e then none
    else if ev.eof then
      some ⟨{ s.run with conn := s.run.conn.close }, s.filters.addEvent .delete, rest⟩
    else
      match ev.filter with
      | .write =>
        some ⟨{ s.run with ctl := .writable false }, { s.filters with write := false }, rest⟩
      | .read => some ⟨{ s.run with ctl := .readable }, s.filters, rest⟩
  | _, _ => none

/-- Tasks are run between two batches. `kevent` has at most one event for a filter. -/
def kqueueMachine (e : Endpoint σ P X T) : Machine (KqueueRun σ P T) (KqueueOp X T) where
  start := ⟨(connMachine e).start, ⟨false, false⟩, []⟩
  step s
    | .conn op =>
      if op.isEvent || (op.isTask && !s.batch.isEmpty) then none
      else ((connMachine e).step s.run op).map fun t =>
        ⟨t, (s.run.adds t op).elim s.filters s.filters.addEvent, s.batch⟩
    | .kevent events =>
      match s.run.ctl, s.batch with
      | .idle, [] =>
        if !s.run.ended e && events.all (fun ev => s.filters.has ev.filter) &&
            decide (events.map Kevent.filter).Nodup then
          some { s with batch := events }
        else none
      | _, _ => none
    | .next => s.event e

/- The writable event comes first, and an end that it reports is reported for the other direction
too. -/
def Kevent.Orderly (events : List Kevent) : Prop :=
  events.Pairwise fun a b => a.filter = .write ∧ (a.eof = true → b.eof = true)

namespace KqueueRun

/- The connection with what epoll would have for its filters. -/
def view (s : KqueueRun σ P T) : ConnRun σ P T := { s.run with interest := s.filters.interest }

/- The steps meet `ok` as if they were made on an `EpollExecutor`, and batches are orderly. -/
def Within (ok : ConnRun σ P T → ConnOp X T → Prop) (s : KqueueRun σ P T) : KqueueOp X T → Prop
  | .conn op => ok s.view op
  | .kevent events => Kevent.Orderly events
  | .next => True

theorem Within.mono {ok ok' : ConnRun σ P T → ConnOp X T → Prop}
    (weaker : ∀ c op, ok c op → ok' c op) (s : KqueueRun σ P T) (op : KqueueOp X T)
    (h : s.Within ok op) : s.Within ok' op := by
  cases op with
  | conn op => exact weaker s.view op h
  | kevent events => exact h
  | next => trivial

instance (ok : ConnRun σ P T → ConnOp X T → Prop) [∀ c op, Decidable (ok c op)]
    (s : KqueueRun σ P T) :
    ∀ op, Decidable (s.Within ok op)
  | .conn op => inferInstanceAs (Decidable (ok s.view op))
  | .kevent events => inferInstanceAs (Decidable (events.Pairwise _))
  | .next => inferInstanceAs (Decidable True)

/- The loop has heard of the end of the connection and has not come back to it since. -/
structure HungUp (e : Endpoint σ P X T) (s : KqueueRun σ P T) : Prop where
  closed : s.run.conn.closed = true
  filters : s.filters = ⟨false, false⟩
  idle : s.run.ctl = .idle
  started : s.run.recv ≠ .created
  held : s.run.ended e = false

/-- The connection does what it would do on an `EpollExecutor`. Every event that is still to be
handled has its filter, or reports the end again. -/
structure Follows (e : Endpoint σ P X T) (s : KqueueRun σ P T) : Prop where
  placed : s.view.Placed e
  both : s.filters.write = true → s.filters.read = true
  fresh : s.run.recv = .created → s.run.conn.writeBytes = 0
  orderly : Kevent.Orderly s.batch
  distinct : (s.batch.map Kevent.filter).Nodup
  pending : ∀ ev ∈ s.batch, s.filters.has ev.filter = true ∨ ev.eof = true ∧ s.HungUp e
  between : s.batch ≠ [] → s.run.ctl = .idle ∨ s.run.ctl = .writable false

end KqueueRun

variable {e : Endpoint σ P X T} {s t : KqueueRun σ P T} {op : KqueueOp X T}

/-- The steps, each with what it needs and what it leaves. -/
inductive KqueueMove (e : Endpoint σ P X T) (s : KqueueRun σ P T) :
    KqueueOp X T → KqueueRun σ P T → Prop where
  | conn {op : ConnOp X T} {r : ConnRun σ P T} (other : op.isEvent = false)
      (tasks : op.isTask = true → s.batch = []) (step : (connMachine e).step s.run op = some r) :
      KqueueMove e s (.conn op) ⟨r, (s.run.adds r op).elim s.filters s.filters.addEvent, s.batch⟩
  | kevent {events} (ctl : s.run.ctl = .idle) (done : s.batch = []) (held : s.run.ended e = false)
      (registered : ∀ ev ∈ events, s.filters.has ev.filter = true)
      (distinct : (events.map Kevent.filter).Nodup) :
      KqueueMove e s (.kevent events) { s with batch := events }
  | eof {ev rest} (ctl : s.run.ctl = .idle) (batch : s.batch = ev :: rest)
      (held : s.run.ended e = false) (ends : ev.eof = true) :
      KqueueMove e s .next ⟨{ s.run with conn := s.run.conn.close }, ⟨false, false⟩, rest⟩
  | write {ev rest} (ctl : s.run.ctl = .idle) (batch : s.batch = ev :: rest)
      (held : s.run.ended e = false) (goes : ev.eof = false) (filter : ev.filter = .write) :
      KqueueMove e s .next
        ⟨{ s.run with ctl := .writable false }, { s.filters with write := false }, rest⟩
  | read {ev rest} (ctl : s.run.ctl = .idle) (batch : s.batch = ev :: rest)
      (held : s.run.ended e = false) (goes : ev.eof = false) (filter : ev.filter = .read) :
      KqueueMove e s .next ⟨{ s.run with ctl := .readable }, s.filters, rest⟩

theorem kqueue_move (hs : (kqueueMachine e).step s op = some t) : KqueueMove e s op t := by
  cases op with
  | conn op =>
    simp only [kqueueMachine, Option.ite_none_left_eq_some, Bool.or_eq_true,
      Bool.and_eq_true, not_or, not_and] at hs
    obtain ⟨⟨other, tasks⟩, hs⟩ := hs
    obtain ⟨u, step, rfl⟩ := Option.map_eq_some_iff.mp hs
    refine .conn (Bool.eq_false_iff.mpr other) (fun task => ?_) step
    simpa using tasks task
  | kevent events =>
    simp only [kqueueMachine] at hs
    split at hs
    · rename_i ctl done
      simp only [Option.ite_none_right_eq_some, Bool.and_eq_true, Bool.not_eq_true',
        List.all_eq_true, decide_eq_true_eq, Option.some.injEq] at hs
      obtain ⟨⟨⟨held, registered⟩, distinct⟩, rfl⟩ := hs
      exact .kevent ctl done held registered distinct
    · cases hs
  | next =>
    simp only [kqueueMachine, KqueueRun.event] at hs
    split at hs
    · rename_i ev rest ctl batch
      split at hs
      · cases hs
      · rename_i held
        have held := Bool.eq_false_iff.mpr held
        split at hs
        · cases hs
          exact .eof ctl batch held ‹_›
        · rename_i goes
          have goes := Bool.eq_false_iff.mpr goes
          split at hs
          · cases hs
            exact .write ctl batch held goes ‹_›
          · cases hs
            exact .read ctl batch held goes ‹_›
    · cases hs

theorem interest_none {f : Filters} : f.interest = none ↔ f.read = false := by
  unfold Filters.interest
  split <;> simp_all

theorem interest_write (f : Filters) :
    (f.addEvent .write).interest = f.interest.map fun _ => .readWrite := by
  unfold Filters.interest Filters.addEvent
  split <;> simp_all

theorem interest_read {f : Filters} (both : f.write = true → f.read = true) :
    (f.addEvent .read).interest = some (f.interest.getD .read) := by
  obtain ⟨read, write⟩ := f
  cases read <;> cases write <;> simp_all [Filters.interest, Filters.addEvent]

theorem interestAfter_filters {f : Filters} (both : f.write = true → f.read = true)
    (c r : ConnRun σ P T) (op : ConnOp X T) :
    c.interestAfter r f.interest op = ((c.adds r op).elim f f.addEvent).interest := by
  cases op with
  | startRecv => exact (interest_read both).symm
  | startSend rounds | resumeWrite rounds =>
    simp only [ConnRun.interestAfter, ConnRun.adds]
    split
    · exact (interest_write f).symm
    · rfl
  | await =>
    simp only [ConnRun.interestAfter, ConnRun.adds]
    split <;> rfl
  | _ => rfl

theorem interest_step {c r : ConnRun σ P T} {f : Filters} {op : ConnOp X T}
    (both : f.write = true → f.read = true) (other : op.isEvent = false)
    (hs : (connMachine e).step c op = some r) :
    (connMachine e).step { c with interest := f.interest } op =
      some { r with interest := ((c.adds r op).elim f f.addEvent).interest } := by
  have noEvent : ∀ hup out readable, op ≠ .event hup out readable := by
    rintro hup out readable rfl
    cases other
  by_cases spawn : ∃ request, op = .spawn request
  · obtain ⟨request, rfl⟩ := spawn
    cases hs
    rfl
  · have framed := framed_step f.interest [] noEvent (fun request same => spawn ⟨request, same⟩) hs
    rw [interestAfter_filters both] at framed
    simpa only [List.append_nil] using framed

theorem sendLoop_empty {c d : Connection} {rounds : List (List WriteResult)} {f : SendFn}
    (empty : c.writeBytes = 0) (hs : sendLoop c rounds = some (d, f)) : d = c ∧ f ≠ .write := by
  unfold sendLoop at hs
  rw [if_pos empty] at hs
  split at hs <;>
  · cases hs
    exact ⟨rfl, nofun⟩

theorem adds_write {s r : ConnRun σ P T} {op : ConnOp X T} (adds : s.adds r op = some .write) :
    r.send = .write ∧ ∃ rounds, op = .startSend rounds ∨ op = .resumeWrite rounds := by
  cases op with
  | startSend rounds =>
    simp only [ConnRun.adds, Option.ite_none_right_eq_some] at adds
    exact ⟨adds.1, rounds, Or.inl rfl⟩
  | resumeWrite rounds =>
    simp only [ConnRun.adds, Option.ite_none_right_eq_some] at adds
    exact ⟨adds.1, rounds, Or.inr rfl⟩
  | await =>
    simp only [ConnRun.adds, Option.ite_none_right_eq_some] at adds
    cases adds.2
  | _ => cases adds

namespace KqueueRun

theorem Follows.idle_of_created (h : s.Follows e) (recv : s.run.recv = .created) :
    s.run.ctl = .idle := by
  have fits : s.run.ctl.Fits s.run.recv s.filters.interest := h.placed.fits
  rw [recv] at fits
  cases ctl : s.run.ctl with
  | idle => rfl
  | recv | reading | awaiting =>
    rw [ctl] at fits
    cases fits
  | writable | readable =>
    rw [ctl] at fits
    exact absurd rfl fits.2.1
  | call =>
    rw [ctl] at fits
    exact absurd rfl fits.2

theorem Follows.registered (h : s.Follows e) {op : ConnOp X T} {r : ConnRun σ P T}
    (move : ConnMove e s.view op r) (adds : s.run.adds r op = some .write) :
    s.filters.read = true := by
  obtain ⟨write, rounds, rfl | rfl⟩ := adds_write adds
  · cases move with
    | startSend ctl queue run =>
      have empty := h.fresh (h.placed.send_of_queue queue).1
      exact absurd write (sendLoop_empty empty run).2
  · cases move with
    | @resumeWrite _ q _ site run =>
      have opened : s.view.conn.closed = false := by
        refine Bool.eq_false_iff.mpr fun closed => ?_
        cases write.symm.trans ((resume_spec run).2.2.mpr closed)
      have interest := h.placed.registered opened (h.placed.after site q).1
      by_contra read
      exact interest (interest_none.mpr (Bool.eq_false_iff.mpr read))

theorem Follows.both_after (h : s.Follows e) {op : ConnOp X T} {r : ConnRun σ P T}
    (move : ConnMove e s.view op r) :
    ((s.run.adds r op).elim s.filters s.filters.addEvent).write = true →
      ((s.run.adds r op).elim s.filters s.filters.addEvent).read = true := by
  cases adds : s.run.adds r op with
  | none => exact h.both
  | some event =>
    cases event with
    | read => exact fun _ => rfl
    | write => exact fun _ => h.registered move adds
    | delete => exact fun write => nomatch write
    | unknown => exact h.both

theorem Follows.fresh_after (h : s.Follows e) {op : ConnOp X T} {r : ConnRun σ P T}
    (move : ConnMove e s.view op r) (recv : r.recv = .created) : r.conn.writeBytes = 0 := by
  have busy : ∀ {ctl : Ctl P T}, s.run.ctl = ctl → s.run.recv = .created → ctl = .idle := by
    rintro ctl rfl created
    exact h.idle_of_created created
  cases move with
  | spawn | close => exact h.fresh recv
  | startSend ctl queue run =>
    have empty := h.fresh (h.placed.send_of_queue queue).1
    rw [← (sendLoop_empty empty run).1] at empty
    exact empty
  | startRecv ctl queue => cases recv
  | startCall ctl queue run => exact absurd recv (h.placed.call_of_queue queue).1
  | hangUp ctl interest | writable ctl interest | readable ctl interest =>
    cases (h.placed.unregistered recv).symm.trans interest
  | resumeRead ctl suspended => cases recv
  | @resumeWrite _ q _ site run => exact absurd recv (h.placed.after site q).1
  | read ctl waits run => cases busy ctl recv
  | proceed ctl opened => cases busy ctl recv
  | deleted ctl closed => cases busy ctl recv
  | suspended ctl opened => cases recv
  | received ctl opened => cases busy ctl recv
  | finish ctl waits run finished => cases recv
  | go ctl waits run finished => cases busy ctl recv

theorem Follows.waiting (h : s.Follows e) {op : ConnOp X T} {r : ConnRun σ P T}
    (more : s.batch ≠ []) (other : op.isEvent = false) (tasks : op.isTask = true → s.batch = [])
    (move : ConnMove e s.view op r) :
    (s.run.adds r op = none ∧ r.ctl = s.run.ctl ∧ (s.HungUp e →
        r.conn.closed = true ∧ r.recv ≠ .created ∧ r.ended e = false)) ∨
      (∃ rounds, op = .resumeWrite rounds) ∧ s.run.ctl = .writable false ∧ r.ctl = .idle := by
  have quiet : ∀ {ctl : Ctl P T}, s.run.ctl = ctl → ctl = .idle ∨ ctl = .writable false := by
    rintro ctl rfl
    exact h.between more
  cases move with
  | spawn => exact Or.inl ⟨rfl, rfl, fun hung => ⟨hung.closed, hung.started, hung.held⟩⟩
  | close => exact Or.inl ⟨rfl, rfl, fun hung => ⟨rfl, hung.started, hung.held⟩⟩
  | startSend | startRecv | startCall => exact absurd (tasks rfl) more
  | hangUp | writable | readable => cases other
  | resumeRead ctl => cases quiet ctl <;> contradiction
  | @resumeWrite rounds q next site run =>
    have site : s.run.afterResume e = some next := site
    unfold ConnRun.afterResume at site
    rcases h.between more with ctl | ctl
    · rw [ctl] at site
      cases site
    · rw [ctl] at site
      cases site
      exact Or.inr ⟨⟨rounds, rfl⟩, ctl, rfl⟩
  | read ctl | proceed ctl | deleted ctl | suspended ctl | received ctl | finish ctl | go ctl =>
    cases quiet ctl <;> contradiction

theorem has_addEvent_write {f : Filters} {filter : EvFilt} (has : f.has filter = true) :
    (f.addEvent .write).has filter = true := by
  cases filter with
  | read => exact has
  | write => rfl

theorem Follows.conn_step (h : s.Follows e) {op : ConnOp X T} {r : ConnRun σ P T}
    (other : op.isEvent = false) (tasks : op.isTask = true → s.batch = [])
    (hs : (connMachine e).step s.run op = some r) :
    (connMachine e).step s.view op =
        some (view ⟨r, (s.run.adds r op).elim s.filters s.filters.addEvent, s.batch⟩) ∧
      Follows e ⟨r, (s.run.adds r op).elim s.filters s.filters.addEvent, s.batch⟩ := by
  have step := interest_step h.both other hs
  have move := conn_move step
  have both := h.both_after move
  have fresh := h.fresh_after move
  refine ⟨step, placed_step h.placed move, both, fresh, h.orderly, h.distinct, ?_, ?_⟩
  · intro ev pending
    have more : s.batch ≠ [] := List.ne_nil_of_mem pending
    rcases h.waiting more other tasks move with ⟨adds, ctl, keeps⟩ | ⟨⟨rounds, rfl⟩, ctl, _⟩
    · have adds : s.run.adds r op = none := adds
      simp only [adds, Option.elim_none]
      refine (h.pending ev pending).imp_right fun ⟨ends, hung⟩ => ⟨ends, ?_⟩
      obtain ⟨closed, started, held⟩ := keeps hung
      exact ⟨closed, hung.filters, ctl.trans hung.idle, started, held⟩
    · left
      rcases h.pending ev pending with has | ⟨_, hung⟩
      · simp only [ConnRun.adds]
        split
        · exact has_addEvent_write has
        · exact has
      · cases ctl.symm.trans hung.idle
  · intro more
    rcases h.waiting more other tasks move with ⟨_, ctl, _⟩ | ⟨_, _, ctl⟩
    · have same : r.ctl = s.run.ctl := ctl
      simp only [same]
      exact h.between more
    · exact Or.inl ctl

theorem interest_of_has (both : s.filters.write = true → s.filters.read = true) {filter : EvFilt}
    (has : s.filters.has filter = true) : ∃ i, s.view.interest = some i := by
  have read : s.filters.read = true := by
    cases filter with
    | read => exact has
    | write => exact both has
  refine Option.ne_none_iff_exists'.mp fun none => ?_
  cases read.symm.trans (interest_none.mp none)

theorem Follows.started (h : s.Follows e) {ev : Kevent} (pending : ev ∈ s.batch) :
    s.run.recv ≠ .created := by
  intro created
  rcases h.pending ev pending with has | ⟨_, hung⟩
  · obtain ⟨i, interest⟩ := interest_of_has h.both has
    cases (h.placed.unregistered created).symm.trans interest
  · exact hung.started created

theorem event_hup {c : ConnRun σ P T} {i : Interest} (ctl : c.ctl = .idle)
    (interest : c.interest = some i) (held : c.ended e = false) :
    (connMachine e).step c (.event true false false) =
      some { c with conn := c.conn.close, interest := none } := by
  simp [connMachine, ConnRun.event, ctl, interest, held]

theorem event_out {c : ConnRun σ P T} (ctl : c.ctl = .idle)
    (interest : c.interest = some .readWrite) (held : c.ended e = false) :
    (connMachine e).step c (.event false true false) =
      some { c with interest := some .read, ctl := .writable false } := by
  simp [connMachine, ConnRun.event, ctl, interest, held]

theorem event_in {c : ConnRun σ P T} {i : Interest} (ctl : c.ctl = .idle)
    (interest : c.interest = some i) (held : c.ended e = false) :
    (connMachine e).step c (.event false false true) =
      some { c with ctl := .readable } := by
  simp [connMachine, ConnRun.event, ctl, interest, held]

theorem Follows.eof_step (h : s.Follows e) {ev : Kevent} {rest : List Kevent}
    (ctl : s.run.ctl = .idle) (batch : s.batch = ev :: rest) (held : s.run.ended e = false)
    (ends : ev.eof = true) :
    let t : KqueueRun σ P T := ⟨{ s.run with conn := s.run.conn.close }, ⟨false, false⟩, rest⟩
    t.Follows e ∧
      (t.view = s.view ∨ (connMachine e).step s.view (.event true false false) = some t.view) := by
  have simulated : view ⟨{ s.run with conn := s.run.conn.close }, ⟨false, false⟩, rest⟩ = s.view ∨
      (connMachine e).step s.view (.event true false false) =
        some (view ⟨{ s.run with conn := s.run.conn.close }, ⟨false, false⟩, rest⟩) := by
    rcases h.pending ev (batch ▸ List.mem_cons_self) with has | ⟨_, hung⟩
    · right
      obtain ⟨i, interest⟩ := interest_of_has h.both has
      exact event_hup ctl interest held
    · left
      have same : s.run.conn.close = s.run.conn := by
        rw [Connection.close, ← hung.closed]
      rw [view, view, hung.filters, same]
  have placed : (view ⟨{ s.run with conn := s.run.conn.close }, ⟨false, false⟩, rest⟩).Placed
      e := by
    rcases simulated with same | step
    · rw [same]
      exact h.placed
    · exact placed_step h.placed (conn_move step)
  have started := h.started (batch ▸ List.mem_cons_self : ev ∈ s.batch)
  have orderly := List.pairwise_cons.mp (batch ▸ h.orderly)
  have distinct := List.nodup_cons.mp (batch ▸ h.distinct : ((ev :: rest).map Kevent.filter).Nodup)
  refine ⟨⟨placed, nofun, h.fresh, orderly.2, distinct.2, ?_, fun _ => Or.inl ctl⟩, simulated⟩
  intro later there
  exact Or.inr ⟨(orderly.1 later there).2 ends, rfl, rfl, ctl, started, held⟩

theorem Follows.write_step (h : s.Follows e) {ev : Kevent} {rest : List Kevent}
    (ctl : s.run.ctl = .idle) (batch : s.batch = ev :: rest) (held : s.run.ended e = false)
    (goes : ev.eof = false) (filter : ev.filter = .write) :
    let t : KqueueRun σ P T :=
      ⟨{ s.run with ctl := .writable false }, { s.filters with write := false }, rest⟩
    t.Follows e ∧ (connMachine e).step s.view (.event false true false) = some t.view := by
  have write : s.filters.write = true := by
    rcases h.pending ev (batch ▸ List.mem_cons_self) with has | ⟨ends, _⟩
    · rw [filter] at has
      exact has
    · cases goes.symm.trans ends
  have read := h.both write
  have step : (connMachine e).step s.view (.event false true false) =
      some (view ⟨{ s.run with ctl := .writable false }, { s.filters with
        write := false }, rest⟩) := by
    have before : s.view.interest = some .readWrite := by
      simp only [view, Filters.interest, read, write, if_true]
    rw [event_out (c := s.view) ctl before held]
    simp only [view, Filters.interest, read, if_true, Bool.false_eq_true, if_false]
  have orderly := List.pairwise_cons.mp (batch ▸ h.orderly)
  have distinct := List.nodup_cons.mp (batch ▸ h.distinct : ((ev :: rest).map Kevent.filter).Nodup)
  refine ⟨⟨placed_step h.placed (conn_move step), nofun, h.fresh, orderly.2, distinct.2, ?_,
    fun _ => Or.inr rfl⟩, step⟩
  intro later there
  have other : later.filter = .read := by
    cases hf : later.filter with
    | read => rfl
    | write =>
      have twice := distinct.1
      rw [filter, ← hf] at twice
      exact absurd (List.mem_map_of_mem there) twice
  rw [other]
  exact Or.inl read

theorem Follows.read_step (h : s.Follows e) {ev : Kevent} {rest : List Kevent}
    (ctl : s.run.ctl = .idle) (batch : s.batch = ev :: rest) (held : s.run.ended e = false)
    (goes : ev.eof = false) (filter : ev.filter = .read) :
    let t : KqueueRun σ P T := ⟨{ s.run with ctl := .readable }, s.filters, rest⟩
    t.Follows e ∧ (connMachine e).step s.view (.event false false true) = some t.view := by
  have last : rest = [] := by
    refine List.eq_nil_iff_forall_not_mem.mpr fun later there => ?_
    cases filter.symm.trans ((List.pairwise_cons.mp (batch ▸ h.orderly)).1 later there).1
  subst last
  have has : s.filters.has ev.filter = true := by
    rcases h.pending ev (batch ▸ List.mem_cons_self) with has | ⟨ends, _⟩
    · exact has
    · cases goes.symm.trans ends
  have step : (connMachine e).step s.view (.event false false true) =
      some (view ⟨{ s.run with ctl := .readable }, s.filters, []⟩) := by
    obtain ⟨i, interest⟩ := interest_of_has h.both has
    exact event_in ctl interest held
  refine ⟨⟨placed_step h.placed (conn_move step), h.both, h.fresh, List.Pairwise.nil,
    List.nodup_nil, nofun, fun more => absurd rfl more⟩, step⟩

end KqueueRun

/- The step from `s` to `t` as one on an `EpollExecutor`; the loop itself may have nothing
to do there. -/
def KqueueRun.Matches (e : Endpoint σ P X T) (s t : KqueueRun σ P T) : KqueueOp X T → Prop
  | .conn op => (connMachine e).step s.view op = some t.view
  | .kevent _ | .next => t.view = s.view ∨
      ∃ op : ConnOp X T, op.isEvent = true ∧ (connMachine e).step s.view op = some t.view

/-- With orderly batches the connection makes every step as on an `EpollExecutor`. -/
theorem kqueue_step (h : s.Follows e) {ok : ConnRun σ P T → ConnOp X T → Prop}
    (within : s.Within ok op) (hs : (kqueueMachine e).step s op = some t) : t.Follows e ∧
    s.Matches e t op := by
  cases kqueue_move hs with
  | conn other tasks step =>
    obtain ⟨same, follows⟩ := h.conn_step other tasks step
    exact ⟨follows, same⟩
  | kevent ctl done held registered distinct =>
    refine ⟨⟨h.placed, h.both, h.fresh, within, distinct, ?_, fun _ => Or.inl ctl⟩, Or.inl rfl⟩
    exact fun ev there => Or.inl (registered ev there)
  | eof ctl batch held ends =>
    obtain ⟨follows, same | step⟩ := h.eof_step ctl batch held ends
    · exact ⟨follows, Or.inl same⟩
    · exact ⟨follows, Or.inr ⟨_, rfl, step⟩⟩
  | write ctl batch held goes filter =>
    obtain ⟨follows, step⟩ := h.write_step ctl batch held goes filter
    exact ⟨follows, Or.inr ⟨_, rfl, step⟩⟩
  | read ctl batch held goes filter =>
    obtain ⟨follows, step⟩ := h.read_step ctl batch held goes filter
    exact ⟨follows, Or.inr ⟨_, rfl, step⟩⟩

theorem kqueue_start (e : Endpoint σ P X T) : (kqueueMachine e).start.Follows e where
  placed := placed_reach .start
  both := nofun
  fresh _ := rfl
  orderly := List.Pairwise.nil
  distinct := List.nodup_nil
  pending := nofun
  between more := absurd rfl more

/-- A connection on a `KqueueExecutor` is, but for its filters, in a run of one on an
`EpollExecutor`. -/
theorem kqueue_reach {ok : ConnRun σ P T → ConnOp X T → Prop}
    (events : ∀ (c : ConnRun σ P T) (op : ConnOp X T), op.isEvent = true → ok c op)
    (h : (kqueueMachine e).ReachWith (KqueueRun.Within ok) s) :
    s.Follows e ∧ (connMachine e).ReachWith ok s.view := by
  induction h with
  | start => exact ⟨kqueue_start e, .start⟩
  | @next s t op _ within hs ih =>
    obtain ⟨follows, matched⟩ := kqueue_step ih.1 within hs
    refine ⟨follows, ?_⟩
    cases op with
    | conn op => exact ih.2.next within matched
    | kevent _ | next =>
      rcases matched with same | ⟨op, event, step⟩
      · exact same ▸ ih.2
      · exact ih.2.next (events _ op event) step

end

end Xuanqiong
