import Xuanqiong.Scheduler.Notify

/-! The end of an executor's loop. `stop_` is tested at the top of the loop only; the kqueue
executor wakes the loop when it is set, the other two leave it to the next event or to the timeout
of the wait. -/
namespace Xuanqiong

/- `stop` is the value `stop_` starts with. -/
structure ExecutorKind where
  stop : Bool
  stopWakes : Bool
  rearms : Bool
  timeout : Bool

/- The constructors of the first two leave `stop_` as they find it. The wait for the ring has no
timeout, whatever the options say. -/
def epollExecutor (stop : Bool) (timeout : Int) : ExecutorKind :=
    ⟨stop, false, false, decide (0 ≤ timeout)⟩

def uringExecutor (stop : Bool) : ExecutorKind := ⟨stop, false, false, false⟩

def kqueueExecutor (timeout : Int) : ExecutorKind := ⟨false, true, true, decide (0 ≤ timeout)⟩

inductive Phase where
  | top
  | inside
  | ended
  deriving DecidableEq

inductive StopPoint where
  | running
  | set
  | returned
  deriving DecidableEq

structure LoopRun (ι τ : Type) where
  notify : Notify ι τ
  phase : Phase
  stop : StopPoint

inductive LoopOp (ι τ : Type) where
  | protocol (op : NotifyOp ι τ)
  | signalFails (i : ι)
  | test
  | stop
  | trigger (ok : Bool)

def NotifyOp.ofSpawn {ι τ : Type} : NotifyOp ι τ → Bool
  | .push _ _ | .exchange _ | .signal _ => true
  | _ => false

def NotifyOp.next {ι τ : Type} (phase : Phase) : NotifyOp ι τ → Phase
  | .handled => .top
  | _ => phase

section

variable {ι τ : Type} [DecidableEq ι]

def loopMachine (ι τ : Type) [DecidableEq ι] (armed : Bool) (kind : ExecutorKind) :
    Machine (LoopRun ι τ) (LoopOp ι τ) where
  start := ⟨(notifyMachine ι τ armed).start, .top, if kind.stop then .returned else .running⟩
  step s
    | .protocol op =>
      if op.ofSpawn || s.phase = .inside then
        ((notifyMachine ι τ armed).step s.notify op).map fun n =>
          { s with notify := n, phase := op.next s.phase }
      else none
    | .signalFails i =>
      if s.notify.spawn i = .signal then
        some { s with notify := { s.notify with
          shouldNotify := kind.rearms || s.notify.shouldNotify
          spawn := Function.update s.notify.spawn i .idle } }
      else none
    | .test =>
      if s.phase = .top then some { s with phase := if s.stop = .running then .inside else .ended }
      else none
    | .stop =>
      if s.stop = .running then some { s with stop := if kind.stopWakes then .set else .returned }
      else none
    | .trigger ok =>
      if s.stop = .set then
        some { s with
          notify := { s.notify with wake := if ok then s.notify.wake + 1 else s.notify.wake }
          stop := .returned }
      else none

def quietMachine (ι τ : Type) [DecidableEq ι] (armed : Bool) (kind : ExecutorKind) :
    Machine (LoopRun ι τ) (LoopOp ι τ) where
  start := (loopMachine ι τ armed kind).start
  step s
    | .protocol (.push _ _) => none
    | op => (loopMachine ι τ armed kind).step s op

/-- What the executor's thread does next. The wait returns by itself for a wake event, or when it
times out. -/
def Due (kind : ExecutorKind) (s : LoopRun ι τ) : LoopOp ι τ → Prop
  | .test => s.phase = .top
  | .protocol .pop => s.phase = .inside ∧ s.notify.loop = .popping
  | .protocol .arm => s.phase = .inside ∧ s.notify.loop = .arming
  | .protocol .waitReturn =>
    s.phase = .inside ∧ s.notify.loop = .waiting ∧ (0 < s.notify.wake ∨ kind.timeout = true)
  | .protocol (.wakeEvent taken) =>
    s.phase = .inside ∧ s.notify.loop = .handling ∧ 0 < s.notify.wake ∧ taken = s.notify.wake
  | .protocol .disarm => s.phase = .inside ∧ s.notify.loop = .woken
  | .protocol .handled => s.phase = .inside ∧ s.notify.loop = .handling ∧ s.notify.wake = 0
  | _ => False

def LoopRun.Idle (s : LoopRun ι τ) : Prop := ∀ i, s.notify.spawn i = .idle

def LoopEnds (armed : Bool) (kind : ExecutorKind) (s : LoopRun ι τ) : Prop :=
  (quietMachine ι τ armed kind).Halts (fun _ => true) (Due kind) (fun t => t.phase = .ended) s

variable {armed : Bool} {kind : ExecutorKind} {s t : LoopRun ι τ}

omit [DecidableEq ι] in
/- The loop is not in a wait that nothing ends. -/
def LoopRun.Wakes (kind : ExecutorKind) (s : LoopRun ι τ) : Prop :=
  s.phase = .inside → kind.timeout = true ∨ 0 < s.notify.wake ∨ s.notify.loop = .handling ∨
    s.notify.loop = .woken

/- How much there is left to do once `stop_` is set: the tasks in the queue, the wake events, and
the way to the top of the loop. -/
def LoopRun.left (s : LoopRun ι τ) : Nat :=
  match s.phase with
  | .ended => 0
  | .top => 1
  | .inside =>
    2 * s.notify.wake +
      match s.notify.loop with
      | .popping => 5 + s.notify.taskQueue.length
      | .arming => 4
      | .waiting => 3
      | .handling => 2
      | .woken => 3

structure LoopRun.Ending (kind : ExecutorKind) (s : LoopRun ι τ) : Prop where
  stop : s.stop = .returned
  idle : s.Idle
  wakes : s.Wakes kind

theorem protocol_step {op : NotifyOp ι τ}
    (hs : (loopMachine ι τ armed kind).step s (.protocol op) = some t) :
    (op.ofSpawn = true ∨ s.phase = .inside) ∧
    ∃ n, (notifyMachine ι τ armed).step s.notify op = some n ∧
      t = { s with notify := n, phase := op.next s.phase } := by
  obtain ⟨guard, hs⟩ := Option.ite_none_right_eq_some.mp hs
  obtain ⟨n, step, rfl⟩ := Option.map_eq_some_iff.mp hs
  exact ⟨by simpa using guard, n, step, rfl⟩

theorem wakes_turn {op : NotifyOp ι τ} {n : Notify ι τ} (h : s.Wakes kind)
    (hs : (notifyMachine ι τ armed).step s.notify op = some n) :
    LoopRun.Wakes kind { s with notify := n, phase := op.next s.phase } := by
  cases op <;> simp only [notifyMachine, Option.ite_none_right_eq_some, Option.some.injEq] at hs
  case push =>
    obtain ⟨_, rfl⟩ := hs
    exact h
  case exchange =>
    obtain ⟨_, hs⟩ := hs
    split at hs <;> cases hs <;> exact h
  case signal =>
    obtain ⟨_, rfl⟩ := hs
    exact fun _ => Or.inr (Or.inl (Nat.succ_pos _))
  case pop =>
    obtain ⟨popping, hs⟩ := hs
    split at hs
    · cases hs
      exact fun inside => by simpa [popping] using h inside
    · cases hs
      exact h
  case arm =>
    obtain ⟨arming, rfl⟩ := hs
    exact fun inside => by simpa [arming] using h inside
  case waitReturn | wakeEvent | disarm =>
    obtain ⟨_, rfl⟩ := hs
    exact fun _ => by simp
  case handled =>
    obtain ⟨_, rfl⟩ := hs
    exact fun inside => by cases inside

theorem left_turn {op : NotifyOp ι τ} {n : Notify ι τ} (inside : s.phase = .inside)
    (ofLoop : op.ofSpawn = false) (hs : (notifyMachine ι τ armed).step s.notify op = some n) :
    n.spawn = s.notify.spawn ∧
      1 + LoopRun.left { s with notify := n, phase := op.next s.phase } ≤ s.left := by
  cases op <;> simp only [notifyMachine, Option.ite_none_right_eq_some, Option.some.injEq] at hs
  case push | exchange | signal => cases ofLoop
  case pop =>
    obtain ⟨popping, hs⟩ := hs
    split at hs
    · rename_i empty
      cases hs
      refine ⟨rfl, ?_⟩
      simp [LoopRun.left, NotifyOp.next, inside, popping, empty]
      omega
    · rename_i task rest next
      cases hs
      refine ⟨rfl, ?_⟩
      simp [LoopRun.left, NotifyOp.next, inside, popping, next]
      omega
  case arm =>
    obtain ⟨arming, rfl⟩ := hs
    refine ⟨rfl, ?_⟩
    simp [LoopRun.left, NotifyOp.next, inside, arming]
    omega
  case waitReturn =>
    obtain ⟨waiting, rfl⟩ := hs
    refine ⟨rfl, ?_⟩
    simp [LoopRun.left, NotifyOp.next, inside, waiting]
    omega
  case wakeEvent taken =>
    obtain ⟨⟨handling, some, enough⟩, rfl⟩ := hs
    refine ⟨rfl, ?_⟩
    simp [LoopRun.left, NotifyOp.next, inside, handling]
    omega
  case disarm =>
    obtain ⟨woken, rfl⟩ := hs
    refine ⟨rfl, ?_⟩
    simp [LoopRun.left, NotifyOp.next, inside, woken]
    omega
  case handled =>
    obtain ⟨handling, rfl⟩ := hs
    refine ⟨rfl, ?_⟩
    simp [LoopRun.left, NotifyOp.next, inside, handling]

theorem quiet_loop {op : LoopOp ι τ} (hs : (quietMachine ι τ armed kind).step s op = some t) :
    (∀ i task, op ≠ .protocol (.push i task)) ∧
    (loopMachine ι τ armed kind).step s op = some t := by
  simp only [quietMachine] at hs
  split at hs
  · cases hs
  · rename_i other
    exact ⟨other, hs⟩

theorem idle_ofSpawn {op : NotifyOp ι τ} {n m : Notify ι τ} (idle : ∀ i, n.spawn i = .idle)
    (other : ∀ i task, op ≠ .push i task) (hs : (notifyMachine ι τ armed).step n op = some m) :
    op.ofSpawn = false := by
  cases op with
  | push i task => exact absurd rfl (other i task)
  | exchange i | signal i =>
    obtain ⟨busy, _⟩ := Option.ite_none_right_eq_some.mp hs
    rw [idle i] at busy
    cases busy
  | _ => rfl

theorem loop_ending_step {op : LoopOp ι τ} (h : s.Ending kind)
    (hs : (quietMachine ι τ armed kind).step s op = some t) : t.Ending kind ∧
    1 + t.left ≤ s.left := by
  obtain ⟨other, hs⟩ := quiet_loop hs
  cases op with
  | protocol op =>
    obtain ⟨guard, n, step, rfl⟩ := protocol_step hs
    have ofLoop : op.ofSpawn = false :=
      idle_ofSpawn h.idle (fun i task eq => other i task (congrArg LoopOp.protocol eq)) step
    have inside : s.phase = .inside := guard.resolve_left (by rw [ofLoop]; decide)
    obtain ⟨spawn, less⟩ := left_turn inside ofLoop step
    exact ⟨⟨h.stop, fun i => (congrFun spawn i).trans (h.idle i), wakes_turn h.wakes step⟩, less⟩
  | signalFails i =>
    obtain ⟨busy, _⟩ := Option.ite_none_right_eq_some.mp hs
    rw [h.idle i] at busy
    cases busy
  | test =>
    obtain ⟨top, hs⟩ := Option.ite_none_right_eq_some.mp hs
    cases hs
    have leaves : (if s.stop = .running then Phase.inside else .ended) = .ended :=
      if_neg (by rw [h.stop]; decide)
    rw [leaves]
    refine ⟨⟨h.stop, h.idle, fun again => by cases again⟩, ?_⟩
    simp [LoopRun.left, top]
  | stop =>
    obtain ⟨running, _⟩ := Option.ite_none_right_eq_some.mp hs
    rw [h.stop] at running
    cases running
  | trigger ok =>
    obtain ⟨set, _⟩ := Option.ite_none_right_eq_some.mp hs
    rw [h.stop] at set
    cases set

theorem turn_step {op : NotifyOp ι τ} {n : Notify ι τ} (inside : s.phase = .inside)
    (ofLoop : op.ofSpawn = false) (step : (notifyMachine ι τ armed).step s.notify op = some n) :
    (quietMachine ι τ armed kind).step s (.protocol op) =
      some { s with notify := n, phase := op.next s.phase } := by
  have turn : (loopMachine ι τ armed kind).step s (.protocol op) =
      some { s with notify := n, phase := op.next s.phase } := by
    simp only [loopMachine, inside, decide_true, Bool.or_true, if_true, step, Option.map_some]
  cases op with
  | push => cases ofLoop
  | _ => exact turn

theorem pop_step {n : Notify ι τ} (popping : n.loop = .popping) :
    ∃ m, (notifyMachine ι τ armed).step n .pop = some m := by
  cases queue : n.taskQueue with
  | nil => exact ⟨{ n with loop := .arming }, by simp only [notifyMachine, popping, queue, if_true]⟩
  | cons _ rest =>
    exact ⟨{ n with taskQueue := rest }, by simp only [notifyMachine, popping, queue, if_true]⟩

theorem due_step {op : LoopOp ι τ} (due : Due kind s op) :
    ∃ u, (quietMachine ι τ armed kind).step s op = some u := by
  cases op with
  | test => exact ⟨_, if_pos due⟩
  | signalFails | stop | trigger => cases due
  | protocol op =>
    cases op with
    | push | exchange | signal => cases due
    | pop =>
      obtain ⟨m, step⟩ := pop_step due.2
      exact ⟨_, turn_step due.1 rfl step⟩
    | arm | disarm => exact ⟨_, turn_step due.1 rfl (if_pos due.2)⟩
    | waitReturn | handled => exact ⟨_, turn_step due.1 rfl (if_pos due.2.1)⟩
    | wakeEvent taken =>
      obtain ⟨inside, handling, some, rfl⟩ := due
      exact ⟨_, turn_step inside rfl (if_pos ⟨handling, some, Nat.le_refl _⟩)⟩

omit [DecidableEq ι] in
theorem LoopRun.Ending.due (h : s.Ending kind) : s.phase = .ended ∨ ∃ op, Due kind s op := by
  cases phase : s.phase with
  | ended => exact Or.inl rfl
  | top => exact Or.inr ⟨.test, phase⟩
  | inside =>
    refine Or.inr ?_
    cases loop : s.notify.loop with
    | popping => exact ⟨.protocol .pop, phase, loop⟩
    | arming => exact ⟨.protocol .arm, phase, loop⟩
    | woken => exact ⟨.protocol .disarm, phase, loop⟩
    | waiting =>
      refine ⟨.protocol .waitReturn, phase, loop, ?_⟩
      rcases h.wakes phase with timeout | woken | handling | woken
      · exact Or.inr timeout
      · exact Or.inl woken
      · rw [loop] at handling
        cases handling
      · rw [loop] at woken
        cases woken
    | handling =>
      by_cases woken : 0 < s.notify.wake
      · exact ⟨.protocol (.wakeEvent s.notify.wake), phase, loop, woken, rfl⟩
      · exact ⟨.protocol .handled, phase, loop, by omega⟩

theorem LoopRun.Ending.ends (h : s.Ending kind) : LoopEnds armed kind s := by
  refine Machine.halts_of_measure (I := LoopRun.Ending kind) LoopRun.left ?_ ?_ ?_ h
  · exact fun s op t h hs => (loop_ending_step h hs).1
  · intro s op t h hs
    simpa using (loop_ending_step h hs).2
  · intro s h
    rcases h.due with ended | due
    · exact Or.inl ended
    · exact Or.inr ⟨due, fun op due => due_step due⟩

/- The trigger of `stop`, whose result nobody looks at, succeeds. -/
def TriggersStop (_ : LoopRun ι τ) : LoopOp ι τ → Prop
  | .trigger ok => ok = true
  | _ => True

theorem stopped_step (wakes : kind.stopWakes = true) (s : LoopRun ι τ) (op : LoopOp ι τ)
    (t : LoopRun ι τ) (h : s.stop = .returned → s.Wakes kind) (ok : TriggersStop s op)
    (hs : (loopMachine ι τ armed kind).step s op = some t) : t.stop = .returned → t.Wakes kind := by
  intro returned
  cases op with
  | protocol op =>
    obtain ⟨_, n, step, rfl⟩ := protocol_step hs
    exact wakes_turn (h returned) step
  | signalFails i =>
    obtain ⟨_, hs⟩ := Option.ite_none_right_eq_some.mp hs
    cases hs
    exact h returned
  | test =>
    obtain ⟨_, hs⟩ := Option.ite_none_right_eq_some.mp hs
    cases hs
    intro inside
    have stop : s.stop = .returned := returned
    rw [stop] at inside
    cases inside
  | stop =>
    obtain ⟨_, hs⟩ := Option.ite_none_right_eq_some.mp hs
    cases hs
    rw [wakes] at returned
    cases returned
  | trigger ok' =>
    obtain ⟨_, hs⟩ := Option.ite_none_right_eq_some.mp hs
    cases hs
    cases (ok : ok' = true)
    exact fun _ => Or.inr (Or.inl (Nat.succ_pos _))

structure LoopRun.Blocked (s : LoopRun ι τ) : Prop where
  inside : s.phase = .inside
  waiting : s.notify.loop = .waiting
  silent : s.notify.wake = 0

theorem blocked_never_ends (untimed : kind.timeout = false) (h : s.Blocked) :
    ¬ LoopEnds armed kind s := by
  rintro ⟨bound, ends⟩
  rcases (ends [] s rfl).2 with ended | ⟨⟨op, due⟩, _⟩
  · rw [h.inside] at ended
    cases ended
  · have waiting := h.waiting
    have silent := h.silent
    cases op with
    | protocol op =>
      cases op <;> simp_all [Due]
    | test =>
      rw [Due, h.inside] at due
      cases due
    | _ => cases due

theorem stopped_at_first {op : LoopOp ι τ} (h : s.stop ≠ .running ∧ s.phase ≠ .inside)
    (hs : (loopMachine ι τ armed kind).step s op = some t) : t.stop ≠ .running ∧
    t.phase ≠ .inside := by
  obtain ⟨stop, phase⟩ := h
  cases op with
  | protocol op =>
    obtain ⟨guard, n, _, rfl⟩ := protocol_step hs
    refine ⟨stop, ?_⟩
    cases op with
    | handled => exact absurd (guard.resolve_left Bool.false_ne_true) phase
    | _ => exact phase
  | signalFails i =>
    obtain ⟨_, hs⟩ := Option.ite_none_right_eq_some.mp hs
    cases hs
    exact ⟨stop, phase⟩
  | test =>
    obtain ⟨_, hs⟩ := Option.ite_none_right_eq_some.mp hs
    cases hs
    refine ⟨stop, fun inside => ?_⟩
    rw [if_neg stop] at inside
    cases inside
  | stop =>
    obtain ⟨running, _⟩ := Option.ite_none_right_eq_some.mp hs
    exact absurd running stop
  | trigger ok =>
    obtain ⟨_, hs⟩ := Option.ite_none_right_eq_some.mp hs
    cases hs
    refine ⟨fun running => ?_, phase⟩
    cases running

/-- After `stop` has returned and with nobody spawning, the loop ends if its wait times out, and
also if `stop` wakes it. Without either, a loop that is in its wait with no wake event pending
when `stop` is called does not end. If `stop_` happens to be set from the start, the loop is
never entered. -/
theorem stopped_loop_ends (armed : Bool) (kind : ExecutorKind) :
    (kind.timeout = true → ∀ s : LoopRun ι τ, s.stop = .returned → s.Idle → LoopEnds armed kind s) ∧
    (kind.stopWakes = true → kind.stop = false → ∀ s : LoopRun ι τ,
      (loopMachine ι τ armed kind).ReachWith TriggersStop s → s.stop = .returned → s.Idle →
        LoopEnds armed kind s) ∧
    (kind.stopWakes = false → kind.timeout = false → ∀ s t : LoopRun ι τ, s.Blocked →
      (loopMachine ι τ armed kind).step s .stop = some t → ¬ LoopEnds armed kind t) ∧
    (kind.stop = true → ∀ s : LoopRun ι τ, (loopMachine ι τ armed kind).Reach s →
      s.phase ≠ .inside) := by
  refine ⟨?_, ?_, ?_, ?_⟩
  · intro timed s returned idle
    exact LoopRun.Ending.ends ⟨returned, idle, fun _ => Or.inl timed⟩
  · intro wakes running s h returned idle
    have start : (loopMachine ι τ armed kind).start.stop = .running := by
      simp only [loopMachine, running, Bool.false_eq_true, if_false]
    have inv : s.stop = .returned → s.Wakes kind := by
      refine h.invariant (fun returned => ?_) (stopped_step wakes)
      rw [start] at returned
      cases returned
    exact LoopRun.Ending.ends ⟨returned, idle, inv returned⟩
  · intro _ untimed s t blocked hs
    obtain ⟨_, hs⟩ := Option.ite_none_right_eq_some.mp hs
    cases hs
    exact blocked_never_ends untimed ⟨blocked.inside, blocked.waiting, blocked.silent⟩
  · intro stop s h
    refine (h.invariant (I := fun s => s.stop ≠ .running ∧ s.phase ≠ .inside) ?_ ?_).2
    · simp only [loopMachine, stop, if_true]
      exact ⟨by decide, by decide⟩
    · exact fun s op t inv hs => stopped_at_first inv hs

/- `stop` finds the loop in its wait: woken in the kqueue executor, left there in the other two. -/
theorem stopped_loop_ends_when_woken :
    (∃ s, (loopMachine Unit Nat true (kqueueExecutor (-1))).run
        (loopMachine Unit Nat true (kqueueExecutor (-1))).start
        [.test, .protocol .pop, .protocol .arm, .stop, .trigger true] = some s ∧
      s.notify.loop = .waiting ∧ LoopEnds true (kqueueExecutor (-1)) s) ∧
    ∀ kind, kind = epollExecutor false (-1) ∨ kind = uringExecutor false →
      ∃ s t, (loopMachine Unit Nat false kind).run (loopMachine Unit Nat false kind).start
        [.test, .protocol .pop, .protocol .arm] = some s ∧
      (loopMachine Unit Nat false kind).step s .stop = some t ∧ ¬ LoopEnds false kind t := by
  constructor
  · obtain ⟨s, hs, waiting, returned, idle⟩ : ∃ s,
        (loopMachine Unit Nat true (kqueueExecutor (-1))).run
        (loopMachine Unit Nat true (kqueueExecutor (-1))).start
        [.test, .protocol .pop, .protocol .arm, .stop, .trigger true] = some s ∧
        s.notify.loop = .waiting ∧ s.stop = .returned ∧ s.notify.spawn () = .idle :=
      ⟨_, rfl, rfl, rfl, rfl⟩
    have along : (loopMachine Unit Nat true (kqueueExecutor (-1))).Along TriggersStop
        (loopMachine Unit Nat true (kqueueExecutor (-1))).start
        [.test, .protocol .pop, .protocol .arm, .stop, .trigger true] :=
      Machine.along_of_forall (by simp [TriggersStop]) _
    have reached := Machine.reachWith_run .start along hs
    exact ⟨s, hs, waiting,
      (stopped_loop_ends true (kqueueExecutor (-1))).2.1 rfl rfl s reached returned
      fun _ => idle⟩
  · intro kind polled
    obtain ⟨s, t, hs, ht, blocked⟩ : ∃ s t, (loopMachine Unit Nat false kind).run
        (loopMachine Unit Nat false kind).start [.test, .protocol .pop, .protocol .arm] = some s ∧
        (loopMachine Unit Nat false kind).step s .stop = some t ∧ s.Blocked := by
      rcases polled with rfl | rfl <;> exact ⟨_, _, rfl, rfl, rfl, rfl, rfl⟩
    have left : kind.stopWakes = false ∧ kind.timeout = false := by
      rcases polled with rfl | rfl <;> exact ⟨rfl, rfl⟩
    exact ⟨s, t, hs, ht, (stopped_loop_ends false kind).2.2.1 left.1 left.2 s t blocked ht⟩

end

end Xuanqiong
