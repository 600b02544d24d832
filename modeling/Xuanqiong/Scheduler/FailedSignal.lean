import Xuanqiong.Scheduler.Stop

/-! Signals that fail. Of the three executors only the one over kqueue looks at the result. -/
namespace Xuanqiong

section

variable {ι τ : Type} [DecidableEq ι] {armed : Bool} {kind : ExecutorKind} {s t : LoopRun ι τ}

theorem told_step {op : NotifyOp ι τ} {n m : Notify ι τ} (h : n.Told)
    (hs : (notifyMachine ι τ armed).step n op = some m) : m.Told := by
  cases op <;> simp only [notifyMachine, Option.ite_none_right_eq_some, Option.some.injEq] at hs
  case push i task =>
    obtain ⟨idle, rfl⟩ := hs
    exact h.update (by rw [idle]; decide) .pushed
  case exchange i =>
    obtain ⟨pushed, hs⟩ := hs
    split at hs
    · cases hs
      exact fun _ => Or.inr (Or.inr ⟨i, Function.update_self _ _ _⟩)
    · cases hs
      exact h.update (by rw [pushed]; decide) .idle
  case signal =>
    obtain ⟨_, rfl⟩ := hs
    exact fun _ => Or.inr (Or.inl n.wake.succ_pos)
  case pop =>
    obtain ⟨popping, hs⟩ := hs
    split at hs
    · cases hs
      exact fun waiting => by cases waiting
    · cases hs
      exact h
  case arm =>
    obtain ⟨_, rfl⟩ := hs
    exact fun _ => Or.inl rfl
  case waitReturn | wakeEvent | disarm | handled =>
    obtain ⟨_, rfl⟩ := hs
    exact fun waiting => by cases waiting

theorem told_loop (rearms : kind.rearms = true) {op : LoopOp ι τ} (h : s.notify.Told)
    (hs : (loopMachine ι τ armed kind).step s op = some t) : t.notify.Told := by
  cases op with
  | protocol op =>
    obtain ⟨_, n, step, rfl⟩ := protocol_step hs
    exact told_step h step
  | signalFails i =>
    obtain ⟨_, hs⟩ := Option.ite_none_right_eq_some.mp hs
    cases hs
    exact fun _ => Or.inl (by rw [rearms, Bool.true_or])
  | trigger ok =>
    obtain ⟨_, hs⟩ := Option.ite_none_right_eq_some.mp hs
    cases hs
    refine fun waiting => (h waiting).imp id (Or.imp (fun woken => ?_) id)
    cases ok with
    | true => exact Nat.succ_pos _
    | false => exact woken
  | test | stop =>
    obtain ⟨_, hs⟩ := Option.ite_none_right_eq_some.mp hs
    cases hs
    exact h

def spawnOps (i : ι) (task : τ) : List (LoopOp ι τ) :=
  [.protocol (.push i task), .protocol (.exchange i), .protocol (.signal i)]

theorem spawn_wakes (idle : s.Idle) (flag : s.notify.shouldNotify = true) (i : ι) (task : τ) :
    ∃ t, (loopMachine ι τ armed kind).run s (spawnOps i task) = some t ∧ 0 < t.notify.wake := by
  refine ⟨{ s with notify := { s.notify with
    taskQueue := s.notify.taskQueue ++ [task], shouldNotify := false, wake := s.notify.wake + 1,
    spawn := Function.update s.notify.spawn i .idle } }, ?_, Nat.succ_pos _⟩
  simp [spawnOps, Machine.run, loopMachine, notifyMachine, NotifyOp.ofSpawn, NotifyOp.next,
    idle i, flag]

/- The loop is in its wait, and no `spawn` will wake it. -/
structure LoopRun.Deaf (s : LoopRun ι τ) : Prop where
  waiting : s.notify.loop = .waiting
  flag : s.notify.shouldNotify = false
  silent : s.notify.wake = 0
  nobody : ∀ i, s.notify.spawn i ≠ .signal

def LoopOp.ofSpawn : LoopOp ι τ → Bool
  | .protocol op => op.ofSpawn
  | .signalFails _ => true
  | _ => false

theorem deaf_step (h : s.Deaf) {op : LoopOp ι τ} (ofSpawn : op.ofSpawn = true)
    (hs : (loopMachine ι τ armed kind).step s op = some t) : t.Deaf := by
  have quiet : ∀ i p, p ≠ SpawnPoint.signal →
      ∀ j, Function.update s.notify.spawn i p j ≠ .signal := by
    intro i p other j
    by_cases hj : j = i
    · subst j
      rw [Function.update_self]
      exact other
    · rw [Function.update_of_ne hj]
      exact h.nobody j
  cases op with
  | protocol op =>
    obtain ⟨_, n, step, rfl⟩ := protocol_step hs
    cases op with
    | push i task =>
      obtain ⟨_, hs⟩ := Option.ite_none_right_eq_some.mp step
      cases hs
      exact ⟨h.waiting, h.flag, h.silent, quiet i _ (by decide)⟩
    | exchange i =>
      obtain ⟨_, hs⟩ := Option.ite_none_right_eq_some.mp step
      rw [if_neg (by rw [h.flag]; decide)] at hs
      cases hs
      exact ⟨h.waiting, h.flag, h.silent, quiet i _ (by decide)⟩
    | signal i =>
      obtain ⟨signal, _⟩ := Option.ite_none_right_eq_some.mp step
      exact absurd signal (h.nobody i)
    | _ => cases ofSpawn
  | signalFails i =>
    obtain ⟨signal, _⟩ := Option.ite_none_right_eq_some.mp hs
    exact absurd signal (h.nobody i)
  | _ => cases ofSpawn

theorem deaf_run (h : s.Deaf) {ops : List (LoopOp ι τ)} (ofSpawn : ∀ op ∈ ops, op.ofSpawn = true)
    (hr : (loopMachine ι τ armed kind).run s ops = some t) : t.Deaf := by
  induction ops generalizing s with
  | nil =>
    cases Option.some.inj hr
    exact h
  | cons op rest ih =>
    obtain ⟨u, hu, ht⟩ := Option.bind_eq_some_iff.mp hr
    exact ih (deaf_step h (ofSpawn op List.mem_cons_self) hu)
      (fun op hop => ofSpawn op (List.mem_cons_of_mem _ hop)) ht

/-- A `spawn` that puts the flag back when its signal fails leaves it to the next one to wake the
loop: whenever the loop is in its wait and nobody is spawning, the wake event is pending or the next
`spawn` makes it so. Where the failure goes unseen while the loop waits with its flag down, no wake
event is pending and nobody else is about to signal, no later `spawn` wakes the loop any more. -/
theorem failed_signal_is_made_good (armed : Bool) (kind : ExecutorKind) :
    (kind.rearms = true → ∀ s : LoopRun ι τ, (loopMachine ι τ armed kind).Reach s →
      s.notify.loop = .waiting → s.Idle → 0 < s.notify.wake ∨
        ∀ i task, ∃ t, (loopMachine ι τ armed kind).run s (spawnOps i task) = some t ∧
          0 < t.notify.wake) ∧
    (kind.rearms = false → ∀ (s t : LoopRun ι τ) (i : ι), s.notify.loop = .waiting →
      s.notify.shouldNotify = false → s.notify.wake = 0 →
      (∀ j, j ≠ i → s.notify.spawn j ≠ .signal) →
      (loopMachine ι τ armed kind).step s (.signalFails i) = some t →
        ∀ ops u, (∀ op ∈ ops, op.ofSpawn = true) → (loopMachine ι τ armed kind).run t ops = some u →
          u.Deaf) := by
  constructor
  · intro rearms s h waiting idle
    have told : s.notify.Told := by
      refine h.invariant (I := fun s => s.notify.Told) ?_ ?_
      · exact fun waiting => by cases waiting
      · exact fun s op t told hs => told_loop rearms told hs
    rcases told waiting with flag | woken | ⟨i, signal⟩
    · exact Or.inr fun i task => spawn_wakes idle flag i task
    · exact Or.inl woken
    · rw [idle i] at signal
      cases signal
  · intro rearms s t i waiting flag silent nobody hs ops u ofSpawn hr
    have deaf : t.Deaf := by
      obtain ⟨_, hs⟩ := Option.ite_none_right_eq_some.mp hs
      cases hs
      refine ⟨waiting, ?_, silent, fun j => ?_⟩
      · rw [rearms, flag]
        rfl
      · change Function.update s.notify.spawn i .idle j ≠ .signal
        by_cases hj : j = i
        · subst j
          rw [Function.update_self]
          decide
        · rw [Function.update_of_ne hj]
          exact nobody j hj
    exact deaf_run deaf ofSpawn hr

/- The only signal fails. In the kqueue executor the next `spawn` wakes the loop for both tasks, in
the other two nobody does. -/
theorem failed_signal_is_made_good_by_the_next :
    (∃ s, (loopMachine Unit Nat true (kqueueExecutor (-1))).run
        (loopMachine Unit Nat true (kqueueExecutor (-1))).start
        [.test, .protocol .pop, .protocol .arm, .protocol (.push () 6), .protocol (.exchange ()),
          .signalFails ()] = some s ∧ s.notify.taskQueue = [6] ∧ (0 < s.notify.wake ∨
        ∀ i task, ∃ t, (loopMachine Unit Nat true (kqueueExecutor (-1))).run s
          (spawnOps i task) = some t ∧
          0 < t.notify.wake)) ∧
    ∀ kind, kind = epollExecutor false (-1) ∨ kind = uringExecutor false →
      ∃ s t, (loopMachine Unit Nat false kind).run (loopMachine Unit Nat false kind).start
        [.test, .protocol .pop, .protocol .arm, .protocol (.push () 6), .protocol (.exchange ())] =
          some s ∧
      (loopMachine Unit Nat false kind).step s (.signalFails ()) = some t ∧
      ∃ u, (loopMachine Unit Nat false kind).run t
        [.protocol (.push () 7), .protocol (.exchange ())] = some u ∧ u.notify.taskQueue = [6, 7] ∧
        u.Deaf := by
  constructor
  · obtain ⟨s, hs, queue, waiting, idle⟩ : ∃ s,
        (loopMachine Unit Nat true (kqueueExecutor (-1))).run
        (loopMachine Unit Nat true (kqueueExecutor (-1))).start
        [.test, .protocol .pop, .protocol .arm, .protocol (.push () 6), .protocol (.exchange ()),
          .signalFails ()] = some s ∧ s.notify.taskQueue = [6] ∧ s.notify.loop = .waiting ∧
        s.notify.spawn () = .idle := ⟨_, rfl, rfl, rfl, rfl⟩
    exact ⟨s, hs, queue, (failed_signal_is_made_good true (kqueueExecutor (-1))).1 rfl s
      (Machine.reach_run .start hs) waiting fun _ => idle⟩
  · intro kind polled
    obtain ⟨s, t, hs, ht, u, hu, queue, waiting, flag, silent⟩ : ∃ s t,
        (loopMachine Unit Nat false kind).run
        (loopMachine Unit Nat false kind).start
        [.test, .protocol .pop, .protocol .arm, .protocol (.push () 6), .protocol (.exchange ())] =
          some s ∧
        (loopMachine Unit Nat false kind).step s (.signalFails ()) = some t ∧
        ∃ u, (loopMachine Unit Nat false kind).run t
          [.protocol (.push () 7), .protocol (.exchange ())] = some u ∧
            u.notify.taskQueue = [6, 7] ∧
        s.notify.loop = .waiting ∧ s.notify.shouldNotify = false ∧ s.notify.wake = 0 := by
      rcases polled with rfl | rfl <;> exact ⟨_, _, rfl, rfl, _, rfl, rfl, rfl, rfl, rfl⟩
    have unseen : kind.rearms = false := by rcases polled with rfl | rfl <;> rfl
    refine ⟨s, t, hs, ht, u, hu, queue, ?_⟩
    refine (failed_signal_is_made_good false kind).2 unseen s t
      () waiting flag silent ?_ ht _ u ?_ hu
    · exact fun j hj => absurd rfl hj
    · simp [LoopOp.ofSpawn, NotifyOp.ofSpawn]

end

end Xuanqiong
