import Xuanqiong.Scheduler.Executor

/-! What the executor makes of the tasks it is given. -/
namespace Xuanqiong

section

variable {ι τ : Type} [DecidableEq ι]

theorem executor_start (armed : Bool) : (executorMachine ι τ armed).start.Inv where
  queue := mpmc_reach_inv .start
  pushing := fun _ => .outside
  popping := .outside

theorem executor_reach {armed : Bool} {ok : ExecutorRun ι τ → ExecutorOp ι τ → Prop}
    {s : ExecutorRun ι τ} (h : (executorMachine ι τ armed).ReachWith ok s) : s.Inv :=
  h.invariant (executor_start armed) fun _ _ _ inv _ hs =>
  (executor_follows inv hs).elim fun _ f => f.2.inv

theorem executor_spawn {armed : Bool} {s s' : ExecutorRun ι τ} {i : ι} {task : τ}
    (hs : (executorMachine ι τ armed).step s (.spawn i task) = some s') :
    s'.spawned i = s.spawned i ++ [task] := by
  obtain ⟨_, hs⟩ := Option.ite_none_right_eq_some.mp hs
  obtain ⟨_, _, rfl⟩ := Option.map_eq_some_iff.mp hs
  exact Function.update_self i _ s.spawned

theorem executor_spawned {armed : Bool} {s s' : ExecutorRun ι τ} {op : ExecutorOp ι τ}
    (other : op.isSpawn = false) (hs : (executorMachine ι τ armed).step s op = some s') :
    s'.spawned = s.spawned := by
  cases op with
  | spawn => cases other
  | access t =>
    cases t <;> obtain ⟨_, _, rfl⟩ := Option.map_eq_some_iff.mp hs <;> rfl
  | failWeak t =>
    obtain ⟨_, _, rfl⟩ := Option.map_eq_some_iff.mp hs
    rfl
  | pop =>
    obtain ⟨_, hs⟩ := Option.ite_none_right_eq_some.mp hs
    obtain ⟨_, _, rfl⟩ := Option.map_eq_some_iff.mp hs
    rfl
  | exchange i =>
    obtain ⟨_, hs⟩ := Option.ite_none_right_eq_some.mp hs
    split at hs <;> cases hs <;> rfl
  | signal | arm | waitReturn | wakeEvent | disarm | handled =>
    obtain ⟨_, hs⟩ := Option.ite_none_right_eq_some.mp hs
    cases hs
    rfl

omit [DecidableEq ι] in
theorem order_eq (s : ExecutorRun ι τ) :
    s.fifo.order = s.taskQueue.queue.tailClaims.map Prod.snd := by
  change List.map _ _ ++ List.map _ _ = _
  rw [← List.map_append, List.take_append_drop]

omit [DecidableEq ι] in
theorem Popping.ran {c : CallState (QueueCall (ι × τ)) (QueueResult (ι × τ))} {l : LoopPoint}
    {left : List (ι × τ)} {ran : List (Option (ι × τ))} (h : Popping c l left ran) :
    ∃ tasks, ran = tasks.map some ∧ tasks <+: left := by
  cases h with
  | outside | unclaimed | empty => exact ⟨left, rfl, List.prefix_rfl⟩
  | @claimed _ before task last => exact ⟨before, rfl, last ▸ List.prefix_append before [task]⟩

omit [DecidableEq ι] in
theorem Pushing.spawned {i : ι} {c : CallState (QueueCall (ι × τ)) (QueueResult (ι × τ))}
    {p : SpawnPoint} {tasks spawned : List τ} (h : Pushing i c p tasks spawned) :
    tasks <+: spawned := by
  cases h with
  | outside | claimed => exact List.prefix_rfl
  | @unclaimed _ task => exact List.prefix_append tasks [task]

omit [DecidableEq ι] in
theorem Pushing.all_of_pushed {i : ι} {c : CallState (QueueCall (ι × τ)) (QueueResult (ι × τ))}
    {p : SpawnPoint} {tasks spawned : List τ} (h : Pushing i c p tasks spawned)
    (pushed : spawnPoint c p = .pushed) : spawned = tasks := by
  cases h with
  | outside | claimed => rfl
  | unclaimed => cases pushed

/-- What a step other than the call of a `spawn` does to the order of the tasks and to those that
have been run. -/
inductive TaskMove (s s' : ExecutorRun ι τ) : Prop where
  | stays (order : s'.fifo.order = s.fifo.order) (ran : s'.ran = s.ran)
  | claims (i : ι) (task : τ) (order : s'.fifo.order = s.fifo.order ++ [(i, task)])
      (next : s.spawned i = tasksOf i s.fifo.order ++ [task]) (ran : s'.ran = s.ran)
  | runs (task : ι × τ) (order : s'.fifo.order = s.fifo.order) (ran : s'.ran = s.ran ++ [some task])

theorem push_task_move {s : ExecutorRun ι τ} (inv : s.Inv) {i : ι}
    {queue : MpmcRun (Option ι) (ι × τ)} {spawn : ι → SpawnPoint}
    (hs : (mpmcMachine _ _).step s.taskQueue (.advance (some i)) = some queue) :
    TaskMove s { s with taskQueue := queue, spawn := spawn } := by
  obtain ⟨c, calls, effect⟩ := advance_linear inv.queue hs
  obtain ⟨own, ⟨same, _⟩ | ⟨task, claimed, _, pushed⟩⟩ := (inv.pushing i).effect effect
  · exact .stays (congrArg Fifo.order same) rfl
  · have order : queue.linear.state.order = s.fifo.order ++ [(i, task)] := by
      rw [claimed, Fifo.order, ← List.append_assoc]
      rfl
    have next : s.spawned i = tasksOf i queue.linear.state.order := own.all_of_pushed pushed
    rw [order, tasksOf_snoc_self] at next
    exact .claims i task order next rfl

theorem pop_task_move {s : ExecutorRun ι τ} (inv : s.Inv) {queue : MpmcRun (Option ι) (ι × τ)}
    {l : LoopPoint} (hs : (mpmcMachine _ _).step s.taskQueue (.advance none) = some queue) :
    TaskMove s { s with
      taskQueue := queue, loop := l, ran := ranAfter (s.returns none) s.ran } := by
  obtain ⟨c, calls, effect⟩ := advance_linear inv.queue hs
  obtain ⟨own, order, _⟩ := inv.popping.effect effect
  obtain ⟨tasks, ran, _⟩ := own.ran
  have ran : ranAfter (s.returns none) s.ran = tasks.map some := ran
  unfold ranAfter at ran ⊢
  split at ran
  · rename_i task _
    obtain ⟨before, last, rfl, _, alone⟩ := List.append_eq_map_iff.mp ran
    obtain ⟨done, rfl, rfl⟩ := List.map_eq_singleton_iff.mp alone
    exact .runs done order rfl
  · exact .stays order rfl

theorem executor_task_move {armed : Bool} {s s' : ExecutorRun ι τ} {op : ExecutorOp ι τ}
    (inv : s.Inv) (other : op.isSpawn = false)
    (hs : (executorMachine ι τ armed).step s op = some s') : TaskMove s s' := by
  cases op with
  | spawn => cases other
  | access t =>
    cases t with
    | none =>
      obtain ⟨queue, step, rfl⟩ := Option.map_eq_some_iff.mp hs
      exact pop_task_move inv step
    | some i =>
      obtain ⟨queue, step, rfl⟩ := Option.map_eq_some_iff.mp hs
      exact push_task_move inv step
  | failWeak t =>
    obtain ⟨queue, step, rfl⟩ := Option.map_eq_some_iff.mp hs
    refine .stays ?_ rfl
    simp only [ExecutorRun.fifo, failWeak_linear step]
  | pop =>
    obtain ⟨_, hs⟩ := Option.ite_none_right_eq_some.mp hs
    obtain ⟨queue, step, rfl⟩ := Option.map_eq_some_iff.mp hs
    obtain ⟨_, state, _⟩ := pop_linear step
    exact .stays (congrArg Fifo.order state) rfl
  | exchange i =>
    obtain ⟨_, hs⟩ := Option.ite_none_right_eq_some.mp hs
    split at hs <;> cases hs <;> exact .stays rfl rfl
  | signal | arm | waitReturn | wakeEvent | disarm | handled =>
    obtain ⟨_, hs⟩ := Option.ite_none_right_eq_some.mp hs
    cases hs
    exact .stays rfl rfl

theorem executor_spawn_move {armed : Bool} {s s' : ExecutorRun ι τ} {i : ι} {task : τ} (inv : s.Inv)
    (hs : (executorMachine ι τ armed).step s (.spawn i task) = some s') :
    s'.fifo.order = s.fifo.order ∧ s'.ran = s.ran ∧ s.spawned i = tasksOf i s.fifo.order ∧
      s'.spawned = Function.update s.spawned i (s.spawned i ++ [task]) := by
  obtain ⟨_, hs⟩ := Option.ite_none_right_eq_some.mp hs
  obtain ⟨queue, step, rfl⟩ := Option.map_eq_some_iff.mp hs
  obtain ⟨free, state, _⟩ := push_linear step
  exact ⟨congrArg Fifo.order state, rfl, (inv.pushing i).all free, rfl⟩

/-- The executor runs no empty function; it runs tasks in the order in which their `push` claimed
`tail_index_`, and those of one thread in the order in which it spawned them, none of them twice and
without leaving one out. -/
theorem executor_runs_tasks_in_spawn_order (armed : Bool) (s : ExecutorRun ι τ)
    (h : (executorMachine ι τ armed).Reach s) :
    ∃ tasks, s.ran = tasks.map some ∧ tasks <+: s.taskQueue.queue.tailClaims.map Prod.snd ∧
      ∀ i, tasksOf i tasks <+: s.spawned i := by
  have inv := executor_reach h
  obtain ⟨tasks, ran, left⟩ := inv.popping.ran
  have order : tasks <+: s.fifo.order := left.trans (List.prefix_append _ _)
  refine ⟨tasks, ran, order_eq s ▸ order, fun i => ?_⟩
  exact (tasksOf_mono i order).trans (inv.pushing i).spawned

def executorTasks : List (ExecutorOp Bool Nat) :=
  .spawn false 1 :: .spawn true 2 :: List.replicate 7 (.access (some true)) ++
    List.replicate 7 (.access (some false)) ++ .pop :: List.replicate 12 (.access none)

theorem executor_runs_tasks_in_spawn_order_of_two_threads :
    ∃ s, (executorMachine Bool Nat false).run
      (executorMachine Bool Nat false).start executorTasks = some s ∧
      s.ran = [some (true, 2)] ∧ ∃ tasks, s.ran = tasks.map some ∧
        tasks <+: s.taskQueue.queue.tailClaims.map Prod.snd ∧
        ∀ i, tasksOf i tasks <+: s.spawned i := by
  have run : ((executorMachine Bool Nat false).run (executorMachine Bool Nat false).start
      executorTasks).map (·.ran) = some [some (true, 2)] := by decide +kernel
  obtain ⟨s, hs, ran⟩ := Option.map_eq_some_iff.mp run
  exact ⟨s, hs, ran, executor_runs_tasks_in_spawn_order false s (Machine.reach_run .start hs)⟩

def ExecutorRun.ArmsNoticed (s : ExecutorRun ι τ) : ExecutorOp ι τ → Prop
  | .arm => Xuanqiong.ArmsNoticed s.notify .arm
  | _ => True

theorem executor_notified {armed : Bool} {s : ExecutorRun ι τ}
    (h : (executorMachine ι τ armed).ReachWith ExecutorRun.ArmsNoticed s) :
    (notifyMachine ι (ι × τ) armed).ReachWith ArmsNoticed s.notify := by
  induction h with
  | start => exact .start
  | next before ok hs ih =>
    obtain ⟨ops, arms, follows⟩ := executor_follows (executor_reach before) hs
    refine Machine.reachWith_run ih ?_ follows.run
    rcases arms with ⟨rfl, rfl⟩ | quiet
    · exact ⟨ok, fun _ _ => trivial⟩
    · refine Machine.along_of_forall (fun op hop n => ?_) _
      cases op with
      | arm => exact absurd rfl (quiet _ hop)
      | _ => trivial

/- The executor is in its wait, nothing is on its way to wake it, and nobody is in `spawn`. -/
structure ExecutorRun.Asleep (s : ExecutorRun ι τ) : Prop where
  waiting : s.loop = .waiting
  silent : s.wake = 0
  idle : ∀ i, s.spawn i = .idle ∧ s.taskQueue.threads (some i) = .idle

omit [DecidableEq ι] in
theorem ExecutorRun.Asleep.unnoticed {s : ExecutorRun ι τ} (h : s.Asleep) : ¬ Noticed s.notify := by
  rintro (woken | ⟨i, busy⟩)
  · have : s.notify.wake = 0 := h.silent
    omega
  · refine busy ?_
    change spawnPoint (s.taskQueue.queue.stage (s.taskQueue.threads (some i))) (s.spawn i) = _
    rw [(h.idle i).1, (h.idle i).2]
    rfl

/-- All that was spawned has been run: whatever a thread has spawned, in its order. -/
def ExecutorRun.RanAll (s : ExecutorRun ι τ) : Prop :=
  ∃ tasks, s.ran = tasks.map some ∧ ∀ i, tasksOf i tasks = s.spawned i

theorem ExecutorRun.Asleep.ran_all {s : ExecutorRun ι τ} (h : s.Asleep) (inv : s.Inv)
    (empty : s.fifo.waiting = []) : s.RanAll := by
  have out : s.calls none = .idle := inv.popping.out (by rw [h.waiting]; decide)
  refine ⟨s.fifo.left, inv.popping.all out, fun i => ?_⟩
  have idle : s.calls (some i) = .idle := by
    change s.taskQueue.queue.stage (s.taskQueue.threads (some i)) = .idle
    rw [(h.idle i).2]
    rfl
  rw [(inv.pushing i).all idle, Fifo.order, empty, List.append_nil]

theorem left_behind {s : ExecutorRun ι τ} (inv : s.Inv) (away : s.loop ≠ .popping)
    (some_left : s.fifo.waiting ≠ []) : ¬ s.RanAll := by
  rintro ⟨tasks, ran, all⟩
  obtain ⟨⟨i, task⟩, rest, next⟩ := List.exists_cons_of_ne_nil some_left
  have out : s.calls none = .idle := inv.popping.out away
  have left : tasks = s.fifo.left := by
    have := ran.symm.trans (inv.popping.all out)
    exact List.map_injective_iff.mpr (Option.some_injective _) this
  have claimed : tasksOf i s.fifo.order <+: tasksOf i s.fifo.left := by
    rw [← left, all i]
    exact (inv.pushing i).spawned
  have longer := claimed.length_le
  rw [Fifo.order, next, tasksOf, tasksOf, List.filter_append,
    List.filter_cons_of_pos (by simp)] at longer
  simp only [List.map_append, List.map_cons, List.length_append, List.length_cons] at longer
  omega

/-- When the executor sleeps, no wake event is pending and nobody is spawning, every task that
was ever spawned has been run, provided that the flag was armed only over an empty queue, with a
wake event pending or while a `spawn` was under way. An arming at any other time leaves a task
behind at once. -/
theorem executor_leaves_no_task_behind (armed : Bool) :
    (∀ s : ExecutorRun ι τ, (executorMachine ι τ armed).ReachWith ExecutorRun.ArmsNoticed s →
      s.Asleep → s.RanAll) ∧
    ∀ s t : ExecutorRun ι τ, (executorMachine ι τ armed).Reach s → ¬ s.ArmsNoticed .arm →
      (executorMachine ι τ armed).step s .arm = some t →
        t.loop = .waiting ∧ ¬ Noticed t.notify ∧ ¬ t.RanAll := by
  constructor
  · intro s h asleep
    have protocol :=
      (executor_notified h).invariant (.away (by simp [notifyMachine])) (notify_step armed)
    have waiting : s.notify.loop = .waiting := by
      change loopPoint (s.calls none) s.loop = _
      rw [(executor_reach h).popping.out (by rw [asleep.waiting]; decide), asleep.waiting]
      rfl
    rcases protocol.noticed waiting with empty | noticed
    · exact asleep.ran_all (executor_reach h) empty
    · exact absurd noticed asleep.unnoticed
  · intro s t h unnoticed hs
    have inv := executor_reach h
    obtain ⟨arming, hs'⟩ := Option.ite_none_right_eq_some.mp hs
    obtain ⟨some_left, silent⟩ := not_or.mp unnoticed
    cases hs'
    have inv' := executor_reach (h.step hs)
    exact ⟨rfl, silent, left_behind inv' (by simp) some_left⟩

def executorTask : List (ExecutorOp Unit Nat) :=
  .spawn () 7 :: List.replicate 7 (.access (some ())) ++ .exchange () :: .pop ::
    List.replicate 12 (.access none) ++ .pop :: List.replicate 3 (.access none)

theorem executor_leaves_no_task_behind_when_asleep :
    ∃ r s, (executorMachine Unit Nat false).run
      (executorMachine Unit Nat false).start executorTask = some r ∧
      (executorMachine Unit Nat false).step r .arm = some s ∧ s.Asleep ∧ s.spawned () = [7] ∧
      s.RanAll := by
  obtain ⟨r, hr, empty, s, hs, waiting, silent, idle, out, spawned⟩ : ∃ r,
      (executorMachine Unit Nat false).run
        (executorMachine Unit Nat false).start executorTask = some r ∧
      r.fifo.waiting = [] ∧ ∃ s, (executorMachine Unit Nat false).step r .arm = some s ∧
      s.loop = .waiting ∧ s.wake = 0 ∧ s.spawn () = .idle ∧ s.taskQueue.threads (some ()) = .idle ∧
      s.spawned () = [7] := ⟨_, rfl, rfl, _, rfl, rfl, rfl, rfl, rfl, rfl⟩
  have before : (executorMachine Unit Nat false).ReachWith ExecutorRun.ArmsNoticed r := by
    refine Machine.reachWith_run .start (Machine.along_of_forall (fun op hop n => ?_) _) hr
    cases op with
    | arm => simp [executorTask] at hop
    | _ => trivial
  have noticed : r.ArmsNoticed .arm := Or.inl empty
  have asleep : s.Asleep := ⟨waiting, silent, fun _ => ⟨idle, out⟩⟩
  exact ⟨r, s, hr, hs, asleep, spawned,
    (executor_leaves_no_task_behind false).1 s (.next before noticed hs) asleep⟩

end

end Xuanqiong
