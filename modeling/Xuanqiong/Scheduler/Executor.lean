import Xuanqiong.Scheduler.Notify
import Xuanqiong.Util.MpmcLinear

/-! An executor over its task queue: `spawn` on any number of threads and the loop of the executor's
own thread, down to the accesses of `push` and `pop`. It refines the notification protocol over a
plain list of tasks, and all that its proofs use of the queue is how it linearizes. -/
namespace Xuanqiong

/- `none` is the executor's own thread. A task is kept with the thread that spawned it; the last two
fields are history: the calls of `spawn` and the tasks that have been run. -/
structure ExecutorRun (ι τ : Type) where
  taskQueue : MpmcRun (Option ι) (ι × τ)
  shouldNotify : Bool
  wake : Nat
  loop : LoopPoint
  spawn : ι → SpawnPoint
  spawned : ι → List τ
  ran : List (Option (ι × τ))

inductive ExecutorOp (ι τ : Type) where
  | spawn (i : ι) (task : τ)
  | access (t : Option ι)
  | failWeak (t : Option ι)
  | exchange (i : ι)
  | signal (i : ι)
  | pop
  | arm
  | waitReturn
  | wakeEvent (taken : Nat)
  | disarm
  | handled

def ExecutorOp.isSpawn {ι τ : Type} : ExecutorOp ι τ → Bool
  | .spawn _ _ => true
  | _ => false

section

variable {ι τ : Type} [DecidableEq ι]

def spawnAfter : Option (QueueResult (ι × τ)) → SpawnPoint → SpawnPoint
  | none, p => p
  | some _, _ => .pushed

def loopAfter : Option (QueueResult (ι × τ)) → LoopPoint → LoopPoint
  | none, l => l
  | some (.popped (some _)), l => l
  | some _, _ => .arming

def ranAfter : Option (QueueResult (ι × τ)) → List (Option (ι × τ)) → List (Option (ι × τ))
  | some (.popped (some task)), ran => ran ++ [task]
  | _, ran => ran

def ExecutorRun.returns (s : ExecutorRun ι τ) (t : Option ι) : Option (QueueResult (ι × τ)) :=
  s.taskQueue.queue.returns (s.taskQueue.threads t)

def executorMachine (ι τ : Type) [DecidableEq ι] (armed : Bool) :
    Machine (ExecutorRun ι τ) (ExecutorOp ι τ) where
  start := ⟨(mpmcMachine _ _).start, armed, 0, .popping, fun _ => .idle, fun _ => [], []⟩
  step s
    | .spawn i task =>
      if s.spawn i = .idle then
        ((mpmcMachine _ _).step s.taskQueue (.push (some i) (i, task))).map fun queue =>
          { s with
            taskQueue := queue, spawned := Function.update s.spawned i (s.spawned i ++ [task]) }
      else none
    | .access (some i) =>
      ((mpmcMachine _ _).step s.taskQueue (.advance (some i))).map fun queue =>
        { s with
          taskQueue := queue
          spawn := Function.update s.spawn i (spawnAfter (s.returns (some i)) (s.spawn i)) }
    | .access none =>
      ((mpmcMachine _ _).step s.taskQueue (.advance none)).map fun queue =>
        { s with
          taskQueue := queue
          loop := loopAfter (s.returns none) s.loop
          ran := ranAfter (s.returns none) s.ran }
    | .failWeak t =>
      ((mpmcMachine _ _).step s.taskQueue (.failWeak t)).map
        fun queue => { s with taskQueue := queue }
    | .exchange i =>
      if s.spawn i = .pushed then
        if s.shouldNotify then
          some { s with shouldNotify := false, spawn := Function.update s.spawn i .signal }
        else some { s with spawn := Function.update s.spawn i .idle }
      else none
    | .signal i =>
      if s.spawn i = .signal then
        some { s with wake := s.wake + 1, spawn := Function.update s.spawn i .idle }
      else none
    | .pop =>
      if s.loop = .popping then
        ((mpmcMachine _ _).step s.taskQueue (.pop none)).map
          fun queue => { s with taskQueue := queue }
      else none
    | .arm => if s.loop = .arming then some { s with
        shouldNotify := true, loop := .waiting } else none
    | .waitReturn => if s.loop = .waiting then some { s with loop := .handling } else none
    | .wakeEvent taken =>
      if s.loop = .handling ∧ 0 < taken ∧ taken ≤ s.wake then
        some { s with wake := s.wake - taken, loop := .woken }
      else none
    | .disarm => if s.loop = .woken then some { s with
        shouldNotify := false, loop := .handling } else none
    | .handled => if s.loop = .handling then some { s with loop := .popping } else none

def tasksOf (i : ι) (tasks : List (ι × τ)) : List τ := (tasks.filter (·.1 = i)).map Prod.snd

theorem tasksOf_snoc_self (i : ι) (tasks : List (ι × τ)) (task : τ) :
    tasksOf i (tasks ++ [(i, task)]) = tasksOf i tasks ++ [task] := by
  simp [tasksOf]

theorem tasksOf_snoc_other {i j : ι} (other : j ≠ i) (tasks : List (ι × τ)) (task : τ) :
    tasksOf j (tasks ++ [(i, task)]) = tasksOf j tasks := by
  simp [tasksOf, Ne.symm other]

theorem tasksOf_mono (i : ι) {few all : List (ι × τ)} (h : few <+: all) :
    tasksOf i few <+: tasksOf i all := (h.filter _).map _

theorem tasksOf_unit (tasks : List (Unit × τ)) : tasksOf () tasks = tasks.map Prod.snd := by
  simp [tasksOf]

def Fifo.order (x : Fifo (ι × τ)) : List (ι × τ) := x.left ++ x.waiting

/- A call of `spawn`: where it is in its `push`, the tasks of its thread that have an index, and all
that were spawned. -/
inductive Pushing (i : ι) :
    CallState (QueueCall (ι × τ)) (QueueResult (ι × τ)) → SpawnPoint → List τ → List τ → Prop where
  | outside {p : SpawnPoint} {tasks : List τ} : Pushing i .idle p tasks tasks
  | unclaimed {tasks : List τ} {task : τ} :
      Pushing i (.called (.push (i, task))) .idle tasks (tasks ++ [task])
  | claimed {tasks : List τ} : Pushing i (.done .pushed) .idle tasks tasks

/- The loop: where it is in its `pop`, the tasks that have left the queue, and those
that were run. -/
inductive Popping :
    CallState (QueueCall (ι × τ)) (QueueResult (ι × τ)) → LoopPoint → List (ι × τ) →
      List (Option (ι × τ)) → Prop where
  | outside {l : LoopPoint} {left : List (ι × τ)} : Popping .idle l left (left.map some)
  | unclaimed {left : List (ι × τ)} : Popping (.called .pop) .popping left (left.map some)
  | claimed {left before : List (ι × τ)} {task : ι × τ} (last : left = before ++ [task]) :
      Popping (.done (.popped (some (some task)))) .popping left (before.map some)
  | empty {left : List (ι × τ)} : Popping (.done (.popped none)) .popping left (left.map some)

/- In the protocol a `push` is over when its task is in the list, and a `pop` when it has looked. -/
def spawnPoint : CallState (QueueCall (ι × τ)) (QueueResult (ι × τ)) → SpawnPoint → SpawnPoint
  | .done _, _ => .pushed
  | _, p => p

def loopPoint : CallState (QueueCall (ι × τ)) (QueueResult (ι × τ)) → LoopPoint → LoopPoint
  | .done (.popped none), _ => .arming
  | _, l => l

section

variable {x x' : Fifo (ι × τ)} {c c' : CallState (QueueCall (ι × τ)) (QueueResult (ι × τ))}
  {r : Option (QueueResult (ι × τ))}

theorem Pushing.effect {i : ι} {p : SpawnPoint} {spawned : List τ}
    (h : Pushing i c p (tasksOf i x.order) spawned) (e : Effect (fifoQueue (ι × τ)) x c x' c' r) :
    Pushing i c' (spawnAfter r p) (tasksOf i x'.order) spawned ∧
    (x' = x ∧ spawnPoint c' (spawnAfter r p) = spawnPoint c p ∨
      ∃ task, x' = ⟨x.left, x.waiting ++ [(i, task)]⟩ ∧ spawnPoint c p = .idle ∧
        spawnPoint c' (spawnAfter r p) = .pushed) := by
  have claim : ∀ task, tasksOf i (Fifo.order ⟨x.left, x.waiting ++ [(i, task)]⟩) =
      tasksOf i x.order ++ [task] := by
    intro task
    rw [Fifo.order, ← List.append_assoc]
    exact tasksOf_snoc_self i _ task
  cases e with
  | quiet => exact ⟨h, Or.inl ⟨rfl, rfl⟩⟩
  | take called =>
    subst called
    cases h with
    | unclaimed =>
      refine ⟨?_, Or.inr ⟨_, rfl, rfl, rfl⟩⟩
      rw [← claim]
      exact .claimed
  | ret done =>
    subst done
    cases h with
    | claimed => exact ⟨.outside, Or.inl ⟨rfl, rfl⟩⟩
  | both called =>
    subst called
    cases h with
    | unclaimed =>
      refine ⟨?_, Or.inr ⟨_, rfl, rfl, rfl⟩⟩
      rw [← claim]
      exact .outside

omit [DecidableEq ι] in
theorem apply_pop (x : Fifo (ι × τ)) :
    x.waiting = [] ∧ (fifoQueue (ι × τ)).apply x .pop = (x, .popped none) ∨
    ∃ task rest, x.waiting = task :: rest ∧
      (fifoQueue (ι × τ)).apply x .pop =
        (⟨x.left ++ [task], rest⟩, .popped (some (some task))) := by
  obtain ⟨left, waiting⟩ := x
  cases waiting with
  | nil => exact Or.inl ⟨rfl, rfl⟩
  | cons task rest => exact Or.inr ⟨task, rest, rfl, rfl⟩

/- What a `pop` comes to, once it has looked: the protocol's `pop`. -/
structure Looks (x x' : Fifo (ι × τ)) (before after : LoopPoint) : Prop where
  popping : before = .popping
  result : x.waiting = [] ∧ x' = x ∧ after = .arming ∨
    ∃ task, x.waiting = task :: x'.waiting ∧ after = .popping

omit [DecidableEq ι] in
theorem order_next {task : ι × τ} {rest : List (ι × τ)} (h : x.waiting = task :: rest) :
    Fifo.order ⟨x.left ++ [task], rest⟩ = x.order := by
  rw [Fifo.order, Fifo.order, h, List.append_assoc, List.singleton_append]

omit [DecidableEq ι] in
theorem Popping.effect {l : LoopPoint} {ran : List (Option (ι × τ))} (h : Popping c l x.left ran)
    (e : Effect (fifoQueue (ι × τ)) x c x' c' r) :
    Popping c' (loopAfter r l) x'.left (ranAfter r ran) ∧ x'.order = x.order ∧
    (x' = x ∧ loopPoint c' (loopAfter r l) = loopPoint c l ∨
      Looks x x' (loopPoint c l) (loopPoint c' (loopAfter r l))) := by
  cases e with
  | quiet => exact ⟨h, rfl, Or.inl ⟨rfl, rfl⟩⟩
  | take called =>
    subst called
    cases h with
    | unclaimed =>
      rcases apply_pop x with ⟨none, apply⟩ | ⟨task, rest, next, apply⟩
      · rw [apply]
        exact ⟨.empty, rfl, Or.inr ⟨rfl, Or.inl ⟨none, rfl, rfl⟩⟩⟩
      · rw [apply]
        exact ⟨.claimed rfl, order_next next, Or.inr ⟨rfl, Or.inr ⟨task, next, rfl⟩⟩⟩
  | ret done =>
    subst done
    cases h with
    | claimed last =>
      refine ⟨?_, rfl, Or.inl ⟨rfl, rfl⟩⟩
      rw [last, ranAfter, ← List.map_singleton, ← List.map_append]
      exact .outside
    | empty => exact ⟨.outside, rfl, Or.inl ⟨rfl, rfl⟩⟩
  | both called =>
    subst called
    cases h with
    | unclaimed =>
      rcases apply_pop x with ⟨none, apply⟩ | ⟨task, rest, next, apply⟩
      · rw [apply]
        exact ⟨.outside, rfl, Or.inr ⟨rfl, Or.inl ⟨none, rfl, rfl⟩⟩⟩
      · rw [apply]
        refine ⟨?_, order_next next, Or.inr ⟨rfl, Or.inr ⟨task, next, rfl⟩⟩⟩
        rw [ranAfter, ← List.map_singleton, ← List.map_append]
        exact .outside

omit [DecidableEq ι] in
theorem Pushing.out {i : ι} {p : SpawnPoint} {tasks spawned : List τ}
    (h : Pushing i c p tasks spawned) (busy : p ≠ .idle) : c = .idle := by
  cases h with
  | outside => rfl
  | unclaimed | claimed => exact absurd rfl busy

omit [DecidableEq ι] in
theorem Pushing.all {i : ι} {p : SpawnPoint} {tasks spawned : List τ}
    (h : Pushing i c p tasks spawned) (out : c = .idle) : spawned = tasks := by
  subst out
  cases h with
  | outside => rfl

omit [DecidableEq ι] in
theorem Popping.out {l : LoopPoint} {left : List (ι × τ)} {ran : List (Option (ι × τ))}
    (h : Popping c l left ran) (away : l ≠ .popping) : c = .idle := by
  cases h with
  | outside => rfl
  | unclaimed | claimed | empty => exact absurd rfl away

omit [DecidableEq ι] in
theorem Popping.all {l : LoopPoint} {left : List (ι × τ)} {ran : List (Option (ι × τ))}
    (h : Popping c l left ran) (out : c = .idle) : ran = left.map some := by
  subst out
  cases h with
  | outside => rfl

end

namespace ExecutorRun

def fifo (s : ExecutorRun ι τ) : Fifo (ι × τ) := s.taskQueue.linear.state

def calls (s : ExecutorRun ι τ) (t : Option ι) :
    CallState (QueueCall (ι × τ)) (QueueResult (ι × τ)) :=
  s.taskQueue.linear.calls t

/-- The protocol's state behind a state of the executor. -/
def notify (s : ExecutorRun ι τ) : Notify ι (ι × τ) :=
  ⟨s.fifo.waiting, s.shouldNotify, s.wake, loopPoint (s.calls none) s.loop,
    fun i => spawnPoint (s.calls (some i)) (s.spawn i)⟩

structure Inv (s : ExecutorRun ι τ) : Prop where
  queue : s.taskQueue.Inv
  pushing : ∀ i, Pushing i (s.calls (some i)) (s.spawn i) (tasksOf i s.fifo.order) (s.spawned i)
  popping : Popping (s.calls none) s.loop s.fifo.left s.ran

variable {s s' : ExecutorRun ι τ} {c : CallState (QueueCall (ι × τ)) (QueueResult (ι × τ))} {i : ι}

structure Spawns (s s' : ExecutorRun ι τ) (i : ι)
    (c : CallState (QueueCall (ι × τ)) (QueueResult (ι × τ))) :
    Prop where
  queue : s'.taskQueue.Inv
  calls : s'.calls = Function.update s.calls (some i) c
  left : s'.fifo.left = s.fifo.left
  flag : s'.shouldNotify = s.shouldNotify
  wake : s'.wake = s.wake
  loop : s'.loop = s.loop
  ran : s'.ran = s.ran
  own : Pushing i c (s'.spawn i) (tasksOf i s'.fifo.order) (s'.spawned i)
  others : ∀ j, j ≠ i → s'.spawn j = s.spawn j ∧ s'.spawned j = s.spawned j ∧
    tasksOf j s'.fifo.order = tasksOf j s.fifo.order

theorem Spawns.inv (h : Spawns s s' i c) (inv : s.Inv) : s'.Inv where
  queue := h.queue
  pushing := by
    intro j
    rw [h.calls]
    by_cases hj : j = i
    · subst j
      rw [Function.update_self]
      exact h.own
    · obtain ⟨spawn, spawned, tasks⟩ := h.others j hj
      rw [Function.update_of_ne (by simpa using hj), spawn, spawned, tasks]
      exact inv.pushing j
  popping := by
    rw [h.calls, h.left, h.loop, h.ran, Function.update_of_ne (by simp)]
    exact inv.popping

theorem Spawns.notify (h : Spawns s s' i c) :
    s'.notify = { s.notify with
      taskQueue := s'.fifo.waiting
      spawn := Function.update s.notify.spawn i (spawnPoint c (s'.spawn i)) } := by
  have loop : loopPoint (s'.calls none) s'.loop = loopPoint (s.calls none) s.loop := by
    rw [h.calls, h.loop, Function.update_of_ne (by simp)]
  have spawn : (fun j => spawnPoint (s'.calls (some j)) (s'.spawn j)) =
      Function.update s.notify.spawn i (spawnPoint c (s'.spawn i)) := by
    funext j
    by_cases hj : j = i
    · subst j
      rw [h.calls, Function.update_self, Function.update_self]
    · rw [h.calls, Function.update_of_ne (by simpa using hj), Function.update_of_ne hj,
        (h.others j hj).1]
      rfl
  rw [ExecutorRun.notify, loop, spawn, h.flag, h.wake]
  rfl

theorem Spawns.stays (h : Spawns s s' i c) (waiting : s'.fifo.waiting = s.fifo.waiting)
    (point : spawnPoint c (s'.spawn i) = spawnPoint (s.calls (some i)) (s.spawn i)) :
    s'.notify = s.notify := by
  have same : Function.update s.notify.spawn i (spawnPoint (s.calls (some i)) (s.spawn i)) =
      s.notify.spawn := Function.update_eq_self i s.notify.spawn
  rw [h.notify, waiting, point, same]
  rfl

theorem Spawns.claims {armed : Bool} {task : τ} (h : Spawns s s' i c)
    (waiting : s'.fifo.waiting = s.fifo.waiting ++ [(i, task)])
    (idle : spawnPoint (s.calls (some i)) (s.spawn i) = .idle)
    (point : spawnPoint c (s'.spawn i) = .pushed) :
    (notifyMachine ι (ι × τ) armed).step s.notify (.push i (i, task)) = some s'.notify := by
  rw [h.notify, waiting, point]
  exact if_pos idle

structure Loops (s s' : ExecutorRun ι τ) (c : CallState (QueueCall (ι × τ)) (QueueResult (ι × τ))) :
    Prop where
  queue : s'.taskQueue.Inv
  calls : s'.calls = Function.update s.calls none c
  order : s'.fifo.order = s.fifo.order
  flag : s'.shouldNotify = s.shouldNotify
  wake : s'.wake = s.wake
  spawn : s'.spawn = s.spawn
  spawned : s'.spawned = s.spawned
  own : Popping c s'.loop s'.fifo.left s'.ran

theorem Loops.inv (h : Loops s s' c) (inv : s.Inv) : s'.Inv where
  queue := h.queue
  pushing := by
    intro j
    rw [h.calls, h.order, h.spawn, h.spawned, Function.update_of_ne (by simp)]
    exact inv.pushing j
  popping := by
    rw [h.calls, Function.update_self]
    exact h.own

theorem Loops.notify (h : Loops s s' c) :
    s'.notify = { s.notify with
      taskQueue := s'.fifo.waiting
      loop := loopPoint c s'.loop } := by
  have spawn : (fun j => spawnPoint (s'.calls (some j)) (s'.spawn j)) = s.notify.spawn := by
    funext j
    rw [h.calls, h.spawn, Function.update_of_ne (by simp)]
    rfl
  rw [ExecutorRun.notify, spawn, h.calls, Function.update_self, h.flag, h.wake]
  rfl

theorem Loops.stays (h : Loops s s' c) (waiting : s'.fifo.waiting = s.fifo.waiting)
    (point : loopPoint c s'.loop = loopPoint (s.calls none) s.loop) : s'.notify = s.notify := by
  rw [h.notify, waiting, point]
  rfl

theorem Loops.looks {armed : Bool} (h : Loops s s' c)
    (looks : Looks s.fifo s'.fifo (loopPoint (s.calls none) s.loop) (loopPoint c s'.loop)) :
    (notifyMachine ι (ι × τ) armed).step s.notify .pop = some s'.notify := by
  have guard : s.notify.loop = .popping := looks.popping
  rw [h.notify]
  simp only [notifyMachine, if_pos guard]
  rcases looks.result with ⟨empty, same, arming⟩ | ⟨task, next, popping⟩
  · have queue : s.notify.taskQueue = [] := empty
    rw [queue, same, empty, arming]
  · have queue : s.notify.taskQueue = task :: s'.fifo.waiting := next
    rw [queue, popping, guard]

/-- A step keeps the invariant, and the protocol follows it with `ops`. -/
structure Follows (armed : Bool) (s s' : ExecutorRun ι τ) (ops : List (NotifyOp ι (ι × τ))) :
    Prop where
  inv : s'.Inv
  run : (notifyMachine ι (ι × τ) armed).run s.notify ops = some s'.notify

theorem Follows.none {armed : Bool} (inv : s'.Inv) (same : s'.notify = s.notify) :
    Follows armed s s' [] := ⟨inv, congrArg some same.symm⟩

theorem Follows.one {armed : Bool} {op : NotifyOp ι (ι × τ)} (inv : s'.Inv)
    (step : (notifyMachine ι (ι × τ) armed).step s.notify op = some s'.notify) :
    Follows armed s s' [op] := ⟨inv, by rw [Machine.run, step]; rfl⟩

variable {queue : MpmcRun (Option ι) (ι × τ)} {armed : Bool}

theorem Inv.spawn (inv : s.Inv) {task : τ} (idle : s.spawn i = .idle)
    (hs : (mpmcMachine _ _).step s.taskQueue (.push (some i) (i, task)) = some queue) :
    Follows armed s { s with
      taskQueue := queue, spawned := Function.update s.spawned i (s.spawned i ++ [task]) } [] := by
  obtain ⟨free, state, calls⟩ := push_linear hs
  have sofar : s.spawned i = tasksOf i s.fifo.order := (inv.pushing i).all free
  have spawns : Spawns s { s with
      taskQueue := queue, spawned := Function.update s.spawned i (s.spawned i ++ [task]) } i
        (.called (.push (i, task))) := by
    refine ⟨mpmc_step _ _ _ inv.queue hs, calls, congrArg Fifo.left state, rfl, rfl, rfl, rfl, ?_,
      fun j hj =>
        ⟨rfl, Function.update_of_ne hj _ _, congrArg (fun x => tasksOf j (Fifo.order x)) state⟩⟩
    change Pushing i _ (s.spawn i) (tasksOf i queue.linear.state.order)
      (Function.update s.spawned i _ i)
    rw [Function.update_self, idle, state, sofar]
    exact .unclaimed
  refine .none (spawns.inv inv) (spawns.stays (congrArg Fifo.waiting state) ?_)
  rw [ExecutorRun.calls, free]
  rfl

theorem Inv.push (inv : s.Inv)
    (hs : (mpmcMachine _ _).step s.taskQueue (.advance (some i)) = some queue) :
    ∃ ops, (∀ op ∈ ops, op ≠ .arm) ∧ Follows armed s { s with
      taskQueue := queue
      spawn := Function.update s.spawn i (spawnAfter (s.returns (some i)) (s.spawn i)) } ops := by
  obtain ⟨c, calls, effect⟩ := advance_linear inv.queue hs
  obtain ⟨own, moves⟩ := (inv.pushing i).effect effect
  have left : queue.linear.state.left = s.fifo.left := by
    rcases moves with ⟨same, _⟩ | ⟨task, claimed, _⟩
    · rw [same, fifo]
    · rw [claimed, fifo]
  have others : ∀ j, j ≠ i → tasksOf j queue.linear.state.order = tasksOf j s.fifo.order := by
    intro j hj
    rcases moves with ⟨same, _⟩ | ⟨task, claimed, _⟩
    · rw [same, fifo]
    · rw [claimed, Fifo.order, ← List.append_assoc]
      exact tasksOf_snoc_other hj _ task
  have spawns : Spawns s { s with
      taskQueue := queue
      spawn := Function.update s.spawn i (spawnAfter (s.returns (some i)) (s.spawn i)) } i c := by
    refine ⟨mpmc_step _ _ _ inv.queue hs, calls, left, rfl, rfl, rfl, rfl, ?_,
      fun j hj => ⟨Function.update_of_ne hj _ _, rfl, others j hj⟩⟩
    change Pushing i c (Function.update s.spawn i _ i) (tasksOf i queue.linear.state.order)
      (s.spawned i)
    rw [Function.update_self]
    exact own
  have now : Function.update s.spawn i (spawnAfter (s.returns (some i)) (s.spawn i)) i =
      spawnAfter (s.returns (some i)) (s.spawn i) := Function.update_self _ _ _
  rcases moves with ⟨same, point⟩ | ⟨task, claimed, idle, point⟩
  · refine ⟨[], by simp, .none (spawns.inv inv) (spawns.stays (congrArg Fifo.waiting same) ?_)⟩
    exact (congrArg (spawnPoint c) now).trans point
  · refine ⟨[.push i (i, task)], by simp, .one (spawns.inv inv)
      (spawns.claims (congrArg Fifo.waiting claimed) idle ?_)⟩
    exact (congrArg (spawnPoint c) now).trans point

theorem Inv.pop (inv : s.Inv) (popping : s.loop = .popping)
    (hs : (mpmcMachine _ _).step s.taskQueue (.pop none) = some queue) :
    Follows armed s { s with taskQueue := queue } [] := by
  obtain ⟨free, state, calls⟩ := pop_linear hs
  have own : Popping (.called .pop) s.loop s.fifo.left s.ran := by
    rw [inv.popping.all free, popping]
    exact .unclaimed
  have loops : Loops s { s with taskQueue := queue } (.called .pop) :=
    ⟨mpmc_step _ _ _ inv.queue hs, calls, congrArg Fifo.order state, rfl, rfl, rfl, rfl,
      by rw [fifo, state]; exact own⟩
  refine .none (loops.inv inv) (loops.stays (congrArg Fifo.waiting state) ?_)
  rw [ExecutorRun.calls, free]
  rfl

theorem Inv.access (inv : s.Inv)
    (hs : (mpmcMachine _ _).step s.taskQueue (.advance none) = some queue) :
    ∃ ops, (∀ op ∈ ops, op ≠ .arm) ∧ Follows armed s { s with
      taskQueue := queue
      loop := loopAfter (s.returns none) s.loop
      ran := ranAfter (s.returns none) s.ran } ops := by
  obtain ⟨c, calls, effect⟩ := advance_linear inv.queue hs
  obtain ⟨own, order, moves⟩ := inv.popping.effect effect
  have loops : Loops s { s with
      taskQueue := queue
      loop := loopAfter (s.returns none) s.loop
      ran := ranAfter (s.returns none) s.ran } c :=
    ⟨mpmc_step _ _ _ inv.queue hs, calls, order, rfl, rfl, rfl, rfl, own⟩
  rcases moves with ⟨same, point⟩ | looks
  · exact ⟨[], by simp, .none (loops.inv inv) (loops.stays (congrArg Fifo.waiting same) point)⟩
  · exact ⟨[.pop], by simp, .one (loops.inv inv) (loops.looks looks)⟩

theorem Inv.failWeak (inv : s.Inv) {t : Option ι}
    (hs : (mpmcMachine _ _).step s.taskQueue (.failWeak t) = some queue) :
    Follows armed s { s with taskQueue := queue } [] := by
  have linear := failWeak_linear hs
  have queueInv := mpmc_step _ _ _ inv.queue hs
  refine .none ⟨queueInv, ?_, ?_⟩ ?_
  · intro j
    rw [calls, fifo, linear]
    exact inv.pushing j
  · rw [calls, fifo, linear]
    exact inv.popping
  · simp only [notify, calls, fifo, linear]

theorem Inv.tells (inv : s.Inv) (busy : s.spawn i ≠ .idle) {op : NotifyOp ι (ι × τ)} {flag : Bool}
    {wake : Nat} {p : SpawnPoint}
    (step : s.notify.spawn i = s.spawn i → (notifyMachine ι (ι × τ) armed).step s.notify op =
      some { s.notify with
        shouldNotify := flag, wake := wake, spawn := Function.update s.notify.spawn i p }) :
    Follows armed s { s with
      shouldNotify := flag, wake := wake, spawn := Function.update s.spawn i p } [op] := by
  have out : s.calls (some i) = .idle := (inv.pushing i).out busy
  have point : s.notify.spawn i = s.spawn i := by
    change spawnPoint (s.calls (some i)) (s.spawn i) = s.spawn i
    rw [out]
    rfl
  have points : (fun j => spawnPoint (s.calls (some j)) (Function.update s.spawn i p j)) =
      Function.update s.notify.spawn i p := by
    funext j
    by_cases hj : j = i
    · subst j
      rw [Function.update_self, Function.update_self, out]
      rfl
    · rw [Function.update_of_ne hj, Function.update_of_ne hj]
      rfl
  refine .one ⟨inv.queue, fun j => ?_, inv.popping⟩ ?_
  · change Pushing j (s.calls (some j)) (Function.update s.spawn i p j) (tasksOf j s.fifo.order)
      (s.spawned j)
    have before := inv.pushing j
    by_cases hj : j = i
    · subst j
      rw [out] at before ⊢
      rw [before.all rfl]
      exact .outside
    · rw [Function.update_of_ne hj]
      exact before
  · rw [step point, ← points]
    rfl

theorem Inv.turns (inv : s.Inv) (away : s.loop ≠ .popping) {op : NotifyOp ι (ι × τ)} {flag : Bool}
    {wake : Nat} {l : LoopPoint}
    (step : s.notify.loop = s.loop → (notifyMachine ι (ι × τ) armed).step s.notify op =
      some { s.notify with shouldNotify := flag, wake := wake, loop := l }) :
    Follows armed s { s with shouldNotify := flag, wake := wake, loop := l } [op] := by
  have out : s.calls none = .idle := inv.popping.out away
  have same : ∀ l, loopPoint (s.calls none) l = l := by
    intro l
    rw [out]
    rfl
  refine .one ⟨inv.queue, inv.pushing, ?_⟩ ?_
  · change Popping (s.calls none) l s.fifo.left s.ran
    have before := inv.popping
    rw [out] at before ⊢
    rw [before.all rfl]
    exact .outside
  · rw [step (same s.loop)]
    exact congrArg
      (fun l => some { s.notify with shouldNotify := flag, wake := wake, loop := l }) (same l).symm

end ExecutorRun

/-- The protocol follows every step of the executor, and arms the flag only when the
executor does. -/
theorem executor_follows {armed : Bool} {s s' : ExecutorRun ι τ} {op : ExecutorOp ι τ} (inv : s.Inv)
    (hs : (executorMachine ι τ armed).step s op = some s') :
    ∃ ops, (op = .arm ∧ ops = [.arm] ∨ ∀ o ∈ ops, o ≠ .arm) ∧ s.Follows armed s' ops := by
  cases op with
  | spawn i task =>
    obtain ⟨idle, hs⟩ := Option.ite_none_right_eq_some.mp hs
    obtain ⟨queue, step, rfl⟩ := Option.map_eq_some_iff.mp hs
    exact ⟨[], Or.inr (by simp), inv.spawn idle step⟩
  | access t =>
    cases t with
    | none =>
      obtain ⟨queue, step, rfl⟩ := Option.map_eq_some_iff.mp hs
      obtain ⟨ops, quiet, follows⟩ := inv.access step
      exact ⟨ops, Or.inr quiet, follows⟩
    | some i =>
      obtain ⟨queue, step, rfl⟩ := Option.map_eq_some_iff.mp hs
      obtain ⟨ops, quiet, follows⟩ := inv.push step
      exact ⟨ops, Or.inr quiet, follows⟩
  | failWeak t =>
    obtain ⟨queue, step, rfl⟩ := Option.map_eq_some_iff.mp hs
    exact ⟨[], Or.inr (by simp), inv.failWeak step⟩
  | pop =>
    obtain ⟨popping, hs⟩ := Option.ite_none_right_eq_some.mp hs
    obtain ⟨queue, step, rfl⟩ := Option.map_eq_some_iff.mp hs
    exact ⟨[], Or.inr (by simp), inv.pop popping step⟩
  | exchange i =>
    obtain ⟨pushed, hs⟩ := Option.ite_none_right_eq_some.mp hs
    have busy : s.spawn i ≠ .idle := by
      rw [pushed]
      decide
    refine ⟨[.exchange i], Or.inr (by simp), ?_⟩
    split at hs
    · rename_i up
      cases hs
      exact inv.tells busy fun point => (if_pos (point.trans pushed)).trans (if_pos up)
    · rename_i down
      cases hs
      exact inv.tells busy fun point => (if_pos (point.trans pushed)).trans (if_neg down)
  | signal i =>
    obtain ⟨signal, hs⟩ := Option.ite_none_right_eq_some.mp hs
    cases hs
    exact ⟨[.signal i], Or.inr (by simp),
      inv.tells (by rw [signal]; decide) fun point => if_pos (point.trans signal)⟩
  | arm =>
    obtain ⟨arming, hs⟩ := Option.ite_none_right_eq_some.mp hs
    cases hs
    exact ⟨[.arm], Or.inl ⟨rfl, rfl⟩,
      inv.turns (by rw [arming]; decide) fun point => if_pos (point.trans arming)⟩
  | waitReturn =>
    obtain ⟨waiting, hs⟩ := Option.ite_none_right_eq_some.mp hs
    cases hs
    exact ⟨[.waitReturn], Or.inr (by simp),
      inv.turns (by rw [waiting]; decide) fun point => if_pos (point.trans waiting)⟩
  | wakeEvent taken =>
    obtain ⟨⟨handling, enough⟩, hs⟩ := Option.ite_none_right_eq_some.mp hs
    cases hs
    exact ⟨[.wakeEvent taken], Or.inr (by simp),
      inv.turns (by rw [handling]; decide) fun point => if_pos ⟨point.trans handling, enough⟩⟩
  | disarm =>
    obtain ⟨woken, hs⟩ := Option.ite_none_right_eq_some.mp hs
    cases hs
    exact ⟨[.disarm], Or.inr (by simp),
      inv.turns (by rw [woken]; decide) fun point => if_pos (point.trans woken)⟩
  | handled =>
    obtain ⟨handling, hs⟩ := Option.ite_none_right_eq_some.mp hs
    cases hs
    exact ⟨[.handled], Or.inr (by simp),
      inv.turns (by rw [handling]; decide) fun point => if_pos (point.trans handling)⟩

end

end Xuanqiong
