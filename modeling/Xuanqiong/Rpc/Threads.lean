import Xuanqiong.Rpc.Poll
import Xuanqiong.Scheduler.TaskOrder

/-! A channel that any number of threads share. Its coroutines and the calls of `CallMethod` are
tasks of one executor, and get to the connection through the executor's queue, down to the accesses
of `push` and `pop`. -/
namespace Xuanqiong

section

variable {ι σ P X T : Type}

def SpawnedTask.request : SpawnedTask T → Option T
  | .call request => some request
  | .sendFn | .recvFn => none

/- What the constructor of a channel spawns. -/
def coroutines : List (SpawnedTask T) := [.sendFn, .recvFn]

/- `due` are the calls of `spawn` that the constructor has still to make, and `built` says
that it has returned. The queue in `poll` holds what has come out of the executor's queue and
is not yet run. -/
structure SharedRun (ι σ P T : Type) where
  executor : ExecutorRun ι (SpawnedTask T)
  poll : PollRun σ P T
  due : List (SpawnedTask T)
  built : Bool

inductive SharedOp (ι X T : Type) where
  | construct
  | built
  | call (i : ι) (request : T)
  | execute (op : ExecutorOp ι (SpawnedTask T))
  | conn (op : ConnOp X T)

def ExecutorOp.ofLoop {τ : Type} : ExecutorOp ι τ → Bool
  | .access none | .failWeak none | .pop | .arm | .waitReturn | .wakeEvent _ | .disarm
  | .handled => true
  | _ => false

/- The steps of the connection: calls come through the executor, events while the loop
is among them. -/
def ConnOp.within (loop : LoopPoint) : ConnOp X T → Bool
  | .spawn _ => false
  | .event _ _ _ => loop = .handling
  | _ => true

def Ctl.isIdle : Ctl P T → Bool
  | .idle => true
  | _ => false

def PollRun.put (s : PollRun σ P T) (tasks : List (SpawnedTask T)) : PollRun σ P T :=
  { s with run := { s.run with queue := s.run.queue ++ tasks } }

theorem PollRun.put_nil (s : PollRun σ P T) : s.put [] = s := by
  rw [PollRun.put, List.append_nil]

theorem PollRun.put_append (s : PollRun σ P T) (xs ys : List (SpawnedTask T)) :
    (s.put xs).put ys = s.put (xs ++ ys) := by
  simp only [PollRun.put, List.append_assoc]

def ranSince {τ : Type} (s t : ExecutorRun ι τ) : List τ :=
  (t.ran.drop s.ran.length).filterMap (Option.map Prod.snd)

/-- `owner` is the thread that constructs the channel. The loop of the executor goes on when it has
done with a task or an event. -/
def sharedMachine [DecidableEq ι] (e : Endpoint σ P X T) (owner : ι) (armed : Bool) :
    Machine (SharedRun ι σ P T) (SharedOp ι X T) where
  start := ⟨(executorMachine ι (SpawnedTask T) armed).start,
    { (pollMachine e).start with
      run := { (connMachine e).start with queue := [] } }, coroutines, false⟩
  step s
    | .construct =>
      match s.due with
      | [] => none
      | task :: rest =>
        ((executorMachine ι (SpawnedTask T) armed).step s.executor (.spawn owner task)).map fun t =>
          { s with executor := t, due := rest }
    | .built =>
      if s.due.isEmpty && s.executor.spawn owner == .idle &&
          (match s.executor.taskQueue.threads (some owner) with | .idle => true | _ => false) then
        some { s with built := true }
      else none
    | .call i request =>
      if s.built then
        ((executorMachine ι (SpawnedTask T) armed).step s.executor (.spawn i (.call request))).map
          fun t => { s with executor := t }
      else none
    | .execute op =>
      if op.isSpawn || (op.ofLoop && !(s.poll.run.ctl.isIdle && s.poll.run.queue.isEmpty)) then none
      else ((executorMachine ι (SpawnedTask T) armed).step s.executor op).map fun t =>
        { s with executor := t, poll := s.poll.put (ranSince s.executor t) }
    | .conn op =>
      if op.within s.executor.loop then
        ((pollMachine e).step s.poll op).map fun p => { s with poll := p }
      else none

/- The tasks that are spawned or will be by the constructor, and are not yet out of the queue. -/
def SharedRun.pending (s : SharedRun ι σ P T) : List (SpawnedTask T) :=
  (s.executor.fifo.order.map Prod.snd ++ coroutines.drop s.executor.fifo.order.length).drop
    s.executor.ran.length

/- The connection with all its tasks in one list. -/
def SharedRun.whole (s : SharedRun ι σ P T) : PollRun σ P T := s.poll.put s.pending

def SharedRun.calledBy (s : SharedRun ι σ P T) (i : ι) : List T :=
  (s.executor.spawned i).filterMap SpawnedTask.request

def ExecutorRun.requests (s : ExecutorRun ι (SpawnedTask T)) : List T :=
  s.ran.filterMap fun task => task.bind fun (_, task) => task.request

/- The queue is in the order in which indices were claimed; nothing but the two coroutines comes
before the first call. -/
structure SharedRun.Inv [DecidableEq ι] (owner : ι) (s : SharedRun ι σ P T) : Prop where
  executor : s.executor.Inv
  building : s.built = false → s.executor.spawned owner ++ s.due = coroutines ∧
    ∀ j, j ≠ owner → s.executor.spawned j = []
  constructed : s.built = true → s.due = [] ∧ 2 ≤ s.executor.fifo.order.length
  calls : s.built = true → ∀ i task,
    s.executor.spawned i = tasksOf i s.executor.fifo.order ++ [task] →
    ∃ request, task = .call request
  submits : s.poll.traffic.submitted ++ s.poll.run.queue.filterMap SpawnedTask.request =
    s.executor.requests

variable {e : Endpoint σ P X T}

theorem event_queue (c : ConnRun σ P T) (queue : List (SpawnedTask T)) (hup out readable : Bool) :
    ({ c with queue := queue } : ConnRun σ P T).event e hup out readable =
      (c.event e hup out readable).map fun r => { r with queue := queue } := by
  obtain ⟨conn, app, interest, send, recv, old, ctl⟩ := c
  cases ctl with
  | idle =>
    cases interest with
    | none => rfl
    | some i =>
      have held : ConnRun.ended e ⟨conn, app, some i, send, recv, queue, .idle⟩ =
          ConnRun.ended e ⟨conn, app, some i, send, recv, old, .idle⟩ := rfl
      simp only [ConnRun.event, held]
      split
      · rfl
      · split
        · rfl
        · split
          · rfl
          · split <;> rfl
  | _ => rfl

theorem queue_step {c r : ConnRun σ P T} {op : ConnOp X T} (more : List (SpawnedTask T))
    (other : ∀ request, op ≠ .spawn request) (hs : (connMachine e).step c op = some r) :
    (connMachine e).step { c with queue := c.queue ++ more } op =
      some { r with queue := r.queue ++ more } := by
  by_cases event : ∃ hup out readable, op = .event hup out readable
  · obtain ⟨hup, out, readable, rfl⟩ := event
    have same : r.queue = c.queue := by
      cases event_move hs <;> rfl
    rw [same]
    exact (event_queue c _ hup out readable).trans (congrArg _ hs)
  · have noEvent := fun hup out readable same => event ⟨hup, out, readable, same⟩
    have framed := framed_step c.interest more noEvent other hs
    rw [interestAfter_self noEvent other hs] at framed
    exact framed

theorem submits_queue {c r : ConnRun σ P T} {op : ConnOp X T} (more : List (SpawnedTask T))
    (hs : (connMachine e).step c op = some r) :
    ({ c with queue := c.queue ++ more } : ConnRun σ P T).submits op = c.submits op := by
  cases conn_move hs with
  | startCall ctl queue run => simp only [ConnRun.submits, queue, List.cons_append]
  | _ => rfl

theorem queue_submits {c r : ConnRun σ P T} {op : ConnOp X T}
    (other : ∀ request, op ≠ .spawn request) (hs : (connMachine e).step c op = some r) :
    c.submits op ++ r.queue.filterMap SpawnedTask.request =
      c.queue.filterMap SpawnedTask.request := by
  cases conn_move hs with
  | spawn => exact absurd rfl (other _)
  | startSend ctl queue | startRecv ctl queue =>
    rw [queue]
    rfl
  | startCall ctl queue run => simp [ConnRun.submits, queue, SpawnedTask.request]
  | _ => rfl

section

variable [DecidableEq ι] {owner : ι} {armed : Bool} {s : SharedRun ι σ P T}

theorem map_snd_of_alone {τ : Type} {owner : ι} {tasks : List (ι × τ)}
    (alone : ∀ j, j ≠ owner → tasksOf j tasks = []) : tasks.map Prod.snd = tasksOf owner tasks := by
  have all : tasks.filter (·.1 = owner) = tasks := by
    refine List.filter_eq_self.mpr fun task there => decide_eq_true ?_
    by_contra other
    have here : task.2 ∈ tasksOf task.1 tasks :=
      List.mem_map_of_mem (List.mem_filter.mpr ⟨there, decide_eq_true rfl⟩)
    rw [alone task.1 other] at here
    cases here
  rw [tasksOf, all]

theorem SharedRun.Inv.alone (h : s.Inv owner) (building : s.built = false) :
    s.executor.fifo.order.map Prod.snd = tasksOf owner s.executor.fifo.order := by
  refine map_snd_of_alone fun j other => ?_
  have none := (h.building building).2 j other
  have within := (h.executor.pushing j).spawned
  rw [none] at within
  exact List.prefix_nil.mp within

theorem SharedRun.Inv.ran (h : s.Inv owner) :
    ∃ tasks, s.executor.ran = tasks.map some ∧ tasks <+: s.executor.fifo.order := by
  obtain ⟨tasks, ran, left⟩ := h.executor.popping.ran
  exact ⟨tasks, ran, left.trans (List.prefix_append _ _)⟩

theorem SharedRun.Inv.ran_length (h : s.Inv owner) :
    s.executor.ran.length ≤ s.executor.fifo.order.length := by
  obtain ⟨tasks, ran, within⟩ := h.ran
  rw [ran, List.length_map]
  exact within.length_le

theorem executor_inv {τ : Type} {r t : ExecutorRun ι τ} {op : ExecutorOp ι τ} (inv : r.Inv)
    (hs : (executorMachine ι τ armed).step r op = some t) : t.Inv :=
  (executor_follows inv hs).elim fun _ follows => follows.2.inv

namespace SharedRun.Inv

variable {t : ExecutorRun ι (SpawnedTask T)}

theorem submits_after (h : s.Inv owner) (ran : t.ran = s.executor.ran) :
    s.poll.traffic.submitted ++ s.poll.run.queue.filterMap SpawnedTask.request = t.requests := by
  rw [h.submits, ExecutorRun.requests, ExecutorRun.requests, ran]

theorem construct (h : s.Inv owner) {task : SpawnedTask T} {rest : List (SpawnedTask T)}
    (due : s.due = task :: rest)
    (hs : (executorMachine ι (SpawnedTask T) armed).step s.executor (.spawn owner task) = some t) :
    SharedRun.Inv owner { s with executor := t, due := rest } ∧
      SharedRun.whole { s with executor := t, due := rest } = s.whole := by
  obtain ⟨order, ran, _, spawned⟩ := executor_spawn_move h.executor hs
  have building : s.built = false := by
    refine Bool.eq_false_iff.mpr fun built => ?_
    cases due.symm.trans (h.constructed built).1
  obtain ⟨all, none⟩ := h.building building
  refine ⟨⟨executor_inv h.executor hs, fun _ => ⟨?_, fun j other => ?_⟩, fun built => ?_,
    fun built => ?_, ?_⟩, ?_⟩
  · rw [← all, due, spawned, Function.update_self, List.append_assoc, List.singleton_append]
  · rw [spawned, Function.update_of_ne other]
    exact none j other
  · cases building.symm.trans built
  · cases building.symm.trans built
  · exact h.submits_after ran
  · rw [whole, whole, pending, pending, order, ran]

theorem built (h : s.Inv owner) (due : s.due = []) (out : s.executor.calls (some owner) = .idle) :
    SharedRun.Inv owner { s with built := true } := by
  cases already : s.built with
  | true =>
    have same : { s with built := true } = s := by
      rw [← already]
    exact same ▸ h
  | false =>
    obtain ⟨all, none⟩ := h.building already
    have claimed := (h.executor.pushing owner).all out
    have order : s.executor.fifo.order.map Prod.snd = coroutines := by
      rw [h.alone already, ← claimed, ← all, due, List.append_nil]
    refine ⟨h.executor, nofun, fun _ => ⟨due, ?_⟩, fun _ i task next => ?_, h.submits⟩
    · have length := congrArg List.length order
      rw [List.length_map] at length
      exact Nat.le_of_eq length.symm
    · by_cases here : i = owner
      · subst i
        simp [claimed] at next
      · simp [none i here] at next

theorem call (h : s.Inv owner) (built : s.built = true) {i : ι} {request : T}
    (hs : (executorMachine ι (SpawnedTask T) armed).step s.executor
      (.spawn i (.call request)) = some t) :
    SharedRun.Inv owner { s with executor := t } ∧
      SharedRun.whole { s with executor := t } = s.whole := by
  obtain ⟨order, ran, claimed, spawned⟩ := executor_spawn_move h.executor hs
  refine ⟨⟨executor_inv h.executor hs, fun building => ?_, fun _ => ?_,
    fun _ j task next => ?_, ?_⟩, ?_⟩
  · cases building.symm.trans built
  · rw [order]
    exact h.constructed built
  · rw [order, spawned] at next
    by_cases here : j = i
    · subst j
      rw [Function.update_self, claimed] at next
      exact ⟨request, ((List.append_inj' next rfl).2 |> List.singleton_inj.mp).symm⟩
    · rw [Function.update_of_ne here] at next
      exact h.calls built j task next
  · exact h.submits_after ran
  · rw [whole, whole, pending, pending, order, ran]

theorem claims_coroutine (h : s.Inv owner) (building : s.built = false) {i : ι}
    {task : SpawnedTask T} (inv : t.Inv)
    (order : t.fifo.order = s.executor.fifo.order ++ [(i, task)])
    (next : s.executor.spawned i = tasksOf i s.executor.fifo.order ++ [task])
    (ran : t.ran = s.executor.ran) (spawned : t.spawned = s.executor.spawned) :
    SharedRun.Inv owner { s with executor := t } ∧
      SharedRun.whole { s with executor := t } = s.whole := by
  obtain ⟨all, none⟩ := h.building building
  have here : i = owner := by
    by_contra other
    rw [none i other] at next
    simp at next
  subst i
  have sofar : coroutines = s.executor.fifo.order.map Prod.snd ++ task :: s.due := by
    rw [h.alone building, ← all, next, List.append_assoc, List.singleton_append]
  have now : coroutines.drop s.executor.fifo.order.length = task :: s.due := by
    rw [sofar, List.drop_left' (List.length_map _)]
  have later : coroutines.drop (s.executor.fifo.order.length + 1) = s.due := by
    rw [← List.drop_drop, now, List.drop_one, List.tail_cons]
  refine ⟨⟨inv, fun _ => ?_, fun built => ?_, fun built => ?_, h.submits_after ran⟩, ?_⟩
  · rw [spawned]
    exact ⟨all, none⟩
  · cases building.symm.trans built
  · cases building.symm.trans built
  · rw [whole, whole, pending, pending, order, ran, List.length_append, List.length_singleton,
      now, later, List.map_append, List.append_assoc, List.map_singleton, List.singleton_append]

theorem claims_call (h : s.Inv owner) (built : s.built = true) {i : ι} {task : SpawnedTask T}
    (inv : t.Inv) (order : t.fifo.order = s.executor.fifo.order ++ [(i, task)])
    (next : s.executor.spawned i = tasksOf i s.executor.fifo.order ++ [task])
    (ran : t.ran = s.executor.ran) (spawned : t.spawned = s.executor.spawned) :
    SharedRun.Inv owner { s with executor := t } ∧
      ∃ request, SharedRun.whole { s with executor := t } = s.whole.put [.call request] := by
  obtain ⟨due, enough⟩ := h.constructed built
  obtain ⟨request, rfl⟩ := h.calls built i task next
  have none : ∀ n, 2 ≤ n → (coroutines : List (SpawnedTask T)).drop n = [] :=
    fun n few => List.drop_eq_nil_of_le few
  have counts : s.executor.ran.length ≤ (s.executor.fifo.order.map Prod.snd).length := by
    rw [List.length_map]
    exact h.ran_length
  have more : 2 ≤ s.executor.fifo.order.length + 1 := Nat.le_succ_of_le enough
  refine ⟨⟨inv, fun building => ?_, fun _ => ⟨due, ?_⟩, fun _ j task later => ?_,
    h.submits_after ran⟩, request, ?_⟩
  · cases built.symm.trans building
  · rw [order, List.length_append, List.length_singleton]
    exact more
  · rw [spawned, order] at later
    by_cases here : j = i
    · subst j
      simp [next, tasksOf_snoc_self] at later
    · rw [tasksOf_snoc_other here] at later
      exact h.calls built j task later
  · rw [whole, whole, PollRun.put_append, pending, pending, order, ran, List.length_append,
      List.length_singleton, none _ enough, none _ more, List.append_nil, List.append_nil,
      List.map_append, List.drop_append_of_le_length counts]
    rfl

theorem runs (h : s.Inv owner) {task : ι × SpawnedTask T} (inv : t.Inv)
    (order : t.fifo.order = s.executor.fifo.order) (ran : t.ran = s.executor.ran ++ [some task])
    (spawned : t.spawned = s.executor.spawned) :
    SharedRun.Inv owner { s with executor := t, poll := s.poll.put [task.2] } ∧
      SharedRun.whole { s with executor := t, poll := s.poll.put [task.2] } = s.whole := by
  obtain ⟨tasks, all, left⟩ := inv.popping.ran
  obtain ⟨before, last, rfl, first, alone⟩ := List.append_eq_map_iff.mp (ran.symm.trans all)
  obtain ⟨done, rfl, same⟩ := List.map_eq_singleton_iff.mp alone
  cases same
  obtain ⟨rest, cut⟩ := left.trans (List.prefix_append _ _ : t.fifo.left <+: t.fifo.order)
  have cut : before ++ [task] ++ rest = s.executor.fifo.order := cut.trans order
  have length : s.executor.ran.length = (before.map Prod.snd).length := by
    rw [← first, List.length_map, List.length_map]
  refine ⟨⟨inv, ?_, ?_, ?_, ?_⟩, ?_⟩
  · rw [spawned]
    exact h.building
  · rw [order]
    exact h.constructed
  · rw [spawned, order]
    exact h.calls
  · simp only [PollRun.put, ExecutorRun.requests, ran, List.filterMap_append]
    rw [← List.append_assoc, h.submits]
    rfl
  · rw [whole, whole, PollRun.put_append, pending, pending, order, ran, List.length_append,
      List.length_singleton, ← List.drop_drop, ← cut]
    simp only [List.map_append, List.append_assoc, List.map_singleton, length, List.drop_left]
    rfl

theorem execute (h : s.Inv owner) {op : ExecutorOp ι (SpawnedTask T)} (other : op.isSpawn = false)
    (hs : (executorMachine ι (SpawnedTask T) armed).step s.executor op = some t) :
    SharedRun.Inv owner { s with executor := t, poll := s.poll.put (ranSince s.executor t) } ∧
      (SharedRun.whole { s with
        executor := t, poll := s.poll.put (ranSince s.executor t) } = s.whole ∨
        ∃ request, SharedRun.whole { s with
          executor := t, poll := s.poll.put (ranSince s.executor t) } =
          s.whole.put [.call request]) := by
  have inv := executor_inv h.executor hs
  have spawned := executor_spawned other hs
  have none : t.ran = s.executor.ran → s.poll.put (ranSince s.executor t) = s.poll := by
    intro ran
    rw [ranSince, ran, List.drop_length]
    exact s.poll.put_nil
  cases executor_task_move h.executor other hs with
  | stays order ran =>
    rw [none ran]
    refine ⟨⟨inv, ?_, ?_, ?_, h.submits_after ran⟩, Or.inl ?_⟩
    · rw [spawned]
      exact h.building
    · rw [order]
      exact h.constructed
    · rw [spawned, order]
      exact h.calls
    · rw [whole, whole, pending, pending, order, ran]
  | claims i task order next ran =>
    rw [none ran]
    cases built : s.built with
    | false =>
      obtain ⟨after, same⟩ := h.claims_coroutine built inv order next ran spawned
      rw [built] at after same
      exact ⟨after, Or.inl same⟩
    | true =>
      obtain ⟨after, request, put⟩ := h.claims_call built inv order next ran spawned
      rw [built] at after put
      exact ⟨after, Or.inr ⟨request, put⟩⟩
  | runs task order ran =>
    have one : ranSince s.executor t = [task.2] := by
      rw [ranSince, ran, List.drop_left]
      rfl
    rw [one]
    obtain ⟨after, same⟩ := h.runs inv order ran spawned
    exact ⟨after, Or.inl same⟩

theorem conn (h : s.Inv owner) {op : ConnOp X T} {p : PollRun σ P T}
    (other : ∀ request, op ≠ .spawn request) (hs : (pollMachine e).step s.poll op = some p) :
    SharedRun.Inv owner { s with poll := p } ∧
      (pollMachine e).step s.whole op = some (SharedRun.whole { s with poll := p }) := by
  obtain ⟨r, step, rfl⟩ := Option.map_eq_some_iff.mp hs
  have submits := queue_submits other step
  refine ⟨⟨h.executor, h.building, h.constructed, h.calls, ?_⟩, ?_⟩
  · rw [← h.submits, ← submits, ← List.append_assoc]
    rfl
  · refine Option.map_eq_some_iff.mpr ⟨_, queue_step s.pending other step, ?_⟩
    have same : s.whole.run.submits op = s.poll.run.submits op := submits_queue s.pending step
    rw [same]
    rfl

end SharedRun.Inv

/- No `async_write` of the connection goes on after the kernel has taken something. -/
def SharedOnce (s : SharedRun ι σ P T) : SharedOp ι X T → Prop
  | .conn op => SendsOnce s.poll op
  | _ => True

/-- The steps, each with what it needs and what it leaves. -/
inductive SharedMove (e : Endpoint σ P X T) (owner : ι) (armed : Bool) (s : SharedRun ι σ P T) :
    SharedOp ι X T → SharedRun ι σ P T → Prop where
  | construct {task rest t} (due : s.due = task :: rest)
      (step : (executorMachine ι (SpawnedTask T) armed).step s.executor
        (.spawn owner task) = some t) :
      SharedMove e owner armed s .construct { s with executor := t, due := rest }
  | built (due : s.due = []) (out : s.executor.calls (some owner) = .idle) :
      SharedMove e owner armed s .built { s with built := true }
  | call {i request t} (built : s.built = true)
      (step : (executorMachine ι (SpawnedTask T) armed).step s.executor
        (.spawn i (.call request)) = some t) :
      SharedMove e owner armed s (.call i request) { s with executor := t }
  | execute {op t} (other : op.isSpawn = false)
      (step : (executorMachine ι (SpawnedTask T) armed).step s.executor op = some t) :
      SharedMove e owner armed s (.execute op)
        { s with executor := t, poll := s.poll.put (ranSince s.executor t) }
  | conn {op p} (other : ∀ request, op ≠ .spawn request)
      (step : (pollMachine e).step s.poll op = some p) :
      SharedMove e owner armed s (.conn op) { s with poll := p }

theorem shared_move {s t : SharedRun ι σ P T} {op : SharedOp ι X T}
    (hs : (sharedMachine e owner armed).step s op = some t) : SharedMove e owner armed s op t := by
  cases op with
  | construct =>
    simp only [sharedMachine] at hs
    split at hs
    · cases hs
    · obtain ⟨r, step, rfl⟩ := Option.map_eq_some_iff.mp hs
      exact .construct ‹_› step
  | built =>
    obtain ⟨guard, hs⟩ := Option.ite_none_right_eq_some.mp hs
    cases hs
    simp only [Bool.and_eq_true, List.isEmpty_iff] at guard
    obtain ⟨⟨due, _⟩, idle⟩ := guard
    refine .built due ?_
    split at idle
    · rename_i out
      change s.executor.taskQueue.queue.stage (s.executor.taskQueue.threads (some owner)) = .idle
      rw [out]
      rfl
    · cases idle
  | call i request =>
    obtain ⟨built, hs⟩ := Option.ite_none_right_eq_some.mp hs
    obtain ⟨r, step, rfl⟩ := Option.map_eq_some_iff.mp hs
    exact .call built step
  | execute op =>
    obtain ⟨guard, hs⟩ := Option.ite_none_left_eq_some.mp hs
    obtain ⟨r, step, rfl⟩ := Option.map_eq_some_iff.mp hs
    simp only [Bool.or_eq_true, not_or] at guard
    exact .execute (Bool.eq_false_iff.mpr guard.1) step
  | conn op =>
    obtain ⟨within, hs⟩ := Option.ite_none_right_eq_some.mp hs
    obtain ⟨p, step, rfl⟩ := Option.map_eq_some_iff.mp hs
    refine .conn (fun request spawn => ?_) step
    rw [spawn] at within
    cases within

def Endpoint.shared (e : Endpoint σ P X T) (owner : ι) (armed : Bool) :
    Party (SharedRun ι σ P T) (SharedOp ι X T) UInt8 where
  machine := sharedMachine e owner armed
  received s := s.poll.traffic.received
  sent s := s.poll.traffic.sent
  received_start := rfl
  received_grows hs := by
    cases shared_move hs with
    | conn other step => exact e.poll.received_grows step
    | _ => exact List.prefix_refl _
  sent_grows hs := by
    cases shared_move hs with
    | conn other step => exact e.poll.sent_grows step
    | _ => exact List.prefix_refl _

theorem shared_start (e : Endpoint σ P X T) (owner : ι) (armed : Bool) :
    (sharedMachine e owner armed).start.Inv owner where
  executor := executor_start armed
  building _ := ⟨rfl, fun _ _ => rfl⟩
  constructed := nofun
  calls := nofun
  submits := rfl

theorem shared_refines (e : Endpoint σ P X T) (owner : ι) (armed : Bool) :
    Party.Refines (e.shared owner armed) e.poll SharedOnce SendsOnce
      fun s t => s.Inv owner ∧ t = s.whole where
  start := ⟨shared_start e owner armed, rfl⟩
  received := by
    rintro s _ ⟨_, rfl⟩
    rfl
  sent := by
    rintro s _ ⟨_, rfl⟩
    rfl
  step := by
    rintro s op t _ ⟨h, rfl⟩ once hs
    cases shared_move hs with
    | construct due step =>
      obtain ⟨inv, same⟩ := h.construct due step
      exact Or.inl ⟨inv, same.symm⟩
    | built due out => exact Or.inl ⟨h.built due out, rfl⟩
    | call built step =>
      obtain ⟨inv, same⟩ := h.call built step
      exact Or.inl ⟨inv, same.symm⟩
    | execute other step =>
      obtain ⟨inv, same | ⟨request, put⟩⟩ := h.execute other step
      · exact Or.inl ⟨inv, same.symm⟩
      · have spawn : (pollMachine e).step s.whole (.spawn request) =
          some (s.whole.put [.call request]) :=
          Option.map_eq_some_iff.mpr ⟨_, rfl, congrArg (PollRun.mk _) s.whole.traffic.add_nothing⟩
        exact Or.inr ⟨.spawn request, _, trivial, spawn, inv, put.symm⟩
    | conn other step =>
      obtain ⟨inv, step⟩ := h.conn other step
      exact Or.inr ⟨_, _, once, step, inv, rfl⟩

def callsIn (tasks : List (ι × SpawnedTask T)) : List (ι × T) :=
  tasks.filterMap fun task => task.2.request.map (Prod.mk task.1)

omit [DecidableEq ι] in
theorem requests_eq {r : ExecutorRun ι (SpawnedTask T)} {tasks : List (ι × SpawnedTask T)}
    (ran : r.ran = tasks.map some) : r.requests = (callsIn tasks).map Prod.snd := by
  rw [ExecutorRun.requests, ran, List.filterMap_map, callsIn, List.map_filterMap]
  refine List.filterMap_congr fun task _ => ?_
  cases request : task.2.request <;> simp [request]

theorem tasksOf_callsIn (i : ι) (tasks : List (ι × SpawnedTask T)) :
    tasksOf i (callsIn tasks) = (tasksOf i tasks).filterMap SpawnedTask.request := by
  induction tasks with
  | nil => rfl
  | cons task rest ih =>
    obtain ⟨j, task⟩ := task
    unfold tasksOf callsIn at ih ⊢
    by_cases here : j = i
    · cases request : task.request <;> simp [here, request, ih]
    · cases request : task.request <;> simp [here, request, ih]

theorem SharedRun.Inv.calls_in_order (h : s.Inv owner) :
    ∃ calls : List (ι × T), s.poll.traffic.submitted = calls.map Prod.snd ∧
      ∀ i, tasksOf i calls <+: s.calledBy i := by
  obtain ⟨tasks, ran, order⟩ := h.ran
  have sofar : s.poll.traffic.submitted <+: (callsIn tasks).map Prod.snd := by
    rw [← requests_eq ran, ← h.submits]
    exact List.prefix_append _ _
  refine ⟨(callsIn tasks).take s.poll.traffic.submitted.length, ?_, fun i => ?_⟩
  · rw [List.map_take]
    exact List.prefix_iff_eq_take.mp sofar
  · have spawned := (tasksOf_mono i order).trans (h.executor.pushing i).spawned
    have made : tasksOf i (callsIn tasks) <+: s.calledBy i := by
      rw [tasksOf_callsIn]
      exact spawned.filterMap _
    exact (tasksOf_mono i (List.take_prefix _ _)).trans made

end

end

namespace Rpc

variable {ι Args R D Msg M Req Resp : Type} [DecidableEq ι]

def threaded (g : Rpc Args R D Msg M Req Resp) (owner : ι) (armed : Bool) :
    Machine (SharedRun ι (ClientState R D Msg) ClientPoint (MethodCall Args R D) ×
      PollRun (List (Call M Req Resp)) (RecvPoint M) Empty)
      (SharedOp ι (Nat → UInt8) (MethodCall Args R D) ⊕ ConnOp ((Nat → UInt8) × Resp) Empty) :=
  (g.channel.endpoint.shared owner armed).joined g.server.endpoint.poll

/-- Any number of threads call `CallMethod` on one channel. The calls whose tasks have run are
answered in order, each with the response to it, and among them those of one thread are in the order
in which it made them, without one left out. -/
theorem threads_calls_are_answered_in_order [Nonempty Resp] (g : Rpc Args R D Msg M Req Resp)
    (owner : ι) (armed : Bool)
    (s : SharedRun ι (ClientState R D Msg) ClientPoint (MethodCall Args R D) ×
      PollRun (List (Call M Req Resp)) (RecvPoint M) Empty)
    (h : (g.threaded owner armed).ReachWith (Party.Both SharedOnce SendsOnce) s)
    (fits : g.Fits (numbered s.1.poll.traffic.submitted) s.2.run.app) :
    ∃ calls : List (ι × MethodCall Args R D), s.1.poll.traffic.submitted = calls.map Prod.snd ∧
      (∀ i, tasksOf i calls <+: s.1.calledBy i) ∧
      g.InOrder (numbered (calls.map Prod.snd)) s.2.run.app s.1.poll.run.app := by
  have client := (shared_refines g.channel.endpoint owner armed).simulates
    (poll_simulates g.channel.leavesRoom (g.channel.announces (D := D)))
  have server := poll_simulates g.server.leavesRoom g.server.announces
  obtain ⟨u, v, ⟨c, ⟨inv, whole⟩, left⟩, right, answered⟩ := inOrder_of_simulates client server h
  obtain ⟨calls, submitted, made⟩ := inv.calls_in_order
  rw [left.traffic, right.app, left.app, whole] at answered
  refine ⟨calls, submitted, made, ?_⟩
  rw [← submitted]
  exact answered fits

/- A task is spawned, a task comes out of the queue, and the queue is found empty. -/
def spawns (i : Bool) (op : SharedOp Bool (Nat → UInt8) (MethodCall UInt8 Unit Unit)) :
    List (SharedOp Bool (Nat → UInt8) (MethodCall UInt8 Unit Unit)) :=
  op :: List.replicate 7 (.execute (.access (some i))) ++ [.execute (.exchange i)]

def pops (n : Nat) : List (SharedOp Bool (Nat → UInt8) (MethodCall UInt8 Unit Unit)) :=
  .execute .pop :: List.replicate n (.execute (.access none))

def callOfThread : List (SharedOp Bool (Nat → UInt8) (MethodCall UInt8 Unit Unit)) :=
  spawns false .construct ++ spawns false .construct ++ .built :: pops 12 ++
    .conn (.startSend []) ::
    pops 12 ++ .conn .startRecv :: .conn (.read [.eagain]) :: .conn .proceed :: .conn .await ::
    spawns true (.call true (byteCall 5)) ++ pops 12 ++ .conn (.startCall fun _ => 0) ::
    .conn (.resumeWrite [[.accepted 10]]) :: pops 3 ++ [.execute .arm, .execute .waitReturn]

def serverOfThread : List (ConnOp ((Nat → UInt8) × UInt8) Empty) :=
  [.startSend [], .startRecv, .read [.data [1, 0, 0, 0, 0, 1, 0, 0, 0, 5], .eagain],
    .proceed, .await, .step (fun _ => 0, 50), .step (fun _ => 0, 50), .step (fun _ => 0, 50),
    .step (fun _ => 0, 50), .resumeWrite [[.accepted 10]]]

def answerOfThread : List (SharedOp Bool (Nat → UInt8) (MethodCall UInt8 Unit Unit)) :=
  [.conn (.event false false true), .conn .resumeRead,
    .conn (.read [.data [1, 0, 0, 0, 0, 1, 0, 0, 0, 50], .eagain]), .conn .proceed, .conn .await,
    .conn (.step fun _ => 0), .conn (.step fun _ => 0), .conn (.step fun _ => 0),
    .conn (.step fun _ => 0)]

/- A call of a thread other than the one that made the channel, down to the accesses
of the queue. -/
theorem threads_calls_are_answered_in_order_of_a_thread :
    ∃ s, (byteRpc.threaded false false).ReachWith (Party.Both SharedOnce SendsOnce) s ∧
      s.1.poll.run.app.endings = [(0, .run () () 50)] ∧
      ∃ calls : List (Bool × MethodCall UInt8 Unit Unit),
      s.1.poll.traffic.submitted = calls.map Prod.snd ∧
        (∀ i, tasksOf i calls <+: s.1.calledBy i) ∧
        byteRpc.InOrder (numbered (calls.map Prod.snd)) s.2.run.app s.1.poll.run.app := by
  have run : ((byteRpc.threaded false false).run (byteRpc.threaded false false).start
      (callOfThread.map .inl ++ serverOfThread.map .inr ++ answerOfThread.map .inl)).map
        (fun s => (s.1.poll.traffic.submitted, s.1.poll.run.app.endings, s.2.run.app)) =
      some ([byteCall 5], [(0, .run () () 50)],
        [⟨ClientChannel.reqHeader 0 (byteCall 5), (), 5, 50⟩]) := by rfl
  obtain ⟨s, hs, same⟩ := Option.map_eq_some_iff.mp run
  simp only [Prod.mk.injEq] at same
  obtain ⟨submitted, endings, served⟩ := same
  have reached : (byteRpc.threaded false false).ReachWith (Party.Both SharedOnce SendsOnce) s := by
    refine Machine.reachWith_run .start (Machine.along_of_forall ?_ _) hs
    simp [callOfThread, serverOfThread, answerOfThread, spawns, pops, Party.Both, SharedOnce,
      SendsOnce, TakesOnce, accepts]
  have fits : byteRpc.Fits (numbered s.1.poll.traffic.submitted) s.2.run.app := by
    rw [submitted, served]
    exact byteRpc_fits
  exact ⟨s, reached, endings,
    threads_calls_are_answered_in_order byteRpc false false s reached fits⟩

end Rpc

end Xuanqiong
