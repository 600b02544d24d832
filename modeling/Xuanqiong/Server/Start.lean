import Mathlib.Data.List.Nodup
import Xuanqiong.Scheduler.TaskOrder

/-! `RpcServer::start`: connections are accepted and set up one after another, each of them gets its
two coroutines on the executor, and its descriptor is closed by the destructor of its socket. -/
namespace Xuanqiong

/- Connections are numbered as they are accepted. -/
inductive ServerTask where
  | sendFn (conn : Nat)
  | recvFn (conn : Nat)
  deriving DecidableEq

inductive FdParam where
  | nonblock
  | sendbuf
  | recvbuf
  | keepalive
  | nodelay
  deriving DecidableEq

def FdParam.all : List FdParam := [.nonblock, .sendbuf, .recvbuf, .keepalive, .nodelay]

def closeFd (fd : Nat) (openFds : List Nat) : List Nat := openFds.filter (· != fd)

/- Whatever fails closes the descriptor and goes on; calls on a closed descriptor fail. -/
def setFdParam (fd : Nat) (ok : FdParam → Bool) (openFds : List Nat) : List Nat :=
  FdParam.all.foldl
    (fun fds param => if fds.contains fd && ok param then fds else closeFd fd fds) openFds

/- `conn` is the local variable of the loop of `start`, `due` the calls of `spawn` its body has
still to make. A connection is destroyed some time after both of its coroutines have finished. -/
structure ServerRun where
  executor : ExecutorRun Unit ServerTask
  openFds : List Nat
  fds : List Nat
  conn : Option Nat
  due : List ServerTask
  finished : List ServerTask
  destroyed : List Nat

inductive ServerOp where
  | accept (fd : Nat) (ok : FdParam → Bool)
  | acceptFails
  | spawn
  | next
  | execute (op : ExecutorOp Unit ServerTask)
  | finish (task : ServerTask)
  | destroy (conn : Nat)

def MpmcPoint.isIdle {T : Type} : MpmcPoint T → Bool
  | .idle => true
  | _ => false

/-- `others` are the descriptors the process has besides those of its connections. -/
def startMachine (armed : Bool) (others : List Nat) : Machine ServerRun ServerOp where
  start := ⟨(executorMachine Unit ServerTask armed).start, others, [], none, [], [], []⟩
  step s
    | .accept fd ok =>
      if s.conn.isNone && !s.openFds.contains fd then
        some { s with
          openFds := setFdParam fd ok (fd :: s.openFds)
          fds := s.fds ++ [fd]
          conn := some s.fds.length
          due := [.sendFn s.fds.length, .recvFn s.fds.length] }
      else none
    | .acceptFails => if s.conn.isNone then some s else none
    | .spawn =>
      match s.due with
      | [] => none
      | task :: rest =>
        ((executorMachine Unit ServerTask armed).step s.executor (.spawn () task)).map fun e =>
          { s with executor := e, due := rest }
    | .next =>
      if s.due.isEmpty && s.executor.spawn () == .idle &&
          (s.executor.taskQueue.threads (some ())).isIdle then some { s with conn := none }
      else none
    | .execute op =>
      if op.isSpawn then none
      else
        ((executorMachine Unit ServerTask armed).step s.executor op).map
          fun e => { s with executor := e }
    | .finish task =>
      if s.executor.ran.contains (some ((), task)) && !s.finished.contains task then
        some { s with finished := s.finished ++ [task] }
      else none
    | .destroy conn =>
      if s.finished.contains (.sendFn conn) && s.finished.contains (.recvFn conn) &&
          !s.destroyed.contains conn && s.conn != some conn then
        s.fds[conn]?.map fun fd =>
          { s with openFds := closeFd fd s.openFds, destroyed := s.destroyed ++ [conn] }
      else none

def started (n : Nat) : List ServerTask := (List.range n).flatMap fun c => [.sendFn c, .recvFn c]

theorem started_succ (n : Nat) : started (n + 1) = started n ++ [.sendFn n, .recvFn n] := by
  simp only [started, List.range_succ, List.flatMap_append, List.flatMap_cons, List.flatMap_nil,
    List.append_nil]

theorem mem_closeFd {fd x : Nat} {fds : List Nat} : x ∈ closeFd fd fds ↔ x ∈ fds ∧ x ≠ fd := by
  simp [closeFd]

theorem closeFd_of_closed {fd : Nat} {fds : List Nat} (closed : fd ∉ fds) :
    closeFd fd fds = fds := by
  refine List.filter_eq_self.mpr fun x hx => ?_
  have : x ≠ fd := by
    rintro rfl
    exact closed hx
  simpa using this

theorem setParams_closed {fd : Nat} {ok : FdParam → Bool} {fds : List Nat} (closed : fd ∉ fds)
    (params : List FdParam) :
    params.foldl
      (fun fds param => if fds.contains fd && ok param then fds else closeFd fd fds) fds =
      fds := by
  induction params with
  | nil => rfl
  | cons param rest ih =>
    have fails : (fds.contains fd && ok param) = false := by simp [closed]
    rw [List.foldl_cons, fails, if_neg Bool.false_ne_true, closeFd_of_closed closed, ih]

theorem setParams_eq {fd : Nat} {ok : FdParam → Bool} {fds : List Nat} (isOpen : fd ∈ fds)
    (params : List FdParam) :
    params.foldl
      (fun fds param => if fds.contains fd && ok param then fds else closeFd fd fds) fds =
      if params.all ok then fds else closeFd fd fds := by
  induction params with
  | nil => rfl
  | cons param rest ih =>
    rw [List.foldl_cons, List.all_cons]
    cases h : ok param with
    | true =>
      rw [Bool.and_true, if_pos (by simpa using isOpen), ih, Bool.true_and]
    | false =>
      rw [Bool.and_false, if_neg Bool.false_ne_true, Bool.false_and, if_neg Bool.false_ne_true]
      exact setParams_closed (fun h => (mem_closeFd.mp h).2 rfl) rest

theorem mem_all (param : FdParam) : param ∈ FdParam.all := by
  cases param <;> decide

theorem setFdParam_ok {fd : Nat} {ok : FdParam → Bool} {fds : List Nat} (isOpen : fd ∈ fds)
    (all : ∀ param, ok param = true) : setFdParam fd ok fds = fds :=
  (setParams_eq isOpen _).trans (if_pos (List.all_eq_true.mpr fun param _ => all param))

theorem setFdParam_fails {fd : Nat} {ok : FdParam → Bool} {fds : List Nat} (isOpen : fd ∈ fds)
    {param : FdParam} (fails : ok param = false) : setFdParam fd ok fds = closeFd fd fds := by
  refine (setParams_eq isOpen _).trans (if_neg fun all => ?_)
  have := List.all_eq_true.mp all param (mem_all param)
  rw [fails] at this
  cases this

section

variable {armed : Bool} {others : List Nat} {s t : ServerRun}

/-- What a step does, with its guards. -/
inductive ServerMove (armed : Bool) (s : ServerRun) : ServerOp → ServerRun → Prop where
  | accept {fd : Nat} {ok : FdParam → Bool} (free : s.conn = none) (new : fd ∉ s.openFds) :
      ServerMove armed s (.accept fd ok) { s with
        openFds := setFdParam fd ok (fd :: s.openFds)
        fds := s.fds ++ [fd]
        conn := some s.fds.length
        due := [.sendFn s.fds.length, .recvFn s.fds.length] }
  | acceptFails : ServerMove armed s .acceptFails s
  | spawn {task : ServerTask} {rest : List ServerTask} {e : ExecutorRun Unit ServerTask}
      (due : s.due = task :: rest)
      (step : (executorMachine Unit ServerTask armed).step s.executor (.spawn () task) = some e) :
      ServerMove armed s .spawn { s with executor := e, due := rest }
  | next (done : s.due = []) : ServerMove armed s .next { s with conn := none }
  | execute {op : ExecutorOp Unit ServerTask} {e : ExecutorRun Unit ServerTask}
      (other : op.isSpawn = false)
      (step : (executorMachine Unit ServerTask armed).step s.executor op = some e) :
      ServerMove armed s (.execute op) { s with executor := e }
  | finish {task : ServerTask} : ServerMove armed s (.finish task) { s with
      finished := s.finished ++ [task] }
  | destroy {conn fd : Nat} (alive : conn ∉ s.destroyed) (own : s.fds[conn]? = some fd) :
      ServerMove armed s (.destroy conn)
        { s with openFds := closeFd fd s.openFds, destroyed := s.destroyed ++ [conn] }

theorem server_move {op : ServerOp} (hs : (startMachine armed others).step s op = some t) :
    ServerMove armed s op t := by
  cases op with
  | accept fd ok =>
    obtain ⟨guard, hs⟩ := Option.ite_none_right_eq_some.mp hs
    cases hs
    simp only [Bool.and_eq_true, Option.isNone_iff_eq_none, Bool.not_eq_true', List.contains_eq_mem,
      decide_eq_false_iff_not] at guard
    exact .accept guard.1 guard.2
  | acceptFails =>
    obtain ⟨_, hs⟩ := Option.ite_none_right_eq_some.mp hs
    cases hs
    exact .acceptFails
  | spawn =>
    simp only [startMachine] at hs
    split at hs
    · cases hs
    · rename_i task rest due
      obtain ⟨e, step, rfl⟩ := Option.map_eq_some_iff.mp hs
      exact .spawn due step
  | next =>
    obtain ⟨guard, hs⟩ := Option.ite_none_right_eq_some.mp hs
    cases hs
    simp only [Bool.and_eq_true, List.isEmpty_iff] at guard
    exact .next guard.1.1
  | execute op =>
    obtain ⟨other, hs⟩ := Option.ite_none_left_eq_some.mp hs
    obtain ⟨e, step, rfl⟩ := Option.map_eq_some_iff.mp hs
    exact .execute (by simpa using other) step
  | finish task =>
    obtain ⟨_, hs⟩ := Option.ite_none_right_eq_some.mp hs
    cases hs
    exact .finish
  | destroy conn =>
    obtain ⟨guard, hs⟩ := Option.ite_none_right_eq_some.mp hs
    obtain ⟨fd, own, rfl⟩ := Option.map_eq_some_iff.mp hs
    simp only [Bool.and_eq_true, Bool.not_eq_true', List.contains_eq_mem,
      decide_eq_false_iff_not] at guard
    exact .destroy guard.1.2 own

structure ServerRun.Starts (s : ServerRun) : Prop where
  executor : s.executor.Inv
  order : s.executor.spawned () ++ s.due = started s.fds.length
  between : s.conn = none → s.due = []

theorem starts_step {op : ServerOp} (h : s.Starts)
    (hs : (startMachine armed others).step s op = some t) :
    t.Starts := by
  cases server_move hs with
  | accept free new =>
    refine ⟨h.executor, ?_, nofun⟩
    have before := h.order
    rw [h.between free, List.append_nil] at before
    rw [List.length_append, List.length_singleton, started_succ, before]
  | acceptFails => exact h
  | @spawn task rest e due step =>
    obtain ⟨_, _, follows⟩ := executor_follows h.executor step
    refine ⟨follows.inv, ?_, fun free => ?_⟩
    · have before := h.order
      rw [due] at before
      rw [executor_spawn step, ← before, List.append_assoc, List.singleton_append]
    · rw [h.between free] at due
      cases due
  | next done => exact ⟨h.executor, h.order, fun _ => done⟩
  | execute other step =>
    obtain ⟨_, _, follows⟩ := executor_follows h.executor step
    exact ⟨follows.inv, executor_spawned other step ▸ h.order, h.between⟩
  | finish => exact ⟨h.executor, h.order, h.between⟩
  | destroy => exact ⟨h.executor, h.order, h.between⟩

theorem starts_reach {ok : ServerRun → ServerOp → Prop}
    (h : (startMachine armed others).ReachWith ok s) :
    s.Starts :=
  h.invariant ⟨executor_start armed, rfl, fun _ => rfl⟩ fun _ _ _ starts _ hs =>
  starts_step starts hs

/-- The executor runs the coroutines of the connections in the order in which they were accepted,
and of each connection `send_fn` before `recv_fn`: when `recv_fn` starts, there is a coroutine for
`resume_write` to resume. -/
theorem server_runs_send_fn_first (armed : Bool) (others : List Nat) (s : ServerRun)
    (h : (startMachine armed others).Reach s) :
    ∃ tasks, s.executor.ran = tasks.map (fun task => some ((), task)) ∧
    tasks <+: started s.fds.length := by
  have starts := starts_reach h
  obtain ⟨tasks, ran, left⟩ := starts.executor.popping.ran
  have spawned :=
    (tasksOf_mono () (left.trans (List.prefix_append _ s.executor.fifo.waiting))).trans
    (starts.executor.pushing ()).spawned
  refine ⟨tasksOf () tasks, ?_, spawned.trans (starts.order ▸ List.prefix_append _ s.due)⟩
  rw [ran, tasksOf_unit, List.map_map]
  rfl

def acceptOne (fd : Nat) (ok : FdParam → Bool) : List ServerOp :=
  [.accept fd ok, .spawn] ++ List.replicate 7 (.execute (.access (some ()))) ++
    [.execute (.exchange ()), .spawn] ++ List.replicate 7 (.execute (.access (some ()))) ++
    [.execute (.exchange ()), .next]

def runOne : List ServerOp := .execute .pop :: List.replicate 12 (.execute (.access none))

theorem server_runs_send_fn_first_after_accept :
    ∃ s, (startMachine false [3]).run (startMachine false [3]).start
        (acceptOne 5 (fun _ => true) ++ runOne) = some s ∧
      s.executor.ran = [some ((), .sendFn 0)] ∧ ∃ tasks,
        s.executor.ran = tasks.map (fun task => some ((), task)) ∧
        tasks <+: started s.fds.length := by
  have run : ((startMachine false [3]).run (startMachine false [3]).start
      (acceptOne 5 (fun _ => true) ++ runOne)).map (·.executor.ran) =
        some [some ((), .sendFn 0)] := by
    decide +kernel
  obtain ⟨s, hs, ran⟩ := Option.map_eq_some_iff.mp run
  exact ⟨s, hs, ran, server_runs_send_fn_first false [3] s (Machine.reach_run .start hs)⟩

def ServerRun.Owner (s : ServerRun) (conn fd : Nat) : Prop :=
    conn ∉ s.destroyed ∧ s.fds[conn]? = some fd

structure ServerRun.Owns (s : ServerRun) (others : List Nat) : Prop where
  openFds : ∀ fd, fd ∈ s.openFds ↔ fd ∈ others ∨ ∃ conn, s.Owner conn fd
  apart : ∀ conn fd, s.Owner conn fd → fd ∉ others
  alone : ∀ conn conn' fd, s.Owner conn fd → s.Owner conn' fd → conn = conn'
  made : ∀ conn ∈ s.destroyed, conn < s.fds.length

def SetsUp (_ : ServerRun) : ServerOp → Prop
  | .accept _ ok => ∀ param, ok param = true
  | _ => True

theorem owner_accept {fd : Nat} (made : ∀ conn ∈ s.destroyed, conn < s.fds.length)
    (fds : t.fds = s.fds ++ [fd]) (destroyed : t.destroyed = s.destroyed) (conn x : Nat) :
    t.Owner conn x ↔ s.Owner conn x ∨ conn = s.fds.length ∧ x = fd := by
  rw [ServerRun.Owner, ServerRun.Owner, fds, destroyed, List.getElem?_append]
  split
  · rename_i lt
    constructor
    · exact Or.inl
    · rintro (own | ⟨rfl, _⟩)
      · exact own
      · exact absurd lt (Nat.lt_irrefl _)
  · rename_i ge
    have none : s.fds[conn]? = none := List.getElem?_eq_none (by omega)
    rw [none, List.getElem?_singleton]
    constructor
    · rintro ⟨_, own⟩
      split at own
      · rename_i first
        exact Or.inr ⟨by omega, (Option.some.inj own).symm⟩
      · cases own
    · rintro (⟨_, own⟩ | ⟨rfl, rfl⟩)
      · cases own
      · refine ⟨fun h => Nat.lt_irrefl _ (made _ h), ?_⟩
        rw [Nat.sub_self, if_pos rfl]

theorem ServerRun.Owns.accept {fd : Nat} (h : s.Owns others) (new : fd ∉ s.openFds)
    (openFds : t.openFds = fd :: s.openFds) (fds : t.fds = s.fds ++ [fd])
    (destroyed : t.destroyed = s.destroyed) : t.Owns others := by
  have owner := owner_accept h.made fds destroyed
  have fresh : fd ∉ others ∧ ∀ conn, ¬ s.Owner conn fd := by
    have := mt (h.openFds fd).mpr new
    push Not at this
    exact this
  refine ⟨fun x => ?_, fun conn x own => ?_, fun conn conn' x own own' => ?_, fun conn hc => ?_⟩
  · rw [openFds, List.mem_cons, h.openFds]
    simp only [owner]
    constructor
    · rintro (rfl | other | ⟨conn, own⟩)
      · exact Or.inr ⟨_, Or.inr ⟨rfl, rfl⟩⟩
      · exact Or.inl other
      · exact Or.inr ⟨conn, Or.inl own⟩
    · rintro (other | ⟨conn, own | ⟨_, rfl⟩⟩)
      · exact Or.inr (Or.inl other)
      · exact Or.inr (Or.inr ⟨conn, own⟩)
      · exact Or.inl rfl
  · rcases (owner conn x).mp own with own | ⟨_, rfl⟩
    · exact h.apart conn x own
    · exact fresh.1
  · rcases (owner conn x).mp own with own | ⟨rfl, rfl⟩
    · rcases (owner conn' x).mp own' with own' | ⟨rfl, rfl⟩
      · exact h.alone conn conn' x own own'
      · exact absurd own (fresh.2 conn)
    · rcases (owner conn' x).mp own' with own' | ⟨rfl, _⟩
      · exact absurd own' (fresh.2 conn')
      · rfl
  · rw [destroyed] at hc
    rw [fds, List.length_append]
    exact (h.made conn hc).trans_le (Nat.le_add_right _ _)

theorem ServerRun.Owns.destroy {conn fd : Nat} (h : s.Owns others) (own : s.Owner conn fd) :
    Owns { s with openFds := closeFd fd s.openFds, destroyed := s.destroyed ++ [conn] } others := by
  have owner : ∀ c x, Owner { s with
      openFds := closeFd fd s.openFds, destroyed := s.destroyed ++ [conn] }
      c x ↔ s.Owner c x ∧ c ≠ conn := by
    intro c x
    simp only [Owner, List.mem_append, List.mem_singleton, not_or]
    tauto
  refine ⟨fun x => ?_, fun c x o => h.apart c x ((owner c x).mp o).1, fun c c' x o o' => ?_,
    fun c hc => ?_⟩
  · simp only [owner, mem_closeFd, h.openFds]
    constructor
    · rintro ⟨other | ⟨c, o⟩, ne⟩
      · exact Or.inl other
      · refine Or.inr ⟨c, o, ?_⟩
        rintro rfl
        exact ne (Option.some.inj (o.2.symm.trans own.2))
    · rintro (other | ⟨c, o, ne⟩)
      · refine ⟨Or.inl other, ?_⟩
        rintro rfl
        exact h.apart conn x own other
      · refine ⟨Or.inr ⟨c, o⟩, ?_⟩
        rintro rfl
        exact ne (h.alone c conn x o own)
  · exact h.alone c c' x ((owner c x).mp o).1 ((owner c' x).mp o').1
  · rcases List.mem_append.mp hc with hc | hc
    · exact h.made c hc
    · rw [List.mem_singleton.mp hc]
      exact (List.getElem?_eq_some_iff.mp own.2).1

theorem owns_step (s : ServerRun) (op : ServerOp) (t : ServerRun) (h : s.Owns others)
    (ok : SetsUp s op) (hs : (startMachine armed others).step s op = some t) : t.Owns others := by
  cases server_move hs with
  | accept _ new => exact h.accept new (setFdParam_ok List.mem_cons_self ok) rfl rfl
  | destroy alive own => exact h.destroy ⟨alive, own⟩
  | acceptFails => exact h
  | spawn | next | execute | finish => exact ⟨h.openFds, h.apart, h.alone, h.made⟩

theorem owns_start (armed : Bool) (others : List Nat) :
    (startMachine armed others).start.Owns others := by
  refine ⟨fun fd => ?_, ?_, ?_, ?_⟩ <;> simp [startMachine, ServerRun.Owner]

/-- As long as every call of `set_fd_param` succeeds, the open descriptors are those of the process
itself and those of the connections, each connection has one of its own, and nothing but its
destructor closes it. When a call fails, the connection is made nonetheless, over a descriptor that
is closed; the next connection may get the same number, and loses it when the first is destroyed. -/
theorem connections_own_their_descriptors (armed : Bool) (others : List Nat) :
    (∀ s, (startMachine armed others).ReachWith SetsUp s → s.Owns others) ∧
    (∀ s t fd ok param, (startMachine armed others).step s (.accept fd ok) = some t →
      ok param = false →
      t.fds[s.fds.length]? = some fd ∧ fd ∉ t.openFds) ∧
    ∃ s, (startMachine false [3]).Reach s ∧ s.Owner 1 5 ∧ 5 ∉ s.openFds := by
  refine ⟨fun s h => h.invariant (owns_start armed others) owns_step, ?_, ?_⟩
  · intro s t fd ok param hs fails
    cases server_move hs with
    | accept free new =>
      refine ⟨?_, ?_⟩
      · rw [List.getElem?_append_right (Nat.le_refl _), Nat.sub_self, List.getElem?_cons_zero]
      · rw [setFdParam_fails List.mem_cons_self fails]
        exact fun h => (mem_closeFd.mp h).2 rfl
  · have run : ((startMachine false [3]).run (startMachine false [3]).start
        (acceptOne 5 (fun _ => false) ++ acceptOne 5 (fun _ => true) ++ runOne ++ runOne ++
          [.finish (.sendFn 0), .finish (.recvFn 0), .destroy 0])).map
        (fun s => (s.destroyed, s.fds[1]?, s.openFds)) =
          some ([0], some 5, [3]) := by decide +kernel
    obtain ⟨s, hs, facts⟩ := Option.map_eq_some_iff.mp run
    simp only [Prod.mk.injEq] at facts
    obtain ⟨alive, own, closed⟩ := facts
    exact ⟨s, Machine.reach_run .start hs, ⟨by simp [alive], own⟩, by simp [closed]⟩

theorem connections_own_their_descriptors_after_accept :
    ∃ s, (startMachine false [3]).run (startMachine false [3]).start
      [.accept 5 fun _ => true] = some s ∧
      s.openFds = [5, 3] ∧ s.Owns [3] := by
  obtain ⟨s, hs, opened⟩ : ∃ s, (startMachine false [3]).run (startMachine false [3]).start
      [.accept 5 fun _ => true] = some s ∧ s.openFds = [5, 3] := ⟨_, rfl, rfl⟩
  have along : (startMachine false [3]).Along SetsUp (startMachine false [3]).start
      [.accept 5 fun _ => true] := ⟨fun _ => rfl, fun _ _ => trivial⟩
  exact ⟨s, hs, opened,
    (connections_own_their_descriptors false [3]).1 s (Machine.reachWith_run .start along hs)⟩

end

end Xuanqiong
