import Xuanqiong.Base.Machine
import Xuanqiong.Base.Threads

/-! The notification protocol between `spawn` and the loop of an executor. It is the same
in the three executors; they differ in the wake event (a readable eventfd, completions on
the ring, a user event) and in the value `should_notify_` starts with. -/
namespace Xuanqiong

/- A call of `spawn`: after its push, and after it has won the flag. -/
inductive SpawnPoint where
  | idle
  | pushed
  | signal
  deriving DecidableEq

/- The executor's loop: taking tasks, after a failing `pop`, in the wait, among the events
the wait returned, and after a wake event has been cleared. -/
inductive LoopPoint where
  | popping
  | arming
  | waiting
  | handling
  | woken
  deriving DecidableEq

structure Notify (ι τ : Type) where
  taskQueue : List τ
  shouldNotify : Bool
  wake : Nat
  loop : LoopPoint
  spawn : ι → SpawnPoint

inductive NotifyOp (ι τ : Type) where
  | push (i : ι) (task : τ)
  | exchange (i : ι)
  | signal (i : ι)
  | pop
  | arm
  | waitReturn
  | wakeEvent (taken : Nat)
  | disarm
  | handled

section

variable {ι τ : Type} [DecidableEq ι]

/-- `armed` is the initial value of `should_notify_`. The wait also returns for the events
of connections, and the flag is left alone for them. Reading the eventfd clears all the
signals made so far, a completion of the ring is one of them. -/
def notifyMachine (ι τ : Type) [DecidableEq ι] (armed : Bool) :
    Machine (Notify ι τ) (NotifyOp ι τ) where
  start := ⟨[], armed, 0, .popping, fun _ => .idle⟩
  step s
    | .push i task =>
      if s.spawn i = .idle then
        some { s with
          taskQueue := s.taskQueue ++ [task], spawn := Function.update s.spawn i .pushed }
      else none
    | .exchange i =>
      if s.spawn i = .pushed then
        if s.shouldNotify then
          some { s with shouldNotify := false, spawn := Function.update s.spawn i .signal }
        else some { s with spawn := Function.update s.spawn i .idle }
      else none
    | .signal i =>
      if s.spawn i = .signal then
        some { s with wake := s.wake + 1, spawn := Function.update s.spawn i .idle }
      else none
    | .pop =>
      if s.loop = .popping then
        match s.taskQueue with
        | [] => some { s with loop := .arming }
        | _ :: rest => some { s with taskQueue := rest }
      else none
    | .arm => if s.loop = .arming then some { s with
        shouldNotify := true, loop := .waiting } else none
    | .waitReturn => if s.loop = .waiting then some { s with loop := .handling } else none
    | .wakeEvent taken =>
      if s.loop = .handling ∧ 0 < taken ∧ taken ≤ s.wake then
        some { s with wake := s.wake - taken, loop := .woken }
      else none
    | .disarm => if s.loop = .woken then some { s with
        shouldNotify := false, loop := .handling } else none
    | .handled => if s.loop = .handling then some { s with loop := .popping } else none

/- Somebody will still look at the queue: the wake event is pending, or a `spawn` is
between its push and its signal. -/
def Noticed (s : Notify ι τ) : Prop := 0 < s.wake ∨ ∃ i, s.spawn i ≠ .idle

/-- The executor is blocked with a task in its queue that nobody will tell it about. -/
def Lost (s : Notify ι τ) : Prop := s.loop = .waiting ∧ s.taskQueue ≠ [] ∧ ¬ Noticed s

/- The flag goes up over an empty queue, or while somebody will still look at it. -/
def ArmsNoticed (s : Notify ι τ) : NotifyOp ι τ → Prop
  | .arm => s.taskQueue = [] ∨ Noticed s
  | _ => True

/- While the loop waits, the flag is up, or the wake event is pending or about to be made. -/
def Notify.Told (s : Notify ι τ) : Prop :=
  s.loop = .waiting → s.shouldNotify = true ∨ 0 < s.wake ∨ ∃ i, s.spawn i = .signal

/-- While the executor waits, a spawn that finds the flag taken leaves it to another one,
and whoever took the flag has signalled or is about to. -/
structure Notify.Inv (s : Notify ι τ) : Prop where
  told : s.Told
  noticed : s.loop = .waiting → s.taskQueue = [] ∨ Noticed s

omit [DecidableEq ι] in
theorem Notify.Inv.away {s : Notify ι τ} (h : s.loop ≠ .waiting) : s.Inv :=
  ⟨fun hw => absurd hw h, fun hw => absurd hw h⟩

theorem Notify.Told.update {s : Notify ι τ} (h : s.Told) {i : ι} (quiet : s.spawn i ≠ .signal)
    (p : SpawnPoint) : Notify.Told { s with spawn := Function.update s.spawn i p } := fun waiting =>
  (h waiting).imp id (Or.imp id fun signals => exists_update (P := (· = .signal)) quiet signals p)

theorem noticed_of_update {f : ι → SpawnPoint} {i : ι} {p : SpawnPoint} (hp : p ≠ .idle) :
    ∃ j, Function.update f i p j ≠ .idle :=
  ⟨i, by rw [Function.update_self]; exact hp⟩

theorem push_keeps {s : Notify ι τ} (h : s.Inv) (i : ι) (task : τ) (idle : s.spawn i = .idle) :
    Notify.Inv { s with
      taskQueue := s.taskQueue ++ [task], spawn := Function.update s.spawn i .pushed } where
  told := h.told.update (by rw [idle]; decide) .pushed
  noticed := fun _ => Or.inr (Or.inr (noticed_of_update (by decide)))

theorem exchange_keeps (s : Notify ι τ) (i : ι) :
    Notify.Inv { s with shouldNotify := false, spawn := Function.update s.spawn i .signal } where
  told := fun _ => Or.inr (Or.inr ⟨i, Function.update_self _ _ _⟩)
  noticed := fun _ => Or.inr (Or.inr (noticed_of_update (by decide)))

theorem exchange_lost_keeps {s : Notify ι τ} (h : s.Inv) (i : ι) (pushed : s.spawn i = .pushed)
    (taken : s.shouldNotify = false) :
    Notify.Inv { s with spawn := Function.update s.spawn i .idle } := by
  have told := h.told.update (i := i) (by rw [pushed]; decide) .idle
  refine ⟨told, fun waiting => ?_⟩
  rcases told waiting with flag | woken | ⟨j, signals⟩
  · cases taken.symm.trans flag
  · exact Or.inr (Or.inl woken)
  · refine Or.inr (Or.inr ⟨j, fun idle => ?_⟩)
    cases signals.symm.trans idle

theorem signal_keeps (s : Notify ι τ) (i : ι) :
    Notify.Inv { s with wake := s.wake + 1, spawn := Function.update s.spawn i .idle } :=
  ⟨fun _ => Or.inr (Or.inl s.wake.succ_pos), fun _ => Or.inr (Or.inl s.wake.succ_pos)⟩

omit [DecidableEq ι] in
theorem arm_keeps {s : Notify ι τ} (ok : s.taskQueue = [] ∨ Noticed s) :
    Notify.Inv { s with shouldNotify := true, loop := .waiting } :=
  ⟨fun _ => Or.inl rfl, fun _ => ok⟩

theorem notify_step (armed : Bool) (s : Notify ι τ) (op : NotifyOp ι τ) (t : Notify ι τ) (h : s.Inv)
    (ok : ArmsNoticed s op) (hs : (notifyMachine ι τ armed).step s op = some t) : t.Inv := by
  cases op <;> simp only [notifyMachine, Option.ite_none_right_eq_some, Option.some.injEq] at hs
  case push i task =>
    obtain ⟨idle, rfl⟩ := hs
    exact push_keeps h i task idle
  case exchange i =>
    obtain ⟨pushed, hs⟩ := hs
    split at hs
    · cases Option.some.inj hs
      exact exchange_keeps s i
    · rename_i taken
      cases Option.some.inj hs
      exact exchange_lost_keeps h i pushed (by simpa using taken)
  case signal i =>
    obtain ⟨_, rfl⟩ := hs
    exact signal_keeps s i
  case pop =>
    obtain ⟨popping, hs⟩ := hs
    split at hs
    · cases Option.some.inj hs
      exact .away (by simp)
    · cases Option.some.inj hs
      exact .away (by simp [popping])
  case arm =>
    obtain ⟨_, rfl⟩ := hs
    exact arm_keeps ok
  case waitReturn | wakeEvent | disarm | handled =>
    obtain ⟨_, rfl⟩ := hs
    exact .away (by simp)

/- The calls of `spawn` that have pushed since the loop's last `pop`. -/
def pushedSincePop (_ : Notify ι τ) (op : NotifyOp ι τ) (_ : Notify ι τ) (late : ι → Bool) :
    ι → Bool :=
  match op with
  | .push i _ => Function.update late i true
  | .pop => fun _ => false
  | _ => late

/- No `spawn` makes both its push and its failing exchange between the failing `pop` and the
store of `true`. -/
def NoSpawnBetween (x : Notify ι τ × (ι → Bool)) : NotifyOp ι τ → Prop
  | .exchange i => x.1.loop = .arming → x.2 i = true → x.1.shouldNotify = true
  | _ => True

omit [DecidableEq ι] in
theorem no_spawn_between_of_away {x : Notify ι τ × (ι → Bool)} (away : x.1.loop ≠ .arming)
    (op : NotifyOp ι τ) : NoSpawnBetween x op := by
  cases op with
  | exchange => exact fun arming => absurd arming away
  | _ => trivial

/- Whoever has pushed since the failing `pop` has not yet looked at the flag, or has won it. -/
def Notify.ArmsSoon (x : Notify ι τ × (ι → Bool)) : Prop :=
  x.1.loop = .arming → x.1.taskQueue = [] ∨ 0 < x.1.wake ∨
    ∃ i, x.1.spawn i = .signal ∨ x.1.spawn i = .pushed ∧ x.2 i = true

omit [DecidableEq ι] in
theorem Notify.ArmsSoon.noticed {x : Notify ι τ × (ι → Bool)} (h : Notify.ArmsSoon x)
    (arming : x.1.loop = .arming) : x.1.taskQueue = [] ∨ Noticed x.1 := by
  rcases h arming with empty | woken | ⟨i, busy⟩
  · exact Or.inl empty
  · exact Or.inr (Or.inl woken)
  · refine Or.inr (Or.inr ⟨i, fun idle => ?_⟩)
    rcases busy with signals | ⟨pushed, _⟩
    · cases signals.symm.trans idle
    · cases pushed.symm.trans idle

theorem arms_soon_step (armed : Bool) (x : Notify ι τ × (ι → Bool)) (op : NotifyOp ι τ)
    (t : Notify ι τ) (h : Notify.ArmsSoon x) (ok : NoSpawnBetween x op)
    (hs : (notifyMachine ι τ armed).step x.1 op = some t) :
    Notify.ArmsSoon (t, pushedSincePop x.1 op t x.2) := by
  obtain ⟨s, late⟩ := x
  cases op <;> simp only [notifyMachine, Option.ite_none_right_eq_some, Option.some.injEq] at hs
  case push i task =>
    obtain ⟨_, rfl⟩ := hs
    refine fun _ => Or.inr (Or.inr ⟨i, Or.inr ⟨?_, ?_⟩⟩) <;> exact Function.update_self _ _ _
  case exchange i =>
    obtain ⟨pushed, hs⟩ := hs
    split at hs
    · cases Option.some.inj hs
      exact fun _ => Or.inr (Or.inr ⟨i, Or.inl (Function.update_self _ _ _)⟩)
    · rename_i taken
      cases Option.some.inj hs
      intro arming
      rcases h arming with empty | woken | ⟨j, busy⟩
      · exact Or.inl empty
      · exact Or.inr (Or.inl woken)
      · -- `i` itself pushed before the failing `pop`, so it is not the one that keeps the promise
        have other : j ≠ i := by
          rintro rfl
          rcases busy with signals | ⟨_, since⟩
          · cases pushed.symm.trans signals
          · exact taken (ok arming since)
        refine Or.inr (Or.inr ⟨j, ?_⟩)
        simp only [pushedSincePop, Function.update_of_ne other]
        exact busy
  case signal i =>
    obtain ⟨_, rfl⟩ := hs
    exact fun _ => Or.inr (Or.inl s.wake.succ_pos)
  case pop =>
    obtain ⟨popping, hs⟩ := hs
    split at hs
    · rename_i empty
      cases Option.some.inj hs
      exact fun _ => Or.inl empty
    · cases Option.some.inj hs
      intro arming
      cases popping.symm.trans arming
  case arm | waitReturn | wakeEvent | disarm | handled =>
    obtain ⟨_, rfl⟩ := hs
    rintro ⟨⟩

/-- No wake-up is lost in a run in which no `spawn` makes both its push and its failing exchange
between a failing `pop` and the store of `true` after it. When nobody else is about to signal, such
a `spawn` is lost at once. -/
theorem no_lost_wakeup_without_spawn_between (armed : Bool) :
    (∀ x, ((notifyMachine ι τ armed).observed (fun _ => false) pushedSincePop).ReachWith
      NoSpawnBetween x → ¬ Lost x.1) ∧
    ∀ (s : Notify ι τ) (i : ι) (task : τ), s.loop = .arming → s.shouldNotify = false → ¬ Noticed s →
      ∃ t, (notifyMachine ι τ armed).run s [.push i task, .exchange i, .arm] = some t ∧ Lost t := by
  constructor
  · rintro x h ⟨waiting, left, silent⟩
    have arms : (notifyMachine ι τ armed).ReachWith ArmsNoticed x.1 := by
      refine (h.unobserved ?_ (arms_soon_step armed) ?_).1
      · rintro ⟨⟩
      · intro y op t soon _ hs
        cases op with
        | arm => exact soon.noticed (Option.ite_none_right_eq_some.mp hs).1
        | _ => trivial
    have inv := arms.invariant (.away (by simp [notifyMachine])) (notify_step armed)
    exact (inv.noticed waiting).elim left silent
  · intro s i task arming down silent
    have idle : ∀ j, s.spawn j = .idle := fun j => by_contra fun busy => silent (Or.inr ⟨j, busy⟩)
    refine ⟨{ s with
      taskQueue := s.taskQueue ++ [task]
      shouldNotify := true
      loop := .waiting }, ?_, rfl,
      List.append_ne_nil_of_right_ne_nil _ (List.cons_ne_nil _ _), silent⟩
    have back : Function.update s.spawn i .idle = s.spawn :=
      Function.update_eq_self_iff.mpr (idle i).symm
    simp only [Machine.run, notifyMachine, idle i, if_true, Option.bind_some,
      Function.update_self, down, Bool.false_eq_true, if_false, Function.update_idem, arming, back]

/- Two threads push between the failing `pop` and the store, and look at the flag after it. -/
theorem no_lost_wakeup_without_spawn_between_of_two_threads :
    ∃ x, ((notifyMachine Bool Nat false).observed (fun _ => false) pushedSincePop).ReachWith
        NoSpawnBetween x ∧
      x.1.loop = .waiting ∧ x.1.taskQueue = [7, 8] ∧ x.1.wake = 0 ∧ ¬ Lost x.1 := by
  let history := (notifyMachine Bool Nat false).observed (fun _ => false) pushedSincePop
  obtain ⟨y, hy, z, hz, x, hx, loop, loop', waiting, left, silent⟩ : ∃ y,
      history.run history.start [.pop, .push false 7, .push true 8, .arm] = some y ∧
      ∃ z, history.step y (.exchange false) = some z ∧
      ∃ x, history.step z (.exchange true) = some x ∧
      y.1.loop = .waiting ∧ z.1.loop = .waiting ∧
      x.1.loop = .waiting ∧ x.1.taskQueue = [7, 8] ∧ x.1.wake = 0 :=
    ⟨_, rfl, _, rfl, _, rfl, rfl, rfl, rfl, rfl, rfl⟩
  have armed : history.ReachWith NoSpawnBetween y := by
    refine Machine.reachWith_run .start (Machine.along_of_forall ?_ _) hy
    simp [NoSpawnBetween]
  have first := armed.next (no_spawn_between_of_away (by rw [loop]; decide) _) hz
  have second := first.next (no_spawn_between_of_away (by rw [loop']; decide) _) hx
  exact ⟨x, second, waiting, left, silent, (no_lost_wakeup_without_spawn_between false).1 x second⟩

/-- A whole `spawn` between the failing `pop` and the store of `true` finds the flag down.
With the flag up at first, the first round of the loop brings it down. -/
theorem spawn_between_pop_and_arm_is_lost :
    (∃ s, (notifyMachine Unit Nat false).Reach s ∧ Lost s) ∧
    ∃ s, (notifyMachine Unit Nat true).Reach s ∧ Lost s := by
  constructor
  · have hr : ∃ s, (notifyMachine Unit Nat false).run (notifyMachine Unit Nat false).start
        [.pop, .push () 7, .exchange (), .arm] = some s ∧ s.loop = .waiting ∧ s.taskQueue = [7] ∧
        s.wake = 0 ∧ s.spawn () = .idle := ⟨_, rfl, rfl, rfl, rfl, rfl⟩
    obtain ⟨s, hs, hw, hq, wake, idle⟩ := hr
    exact ⟨s, Machine.reach_run .start hs, hw, by simp [hq], by simp [Noticed, wake, idle]⟩
  · have hr : ∃ s, (notifyMachine Unit Nat true).run (notifyMachine Unit Nat true).start
        [.push () 6, .exchange (), .signal (), .pop, .pop, .arm, .waitReturn, .wakeEvent 1, .disarm,
          .handled, .pop, .push () 7, .exchange (), .arm] = some s ∧ s.loop = .waiting ∧
        s.taskQueue = [7] ∧ s.wake = 0 ∧ s.spawn () = .idle := ⟨_, rfl, rfl, rfl, rfl, rfl⟩
    obtain ⟨s, hs, hw, hq, wake, idle⟩ := hr
    exact ⟨s, Machine.reach_run .start hs, hw, by simp [hq], by simp [Noticed, wake, idle]⟩

end

end Xuanqiong
