import Mathlib.Logic.Function.Basic

/-! Machines whose labels carry every choice that is not theirs: scheduling, the
results of system calls and the arguments of the calls made on them. A step is
then an executable partial function, and a run is a list of labels. -/
namespace Xuanqiong

universe u v

structure Machine (S : Type u) (A : Type v) where
  start : S
  step : S → A → Option S

namespace Machine

variable {S : Type u} {A : Type v}

def run (m : Machine S A) : S → List A → Option S
  | s, [] => some s
  | s, a :: rest => (m.step s a).bind (fun t => m.run t rest)

theorem run_append (m : Machine S A) (s : S) (as bs : List A) :
    m.run s (as ++ bs) = (m.run s as).bind fun t => m.run t bs := by
  induction as generalizing s with
  | nil => rfl
  | cons a rest ih => simp only [List.cons_append, run, Option.bind_assoc, ih]

/- States at the end of runs in which every step meets `ok` in the state before it. -/
inductive ReachWith (m : Machine S A) (ok : S → A → Prop) : S → Prop where
  | start : ReachWith m ok m.start
  | next {s t : S} {a : A} : ReachWith m ok s → ok s a → m.step s a = some t → ReachWith m ok t

def Reach (m : Machine S A) : S → Prop := m.ReachWith (fun _ _ => True)

theorem ReachWith.invariant {m : Machine S A} {ok : S → A → Prop} {I : S → Prop}
    (initial : I m.start) (preserves : ∀ s a t, I s → ok s a → m.step s a = some t → I t)
    {s : S} (h : m.ReachWith ok s) : I s := by
  induction h with
  | start => exact initial
  | next _ hok hstep ih => exact preserves _ _ _ ih hok hstep

theorem ReachWith.mono {m : Machine S A} {ok ok' : S → A → Prop} (weaker : ∀ s a, ok s a → ok' s a)
    {s : S} (h : m.ReachWith ok s) : m.ReachWith ok' s := by
  induction h with
  | start => exact .start
  | next _ hok hstep ih => exact .next ih (weaker _ _ hok) hstep

theorem ReachWith.reach {m : Machine S A} {ok : S → A → Prop} {s : S} (h : m.ReachWith ok s) :
    m.Reach s := h.mono (fun _ _ _ => trivial)

theorem ReachWith.meeting {m : Machine S A} {ok ok' : S → A → Prop} {I : S → Prop}
    (initial : I m.start) (preserves : ∀ s a t, I s → ok s a → m.step s a = some t → I t)
    (meets : ∀ s a, I s → ok s a → ok' s a) {s : S} (h : m.ReachWith ok s) :
    m.ReachWith ok' s ∧ I s := by
  induction h with
  | start => exact ⟨.start, initial⟩
  | next _ hok hs ih => exact ⟨ih.1.next (meets _ _ ih.2 hok) hs, preserves _ _ _ ih.2 hok hs⟩

theorem Reach.invariant {m : Machine S A} {I : S → Prop} (initial : I m.start)
    (preserves : ∀ s a t, I s → m.step s a = some t → I t) {s : S} (h : m.Reach s) : I s :=
  ReachWith.invariant initial (fun s a t hi _ hs => preserves s a t hi hs) h

theorem Reach.step {m : Machine S A} {s t : S} {a : A} (h : m.Reach s)
    (hs : m.step s a = some t) : m.Reach t := ReachWith.next h trivial hs

theorem run_simulates {T : Type u} {m : Machine S A} {n : Machine T A} {R : S → T → Prop}
    (preserves : ∀ s t a s', R s t → m.step s a = some s' → ∃ t', n.step t a = some t' ∧ R s' t')
    {s s' : S} {t : T} {as : List A} (related : R s t) (hr : m.run s as = some s') :
    ∃ t', n.run t as = some t' ∧ R s' t' := by
  induction as generalizing s t with
  | nil => cases Option.some.inj hr; exact ⟨t, rfl, related⟩
  | cons a rest ih =>
    obtain ⟨u, hu, hs⟩ := Option.bind_eq_some_iff.mp hr
    obtain ⟨v, hv, hrel⟩ := preserves s t a u related hu
    obtain ⟨t', ht, hrel'⟩ := ih hrel hs
    exact ⟨t', Option.bind_eq_some_iff.mpr ⟨v, hv, ht⟩, hrel'⟩

def Along (m : Machine S A) (ok : S → A → Prop) : S → List A → Prop
  | _, [] => True
  | s, a :: rest => ok s a ∧ ∀ t, m.step s a = some t → m.Along ok t rest

theorem reachWith_run {m : Machine S A} {ok : S → A → Prop} {s t : S} {as : List A}
    (h : m.ReachWith ok s) (along : m.Along ok s as) (hr : m.run s as = some t) :
    m.ReachWith ok t := by
  induction as generalizing s with
  | nil => cases Option.some.inj hr; exact h
  | cons a rest ih =>
    obtain ⟨u, hu, ht⟩ := Option.bind_eq_some_iff.mp hr
    exact ih (.next h along.1 hu) (along.2 u hu) ht

theorem along_of_forall {m : Machine S A} {ok : S → A → Prop} {as : List A}
    (h : ∀ a ∈ as, ∀ s, ok s a) (s : S) : m.Along ok s as := by
  induction as generalizing s with
  | nil => trivial
  | cons a rest ih =>
    exact ⟨h a List.mem_cons_self s, fun t _ => ih (fun b hb => h b (List.mem_cons_of_mem _ hb)) t⟩

instance decidableAlong (m : Machine S A) (ok : S → A → Prop) [∀ s a, Decidable (ok s a)] :
    ∀ s as, Decidable (m.Along ok s as)
  | _, [] => isTrue trivial
  | s, a :: rest =>
    match hs : m.step s a with
    | none => decidable_of_iff (ok s a) (by simp [Along, hs])
    | some t =>
      have := decidableAlong m ok t rest
      decidable_of_iff (ok s a ∧ m.Along ok t rest) (by simp [Along, hs])

theorem reach_run {m : Machine S A} {s t : S} {as : List A} (h : m.Reach s)
    (hr : m.run s as = some t) : m.Reach t :=
  reachWith_run h (along_of_forall (fun _ _ _ => trivial) s) hr

section

variable {G : Type u} {ok : S → A → Prop} {ok' : S × G → A → Prop} {g : G} {see : S → A → S → G → G}

/- The machine with a record of its run beside it, which no step reads. -/
def observed (m : Machine S A) (g : G) (see : S → A → S → G → G) : Machine (S × G) A where
  start := (m.start, g)
  step x a := (m.step x.1 a).map fun t => (t, see x.1 a t x.2)

theorem observed_step {m : Machine S A} {x : S × G} {a : A} {t : S} (hs : m.step x.1 a = some t) :
    (m.observed g see).step x a = some (t, see x.1 a t x.2) :=
  Option.map_eq_some_iff.mpr ⟨t, hs, rfl⟩

theorem ReachWith.unobserved {m : Machine S A} {I : S × G → Prop} (initial : I (m.start, g))
    (preserves : ∀ x a t, I x → ok' x a → m.step x.1 a = some t → I (t, see x.1 a t x.2))
    (meets : ∀ x a t, I x → ok' x a → m.step x.1 a = some t → ok x.1 a) {x : S × G}
    (h : (m.observed g see).ReachWith ok' x) : m.ReachWith ok x.1 ∧ I x := by
  induction h with
  | start => exact ⟨.start, initial⟩
  | next _ hok hs ih =>
    obtain ⟨reached, inv⟩ := ih
    obtain ⟨t, run, rfl⟩ := Option.map_eq_some_iff.mp hs
    exact ⟨reached.next (meets _ _ _ inv hok run) run, preserves _ _ _ inv hok run⟩

theorem ReachWith.observe {m : Machine S A} (meets : ∀ x a, ok x.1 a → ok' x a) {s : S}
    (h : m.ReachWith ok s) : ∃ x, (m.observed g see).ReachWith ok' x ∧ x.1 = s := by
  induction h with
  | start => exact ⟨_, .start, rfl⟩
  | next _ hok hs ih =>
    obtain ⟨x, reached, rfl⟩ := ih
    exact ⟨_, reached.next (meets _ _ hok) (observed_step hs), rfl⟩

end

/- Of the labels in `busy`, a run from `s` takes so many at most; and until it has halted something
is due, and whatever is due can be done. -/
def Halts (m : Machine S A) (busy : A → Bool) (due : S → A → Prop) (halted : S → Prop)
    (s : S) : Prop :=
  ∃ bound, ∀ as t, m.run s as = some t →
    as.countP busy ≤ bound ∧ (halted t ∨ (∃ a, due t a) ∧ ∀ a, due t a → ∃ u, m.step t a = some u)

section

variable {m : Machine S A} {busy : A → Bool} {due : S → A → Prop} {halted I : S → Prop} {s : S}

theorem run_invariant (keeps : ∀ s a t, I s → m.step s a = some t → I t) {t : S}
    {as : List A} (h : I s) (hr : m.run s as = some t) : I t := by
  induction as generalizing s with
  | nil => cases Option.some.inj hr; exact h
  | cons a rest ih =>
    obtain ⟨u, hu, ht⟩ := Option.bind_eq_some_iff.mp hr
    exact ih (keeps s a u h hu) ht

theorem run_measure {μ : S → Nat} (keeps : ∀ s a t, I s → m.step s a = some t → I t)
    (less : ∀ s a t, I s → m.step s a = some t → (if busy a then 1 else 0) + μ t ≤ μ s)
    {t : S} {as : List A} (h : I s) (hr : m.run s as = some t) : as.countP busy + μ t ≤ μ s := by
  induction as generalizing s with
  | nil =>
    cases Option.some.inj hr
    simp
  | cons a rest ih =>
    obtain ⟨u, hu, ht⟩ := Option.bind_eq_some_iff.mp hr
    have now := less s a u h hu
    have later := ih (keeps s a u h hu) ht
    rw [List.countP_cons]
    omega

theorem halts_of_measure (μ : S → Nat) (keeps : ∀ s a t, I s → m.step s a = some t → I t)
    (less : ∀ s a t, I s → m.step s a = some t → (if busy a then 1 else 0) + μ t ≤ μ s)
    (goes : ∀ s, I s → halted s ∨ (∃ a, due s a) ∧ ∀ a, due s a → ∃ u, m.step s a = some u)
    (h : I s) : m.Halts busy due halted s := by
  refine ⟨μ s, fun as t hr => ?_⟩
  have count := run_measure keeps less h hr
  exact ⟨by omega, goes t (run_invariant keeps h hr)⟩

theorem Halts.reaches (works : ∀ s a, due s a → busy a = true) (h : m.Halts busy due halted s) :
    ∃ as t, m.run s as = some t ∧ halted t := by
  obtain ⟨bound, h⟩ := h
  by_contra never
  have goes : ∀ n, ∃ as t, m.run s as = some t ∧ n ≤ as.countP busy := by
    intro n
    induction n with
    | zero => exact ⟨[], s, rfl, Nat.zero_le _⟩
    | succ n ih =>
      obtain ⟨as, t, hr, count⟩ := ih
      rcases (h as t hr).2 with halts | ⟨⟨a, ha⟩, steps⟩
      · exact absurd ⟨as, t, hr, halts⟩ never
      · obtain ⟨u, hu⟩ := steps a ha
        refine ⟨as ++ [a], u, ?_, ?_⟩
        · rw [run_append, hr, Option.bind_some]
          exact Option.bind_eq_some_iff.mpr ⟨u, hu, rfl⟩
        · rw [List.countP_append, List.countP_singleton, if_pos (works t a ha)]
          omega
  obtain ⟨as, t, hr, count⟩ := goes (bound + 1)
  have := (h as t hr).1
  omega

end

end Machine

end Xuanqiong
