import Xuanqiong.Base.Machine

/-! Two machines at the ends of a connection that carries a stream each way, in order and without
loss, and cuts the streams as it likes. -/
namespace Xuanqiong

universe u v w

/-- A machine at one end: what it has taken from the stream that leads to it, and what it has put
into the one that leads away. -/
structure Party (S : Type u) (A : Type v) (β : Type w) where
  machine : Machine S A
  received : S → List β
  sent : S → List β
  received_start : received machine.start = []
  received_grows : ∀ {s a t}, machine.step s a = some t → received s <+: received t
  sent_grows : ∀ {s a t}, machine.step s a = some t → sent s <+: sent t

namespace Party

variable {S T : Type u} {A B : Type v} {β : Type w}

theorem received_run (p : Party S A β) {s t : S} {as : List A} (hr : p.machine.run s as = some t) :
    p.received s <+: p.received t := by
  induction as generalizing s with
  | nil =>
    cases Option.some.inj hr
    exact List.prefix_refl _
  | cons a rest ih =>
    obtain ⟨u, hu, ht⟩ := Option.bind_eq_some_iff.mp hr
    exact (p.received_grows hu).trans (ih ht)

/-- Neither end has taken more than the other has put in. -/
def joined [DecidableEq β] (p : Party S A β) (q : Party T B β) : Machine (S × T) (A ⊕ B) where
  start := (p.machine.start, q.machine.start)
  step s
    | .inl a =>
      (p.machine.step s.1 a).bind fun t =>
        if p.received t <+: q.sent s.2 then some (t, s.2) else none
    | .inr b =>
      (q.machine.step s.2 b).bind fun t =>
        if q.received t <+: p.sent s.1 then some (s.1, t) else none

section

variable [DecidableEq β] {p : Party S A β} {q : Party T B β} {s t : S × T}

theorem joined_left {a : A} (h : (p.joined q).step s (.inl a) = some t) :
    p.machine.step s.1 a = some t.1 ∧ p.received t.1 <+: q.sent s.2 ∧ t.2 = s.2 := by
  obtain ⟨u, hu, h⟩ := Option.bind_eq_some_iff.mp h
  simp only [Option.ite_none_right_eq_some, Option.some.injEq] at h
  obtain ⟨within, rfl⟩ := h
  exact ⟨hu, within, rfl⟩

theorem joined_right {b : B} (h : (p.joined q).step s (.inr b) = some t) :
    q.machine.step s.2 b = some t.2 ∧ q.received t.2 <+: p.sent s.1 ∧ t.1 = s.1 := by
  obtain ⟨u, hu, h⟩ := Option.bind_eq_some_iff.mp h
  simp only [Option.ite_none_right_eq_some, Option.some.injEq] at h
  obtain ⟨within, rfl⟩ := h
  exact ⟨hu, within, rfl⟩

theorem joined_left_step {a : A} {u : S} (hs : p.machine.step s.1 a = some u)
    (within : p.received u <+: q.sent s.2) : (p.joined q).step s (.inl a) = some (u, s.2) := by
  simp only [joined, hs, Option.bind_some, if_pos within]

theorem joined_right_step {b : B} {u : T} (hs : q.machine.step s.2 b = some u)
    (within : q.received u <+: p.sent s.1) : (p.joined q).step s (.inr b) = some (s.1, u) := by
  simp only [joined, hs, Option.bind_some, if_pos within]

structure Linked (p : Party S A β) (q : Party T B β) (s : S × T) : Prop where
  left : p.received s.1 <+: q.sent s.2
  right : q.received s.2 <+: p.sent s.1

theorem linked_start (p : Party S A β) (q : Party T B β) : Linked p q (p.joined q).start := by
  constructor
  · simp only [joined, p.received_start]
    exact List.nil_prefix
  · simp only [joined, q.received_start]
    exact List.nil_prefix

theorem linked_step {op : A ⊕ B} (h : Linked p q s) (hs : (p.joined q).step s op = some t) :
    Linked p q t := by
  cases op with
  | inl a =>
    obtain ⟨step, within, same⟩ := joined_left hs
    exact ⟨same ▸ within, same ▸ h.right.trans (p.sent_grows step)⟩
  | inr b =>
    obtain ⟨step, within, same⟩ := joined_right hs
    exact ⟨same ▸ h.left.trans (q.sent_grows step), same ▸ within⟩

def Both (ok : S → A → Prop) (ok' : T → B → Prop) (s : S × T) : A ⊕ B → Prop
  | .inl a => ok s.1 a
  | .inr b => ok' s.2 b

theorem joined_reach {ok : S → A → Prop} {ok' : T → B → Prop}
    (h : (p.joined q).ReachWith (Both ok ok') s) :
    p.machine.ReachWith ok s.1 ∧ q.machine.ReachWith ok' s.2 := by
  induction h with
  | start => exact ⟨.start, .start⟩
  | @next s t op _ allowed hs ih =>
    cases op with
    | inl a =>
      obtain ⟨step, _, same⟩ := joined_left hs
      exact ⟨.next ih.1 allowed step, same ▸ ih.2⟩
    | inr b =>
      obtain ⟨step, _, same⟩ := joined_right hs
      exact ⟨same ▸ ih.1, .next ih.2 allowed step⟩

theorem joined_parts (h : (p.joined q).Reach s) : p.machine.Reach s.1 ∧ q.machine.Reach s.2 := by
  apply joined_reach
  refine h.mono fun s op _ => ?_
  cases op <;> trivial

/- An end may take several steps while the other stands still, as long as what it has received by
then is there. -/
theorem joined_left_run {as : List A} {u : S} (h : (p.joined q).Reach s)
    (hr : p.machine.run s.1 as = some u) (within : p.received u <+: q.sent s.2) :
    (p.joined q).Reach (u, s.2) := by
  induction as generalizing s with
  | nil =>
    cases Option.some.inj hr
    exact h
  | cons a rest ih =>
    obtain ⟨v, hv, hu⟩ := Option.bind_eq_some_iff.mp hr
    have sofar := (p.received_run hu).trans within
    exact ih (s := (v, s.2)) (h.step (joined_left_step hv sofar)) hu within

theorem joined_right_run {bs : List B} {u : T} (h : (p.joined q).Reach s)
    (hr : q.machine.run s.2 bs = some u) (within : q.received u <+: p.sent s.1) :
    (p.joined q).Reach (s.1, u) := by
  induction bs generalizing s with
  | nil =>
    cases Option.some.inj hr
    exact h
  | cons b rest ih =>
    obtain ⟨v, hv, hu⟩ := Option.bind_eq_some_iff.mp hr
    have sofar := (q.received_run hu).trans within
    exact ih (s := (s.1, v)) (h.step (joined_right_step hv sofar)) hu within

end

/-- `R` follows the steps of `p` that meet `ok` with steps of `p'`, which take and put the same. -/
structure Simulates {S' : Type u} {A' : Type v} (p : Party S A β) (p' : Party S' A' β)
    (ok : S → A → Prop) (R : S → S' → Prop) : Prop where
  start : R p.machine.start p'.machine.start
  step : ∀ {s a t s'}, R s s' → ok s a → p.machine.step s a = some t →
    ∃ as t', p'.machine.run s' as = some t' ∧ R t t'
  received : ∀ {s s'}, R s s' → p'.received s' = p.received s
  sent : ∀ {s s'}, R s s' → p'.sent s' = p.sent s

theorem Simulates.reach {S' : Type u} {A' : Type v} {p : Party S A β} {p' : Party S' A' β}
    {ok : S → A → Prop} {R : S → S' → Prop} (sim : Simulates p p' ok R) {s : S}
    (h : p.machine.ReachWith ok s) : ∃ s', p'.machine.Reach s' ∧ R s s' := by
  induction h with
  | start => exact ⟨_, .start, sim.start⟩
  | next _ allowed hs ih =>
    obtain ⟨s', reached, related⟩ := ih
    obtain ⟨as, t', hr, related'⟩ := sim.step related allowed hs
    exact ⟨t', Machine.reach_run reached hr, related'⟩

theorem Simulates.run {S' : Type u} {A' : Type v} {p : Party S A β} {p' : Party S' A' β}
    {R : S → S' → Prop} (sim : Simulates p p' (fun _ _ => True) R) {s t : S} {s' : S'} {as : List A}
    (related : R s s') (hr : p.machine.run s as = some t) :
    ∃ bs t', p'.machine.run s' bs = some t' ∧ R t t' := by
  induction as generalizing s s' with
  | nil =>
    cases Option.some.inj hr
    exact ⟨[], s', rfl, related⟩
  | cons a rest ih =>
    obtain ⟨u, hu, ht⟩ := Option.bind_eq_some_iff.mp hr
    obtain ⟨bs, u', hb, relu⟩ := sim.step related trivial hu
    obtain ⟨cs, t', hc, relt⟩ := ih relu ht
    exact ⟨bs ++ cs, t', by rw [Machine.run_append, hb, Option.bind_some, hc], relt⟩

theorem Simulates.trans {S' S'' : Type u} {A' A'' : Type v} {p : Party S A β} {p' : Party S' A' β}
    {p'' : Party S'' A'' β} {ok : S → A → Prop} {R : S → S' → Prop} {R' : S' → S'' → Prop}
    (sim : Simulates p p' ok R) (sim' : Simulates p' p'' (fun _ _ => True) R') :
    Simulates p p'' ok fun s s'' => ∃ s', R s s' ∧ R' s' s'' where
  start := ⟨_, sim.start, sim'.start⟩
  step := by
    intro s a t s'' related allowed hs
    obtain ⟨s', hr, hr'⟩ := related
    obtain ⟨as, t', run, ht⟩ := sim.step hr allowed hs
    obtain ⟨bs, t'', run', ht'⟩ := sim'.run hr' run
    exact ⟨bs, t'', run', t', ht, ht'⟩
  received := by
    rintro s s'' ⟨s', hr, hr'⟩
    exact (sim'.received hr').trans (sim.received hr)
  sent := by
    rintro s s'' ⟨s', hr, hr'⟩
    exact (sim'.sent hr').trans (sim.sent hr)

/-- `R` follows every step of `p` that meets `ok` with at most one of `p'`, which meets `ok'`. -/
structure Refines {S' : Type u} {A' : Type v} (p : Party S A β) (p' : Party S' A' β)
    (ok : S → A → Prop) (ok' : S' → A' → Prop) (R : S → S' → Prop) : Prop where
  start : R p.machine.start p'.machine.start
  step : ∀ {s a t s'}, R s s' → ok s a → p.machine.step s a = some t →
    R t s' ∨ ∃ a' t', ok' s' a' ∧ p'.machine.step s' a' = some t' ∧ R t t'
  received : ∀ {s s'}, R s s' → p'.received s' = p.received s
  sent : ∀ {s s'}, R s s' → p'.sent s' = p.sent s

theorem Refines.simulates {S' S'' : Type u} {A' A'' : Type v} {p : Party S A β} {p' : Party S' A' β}
    {p'' : Party S'' A'' β} {ok : S → A → Prop} {ok' : S' → A' → Prop} {R : S → S' → Prop}
    {R' : S' → S'' → Prop} (ref : Refines p p' ok ok' R) (sim : Simulates p' p'' ok' R') :
    Simulates p p'' ok fun s s'' => ∃ s', R s s' ∧ R' s' s'' where
  start := ⟨_, ref.start, sim.start⟩
  step := by
    rintro s a t s'' ⟨s', hr, hr'⟩ allowed hs
    rcases ref.step hr allowed hs with stays | ⟨a', t', allowed', step, ht⟩
    · exact ⟨[], s'', rfl, s', stays, hr'⟩
    · obtain ⟨as, t'', run, ht'⟩ := sim.step hr' allowed' step
      exact ⟨as, t'', run, t', ht, ht'⟩
  received := by
    rintro s s'' ⟨s', hr, hr'⟩
    exact (sim.received hr').trans (ref.received hr)
  sent := by
    rintro s s'' ⟨s', hr, hr'⟩
    exact (sim.sent hr').trans (ref.sent hr)

theorem Simulates.joined {S' T' : Type u} {A' B' : Type v} [DecidableEq β] {p : Party S A β}
    {q : Party T B β} {p' : Party S' A' β} {q' : Party T' B' β} {ok : S → A → Prop}
    {ok' : T → B → Prop} {R : S → S' → Prop} {Q : T → T' → Prop} (sim : Simulates p p' ok R)
    (sim' : Simulates q q' ok' Q) {s : S × T} (h : (p.joined q).ReachWith (Both ok ok') s) :
    ∃ s', (p'.joined q').Reach s' ∧ R s.1 s'.1 ∧ Q s.2 s'.2 := by
  induction h with
  | start => exact ⟨_, .start, sim.start, sim'.start⟩
  | @next s t op _ allowed hs ih =>
    obtain ⟨s', reached, left, right⟩ := ih
    cases op with
    | inl a =>
      obtain ⟨step, within, same⟩ := joined_left hs
      obtain ⟨as, u, run, left'⟩ := sim.step left allowed step
      have there : p'.received u <+: q'.sent s'.2 := by
        rw [sim.received left', sim'.sent right]
        exact within
      exact ⟨_, joined_left_run reached run there, left', same ▸ right⟩
    | inr b =>
      obtain ⟨step, within, same⟩ := joined_right hs
      obtain ⟨bs, u, run, right'⟩ := sim'.step right allowed step
      have there : q'.received u <+: p'.sent s'.1 := by
        rw [sim'.received right', sim.sent left]
        exact within
      exact ⟨_, joined_right_run reached run there, same ▸ left, right'⟩

end Party

end Xuanqiong
