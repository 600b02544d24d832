import Mathlib.Logic.Function.Basic
import Xuanqiong.Base.Machine

/-! Objects shared by threads whose calls take many steps. What the callers see are the calls and
the returns with their results, in the order in which they happen. The object is linearizable if
the same could be seen of one that each call changes in a single step. -/
namespace Xuanqiong

universe u v w

namespace Machine

variable {S T : Type u} {A B : Type v} {E : Type w}

def trace (m : Machine S A) (shows : S → A → List E) : S → List A → List E
  | _, [] => []
  | s, a :: rest => shows s a ++ (m.step s a).elim [] fun t => m.trace shows t rest

theorem trace_cons {m : Machine S A} {shows : S → A → List E} {s t : S} {a : A} {rest : List A}
    (h : m.step s a = some t) :
    m.trace shows s (a :: rest) = shows s a ++ m.trace shows t rest := by
  rw [trace, h, Option.elim_some]

theorem trace_append {m : Machine S A} {shows : S → A → List E} {s t : S} {as bs : List A}
    (h : m.run s as = some t) :
    m.trace shows s (as ++ bs) = m.trace shows s as ++ m.trace shows t bs := by
  induction as generalizing s with
  | nil =>
    cases Option.some.inj h
    rfl
  | cons a rest ih =>
    obtain ⟨u, hu, ht⟩ := Option.bind_eq_some_iff.mp h
    rw [List.cons_append, trace_cons hu, trace_cons hu, ih ht, List.append_assoc]

/-- `R` follows each step of `m` with steps of `n` that show the same. -/
structure Implements (m : Machine S A) (shows : S → A → List E) (n : Machine T B)
    (shows' : T → B → List E) (R : S → T → Prop) : Prop where
  start : R m.start n.start
  step : ∀ {s a s' t}, R s t → m.step s a = some s' →
    ∃ bs t', n.run t bs = some t' ∧ n.trace shows' t bs = shows s a ∧ R s' t'

theorem Implements.run {m : Machine S A} {shows : S → A → List E} {n : Machine T B}
    {shows' : T → B → List E} {R : S → T → Prop} (impl : Implements m shows n shows' R)
    {s s' : S} {t : T} {as : List A} (related : R s t) (hr : m.run s as = some s') :
    ∃ bs t', n.run t bs = some t' ∧ n.trace shows' t bs = m.trace shows s as ∧ R s' t' := by
  induction as generalizing s t with
  | nil =>
    cases Option.some.inj hr
    exact ⟨[], t, rfl, rfl, related⟩
  | cons a rest ih =>
    obtain ⟨u, hu, hs⟩ := Option.bind_eq_some_iff.mp hr
    obtain ⟨bs, v, hv, seen, related'⟩ := impl.step related hu
    obtain ⟨cs, t', ht, later, related''⟩ := ih related' hs
    refine ⟨bs ++ cs, t', ?_, ?_, related''⟩
    · rw [run_append, hv, Option.bind_some, ht]
    · rw [trace_append hv, trace_cons hu, seen, later]

end Machine

/-- An object that is called by one thread at a time. -/
structure SeqObject (σ Op Res : Type) where
  init : σ
  apply : σ → Op → σ × Res

inductive CallState (Op Res : Type) where
  | idle
  | called (op : Op)
  | done (res : Res)

inductive CallEvent (ι Op Res : Type) where
  | call (t : ι) (op : Op)
  | ret (t : ι) (res : Res)

structure Atomic (ι σ Op Res : Type) where
  state : σ
  calls : ι → CallState Op Res

inductive AtomicOp (ι Op : Type) where
  | call (t : ι) (op : Op)
  | take (t : ι)
  | ret (t : ι)

section

variable {ι σ Op Res : Type} [DecidableEq ι]

/-- The object shared by threads: a call takes effect at one moment between its start
and its end. -/
def SeqObject.atomic (obj : SeqObject σ Op Res) : Machine (Atomic ι σ Op Res) (AtomicOp ι Op) where
  start := ⟨obj.init, fun _ => .idle⟩
  step s
    | .call t op =>
      match s.calls t with
      | .idle => some { s with calls := Function.update s.calls t (.called op) }
      | _ => none
    | .take t =>
      match s.calls t with
      | .called op =>
        some ⟨(obj.apply s.state op).1, Function.update s.calls t (.done (obj.apply s.state op).2)⟩
      | _ => none
    | .ret t =>
      match s.calls t with
      | .done _ => some { s with calls := Function.update s.calls t .idle }
      | _ => none

def Atomic.shows (s : Atomic ι σ Op Res) : AtomicOp ι Op → List (CallEvent ι Op Res)
  | .call t op => [.call t op]
  | .take _ => []
  | .ret t =>
    match s.calls t with
    | .done res => [.ret t res]
    | _ => []

/-- Whatever the callers of `m` see could be seen of the object itself. -/
def Linearizable {S : Type} {A : Type} (m : Machine S A) (shows : S → A → List (CallEvent ι Op Res))
    (obj : SeqObject σ Op Res) : Prop :=
  ∀ as s, m.run m.start as = some s →
    ∃ bs t, obj.atomic.run obj.atomic.start bs = some t ∧
      obj.atomic.trace Atomic.shows obj.atomic.start bs = m.trace shows m.start as

theorem linearizable_of_implements {S : Type} {A : Type} {m : Machine S A}
    {shows : S → A → List (CallEvent ι Op Res)} {obj : SeqObject σ Op Res}
    {R : S → Atomic ι σ Op Res → Prop}
    (impl : m.Implements shows obj.atomic Atomic.shows R) : Linearizable m shows obj := by
  intro as s hr
  obtain ⟨bs, t, ht, seen, _⟩ := impl.run impl.start hr
  exact ⟨bs, t, ht, seen⟩

/-- What one step of a thread amounts to for the object: nothing, the moment at which its call
takes effect, its return, or both of these at once. -/
inductive Effect (obj : SeqObject σ Op Res) (x : σ) (c : CallState Op Res) :
    σ → CallState Op Res → Option Res → Prop where
  | quiet : Effect obj x c x c none
  | take {op : Op} (called : c = .called op) :
      Effect obj x c (obj.apply x op).1 (.done (obj.apply x op).2) none
  | ret {res : Res} (done : c = .done res) : Effect obj x c x .idle (some res)
  | both {op : Op} (called : c = .called op) :
      Effect obj x c (obj.apply x op).1 .idle (some (obj.apply x op).2)

theorem atomic_call (obj : SeqObject σ Op Res) {s : Atomic ι σ Op Res} {t : ι} (op : Op)
    (idle : s.calls t = .idle) :
    obj.atomic.run s [.call t op] =
        some { s with calls := Function.update s.calls t (.called op) } ∧
      obj.atomic.trace Atomic.shows s [.call t op] = [.call t op] := by
  have step : obj.atomic.step s (.call t op) =
      some { s with calls := Function.update s.calls t (.called op) } := by
    simp only [SeqObject.atomic, idle]
  constructor
  · rw [Machine.run, step]
    rfl
  · rw [Machine.trace_cons step]
    rfl

theorem atomic_take (obj : SeqObject σ Op Res) {s : Atomic ι σ Op Res} {t : ι} {op : Op}
    (called : s.calls t = .called op) :
    obj.atomic.step s (.take t) =
      some ⟨(obj.apply s.state op).1,
        Function.update s.calls t (.done (obj.apply s.state op).2)⟩ := by
  simp only [SeqObject.atomic, called]

theorem atomic_ret (obj : SeqObject σ Op Res) (s : Atomic ι σ Op Res) {t : ι} {res : Res}
    (done : s.calls t = .done res) :
    obj.atomic.step s (.ret t) = some { s with calls := Function.update s.calls t .idle } ∧
      s.shows (.ret t) = [.ret t res] := by
  constructor
  · simp only [SeqObject.atomic, done]
  · simp only [Atomic.shows, done]

theorem Effect.run {obj : SeqObject σ Op Res} {s : Atomic ι σ Op Res} {t : ι} {x : σ}
    {c : CallState Op Res} {res : Option Res} (h : Effect obj s.state (s.calls t) x c res) :
    ∃ bs, obj.atomic.run s bs = some ⟨x, Function.update s.calls t c⟩ ∧
      obj.atomic.trace Atomic.shows s bs = (res.map (CallEvent.ret t)).toList := by
  cases h with
  | quiet => exact ⟨[], by rw [Function.update_eq_self]; rfl, rfl⟩
  | take called =>
    have step := atomic_take obj called
    refine ⟨[.take t], ?_, ?_⟩
    · rw [Machine.run, step]
      rfl
    · rw [Machine.trace_cons step]
      rfl
  | ret done =>
    obtain ⟨step, seen⟩ := atomic_ret obj s done
    refine ⟨[.ret t], ?_, ?_⟩
    · rw [Machine.run, step]
      rfl
    · rw [Machine.trace_cons step, seen]
      rfl
  | @both op called =>
    have take := atomic_take obj called
    obtain ⟨ret, seen⟩ := atomic_ret obj
      ⟨(obj.apply s.state op).1, Function.update s.calls t (.done (obj.apply s.state op).2)⟩
      (Function.update_self t _ s.calls)
    refine ⟨[.take t, .ret t], ?_, ?_⟩
    · rw [Machine.run, take, Option.bind_some, Machine.run, ret, Function.update_idem]
      rfl
    · rw [Machine.trace_cons take, Machine.trace_cons ret, seen]
      rfl

end

end Xuanqiong
