import Xuanqiong.Base.Linear
import Xuanqiong.Util.MpmcFifo
import Xuanqiong.Util.MpmcSeq

/-! `MPMCQueue` is linearizable: whatever its callers see in an interleaving of the accesses of
`push` and `pop` could be seen of a FIFO queue whose calls take effect in one step. A `push` takes
effect when it claims `tail_index_`, long before its value can be read; a `pop` when it claims
`head_index_`, or when it finds the two indices equal. -/
namespace Xuanqiong

inductive QueueResult (T : Type) where
  | pushed
  | popped (value : Option (Option T))

structure Fifo (T : Type) where
  left : List T
  waiting : List T

def fifoQueue (T : Type) : SeqObject (Fifo T) (QueueCall T) (QueueResult T) where
  init := ⟨[], []⟩
  apply
    | ⟨left, waiting⟩, .push v => (⟨left, waiting ++ [v]⟩, .pushed)
    | ⟨left, []⟩, .pop => (⟨left, []⟩, .popped none)
    | ⟨left, v :: rest⟩, .pop => (⟨left ++ [v], rest⟩, .popped (some (some v)))

namespace MPMCQueue

variable {T : Type}

/- The values in the order of the claims of `tail_index_`, cut where `head_index_` is. -/
def content (q : MPMCQueue T) : Fifo T :=
  ⟨(q.tailClaims.take q.headIndex).map Prod.snd, (q.tailClaims.drop q.headIndex).map Prod.snd⟩

def valueAt (q : MPMCQueue T) (x : Nat) : Option T := q.tailClaims[x]?.map Prod.snd

/- How far the call of a thread is, as far as the queue's users are concerned. -/
def stage (q : MPMCQueue T) : MpmcPoint T → CallState (QueueCall T) (QueueResult T)
  | .idle => .idle
  | .loadTailChunk v | .loadTailIndex v _ | .claimTail v _ _ => .called (.push v)
  | .testTail _ _ _ | .newChunk _ _ _ | .installChunk _ _ _ _ | .linkChunk _ _ _ _
  | .deleteNext _ _ _ _ | .walk (.write _) _ _ | .spin (.write _) _ _ | .follow (.write _) _ _
  | .findSlot (.write _) _ _ | .writeValue _ _ _ _ | .writeReady _ _ _ => .done .pushed
  | .loadHeadChunk | .loadHeadIndex _ | .testEmpty _ _ | .testReadCount _ _ | .testRefCount _ _
  | .testNext _ | .loadNext _ | .moveHead _ _ | .deleteHead _ | .addRef _ _ | .claimHead _ _ =>
    .called .pop
  | .walk (.read _) _ x | .spin (.read _) _ x | .follow (.read _) _ x | .findSlot (.read _) _ x
  | .dropRef _ _ x | .waitReady _ _ _ x | .moveValue _ _ _ x | .countRead _ _ x _
  | .dropLastRef _ x _ => .done (.popped (some (q.valueAt x)))

def returns (q : MPMCQueue T) : MpmcPoint T → Option (QueueResult T)
  | .writeReady _ _ _ => some .pushed
  | .testEmpty _ hi => if hi = q.tailIndex then some (.popped none) else none
  | .countRead hc rc _ v => if rc = hc then none else some (.popped (some v))
  | .dropLastRef _ _ v => some (.popped (some v))
  | _ => none

variable {q q' : MPMCQueue T} {p p' m : MpmcPoint T}

theorem stage_reads {x : Nat} (h : p.reads = some x) :
    q.stage p = .done (.popped (some (q.valueAt x))) := by
  cases p <;> simp only [MpmcPoint.reads, Option.some.injEq, reduceCtorEq] at h
  case walk job _ _ | spin job _ _ | follow job _ _ | findSlot job _ _ =>
    cases job <;> simp only [Option.some.injEq, reduceCtorEq] at h
    rw [← h]
    rfl
  all_goals
    rw [← h]
    rfl

theorem stage_same (h : p.reads = none) : q'.stage p = q.stage p := by
  cases p <;> simp only [MpmcPoint.reads, reduceCtorEq] at h <;> try rfl
  case walk job _ _ | spin job _ _ | follow job _ _ | findSlot job _ _ =>
    cases job
    · rfl
    · simp at h

theorem Claimed.valueAt {x : Nat} {v : T} (h : q.Claimed x v) : q.valueAt x = some v := by
  rw [MPMCQueue.valueAt, h, Option.map_some]

theorem Frame.stage (f : Frame q q' p) (inv : q.Inv) (knows : q.Knows m) :
    q'.stage m = q.stage m := by
  cases hm : m.reads with
  | none => exact stage_same hm
  | some x =>
    obtain ⟨v, claimed⟩ := inv.claimed_of_lt ((knows.reads_lt hm).trans_le inv.order)
    rw [stage_reads hm, stage_reads hm, claimed.valueAt, (f.claimed claimed).valueAt]

def Acts (q : MPMCQueue T) (p : MpmcPoint T) (q' : MPMCQueue T) (p' : MpmcPoint T) : Prop :=
  Effect (fifoQueue T) q.content (q.stage p) q'.content (q'.stage p') (q.returns p)

theorem content_same (tail : q'.tailClaims = q.tailClaims) (head : q'.headIndex = q.headIndex) :
    q'.content = q.content := by
  rw [content, tail, head, content]

theorem Acts.quiet (tail : q'.tailClaims = q.tailClaims) (head : q'.headIndex = q.headIndex)
    (stage : q'.stage p' = q.stage p) (silent : q.returns p = none) : Acts q p q' p' := by
  rw [Acts, content_same tail head, stage, silent]
  exact .quiet

theorem Acts.ret {res : QueueResult T} (tail : q'.tailClaims = q.tailClaims)
    (head : q'.headIndex = q.headIndex) (stage : q.stage p = .done res)
    (result : q.returns p = some res) : Acts q p q' .idle := by
  rw [Acts, content_same tail head, result]
  exact .ret stage

theorem content_claimTail (inv : q.Inv) (v : T) :
    content { q with
      tailIndex := q.tailIndex + 1, tailClaims := q.tailClaims ++ [(q.tailIndex, v)] } =
      ⟨q.content.left, q.content.waiting ++ [v]⟩ := by
  have le : q.headIndex ≤ q.tailClaims.length := inv.claims_length ▸ inv.order
  simp only [content, List.take_append_of_le_length le, List.drop_append_of_le_length le,
    List.map_append, List.map_cons, List.map_nil]

theorem content_claimHead (inv : q.Inv) (lt : q.headIndex < q.tailIndex) :
    ∃ v rest, q.Claimed q.headIndex v ∧ q.content.waiting = v :: rest ∧
      content { q with headIndex := q.headIndex + 1, headClaims := q.headClaims ++ [q.headIndex] } =
        ⟨q.content.left ++ [v], rest⟩ := by
  obtain ⟨v, claimed⟩ := inv.claimed_of_lt lt
  obtain ⟨inside, at_head⟩ := List.getElem?_eq_some_iff.mp claimed
  refine ⟨v, (q.tailClaims.drop (q.headIndex + 1)).map Prod.snd, claimed, ?_, ?_⟩
  · rw [content, List.drop_eq_getElem_cons inside, at_head, List.map_cons]
  · rw [content, content, List.take_succ_eq_append_getElem inside, at_head, List.map_append]
    rfl

theorem content_empty (inv : q.Inv) (empty : q.headIndex = q.tailIndex) :
    q.content.waiting = [] := by
  rw [content, empty, ← inv.claims_length, List.drop_length, List.map_nil]

theorem pushStep_acts (inv : q.Inv) (h : q.pushStep p = some (q', p')) : Acts q p q' p' := by
  cases p <;> simp only [pushStep, Option.some.injEq, Prod.mk.injEq, reduceCtorEq] at h
  case claimTail v tc ti =>
    split at h
    · rename_i same
      cases h
      subst same
      rw [Acts, content_claimTail inv]
      exact .take rfl
    · cases h
      exact .quiet rfl rfl rfl rfl
  case writeReady c offset x =>
    obtain ⟨rfl, rfl⟩ := h
    exact .ret rfl rfl rfl rfl
  case testTail | installChunk =>
    split at h <;> cases h <;> exact .quiet rfl rfl rfl rfl
  all_goals
    obtain ⟨rfl, rfl⟩ := h
    exact .quiet rfl rfl rfl rfl

theorem walkStep_acts (h : q.walkStep p = some (q', p')) : Acts q p q' p' := by
  cases p <;> simp only [walkStep, reduceCtorEq] at h <;> rename_i job _ _ <;> cases job <;>
    (repeat' split at h) <;> (try contradiction) <;> cases h <;> exact .quiet rfl rfl rfl rfl

theorem popStep_acts (inv : q.Inv) (knows : q.Knows p) (h : q.popStep p = some (q', p')) :
    Acts q p q' p' := by
  cases p <;> simp only [popStep, Option.some.injEq, Prod.mk.injEq, reduceCtorEq] at h
  case testEmpty hc hi =>
    split at h
    · rename_i empty
      cases h
      have level : q.headIndex = q.tailIndex := Nat.le_antisymm inv.order (empty ▸ knows.2)
      have content : content { q with empties := q.empties ++ [(q.headIndex, q.tailIndex)] } =
          ⟨q.content.left, []⟩ := by
        rw [← content_empty inv level]
        rfl
      have before : q.content = ⟨q.content.left, []⟩ := by rw [← content_empty inv level]
      rw [Acts, content, before, returns, if_pos empty]
      exact .both rfl
    · rename_i left
      cases h
      exact .quiet rfl rfl rfl (if_neg left)
  case claimHead hc hi =>
    split at h
    · rename_i same
      cases h
      subst same
      obtain ⟨v, rest, claimed, waiting, content⟩ := content_claimHead inv knows.2
      have value : stage { q with
          headIndex := q.headIndex + 1, headClaims := q.headClaims ++ [q.headIndex] }
          (.walk (.read hc) hc q.headIndex) = .done (.popped (some (some v))) := by
        rw [stage_reads rfl, valueAt, claimed, Option.map_some]
      have before : q.content = ⟨q.content.left, v :: rest⟩ := by rw [← waiting]
      rw [Acts, content, before, value]
      exact .take rfl
    · cases h
      exact .quiet rfl rfl rfl rfl
  case countRead hc rc x v =>
    split at h
    · rename_i here
      cases h
      exact .quiet rfl rfl rfl (if_pos here)
    · rename_i away
      cases h
      obtain ⟨_, _, u, rfl, claimed⟩ := knows.2.2.2
      exact .ret rfl rfl (by rw [stage, claimed.valueAt]) (if_neg away)
  case dropLastRef hc x v =>
    obtain ⟨rfl, rfl⟩ := h
    obtain ⟨_, _, u, rfl, claimed⟩ := knows.2
    exact .ret rfl rfl (by rw [stage, claimed.valueAt]) rfl
  case testReadCount | testRefCount | testNext | moveHead | waitReady =>
    split at h <;> cases h <;> exact .quiet rfl rfl rfl rfl
  case loadNext =>
    split at h
    · cases h
    · cases h
      exact .quiet rfl rfl rfl rfl
  all_goals
    obtain ⟨rfl, rfl⟩ := h
    exact .quiet rfl rfl rfl rfl

theorem advance_acts (inv : q.Inv) (knows : q.Knows p) (h : q.advance p = some (q', p')) :
    Acts q p q' p' := by
  rcases advance_cases h with h | h | h
  · exact pushStep_acts inv h
  · exact walkStep_acts h
  · exact popStep_acts inv knows h

theorem stage_failWeak (q : MPMCQueue T) (h : p.failWeak = some p') : q.stage p' = q.stage p := by
  cases p <;> simp only [MpmcPoint.failWeak, Option.some.injEq, reduceCtorEq] at h
  all_goals
    subst h
    rfl

end MPMCQueue

section

variable {ι T : Type}

/- What the callers see: calls when they start, and returns at their last access. -/
def MpmcRun.shows (s : MpmcRun ι T) : MpmcOp ι T → List (CallEvent ι (QueueCall T) (QueueResult T))
  | .push t v => [.call t (.push v)]
  | .pop t => [.call t .pop]
  | .advance t => ((s.queue.returns (s.threads t)).map (.ret t)).toList
  | .failWeak _ => []

/-- The FIFO queue behind a state, with the calls that are under way. -/
def MpmcRun.linear (s : MpmcRun ι T) : Atomic ι (Fifo T) (QueueCall T) (QueueResult T) :=
  ⟨s.queue.content, fun t => s.queue.stage (s.threads t)⟩

variable [DecidableEq ι]

theorem linear_update {s : MpmcRun ι T} {q' : MPMCQueue T} {t : ι} {p' : MpmcPoint T}
    (others : ∀ u, u ≠ t → q'.stage (s.threads u) = s.queue.stage (s.threads u)) :
    MpmcRun.linear ⟨q', Function.update s.threads t p'⟩ =
      ⟨q'.content, Function.update s.linear.calls t (q'.stage p')⟩ := by
  refine congrArg (Atomic.mk q'.content) (funext fun u => ?_)
  change q'.stage (Function.update s.threads t p' u) = _
  by_cases hu : u = t
  · subst u
    rw [Function.update_self, Function.update_self]
  · rw [Function.update_of_ne hu, Function.update_of_ne hu, others u hu]
    rfl

variable {s s' : MpmcRun ι T} {t : ι}

theorem push_linear {v : T} (hs : (mpmcMachine ι T).step s (.push t v) = some s') :
    s.linear.calls t = .idle ∧ s'.linear.state = s.linear.state ∧
      s'.linear.calls = Function.update s.linear.calls t (.called (.push v)) := by
  simp only [mpmcMachine] at hs
  split at hs
  · rename_i idle
    cases hs
    rw [linear_update fun _ _ => rfl]
    exact ⟨congrArg s.queue.stage idle, rfl, rfl⟩
  · cases hs

theorem pop_linear (hs : (mpmcMachine ι T).step s (.pop t) = some s') :
    s.linear.calls t = .idle ∧ s'.linear.state = s.linear.state ∧
      s'.linear.calls = Function.update s.linear.calls t (.called .pop) := by
  simp only [mpmcMachine] at hs
  split at hs
  · rename_i idle
    cases hs
    rw [linear_update fun _ _ => rfl]
    exact ⟨congrArg s.queue.stage idle, rfl, rfl⟩
  · cases hs

theorem failWeak_linear (hs : (mpmcMachine ι T).step s (.failWeak t) = some s') :
    s'.linear = s.linear := by
  obtain ⟨p', fails, rfl⟩ := Option.map_eq_some_iff.mp hs
  rw [linear_update fun _ _ => rfl, MPMCQueue.stage_failWeak _ fails]
  exact congrArg (Atomic.mk s.queue.content) (Function.update_eq_self t s.linear.calls)

theorem advance_linear (inv : s.Inv) (hs : (mpmcMachine ι T).step s (.advance t) = some s') :
    ∃ c, s'.linear.calls = Function.update s.linear.calls t c ∧
      Effect (fifoQueue T) s.linear.state (s.linear.calls t) s'.linear.state c
        (s.queue.returns (s.threads t)) := by
  obtain ⟨⟨q', p'⟩, run, rfl⟩ := Option.map_eq_some_iff.mp hs
  have frame := (MPMCQueue.advance_keeps inv.shared (inv.knows t) run).frame
  rw [linear_update fun u _ => frame.stage inv.shared (inv.knows u)]
  exact ⟨_, rfl, MPMCQueue.advance_acts inv.shared (inv.knows t) run⟩

theorem mpmc_implements (ι T : Type) [DecidableEq ι] :
    (mpmcMachine ι T).Implements MpmcRun.shows (fifoQueue T).atomic Atomic.shows
      fun s t => s.Inv ∧ t = s.linear where
  start := ⟨mpmc_reach_inv .start, rfl⟩
  step := by
    rintro s op s' _ ⟨inv, rfl⟩ hs
    have inv' := mpmc_step s op s' inv hs
    cases op with
    | push t v =>
      obtain ⟨idle, state, calls⟩ := push_linear hs
      obtain ⟨run, seen⟩ := atomic_call (fifoQueue T) (.push v) idle
      exact ⟨_, _, run, seen, inv', by rw [← state, ← calls]⟩
    | pop t =>
      obtain ⟨idle, state, calls⟩ := pop_linear hs
      obtain ⟨run, seen⟩ := atomic_call (fifoQueue T) .pop idle
      exact ⟨_, _, run, seen, inv', by rw [← state, ← calls]⟩
    | advance t =>
      obtain ⟨c, calls, effect⟩ := advance_linear inv hs
      obtain ⟨bs, run, seen⟩ := effect.run
      exact ⟨bs, _, run, seen, inv', by rw [← calls]⟩
    | failWeak t => exact ⟨[], _, rfl, rfl, inv', (failWeak_linear hs).symm⟩

/-- In any interleaving of any number of threads, the calls and returns of the queue, with the
values the calls carry and the results they come back with, are those of a FIFO queue every call of
which takes effect in a single step between its start and its end. -/
theorem mpmc_linearizable (ι T : Type) [DecidableEq ι] :
    Linearizable (mpmcMachine ι T) MpmcRun.shows (fifoQueue T) :=
  linearizable_of_implements (mpmc_implements ι T)

end

end Xuanqiong
