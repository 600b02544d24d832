import Xuanqiong.Util.MpmcWalk

/-! The references of `pop`. A `pop` adds to `ref_count` before it claims an index and takes away
after it, in one place or another; an attempt whose claim fails starts over without doing so. -/
namespace Xuanqiong

namespace MpmcPoint

variable {T : Type}

/- The chunk to whose `ref_count` the present attempt of a `pop` has added, not yet taken away. -/
def refs : MpmcPoint T → Option Nat
  | .claimHead hc _ | .walk (.read hc) _ _ | .spin (.read hc) _ _ | .follow (.read hc) _ _
  | .dropRef hc _ _ | .dropLastRef hc _ _ => some hc
  | .findSlot (.read hc) rc _ | .waitReady hc rc _ _ | .moveValue hc rc _ _
  | .countRead hc rc _ _ =>
    if rc = hc then some hc else none
  | _ => none

theorem Popping.no_refs {p : MpmcPoint T} (h : ¬ p.Popping) : p.refs = none := by
  cases p <;> first
    | rfl
    | exact absurd trivial h
    | skip
  all_goals
    rename_i job _ _
    cases job
    · rfl
    · exact absurd trivial h

/- The reference is given up early only by a `pop` that has gone to another chunk. -/
def Strayed : MpmcPoint T → Prop
  | .dropRef hc rc _ => rc ≠ hc
  | _ => True

end MpmcPoint

namespace MPMCQueue

variable {T : Type} {q q' : MPMCQueue T} {p p' : MpmcPoint T}

/-- What an access does to the references. A new chunk has none. -/
inductive RefStep (q : MPMCQueue T) : MpmcPoint T → MPMCQueue T → MpmcPoint T → Prop where
  | keep {p p' : MpmcPoint T} {q' : MPMCQueue T}
      (counts : ∀ c, (q'.chunks c).refCount = (q.chunks c).refCount ∨
        c = q.fresh ∧ (q'.chunks c).refCount = 0)
      (refs : p'.refs = p.refs) : RefStep q p q' p'
  | add (hc hi : Nat) : RefStep q (.addRef hc hi) (q.addRef hc) (.claimHead hc hi)
  | drop {p p' : MpmcPoint T} {q' : MPMCQueue T} (hc : Nat) (before : p.refs = some hc)
      (after : p'.refs = none) (counts : ∀ c,
        (q'.chunks c).refCount = ((q.dropRef hc).chunks c).refCount) :
      RefStep q p q' p'

theorem RefStep.same {p p' : MpmcPoint T} {q' : MPMCQueue T}
    (counts : ∀ c, (q'.chunks c).refCount = (q.chunks c).refCount) (refs : p'.refs = p.refs) :
    RefStep q p q' p' := .keep (fun c => Or.inl (counts c)) refs

theorem pushStep_refs (h : q.pushStep p = some (q', p')) : RefStep q p q' p' := by
  cases p <;> simp only [pushStep, reduceCtorEq] at h
  case newChunk v tc wi =>
    cases h
    refine .keep (fun c => ?_) rfl
    by_cases hc : c = q.fresh
    · subst c
      exact Or.inr ⟨rfl, congrArg Chunk.refCount (setChunk_self _ _)⟩
    · exact Or.inl (congrArg Chunk.refCount (setChunk_of_ne hc _))
  case linkChunk | writeValue | writeReady =>
    cases h
    exact .same (setChunk_field Chunk.refCount rfl) rfl
  all_goals (try split at h) <;> cases h <;> exact .same (fun _ => rfl) rfl

theorem walkStep_refs (h : q.walkStep p = some (q', p')) : RefStep q p q' p' := by
  cases p <;> simp only [walkStep, reduceCtorEq] at h <;> rename_i job _ _ <;> cases job <;>
    (repeat' split at h) <;> (try contradiction) <;> cases h <;>
    exact .same (fun _ => rfl) (by simp_all [MpmcPoint.refs])

theorem popStep_refs (strayed : p.Strayed) (h : q.popStep p = some (q', p')) :
    RefStep q p q' p' ∨ ∃ hc hi, p = .claimHead hc hi ∧ q.headIndex ≠ hi ∧ q' = q ∧
      p' = .loadHeadChunk := by
  cases p <;> simp only [popStep, reduceCtorEq] at h
  case addRef hc hi =>
    cases h
    exact Or.inl (.add hc hi)
  case claimHead hc hi =>
    split at h
    · cases h
      exact Or.inl (.same (fun _ => rfl) rfl)
    · rename_i lost
      cases h
      exact Or.inr ⟨hc, hi, rfl, lost, rfl, rfl⟩
  case dropRef hc rc ri =>
    cases h
    exact Or.inl (.drop hc rfl (if_neg strayed) fun _ => rfl)
  case dropLastRef hc ri v =>
    cases h
    exact Or.inl (.drop hc rfl rfl fun _ => rfl)
  case moveValue hc rc offset ri =>
    cases h
    exact Or.inl (.same (setChunk_field Chunk.refCount rfl) rfl)
  case countRead hc rc ri v =>
    have counts : ∀ c, ((q.countRead rc ri).chunks c).refCount = (q.chunks c).refCount :=
      setChunk_field Chunk.refCount rfl
    split at h
    · rename_i same
      cases h
      exact Or.inl (.same counts (if_pos same).symm)
    · rename_i other
      cases h
      exact Or.inl (.same counts (if_neg other).symm)
  all_goals (try split at h) <;> cases h <;> exact Or.inl (.same (fun _ => rfl) rfl)

theorem advance_refs (strayed : p.Strayed) (h : q.advance p = some (q', p')) :
    RefStep q p q' p' ∨ ∃ hc hi, p = .claimHead hc hi ∧ q.headIndex ≠ hi ∧ q' = q ∧
      p' = .loadHeadChunk := by
  rcases advance_cases h with h | h | h
  · exact Or.inl (pushStep_refs h)
  · exact Or.inl (walkStep_refs h)
  · exact popStep_refs strayed h

theorem advance_strays (h : q.advance p = some (q', p')) : p'.Strayed := by
  rcases advance_cases h with h | h | h
  · cases p <;> simp only [pushStep, reduceCtorEq] at h <;> (try split at h) <;> cases h <;> trivial
  · cases p <;> simp only [walkStep, reduceCtorEq] at h
    case walk job c i =>
      cases job <;> (repeat' split at h) <;> cases h <;> trivial
    all_goals (repeat' split at h) <;> cases h <;> trivial
  · cases p <;> simp only [popStep, reduceCtorEq] at h <;> (try split at h) <;> cases h <;> trivial

theorem Knows.refs_mem (knows : q.Knows p) {c : Nat} (hc : p.refs = some c) : c ∈ q.chain := by
  cases p <;> simp only [MpmcPoint.refs, Option.some.injEq, reduceCtorEq] at hc
  case claimHead => exact hc ▸ knows.1.mem
  case walk job _ _ | spin job _ _ =>
    cases job <;> simp only [Option.some.injEq, reduceCtorEq] at hc
    exact hc ▸ knows.2.1
  case follow job _ _ =>
    cases job <;> simp only [Option.some.injEq, reduceCtorEq] at hc
    exact hc ▸ knows.2.2.1
  case findSlot job _ _ =>
    cases job <;> simp only [Option.ite_none_right_eq_some, Option.some.injEq, reduceCtorEq] at hc
    exact hc.2 ▸ knows.2.1
  case dropRef | dropLastRef => exact hc ▸ knows.1
  case waitReady | moveValue | countRead =>
    simp only [Option.ite_none_right_eq_some, Option.some.injEq] at hc
    exact hc.2 ▸ knows.1

end MPMCQueue

section

variable {ι T : Type} [DecidableEq ι] {s s' : MpmcRun ι T} {op : MpmcOp ι T}

/- No claim of `head_index_` fails, be it lost to another `pop` or for no reason. -/
def ClaimsSucceed (s : MpmcRun ι T) : MpmcOp ι T → Prop
  | .advance t => ∀ hc hi, s.threads t = .claimHead hc hi → s.queue.headIndex = hi
  | .failWeak t => ∀ hc hi, s.threads t ≠ .claimHead hc hi
  | _ => True

def MpmcRun.Refs (s : MpmcRun ι T) (c n : Nat) : Prop :=
    {t | (s.threads t).refs = some c}.encard = n

structure MpmcRun.Balanced (s : MpmcRun ι T) : Prop where
  counts : ∀ c, ∃ n, s.Refs c n ∧ (s.queue.chunks c).refCount = BitVec.ofNat 32 n
  strayed : ∀ t, (s.threads t).Strayed

section

variable {t : ι} {p' : MpmcPoint T} {q' : MPMCQueue T} {c n : Nat}

theorem MpmcRun.Refs.same (h : s.Refs c n) (same : p'.refs = some c ↔ (s.threads t).refs = some c) :
    MpmcRun.Refs ⟨q', Function.update s.threads t p'⟩ c n :=
  (encard_same (P := fun p : MpmcPoint T => p.refs = some c) same).trans h

theorem MpmcRun.Refs.enter (h : s.Refs c n) (out : (s.threads t).refs ≠ some c)
    (now : p'.refs = some c) : MpmcRun.Refs ⟨q', Function.update s.threads t p'⟩ c (n + 1) := by
  have one := encard_enter (P := fun p : MpmcPoint T => p.refs = some c) out now
  unfold MpmcRun.Refs at h ⊢
  rw [one, h, Nat.cast_add, Nat.cast_one]

theorem MpmcRun.Refs.leave (h : s.Refs c n) (was : (s.threads t).refs = some c)
    (out : p'.refs ≠ some c) :
    ∃ m, n = m + 1 ∧ MpmcRun.Refs ⟨q', Function.update s.threads t p'⟩ c m := by
  have one := encard_leave (P := fun p : MpmcPoint T => p.refs = some c) was out
  unfold MpmcRun.Refs at h ⊢
  rw [h] at one
  have finite : {u | (Function.update s.threads t p' u).refs = some c}.encard ≠ ⊤ := by
    intro top
    rw [top] at one
    simp at one
  obtain ⟨m, hm⟩ := ENat.ne_top_iff_exists.mp finite
  rw [← hm] at one
  exact ⟨m, by exact_mod_cast one, hm.symm⟩

omit [DecidableEq ι] in
theorem MpmcRun.Refs.zero (h : s.Refs c n) (nobody : ∀ t, (s.threads t).refs ≠ some c) : n = 0 := by
  have empty : {t | (s.threads t).refs = some c}.encard = 0 := by simp [nobody]
  exact_mod_cast h.symm.trans empty

theorem MpmcRun.Balanced.counts_after (h : s.Balanced) (inv : s.Inv)
    (step : MPMCQueue.RefStep s.queue (s.threads t) q' p') (c : Nat) :
    ∃ n, MpmcRun.Refs ⟨q', Function.update s.threads t p'⟩ c n ∧
      (q'.chunks c).refCount = BitVec.ofNat 32 n := by
  obtain ⟨n, refs, count⟩ := h.counts c
  generalize hp : s.threads t = p at step
  cases step with
  | keep counts same =>
    refine ⟨n, refs.same (by rw [hp, same]), ?_⟩
    rcases counts c with kept | ⟨rfl, zero⟩
    · exact kept.trans count
    · -- nobody holds a reference on a chunk that is not there yet
      have none := refs.zero fun u hu => inv.shared.fresh_out ((inv.knows u).refs_mem hu)
      rw [zero, none]
      rfl
  | add hc hi =>
    by_cases hcc : c = hc
    · subst c
      refine ⟨n + 1, refs.enter (by rw [hp]; simp [MpmcPoint.refs]) rfl, ?_⟩
      simp only [MPMCQueue.addRef, MPMCQueue.setChunk_self, count]
      exact (BitVec.ofNat_add n 1).symm
    · refine ⟨n, refs.same ?_, ?_⟩
      · rw [hp]
        simp [MpmcPoint.refs, Ne.symm hcc]
      · simp only [MPMCQueue.addRef, MPMCQueue.setChunk_of_ne hcc, count]
  | drop hc before after counts =>
    by_cases hcc : c = hc
    · subst c
      have out : p'.refs ≠ some hc := by simp [after]
      obtain ⟨m, rfl, fewer⟩ : ∃ m, n = m + 1 ∧
          MpmcRun.Refs ⟨q', Function.update s.threads t p'⟩ hc m := refs.leave (hp ▸ before) out
      refine ⟨m, fewer, ?_⟩
      simp only [counts, MPMCQueue.dropRef, MPMCQueue.setChunk_self, count, BitVec.ofNat_add]
      exact BitVec.add_sub_cancel _ _
    · refine ⟨n, refs.same ?_, ?_⟩
      · rw [hp, before, after]
        simp [Ne.symm hcc]
      · simp only [counts, MPMCQueue.dropRef, MPMCQueue.setChunk_of_ne hcc, count]

theorem MpmcRun.Balanced.after (h : s.Balanced) (inv : s.Inv)
    (step : MPMCQueue.RefStep s.queue (s.threads t) q' p') (strayed : p'.Strayed) :
    MpmcRun.Balanced ⟨q', Function.update s.threads t p'⟩ where
  counts := h.counts_after inv step
  strayed := (Function.forall_update_iff _ fun _ (p : MpmcPoint T) => p.Strayed).mpr
    ⟨strayed, fun u _ => h.strayed u⟩

end

theorem balanced_step (s : MpmcRun ι T) (op : MpmcOp ι T) (s' : MpmcRun ι T)
    (h : s.Inv ∧ s.Balanced) (succeed : ClaimsSucceed s op)
    (hs : (mpmcMachine ι T).step s op = some s') :
    s'.Inv ∧ s'.Balanced := by
  refine ⟨mpmc_step s op s' h.1 hs, ?_⟩
  obtain ⟨inv, balanced⟩ := h
  cases op with
  | push t v | pop t =>
    simp only [mpmcMachine] at hs
    split at hs
    · rename_i idle
      cases hs
      exact balanced.after inv (.same (fun _ => rfl) (by rw [idle]; rfl)) trivial
    · cases hs
  | advance t =>
    obtain ⟨⟨q', p'⟩, run, rfl⟩ := Option.map_eq_some_iff.mp hs
    rcases MPMCQueue.advance_refs (balanced.strayed t) run with step | ⟨hc, hi, hp, lost, _⟩
    · exact balanced.after inv step (MPMCQueue.advance_strays run)
    · exact absurd (succeed hc hi hp) lost
  | failWeak t =>
    obtain ⟨p', fails, rfl⟩ := Option.map_eq_some_iff.mp hs
    have kept : p'.refs = (s.threads t).refs ∧ p'.Strayed := by
      revert fails succeed
      simp only [ClaimsSucceed]
      cases s.threads t <;> simp only [MpmcPoint.failWeak, reduceCtorEq, false_implies,
        implies_true] <;>
        intro succeed fails <;> cases fails
      · exact ⟨rfl, trivial⟩
      · exact ⟨rfl, trivial⟩
      · exact absurd rfl (succeed _ _)
    exact balanced.after inv (.same (fun _ => rfl) kept.1) kept.2

theorem reach_balanced (h : (mpmcMachine ι T).ReachWith ClaimsSucceed s) : s.Inv ∧ s.Balanced := by
  refine h.invariant ⟨mpmc_reach_inv .start, fun c => ⟨0, ?_, rfl⟩, fun _ => trivial⟩ balanced_step
  simp [MpmcRun.Refs, mpmcMachine, MpmcPoint.refs]

end

section

variable {ι T : Type} [DecidableEq ι] {s s' : MpmcRun ι T} {op : MpmcOp ι T}

theorem lost_claim_leaks (balanced : s.Balanced) (fails : ¬ ClaimsSucceed s op)
    (hs : (mpmcMachine ι T).step s op = some s') :
    ∃ c n, s'.Refs c n ∧ (s'.queue.chunks c).refCount = BitVec.ofNat 32 (n + 1) := by
  have leaks : ∀ t hc hi, s.threads t = .claimHead hc hi →
      ∃ n, MpmcRun.Refs ⟨s.queue, Function.update s.threads t .loadHeadChunk⟩ hc n ∧
        (s.queue.chunks hc).refCount = BitVec.ofNat 32 (n + 1) := by
    intro t hc hi hp
    obtain ⟨n, refs, count⟩ := balanced.counts hc
    obtain ⟨m, rfl, fewer⟩ : ∃ m, n = m + 1 ∧
        MpmcRun.Refs ⟨s.queue, Function.update s.threads t .loadHeadChunk⟩ hc m :=
      refs.leave (by rw [hp]; rfl) (by simp [MpmcPoint.refs])
    exact ⟨m, fewer, count⟩
  cases op with
  | push t v | pop t => exact absurd trivial fails
  | advance t =>
    simp only [ClaimsSucceed, not_forall] at fails
    obtain ⟨hc, hi, hp, lost⟩ := fails
    simp only [mpmcMachine, hp, MPMCQueue.advance, MPMCQueue.pushStep, MPMCQueue.walkStep,
      MPMCQueue.popStep, Option.none_or, if_neg lost] at hs
    cases hs
    exact ⟨hc, leaks t hc hi hp⟩
  | failWeak t =>
    simp only [ClaimsSucceed, not_forall, not_not] at fails
    obtain ⟨hc, hi, hp⟩ := fails
    simp only [mpmcMachine, hp, MpmcPoint.failWeak] at hs
    cases hs
    exact ⟨hc, leaks t hc hi hp⟩

theorem toInt_ofNat_eq_iff (n : Nat) : (BitVec.ofNat 32 n).toInt = n ↔ n < 2 ^ 31 := by
  constructor
  · intro same
    have := (BitVec.ofNat 32 n).toInt_lt
    omega
  · intro lt
    have small : (BitVec.ofNat 32 n).toNat = n := by
      rw [BitVec.toNat_ofNat, Nat.mod_eq_of_lt (by omega)]
    rw [BitVec.toInt_eq_toNat_of_lt (by omega), small]

/-- While every claim of `head_index_` succeeds, `ref_count` is the number of `pop`s that hold a
reference, up to what an `int` can hold, and a chunk that has been read to the end is deleted by the
next `pop`. The first claim that fails puts an end to it. -/
theorem ref_counts_balance (s : MpmcRun ι T) (h : (mpmcMachine ι T).ReachWith ClaimsSucceed s) :
    (∀ c, ∃ n : Nat, {t | (s.threads t).refs = some c}.encard = n ∧
      (s.queue.chunks c).refCount = BitVec.ofNat 32 n ∧
      ((s.queue.chunks c).refCount.toInt = n ↔ n < 2 ^ 31)) ∧
    ((∀ t, ¬ (s.threads t).Popping) →
      (∀ c, (s.queue.chunks c).refCount = 0) ∧
      ∀ t, s.threads t = .idle → s.queue.headIndex ≠ s.queue.tailIndex →
        ∀ c ∈ s.queue.chain, c ∉ s.queue.retired → (s.queue.chunks c).readCount = CHUNK_SIZE →
          (s.queue.chunks c).next ≠ none →
          ∃ n s', (mpmcMachine ι T).run s (.pop t :: List.replicate n (.advance t)) = some s' ∧
            c ∈ s'.queue.retired) ∧
    ∀ op s', ¬ ClaimsSucceed s op → (mpmcMachine ι T).step s op = some s' →
      ∃ c n, {t | (s'.threads t).refs = some c}.encard = (n : Nat) ∧
        (s'.queue.chunks c).refCount = BitVec.ofNat 32 (n + 1) := by
  obtain ⟨_, balanced⟩ := reach_balanced h
  refine ⟨fun c => ?_, fun quiet => ?_, fun op s' fails hs => lost_claim_leaks balanced fails hs⟩
  · obtain ⟨n, refs, count⟩ := balanced.counts c
    exact ⟨n, refs, count, by rw [count]; exact toInt_ofNat_eq_iff n⟩
  · have unused : ∀ c, (s.queue.chunks c).refCount = 0 := by
      intro c
      obtain ⟨n, refs, count⟩ := balanced.counts c
      have none := refs.zero fun t ht => by
        rw [MpmcPoint.Popping.no_refs (quiet t)] at ht
        cases ht
      rw [count, none]
      rfl
    exact ⟨unused, fun t idle left c mem live read next =>
      retired_later h.reach quiet unused idle left mem live read next⟩

section

variable {threads : ι → MpmcPoint T} {t : ι} {q q' : MPMCQueue T} {p' : MpmcPoint T} {n : Nat}

/- Nobody has claimed an index since the thread has read `head_index_`. -/
def MPMCQueue.Current (q : MPMCQueue T) : MpmcPoint T → Prop
  | .testEmpty _ hi | .testReadCount _ hi | .testRefCount _ hi | .addRef _ hi | .claimHead _ hi =>
    hi = q.headIndex
  | _ => True

omit [DecidableEq ι] in
theorem MPMCQueue.Current.advance {p : MpmcPoint T} (h : q.Current p)
    (run : q.advance p = some (q', p')) : q'.Current p' := by
  rcases advance_cases run with run | run | run
  · cases p <;> simp only [pushStep, reduceCtorEq] at run <;>
      (try split at run) <;> cases run <;> trivial
  · cases p <;> simp only [walkStep, reduceCtorEq] at run <;> rename_i job _ _ <;> cases job <;>
      (repeat' split at run) <;> (try contradiction) <;> cases run <;> trivial
  · cases p <;> simp only [popStep, reduceCtorEq] at run <;> (try split at run) <;> cases run <;>
      trivial

theorem reach_alone {p : MpmcPoint T} (current : q.Current p)
    (h : (mpmcMachine ι T).ReachWith ClaimsSucceed ⟨q, Function.update threads t p⟩)
    (run : q.runOn p n = some (q', p')) :
    (mpmcMachine ι T).ReachWith ClaimsSucceed ⟨q', Function.update threads t p'⟩ := by
  induction n generalizing q p with
  | zero =>
    cases (MPMCQueue.runOn_zero q p).symm.trans run
    exact h
  | succ n ih =>
    obtain ⟨_, r, pr, first, rest⟩ := MPMCQueue.runOn_succ run
    refine ih (current.advance first)
      (.next h (a := .advance t) ?_ (by simp [mpmcMachine, first])) rest
    intro hc hi hp
    have hp : p = .claimHead hc hi := by simpa using hp
    subst hp
    exact current.symm

theorem reach_push_alone (v : T)
    (h : (mpmcMachine ι T).ReachWith ClaimsSucceed ⟨q, Function.update threads t .idle⟩)
    (run : q.runOn (.loadTailChunk v) n = some (q', p')) :
    (mpmcMachine ι T).ReachWith ClaimsSucceed ⟨q', Function.update threads t p'⟩ :=
  reach_alone (p := .loadTailChunk v) trivial
    (.next h (a := .push t v) trivial (by simp [mpmcMachine])) run

theorem reach_pop_alone
    (h : (mpmcMachine ι T).ReachWith ClaimsSucceed ⟨q, Function.update threads t .idle⟩)
    (run : q.runOn .loadHeadChunk n = some (q', p')) :
    (mpmcMachine ι T).ReachWith ClaimsSucceed ⟨q', Function.update threads t p'⟩ :=
  reach_alone (p := .loadHeadChunk) trivial
    (.next h (a := .pop t) trivial (by simp [mpmcMachine])) run

end

end

/- After one chunk's worth of values and one more, the next `pop` deletes the first chunk. -/
theorem ref_counts_balance_at_full_chunk :
    ∃ s, (mpmcMachine Unit Unit).ReachWith ClaimsSucceed s ∧ (s.queue.chunks 0).refCount = 0 ∧
      ∃ n s', (mpmcMachine Unit Unit).run s (.pop () :: List.replicate n (.advance ())) = some s' ∧
        0 ∈ s'.queue.retired := by
  have initial : (mpmcMachine Unit Unit).ReachWith ClaimsSucceed
      ⟨.init, Function.update (fun _ => .idle) () .idle⟩ := by
    rw [Function.update_eq_self]
    exact .start
  obtain ⟨q, level, reached⟩ :=
    calls_level () initial (reach_push_alone ()) reach_pop_alone CHUNK_SIZE
    (Nat.le_refl _)
  obtain ⟨q₁, run, hc, hi, ti, next, rc, _⟩ := MPMCQueue.push_extends level ()
  have reached₁ := reach_push_alone () reached run
  have inv := (mpmc_reach_inv reached₁.reach).shared
  obtain ⟨_, quiet, _⟩ := ref_counts_balance _ reached₁
  obtain ⟨unused, later⟩ := quiet (by simp [MpmcPoint.Popping])
  refine ⟨_, reached₁, unused 0, later () rfl (by simp [hi, ti]) 0 ?_ ?_ rc (by simp [next])⟩
  · exact hc ▸ inv.head.mem
  · obtain ⟨i, first, gone⟩ := (reach_retiring reached₁.reach).left
    intro retired
    exact inv.not_mem_take first (hc ▸ (gone 0).mpr (Or.inl retired))

/- A claim lost to another `pop` leaves a reference behind that nobody gives back. -/
theorem lost_claim_keeps_reference :
    ∃ s, (mpmcMachine Bool Nat).run (mpmcMachine Bool Nat).start
        (.push false 5 :: List.replicate 7 (.advance false) ++
          .push false 6 :: List.replicate 7 (.advance false) ++
          .pop true :: List.replicate 5 (.advance true) ++
          .pop false :: List.replicate 12 (.advance false) ++ List.replicate 13
            (.advance true)) = some s ∧
      (∀ t, s.threads t = .idle) ∧ s.queue.returned = [(0, some 5), (1, some 6)] ∧
      (s.queue.chunks 0).refCount = 1 := by
  refine ⟨_, rfl, ?_, rfl, rfl⟩
  intro t
  cases t <;> rfl

end Xuanqiong
