import Xuanqiong.Util.MpmcFifo

/-! Deleting chunks. `pop` deletes a chunk after two counters have looked right, while `push`
takes no reference at all and `pop` takes its own only after it has loaded the pointer: whether a
deleted chunk is accessed again depends on who still has a pointer to it, or to a chunk that
leads to it. -/
namespace Xuanqiong

namespace MpmcPoint

variable {T : Type}

/- The chunk whose field the next access reads or writes. -/
def touches : MpmcPoint T → Option Nat
  | .testTail _ c _ | .newChunk _ c _ | .linkChunk _ c _ _ | .walk _ c _ | .spin _ c _
  | .follow _ c _
  | .findSlot _ c _ | .writeValue _ c _ _ | .writeReady c _ _ | .testReadCount c _
  | .testRefCount c _
  | .testNext c | .loadNext c | .addRef c _ | .dropRef c _ _ | .waitReady _ c _ _
  | .moveValue _ c _ _
  | .countRead _ c _ _ | .dropLastRef c _ _ => some c
  | _ => none

/- The pointers a call has loaded and may still go through. -/
def held : MpmcPoint T → List Nat
  | .loadTailIndex _ c | .claimTail _ c _ | .testTail _ c _ | .newChunk _ c _
  | .installChunk _ c _ _
  | .linkChunk _ c _ _ | .deleteNext _ c _ _ => [c]
  | .walk (.write _) c _ | .spin (.write _) c _ | .follow (.write _) c _ => [c]
  | .walk (.read hc) c _ | .spin (.read hc) c _ | .follow (.read hc) c _ => [c, hc]
  | .findSlot _ c _ | .writeValue _ c _ _ | .writeReady c _ _ => [c]
  | .loadHeadIndex c | .testEmpty c _ | .testReadCount c _ | .testRefCount c _ | .testNext c
  | .loadNext c | .addRef c _ | .claimHead c _ => [c]
  | .dropRef hc rc _ => [hc, rc]
  | .waitReady _ c _ _ | .moveValue _ c _ _ | .countRead _ c _ _ | .dropLastRef c _ _ => [c]
  | _ => []

def restarts : MpmcPoint T → Bool
  | .idle | .loadTailChunk _ | .loadHeadChunk => true
  | _ => false

theorem restarts_held {p : MpmcPoint T} (h : p.restarts = true) : p.held = [] := by
  cases p <;> first | rfl | cases h

theorem touches_held {p : MpmcPoint T} {c : Nat} (h : p.touches = some c) : c ∈ p.held := by
  cases p <;> simp only [touches, Option.some.injEq, reduceCtorEq] at h <;>
    first
    | (rename_i job _ _; cases job <;> simp [held, h])
    | simp [held, h]

end MpmcPoint

namespace MPMCQueue

variable {T : Type} {q q' : MPMCQueue T} {p p' : MpmcPoint T}

def Later (q : MPMCQueue T) (a c : Nat) : Prop :=
  ∃ i j : Nat, q.chain[i]? = some a ∧ q.chain[j]? = some c ∧ i < j

theorem Before.mem {c x : Nat} (h : q.Before c x) : c ∈ q.chain := by
  obtain ⟨k, hk, _⟩ := h
  exact List.mem_of_getElem? hk

theorem Knows.held_mem (knows : q.Knows p) {c : Nat} (hc : c ∈ p.held) : c ∈ q.chain := by
  cases p <;> simp only [MpmcPoint.held, List.mem_singleton, List.not_mem_nil] at hc
  case loadTailIndex | claimTail | loadHeadIndex => exact hc ▸ Before.mem knows
  case testTail | testEmpty | testReadCount | testRefCount | addRef | claimHead =>
    exact hc ▸ knows.1.mem
  case newChunk | deleteNext => exact hc ▸ knows.1.before.mem
  case installChunk | linkChunk =>
    obtain ⟨k, hk, _⟩ := knows.1
    exact hc ▸ List.mem_of_getElem? hk
  case walk job d x =>
    cases job <;> simp only [List.mem_cons, List.not_mem_nil, or_false] at hc
    · exact hc ▸ knows.1.mem
    · rcases hc with rfl | rfl
      · exact knows.1.mem
      · exact knows.2.1
  case spin job d x =>
    cases job <;> simp only [List.mem_cons, List.not_mem_nil, or_false] at hc
    · exact hc ▸ knows.1.before.mem
    · rcases hc with rfl | rfl
      · exact knows.1.before.mem
      · exact knows.2.1
  case follow job d x =>
    cases job <;> simp only [List.mem_cons, List.not_mem_nil, or_false] at hc
    · exact hc ▸ knows.2.1.before.mem
    · rcases hc with rfl | rfl
      · exact knows.2.1.before.mem
      · exact knows.2.2.1
  case findSlot | writeValue | writeReady => exact hc ▸ List.mem_of_getElem? knows.1
  case testNext => exact hc ▸ (Past.before knows).mem
  case loadNext => exact hc ▸ knows.1.before.mem
  case dropRef =>
    simp only [List.mem_cons, List.not_mem_nil, or_false] at hc
    rcases hc with rfl | rfl
    · exact knows.1
    · exact List.mem_of_getElem? knows.2.1
  case waitReady | moveValue | countRead => exact hc ▸ List.mem_of_getElem? knows.2.1
  case dropLastRef => exact hc ▸ knows.1

theorem Frame.later (f : Frame q q' p) {a c : Nat} (h : q.Later a c) : q'.Later a c := by
  obtain ⟨i, j, hi, hj, lt⟩ := h
  exact ⟨i, j, f.at_chain hi, f.at_chain hj, lt⟩

theorem Later.next (inv : q.Inv) {a c n : Nat} (h : q.Later a c) (hl : q.Linked c n) :
    q.Later a n := by
  obtain ⟨i, j, hi, hj, lt⟩ := h
  obtain ⟨_, k, hk, hn⟩ := hl
  rw [inv.chain_inj hk hj] at hn
  exact ⟨i, j + 1, hi, hn, Nat.lt_succ_of_lt lt⟩

theorem Later.tail (inv : q.Inv) {a c : Nat} (h : q.Later a c) : q.Later a q.tailChunk := by
  obtain ⟨i, j, hi, hj, lt⟩ := h
  obtain ⟨k, hk, hlen, _⟩ := inv.tail
  have := (List.getElem?_eq_some_iff.mp hj).1
  exact ⟨i, k, hi, hk, by omega⟩

theorem Later.ne (inv : q.Inv) {a c : Nat} (h : q.Later a c) : a ≠ c := by
  rintro rfl
  obtain ⟨i, j, hi, hj, lt⟩ := h
  exact Nat.ne_of_lt lt (inv.chain_inj hi hj)

/- Where the pointers of a call come from: `head_chunk_`, `tail_chunk_`, and `next`. -/
def HeldFrom (q : MPMCQueue T) (p : MpmcPoint T) (c : Nat) : Prop :=
  c ∈ p.held ∨ c = q.headChunk ∨ c = q.tailChunk ∨ ∃ d ∈ p.held, q.Linked d c

theorem pushStep_held (h : q.pushStep p = some (q', p')) : ∀ c ∈ p'.held, q.HeldFrom p c := by
  cases p <;> simp only [pushStep, reduceCtorEq] at h <;> (try split at h) <;> cases h <;>
    simp [MpmcPoint.held, HeldFrom]

theorem walkStep_held (inv : q.Inv) (knows : q.Knows p) (h : q.walkStep p = some (q', p')) :
    ∀ c ∈ p'.held, q.HeldFrom p c := by
  cases p <;> simp only [walkStep, reduceCtorEq] at h
  case follow job c x =>
    split at h
    · cases h
    · rename_i n hn
      cases h
      have linked := inv.linked knows.2.1 hn
      cases job with
      | write v => simpa [MpmcPoint.held, HeldFrom] using Or.inr (Or.inr (Or.inr linked))
      | read hc =>
        intro d hd
        rcases List.mem_cons.mp hd with rfl | hd
        · exact Or.inr (Or.inr (Or.inr ⟨c, List.mem_cons_self, linked⟩))
        · exact Or.inl (List.mem_cons_of_mem _ hd)
  all_goals
    rename_i job _ _
    cases job <;> (repeat' split at h) <;> (try contradiction) <;> cases h <;>
      simp_all [MpmcPoint.held, HeldFrom]

theorem popStep_held (h : q.popStep p = some (q', p')) : ∀ c ∈ p'.held, q.HeldFrom p c := by
  cases p <;> simp only [popStep, reduceCtorEq] at h <;> (try split at h) <;> cases h <;>
    simp_all [MpmcPoint.held, HeldFrom]

theorem advance_held (inv : q.Inv) (knows : q.Knows p) (h : q.advance p = some (q', p')) :
    ∀ c ∈ p'.held, q.HeldFrom p c := by
  rcases advance_cases h with h | h | h
  · exact pushStep_held h
  · exact walkStep_held inv knows h
  · exact popStep_held h

theorem advance_retired (h : q.advance p = some (q', p')) :
    q'.retired = q.retired ∨ ∃ hc, p = .deleteHead hc ∧ p'.held = [] ∧ q'.headChunk = q.headChunk ∧
      q'.retired = q.retired ++ [hc] := by
  rcases advance_cases h with h | h | h
  · cases p <;> simp only [pushStep, reduceCtorEq] at h <;> (try split at h) <;> cases h <;>
      exact Or.inl rfl
  · cases p <;> simp only [walkStep, reduceCtorEq] at h <;> (repeat' split at h) <;> cases h <;>
      exact Or.inl rfl
  · cases p <;> simp only [popStep, reduceCtorEq] at h
    case deleteHead =>
      cases h
      exact Or.inr ⟨_, rfl, rfl, rfl, rfl⟩
    all_goals (try split at h) <;> cases h <;> exact Or.inl rfl

theorem advance_deleteHead {hc : Nat} (h : q.advance p = some (q', .deleteHead hc)) :
    ∃ n, p = .moveHead hc n := by
  rcases advance_cases h with h | h | h
  · cases p <;> simp only [pushStep, reduceCtorEq] at h <;> (try split at h) <;> cases h
  · cases p <;> simp only [walkStep, reduceCtorEq] at h <;> (repeat' split at h) <;> cases h
  · cases p <;> simp only [popStep, reduceCtorEq] at h <;> (try split at h) <;> cases h
    exact ⟨_, rfl⟩

theorem advance_later (inv : q.Inv) (knows : q.Knows p) (h : q.advance p = some (q', p')) {a : Nat}
    (head : q.Later a q.headChunk) (old : ∀ c ∈ p.held, q.Later a c) :
    ∀ c ∈ p'.held, q'.Later a c := by
  intro c hc
  refine (advance_keeps inv knows h).frame.later ?_
  rcases advance_held inv knows h c hc with same | rfl | rfl | ⟨d, hd, hl⟩
  · exact old c same
  · exact head
  · exact head.tail inv
  · exact (old d hd).next inv hl

end MPMCQueue

section

variable {ι T : Type} [DecidableEq ι]

/- When a `pop` deletes a chunk, the pointers that other calls may still go through are all to
later chunks. -/
def DeletesUnheld (s : MpmcRun ι T) : MpmcOp ι T → Prop
  | .advance t => ∀ hc, s.threads t = .deleteHead hc →
    ∀ u, u ≠ t → ∀ c ∈ (s.threads u).held, s.queue.Later hc c
  | _ => True

/-- `head_chunk_` and every pointer still in use are past all deleted chunks. -/
structure MpmcRun.PastRetired (s : MpmcRun ι T) : Prop where
  head : ∀ a ∈ s.queue.retired, s.queue.Later a s.queue.headChunk
  held : ∀ t, ∀ c ∈ (s.threads t).held, ∀ a ∈ s.queue.retired, s.queue.Later a c

theorem restart_past {s : MpmcRun ι T} (h : s.PastRetired) (t : ι) {p' : MpmcPoint T}
    (free : p'.held = []) : MpmcRun.PastRetired { s with
      threads := Function.update s.threads t p' } where
  head := h.head
  held := by
    intro u c hc
    by_cases hut : u = t
    · subst u
      simp [free] at hc
    · simp only [Function.update_of_ne hut] at hc
      exact h.held u c hc

theorem delete_past {s : MpmcRun ι T} {t : ι} {hc : Nat} {q' : MPMCQueue T} {p' : MpmcPoint T}
    (h : s.PastRetired) (at_delete : s.threads t = .deleteHead hc)
    (unheld : ∀ u, u ≠ t → ∀ c ∈ (s.threads u).held, s.queue.Later hc c)
    (keeps : MPMCQueue.Keeps s.queue (s.threads t) q' p') (knows : s.queue.Knows (s.threads t))
    (free : p'.held = []) (same : q'.headChunk = s.queue.headChunk)
    (retired : q'.retired = s.queue.retired ++ [hc]) :
    MpmcRun.PastRetired ⟨q', Function.update s.threads t p'⟩ where
  head := by
    intro a ha
    rw [retired] at ha
    rw [same]
    rcases List.mem_append.mp ha with ha | ha
    · exact keeps.frame.later (h.head a ha)
    · rw [List.mem_singleton.mp ha]
      rw [at_delete] at knows
      exact keeps.frame.later knows
  held := by
    intro u c hcu a ha
    have hut : u ≠ t := by
      rintro rfl
      simp [free] at hcu
    simp only [Function.update_of_ne hut] at hcu
    rw [retired] at ha
    rcases List.mem_append.mp ha with ha | ha
    · exact keeps.frame.later (h.held u c hcu a ha)
    · rw [List.mem_singleton.mp ha]
      exact keeps.frame.later (unheld u hut c hcu)

theorem advance_past {s : MpmcRun ι T} {t : ι} {q' : MPMCQueue T} {p' : MpmcPoint T} (inv : s.Inv)
    (h : s.PastRetired) (hadv : s.queue.advance (s.threads t) = some (q', p'))
    (same : q'.retired = s.queue.retired) :
    MpmcRun.PastRetired ⟨q', Function.update s.threads t p'⟩ := by
  have keeps := MPMCQueue.advance_keeps inv.shared (inv.knows t) hadv
  constructor
  · intro a ha
    simp only [same] at ha
    obtain ⟨i, j, hi, hj, lt⟩ := h.head a ha
    obtain ⟨k, le, hk⟩ := keeps.frame.head j hj
    exact ⟨i, k, keeps.frame.at_chain hi, hk, lt.trans_le le⟩
  · intro u c hc a ha
    simp only [same] at ha
    by_cases hut : u = t
    · subst u
      simp only [Function.update_self] at hc
      exact MPMCQueue.advance_later inv.shared (inv.knows t) hadv (h.head a ha)
        (fun d hd => h.held t d hd a ha) c hc
    · simp only [Function.update_of_ne hut] at hc
      exact keeps.frame.later (h.held u c hc a ha)

theorem past_retired_step (s : MpmcRun ι T) (op : MpmcOp ι T) (s' : MpmcRun ι T)
    (h : s.Inv ∧ s.PastRetired) (ok : DeletesUnheld s op)
    (hs : (mpmcMachine ι T).step s op = some s') : s'.Inv ∧ s'.PastRetired := by
  refine ⟨mpmc_step s op s' h.1 hs, ?_⟩
  cases mpmc_move hs with
  | restart free begins =>
    rcases begins with ⟨v, rfl⟩ | rfl
    · exact restart_past h.2 _ rfl
    · exact restart_past h.2 _ rfl
  | @access t _ _ run =>
    rcases MPMCQueue.advance_retired run with same | ⟨hc, hp, free, head, retired⟩
    · exact advance_past h.1 h.2 run same
    · exact delete_past h.2 hp (ok hc hp) (MPMCQueue.advance_keeps h.1.shared (h.1.knows t) run)
        (h.1.knows t) free head retired

/- This step takes `head_chunk_` off the chunk that the `pop` of `t` then deletes. -/
def MpmcRun.movesHead (s s' : MpmcRun ι T) (t : ι) : Bool :=
  match s.threads t, s'.threads t with
  | .moveHead _ _, .deleteHead _ => true
  | _, _ => false

/- The calls `u` that were in flight when the `pop` of `t` moved `head_chunk_`, and have since
neither returned nor gone back to the top of their loop. -/
def stillInFlight (s : MpmcRun ι T) (_ : MpmcOp ι T) (s' : MpmcRun ι T) (since : ι → ι → Bool) :
    ι → ι → Bool :=
  fun t u => (since t u || s.movesHead s' t) && !(s'.threads u).restarts

/- A `pop` deletes a chunk only when every other call that was in flight as `head_chunk_` left it
has returned, or has gone back to the top of its loop. -/
def DeletesAfterGrace (x : MpmcRun ι T × (ι → ι → Bool)) : MpmcOp ι T → Prop
  | .advance t => ∀ hc, x.1.threads t = .deleteHead hc → ∀ u, u ≠ t → x.2 t u = false
  | _ => True

/- Who came after the head had moved can only have got to later chunks. -/
structure MpmcRun.Graced (x : MpmcRun ι T × (ι → ι → Bool)) : Prop where
  inv : x.1.Inv
  later : ∀ t u hc, x.1.threads t = .deleteHead hc → x.2 t u = false →
    ∀ c ∈ (x.1.threads u).held, x.1.queue.Later hc c

omit [DecidableEq ι] in
theorem stillInFlight_eq_false {s s' : MpmcRun ι T} (op : MpmcOp ι T)
    {since : ι → ι → Bool} {t u : ι} (h : stillInFlight s op s' since t u = false) :
    (s'.threads u).restarts = true ∨ since t u = false ∧ s.movesHead s' t = false := by
  simp only [stillInFlight, Bool.and_eq_false_iff, Bool.or_eq_false_iff, Bool.not_eq_false'] at h
  exact h.symm

omit [DecidableEq ι] in
theorem movesHead_eq_false {s s' : MpmcRun ι T} {t : ι} {hc : Nat}
    (after : s'.threads t = .deleteHead hc) (h : s.movesHead s' t = false) :
    ∀ c n, s.threads t ≠ .moveHead c n := by
  intro c n before
  simp only [MpmcRun.movesHead, before, after, Bool.true_eq_false] at h

theorem graced_step (x : MpmcRun ι T × (ι → ι → Bool)) (op : MpmcOp ι T) (s' : MpmcRun ι T)
    (h : MpmcRun.Graced x) (hs : (mpmcMachine ι T).step x.1 op = some s') :
    MpmcRun.Graced (s', stillInFlight x.1 op s' x.2) := by
  obtain ⟨s, since⟩ := x
  refine ⟨mpmc_step s op s' h.inv hs, ?_⟩
  intro t u hc deletes flown c held
  rcases stillInFlight_eq_false op flown with free | ⟨old, stays⟩
  · simp only [MpmcPoint.restarts_held free, List.not_mem_nil] at held
  · have past := movesHead_eq_false deletes stays
    cases mpmc_move hs with
    | @restart _ v p' _ begins =>
      have free : p'.held = [] := by rcases begins with ⟨_, rfl⟩ | rfl <;> rfl
      have other : t ≠ v := by
        rintro rfl
        simp only [Function.update_self] at deletes
        rcases begins with ⟨_, rfl⟩ | rfl <;> cases deletes
      simp only [Function.update_of_ne other] at deletes
      by_cases hu : u = v
      · subst u
        simp only [Function.update_self, free, List.not_mem_nil] at held
      · simp only [Function.update_of_ne hu] at held
        exact h.later t u hc deletes old c held
    | @access v q' p' run =>
      have knows := h.inv.knows v
      have other : t ≠ v := by
        rintro rfl
        simp only [Function.update_self] at deletes
        subst deletes
        obtain ⟨n, moves⟩ := MPMCQueue.advance_deleteHead run
        exact past hc n moves
      simp only [Function.update_of_ne other] at deletes
      have before := h.later t u hc deletes old
      have head : s.queue.Later hc s.queue.headChunk := by
        have knows := h.inv.knows t
        rw [deletes] at knows
        exact knows
      by_cases hu : u = v
      · subst u
        simp only [Function.update_self] at held
        exact MPMCQueue.advance_later h.inv.shared knows run head before c held
      · simp only [Function.update_of_ne hu] at held
        exact (MPMCQueue.advance_keeps h.inv.shared knows run).frame.later (before c held)

end

namespace MPMCQueue

variable {T : Type} {q : MPMCQueue T}

def runOn (q : MPMCQueue T) : MpmcPoint T → Nat → Option (MPMCQueue T × MpmcPoint T)
  | p, 0 => some (q, p)
  | .deleteHead _, _ + 1 => none
  | p, n + 1 => (q.advance p).bind fun r => r.1.runOn r.2 n

theorem runOn_zero (q : MPMCQueue T) (p : MpmcPoint T) : q.runOn p 0 = some (q, p) := by
  cases p <;> rfl

theorem runOn_succ {p : MpmcPoint T} {n : Nat} {r : MPMCQueue T × MpmcPoint T}
    (h : q.runOn p (n + 1) = some r) :
    (∀ hc, p ≠ .deleteHead hc) ∧ ∃ q' p', q.advance p = some (q', p') ∧ q'.runOn p' n = some r := by
  have hp : ∀ hc, p ≠ .deleteHead hc := by
    rintro hc rfl
    cases h
  have h : (q.advance p).bind (fun r => r.1.runOn r.2 n) = some r := by
    cases p <;> first | exact h | cases h
  obtain ⟨⟨q', p'⟩, first, rest⟩ := Option.bind_eq_some_iff.mp h
  exact ⟨hp, q', p', first, rest⟩

/- The first chunk is the only one; `head` values have been popped and `tail` pushed. -/
structure Level (q : MPMCQueue T) (head tail : Nat) : Prop where
  fresh : q.fresh = 1
  headChunk : q.headChunk = 0
  tailChunk : q.tailChunk = 0
  headIndex : q.headIndex = head
  tailIndex : q.tailIndex = tail
  beginIndex : (q.chunks 0).beginIndex = 0
  readCount : (q.chunks 0).readCount = head
  refCount : (q.chunks 0).refCount = 0

theorem push_level {k : Nat} (h : q.Level k k) (lt : k < CHUNK_SIZE) (v : T) :
    ∃ q', q.runOn (.loadTailChunk v) 7 = some (q', .idle) ∧ q'.Level k (k + 1) ∧
      ((q'.chunks 0).slots k).ready = true := by
  obtain ⟨fr, hc, tc, hi, ti, bi, rc, rf⟩ := h
  refine ⟨?q, ?run, ?level, ?ready⟩
  case run =>
    simp only [runOn, advance, pushStep, walkStep, popStep, tc, ti, bi, Option.some_or,
      Option.none_or, Option.bind_some, Nat.zero_add, if_true, Nat.sub_zero, ge_iff_le,
      if_neg (Nat.not_le.mpr lt)]
    rfl
  case level => constructor <;> simp [setSlot, setChunk, fr, hc, hi, bi, rc, rf]
  case ready => simp [setSlot, setChunk]

theorem pop_level {k : Nat} (h : q.Level k (k + 1)) (lt : k < CHUNK_SIZE)
    (ready : ((q.chunks 0).slots k).ready = true) :
    ∃ q', q.runOn .loadHeadChunk 12 = some (q', .idle) ∧ q'.Level (k + 1) (k + 1) := by
  obtain ⟨fr, hc, tc, hi, ti, bi, rc, rf⟩ := h
  refine ⟨?q, ?run, ?level⟩
  case run =>
    simp only [runOn, advance, pushStep, walkStep, popStep, hc, hi, ti, bi, rc, Option.some_or,
      Option.none_or, Option.bind_some, Nat.zero_add, if_true, Nat.sub_zero,
      if_neg (Nat.not_le.mpr lt), if_neg (Nat.ne_of_lt lt), if_neg (Nat.succ_ne_self k).symm,
      addRef, setChunk, Function.update_self, ne_eq, not_true_eq_false, if_false, ready]
    rfl
  case level => constructor <;> simp [setSlot, setChunk, dropRef, giveBack, countRead, fr, tc, rf]

theorem push_extends (h : q.Level CHUNK_SIZE CHUNK_SIZE) (v : T) :
    ∃ q', q.runOn (.loadTailChunk v) 14 = some (q', .idle) ∧ q'.headChunk = 0 ∧
      q'.headIndex = CHUNK_SIZE ∧ q'.tailIndex = CHUNK_SIZE + 1 ∧ (q'.chunks 0).next = some 1 ∧
      (q'.chunks 0).readCount = CHUNK_SIZE ∧ (q'.chunks 0).refCount = 0 := by
  obtain ⟨fr, hc, tc, hi, ti, bi, rc, rf⟩ := h
  have ne : (0 : Nat) ≠ 1 := by decide
  have lt : ¬ CHUNK_SIZE + CHUNK_SIZE ≤ CHUNK_SIZE := by decide
  refine ⟨?q, ?run, ?rest⟩
  case run =>
    simp only [runOn, advance, pushStep, walkStep, popStep, tc, ti, bi, fr, Option.some_or,
      Option.none_or, Option.bind_some, Nat.zero_add, if_true, ge_iff_le, Nat.le_refl,
      alloc, setChunk, Function.update_self, Function.update_of_ne ne,
      Function.update_of_ne ne.symm, Chunk.init, if_neg lt]
    rfl
  case rest => simp [setSlot, setChunk, hc, hi, rc, rf]

theorem pop_moves_head (hc : q.headChunk = 0) (hi : q.headIndex = CHUNK_SIZE)
    (ti : q.tailIndex = CHUNK_SIZE + 1) (next : (q.chunks 0).next = some 1)
    (rc : (q.chunks 0).readCount = CHUNK_SIZE) (rf : (q.chunks 0).refCount = 0) :
    q.runOn .loadHeadChunk 8 = some ({ q with headChunk := 1 }, .deleteHead 0) := by
  simp only [runOn, advance, pushStep, walkStep, popStep, hc, hi, ti, next, rc, rf, Option.none_or,
    Option.bind_some, if_true, if_neg (Nat.succ_ne_self CHUNK_SIZE).symm]

end MPMCQueue

section

variable {ι T : Type} [DecidableEq ι] {threads : ι → MpmcPoint T} {t : ι}

theorem reachWith_runOn {ok : MpmcRun ι T → MpmcOp ι T → Prop}
    (free : ∀ s, (∀ hc, s.threads t ≠ .deleteHead hc) → ok s (.advance t))
    {q q' : MPMCQueue T} {p p' : MpmcPoint T} {n : Nat}
    (h : (mpmcMachine ι T).ReachWith ok ⟨q, Function.update threads t p⟩)
    (hr : q.runOn p n = some (q', p')) :
    (mpmcMachine ι T).ReachWith ok ⟨q', Function.update threads t p'⟩ := by
  induction n generalizing q p with
  | zero =>
    cases (MPMCQueue.runOn_zero q p).symm.trans hr
    exact h
  | succ n ih =>
    obtain ⟨hp, r, pr, hadv, hrest⟩ := MPMCQueue.runOn_succ hr
    refine ih (.next h (a := .advance t) (free _ (by simpa using hp)) ?_) hrest
    simp [mpmcMachine, hadv]

def KeepsChunks (s : MpmcRun ι T) : MpmcOp ι T → Prop
  | .advance t => ∀ hc, s.threads t ≠ .deleteHead hc
  | _ => True

theorem reach_runOn {q q' : MPMCQueue T} {p p' : MpmcPoint T} {n : Nat}
    (h : (mpmcMachine ι T).ReachWith KeepsChunks ⟨q, Function.update threads t p⟩)
    (hr : q.runOn p n = some (q', p')) :
    (mpmcMachine ι T).ReachWith KeepsChunks ⟨q', Function.update threads t p'⟩ :=
  reachWith_runOn (fun _ keeps => keeps) h hr

theorem reach_start (t : ι) : (mpmcMachine ι T).ReachWith KeepsChunks
    ⟨.init, Function.update (fun _ => .idle) t .idle⟩ := by
  rw [Function.update_eq_self]
  exact .start

theorem delete_head_step (q : MPMCQueue T) (threads : ι → MpmcPoint T) (t : ι) (hc : Nat) :
    (mpmcMachine ι T).step ⟨q, Function.update threads t (.deleteHead hc)⟩ (.advance t) =
      some ⟨{ q with retired := q.retired ++ [hc] }, Function.update threads t .loadHeadChunk⟩ := by
  simp [mpmcMachine, MPMCQueue.advance, MPMCQueue.pushStep, MPMCQueue.walkStep, MPMCQueue.popStep]

theorem reach_push {q : MPMCQueue T} (v : T)
    (h : (mpmcMachine ι T).ReachWith KeepsChunks ⟨q, Function.update threads t .idle⟩) :
    (mpmcMachine ι T).ReachWith KeepsChunks ⟨q, Function.update threads t (.loadTailChunk v)⟩ :=
  .next h (a := .push t v) trivial (by simp [mpmcMachine])

theorem reach_pop {q : MPMCQueue T}
    (h : (mpmcMachine ι T).ReachWith KeepsChunks ⟨q, Function.update threads t .idle⟩) :
    (mpmcMachine ι T).ReachWith KeepsChunks ⟨q, Function.update threads t .loadHeadChunk⟩ :=
  .next h (a := .pop t) trivial (by simp [mpmcMachine])

theorem calls_level {R : MPMCQueue T → Prop} (v : T) (start : R .init)
    (push : ∀ {q q' n}, R q → q.runOn (.loadTailChunk v) n = some (q', .idle) → R q')
    (pop : ∀ {q q' n}, R q → q.runOn .loadHeadChunk n = some (q', .idle) → R q') (k : Nat)
    (le : k ≤ CHUNK_SIZE) : ∃ q : MPMCQueue T, q.Level k k ∧ R q := by
  induction k with
  | zero => exact ⟨.init, ⟨rfl, rfl, rfl, rfl, rfl, rfl, rfl, rfl⟩, start⟩
  | succ k ih =>
    obtain ⟨q, level, reached⟩ := ih (Nat.le_of_succ_le le)
    obtain ⟨q₁, run₁, level₁, ready⟩ := MPMCQueue.push_level level le v
    obtain ⟨q₂, run₂, level₂⟩ := MPMCQueue.pop_level level₁ le ready
    exact ⟨q₂, level₂, pop (push reached run₁) run₂⟩

theorem reach_level (v : T)
    (h : (mpmcMachine ι T).ReachWith KeepsChunks ⟨.init, Function.update threads t .idle⟩) (k : Nat)
    (le : k ≤ CHUNK_SIZE) : ∃ q : MPMCQueue T, q.Level k k ∧
      (mpmcMachine ι T).ReachWith KeepsChunks ⟨q, Function.update threads t .idle⟩ :=
  calls_level v h (fun reached run => reach_runOn (reach_push v reached) run)
    (fun reached run => reach_runOn (reach_pop reached) run) k le

theorem reach_delete (v : T)
    (h : (mpmcMachine ι T).ReachWith KeepsChunks ⟨.init, Function.update threads t .idle⟩) :
    ∃ q : MPMCQueue T, q.headChunk = 1 ∧ q.headIndex = CHUNK_SIZE ∧ q.tailIndex = CHUNK_SIZE + 1 ∧
      q.chunks 0 = { q.chunks 0 with next := some 1, readCount := CHUNK_SIZE, refCount := 0 } ∧
      (mpmcMachine ι T).ReachWith KeepsChunks ⟨q, Function.update threads t (.deleteHead 0)⟩ := by
  obtain ⟨q, level, reached⟩ := reach_level v h CHUNK_SIZE (Nat.le_refl _)
  obtain ⟨q₁, run₁, hc, hi, ti, next, rc, rf⟩ := MPMCQueue.push_extends level v
  have run₂ := MPMCQueue.pop_moves_head hc hi ti next rc rf
  have used : q₁.chunks 0 = { q₁.chunks 0 with
      next := some 1, readCount := CHUNK_SIZE, refCount := 0 } := by
    rw [← next, ← rc, ← rf]
  exact ⟨{ q₁ with headChunk := 1 }, rfl, hi, ti, used,
    reach_runOn (reach_pop (reach_runOn (reach_push v reached) run₁)) run₂⟩

theorem reach_past_retired {s : MpmcRun ι T} (h : (mpmcMachine ι T).ReachWith DeletesUnheld s) :
    s.Inv ∧ s.PastRetired :=
  h.invariant ⟨mpmc_reach_inv .start, fun _ ha => absurd ha List.not_mem_nil,
    fun _ _ _ _ ha => absurd ha List.not_mem_nil⟩ past_retired_step

omit [DecidableEq ι] in
theorem MpmcRun.PastRetired.undeleted {s : MpmcRun ι T} (past : s.PastRetired) (inv : s.Inv)
    {t : ι} {c : Nat} (touch : (s.threads t).touches = some c) : c ∉ s.queue.retired ∧
    c ∉ s.queue.discarded := by
  have hheld := MpmcPoint.touches_held touch
  constructor
  · exact fun hc => (past.held t c hheld c hc).ne inv.shared rfl
  · exact fun hc => (inv.shared.discarded c hc).2 ((inv.knows t).held_mem hheld)

/-- The queue with a record of the calls that each deletion has to wait for. -/
def graceMachine (ι T : Type) [DecidableEq ι] :
    Machine (MpmcRun ι T × (ι → ι → Bool)) (MpmcOp ι T) :=
  (mpmcMachine ι T).observed (fun _ _ => false) stillInFlight

theorem reach_graced {x : MpmcRun ι T × (ι → ι → Bool)}
    (h : (graceMachine ι T).ReachWith DeletesAfterGrace x) :
    (mpmcMachine ι T).ReachWith DeletesUnheld x.1 ∧ MpmcRun.Graced x := by
  refine h.unobserved ?_ (fun x op s' graced _ hs => graced_step x op s' graced hs) ?_
  · refine ⟨mpmc_reach_inv .start, fun _ _ _ deletes => ?_⟩
    cases deletes
  · intro x op s' graced ok _
    cases op with
    | advance t => exact fun hc deletes u hu => graced.later t u hc deletes (ok hc deletes u hu)
    | push | pop | failWeak => trivial

/-- As long as every `pop` that has moved `head_chunk_` waits with its `delete` until the other
calls then in flight have returned or gone back to the top of their loop, no access is to a deleted
chunk, and at each `delete` the other calls hold pointers to later chunks only. -/
theorem no_access_to_deleted_chunk (x : MpmcRun ι T × (ι → ι → Bool))
    (h : (graceMachine ι T).ReachWith DeletesAfterGrace x) :
    (∀ t c, (x.1.threads t).touches = some c → c ∉ x.1.queue.retired ∧ c ∉ x.1.queue.discarded) ∧
    ∀ t hc, x.1.threads t = .deleteHead hc → DeletesAfterGrace x (.advance t) →
      ∀ u, u ≠ t → ∀ c ∈ (x.1.threads u).held, x.1.queue.Later hc c := by
  obtain ⟨unheld, graced⟩ := reach_graced h
  obtain ⟨inv, past⟩ := reach_past_retired unheld
  refine ⟨fun t c touch => past.undeleted inv touch, ?_⟩
  exact fun t hc deletes ok u hu => graced.later t u hc deletes (ok hc deletes u hu)

theorem reach_stalled : (mpmcMachine Bool Unit).ReachWith KeepsChunks
    ⟨.init,
      Function.update (Function.update (fun _ => .idle) true (.loadHeadIndex 0)) false .idle⟩ := by
  rw [Function.update_eq_self_iff.mpr (by rfl)]
  exact reach_runOn (n := 1) (reach_pop (reach_start true)) rfl

theorem graced_advance {q : MPMCQueue T} {p : MpmcPoint T} {since : ι → ι → Bool} (q' : MPMCQueue T)
    (p' : MpmcPoint T)
      (h : (graceMachine ι T).ReachWith DeletesAfterGrace (⟨q, Function.update threads t p⟩, since))
    (keeps : ∀ hc, p ≠ .deleteHead hc) (run : q.advance p = some (q', p')) :
    (graceMachine ι T).ReachWith DeletesAfterGrace (⟨q', Function.update threads t p'⟩,
      stillInFlight ⟨q, Function.update threads t p⟩
        (.advance t) ⟨q', Function.update threads t p'⟩ since) := by
  refine h.next (a := .advance t) (fun hc deletes => ?_) (Machine.observed_step ?_)
  · simp only [Function.update_self] at deletes
    exact absurd deletes (keeps hc)
  · simp [mpmcMachine, run]

theorem graced_delete {s s' : MpmcRun ι T} {since : ι → ι → Bool}
    (h : (graceMachine ι T).ReachWith DeletesAfterGrace (s, since))
    (waited : ∀ u, u ≠ t → since t u = false)
    (hs : (mpmcMachine ι T).step s (.advance t) = some s') :
    (graceMachine ι T).ReachWith DeletesAfterGrace (s', stillInFlight s (.advance t) s' since) :=
  h.next (a := .advance t) (fun _ _ => waited) (Machine.observed_step hs)

/- The other thread uses up the chunk and moves `head_chunk_`, and before it deletes the chunk the
stalled `pop` has seen that and started again. -/
theorem no_access_to_deleted_chunk_after_grace :
    ∃ x, (graceMachine Bool Unit).ReachWith DeletesAfterGrace x ∧ 0 ∈ x.1.queue.retired ∧
      (x.1.threads true).touches = some 1 ∧ 1 ∉ x.1.queue.retired ∧ 1 ∉ x.1.queue.discarded := by
  obtain ⟨q, hc, hi, ti, used, reached⟩ := reach_delete () reach_stalled
  have next : (q.chunks 0).next = some 1 := congrArg Chunk.next used
  have rc : (q.chunks 0).readCount = CHUNK_SIZE := congrArg Chunk.readCount used
  have rf : (q.chunks 0).refCount = 0 := congrArg Chunk.refCount used
  rw [Function.update_comm (by decide)] at reached
  have late : (mpmcMachine Bool Unit).ReachWith KeepsChunks ⟨q, Function.update
      (Function.update (fun _ => .idle) false (.deleteHead 0)) true (.moveHead 0 1)⟩ := by
    refine reach_runOn (n := 6) reached ?_
    simp only [MPMCQueue.runOn, MPMCQueue.advance, MPMCQueue.pushStep, MPMCQueue.walkStep,
      MPMCQueue.popStep, Option.none_or, Option.bind_some, hi, ti, next, rc, rf, if_true,
      if_neg (Nat.succ_ne_self CHUNK_SIZE).symm]
  obtain ⟨⟨_, since⟩, observed, rfl⟩ : ∃ x, (graceMachine Bool Unit).ReachWith DeletesAfterGrace x ∧
    x.1 = _ :=
    late.observe fun x op keeps => by
      cases op with
      | advance t => exact fun hc deletes => absurd deletes (keeps hc)
      | push | pop | failWeak => trivial
  have again := graced_advance q .loadHeadChunk observed (by simp) (by
    simp [MPMCQueue.advance, MPMCQueue.pushStep, MPMCQueue.walkStep, MPMCQueue.popStep, hc])
  have loaded := graced_advance q (.loadHeadIndex 1) again (by simp) (by
    simp [MPMCQueue.advance, MPMCQueue.pushStep, MPMCQueue.walkStep, MPMCQueue.popStep, hc])
  have step : (mpmcMachine Bool Unit).step ⟨q, Function.update
        (Function.update (fun _ => .idle) false (.deleteHead 0)) true (.loadHeadIndex 1)⟩
        (.advance false) = some ⟨{ q with retired := q.retired ++ [0] }, Function.update
        (Function.update (fun _ => .idle) false .loadHeadChunk) true (.loadHeadIndex 1)⟩ := by
    rw [Function.update_comm (by decide), delete_head_step, Function.update_comm (by decide)]
  have deleted := graced_delete loaded (fun u hu => by
    simp [Bool.eq_true_of_not_eq_false hu, stillInFlight, MpmcRun.movesHead,
      MpmcPoint.restarts]) step
  have index := graced_advance _ (.testEmpty 1 CHUNK_SIZE) deleted (by simp) (by
    simp [MPMCQueue.advance, MPMCQueue.pushStep, MPMCQueue.walkStep, MPMCQueue.popStep, hi]
    rfl)
  have count := graced_advance _ (.testReadCount 1 CHUNK_SIZE) index (by simp) (by
    simp [MPMCQueue.advance, MPMCQueue.pushStep, MPMCQueue.walkStep, MPMCQueue.popStep, ti]
    rfl)
  exact ⟨_, count, List.mem_append_right _ List.mem_cons_self, rfl,
    (no_access_to_deleted_chunk _ count).1 true 1 rfl⟩

/-- A `pop` that has loaded `head_chunk_` and nothing else loses its chunk to one other thread. -/
theorem stalled_pop_reads_deleted_chunk :
    ∃ s, (mpmcMachine Bool Unit).Reach s ∧ ∃ t c, (s.threads t).touches = some c ∧
      c ∈ s.queue.retired := by
  obtain ⟨q, hc, hi, ti, _, reached⟩ := reach_delete () reach_stalled
  have deleted := reached.reach.step (delete_head_step _ _ _ _)
  rw [Function.update_comm (by decide)] at deleted
  have resumed : (mpmcMachine Bool Unit).Reach ⟨{ q with retired := q.retired ++ [0] },
      Function.update (Function.update (fun _ => .idle) false .loadHeadChunk) true
        (.testReadCount 0 CHUNK_SIZE)⟩ := by
    refine reachWith_runOn (n := 2) (fun _ _ => trivial) deleted ?_
    simp only [MPMCQueue.runOn, MPMCQueue.advance, MPMCQueue.pushStep, MPMCQueue.walkStep,
      MPMCQueue.popStep, Option.none_or, Option.bind_some, hi, ti,
      if_neg (Nat.succ_ne_self CHUNK_SIZE).symm]
  exact ⟨_, resumed, true, 0, rfl, List.mem_append_right _ List.mem_cons_self⟩

end

end Xuanqiong
