import Xuanqiong.Util.MpmcChunks
import Xuanqiong.Util.MpmcSolo

/-! How chunks end. A chunk is left behind by `head_chunk_` after all its values have been moved
out, and deleted by the `pop` that moved `head_chunk_`; one that lost the race to be appended is
deleted by its maker; the destructor deletes the others. -/
namespace Xuanqiong

namespace MPMCQueue

variable {T : Type} {q q' : MPMCQueue T} {p p' m : MpmcPoint T}

def Emptied (q : MPMCQueue T) (x : Nat) : Prop :=
  (q.slotAt x).ready = true ∧ (q.slotAt x).value = none

def Spent (q : MPMCQueue T) (c : Nat) : Prop :=
  ∃ k, q.chain[k]? = some c ∧ ∀ x, x / CHUNK_SIZE = k → x ∈ q.counted

/- What a `pop` has found out about the chunk it wants to delete, and done to the slot it counts. -/
def Aware (q : MPMCQueue T) : MpmcPoint T → Prop
  | .testRefCount hc _ | .testNext hc | .loadNext hc | .moveHead hc _ => q.Spent hc
  | .countRead _ _ x _ => q.Emptied x
  | _ => True

structure Drained (q : MPMCQueue T) : Prop where
  counted : ∀ x ∈ q.counted, q.Emptied x
  spent : ∀ k h c : Nat, q.chain[k]? = some c → q.chain[h]? = some q.headChunk → k < h → q.Spent c

theorem advance_counted (run : q.advance p = some (q', p')) :
    q'.counted = q.counted ∨ ∃ hc rc x v, p = .countRead hc rc x v ∧
    q'.counted = q.counted ++ [x] := by
  rcases advance_cases run with h | h | h
  · clear run
    cases p <;> simp only [pushStep, reduceCtorEq] at h <;> (try split at h) <;> cases h <;>
      exact Or.inl rfl
  · clear run
    cases p <;> simp only [walkStep, reduceCtorEq] at h <;> (repeat' split at h) <;> cases h <;>
      exact Or.inl rfl
  · clear run
    cases p <;> simp only [popStep, reduceCtorEq] at h
    case countRead hc rc x v =>
      refine Or.inr ⟨hc, rc, x, v, rfl, ?_⟩
      split at h <;> cases h <;> rfl
    all_goals (try split at h) <;> cases h <;> exact Or.inl rfl

theorem slotAt_countRead (q : MPMCQueue T) (c x y : Nat) :
    (q.countRead c x).slotAt y = q.slotAt y := by
  have same : ∀ d,
      ((q.setChunk c { q.chunks c with readCount := (q.chunks c).readCount + 1 }).chunks d).slots =
      (q.chunks d).slots := setChunk_field Chunk.slots rfl
  exact slotAt_eq (by rfl) (fun d _ => same d) y

theorem slotAt_dropRef (q : MPMCQueue T) (c y : Nat) : (q.dropRef c).slotAt y = q.slotAt y :=
  slotAt_eq (by rfl) (fun d _ => setChunk_field Chunk.slots (by rfl) d) y

theorem countRead_slots {hc rc x : Nat} {v : Option T}
    (run : q.advance (.countRead hc rc x v) = some (q', p')) (y : Nat) :
    q'.slotAt y = q.slotAt y := by
  simp only [advance, pushStep, walkStep, popStep, Option.none_or] at run
  split at run <;> cases run <;> exact slotAt_countRead q rc x y

theorem dropLastRef_slots {hc x : Nat} {v : Option T}
    (run : q.advance (.dropLastRef hc x v) = some (q', p')) (y : Nat) :
    q'.slotAt y = q.slotAt y := by
  simp only [advance, pushStep, walkStep, popStep, Option.none_or] at run
  cases run
  exact slotAt_dropRef q hc y

theorem Knows.reads_counted (knows : q.Knows p) {x : Nat} (reads : p.reads = some x)
    (hx : x ∈ q.counted) :
    ∃ hc v, p = .dropLastRef hc x v := by
  cases p <;> simp only [MpmcPoint.reads, Option.some.injEq, reduceCtorEq] at reads
  case walk job c y | spin job c y | findSlot job c y =>
    cases job <;> simp only [Option.some.injEq, reduceCtorEq] at reads
    exact absurd (reads ▸ hx) knows.2.2.2.1
  case follow job c y =>
    cases job <;> simp only [Option.some.injEq, reduceCtorEq] at reads
    exact absurd (reads ▸ hx) knows.2.2.2.2.1
  case dropRef => exact absurd (reads ▸ hx) knows.2.2.2.1
  case waitReady => exact absurd (reads ▸ hx) knows.2.2.2.2.1
  case moveValue => exact absurd (reads ▸ hx) knows.2.2.2.1.2.1
  case countRead => exact absurd (reads ▸ hx) knows.2.2.1
  case dropLastRef hc y v => exact ⟨hc, v, by rw [reads]⟩

theorem Frame.emptied (f : Frame q q' p) {x : Nat} (h : q.Emptied x) (other : p.reads ≠ some x) :
    q'.Emptied x := by
  unfold Emptied
  rw [f.ready x h.1 other]
  exact h

theorem Spent.mono (f : Frame q q' p) (counted : q.counted ⊆ q'.counted) {c : Nat} (h : q.Spent c) :
    q'.Spent c := by
  obtain ⟨k, hk, all⟩ := h
  exact ⟨k, f.at_chain hk, fun x hx => counted (all x hx)⟩

theorem Frame.aware (f : Frame q q' p) (counted : q.counted ⊆ q'.counted) (apart : p.Apart m)
    (h : q.Aware m) : q'.Aware m := by
  cases m <;> first
    | trivial
    | exact Spent.mono f counted h
    | exact f.emptied h (fun hp => apart.reads _ hp rfl)

theorem Inv.spent (inv : q.Inv) {c x : Nat} (before : q.Before c x)
    (full : (q.chunks c).readCount = CHUNK_SIZE) : q.Spent c := by
  obtain ⟨k, hk, _⟩ := before
  exact ⟨k, hk, (inv.full_iff hk).mp full⟩

theorem popStep_aware (inv : q.Inv) (knows : q.Knows p) (aware : q.Aware p)
    (h : q.popStep p = some (q', p')) : q'.Aware p' := by
  cases p <;> simp only [popStep, reduceCtorEq] at h
  case testReadCount hc hi =>
    split at h
    · rename_i full
      cases h
      exact inv.spent knows.1 full
    · cases h
      trivial
  case testRefCount | testNext | loadNext =>
    split at h <;> cases h <;> first | exact aware | trivial
  case moveValue hc rc offset x =>
    cases h
    obtain ⟨_, holds, rfl, _, ready⟩ := knows
    show Emptied _ x
    unfold Emptied
    rw [inv.slotAt_setSlot holds, if_pos rfl, holds.slots]
    exact ⟨ready, rfl⟩
  all_goals (try split at h) <;> cases h <;> trivial

theorem advance_aware (inv : q.Inv) (knows : q.Knows p) (aware : q.Aware p)
    (run : q.advance p = some (q', p')) : q'.Aware p' := by
  rcases advance_cases run with h | h | h
  · cases p <;> simp only [pushStep, reduceCtorEq] at h <;> (try split at h) <;> cases h <;> trivial
  · cases p <;> simp only [walkStep, reduceCtorEq] at h <;>
      (repeat' split at h) <;> cases h <;> trivial
  · exact popStep_aware inv knows aware h

theorem counted_mono (run : q.advance p = some (q', p')) : q.counted ⊆ q'.counted := by
  rcases advance_counted run with same | ⟨_, _, _, _, _, more⟩
  · rw [same]
    exact List.Subset.refl _
  · rw [more]
    exact List.subset_append_left _ _

theorem emptied_stays (knows : q.Knows p) (f : Frame q q' p)
    (run : q.advance p = some (q', p')) {x : Nat} (hx : x ∈ q.counted) (h : q.Emptied x) :
    q'.Emptied x := by
  by_cases reads : p.reads = some x
  · obtain ⟨hc, v, rfl⟩ := knows.reads_counted reads hx
    unfold Emptied
    rw [dropLastRef_slots run]
    exact h
  · exact f.emptied h reads

theorem advance_head (run : q.advance p = some (q', p')) :
    q'.headChunk = q.headChunk ∨
      ∃ n, p = .moveHead q.headChunk n ∧ p' = .deleteHead q.headChunk ∧ q' = { q with
        headChunk := n } := by
  cases advance_chain run with
  | keep same => exact Or.inl same.headChunk
  | leave n => exact Or.inr ⟨n, rfl, rfl, rfl⟩
  | make | install | lose | link | discard | delete => exact Or.inl rfl

theorem advance_drained (inv : q.Inv) (knows : q.Knows p) (aware : q.Aware p) (drained : q.Drained)
    (run : q.advance p = some (q', p')) : q'.Drained where
  counted := by
    intro x hx
    have f := (advance_keeps inv knows run).frame
    rcases advance_counted run with same | ⟨hc, rc, y, v, rfl, more⟩
    · rw [same] at hx
      exact emptied_stays knows f run hx (drained.counted x hx)
    · rw [more] at hx
      rcases List.mem_append.mp hx with hx | hx
      · exact emptied_stays knows f run hx (drained.counted x hx)
      · rw [List.mem_singleton.mp hx]
        unfold Emptied
        rw [countRead_slots run]
        exact aware
  spent := by
    intro k h c hk hh lt
    have keeps := advance_keeps inv knows run
    have mono : ∀ {c}, q.Spent c → q'.Spent c := Spent.mono keeps.frame (counted_mono run)
    -- positions below the head were there before
    obtain ⟨i, hi, _⟩ := inv.head
    have hi' := keeps.frame.at_chain hi
    have below : ∀ {j : Nat}, j < q.chain.length → q'.chain[j]? = some c →
        q.chain[j]? = some c := by
      intro j hj hc
      rw [List.getElem?_eq_getElem hj]
      exact (keeps.frame.at_chain (List.getElem?_eq_getElem hj)).symm.trans hc
    have hlen := (List.getElem?_eq_some_iff.mp hi).1
    rcases advance_head run with same | ⟨n, rfl, rfl, rfl⟩
    · rw [same] at hh
      cases keeps.inv.chain_inj hh hi'
      exact mono (drained.spent k h c (below (lt.trans hlen) hk) hi lt)
    · obtain ⟨_, _, j, hj, hn⟩ := knows
      cases inv.chain_inj hj hi
      cases inv.chain_inj hn hh
      rcases Nat.lt_succ_iff_lt_or_eq.mp lt with lt | rfl
      · exact mono (drained.spent k i c hk hi lt)
      · cases hk.symm.trans hi
        exact mono aware

end MPMCQueue

section

variable {ι T : Type} [DecidableEq ι]

def MpmcRun.Drained (s : MpmcRun ι T) : Prop := s.queue.Drained ∧ ∀ t, s.queue.Aware (s.threads t)

theorem drained_step (s : MpmcRun ι T) (op : MpmcOp ι T) (s' : MpmcRun ι T) (h : s.Inv ∧ s.Drained)
    (hs : (mpmcMachine ι T).step s op = some s') : s'.Inv ∧ s'.Drained := by
  refine ⟨mpmc_step s op s' h.1 hs, ?_⟩
  obtain ⟨inv, drained, aware⟩ := h
  cases mpmc_move hs with
  | restart free begins =>
    refine ⟨drained, (Function.forall_update_iff _ fun _ p => s.queue.Aware p).mpr
      ⟨?_, fun u _ => aware u⟩⟩
    rcases begins with ⟨v, rfl⟩ | rfl <;> trivial
  | @access t q' p' run =>
    refine ⟨MPMCQueue.advance_drained inv.shared (inv.knows t) (aware t) drained run,
      (Function.forall_update_iff _ fun _ p => q'.Aware p).mpr ⟨?_, fun u hut => ?_⟩⟩
    · exact MPMCQueue.advance_aware inv.shared (inv.knows t) (aware t) run
    · exact (MPMCQueue.advance_keeps inv.shared (inv.knows t) run).frame.aware
        (MPMCQueue.counted_mono run) (inv.apart t u (Ne.symm hut)) (aware u)

theorem reach_drained {s : MpmcRun ι T} (h : (mpmcMachine ι T).Reach s) : s.queue.Drained := by
  refine (h.invariant ⟨mpmc_reach_inv .start, ⟨?_, ?_⟩, fun _ => trivial⟩ drained_step).2.1
  · exact fun x hx => absurd hx List.not_mem_nil
  · intro k h c _ hh lt
    obtain ⟨lt', _⟩ := List.getElem?_eq_some_iff.mp hh
    simp only [mpmcMachine, MPMCQueue.init, List.length_singleton] at lt'
    omega

/-- The chunks that `head_chunk_` has left are the deleted ones and those that a `pop` is about to
delete, each once. -/
structure MpmcRun.Retiring (s : MpmcRun ι T) : Prop where
  left : ∃ h : Nat, s.queue.chain[h]? = some s.queue.headChunk ∧
    ∀ c, c ∈ s.queue.chain.take h ↔ c ∈ s.queue.retired ∨ ∃ t, (s.threads t).deletes = some c
  once : s.queue.retired.Nodup
  pending : ∀ t c, (s.threads t).deletes = some c → c ∉ s.queue.retired
  single : ∀ t u c, (s.threads t).deletes = some c → (s.threads u).deletes = some c → t = u

theorem MpmcRun.Retiring.same {s : MpmcRun ι T} (h : s.Retiring) {t : ι} {q' : MPMCQueue T}
    {p' : MpmcPoint T} (chain : s.queue.chain <+: q'.chain)
    (head : q'.headChunk = s.queue.headChunk) (retired : q'.retired = s.queue.retired)
    (deletes : p'.deletes = (s.threads t).deletes) :
    MpmcRun.Retiring ⟨q', Function.update s.threads t p'⟩ := by
  have threads := update_same MpmcPoint.deletes deletes
  obtain ⟨⟨i, hi, left⟩, once, pending, single⟩ := h
  obtain ⟨rest, hrest⟩ := chain
  have lt := (List.getElem?_eq_some_iff.mp hi).1
  constructor
  · refine ⟨i, ?_, ?_⟩
    · simp only [head, ← hrest, List.getElem?_append_left lt, hi]
    · simp only [retired, threads, ← hrest, List.take_append_of_le_length (Nat.le_of_lt lt)]
      exact left
  · simp only [retired]
    exact once
  · simp only [retired, threads]
    exact pending
  · simp only [threads]
    exact single

theorem MPMCQueue.Inv.not_mem_take {q : MPMCQueue T} (inv : q.Inv) {k c : Nat}
    (hk : q.chain[k]? = some c) :
    c ∉ q.chain.take k := by
  intro hc
  obtain ⟨j, hj⟩ := List.mem_iff_getElem?.mp hc
  have lt := (List.getElem?_eq_some_iff.mp hj).1
  rw [List.length_take] at lt
  rw [List.getElem?_take_of_lt (by omega)] at hj
  have := inv.chain_inj hj hk
  omega

theorem MpmcRun.Retiring.leave {s : MpmcRun ι T} (h : s.Retiring) (inv : s.queue.Inv)
    {t : ι} {n : Nat} (free : (s.threads t).deletes = none)
    (linked : s.queue.Linked s.queue.headChunk n) :
    MpmcRun.Retiring ⟨{ s.queue with headChunk := n },
      Function.update s.threads t (.deleteHead s.queue.headChunk)⟩ := by
  obtain ⟨⟨i, hi, left⟩, once, pending, single⟩ := h
  obtain ⟨_, k, hk, hn⟩ := linked
  cases inv.chain_inj hk hi
  have fresh := inv.not_mem_take hi
  rw [left, not_or, not_exists] at fresh
  have threads : ∀ u c,
      (Function.update s.threads t (.deleteHead s.queue.headChunk) u).deletes = some c ↔
      u = t ∧ c = s.queue.headChunk ∨ (s.threads u).deletes = some c := by
    intro u c
    by_cases hut : u = t
    · subst u
      rw [Function.update_self, free]
      show some _ = some c ↔ _
      simp [eq_comm]
    · simp [hut]
  constructor
  · refine ⟨i + 1, hn, fun c => ?_⟩
    simp only [threads, List.take_add_one, hi, List.mem_append, left, Option.toList_some,
      List.mem_singleton, exists_or, exists_eq_left, or_assoc]
    exact or_congr_right or_comm
  · exact once
  · intro u c hu
    rcases (threads u c).mp hu with ⟨_, rfl⟩ | hu
    · exact fresh.1
    · exact pending u c hu
  · intro u w c hu hw
    rcases (threads u c).mp hu with ⟨rfl, rfl⟩ | old
    · rcases (threads w _).mp hw with ⟨rfl, _⟩ | old
      · rfl
      · exact absurd old (fresh.2 w)
    · rcases (threads w c).mp hw with ⟨rfl, rfl⟩ | old'
      · exact absurd old (fresh.2 u)
      · exact single u w c old old'

theorem MpmcRun.Retiring.delete {s : MpmcRun ι T} (h : s.Retiring) {t : ι} {hc : Nat}
    {p' : MpmcPoint T} (deletes : (s.threads t).deletes = some hc) (free : p'.deletes = none) :
    MpmcRun.Retiring ⟨{ s.queue with retired := s.queue.retired ++ [hc] },
      Function.update s.threads t p'⟩ := by
  obtain ⟨⟨i, hi, left⟩, once, pending, single⟩ := h
  have threads : ∀ u c, (Function.update s.threads t p' u).deletes = some c ↔
      u ≠ t ∧ (s.threads u).deletes = some c := by
    intro u c
    by_cases hut : u = t
    · subst u
      simp [free]
    · simp [hut]
  constructor
  · refine ⟨i, hi, fun c => ?_⟩
    simp only [threads, left, List.mem_append, List.mem_singleton]
    constructor
    · rintro (done | ⟨u, hu⟩)
      · exact Or.inl (Or.inl done)
      · by_cases hut : u = t
        · subst u
          exact Or.inl (Or.inr (Option.some.inj (hu.symm.trans deletes)))
        · exact Or.inr ⟨u, hut, hu⟩
    · rintro ((done | rfl) | ⟨u, _, hu⟩)
      · exact Or.inl done
      · exact Or.inr ⟨t, deletes⟩
      · exact Or.inr ⟨u, hu⟩
  · exact once.append (List.nodup_singleton hc) (List.disjoint_singleton.mpr (pending t hc deletes))
  · intro u c hu
    obtain ⟨hut, old⟩ := (threads u c).mp hu
    simp only [List.mem_append, List.mem_singleton]
    rintro (done | rfl)
    · exact pending u c old done
    · exact hut (single u t c old deletes)
  · intro u w c hu hw
    exact single u w c ((threads u c).mp hu).2 ((threads w c).mp hw).2

theorem retiring_step (s : MpmcRun ι T) (op : MpmcOp ι T) (s' : MpmcRun ι T)
    (h : s.Inv ∧ s.Retiring) (hs : (mpmcMachine ι T).step s op = some s') : s'.Inv ∧
    s'.Retiring := by
  refine ⟨mpmc_step s op s' h.1 hs, ?_⟩
  obtain ⟨inv, retiring⟩ := h
  obtain ⟨t, q', p', rfl, step⟩ := mpmc_chain hs
  have knows := inv.knows t
  generalize hp : s.threads t = p at step knows
  cases step with
  | keep same before after =>
    exact retiring.same (same.chain ▸ List.prefix_refl _) same.headChunk same.retired
      (by rw [hp, before.2.2, after.2.2])
  | install v nc wi => exact retiring.same (List.prefix_append _ _) rfl rfl (by rw [hp]; rfl)
  | make | lose | link | discard =>
    exact retiring.same (List.prefix_refl _) rfl rfl (by rw [hp]; rfl)
  | leave n => exact retiring.leave inv.shared (by rw [hp]; rfl) knows.2
  | delete hc => exact retiring.delete (by rw [hp]; rfl) rfl

theorem reach_retiring {s : MpmcRun ι T} (h : (mpmcMachine ι T).Reach s) : s.Retiring := by
  refine (h.invariant ⟨mpmc_reach_inv .start, ⟨0, rfl, ?_⟩, List.nodup_nil, ?_, ?_⟩ retiring_step).2
  · simp [mpmcMachine, MPMCQueue.init, MpmcPoint.deletes]
  · simp [mpmcMachine, MpmcPoint.deletes]
  · simp [mpmcMachine, MpmcPoint.deletes]

/-- Every chunk ever made is in the chain, thrown away, or still its maker's own. -/
structure MpmcRun.Accounted (s : MpmcRun ι T) : Prop where
  made : ∀ c, c < s.queue.fresh → c ∈ s.queue.chain ∨ c ∈ s.queue.discarded ∨
    ∃ t, (s.threads t).makes = some c
  once : s.queue.discarded.Nodup

theorem MpmcRun.Accounted.same {s : MpmcRun ι T} (h : s.Accounted) {t : ι} {q' : MPMCQueue T}
    {p' : MpmcPoint T} (fresh : q'.fresh = s.queue.fresh) (chain : q'.chain = s.queue.chain)
    (discarded : q'.discarded = s.queue.discarded) (makes : p'.makes = (s.threads t).makes) :
    MpmcRun.Accounted ⟨q', Function.update s.threads t p'⟩ := by
  have threads := update_same MpmcPoint.makes makes
  constructor
  · simp only [fresh, chain, discarded, threads]
    exact h.made
  · simp only [discarded]
    exact h.once

theorem accounted_step (s : MpmcRun ι T) (op : MpmcOp ι T) (s' : MpmcRun ι T)
    (h : s.Inv ∧ s.Accounted) (hs : (mpmcMachine ι T).step s op = some s') : s'.Inv ∧
    s'.Accounted := by
  refine ⟨mpmc_step s op s' h.1 hs, ?_⟩
  obtain ⟨inv, accounted⟩ := h
  obtain ⟨t, q', p', rfl, step⟩ := mpmc_chain hs
  have knows := inv.knows t
  generalize hp : s.threads t = p at step knows
  -- what another thread has made stays its own
  have others : ∀ {c : Nat} {l : MpmcPoint T}, p.makes ≠ some c →
      (∃ u, (s.threads u).makes = some c) →
      ∃ u, (Function.update s.threads t l u).makes = some c := by
    intro c l own made
    exact exists_update (P := fun m => m.makes = some c) (by rw [hp]; exact own) made l
  cases step with
  | keep same before after =>
    exact accounted.same same.fresh same.chain same.discarded (by rw [hp, before.1, after.1])
  | lose | link | leave | delete => exact accounted.same rfl rfl rfl (by rw [hp]; rfl)
  | make v tc wi =>
    refine ⟨fun c hc => ?_, accounted.once⟩
    rcases Nat.lt_succ_iff_lt_or_eq.mp hc with lt | rfl
    · exact (accounted.made c lt).imp_right (Or.imp_right (others (by simp [MpmcPoint.makes])))
    · exact Or.inr (Or.inr ⟨t, by simp [MpmcPoint.makes]⟩)
  | install v nc wi =>
    refine ⟨fun c hc => ?_, accounted.once⟩
    by_cases own : c = nc
    · subst c
      exact Or.inl (List.mem_append_right _ List.mem_cons_self)
    · rcases accounted.made c hc with placed | rest
      · exact Or.inl (List.mem_append_left _ placed)
      · exact Or.inr (rest.imp_right (others (by simp [MpmcPoint.makes, Ne.symm own])))
  | discard v tc nc wi =>
    refine ⟨fun c hc => ?_, ?_⟩
    · by_cases own : c = nc
      · subst c
        exact Or.inr (Or.inl (List.mem_append_right _ List.mem_cons_self))
      · rcases accounted.made c hc with placed | thrown | made
        · exact Or.inl placed
        · exact Or.inr (Or.inl (List.mem_append_left _ thrown))
        · exact Or.inr (Or.inr (others (by simp [MpmcPoint.makes, Ne.symm own]) made))
    · exact accounted.once.append (List.nodup_singleton nc)
        (List.disjoint_singleton.mpr knows.2.1.2.2)

theorem reach_accounted {s : MpmcRun ι T} (h : (mpmcMachine ι T).Reach s) : s.Accounted := by
  refine (h.invariant ⟨mpmc_reach_inv .start, fun c hc => ?_, List.nodup_nil⟩ accounted_step).2
  exact Or.inl (List.mem_singleton.mpr (Nat.lt_one_iff.mp hc))

omit [DecidableEq ι] in
theorem MpmcRun.Chained.settled {s : MpmcRun ι T} (h : s.Chained) (inv : s.queue.Inv)
    (idle : ∀ t, s.threads t = .idle) {k c : Nat} (hk : s.queue.chain[k]? = some c) :
    (s.queue.chunks c).next = s.queue.chain[k + 1]? := by
  cases hn : s.queue.chain[k + 1]? with
  | some n =>
    rcases h k c n hk hn with done | ⟨t, pending⟩
    · exact done
    · rw [idle t] at pending
      cases pending
  | none =>
    cases next : (s.queue.chunks c).next with
    | none => rfl
    | some n => cases hn.symm.trans (inv.links k c n hk next)

theorem MPMCQueue.destroy_chain {q : MPMCQueue T}
    (next : ∀ k c : Nat, q.chain[k]? = some c → (q.chunks c).next = q.chain[k + 1]?) {fuel k : Nat}
    (enough : q.chain.length ≤ k + fuel) : q.destroy fuel q.chain[k]? = some (q.chain.drop k) := by
  induction fuel generalizing k with
  | zero =>
    have ge : q.chain.length ≤ k := enough
    rw [List.getElem?_eq_none ge, List.drop_eq_nil_of_le ge, destroy]
  | succ fuel ih =>
    rcases Nat.lt_or_ge k q.chain.length with lt | ge
    · have hk := List.getElem?_eq_getElem lt
      rw [hk, destroy, next k _ hk, ih (by omega), List.drop_eq_getElem_cons lt]
      rfl
    · rw [List.getElem?_eq_none ge, List.drop_eq_nil_of_le ge, destroy]

theorem retired_spent {s : MpmcRun ι T} (h : (mpmcMachine ι T).Reach s) {c : Nat}
    (hc : c ∈ s.queue.retired) :
    ∃ k, s.queue.chain[k]? = some c ∧ ∀ x, x / CHUNK_SIZE = k →
      (∃ v, s.queue.Claimed x v) ∧ x ∈ s.queue.counted ∧ (s.queue.slotAt x).value = none := by
  have inv := (mpmc_reach_inv h).shared
  have drained := reach_drained h
  obtain ⟨i, hi, left⟩ := (reach_retiring h).left
  obtain ⟨j, hj⟩ := List.mem_iff_getElem?.mp ((left c).mpr (Or.inl hc))
  have lt := (List.getElem?_eq_some_iff.mp hj).1
  rw [List.length_take] at lt
  rw [List.getElem?_take_of_lt (by omega)] at hj
  obtain ⟨k, hk, all⟩ := drained.spent j i c hj hi (by omega)
  refine ⟨k, hk, fun x hx => ⟨?_, all x hx, (drained.counted x (all x hx)).2⟩⟩
  exact inv.claimed_of_lt ((inv.countedRange x (all x hx)).1.trans_le inv.order)

theorem head_moves_on {s s' : MpmcRun ι T} {op : MpmcOp ι T} (inv : s.Inv)
    (hs : (mpmcMachine ι T).step s op = some s') (moved : s'.queue.headChunk ≠ s.queue.headChunk) :
    (∃ t, op = .advance t ∧ s'.threads t = .deleteHead s.queue.headChunk) ∧
      (s'.queue.chunks s'.queue.headChunk).beginIndex =
        (s.queue.chunks s.queue.headChunk).beginIndex + CHUNK_SIZE := by
  cases mpmc_move hs with
  | restart => exact absurd rfl moved
  | @access t q' p' run =>
    have knows := inv.knows t
    rcases MPMCQueue.advance_head run with same | ⟨n, hp, rfl, rfl⟩
    · exact absurd same moved
    · rw [hp] at knows
      obtain ⟨_, _, k, hk, hn⟩ := knows
      refine ⟨⟨t, rfl, Function.update_self _ _ _⟩, ?_⟩
      simp only [inv.shared.begins _ _ hk, inv.shared.begins _ _ hn, Nat.succ_mul]

theorem deleted_once {s : MpmcRun ι T} (h : (mpmcMachine ι T).Reach s) :
    (s.queue.retired ++ s.queue.discarded).Nodup := by
  have inv := (mpmc_reach_inv h).shared
  have retiring := reach_retiring h
  obtain ⟨i, hi, left⟩ := retiring.left
  refine retiring.once.append (reach_accounted h).once fun c hr hd => ?_
  exact (inv.discarded c hd).2 (List.mem_of_mem_take ((left c).mpr (Or.inl hr)))

theorem rest_of_chain {s : MpmcRun ι T} (h : (mpmcMachine ι T).Reach s)
    (idle : ∀ t, s.threads t = .idle) :
    ∃ i : Nat, s.queue.chain[i]? = some s.queue.headChunk ∧
      (s.queue.retired ++ s.queue.discarded ++ s.queue.chain.drop i).Nodup ∧
      ∀ c, c < s.queue.fresh ↔ c ∈ s.queue.retired ++ s.queue.discarded ++
        s.queue.chain.drop i := by
  have inv := (mpmc_reach_inv h).shared
  obtain ⟨i, hi, left⟩ := (reach_retiring h).left
  have left : ∀ c, c ∈ s.queue.chain.take i ↔ c ∈ s.queue.retired := by
    intro c
    rw [left c]
    simp [idle, MpmcPoint.deletes]
  have parts := List.take_append_drop i s.queue.chain
  have chain : ∀ c, c ∈ s.queue.chain ↔ c ∈ s.queue.retired ∨ c ∈ s.queue.chain.drop i := by
    intro c
    rw [← left c, ← List.mem_append, parts]
  have nodup := inv.nodup
  rw [← parts] at nodup
  refine ⟨i, hi, ?_, fun c => ?_⟩
  · refine (deleted_once h).append (List.nodup_append.mp nodup).2.1 fun c hc hd => ?_
    rcases List.mem_append.mp hc with hr | hdis
    · exact List.disjoint_of_nodup_append nodup ((left c).mpr hr) hd
    · exact (inv.discarded c hdis).2 ((chain c).mpr (Or.inr hd))
  · simp only [List.mem_append, or_right_comm (b := c ∈ s.queue.discarded), ← chain]
    constructor
    · intro lt
      rcases (reach_accounted h).made c lt with placed | thrown | ⟨t, own⟩
      · exact Or.inl placed
      · exact Or.inr thrown
      · rw [idle t] at own
        cases own
    · rintro (placed | thrown)
      · exact inv.allocated c placed
      · exact (inv.discarded c thrown).1

/-- In any interleaving a chunk is deleted at most once, one that was in the chain only after all
its indices have been claimed and their values moved out. `head_chunk_` goes through the chain
chunk by chunk, and the `pop` that moves it off a chunk deletes it. With no call in flight the
destructor finds all that is left, in order. -/
theorem chunks_are_deleted_once (s : MpmcRun ι T) (h : (mpmcMachine ι T).Reach s) :
    (s.queue.retired ++ s.queue.discarded).Nodup ∧
    (∀ c ∈ s.queue.discarded, c ∉ s.queue.chain) ∧
    (∀ c ∈ s.queue.retired, ∃ k, s.queue.chain[k]? = some c ∧
      (s.queue.chunks c).beginIndex = k * CHUNK_SIZE ∧
      ∀ x, x / CHUNK_SIZE = k →
        (∃ v, s.queue.Claimed x v) ∧ x ∈ s.queue.counted ∧ (s.queue.slotAt x).value = none) ∧
    (∃ i : Nat, s.queue.chain[i]? = some s.queue.headChunk ∧
      ∀ c, c ∈ s.queue.chain.take i ↔ c ∈ s.queue.retired ∨ ∃ t, s.threads t = .deleteHead c) ∧
    (∀ op s', (mpmcMachine ι T).step s op = some s' → s'.queue.headChunk ≠ s.queue.headChunk →
      (∃ t, op = .advance t ∧ s'.threads t = .deleteHead s.queue.headChunk) ∧
        (s'.queue.chunks s'.queue.headChunk).beginIndex =
          (s.queue.chunks s.queue.headChunk).beginIndex + CHUNK_SIZE) ∧
    ((∀ t, s.threads t = .idle) → ∃ remaining : List Nat,
      (∀ fuel, s.queue.chain.length ≤ fuel →
        s.queue.destroy fuel (some s.queue.headChunk) = some remaining) ∧
      remaining.getLast? = some s.queue.tailChunk ∧
      remaining.map (fun c => (s.queue.chunks c).beginIndex) =
        List.range' (s.queue.chunks s.queue.headChunk).beginIndex remaining.length CHUNK_SIZE ∧
      (s.queue.retired ++ s.queue.discarded ++ remaining).Nodup ∧
      ∀ c, c < s.queue.fresh ↔ c ∈ s.queue.retired ++ s.queue.discarded ++ remaining) := by
  have inv := mpmc_reach_inv h
  refine ⟨deleted_once h, fun c hc => (inv.shared.discarded c hc).2, ?_, ?_, ?_, ?_⟩
  · intro c hc
    obtain ⟨k, hk, all⟩ := retired_spent h hc
    exact ⟨k, hk, inv.shared.begins k c hk, all⟩
  · obtain ⟨i, hi, left⟩ := (reach_retiring h).left
    simp only [MpmcPoint.deletes_eq] at left
    exact ⟨i, hi, left⟩
  · exact fun op s' hs moved => head_moves_on inv hs moved
  · intro idle
    obtain ⟨i, hi, nodup, all⟩ := rest_of_chain h idle
    obtain ⟨last, hlast, hlen, _⟩ := inv.shared.tail
    have lt := (List.getElem?_eq_some_iff.mp hi).1
    refine ⟨s.queue.chain.drop i, fun fuel enough => ?_, ?_, ?_, nodup, all⟩
    · rw [← hi]
      refine MPMCQueue.destroy_chain (fun k c hk => ?_) (by omega)
      exact (reach_chained h).settled inv.shared idle hk
    · rw [List.getLast?_drop, if_neg (by omega), List.getLast?_eq_getElem?, ← hlast]
      congr 1
      omega
    · rw [inv.shared.begins_drop, inv.shared.begins i _ hi, List.length_drop]

theorem chunks_are_deleted_once_after_delete :
    ∃ s, (mpmcMachine Bool Unit).Reach s ∧ 0 ∈ s.queue.retired ∧
      ∃ k : Nat, s.queue.chain[k]? = some 0 ∧ ∀ x, x / CHUNK_SIZE = k → x ∈ s.queue.counted := by
  obtain ⟨q, _, _, _, _, reached⟩ := reach_delete () (reach_start (ι := Bool) false)
  have deleted := reached.reach.step (delete_head_step _ _ _ _)
  have mem : 0 ∈ q.retired ++ [0] := List.mem_append_right _ List.mem_cons_self
  obtain ⟨k, hk, _, all⟩ := (chunks_are_deleted_once _ deleted).2.2.1 0 mem
  exact ⟨_, deleted, mem, k, hk, fun x hx => (all x hx).2.1⟩

theorem reach_idle {threads : ι → MpmcPoint T} {t : ι} {q : MPMCQueue T} (idle : threads t = .idle)
    (reached : (mpmcMachine ι T).Reach ⟨q, threads⟩) :
    (mpmcMachine ι T).Reach ⟨q, Function.update threads t .idle⟩ := by
  rw [Function.update_eq_self_iff.mpr idle.symm]
  exact reached

theorem reach_retires {threads : ι → MpmcPoint T} {t : ι} {q : MPMCQueue T} {h : Nat}
    (alone : q.Alone h) (reached : (mpmcMachine ι T).Reach ⟨q, Function.update threads t .idle⟩)
    (left : q.headIndex < q.tailIndex) (outside : (h + 1) * CHUNK_SIZE ≤ q.headIndex) :
    ∃ n, ({ q with headChunk := n } : MPMCQueue T).Alone (h + 1) ∧ (mpmcMachine ι T).Reach
      ⟨{ q with headChunk := n }, Function.update threads t (.deleteHead q.headChunk)⟩ := by
  obtain ⟨n, run, after⟩ := alone.retires left outside
  refine ⟨n, after, Solo.reach ?_ (solo_runOn run)⟩
  exact reached.step (a := .pop t) (by simp [mpmcMachine])

end

/-- One `pop` moves `head_chunk_` off the first chunk; before it deletes that one, another thread
uses up the second chunk, moves `head_chunk_` on and deletes the second. -/
theorem racing_pops_delete_out_of_order :
    ∃ s, (mpmcMachine Bool Unit).Reach s ∧
      ¬ (s.queue.retired.map fun c => (s.queue.chunks c).beginIndex).Pairwise (· < ·) := by
  obtain ⟨q₁, alone₁, tail₁, head₁, -, retired₁, reached₁⟩ :=
    reach_pushes MPMCQueue.init_alone () (reach_idle (t := false) rfl .start) (2 * CHUNK_SIZE + 1)
  have tail₁ : q₁.tailIndex = 2 * CHUNK_SIZE + 1 := tail₁.trans (Nat.zero_add _)
  have head₁ : q₁.headIndex = 0 := head₁
  obtain ⟨q₂, alone₂, head₂, tail₂, -, retired₂, reached₂⟩ :=
    reach_takes alone₁ reached₁ CHUNK_SIZE (by omega) (by omega)
  rw [Function.update_eq_self_iff.mpr (by rfl)] at reached₂
  obtain ⟨n, alone₃, reached₃⟩ :=
    reach_retires alone₂ (reach_idle (t := true) rfl reached₂) (by omega) (by omega)
  have head₃ : ({ q₂ with headChunk := n } : MPMCQueue Unit).headIndex = CHUNK_SIZE := by
    show q₂.headIndex = CHUNK_SIZE
    omega
  have tail₃ : ({ q₂ with headChunk := n } : MPMCQueue Unit).tailIndex = 2 * CHUNK_SIZE + 1 := by
    show q₂.tailIndex = 2 * CHUNK_SIZE + 1
    omega
  obtain ⟨q₄, alone₄, head₄, tail₄, chain₄, retired₄, reached₄⟩ :=
    reach_takes alone₃ (reach_idle (t := false) rfl reached₃) CHUNK_SIZE (by omega) (by omega)
  obtain ⟨n', -, reached₅⟩ := reach_retires alone₄ reached₄ (by omega) (by omega)
  have second := reached₅.step (delete_head_step _ _ _ _)
  rw [Function.update_comm (by decide)] at second
  have first := second.step (delete_head_step _ _ _ _)
  refine ⟨_, first, ?_⟩
  have begins₂ : (q₄.chunks q₂.headChunk).beginIndex = 0 * CHUNK_SIZE :=
    alone₄.inv.begins 0 _ (chain₄ ▸ alone₂.quiet.head)
  have begins₄ := alone₄.inv.begins 1 _ alone₄.quiet.head
  have none_before : q₄.retired = [] := retired₄.trans (retired₂.trans retired₁)
  simp [none_before, begins₂, begins₄]

end Xuanqiong
