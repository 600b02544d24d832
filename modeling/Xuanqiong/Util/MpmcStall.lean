import Xuanqiong.Util.MpmcChunks
import Xuanqiong.Util.MpmcSolo

/-! Whether a `push` that has claimed its index gets to its slot. It tries to append a chunk at
most once, to the `tail_chunk_` it loaded before the index, and then waits for `next` pointers
that others have to set. -/
namespace Xuanqiong

namespace MPMCQueue

variable {T : Type} {q q' : MPMCQueue T} {p p' m : MpmcPoint T}

/- The chunk of a claimed index is in the chain, or the claimer is about to see to it. -/
def Near (q : MPMCQueue T) : MpmcPoint T → Prop
  | .testTail _ tc x | .newChunk _ tc x | .installChunk _ tc _ x =>
    x / CHUNK_SIZE < q.chain.length ∨ ∃ k, q.chain[k]? = some tc ∧ x < (k + 2) * CHUNK_SIZE
  | .linkChunk _ _ _ x | .deleteNext _ _ _ x | .walk (.write _) _ x | .spin (.write _) _ x
  | .follow (.write _) _ x => x / CHUNK_SIZE < q.chain.length
  | _ => True

theorem Frame.near (f : Frame q q' p) (h : q.Near m) : q'.Near m := by
  have within : ∀ {x}, x / CHUNK_SIZE < q.chain.length → x / CHUNK_SIZE < q'.chain.length :=
    fun lt => lt.trans_le f.chain.length_le
  have close : ∀ {tc x}, (x / CHUNK_SIZE < q.chain.length ∨
      ∃ k, q.chain[k]? = some tc ∧ x < (k + 2) * CHUNK_SIZE) →
      (x / CHUNK_SIZE < q'.chain.length ∨ ∃ k, q'.chain[k]? = some tc ∧
        x < (k + 2) * CHUNK_SIZE) := by
    rintro tc x (lt | ⟨k, hk, lt⟩)
    · exact Or.inl (within lt)
    · exact Or.inr ⟨k, f.at_chain hk, lt⟩
  cases m <;> first
    | trivial
    | exact close h
    | exact within h
    | (rename_i job _ _; cases job <;> first | trivial | exact within h)

theorem Inv.lt_length (inv : q.Inv) {x : Nat}
    (lt : x < (q.chunks q.tailChunk).beginIndex + CHUNK_SIZE) :
    x / CHUNK_SIZE < q.chain.length := by
  obtain ⟨last, hlast, hlen, _⟩ := inv.tail
  rw [inv.begins last _ hlast, ← Nat.succ_mul] at lt
  rw [← hlen]
  exact Nat.div_lt_of_lt_mul (by rw [Nat.mul_comm]; exact lt)

theorem install_near (inv : q.Inv) {v : T} {nc x : Nat}
    (near : q.Near (.installChunk v q.tailChunk nc x)) :
    x / CHUNK_SIZE < (q.chain ++ [nc]).length := by
  obtain ⟨last, hlast, hlen, _⟩ := inv.tail
  rw [List.length_append, List.length_singleton]
  rcases near with lt | ⟨k, hk, lt⟩
  · exact Nat.lt_succ_of_lt lt
  · rw [inv.chain_inj hk hlast] at lt
    have : x / CHUNK_SIZE < last + 2 := Nat.div_lt_of_lt_mul (by rw [Nat.mul_comm]; exact lt)
    omega

theorem lose_near (inv : q.Inv) {v : T} {tc nc x : Nat} (near : q.Near (.installChunk v tc nc x))
    (lost : q.tailChunk ≠ tc) : x / CHUNK_SIZE < q.chain.length := by
  obtain ⟨last, hlast, hlen, _⟩ := inv.tail
  rcases near with lt | ⟨k, hk, lt⟩
  · exact lt
  · have hkl : k ≠ last := by
      rintro rfl
      exact lost (Option.some.inj (hlast.symm.trans hk))
    have := (List.getElem?_eq_some_iff.mp hk).1
    have : x / CHUNK_SIZE < k + 2 := Nat.div_lt_of_lt_mul (by rw [Nat.mul_comm]; exact lt)
    omega

theorem pushStep_near (inv : q.Inv) (knows : q.Knows p) (near : q.Near p)
    (ok : ∀ v tc, p = .claimTail v tc q.tailIndex →
      q.tailIndex < (q.chunks tc).beginIndex + 2 * CHUNK_SIZE ∨
        q.tailIndex < (q.chunks q.tailChunk).beginIndex + CHUNK_SIZE)
    (h : q.pushStep p = some (q', p')) : q'.Near p' := by
  cases p <;> simp only [pushStep, reduceCtorEq] at h
  case claimTail v tc ti =>
    split at h
    · rename_i won
      subst won
      cases h
      rcases ok v tc rfl with close | there
      · obtain ⟨k, hk, _⟩ := knows
        rw [inv.begins k tc hk] at close
        exact Or.inr ⟨k, hk, by rw [Nat.add_mul]; exact close⟩
      · exact Or.inl (inv.lt_length there)
    · cases h
      trivial
  case testTail =>
    split at h
    · cases h
      exact near
    · cases h
      trivial
  case newChunk =>
    cases h
    exact near
  case installChunk v tc nc wi =>
    split at h
    · rename_i last
      subst last
      cases h
      exact install_near inv near
    · rename_i lost
      cases h
      exact lose_near inv near lost
  case linkChunk | deleteNext =>
    cases h
    exact near
  all_goals
    cases h
    trivial

theorem walkStep_near (near : q.Near p) (h : q.walkStep p = some (q', p')) : q'.Near p' := by
  cases p <;> simp only [walkStep, reduceCtorEq] at h <;> rename_i job _ _ <;> cases job <;>
    (repeat' split at h) <;> (try contradiction) <;> cases h <;> first | exact near | trivial

theorem popStep_near (h : q.popStep p = some (q', p')) : q'.Near p' := by
  cases p <;> simp only [popStep, reduceCtorEq] at h <;> (try split at h) <;> cases h <;> trivial

end MPMCQueue

section

variable {ι T : Type} [DecidableEq ι]

/- A `push` claims an index less than two chunks past the start of the chunk it has loaded, or one
whose chunk is there already. -/
def ClaimsNear (s : MpmcRun ι T) : MpmcOp ι T → Prop
  | .advance t => ∀ v tc, s.threads t = .claimTail v tc s.queue.tailIndex →
    s.queue.tailIndex < (s.queue.chunks tc).beginIndex + 2 * CHUNK_SIZE ∨
      s.queue.tailIndex < (s.queue.chunks s.queue.tailChunk).beginIndex + CHUNK_SIZE
  | _ => True

theorem near_step (s : MpmcRun ι T) (op : MpmcOp ι T) (s' : MpmcRun ι T)
    (h : s.Inv ∧ ∀ t, s.queue.Near (s.threads t)) (ok : ClaimsNear s op)
    (hs : (mpmcMachine ι T).step s op = some s') : s'.Inv ∧ ∀ t, s'.queue.Near (s'.threads t) := by
  refine ⟨mpmc_step s op s' h.1 hs, ?_⟩
  obtain ⟨inv, near⟩ := h
  cases mpmc_move hs with
  | restart free begins =>
    refine (Function.forall_update_iff _ fun _ p => s.queue.Near p).mpr ⟨?_, fun u _ => near u⟩
    rcases begins with ⟨v, rfl⟩ | rfl <;> trivial
  | @access t q' p' run =>
    refine (Function.forall_update_iff _ fun _ p => q'.Near p).mpr ⟨?_, fun u _ => ?_⟩
    · rcases MPMCQueue.advance_cases run with run | run | run
      · exact MPMCQueue.pushStep_near inv.shared (inv.knows t) (near t) ok run
      · exact MPMCQueue.walkStep_near (near t) run
      · exact MPMCQueue.popStep_near run
    · exact (MPMCQueue.advance_keeps inv.shared (inv.knows t) run).frame.near (near u)

theorem reach_near {s : MpmcRun ι T} (h : (mpmcMachine ι T).ReachWith ClaimsNear s) (t : ι) :
    s.queue.Near (s.threads t) :=
  (h.invariant ⟨mpmc_reach_inv .start, fun _ => trivial⟩ near_step).2 t

theorem advance_step {s : MpmcRun ι T} {t : ι} {p p' : MpmcPoint T} {q' : MPMCQueue T}
    (site : s.threads t = p) (run : s.queue.advance p = some (q', p')) :
    (mpmcMachine ι T).step s (.advance t) = some ⟨q', Function.update s.threads t p'⟩ := by
  simp [mpmcMachine, site, run]

/- Accesses of calls already started bring the `push` of `t` to its end. -/
def Completes (s : MpmcRun ι T) (t : ι) (x : Nat) : Prop :=
  ∃ ops s', (∀ op ∈ ops, ∃ u, op = MpmcOp.advance u) ∧ (mpmcMachine ι T).run s ops = some s' ∧
    s'.threads t = .idle ∧ (s'.queue.slotAt x).ready = true

theorem Completes.step {s r : MpmcRun ι T} {t u : ι} {x : Nat}
    (hs : (mpmcMachine ι T).step s (.advance u) = some r) (h : Completes r t x) :
    Completes s t x := by
  obtain ⟨ops, s', advances, run, rest⟩ := h
  refine ⟨.advance u :: ops, s', ?_, by simp [Machine.run, hs, run], rest⟩
  intro op hop
  rcases List.mem_cons.mp hop with rfl | hop
  · exact ⟨u, rfl⟩
  · exact advances op hop

variable {s : MpmcRun ι T} {t : ι} {v : T} {x : Nat}

theorem reach_advance {u : ι} {p p' : MpmcPoint T} {q' : MPMCQueue T}
    (h : (mpmcMachine ι T).ReachWith ClaimsNear s) (site : s.threads u = p)
    (run : s.queue.advance p = some (q', p')) (free : ∀ v tc ti, p ≠ .claimTail v tc ti) :
    (mpmcMachine ι T).ReachWith ClaimsNear ⟨q', Function.update s.threads u p'⟩ :=
  h.next (a := .advance u) (fun _ _ claims => absurd (site.symm.trans claims) (free _ _ _))
    (advance_step site run)

theorem completes_after {u : ι} {p p' : MpmcPoint T} {q' : MPMCQueue T}
    (h : (mpmcMachine ι T).ReachWith ClaimsNear s) (site : s.threads u = p)
    (run : s.queue.advance p = some (q', p')) (free : ∀ v tc ti, p ≠ .claimTail v tc ti)
    (rest : (mpmcMachine ι T).ReachWith ClaimsNear ⟨q', Function.update s.threads u p'⟩ →
      Completes ⟨q', Function.update s.threads u p'⟩ t x) : Completes s t x :=
  .step (advance_step site run) (rest (reach_advance h site run free))

theorem completes_writeReady {c offset : Nat} (h : (mpmcMachine ι T).ReachWith ClaimsNear s)
    (site : s.threads t = .writeReady c offset x) : Completes s t x := by
  have inv := mpmc_reach_inv h.reach
  have knows := inv.knows t
  rw [site] at knows
  obtain ⟨holds, rfl, _⟩ := knows
  refine ⟨[.advance t], _, by simp, by simp [Machine.run, advance_step site rfl]; rfl, ?_, ?_⟩
  · exact Function.update_self _ _ _
  · show ((s.queue.setSlot c (x % CHUNK_SIZE) _).slotAt x).ready = true
    rw [inv.shared.slotAt_setSlot holds, if_pos rfl]

theorem completes_writeValue {c offset : Nat} (h : (mpmcMachine ι T).ReachWith ClaimsNear s)
    (site : s.threads t = .writeValue v c offset x) : Completes s t x :=
  completes_after h site rfl (by simp) fun h' =>
  completes_writeReady h' (Function.update_self _ _ _)

theorem completes_findSlot {c : Nat} (h : (mpmcMachine ι T).ReachWith ClaimsNear s)
    (site : s.threads t = .findSlot (.write v) c x) : Completes s t x :=
  completes_after h site rfl (by simp) fun h' =>
  completes_writeValue h' (Function.update_self _ _ _)

theorem spin_awaits {c j : Nat} (h : (mpmcMachine ι T).ReachWith ClaimsNear s)
    (site : s.threads t = .spin (.write v) c x) (hj : s.queue.chain[j]? = some c)
    (past : j < x / CHUNK_SIZE) :
    ∃ n, (s.queue.chunks c).next = some n ∨ ∃ u v' x', u ≠ t ∧
    s.threads u = .linkChunk v' c n x' := by
  have near := reach_near h t
  rw [site] at near
  have hn := List.getElem?_eq_getElem (Nat.lt_of_le_of_lt past near)
  refine ⟨_, (reach_chained h.reach j c _ hj hn).imp_right ?_⟩
  rintro ⟨u, links⟩
  obtain ⟨v', x', hu⟩ := MpmcPoint.links_eq links
  refine ⟨u, v', x', ?_, hu⟩
  rintro rfl
  cases site.symm.trans hu

section

-- the walk completes from the chunk after the one at `j`
variable {j : Nat}
  (onward : ∀ {s : MpmcRun ι T} {c : Nat}, (mpmcMachine ι T).ReachWith ClaimsNear s →
  s.threads t = .walk (.write v) c x → s.queue.chain[j + 1]? = some c → Completes s t x)

include onward

theorem completes_follow {c : Nat} (h : (mpmcMachine ι T).ReachWith ClaimsNear s)
    (site : s.threads t = .follow (.write v) c x) (hj : s.queue.chain[j]? = some c) :
    Completes s t x := by
  have inv := mpmc_reach_inv h.reach
  have knows := inv.knows t
  rw [site] at knows
  obtain ⟨⟨n, next, k, hk, hn⟩, _⟩ := knows
  cases inv.shared.chain_inj hk hj
  have run : s.queue.advance (.follow (.write v) c x) = some (s.queue, .walk (.write v) n x) := by
    simp [MPMCQueue.advance, MPMCQueue.pushStep, MPMCQueue.walkStep, next]
  exact completes_after h site run (by simp) fun h' => onward h' (Function.update_self _ _ _) hn

theorem completes_linked {c n : Nat} (h : (mpmcMachine ι T).ReachWith ClaimsNear s)
    (site : s.threads t = .spin (.write v) c x) (hj : s.queue.chain[j]? = some c)
    (next : (s.queue.chunks c).next = some n) : Completes s t x := by
  have run : s.queue.advance (.spin (.write v) c x) = some (s.queue, .follow (.write v) c x) := by
    simp [MPMCQueue.advance, MPMCQueue.pushStep, MPMCQueue.walkStep, next]
  exact completes_after h site run (by simp) fun h' =>
    completes_follow onward h' (Function.update_self _ _ _) hj

theorem completes_spin {c : Nat} (h : (mpmcMachine ι T).ReachWith ClaimsNear s)
    (site : s.threads t = .spin (.write v) c x) (hj : s.queue.chain[j]? = some c)
    (past : j < x / CHUNK_SIZE) : Completes s t x := by
  obtain ⟨n, next | ⟨u, v', x', hut, hu⟩⟩ := spin_awaits h site hj past
  · exact completes_linked onward h site hj next
  · refine completes_after h hu rfl (by simp) fun h' => ?_
    refine completes_linked onward h' ?_ hj (congrArg Chunk.next (MPMCQueue.setChunk_self c _))
    simp only [Function.update_of_ne hut.symm]
    exact site

end

theorem completes_walk {d j c : Nat} (h : (mpmcMachine ι T).ReachWith ClaimsNear s)
    (site : s.threads t = .walk (.write v) c x) (hj : s.queue.chain[j]? = some c)
    (ahead : x / CHUNK_SIZE = j + d) : Completes s t x := by
  induction d generalizing s j c with
  | zero =>
    have inside : ¬ (s.queue.chunks c).beginIndex + CHUNK_SIZE ≤ x := by
      rw [(mpmc_reach_inv h.reach).shared.begins j c hj, ← Nat.succ_mul]
      exact Nat.not_le.mpr (Nat.lt_mul_of_div_lt (by omega) CHUNK_SIZE_pos)
    have run : s.queue.advance (.walk (.write v) c x) =
        some (s.queue, .findSlot (.write v) c x) := by
      simp [MPMCQueue.advance, MPMCQueue.pushStep, MPMCQueue.walkStep, inside]
    exact completes_after h site run (by simp) fun h' =>
      completes_findSlot h' (Function.update_self _ _ _)
  | succ d ih =>
    have outside : (s.queue.chunks c).beginIndex + CHUNK_SIZE ≤ x := by
      rw [(mpmc_reach_inv h.reach).shared.begins j c hj, ← Nat.succ_mul]
      exact (Nat.le_div_iff_mul_le CHUNK_SIZE_pos).mp (by omega)
    have run : s.queue.advance (.walk (.write v) c x) = some (s.queue, .spin (.write v) c x) := by
      simp [MPMCQueue.advance, MPMCQueue.pushStep, MPMCQueue.walkStep, outside]
    refine completes_after h site run (by simp) fun h' => ?_
    exact completes_spin (fun h'' site'' hn => ih h'' site'' hn (by omega)) h'
      (Function.update_self _ _ _) hj (by omega)

theorem completes_before {c : Nat} (h : (mpmcMachine ι T).ReachWith ClaimsNear s)
    (site : s.threads t = .walk (.write v) c x) (before : s.queue.Before c x) :
    Completes s t x := by
  obtain ⟨k, hk, le⟩ := before
  have : k ≤ x / CHUNK_SIZE := (Nat.le_div_iff_mul_le CHUNK_SIZE_pos).mpr le
  exact completes_walk h site hk (Nat.add_sub_of_le this).symm

theorem completes_linkChunk {tc nc : Nat} (h : (mpmcMachine ι T).ReachWith ClaimsNear s)
    (site : s.threads t = .linkChunk v tc nc x) : Completes s t x := by
  refine completes_after h site rfl (by simp) fun h' =>
    completes_before h' (Function.update_self _ _ _) ?_
  have knows := (mpmc_reach_inv h.reach).knows t
  rw [site] at knows
  obtain ⟨⟨k, hk, _, le⟩, _⟩ := knows
  exact MPMCQueue.Past.before ⟨k, hk, le⟩

theorem completes_deleteNext {tc nc : Nat} (h : (mpmcMachine ι T).ReachWith ClaimsNear s)
    (site : s.threads t = .deleteNext v tc nc x) : Completes s t x := by
  refine completes_after h site rfl (by simp) fun h' =>
    completes_before h' (Function.update_self _ _ _) ?_
  have knows := (mpmc_reach_inv h.reach).knows t
  rw [site] at knows
  exact knows.1.before

theorem completes_installChunk {tc nc : Nat} (h : (mpmcMachine ι T).ReachWith ClaimsNear s)
    (site : s.threads t = .installChunk v tc nc x) : Completes s t x := by
  by_cases last : s.queue.tailChunk = tc
  · have run : s.queue.advance (.installChunk v tc nc x) =
        some ({ s.queue with
          tailChunk := nc, chain := s.queue.chain ++ [nc] }, .linkChunk v tc nc x) := by
      simp [MPMCQueue.advance, MPMCQueue.pushStep, last]
    exact completes_after h site run (by simp) fun h' =>
      completes_linkChunk h' (Function.update_self _ _ _)
  · have run : s.queue.advance (.installChunk v tc nc x) =
        some (s.queue, .deleteNext v tc nc x) := by
      simp [MPMCQueue.advance, MPMCQueue.pushStep, last]
    exact completes_after h site run (by simp) fun h' =>
      completes_deleteNext h' (Function.update_self _ _ _)

theorem completes_newChunk {tc : Nat} (h : (mpmcMachine ι T).ReachWith ClaimsNear s)
    (site : s.threads t = .newChunk v tc x) : Completes s t x :=
  completes_after h site rfl (by simp) fun h' =>
  completes_installChunk h' (Function.update_self _ _ _)

theorem completes_testTail {tc : Nat} (h : (mpmcMachine ι T).ReachWith ClaimsNear s)
    (site : s.threads t = .testTail v tc x) : Completes s t x := by
  by_cases past : (s.queue.chunks tc).beginIndex + CHUNK_SIZE ≤ x
  · have run : s.queue.advance (.testTail v tc x) = some (s.queue, .newChunk v tc x) := by
      simp [MPMCQueue.advance, MPMCQueue.pushStep, past]
    exact completes_after h site run (by simp) fun h' =>
      completes_newChunk h' (Function.update_self _ _ _)
  · have run : s.queue.advance (.testTail v tc x) = some (s.queue, .findSlot (.write v) tc x) := by
      simp [MPMCQueue.advance, MPMCQueue.pushStep, past]
    exact completes_after h site run (by simp) fun h' =>
      completes_findSlot h' (Function.update_self _ _ _)

theorem completes_claimed (h : (mpmcMachine ι T).ReachWith ClaimsNear s)
    (claimed : (s.threads t).writes = some x) : Completes s t x := by
  have knows := (mpmc_reach_inv h.reach).knows t
  have onward : ∀ {j : Nat} {v : T} {s : MpmcRun ι T} {c : Nat},
      (mpmcMachine ι T).ReachWith ClaimsNear s →
      s.threads t = .walk (.write v) c x → s.queue.chain[j + 1]? = some c → Completes s t x := by
    intro j v s c h' site _
    have knows := (mpmc_reach_inv h'.reach).knows t
    rw [site] at knows
    exact completes_before h' site knows.1
  generalize hp : s.threads t = p at claimed knows
  cases p <;> simp only [MpmcPoint.writes, Option.some.injEq, reduceCtorEq] at claimed
  case testTail =>
    subst claimed
    exact completes_testTail h hp
  case newChunk =>
    subst claimed
    exact completes_newChunk h hp
  case installChunk =>
    subst claimed
    exact completes_installChunk h hp
  case linkChunk =>
    subst claimed
    exact completes_linkChunk h hp
  case deleteNext =>
    subst claimed
    exact completes_deleteNext h hp
  case walk job c y =>
    cases job <;> simp only [Option.some.injEq, reduceCtorEq] at claimed
    subst claimed
    exact completes_before h hp knows.1
  case spin job c y =>
    cases job <;> simp only [Option.some.injEq, reduceCtorEq] at claimed
    subst claimed
    obtain ⟨⟨k, hk, le⟩, _⟩ := knows
    exact completes_spin onward h hp hk ((Nat.le_div_iff_mul_le CHUNK_SIZE_pos).mpr le)
  case follow job c y =>
    cases job <;> simp only [Option.some.injEq, reduceCtorEq] at claimed
    subst claimed
    obtain ⟨_, ⟨k, hk, _⟩, _⟩ := knows
    exact completes_follow onward h hp hk
  case findSlot job c y =>
    cases job <;> simp only [Option.some.injEq, reduceCtorEq] at claimed
    subst claimed
    exact completes_findSlot h hp
  case writeValue =>
    subst claimed
    exact completes_writeValue h hp
  case writeReady =>
    subst claimed
    exact completes_writeReady h hp

/-- As long as every `push` claims an index near the chunk it has loaded, a `push` waits for a
`next` pointer only while another one is about to set it, and every claimed index can be completed
by the calls already in flight. -/
theorem push_is_never_stuck (s : MpmcRun ι T) (h : (mpmcMachine ι T).ReachWith ClaimsNear s) :
    (∀ t v c x, s.threads t = .spin (.write v) c x → (s.queue.chunks c).next = none →
      ∃ u v' n x', u ≠ t ∧ s.threads u = .linkChunk v' c n x') ∧
    ∀ t x, (s.threads t).writes = some x →
      ∃ ops s', (∀ op ∈ ops, ∃ u, op = MpmcOp.advance u) ∧ (mpmcMachine ι T).run s ops = some s' ∧
        s'.threads t = .idle ∧ (s'.queue.slotAt x).ready = true := by
  refine ⟨?_, fun t x claimed => completes_claimed h claimed⟩
  intro t v c x site none_yet
  have knows := (mpmc_reach_inv h.reach).knows t
  rw [site] at knows
  obtain ⟨⟨j, hj, le⟩, _⟩ := knows
  obtain ⟨n, next | ⟨u, v', x', hut, hu⟩⟩ :=
    spin_awaits h site hj ((Nat.le_div_iff_mul_le CHUNK_SIZE_pos).mpr le)
  · rw [none_yet] at next
    cases next
  · exact ⟨u, v', n, x', hut, hu⟩

theorem step_tailIndex {s s' : MpmcRun ι T} {op : MpmcOp ι T} (inv : s.Inv)
    (hs : (mpmcMachine ι T).step s op = some s') : s.queue.tailIndex ≤ s'.queue.tailIndex := by
  cases mpmc_move hs with
  | restart => exact Nat.le_refl _
  | @access t q' p' run =>
    exact (MPMCQueue.advance_keeps inv.shared (inv.knows t) run).frame.tailIndex

theorem reach_claims_near {s : MpmcRun ι T} (h : (mpmcMachine ι T).Reach s)
    (few : s.queue.tailIndex ≤ 2 * CHUNK_SIZE) : (mpmcMachine ι T).ReachWith ClaimsNear s := by
  induction h with
  | start => exact .start
  | @next r s op before _ hs ih =>
    have grows := step_tailIndex (mpmc_reach_inv before) hs
    refine .next (ih (grows.trans few)) ?_ hs
    cases op with
    | advance t =>
      intro v tc site
      simp only [mpmcMachine, site, MPMCQueue.advance, MPMCQueue.pushStep, if_true, Option.some_or,
        Option.map_some, Option.some.injEq] at hs
      subst hs
      exact Or.inl (Nat.lt_of_lt_of_le few (Nat.le_add_left _ _))
    | push | pop | failWeak => trivial

end

namespace MPMCQueue

variable {T : Type} {q : MPMCQueue T}

theorem push_installs (q : MPMCQueue T) (v : T)
    (past : (q.chunks q.tailChunk).beginIndex + CHUNK_SIZE ≤ q.tailIndex) :
    ∃ q', q.runOn (.loadTailChunk v) 6 = some (q', .linkChunk v q.tailChunk q.fresh q.tailIndex) ∧
      q'.tailIndex = q.tailIndex + 1 ∧ q'.tailChunk = q.fresh ∧ q'.fresh = q.fresh + 1 ∧
      ∀ c, c ≠ q.fresh → q'.chunks c = q.chunks c := by
  refine ⟨?q, ?run, ?rest⟩
  case run =>
    simp only [runOn, advance, pushStep, Option.some_or, Option.bind_some, if_true, ge_iff_le,
      past, alloc, setChunk]
    rfl
  case rest => exact ⟨rfl, rfl, rfl, fun c old => Function.update_of_ne old _ _⟩

theorem push_loses (q : MPMCQueue T) (v : T) (tc : Nat) (behind : q.tailChunk ≠ tc)
    (old : tc ≠ q.fresh) (past : (q.chunks tc).beginIndex + CHUNK_SIZE ≤ q.tailIndex) :
    ∃ q', q.runOn (.loadTailIndex v tc) 7 = some (q', .spin (.write v) tc q.tailIndex) ∧
      q'.tailIndex = q.tailIndex + 1 ∧ ∀ c, c ≠ q.fresh → q'.chunks c = q.chunks c := by
  refine ⟨?q, ?run, ?rest⟩
  case run =>
    simp only [runOn, advance, pushStep, walkStep, Option.some_or, Option.none_or,
      Option.bind_some, if_true, ge_iff_le, past, if_neg behind, alloc, setChunk,
      Function.update_of_ne old]
    rfl
  case rest => exact ⟨rfl, fun c old => Function.update_of_ne old _ _⟩

theorem spin_goes_on (q : MPMCQueue T) (v : T) (tc n i : Nat) (next : (q.chunks tc).next = some n)
    (past : (q.chunks n).beginIndex + CHUNK_SIZE ≤ i) :
    q.runOn (.spin (.write v) tc i) 3 = some (q, .spin (.write v) n i) := by
  simp only [runOn, advance, pushStep, walkStep, Option.some_or, Option.none_or, Option.bind_some,
    next, past, if_true]

theorem Inv.tail_next (inv : q.Inv) : (q.chunks q.tailChunk).next = none := by
  obtain ⟨k, hk, length, _⟩ := inv.tail
  cases next : (q.chunks q.tailChunk).next with
  | none => rfl
  | some n =>
    have lt := (List.getElem?_eq_some_iff.mp (inv.links k _ n hk next)).1
    omega

end MPMCQueue

theorem reach_loaded (m : Nat) : ∃ q : MPMCQueue Unit, q.Alone 0 ∧ q.tailIndex = m ∧
    q.chain[0]? = some 0 ∧
    (mpmcMachine Bool Unit).Reach
      ⟨q, Function.update (Function.update (fun _ => .idle) true (.loadTailIndex () 0)) false
        .idle⟩ := by
  have loaded : (mpmcMachine Bool Unit).Reach ⟨.init,
      Function.update (Function.update (fun _ => .idle) true (.loadTailIndex () 0)) false
        .idle⟩ := by
    rw [Function.update_eq_self_iff.mpr (by rfl)]
    exact (reach_runOn (n := 1) (reach_push () (reach_start true)) rfl).reach
  obtain ⟨q, alone, tail, -, ⟨rest, hrest⟩, -, reached⟩ :=
    reach_pushes MPMCQueue.init_alone () loaded m
  exact ⟨q, alone, tail.trans (Nat.zero_add _), by rw [← hrest]; rfl, reached⟩

/- Two threads claim the first indices of the second chunk. One has appended it and is about to
store the pointer that the other waits for. -/
theorem push_is_never_stuck_across_chunks :
    ∃ s, (mpmcMachine Bool Unit).ReachWith ClaimsNear s ∧
      s.threads true = .spin (.write ()) 0 (CHUNK_SIZE + 1) ∧ (s.queue.chunks 0).next = none ∧
      (∃ u v n x, u ≠ true ∧ s.threads u = .linkChunk v 0 n x) ∧
      ∃ ops s', (∀ op ∈ ops, ∃ u, op = MpmcOp.advance u) ∧
        (mpmcMachine Bool Unit).run s ops = some s' ∧
        s'.threads true = .idle ∧ (s'.queue.slotAt (CHUNK_SIZE + 1)).ready = true := by
  obtain ⟨q, alone, tail, first, reached⟩ := reach_loaded CHUNK_SIZE
  have length : q.chain.length = 1 := by rw [alone.covers, tail]; decide
  obtain ⟨k, hk, hlen, _⟩ := alone.inv.tail
  obtain rfl : k = 0 := by omega
  have here : q.tailChunk = 0 := Option.some.inj (hk.symm.trans first)
  have old : 0 ≠ q.fresh := ne_of_mem_of_not_mem (List.mem_of_getElem? first) alone.inv.fresh_out
  have begins : (q.chunks 0).beginIndex = 0 := (alone.inv.begins 0 0 first).trans (Nat.zero_mul _)
  have started : (mpmcMachine Bool Unit).Reach ⟨q, Function.update
      (Function.update (fun _ => .idle) true (.loadTailIndex () 0)) false (.loadTailChunk ())⟩ :=
    reached.step (a := .push false ()) (by simp [mpmcMachine])
  obtain ⟨q₁, run₁, tail₁, chunk₁, fresh₁, same₁⟩ :=
    MPMCQueue.push_installs q () (by rw [here, begins, tail]; decide)
  rw [here] at run₁
  have installed := reachWith_runOn (fun _ _ => trivial) started run₁
  rw [Function.update_comm (by decide)] at installed
  obtain ⟨q₂, run₂, tail₂, same₂⟩ := MPMCQueue.push_loses q₁ () 0 (by rw [chunk₁]; exact old.symm)
    (by omega) (by rw [same₁ 0 old, begins, tail₁, tail]; decide)
  rw [tail₁, tail] at run₂
  have near := reach_claims_near (reachWith_runOn (fun _ _ => trivial) installed run₂)
    (by rw [tail₂, tail₁, tail]; decide)
  have unlinked : (q₂.chunks 0).next = none := by
    rw [same₂ 0 (by omega), same₁ 0 old, ← here]
    exact alone.inv.tail_next
  obtain ⟨awaited, completes⟩ := push_is_never_stuck _ near
  exact ⟨_, near, rfl, unlinked, awaited true () 0 _ rfl unlinked, completes true _ rfl⟩

/-- A `push` loads `tail_chunk_`, another thread fills two chunks, and the `push` gets the first
index of the third: it waits for a pointer that nobody is going to set. -/
theorem stale_push_is_stuck :
    ∃ s, (mpmcMachine Bool Unit).Reach s ∧
      (∃ t c x, s.threads t = .spin (.write ()) c x ∧ (s.queue.chunks c).next = none ∧
        ∀ u, u ≠ t → s.threads u = .idle) ∧
      ∀ u s', (mpmcMachine Bool Unit).step s (.advance u) = some s' → s' = s := by
  obtain ⟨q, alone, tail, first, reached⟩ := reach_loaded (2 * CHUNK_SIZE)
  have length : q.chain.length = 2 := by rw [alone.covers, tail]; decide
  obtain ⟨last, hlast, hlen, _⟩ := alone.inv.tail
  obtain rfl : last = 1 := by omega
  have old := ne_of_mem_of_not_mem (List.mem_of_getElem? first) alone.inv.fresh_out
  have old' := ne_of_mem_of_not_mem (List.mem_of_getElem? hlast) alone.inv.fresh_out
  obtain ⟨q', run, _, same⟩ := MPMCQueue.push_loses q () 0
    (fun behind => absurd (alone.inv.chain_inj hlast (behind ▸ first)) Nat.one_ne_zero) old
    (by rw [alone.inv.begins 0 0 first, tail]; decide)
  have goes := q'.spin_goes_on () 0 q.tailChunk q.tailIndex
    (by rw [same 0 old]; exact alone.quiet.linked 0 0 _ first hlast)
    (by rw [same _ old', alone.inv.begins 1 _ hlast, tail]; decide)
  have same := same _ old'
  have hnext := alone.inv.tail_next
  rw [Function.update_comm (by decide)] at reached
  have spins := reachWith_runOn (fun _ _ => trivial) reached run
  have stuck := reachWith_runOn (fun _ _ => trivial) spins goes
  refine ⟨_, stuck, ⟨true, q.tailChunk, q.tailIndex, rfl, ?_, ?_⟩, ?_⟩
  · rw [← hnext, ← same]
  · intro u hu
    rw [Bool.eq_false_iff.mpr hu]
    rfl
  · intro u s' hs
    cases u with
    | false =>
      rw [idle_stops rfl] at hs
      cases hs
    | true =>
      have spins : q'.advance (.spin (.write ()) q.tailChunk q.tailIndex) =
          some (q', .spin (.write ()) q.tailChunk q.tailIndex) := by
        simp [MPMCQueue.advance, MPMCQueue.pushStep, MPMCQueue.walkStep, same, hnext]
      rw [advance_step rfl spins] at hs
      cases hs
      simp

end Xuanqiong
