import Xuanqiong.Util.MpmcRetire

/-! The way of `pop` along the chain. The chunks before one that a `pop` has come to are linked, and
a claimed index is counted or in hand; so with no `pop` in flight the chunks before one that has
been read to the end can go, and the next `pop` deletes them all. -/
namespace Xuanqiong

namespace MpmcPoint

variable {T : Type}

/- The chunk that a `pop` has come to, along `next` from a `head_chunk_`. -/
def reaches : MpmcPoint T → Option Nat
  | .loadHeadIndex c | .testEmpty c _ | .testReadCount c _ | .testRefCount c _ | .testNext c
  | .loadNext c | .moveHead c _ | .addRef c _ | .claimHead c _ | .walk (.read _) c _
  | .spin (.read _) c _
  | .follow (.read _) c _ | .findSlot (.read _) c _ | .dropRef _ c _ | .waitReady _ c _ _
  | .moveValue _ c _ _ | .countRead _ c _ _ => some c
  | _ => none

def uncounted : MpmcPoint T → Option Nat
  | .dropLastRef _ _ _ => none
  | p => p.reads

end MpmcPoint

namespace MPMCQueue

variable {T : Type} {q q' : MPMCQueue T} {p p' : MpmcPoint T}

def Joined (q : MPMCQueue T) (c : Nat) : Prop :=
  ∀ j k d : Nat, q.chain[j]? = some d → q.chain[k]? = some c → j < k → (q.chunks d).next ≠ none

theorem Joined.next (inv : q.Inv) {c n : Nat} (h : q.Joined c) (linked : q.Linked c n) :
    q.Joined n := by
  intro j k d hj hk lt
  obtain ⟨hn, i, hi, hin⟩ := linked
  have := inv.chain_inj hk hin
  rcases Nat.lt_or_ge j i with before | after
  · exact h j i d hj hi before
  · have same : j = i := by omega
    subst same
    cases hj.symm.trans hi
    simp [hn]

theorem Joined.mono (inv' : q'.Inv) (f : Frame q q' p) {c : Nat} (mem : c ∈ q.chain)
    (h : q.Joined c) :
    q'.Joined c := by
  intro j k d hj hk lt
  obtain ⟨i, hi⟩ := List.mem_iff_getElem?.mp mem
  have same := inv'.chain_inj hk (f.at_chain hi)
  subst same
  have short := (List.getElem?_eq_some_iff.mp hi).1
  obtain ⟨e, he⟩ : ∃ e, q.chain[j]? = some e := ⟨_, List.getElem?_eq_getElem (by omega)⟩
  cases hj.symm.trans (f.at_chain he)
  obtain ⟨n, hn⟩ := Option.ne_none_iff_exists'.mp (h j k d he hi lt)
  rw [f.next d (List.mem_of_getElem? he) n hn]
  simp

theorem walkStep_reaches (inv : q.Inv) (knows : q.Knows p)
    (h : q.walkStep p = some (q', p')) {c : Nat} (hc : p'.reaches = some c) :
    p.reaches = some c ∨ c = q.headChunk ∨ ∃ d, p.reaches = some d ∧ q.Linked d c := by
  cases p <;> simp only [walkStep, reduceCtorEq] at h
  case follow job d x =>
    split at h
    · cases h
    · rename_i n hn
      cases h
      cases job <;> simp only [MpmcPoint.reaches, Option.some.injEq, reduceCtorEq] at hc
      subst hc
      exact Or.inr (Or.inr ⟨d, rfl, inv.linked knows.2.1 hn⟩)
  all_goals
    rename_i job _ _
    cases job <;> (repeat' split at h) <;> (try contradiction) <;> cases h <;>
      simp_all [MpmcPoint.reaches]

theorem advance_reaches (inv : q.Inv) (knows : q.Knows p)
    (h : q.advance p = some (q', p')) {c : Nat} (hc : p'.reaches = some c) :
    p.reaches = some c ∨ c = q.headChunk ∨ ∃ d, p.reaches = some d ∧ q.Linked d c := by
  rcases advance_cases h with run | run | run
  · clear h
    cases p <;> simp only [pushStep, reduceCtorEq] at run <;> (try split at run) <;> cases run <;>
      simp [MpmcPoint.reaches] at hc
  · exact walkStep_reaches inv knows run hc
  · clear h
    cases p <;> simp only [popStep, reduceCtorEq] at run <;> (try split at run) <;> cases run <;>
      simp_all [MpmcPoint.reaches]

theorem Knows.reaches_mem (knows : q.Knows p) {c : Nat} (hc : p.reaches = some c) :
    c ∈ q.chain := by
  cases p <;> simp only [MpmcPoint.reaches, Option.some.injEq, reduceCtorEq] at hc
  case moveHead => exact hc ▸ knows.1.before.mem
  case walk job _ _ | spin job _ _ | follow job _ _ | findSlot job _ _ =>
    cases job <;> simp only [Option.some.injEq, reduceCtorEq] at hc
    exact knows.held_mem (by simp [MpmcPoint.held, hc])
  all_goals exact knows.held_mem (by simp [MpmcPoint.held, hc])

/- An index is in the hands of its `pop` until it is counted. -/
structure Counts (q : MPMCQueue T) (p : MpmcPoint T) (q' : MPMCQueue T) (p' : MpmcPoint T) :
    Prop where
  claimed : ∀ x, x < q'.headIndex → x < q.headIndex ∨ p'.uncounted = some x
  uncounted : ∀ x, p.uncounted = some x → p'.uncounted = some x ∨ x ∈ q'.counted

theorem Counts.same (head : q'.headIndex = q.headIndex) (uncounted : p'.uncounted = p.uncounted) :
    Counts q p q' p' where
  claimed := fun _ hx => Or.inl (head ▸ hx)
  uncounted := fun _ hx => Or.inl (uncounted.trans hx)

theorem popStep_counts (h : q.popStep p = some (q', p')) : Counts q p q' p' := by
  cases p <;> simp only [popStep, reduceCtorEq] at h
  case claimHead hc hi =>
    split at h
    · rename_i current
      cases h
      refine ⟨fun x hx => ?_, fun x hx => by cases hx⟩
      rcases Nat.lt_succ_iff_lt_or_eq.mp hx with lt | rfl
      · exact Or.inl (current ▸ lt)
      · exact Or.inr rfl
    · cases h
      exact .same rfl rfl
  case countRead hc rc x v =>
    have counted : ∀ y, (MpmcPoint.countRead hc rc x v).uncounted = some y →
        y ∈ q.counted ++ [x] := by
      rintro _ ⟨⟩
      exact List.mem_append_right _ List.mem_cons_self
    split at h <;> cases h <;> exact ⟨fun _ hy => Or.inl hy, fun y hy => Or.inr (counted y hy)⟩
  all_goals (try split at h) <;> cases h <;> exact .same rfl rfl

theorem advance_counts (h : q.advance p = some (q', p')) : Counts q p q' p' := by
  rcases advance_cases h with run | run | run
  · clear h
    cases p <;> simp only [pushStep, reduceCtorEq] at run <;> (try split at run) <;> cases run <;>
      exact .same rfl rfl
  · clear h
    cases p <;> simp only [walkStep, reduceCtorEq] at run <;> rename_i job _ _ <;> cases job <;>
      (repeat' split at run) <;> (try contradiction) <;> cases run <;> exact .same rfl rfl
  · exact popStep_counts run

end MPMCQueue

section

variable {ι T : Type} [DecidableEq ι] {s s' : MpmcRun ι T} {op : MpmcOp ι T}

/-- What `pop` has come to lies behind chunks that are linked, and what it has claimed is counted or
in hand. -/
structure MpmcRun.Walked (s : MpmcRun ι T) : Prop where
  head : s.queue.Joined s.queue.headChunk
  reaches : ∀ t c, (s.threads t).reaches = some c → s.queue.Joined c
  counted : ∀ x ∈ s.queue.counted, ∀ c, s.queue.Holds c x → s.queue.Joined c
  claimed : ∀ x, x < s.queue.headIndex → x ∈ s.queue.counted ∨ ∃ t, (s.threads t).uncounted = some x

theorem MpmcRun.Walked.restart (h : s.Walked) {t : ι} {p' : MpmcPoint T}
    (free : (s.threads t).reads = none) (start : p'.reaches = none) :
    MpmcRun.Walked ⟨s.queue, Function.update s.threads t p'⟩ where
  head := h.head
  reaches := by
    intro u c hc
    by_cases hut : u = t
    · subst u
      simp [start] at hc
    · exact h.reaches u c (by simpa [Function.update_of_ne hut] using hc)
  counted := h.counted
  claimed := by
    intro x hx
    have own : (s.threads t).uncounted ≠ some x := by
      intro hx
      revert free hx
      cases s.threads t <;> simp +contextual [MpmcPoint.uncounted]
    exact (h.claimed x hx).imp_right fun inHand =>
      exists_update (P := fun p : MpmcPoint T => p.uncounted = some x) own inHand p'

theorem MpmcRun.Walked.access {t : ι} {q' : MPMCQueue T} {p' : MpmcPoint T} (h : s.Walked)
    (inv : s.Inv) (run : s.queue.advance (s.threads t) = some (q', p')) :
    MpmcRun.Walked ⟨q', Function.update s.threads t p'⟩ := by
  have knows := inv.knows t
  have keeps := MPMCQueue.advance_keeps inv.shared knows run
  have mono : ∀ {c}, c ∈ s.queue.chain → s.queue.Joined c → q'.Joined c := fun mem =>
    MPMCQueue.Joined.mono keeps.inv keeps.frame mem
  have next : ∀ {c n}, s.queue.Joined c → s.queue.Linked c n → q'.Joined n := by
    intro c n joined linked
    obtain ⟨_, k, _, hk⟩ := id linked
    exact mono (List.mem_of_getElem? hk) (joined.next inv.shared linked)
  refine ⟨?_, ?_, ?_, ?_⟩
  · rcases MPMCQueue.advance_head run with same | ⟨n, hp, _, moved⟩
    · show q'.Joined q'.headChunk
      rw [same]
      exact mono inv.shared.head.mem h.head
    · rw [hp] at knows
      have joined := next h.head knows.2
      rw [moved] at joined ⊢
      exact joined
  · intro u c hc
    by_cases hut : u = t
    · subst u
      have hc : p'.reaches = some c := by simpa using hc
      rcases MPMCQueue.advance_reaches inv.shared knows run hc with old | rfl | ⟨d, hd, linked⟩
      · exact mono (knows.reaches_mem old) (h.reaches t c old)
      · exact mono inv.shared.head.mem h.head
      · exact next (h.reaches t d hd) linked
    · have hc : (s.threads u).reaches = some c := by simpa [Function.update_of_ne hut] using hc
      exact mono ((inv.knows u).reaches_mem hc) (h.reaches u c hc)
  · intro x hx c hc
    -- what is counted lies in a chunk that was there before
    have old : x ∈ s.queue.counted → q'.Joined c := by
      intro hx
      have there := (inv.shared.countedRange x hx).2
      have holds := List.getElem?_eq_getElem there
      cases hc.symm.trans (keeps.frame.at_chain holds)
      exact mono (List.getElem_mem there) (h.counted x hx _ holds)
    rcases MPMCQueue.advance_counted run with same | ⟨hd, rc, y, v, hp, more⟩
    · exact old (same ▸ hx)
    · rcases List.mem_append.mp (more ▸ hx : x ∈ s.queue.counted ++ [y]) with hx | hx
      · exact old hx
      · cases List.mem_singleton.mp hx
        have joined := h.reaches t rc (by rw [hp]; rfl)
        rw [hp] at knows
        obtain ⟨_, holds, _⟩ := knows
        cases hc.symm.trans (keeps.frame.at_chain holds)
        exact mono (List.mem_of_getElem? holds) joined
  · intro x hx
    have counts := MPMCQueue.advance_counts run
    rcases counts.claimed x hx with lt | mine
    · rcases h.claimed x lt with done | ⟨u, hu⟩
      · exact Or.inl (MPMCQueue.counted_mono run done)
      · by_cases hut : u = t
        · subst u
          rcases counts.uncounted x hu with still | done
          · exact Or.inr ⟨t, by simpa using still⟩
          · exact Or.inl done
        · exact Or.inr ⟨u, by simpa [Function.update_of_ne hut] using hu⟩
    · exact Or.inr ⟨t, by simpa using mine⟩

theorem walked_step (s : MpmcRun ι T) (op : MpmcOp ι T) (s' : MpmcRun ι T) (h : s.Inv ∧ s.Walked)
    (hs : (mpmcMachine ι T).step s op = some s') : s'.Inv ∧ s'.Walked := by
  refine ⟨mpmc_step s op s' h.1 hs, ?_⟩
  obtain ⟨inv, walked⟩ := h
  cases mpmc_move hs with
  | restart free begins =>
    refine walked.restart free ?_
    rcases begins with ⟨v, rfl⟩ | rfl <;> rfl
  | access run => exact walked.access inv run

theorem reach_walked (h : (mpmcMachine ι T).Reach s) : s.Walked := by
  refine (h.invariant ⟨mpmc_reach_inv .start, ?_, ?_, ?_, ?_⟩ walked_step).2
  · intro j k d _ hk lt
    have := (List.getElem?_eq_some_iff.mp hk).1
    simp only [mpmcMachine, MPMCQueue.init, List.length_singleton] at this
    omega
  · intro t c hc
    cases hc
  · exact fun x hx => absurd hx List.not_mem_nil
  · exact fun x hx => absurd hx (Nat.not_lt_zero x)

def MpmcPoint.Popping : MpmcPoint T → Prop
  | .loadHeadChunk | .loadHeadIndex _ | .testEmpty _ _ | .testReadCount _ _ | .testRefCount _ _
  | .testNext _ | .loadNext _ | .moveHead _ _ | .deleteHead _ | .addRef _ _ | .claimHead _ _
  | .dropRef _ _ _ | .waitReady _ _ _ _ | .moveValue _ _ _ _ | .countRead _ _ _ _
  | .dropLastRef _ _ _ => True
  | .walk job _ _ | .spin job _ _ | .follow job _ _ | .findSlot job _ _ =>
    match job with
    | .read _ => True
    | .write _ => False
  | _ => False

omit [DecidableEq ι] in
theorem MpmcPoint.Popping.free {p : MpmcPoint T} (h : ¬ p.Popping) :
    p.uncounted = none ∧ p.deletes = none := by
  cases p <;> first
    | exact ⟨rfl, rfl⟩
    | exact absurd trivial h
    | skip
  all_goals
    rename_i job _ _
    cases job
    · exact ⟨rfl, rfl⟩
    · exact absurd trivial h

theorem solo_retire {threads : ι → MpmcPoint T} {t : ι} {q : MPMCQueue T} {n : Nat}
    (left : q.headIndex ≠ q.tailIndex) (read : (q.chunks q.headChunk).readCount = CHUNK_SIZE)
    (unused : (q.chunks q.headChunk).refCount = 0) (next : (q.chunks q.headChunk).next = some n) :
    Solo t ⟨q, Function.update threads t .loadHeadChunk⟩
      ⟨{ q with headChunk := n, retired := q.retired ++ [q.headChunk] },
        Function.update threads t .loadHeadChunk⟩ :=
  (solo_runOn (MPMCQueue.pop_retires q left read unused next)).trans
    (.one (delete_head_step _ _ _ _))

theorem solo_retires (threads : ι → MpmcPoint T) (t : ι) {q : MPMCQueue T} {h d c : Nat}
    (left : q.headIndex ≠ q.tailIndex) (head : q.chain[h]? = some q.headChunk)
    (target : q.chain[h + d]? = some c)
    (ends : ∀ k e : Nat, h ≤ k → k ≤ h + d → q.chain[k]? = some e →
      (q.chunks e).readCount = CHUNK_SIZE ∧ (q.chunks e).refCount = 0 ∧
        ∃ n, (q.chunks e).next = some n ∧ q.chain[k + 1]? = some n) :
    ∃ s', Solo t ⟨q, Function.update threads t .loadHeadChunk⟩ s' ∧ c ∈ s'.queue.retired := by
  induction d generalizing q h with
  | zero =>
    obtain ⟨read, unused, n, next, _⟩ := ends h _ (Nat.le_refl _) (Nat.le_add_right _ _) head
    cases head.symm.trans target
    exact ⟨_, solo_retire left read unused next, List.mem_append_right _ List.mem_cons_self⟩
  | succ d ih =>
    obtain ⟨read, unused, n, next, hn⟩ := ends h _ (Nat.le_refl _) (Nat.le_add_right _ _) head
    have further : h + 1 + d = h + (d + 1) := by omega
    obtain ⟨s', rest, mem⟩ :=
      ih (q := { q with headChunk := n, retired := q.retired ++ [q.headChunk] })
      (h := h + 1) left hn (by rw [further]; exact target)
      fun k e lo hi hk => ends k e (Nat.le_of_succ_le lo) (further ▸ hi) hk
    exact ⟨s', (solo_retire left read unused next).trans rest, mem⟩

theorem retired_later (h : (mpmcMachine ι T).Reach s) (quiet : ∀ t, ¬ (s.threads t).Popping)
    (unused : ∀ c, (s.queue.chunks c).refCount = 0) {t : ι} (idle : s.threads t = .idle)
    (left : s.queue.headIndex ≠ s.queue.tailIndex) {c : Nat} (mem : c ∈ s.queue.chain)
    (live : c ∉ s.queue.retired) (read : (s.queue.chunks c).readCount = CHUNK_SIZE)
    (next : (s.queue.chunks c).next ≠ none) :
    ∃ n s', (mpmcMachine ι T).run s (.pop t :: List.replicate n (.advance t)) = some s' ∧
      c ∈ s'.queue.retired := by
  have inv := (mpmc_reach_inv h).shared
  have walked := reach_walked h
  obtain ⟨i, hi, gone⟩ := (reach_retiring h).left
  obtain ⟨k, hk⟩ := List.mem_iff_getElem?.mp mem
  have after : i ≤ k := by
    by_contra before
    have taken : c ∈ s.queue.chain.take i := by
      refine List.mem_of_getElem? (i := k) ?_
      rw [List.getElem?_take_of_lt (Nat.lt_of_not_le before), hk]
    rcases (gone c).mp taken with done | ⟨u, hu⟩
    · exact live done
    · rw [(MpmcPoint.Popping.free (quiet u)).2] at hu
      cases hu
  have counted : ∀ x, x < s.queue.headIndex → x ∈ s.queue.counted := by
    intro x hx
    rcases walked.claimed x hx with done | ⟨u, hu⟩
    · exact done
    · rw [(MpmcPoint.Popping.free (quiet u)).1] at hu
      cases hu
  have first : k * CHUNK_SIZE / CHUNK_SIZE = k := Nat.mul_div_cancel k CHUNK_SIZE_pos
  have begun := (inv.full_iff hk).mp read _ first
  have joined := walked.counted _ begun c (by rw [MPMCQueue.Holds, first, hk])
  have ends : ∀ j e : Nat, i ≤ j → j ≤ i + (k - i) → s.queue.chain[j]? = some e →
      (s.queue.chunks e).readCount = CHUNK_SIZE ∧ (s.queue.chunks e).refCount = 0 ∧
        ∃ n, (s.queue.chunks e).next = some n ∧ s.queue.chain[j + 1]? = some n := by
    intro j e _ hjk hj
    rcases Nat.lt_or_ge j k with lt | ge
    · refine ⟨(inv.full_iff hj).mpr fun x hx => counted x ?_, unused e, ?_⟩
      · have below : x < k * CHUNK_SIZE := (Nat.div_lt_iff_lt_mul CHUNK_SIZE_pos).mp (hx ▸ lt)
        exact below.trans (inv.countedRange _ begun).1
      · obtain ⟨n, hn⟩ := Option.ne_none_iff_exists'.mp (joined j k e hj hk lt)
        exact ⟨n, hn, inv.links j e n hj hn⟩
    · have same : j = k := by omega
      subst same
      cases hj.symm.trans hk
      obtain ⟨n, hn⟩ := Option.ne_none_iff_exists'.mp next
      exact ⟨read, unused c, n, hn, inv.links j c n hj hn⟩
  obtain ⟨s', ⟨n, run⟩, retired⟩ := solo_retires s.threads t left hi
    (by rw [Nat.add_sub_cancel' after, hk]) ends
  refine ⟨n, s', ?_, retired⟩
  simpa [Machine.run, mpmcMachine, idle] using run

end

end Xuanqiong
