import Xuanqiong.Util.MpmcReclaim

/-! One thread at work while the others stand still. If no unfinished call has changed the queue,
a `push` or a `pop` runs to its end without waiting, and its accesses amount to one update. -/
namespace Xuanqiong

namespace MPMCQueue

variable {T : Type} {q q' : MPMCQueue T} {p p' : MpmcPoint T}

theorem runOn_add {m n : Nat} (q : MPMCQueue T) (p : MpmcPoint T) :
    q.runOn p (m + n) = (q.runOn p m).bind fun r => r.1.runOn r.2 n := by
  induction m generalizing q p with
  | zero => rw [Nat.zero_add, runOn_zero, Option.bind_some]
  | succ m ih =>
    rw [Nat.add_right_comm]
    cases p <;> simp only [runOn, Option.bind_assoc, ih, Option.bind_none]

theorem runOn_keeps {n : Nat} (inv : q.Inv) (hr : q.runOn p n = some (q', p')) (knows : q.Knows p) :
    q'.Inv ∧ q'.Knows p' := by
  induction n generalizing q p with
  | zero =>
    cases (runOn_zero q p).symm.trans hr
    exact ⟨inv, knows⟩
  | succ n ih =>
    obtain ⟨_, r, pr, hadv, hrest⟩ := runOn_succ hr
    have keeps := advance_keeps inv knows hadv
    exact ih keeps.inv hrest keeps.knows

def claim (q : MPMCQueue T) (v : T) : MPMCQueue T :=
  { q with tailIndex := q.tailIndex + 1, tailClaims := q.tailClaims ++ [(q.tailIndex, v)] }

def extend (q : MPMCQueue T) : MPMCQueue T :=
  ({ q.alloc (Chunk.init ((q.chunks q.tailChunk).beginIndex + CHUNK_SIZE)) with
    tailChunk := q.fresh, chain := q.chain ++ [q.fresh] } : MPMCQueue T).setChunk q.tailChunk
      { q.chunks q.tailChunk with next := some q.fresh }

def store (q : MPMCQueue T) (c : Nat) (v : T) : MPMCQueue T :=
  (q.claim v).setSlot c (q.tailIndex % CHUNK_SIZE) ⟨some v, true⟩

def take (q : MPMCQueue T) : MPMCQueue T :=
  let chunk := q.chunks q.headChunk
  let slot := chunk.slots (q.headIndex % CHUNK_SIZE)
  { q.setChunk q.headChunk { chunk with
      slots := Function.update chunk.slots (q.headIndex % CHUNK_SIZE) { slot with value := none },
      readCount := chunk.readCount + 1 } with
    headIndex := q.headIndex + 1, headClaims := q.headClaims ++ [q.headIndex],
    counted := q.counted ++ [q.headIndex], returned := q.returned ++ [(q.headIndex, slot.value)] }

theorem write_slot (q : MPMCQueue T) (v : T) (c x : Nat) :
    q.runOn (.findSlot (.write v) c x) 3 =
      some (q.setSlot c (x - (q.chunks c).beginIndex) ⟨some v, true⟩, .idle) := by
  simp [runOn, advance, pushStep, walkStep, setSlot, setChunk]

theorem claim_fits (q : MPMCQueue T) (v : T)
    (fits : q.tailIndex < (q.chunks q.tailChunk).beginIndex + CHUNK_SIZE) :
    q.runOn (.loadTailChunk v) 4 =
      some (q.claim v, .findSlot (.write v) q.tailChunk q.tailIndex) := by
  simp only [runOn, advance, pushStep, Option.some_or, Option.bind_some, if_true, ge_iff_le,
    if_neg (Nat.not_le.mpr fits)]
  rfl

theorem claim_extends (q : MPMCQueue T) (v : T) (old : q.tailChunk ≠ q.fresh)
    (full : q.tailIndex = (q.chunks q.tailChunk).beginIndex + CHUNK_SIZE) :
    q.runOn (.loadTailChunk v) 11 =
      some (q.extend.claim v, .findSlot (.write v) q.fresh q.tailIndex) := by
  have lt : ¬ q.tailIndex + CHUNK_SIZE ≤ q.tailIndex := by have := CHUNK_SIZE_pos; omega
  simp only [runOn, advance, pushStep, walkStep, Option.some_or, Option.none_or,
    Option.bind_some, if_true, ge_iff_le, ← full, Nat.le_refl, alloc, setChunk,
    Function.update_self, Function.update_of_ne old, Function.update_of_ne old.symm, Chunk.init,
    if_neg lt]
  simp [claim, extend, alloc, setChunk, Chunk.init, full]

theorem pop_finds_empty (q : MPMCQueue T) (empty : q.headIndex = q.tailIndex) :
    q.runOn .loadHeadChunk 3 =
      some ({ q with empties := q.empties ++ [(q.headIndex, q.tailIndex)] }, .idle) := by
  simp only [runOn, advance, pushStep, walkStep, popStep, Option.none_or, Option.bind_some,
    empty, if_true]

theorem pop_takes (q : MPMCQueue T) (some_left : q.headIndex ≠ q.tailIndex)
    (unread : (q.chunks q.headChunk).readCount ≠ CHUNK_SIZE)
    (inside : ¬ (q.chunks q.headChunk).beginIndex + CHUNK_SIZE ≤ q.headIndex)
    (offset : q.headIndex - (q.chunks q.headChunk).beginIndex = q.headIndex % CHUNK_SIZE)
    (ready : ((q.chunks q.headChunk).slots (q.headIndex % CHUNK_SIZE)).ready = true) :
    q.runOn .loadHeadChunk 12 = some (q.take, .idle) := by
  simp only [runOn, advance, pushStep, walkStep, popStep, Option.none_or, Option.some_or,
    Option.bind_some, if_neg some_left, if_neg unread, if_true, addRef, setChunk,
    Function.update_self, if_neg inside, ne_eq, not_true_eq_false, if_false, offset, ready]
  simp only [take, dropRef, giveBack, countRead, setSlot, setChunk, Function.update_self,
    Function.update_idem, ready, BitVec.add_sub_cancel]

theorem pop_retires (q : MPMCQueue T) {n : Nat} (some_left : q.headIndex ≠ q.tailIndex)
    (read : (q.chunks q.headChunk).readCount = CHUNK_SIZE)
    (unused : (q.chunks q.headChunk).refCount = 0) (next : (q.chunks q.headChunk).next = some n) :
    q.runOn .loadHeadChunk 8 = some ({ q with headChunk := n }, .deleteHead q.headChunk) := by
  simp only [runOn, advance, pushStep, walkStep, popStep, Option.none_or, Option.bind_some,
    if_neg some_left, read, unused, next, if_true]

/-- Between calls: `h` is the place of `head_chunk_` in the chain. -/
structure Quiet (q : MPMCQueue T) (h : Nat) : Prop where
  head : q.chain[h]? = some q.headChunk
  linked : ∀ k c n, q.chain[k]? = some c → q.chain[k + 1]? = some n → (q.chunks c).next = some n
  refs : ∀ c ∈ q.chain, (q.chunks c).refCount = 0
  ready : ∀ x, q.headIndex ≤ x → x < q.tailIndex → (q.slotAt x).ready = true
  counted : ∀ x, x < q.headIndex → x ∈ q.counted

theorem extend_chunks (inv : q.Inv) {c : Nat} (hc : c ∈ q.chain) :
    q.extend.chunks c =
      if c = q.tailChunk then { q.chunks q.tailChunk with next := some q.fresh }
      else q.chunks c := by
  have old : c ≠ q.fresh := ne_of_mem_of_not_mem hc inv.fresh_out
  by_cases ht : c = q.tailChunk
  · subst c
    simp [extend, setChunk]
  · simp [extend, setChunk, alloc, ht, Function.update_of_ne old]

theorem extend_fresh (inv : q.Inv) :
    q.extend.chunks q.fresh = Chunk.init ((q.chunks q.tailChunk).beginIndex + CHUNK_SIZE) := by
  have new : q.fresh ≠ q.tailChunk := (ne_of_mem_of_not_mem inv.before_tail.mem inv.fresh_out).symm
  simp [extend, setChunk, alloc, Function.update_of_ne new]

theorem Quiet.extend (inv : q.Inv) {h : Nat} (quiet : q.Quiet h) : q.extend.Quiet h := by
  obtain ⟨last, hlast, hlen, _⟩ := inv.tail
  have chain : q.extend.chain = q.chain ++ [q.fresh] := rfl
  have field : ∀ {β : Type} (f : Chunk T → β) c, c ∈ q.chain →
      (∀ n, f { q.chunks q.tailChunk with next := n } = f (q.chunks q.tailChunk)) →
      f (q.extend.chunks c) = f (q.chunks c) := by
    intro β f c hc same
    rw [extend_chunks inv hc]
    split
    · rename_i ht
      rw [same, ht]
    · rfl
  constructor
  · rw [chain, List.getElem?_append_left (List.getElem?_eq_some_iff.mp quiet.head).1]
    exact quiet.head
  · intro k c n hk hn
    rw [chain] at hk hn
    have lt := (List.getElem?_eq_some_iff.mp hn).1
    simp only [List.length_append, List.length_singleton] at lt
    rw [List.getElem?_append_left (by omega)] at hk
    rw [extend_chunks inv (List.mem_of_getElem? hk)]
    rcases Nat.lt_or_ge (k + 1) q.chain.length with inner | outer
    · rw [List.getElem?_append_left inner] at hn
      rw [if_neg, quiet.linked k c n hk hn]
      rintro rfl
      have := inv.chain_inj hk hlast
      omega
    · have hkl : k = last := by omega
      subst k
      have : last + 1 = q.chain.length := hlen
      rw [this, List.getElem?_concat_length] at hn
      rw [hlast] at hk
      cases hk
      cases hn
      rw [if_pos rfl]
  · intro c hc
    rcases List.mem_append.mp (chain ▸ hc) with hc | hc
    · rw [field Chunk.refCount c hc (fun _ => rfl)]
      exact quiet.refs c hc
    · rw [List.mem_singleton.mp hc, extend_fresh inv]
      rfl
  · intro x le lt
    have hr := quiet.ready x le lt
    unfold slotAt at hr ⊢
    split at hr
    · rename_i c hc
      rw [chain, List.getElem?_append_left (List.getElem?_eq_some_iff.mp hc).1, hc]
      simp only [field Chunk.slots c (List.mem_of_getElem? hc) (fun _ => rfl)]
      exact hr
    · cases hr
  · exact quiet.counted

theorem Quiet.store {v : T} {c h : Nat} (inv : (q.claim v).Inv) (holds : q.Holds c q.tailIndex)
    (quiet : q.Quiet h) : (q.store c v).Quiet h where
  head := quiet.head
  linked := by
    intro k d n hk hn
    rw [MPMCQueue.store, setSlot, setChunk_field Chunk.next (by rfl)]
    exact quiet.linked k d n hk hn
  refs := by
    intro d hd
    rw [MPMCQueue.store, setSlot, setChunk_field Chunk.refCount (by rfl)]
    exact quiet.refs d hd
  ready := by
    intro x le lt
    rw [MPMCQueue.store, inv.slotAt_setSlot holds]
    split
    · rfl
    · rename_i hx
      exact quiet.ready x le (Nat.lt_of_le_of_ne (Nat.le_of_lt_succ lt) hx)
  counted := quiet.counted

theorem take_field {β : Type} (f : Chunk T → β)
    (same : ∀ chunk slots count, f { chunk with slots := slots, readCount := count } = f chunk)
    (d : Nat) :
    f (q.take.chunks d) = f (q.chunks d) := by
  by_cases hd : d = q.headChunk
  · subst d
    simp [take, setChunk, same]
  · simp [take, setChunk, hd]

theorem slotAt_take (inv : q.Inv) (holds : q.Holds q.headChunk q.headIndex) {x : Nat}
    (hx : x ≠ q.headIndex) : q.take.slotAt x = q.slotAt x := by
  have hs := inv.slotAt_setSlot holds { (q.slotAt q.headIndex) with value := none } x
  rw [if_neg hx] at hs
  refine Eq.trans (slotAt_eq (by rfl) (fun c hc => ?_) x) hs
  by_cases hd : c = q.headChunk
  · subst c
    simp [take, setSlot, setChunk, holds.slots]
  · simp [take, setSlot, setChunk, hd]

theorem Quiet.take {h : Nat} (inv : q.Inv) (holds : q.Holds q.headChunk q.headIndex)
    (quiet : q.Quiet h) : q.take.Quiet h where
  head := quiet.head
  linked := by
    intro k d n hk hn
    rw [take_field Chunk.next (fun _ _ _ => rfl)]
    exact quiet.linked k d n hk hn
  refs := by
    intro d hd
    rw [take_field Chunk.refCount (fun _ _ _ => rfl)]
    exact quiet.refs d hd
  ready := by
    intro x le lt
    rw [slotAt_take inv holds (Nat.ne_of_gt le)]
    exact quiet.ready x (Nat.le_of_succ_le le) lt
  counted := by
    intro x hx
    rcases Nat.lt_succ_iff_lt_or_eq.mp hx with lt | rfl
    · exact List.mem_append_left _ (quiet.counted x lt)
    · exact List.mem_append_right _ List.mem_cons_self

/-- A queue that no unfinished call has changed. -/
structure Alone (q : MPMCQueue T) (h : Nat) : Prop where
  inv : q.Inv
  quiet : q.Quiet h
  covers : q.chain.length = (q.tailIndex - 1) / CHUNK_SIZE + 1

theorem init_alone : (init : MPMCQueue T).Alone 0 where
  inv := init_inv
  quiet :=
    { head := rfl
      linked := by
        intro k c n _ hn
        simp [init] at hn
      refs := fun _ _ => rfl
      ready := fun x _ lt => absurd lt (Nat.not_lt_zero x)
      counted := fun x lt => absurd lt (Nat.not_lt_zero x) }
  covers := by simp [init]

def pushed (q : MPMCQueue T) (v : T) : MPMCQueue T :=
  if q.tailIndex < (q.chunks q.tailChunk).beginIndex + CHUNK_SIZE then q.store q.tailChunk v
  else q.extend.store q.fresh v

theorem Alone.fits {h : Nat} (alone : q.Alone h) (v : T)
    (fits : q.tailIndex < (q.chunks q.tailChunk).beginIndex + CHUNK_SIZE) :
    q.runOn (.loadTailChunk v) 7 = some (q.store q.tailChunk v, .idle) ∧
      (q.store q.tailChunk v).Alone h := by
  obtain ⟨inv, quiet, covers⟩ := alone
  have holds := inv.holds_of_lt inv.before_tail (Nat.not_le.mpr fits)
  have run : q.runOn (.loadTailChunk v) (4 + 3) = some (q.store q.tailChunk v, .idle) := by
    rw [runOn_add, claim_fits q v fits, Option.bind_some, write_slot, store, ← inv.offset holds]
    rfl
  refine ⟨run, (runOn_keeps inv run trivial).1, quiet.store (inv.claimTail v) holds, ?_⟩
  obtain ⟨last, hlast, hlen, _⟩ := inv.tail
  show q.chain.length = q.tailIndex / CHUNK_SIZE + 1
  rw [inv.chain_inj holds hlast, hlen]

theorem Alone.extends {h : Nat} (alone : q.Alone h) (v : T)
    (full : ¬ q.tailIndex < (q.chunks q.tailChunk).beginIndex + CHUNK_SIZE) :
    q.runOn (.loadTailChunk v) 14 = some (q.extend.store q.fresh v, .idle) ∧
      (q.extend.store q.fresh v).Alone h := by
  obtain ⟨inv, quiet, covers⟩ := alone
  obtain ⟨last, hlast, hlen, le⟩ := inv.tail
  have hbegin := inv.begins last _ hlast
  have htail : q.tailIndex = (last + 1) * CHUNK_SIZE := by
    rw [hbegin] at full
    unfold CHUNK_SIZE at *
    omega
  have hdiv : q.tailIndex / CHUNK_SIZE = q.chain.length := by
    rw [htail, Nat.mul_div_cancel _ CHUNK_SIZE_pos, hlen]
  have hmod : q.tailIndex % CHUNK_SIZE = 0 := by rw [htail, Nat.mul_mod_left]
  have hend : q.tailIndex = (q.chunks q.tailChunk).beginIndex + CHUNK_SIZE := by
    rw [hbegin, htail, Nat.succ_mul]
  have old : q.tailChunk ≠ q.fresh := ne_of_mem_of_not_mem inv.before_tail.mem inv.fresh_out
  have claims := claim_extends q v old hend
  have offset : q.tailIndex - ((q.extend.claim v).chunks q.fresh).beginIndex = 0 := by
    show q.tailIndex - (q.extend.chunks q.fresh).beginIndex = 0
    rw [extend_fresh inv, ← hend]
    exact Nat.sub_self _
  have run : q.runOn (.loadTailChunk v) (11 + 3) = some (q.extend.store q.fresh v, .idle) := by
    rw [runOn_add, claims, Option.bind_some, write_slot, offset, store, ← hmod]
    rfl
  have holds : q.extend.Holds q.fresh q.tailIndex := by
    show (q.chain ++ [q.fresh])[q.tailIndex / CHUNK_SIZE]? = some q.fresh
    rw [hdiv, List.getElem?_concat_length]
  refine ⟨run, (runOn_keeps inv run trivial).1,
    (quiet.extend inv).store (runOn_keeps inv claims trivial).1 holds, ?_⟩
  show (q.chain ++ [q.fresh]).length = q.tailIndex / CHUNK_SIZE + 1
  rw [hdiv, List.length_append, List.length_singleton]

theorem Alone.push {h : Nat} (alone : q.Alone h) (v : T) :
    (∃ n, q.runOn (.loadTailChunk v) n = some (q.pushed v, .idle)) ∧ (q.pushed v).Alone h := by
  unfold pushed
  split
  · rename_i fits
    exact ⟨⟨7, (alone.fits v fits).1⟩, (alone.fits v fits).2⟩
  · rename_i full
    exact ⟨⟨14, (alone.extends v full).1⟩, (alone.extends v full).2⟩

theorem Alone.finds_empty {h : Nat} (alone : q.Alone h) (empty : q.headIndex = q.tailIndex) :
    ({ q with empties := q.empties ++ [(q.headIndex, q.tailIndex)] } : MPMCQueue T).Alone h where
  inv := (runOn_keeps alone.inv (pop_finds_empty q empty) trivial).1
  quiet :=
    ⟨alone.quiet.head, alone.quiet.linked, alone.quiet.refs, alone.quiet.ready, alone.quiet.counted⟩
  covers := alone.covers

theorem Alone.holds {h : Nat} (alone : q.Alone h) (inside : q.headIndex < (h + 1) * CHUNK_SIZE) :
    q.Holds q.headChunk q.headIndex := by
  refine alone.inv.holds_of_lt alone.inv.head ?_
  rw [alone.inv.begins h _ alone.quiet.head, ← Nat.succ_mul]
  exact Nat.not_le.mpr inside

theorem Alone.takes {h : Nat} (alone : q.Alone h) (left : q.headIndex < q.tailIndex)
    (inside : q.headIndex < (h + 1) * CHUNK_SIZE) :
    q.runOn .loadHeadChunk 12 = some (q.take, .idle) ∧ q.take.Alone h := by
  have holds := alone.holds inside
  have hbegin := alone.inv.begins h _ alone.quiet.head
  have run : q.runOn .loadHeadChunk 12 = some (q.take, .idle) := by
    apply pop_takes q (Nat.ne_of_lt left) ?_ ?_ (alone.inv.offset holds)
    · rw [holds.slots]
      exact alone.quiet.ready _ (Nat.le_refl _) left
    · intro full
      obtain ⟨k, hk, le⟩ := alone.inv.past_of_full alone.inv.head full
      rw [alone.inv.chain_inj hk alone.quiet.head] at le
      exact Nat.not_lt.mpr le inside
    · rw [hbegin, ← Nat.succ_mul]
      exact Nat.not_le.mpr inside
  exact ⟨run, (runOn_keeps alone.inv run trivial).1, alone.quiet.take alone.inv holds, alone.covers⟩

theorem Alone.retires {h : Nat} (alone : q.Alone h) (left : q.headIndex < q.tailIndex)
    (outside : (h + 1) * CHUNK_SIZE ≤ q.headIndex) :
    ∃ n, q.runOn .loadHeadChunk 8 = some ({ q with headChunk := n }, .deleteHead q.headChunk) ∧
      ({ q with headChunk := n } : MPMCQueue T).Alone (h + 1) := by
  obtain ⟨inv, quiet, covers⟩ := alone
  have lt : h + 1 < q.chain.length := by
    rw [covers]
    unfold CHUNK_SIZE at *
    omega
  have hnext := List.getElem?_eq_getElem lt
  have read : (q.chunks q.headChunk).readCount = CHUNK_SIZE := by
    rw [inv.full_iff quiet.head]
    intro x hx
    apply quiet.counted
    have := Nat.lt_mul_div_succ x CHUNK_SIZE_pos
    rw [hx, Nat.mul_comm] at this
    omega
  have run :=
    pop_retires q (Nat.ne_of_lt left) read (quiet.refs _ (List.mem_of_getElem? quiet.head))
    (quiet.linked h _ _ quiet.head hnext)
  refine ⟨_, run, (runOn_keeps inv run trivial).1, ?_, covers⟩
  exact ⟨hnext, quiet.linked, quiet.refs, quiet.ready, quiet.counted⟩

theorem Alone.returned_take {h : Nat} (alone : q.Alone h) (left : q.headIndex < q.tailIndex)
    (inside : q.headIndex < (h + 1) * CHUNK_SIZE) :
    ∃ u, q.Claimed q.headIndex u ∧ q.take.returned = q.returned ++ [(q.headIndex, some u)] := by
  have ready := alone.quiet.ready _ (Nat.le_refl _) left
  obtain ⟨u, claimed, value⟩ := alone.inv.pending _ (Nat.le_refl _) ready
  refine ⟨u, claimed, ?_⟩
  rw [← value, ← (alone.holds inside).slots]
  rfl

theorem pushed_headIndex (q : MPMCQueue T) (v : T) : (q.pushed v).headIndex = q.headIndex := by
  unfold pushed; split <;> rfl

theorem pushed_tailIndex (q : MPMCQueue T) (v : T) : (q.pushed v).tailIndex = q.tailIndex + 1 := by
  unfold pushed; split <;> rfl

theorem pushed_tailClaims (q : MPMCQueue T) (v : T) :
    (q.pushed v).tailClaims = q.tailClaims ++ [(q.tailIndex, v)] := by
  unfold pushed; split <;> rfl

theorem pushed_deleted (q : MPMCQueue T) (v : T) :
    (q.pushed v).retired = q.retired ∧ (q.pushed v).discarded = q.discarded := by
  unfold pushed; split <;> exact ⟨rfl, rfl⟩

theorem pushed_chain (q : MPMCQueue T) (v : T) :
    (q.pushed v).chain = q.chain ∧ (q.pushed v).fresh = q.fresh ∨
      (q.pushed v).chain = q.chain ++ [q.fresh] ∧ (q.pushed v).fresh = q.fresh + 1 := by
  unfold pushed
  split
  · exact Or.inl ⟨rfl, rfl⟩
  · exact Or.inr ⟨rfl, rfl⟩

end MPMCQueue

section

variable {ι T : Type} [DecidableEq ι] {threads : ι → MpmcPoint T} {t : ι}

/- `t` makes some accesses while the other threads make none. -/
def Solo (t : ι) (s s' : MpmcRun ι T) : Prop :=
  ∃ n, (mpmcMachine ι T).run s (List.replicate n (.advance t)) = some s'

theorem Solo.trans {s s' s'' : MpmcRun ι T} (h : Solo t s s') (h' : Solo t s' s'') :
    Solo t s s'' := by
  obtain ⟨m, hm⟩ := h
  obtain ⟨n, hn⟩ := h'
  exact ⟨m + n, by rw [List.replicate_add, Machine.run_append, hm, Option.bind_some, hn]⟩

theorem Solo.one {s s' : MpmcRun ι T} (h : (mpmcMachine ι T).step s (.advance t) = some s') :
    Solo t s s' := ⟨1, by simp [Machine.run, h]⟩

theorem Solo.reach {s s' : MpmcRun ι T} (h : (mpmcMachine ι T).Reach s) (solo : Solo t s s') :
    (mpmcMachine ι T).Reach s' := by
  obtain ⟨n, hn⟩ := solo
  exact Machine.reach_run h hn

theorem idle_stops {s : MpmcRun ι T} (idle : s.threads t = .idle) :
    (mpmcMachine ι T).step s (.advance t) = none := by
  simp [mpmcMachine, idle, MPMCQueue.advance, MPMCQueue.pushStep, MPMCQueue.walkStep,
    MPMCQueue.popStep]

theorem Solo.cases {s s' : MpmcRun ι T} (solo : Solo t s s') :
    s' = s ∨ ∃ r, (mpmcMachine ι T).step s (.advance t) = some r ∧ Solo t r s' := by
  obtain ⟨n, hn⟩ := solo
  cases n with
  | zero => exact Or.inl (Option.some.inj hn).symm
  | succ n =>
    obtain ⟨r, hr, hrest⟩ := Option.bind_eq_some_iff.mp hn
    exact Or.inr ⟨r, hr, n, hrest⟩

theorem Solo.of_idle {s s' : MpmcRun ι T} (solo : Solo t s s') (idle : s.threads t = .idle) :
    s' = s := by
  rcases solo.cases with same | ⟨r, hr, _⟩
  · exact same
  · rw [idle_stops idle] at hr
    cases hr

theorem Solo.unique {s a b : MpmcRun ι T} (ha : Solo t s a) (hb : Solo t s b)
    (idleA : a.threads t = .idle) (idleB : b.threads t = .idle) : a = b := by
  obtain ⟨n, hn⟩ := ha
  induction n generalizing s with
  | zero =>
    cases Option.some.inj hn
    exact (hb.of_idle idleA).symm
  | succ n ih =>
    obtain ⟨r, hr, hrest⟩ := Option.bind_eq_some_iff.mp hn
    rcases hb.cases with rfl | ⟨r', hr', hb'⟩
    · rw [idle_stops idleB] at hr
      cases hr
    · cases hr.symm.trans hr'
      exact ih hb' hrest

theorem solo_runOn {q q' : MPMCQueue T} {p p' : MpmcPoint T} {n : Nat}
    (hr : q.runOn p n = some (q', p')) :
    Solo t ⟨q, Function.update threads t p⟩ ⟨q', Function.update threads t p'⟩ := by
  induction n generalizing q p with
  | zero =>
    cases (MPMCQueue.runOn_zero q p).symm.trans hr
    exact ⟨0, rfl⟩
  | succ n ih =>
    obtain ⟨_, r, pr, hadv, hrest⟩ := MPMCQueue.runOn_succ hr
    exact Solo.trans (.one (by simp [mpmcMachine, hadv])) (ih hrest)

theorem reach_pushes {q : MPMCQueue T} {h : Nat} (alone : q.Alone h) (v : T)
    (reached : (mpmcMachine ι T).Reach ⟨q, Function.update threads t .idle⟩) (m : Nat) :
    ∃ q' : MPMCQueue T, q'.Alone h ∧ q'.tailIndex = q.tailIndex + m ∧ q'.headIndex = q.headIndex ∧
      q.chain <+: q'.chain ∧ q'.retired = q.retired ∧
      (mpmcMachine ι T).Reach ⟨q', Function.update threads t .idle⟩ := by
  induction m with
  | zero => exact ⟨q, alone, rfl, rfl, List.prefix_refl _, rfl, reached⟩
  | succ m ih =>
    obtain ⟨r, aloneR, tail, head, chain, retired, reachedR⟩ := ih
    obtain ⟨⟨n, run⟩, after⟩ := aloneR.push v
    refine ⟨r.pushed v, after, ?_, ?_, ?_, ?_, ?_⟩
    · rw [MPMCQueue.pushed_tailIndex, tail, Nat.add_assoc]
    · rw [MPMCQueue.pushed_headIndex, head]
    · rcases r.pushed_chain v with ⟨same, _⟩ | ⟨longer, _⟩
      · rw [same]
        exact chain
      · rw [longer]
        exact chain.trans (List.prefix_append _ _)
    · rw [(r.pushed_deleted v).1, retired]
    · refine Solo.reach ?_ (solo_runOn run)
      exact reachedR.step (a := .push t v) (by simp [mpmcMachine])

theorem reach_takes {q : MPMCQueue T} {h : Nat} (alone : q.Alone h)
    (reached : (mpmcMachine ι T).Reach ⟨q, Function.update threads t .idle⟩) (m : Nat)
    (left : q.headIndex + m ≤ q.tailIndex) (inside : q.headIndex + m ≤ (h + 1) * CHUNK_SIZE) :
    ∃ q' : MPMCQueue T, q'.Alone h ∧ q'.headIndex = q.headIndex + m ∧ q'.tailIndex = q.tailIndex ∧
      q'.chain = q.chain ∧ q'.retired = q.retired ∧
      (mpmcMachine ι T).Reach ⟨q', Function.update threads t .idle⟩ := by
  induction m with
  | zero => exact ⟨q, alone, rfl, rfl, rfl, rfl, reached⟩
  | succ m ih =>
    obtain ⟨r, aloneR, head, tail, chain, retired, reachedR⟩ :=
      ih (Nat.le_of_succ_le left) (Nat.le_of_succ_le inside)
    obtain ⟨run, after⟩ := aloneR.takes (by omega) (by omega)
    refine ⟨r.take, after, by rw [← Nat.add_assoc, ← head]; rfl, tail, chain, retired, ?_⟩
    refine Solo.reach ?_ (solo_runOn run)
    exact reachedR.step (a := .pop t) (by simp [mpmcMachine])

end

end Xuanqiong
