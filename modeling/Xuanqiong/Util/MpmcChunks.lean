import Xuanqiong.Util.MpmcReclaim

/-! The life of a chunk: made by a `push`, put into the chain or thrown away, linked to the chunk
before it, left behind by `head_chunk_` and deleted. -/
namespace Xuanqiong

namespace MpmcPoint

variable {T : Type}

/- The `next` pointer a thread is about to set, and its new value. -/
def links : MpmcPoint T → Option (Nat × Nat)
  | .linkChunk _ tc nc _ => some (tc, nc)
  | _ => none

theorem links_eq {p : MpmcPoint T} {c n : Nat} (h : p.links = some (c, n)) :
    ∃ v x, p = .linkChunk v c n x := by
  cases p <;> simp only [links, Option.some.injEq, Prod.mk.injEq, reduceCtorEq] at h
  obtain ⟨rfl, rfl⟩ := h
  exact ⟨_, _, rfl⟩

def deletes : MpmcPoint T → Option Nat
  | .deleteHead hc => some hc
  | _ => none

theorem deletes_eq {p : MpmcPoint T} {c : Nat} : p.deletes = some c ↔ p = .deleteHead c := by
  cases p <;> simp [deletes]

def Plain (p : MpmcPoint T) : Prop := p.makes = none ∧ p.links = none ∧ p.deletes = none

end MpmcPoint

namespace MPMCQueue

variable {T : Type} {q q' : MPMCQueue T} {p p' : MpmcPoint T}

structure SameChain (q q' : MPMCQueue T) : Prop where
  fresh : q'.fresh = q.fresh
  headChunk : q'.headChunk = q.headChunk
  chain : q'.chain = q.chain
  retired : q'.retired = q.retired
  discarded : q'.discarded = q.discarded
  next : ∀ c, (q'.chunks c).next = (q.chunks c).next

theorem SameChain.refl (q : MPMCQueue T) : SameChain q q := ⟨rfl, rfl, rfl, rfl, rfl, fun _ => rfl⟩

theorem SameChain.setChunk {c : Nat} {chunk : Chunk T} (next : chunk.next = (q.chunks c).next) :
    SameChain q (q.setChunk c chunk) := ⟨rfl, rfl, rfl, rfl, rfl, setChunk_field Chunk.next next⟩

/-- What an access does to the chunks, their counters and slots apart. -/
inductive ChainStep (q : MPMCQueue T) : MpmcPoint T → MPMCQueue T → MpmcPoint T → Prop where
  | keep {p p' : MpmcPoint T} {q' : MPMCQueue T} (same : SameChain q q') (before : p.Plain)
      (after : p'.Plain) : ChainStep q p q' p'
  | make (v : T) (tc wi : Nat) : ChainStep q (.newChunk v tc wi)
      (q.alloc (Chunk.init ((q.chunks tc).beginIndex + CHUNK_SIZE))) (.installChunk v tc q.fresh wi)
  | install (v : T) (nc wi : Nat) : ChainStep q (.installChunk v q.tailChunk nc wi)
      { q with tailChunk := nc, chain := q.chain ++ [nc] } (.linkChunk v q.tailChunk nc wi)
  | lose (v : T) (tc nc wi : Nat) : ChainStep q (.installChunk v tc nc wi) q
      (.deleteNext v tc nc wi)
  | link (v : T) (tc nc wi : Nat) : ChainStep q (.linkChunk v tc nc wi)
      (q.setChunk tc { q.chunks tc with next := some nc }) (.walk (.write v) tc wi)
  | discard (v : T) (tc nc wi : Nat) : ChainStep q (.deleteNext v tc nc wi)
      { q with discarded := q.discarded ++ [nc] } (.walk (.write v) tc wi)
  | leave (n : Nat) : ChainStep q (.moveHead q.headChunk n) { q with headChunk := n }
      (.deleteHead q.headChunk)
  | delete (hc : Nat) : ChainStep q (.deleteHead hc) { q with retired := q.retired ++ [hc] }
      .loadHeadChunk

theorem pushStep_chain (h : q.pushStep p = some (q', p')) : ChainStep q p q' p' := by
  cases p <;> simp only [pushStep, reduceCtorEq] at h
  case newChunk v tc wi =>
    cases h
    exact .make v tc wi
  case installChunk v tc nc wi =>
    split at h
    · rename_i last
      subst last
      cases h
      exact .install v nc wi
    · cases h
      exact .lose v tc nc wi
  case linkChunk v tc nc wi =>
    cases h
    exact .link v tc nc wi
  case deleteNext v tc nc wi =>
    cases h
    exact .discard v tc nc wi
  case writeValue | writeReady =>
    cases h
    exact .keep (.setChunk rfl) ⟨rfl, rfl, rfl⟩ ⟨rfl, rfl, rfl⟩
  case claimTail =>
    split at h <;> cases h
    · exact .keep ⟨rfl, rfl, rfl, rfl, rfl, fun _ => rfl⟩ ⟨rfl, rfl, rfl⟩ ⟨rfl, rfl, rfl⟩
    · exact .keep (.refl q) ⟨rfl, rfl, rfl⟩ ⟨rfl, rfl, rfl⟩
  all_goals (try split at h) <;> cases h <;> exact .keep (.refl q) ⟨rfl, rfl, rfl⟩ ⟨rfl, rfl, rfl⟩

theorem walkStep_chain (h : q.walkStep p = some (q', p')) : ChainStep q p q' p' := by
  cases p <;> simp only [walkStep, reduceCtorEq] at h <;> rename_i job _ _ <;> cases job <;>
    (repeat' split at h) <;> (try contradiction) <;> cases h <;>
    exact .keep (.refl q) ⟨rfl, rfl, rfl⟩ ⟨rfl, rfl, rfl⟩

theorem popStep_chain (h : q.popStep p = some (q', p')) : ChainStep q p q' p' := by
  cases p <;> simp only [popStep, reduceCtorEq] at h
  case moveHead hc n =>
    split at h
    · rename_i still
      subst still
      cases h
      exact .leave n
    · cases h
      exact .keep (.refl q) ⟨rfl, rfl, rfl⟩ ⟨rfl, rfl, rfl⟩
  case deleteHead hc =>
    cases h
    exact .delete hc
  case addRef | dropRef | moveValue =>
    cases h
    exact .keep (.setChunk rfl) ⟨rfl, rfl, rfl⟩ ⟨rfl, rfl, rfl⟩
  case countRead hc rc x v =>
    have same : SameChain q (q.setChunk rc { q.chunks rc with
        readCount := (q.chunks rc).readCount + 1 }) := .setChunk rfl
    split at h <;> cases h <;>
      exact .keep ⟨rfl, rfl, rfl, rfl, rfl, same.next⟩ ⟨rfl, rfl, rfl⟩ ⟨rfl, rfl, rfl⟩
  case dropLastRef hc x v =>
    have same : SameChain q (q.dropRef hc) := .setChunk rfl
    cases h
    exact .keep ⟨rfl, rfl, rfl, rfl, rfl, same.next⟩ ⟨rfl, rfl, rfl⟩ ⟨rfl, rfl, rfl⟩
  all_goals
    (try split at h) <;> cases h <;>
      exact .keep ⟨rfl, rfl, rfl, rfl, rfl, fun _ => rfl⟩ ⟨rfl, rfl, rfl⟩ ⟨rfl, rfl, rfl⟩

theorem advance_chain (h : q.advance p = some (q', p')) : ChainStep q p q' p' := by
  rcases advance_cases h with h | h | h
  · exact pushStep_chain h
  · exact walkStep_chain h
  · exact popStep_chain h

end MPMCQueue

section

variable {ι T : Type} [DecidableEq ι]

theorem mpmc_chain {s s' : MpmcRun ι T} {op : MpmcOp ι T}
    (hs : (mpmcMachine ι T).step s op = some s') :
    ∃ t q' p', s' = ⟨q', Function.update s.threads t p'⟩ ∧
      MPMCQueue.ChainStep s.queue (s.threads t) q' p' := by
  cases op with
  | push t v | pop t =>
    simp only [mpmcMachine] at hs
    split at hs
    · rename_i idle
      cases hs
      exact ⟨t, _, _, rfl, .keep (.refl _) (by rw [idle]; exact ⟨rfl, rfl, rfl⟩) ⟨rfl, rfl, rfl⟩⟩
    · cases hs
  | advance t =>
    obtain ⟨⟨q', p'⟩, run, rfl⟩ := Option.map_eq_some_iff.mp hs
    exact ⟨t, q', p', rfl, MPMCQueue.advance_chain run⟩
  | failWeak t =>
    obtain ⟨p', fails, rfl⟩ := Option.map_eq_some_iff.mp hs
    refine ⟨t, _, _, rfl, .keep (.refl _) ?_ ?_⟩ <;> revert fails <;>
      cases s.threads t <;> simp only [MpmcPoint.failWeak, reduceCtorEq, false_implies] <;>
      rintro ⟨⟩ <;> exact ⟨rfl, rfl, rfl⟩

/- Each chunk of the chain points to the one after it, or a thread is about to make it so. -/
def MpmcRun.Chained (s : MpmcRun ι T) : Prop :=
  ∀ k c n, s.queue.chain[k]? = some c → s.queue.chain[k + 1]? = some n →
    (s.queue.chunks c).next = some n ∨ ∃ t, (s.threads t).links = some (c, n)

theorem MpmcRun.Chained.same {s : MpmcRun ι T} (h : s.Chained) {t : ι} {q' : MPMCQueue T}
    {p' : MpmcPoint T} (chain : q'.chain = s.queue.chain)
    (next : ∀ c ∈ s.queue.chain, (q'.chunks c).next = (s.queue.chunks c).next)
    (free : (s.threads t).links = none) : MpmcRun.Chained ⟨q', Function.update s.threads t p'⟩ := by
  intro k c n hk hn
  simp only [chain] at hk hn ⊢
  rw [next c (List.mem_of_getElem? hk)]
  exact (h k c n hk hn).imp_right fun pending =>
    exists_update (P := fun p => p.links = some (c, n)) (by simp [free]) pending p'

theorem MpmcRun.Chained.install {s : MpmcRun ι T} (h : s.Chained) (inv : s.queue.Inv) {t : ι}
    {nc : Nat} {p' : MpmcPoint T} (free : (s.threads t).links = none)
    (links : p'.links = some (s.queue.tailChunk, nc)) :
    MpmcRun.Chained ⟨{ s.queue with tailChunk := nc, chain := s.queue.chain ++ [nc] },
      Function.update s.threads t p'⟩ := by
  intro k c n hk hn
  obtain ⟨last, hlast, hlen, _⟩ := inv.tail
  have lt := (List.getElem?_eq_some_iff.mp hn).1
  simp only [List.length_append, List.length_singleton] at lt hk hn ⊢
  rw [List.getElem?_append_left (by omega)] at hk
  rcases Nat.lt_or_ge (k + 1) s.queue.chain.length with inner | outer
  · rw [List.getElem?_append_left inner] at hn
    exact (h k c n hk hn).imp_right fun pending =>
      exists_update (P := fun p => p.links = some (c, n)) (by simp [free]) pending p'
  · have hkl : k = last := by omega
    subst k
    rw [hlen, List.getElem?_concat_length] at hn
    cases hk.symm.trans hlast
    cases hn
    exact Or.inr ⟨t, by rw [Function.update_self]; exact links⟩

theorem MpmcRun.Chained.link {s : MpmcRun ι T} (h : s.Chained) (inv : s.queue.Inv) {t : ι}
    {j tc nc : Nat} {p' : MpmcPoint T} (links : (s.threads t).links = some (tc, nc))
    (hj : s.queue.chain[j]? = some tc) (hjn : s.queue.chain[j + 1]? = some nc) :
    MpmcRun.Chained ⟨s.queue.setChunk tc { s.queue.chunks tc with next := some nc },
      Function.update s.threads t p'⟩ := by
  intro k c n hk hn
  by_cases hc : c = tc
  · subst c
    rw [inv.chain_inj hk hj] at hn
    cases hjn.symm.trans hn
    exact Or.inl (by simp only [MPMCQueue.setChunk_self])
  · simp only [MPMCQueue.setChunk_of_ne hc]
    exact (h k c n hk hn).imp_right fun pending =>
      exists_update (P := fun p => p.links = some (c, n)) (by simp [links, Ne.symm hc]) pending p'

theorem chained_step (s : MpmcRun ι T) (op : MpmcOp ι T) (s' : MpmcRun ι T) (h : s.Inv ∧ s.Chained)
    (hs : (mpmcMachine ι T).step s op = some s') : s'.Inv ∧ s'.Chained := by
  refine ⟨mpmc_step s op s' h.1 hs, ?_⟩
  obtain ⟨inv, chained⟩ := h
  obtain ⟨t, q', p', rfl, step⟩ := mpmc_chain hs
  have knows := inv.knows t
  generalize hp : s.threads t = p at step knows
  cases step with
  | keep same before after =>
    exact chained.same same.chain (fun c _ => same.next c) (by rw [hp]; exact before.2.1)
  | make v tc wi =>
    refine chained.same rfl (fun c hc => ?_) (by rw [hp]; rfl)
    exact congrArg Chunk.next (MPMCQueue.setChunk_of_ne
      (ne_of_mem_of_not_mem hc inv.shared.fresh_out) _)
  | install v nc wi => exact chained.install inv.shared (by rw [hp]; rfl) rfl
  | link v tc nc wi =>
    obtain ⟨⟨k, hk, hn, _⟩, _⟩ := knows
    exact chained.link inv.shared (by rw [hp]; rfl) hk hn
  | lose | discard | leave | delete => exact chained.same rfl (fun _ _ => rfl) (by rw [hp]; rfl)

theorem reach_chained {s : MpmcRun ι T} (h : (mpmcMachine ι T).Reach s) : s.Chained := by
  refine (h.invariant ⟨mpmc_reach_inv .start, ?_⟩ chained_step).2
  intro k c n _ hn
  simp [mpmcMachine, MPMCQueue.init] at hn

end

end Xuanqiong
