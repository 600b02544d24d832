import Xuanqiong.Util.MpmcSteps

/-! Every access of `push` and `pop` keeps the invariant, in any interleaving; the queue is then
first in, first out, with nothing lost and nothing returned twice. -/
namespace Xuanqiong

namespace MPMCQueue

variable {T : Type} {q q' : MPMCQueue T} {p p' m : MpmcPoint T}

structure Keeps (q : MPMCQueue T) (p : MpmcPoint T) (q' : MPMCQueue T) (p' : MpmcPoint T) :
    Prop where
  inv : q'.Inv
  knows : q'.Knows p'
  frame : Frame q q' p

theorem Keeps.local (inv : q.Inv) (knows : q.Knows p') : Keeps q p q p' := ⟨inv, knows, .refl q p⟩

theorem claimTail_keeps (inv : q.Inv) {v : T} {tc : Nat} (before : q.Before tc q.tailIndex) :
    Keeps q (.claimTail v tc q.tailIndex)
      { q with tailIndex := q.tailIndex + 1, tailClaims := q.tailClaims ++ [(q.tailIndex, v)] }
      (.testTail v tc q.tailIndex) where
  inv := inv.claimTail v
  knows := by
    refine ⟨before, ?_, ?_⟩
    · simp [Claimed, ← inv.claims_length]
    · cases hr : (q.slotAt q.tailIndex).ready with
      | false => exact hr
      | true => exact absurd (inv.ready _ hr) (Nat.lt_irrefl _)
  frame := .claimTail v

theorem newChunk_keeps (inv : q.Inv) {v : T} {tc wi : Nat} (knows : q.Knows (.newChunk v tc wi)) :
    Keeps q (.newChunk v tc wi) (q.alloc (Chunk.init ((q.chunks tc).beginIndex + CHUNK_SIZE)))
      (.installChunk v tc q.fresh wi) := by
  obtain ⟨⟨k, hk, le⟩, writing⟩ := knows
  refine ⟨inv.alloc _, ⟨⟨k, hk, le, ?_⟩, ⟨Nat.lt_succ_self _, ?_, ?_⟩, ?_⟩, .alloc inv _⟩
  · rw [inv.begins k tc hk, ← Nat.succ_mul]
    exact setChunk_self _ _
  · exact fun hm => Nat.lt_irrefl _ (inv.allocated _ hm)
  · exact fun hm => Nat.lt_irrefl _ (inv.discarded _ hm).1
  · exact (Frame.alloc inv _ : Frame q _ .idle).writing writing nofun

theorem installChunk_keeps (inv : q.Inv) {v : T} {nc wi : Nat}
    (knows : q.Knows (.installChunk v q.tailChunk nc wi)) :
    Keeps q (.installChunk v q.tailChunk nc wi) { q with tailChunk := nc, chain := q.chain ++ [nc] }
      (.linkChunk v q.tailChunk nc wi) := by
  obtain ⟨⟨k, hk, le, blank⟩, hu, writing⟩ := knows
  have f : Frame q { q with tailChunk := nc, chain := q.chain ++ [nc] }
      (.installChunk v q.tailChunk nc wi) := .install rfl blank
  obtain ⟨j, hj, hlen, _⟩ := inv.tail
  cases inv.chain_inj hj hk
  refine ⟨inv.install hk le (inv.claimed_lt writing.1) hu blank,
    ⟨⟨k, f.at_chain hk, ?_, le⟩, ?_⟩, f⟩
  · rw [hlen]
    exact List.getElem?_concat_length
  · exact ⟨writing.1, by rw [slotAt_install blank]; exact writing.2⟩

theorem linkChunk_keeps (inv : q.Inv) {v : T} {tc nc wi : Nat}
    (knows : q.Knows (.linkChunk v tc nc wi)) :
    Keeps q (.linkChunk v tc nc wi) (q.setChunk tc { q.chunks tc with next := some nc })
      (.walk (.write v) tc wi) := by
  obtain ⟨⟨k, hk, hn, le⟩, writing⟩ := knows
  refine ⟨inv.link hk hn, ⟨⟨k, hk, ?_⟩, ?_⟩, .link inv hk hn⟩
  · rw [Nat.succ_mul] at le
    omega
  · exact (Frame.link inv hk hn : Frame q _ .idle).writing writing nofun

theorem Past.before {c x : Nat} (h : q.Past c x) : q.Before c x := by
  obtain ⟨k, hk, le⟩ := h
  rw [Nat.succ_mul] at le
  exact ⟨k, hk, by omega⟩

theorem Holds.slots {c x : Nat} (h : q.Holds c x) :
    (q.chunks c).slots (x % CHUNK_SIZE) = q.slotAt x := by
  unfold Holds at h
  simp only [slotAt, h]

theorem writeValue_keeps (inv : q.Inv) {v : T} {wc x : Nat}
    (knows : q.Knows (.writeValue v wc (x % CHUNK_SIZE) x)) :
    Keeps q (.writeValue v wc (x % CHUNK_SIZE) x)
      (q.setSlot wc (x % CHUNK_SIZE) { (q.chunks wc).slots (x % CHUNK_SIZE) with value := some v })
      (.writeReady wc (x % CHUNK_SIZE) x) := by
  obtain ⟨holds, _, claimed, unready⟩ := knows
  rw [holds.slots]
  have no : ¬ (q.slotAt x).ready = true := by simp [unready]
  refine ⟨inv.setSlot holds (fun yes => absurd yes no) (fun _ yes => absurd yes no),
    ⟨holds, rfl, ?_, v, claimed, ?_⟩,
    .setSlot inv holds (fun _ => rfl) (fun yes => absurd yes no) (fun _ yes => absurd yes no)⟩
  · rw [inv.slotAt_setSlot holds, if_pos rfl]
    exact unready
  · rw [inv.slotAt_setSlot holds, if_pos rfl]

theorem writeReady_keeps (inv : q.Inv) {wc x : Nat}
    (knows : q.Knows (.writeReady wc (x % CHUNK_SIZE) x)) :
    Keeps q (.writeReady wc (x % CHUNK_SIZE) x)
      (q.setSlot wc (x % CHUNK_SIZE) { (q.chunks wc).slots (x % CHUNK_SIZE) with ready := true })
      .idle := by
  obtain ⟨holds, _, unready, v, claimed, value⟩ := knows
  rw [holds.slots]
  have no : ¬ (q.slotAt x).ready = true := by simp [unready]
  exact ⟨inv.setSlot holds (fun _ => inv.claimed_lt claimed)
    (fun _ _ => ⟨v, claimed, value⟩), trivial,
    .setSlot inv holds (fun _ => rfl) (fun yes => absurd yes no) (fun _ _ => ⟨v, claimed, value⟩)⟩

theorem pushStep_keeps (inv : q.Inv) (knows : q.Knows p) (h : q.pushStep p = some (q', p')) :
    Keeps q p q' p' := by
  cases p <;> simp only [pushStep, Option.some.injEq, Prod.mk.injEq, reduceCtorEq] at h
  case loadTailChunk v =>
    obtain ⟨rfl, rfl⟩ := h
    exact .local inv inv.before_tail
  case loadTailIndex v tc =>
    obtain ⟨rfl, rfl⟩ := h
    exact .local inv knows
  case claimTail v tc ti =>
    split at h
    · rename_i hti
      cases h
      subst hti
      exact claimTail_keeps inv knows
    · cases h
      exact .local inv trivial
  case testTail v tc wi =>
    split at h
    · rename_i ge
      cases h
      exact .local inv ⟨inv.past_of_ge knows.1 ge, knows.2⟩
    · rename_i lt
      cases h
      exact .local inv ⟨inv.holds_of_lt knows.1 lt, knows.2⟩
  case newChunk v tc wi =>
    obtain ⟨rfl, rfl⟩ := h
    exact newChunk_keeps inv knows
  case installChunk v tc nc wi =>
    split at h
    · rename_i htc
      cases h
      subst htc
      exact installChunk_keeps inv knows
    · cases h
      obtain ⟨⟨k, hk, le, _⟩, rest⟩ := knows
      exact .local inv ⟨⟨k, hk, le⟩, rest⟩
  case linkChunk v tc nc wi =>
    obtain ⟨rfl, rfl⟩ := h
    exact linkChunk_keeps inv knows
  case deleteNext v tc nc wi =>
    obtain ⟨rfl, rfl⟩ := h
    exact ⟨inv.discard knows.2.1, ⟨knows.1.before, knows.2.2⟩, .discard rfl⟩
  case writeValue v wc offset x =>
    obtain ⟨rfl, rfl⟩ := h
    obtain rfl : offset = x % CHUNK_SIZE := knows.2.1
    exact writeValue_keeps inv knows
  case writeReady wc offset x =>
    obtain ⟨rfl, rfl⟩ := h
    obtain rfl : offset = x % CHUNK_SIZE := knows.2.1
    exact writeReady_keeps inv knows

theorem walkStep_keeps (inv : q.Inv) (knows : q.Knows p) (h : q.walkStep p = some (q', p')) :
    Keeps q p q' p' := by
  cases p <;> simp only [walkStep, reduceCtorEq] at h
  case walk job c x =>
    split at h
    · rename_i ge
      cases h
      exact .local inv ⟨inv.past_of_ge knows.1 ge, knows.2⟩
    · rename_i lt
      have holds := inv.holds_of_lt knows.1 lt
      cases job with
      | write v =>
        cases h
        exact .local inv ⟨holds, knows.2⟩
      | read hc =>
        simp only at h
        split at h
        · cases h
          exact .local inv ⟨knows.2.1, holds, knows.2.2⟩
        · cases h
          exact .local inv ⟨holds, knows.2⟩
  case spin job c x =>
    split at h
    · cases h
      exact .local inv knows
    · rename_i n hn
      cases h
      exact .local inv ⟨⟨n, inv.linked knows.1 hn⟩, knows⟩
  case follow job c x =>
    split at h
    · cases h
    · rename_i n hn
      cases h
      exact .local inv ⟨inv.before_next knows.2.1 (inv.linked knows.2.1 hn), knows.2.2⟩
  case findSlot job c x =>
    cases job with
    | write v =>
      cases h
      exact .local inv ⟨knows.1, inv.offset knows.1, knows.2⟩
    | read hc =>
      cases h
      exact .local inv ⟨knows.2.1, knows.1, inv.offset knows.1, knows.2.2⟩

theorem claimHead_keeps (inv : q.Inv) {hc : Nat} (before : q.Before hc q.headIndex)
    (lt : q.headIndex < q.tailIndex) :
    Keeps q (.claimHead hc q.headIndex)
      { q with headIndex := q.headIndex + 1, headClaims := q.headClaims ++ [q.headIndex] }
      (.walk (.read hc) hc q.headIndex) := by
  obtain ⟨k, hk, le⟩ := before
  refine ⟨inv.claimHead lt, ⟨⟨k, hk, le⟩, List.mem_of_getElem? hk, Nat.lt_succ_self _, ?_, ?_, ?_⟩,
    .claimHead⟩
  · exact fun hx => Nat.lt_irrefl _ (inv.countedRange _ hx).1
  · exact fun v hx => Nat.lt_irrefl _ (inv.returned _ v hx).1
  · exact inv.pending _ (Nat.le_refl _)

theorem moveHead_keeps (inv : q.Inv) {n : Nat} (knows : q.Knows (.moveHead q.headChunk n)) :
    Keeps q (.moveHead q.headChunk n) { q with headChunk := n } (.deleteHead q.headChunk) := by
  obtain ⟨past, linked⟩ := knows
  obtain ⟨k, hk, hn⟩ := linked.2
  exact ⟨inv.moveHead past linked, ⟨k, k + 1, hk, hn, Nat.lt_succ_self k⟩, .moveHead inv linked⟩

theorem moveValue_keeps (inv : q.Inv) {hc rc x : Nat}
    (knows : q.Knows (.moveValue hc rc (x % CHUNK_SIZE) x)) :
    Keeps q (.moveValue hc rc (x % CHUNK_SIZE) x)
      (q.setSlot rc (x % CHUNK_SIZE) { (q.chunks rc).slots (x % CHUNK_SIZE) with value := none })
      (.countRead hc rc x ((q.chunks rc).slots (x % CHUNK_SIZE)).value) := by
  obtain ⟨hm, holds, _, ⟨lt, uncounted, unreturned, filled⟩, ready⟩ := knows
  obtain ⟨v, claimed, value⟩ := filled ready
  rw [holds.slots]
  exact ⟨inv.setSlot holds (fun _ => inv.claimed_lt claimed) (fun le _ => absurd lt (by omega)),
    ⟨hm, holds, uncounted, lt, unreturned, v, value, claimed⟩,
    .setSlot inv holds (fun no => by rw [ready] at no; cases no) (fun _ => rfl)
      (fun no => by rw [ready] at no; cases no)⟩

theorem countRead_keeps (inv : q.Inv) {hc rc x : Nat} {v : Option T}
    (knows : q.Knows (.countRead hc rc x v)) :
    Keeps q (.countRead hc rc x v) (q.countRead rc x) (.dropLastRef hc x v) ∧
    Keeps q (.countRead hc rc x v) ((q.countRead rc x).giveBack x v) .idle := by
  obtain ⟨hm, holds, uncounted, taken⟩ := knows
  have inv' := inv.countRead holds taken.1 uncounted
  have f : Frame q (q.countRead rc x) (.countRead hc rc x v) := .countRead rfl holds
  exact ⟨⟨inv', ⟨hm, taken⟩, f⟩, ⟨inv'.giveBack taken, trivial, f.giveBack rfl v⟩⟩

theorem popStep_keeps (inv : q.Inv) (knows : q.Knows p) (h : q.popStep p = some (q', p')) :
    Keeps q p q' p' := by
  cases p <;> simp only [popStep, Option.some.injEq, Prod.mk.injEq, reduceCtorEq] at h
  case loadHeadChunk =>
    obtain ⟨rfl, rfl⟩ := h
    exact .local inv inv.head
  case loadHeadIndex hc =>
    obtain ⟨rfl, rfl⟩ := h
    exact .local inv ⟨knows, Nat.le_refl _⟩
  case testEmpty hc hi =>
    have order := inv.order
    split at h
    · rename_i hti
      cases h
      have hle : hi ≤ q.headIndex := knows.2
      refine ⟨{ inv with empties := ?_ }, trivial, { Frame.refl q _ with published := ?_ }⟩
      · intro e he
        rcases List.mem_append.mp he with he | he
        · exact inv.empties e he
        · rw [List.mem_singleton.mp he]
          exact Nat.le_antisymm order (hti ▸ hle)
      · exact fun _ no yes => by cases no.symm.trans yes
    · rename_i hne
      cases h
      have hle : hi ≤ q.headIndex := knows.2
      exact .local inv ⟨knows.1, by omega⟩
  case testReadCount hc hi =>
    split at h
    · rename_i full
      cases h
      exact .local inv ⟨knows.1, knows.2, inv.past_of_full knows.1 full⟩
    · cases h
      exact .local inv knows
  case testRefCount hc hi =>
    split at h
    · cases h
      exact .local inv knows.2.2
    · cases h
      exact .local inv ⟨knows.1, knows.2.1⟩
  case testNext hc =>
    split at h
    · cases h
      exact .local inv trivial
    · rename_i n hn
      cases h
      exact .local inv ⟨knows, n, inv.linked knows hn⟩
  case loadNext hc =>
    split at h
    · cases h
    · rename_i n hn
      cases h
      exact .local inv ⟨knows.1, inv.linked knows.1 hn⟩
  case moveHead hc n =>
    split at h
    · rename_i hhc
      cases h
      subst hhc
      exact moveHead_keeps inv knows
    · cases h
      exact .local inv trivial
  case deleteHead hc =>
    obtain ⟨rfl, rfl⟩ := h
    exact ⟨{ inv with }, trivial, { Frame.refl q _ with }⟩
  case addRef hc hi =>
    obtain ⟨rfl, rfl⟩ := h
    obtain ⟨k, hk, _⟩ := knows.1
    exact ⟨inv.addRef hc, knows, .addRef (List.mem_of_getElem? hk)⟩
  case claimHead hc hi =>
    split at h
    · rename_i hhi
      cases h
      subst hhi
      exact claimHead_keeps inv knows.1 knows.2
    · cases h
      exact .local inv trivial
  case dropRef hc rc x =>
    obtain ⟨rfl, rfl⟩ := h
    obtain ⟨hm, holds, reading⟩ := knows
    exact ⟨inv.dropRef hc, ⟨holds, hm, (Frame.dropRef hm : Frame q _ .idle).reading reading nofun⟩,
      .dropRef hm⟩
  case waitReady hc rc offset x =>
    split at h
    · rename_i ready
      cases h
      obtain ⟨hm, holds, rfl, reading⟩ := knows
      exact .local inv ⟨hm, holds, rfl, reading, by rw [← holds.slots]; exact ready⟩
    · cases h
      exact .local inv knows
  case moveValue hc rc offset x =>
    obtain ⟨rfl, rfl⟩ := h
    obtain rfl : offset = x % CHUNK_SIZE := knows.2.2.1
    exact moveValue_keeps inv knows
  case countRead hc rc x v =>
    split at h
    · cases h
      exact (countRead_keeps inv knows).1
    · cases h
      exact (countRead_keeps inv knows).2
  case dropLastRef hc x v =>
    obtain ⟨rfl, rfl⟩ := h
    exact ⟨(inv.dropRef hc).giveBack knows.2, trivial, (Frame.dropRef knows.1).giveBack rfl v⟩

theorem advance_cases {r : MPMCQueue T × MpmcPoint T} (h : q.advance p = some r) :
    q.pushStep p = some r ∨ q.walkStep p = some r ∨ q.popStep p = some r := by
  rcases Option.or_eq_some_iff.mp h with push | ⟨_, h⟩
  · exact Or.inl push
  · rcases Option.or_eq_some_iff.mp h with walk | ⟨_, pop⟩
    · exact Or.inr (Or.inl walk)
    · exact Or.inr (Or.inr pop)

theorem advance_keeps (inv : q.Inv) (knows : q.Knows p) (h : q.advance p = some (q', p')) :
    Keeps q p q' p' := by
  rcases advance_cases h with h | h | h
  · exact pushStep_keeps inv knows h
  · exact walkStep_keeps inv knows h
  · exact popStep_keeps inv knows h

/- Ownership comes from a claim or from an allocation, and from nowhere else. -/
structure Gains (q : MPMCQueue T) (p p' : MpmcPoint T) : Prop where
  writes : ∀ x, p'.writes = some x → p.writes = some x ∨ q.tailIndex ≤ x
  reads : ∀ x, p'.reads = some x → p.reads = some x ∨ q.headIndex ≤ x
  makes : ∀ c, p'.makes = some c → p.makes = some c ∨ q.fresh ≤ c

theorem pushStep_gains (h : q.pushStep p = some (q', p')) : Gains q p p' := by
  cases p <;> simp only [pushStep, reduceCtorEq] at h <;> (try split at h) <;> cases h <;>
    constructor <;> simp [MpmcPoint.writes, MpmcPoint.reads, MpmcPoint.makes, *]

theorem walkStep_gains (h : q.walkStep p = some (q', p')) : Gains q p p' := by
  cases p <;> simp only [walkStep, reduceCtorEq] at h <;> rename_i job _ _ <;> cases job <;>
    (repeat' split at h) <;> (try contradiction) <;> cases h <;> constructor <;>
    simp [MpmcPoint.writes, MpmcPoint.reads, MpmcPoint.makes]

theorem popStep_gains (h : q.popStep p = some (q', p')) : Gains q p p' := by
  cases p <;> simp only [popStep, reduceCtorEq] at h <;> (try split at h) <;> cases h <;>
    constructor <;> simp [MpmcPoint.writes, MpmcPoint.reads, MpmcPoint.makes, *]

theorem advance_gains (h : q.advance p = some (q', p')) : Gains q p p' := by
  rcases advance_cases h with h | h | h
  · exact pushStep_gains h
  · exact walkStep_gains h
  · exact popStep_gains h

/- An index claimed by a `pop` stays in its hands until it is returned. -/
structure Delivers (q : MPMCQueue T) (p : MpmcPoint T) (q' : MPMCQueue T) (p' : MpmcPoint T) :
    Prop where
  claimed : ∀ x, x < q'.headIndex → x < q.headIndex ∨ p'.reads = some x
  reads : ∀ x, p.reads = some x → p'.reads = some x ∨ ∃ v, (x, v) ∈ q'.returned
  returned : ∀ e ∈ q.returned, e ∈ q'.returned

theorem Delivers.same (head : q'.headIndex = q.headIndex) (returned : q'.returned = q.returned)
    (reads : p'.reads = p.reads) : Delivers q p q' p' where
  claimed := fun _ hx => Or.inl (head ▸ hx)
  reads := fun _ hx => Or.inl (reads.trans hx)
  returned := fun _ he => returned ▸ he

theorem pushStep_delivers (h : q.pushStep p = some (q', p')) : Delivers q p q' p' := by
  cases p <;> simp only [pushStep, reduceCtorEq] at h <;> (try split at h) <;> cases h <;>
    exact .same rfl rfl rfl

theorem walkStep_delivers (h : q.walkStep p = some (q', p')) : Delivers q p q' p' := by
  cases p <;> simp only [walkStep, reduceCtorEq] at h <;> rename_i job _ _ <;> cases job <;>
    (repeat' split at h) <;> (try contradiction) <;> cases h <;> exact .same rfl rfl rfl

theorem popStep_delivers (h : q.popStep p = some (q', p')) : Delivers q p q' p' := by
  cases p <;> simp only [popStep, reduceCtorEq] at h
  case claimHead hc hi =>
    split at h
    · rename_i hhi
      cases h
      refine ⟨fun x hx => ?_, nofun, fun _ he => he⟩
      rcases Nat.lt_succ_iff_lt_or_eq.mp hx with lt | rfl
      · exact Or.inl (hhi ▸ lt)
      · exact Or.inr rfl
    · cases h
      exact .same rfl rfl rfl
  case countRead hc rc x v =>
    split at h
    · cases h
      exact .same rfl rfl rfl
    · cases h
      refine ⟨fun _ hx => Or.inl hx, ?_, fun _ he => List.mem_append_left _ he⟩
      rintro _ ⟨⟩
      exact Or.inr ⟨v, List.mem_append_right _ List.mem_cons_self⟩
  case dropLastRef hc x v =>
    cases h
    refine ⟨fun _ hx => Or.inl hx, ?_, fun _ he => List.mem_append_left _ he⟩
    rintro _ ⟨⟩
    exact Or.inr ⟨v, List.mem_append_right _ List.mem_cons_self⟩
  all_goals (try split at h) <;> cases h <;> exact .same rfl rfl rfl

theorem advance_delivers (h : q.advance p = some (q', p')) : Delivers q p q' p' := by
  rcases advance_cases h with h | h | h
  · exact pushStep_delivers h
  · exact walkStep_delivers h
  · exact popStep_delivers h

theorem Knows.writes_lt (inv : q.Inv) (knows : q.Knows m) {x : Nat} (hm : m.writes = some x) :
    x < q.tailIndex := by
  cases m <;> simp only [MpmcPoint.writes, Option.some.injEq, reduceCtorEq] at hm
  case testTail | newChunk => exact hm ▸ inv.claimed_lt knows.2.1
  case installChunk | deleteNext => exact hm ▸ inv.claimed_lt knows.2.2.1
  case linkChunk => exact hm ▸ inv.claimed_lt knows.2.1
  case walk job _ _ | spin job _ _ | findSlot job _ _ =>
    cases job <;> simp only [Option.some.injEq, reduceCtorEq] at hm
    exact hm ▸ inv.claimed_lt knows.2.1
  case follow job _ _ =>
    cases job <;> simp only [Option.some.injEq, reduceCtorEq] at hm
    exact hm ▸ inv.claimed_lt knows.2.2.1
  case writeValue => exact hm ▸ inv.claimed_lt knows.2.2.1
  case writeReady =>
    obtain ⟨_, _, _, v, claimed, _⟩ := knows
    exact hm ▸ inv.claimed_lt claimed

theorem Knows.reads_lt (knows : q.Knows m) {x : Nat} (hm : m.reads = some x) : x < q.headIndex := by
  cases m <;> simp only [MpmcPoint.reads, Option.some.injEq, reduceCtorEq] at hm
  case walk job _ _ | spin job _ _ | findSlot job _ _ =>
    cases job <;> simp only [Option.some.injEq, reduceCtorEq] at hm
    exact hm ▸ knows.2.2.1
  case follow job _ _ =>
    cases job <;> simp only [Option.some.injEq, reduceCtorEq] at hm
    exact hm ▸ knows.2.2.2.1
  case dropRef => exact hm ▸ knows.2.2.1
  case waitReady => exact hm ▸ knows.2.2.2.1
  case moveValue => exact hm ▸ knows.2.2.2.1.1
  case countRead => exact hm ▸ knows.2.2.2.1
  case dropLastRef => exact hm ▸ knows.2.1

theorem Knows.makes_lt (knows : q.Knows m) {c : Nat} (hm : m.makes = some c) : c < q.fresh := by
  cases m <;> simp only [MpmcPoint.makes, Option.some.injEq, reduceCtorEq] at hm
  case installChunk | deleteNext => exact hm ▸ knows.2.1.1

theorem Gains.apart (g : Gains q p p') (inv : q.Inv) (knows : q.Knows m) (apart : p.Apart m) :
    p'.Apart m where
  writes := by
    intro x hp hm
    rcases g.writes x hp with hp | le
    · exact apart.writes x hp hm
    · exact Nat.not_lt.mpr le (knows.writes_lt inv hm)
  reads := by
    intro x hp hm
    rcases g.reads x hp with hp | le
    · exact apart.reads x hp hm
    · exact Nat.not_lt.mpr le (knows.reads_lt hm)
  makes := by
    intro c hp hm
    rcases g.makes c hp with hp | le
    · exact apart.makes c hp hm
    · exact Nat.not_lt.mpr le (knows.makes_lt hm)

theorem advance_moves (inv : q.Inv) (knows : q.Knows p) (h : q.advance p = some (q', p')) :
    Moves Inv Knows MpmcPoint.Apart q p q' p' where
  shared := (advance_keeps inv knows h).inv
  knows := (advance_keeps inv knows h).knows
  others := fun _ hm apart =>
    ⟨(advance_keeps inv knows h).frame.knows hm apart, (advance_gains h).apart inv hm apart⟩

theorem restart_moves (inv : q.Inv) (knows : q.Knows p') (writes : p'.writes = none)
    (reads : p'.reads = none) (makes : p'.makes = none) :
    Moves Inv Knows MpmcPoint.Apart q p q p' where
  shared := inv
  knows := knows
  others := by
    refine fun m hm _ => ⟨hm, ?_, ?_, ?_⟩
    · simp [writes]
    · simp [reads]
    · simp [makes]

theorem init_inv : (init : MPMCQueue T).Inv where
  nodup := List.nodup_singleton 0
  allocated := by simp [init]
  begins := by
    intro k c hk
    obtain ⟨lt, _⟩ := List.getElem?_eq_some_iff.mp hk
    have : k = 0 := by simpa [init] using lt
    simp [init, Chunk.init, this]
  links := by simp [init, Chunk.init]
  tail := ⟨0, rfl, rfl, by simp⟩
  head := ⟨0, rfl, by simp⟩
  order := Nat.le_refl 0
  tailClaims := rfl
  headClaims := rfl
  ready := by
    intro x hx
    unfold slotAt at hx
    split at hx <;> cases hx
  pending := by
    intro x _ hx
    unfold slotAt at hx
    split at hx <;> cases hx
  countedOnce := List.nodup_nil
  countedRange := nofun
  readCount := fun _ _ _ => rfl
  returnedOnce := List.nodup_nil
  returned := nofun
  empties := nofun
  discarded := nofun

end MPMCQueue

section

variable {ι T : Type} [DecidableEq ι]

def MpmcPoint.Begins (p : MpmcPoint T) : Prop := (∃ v, p = .loadTailChunk v) ∨ p = .loadHeadChunk

theorem failWeak_restarts {p p' : MpmcPoint T} (h : p.failWeak = some p') :
    p.reads = none ∧ p'.Begins := by
  cases p <;> simp only [MpmcPoint.failWeak, Option.some.injEq, reduceCtorEq] at h
  case claimTail v _ _ => exact ⟨rfl, Or.inl ⟨v, h.symm⟩⟩
  case moveHead | claimHead => exact ⟨rfl, Or.inr h.symm⟩

/-- A step puts a thread that holds no index at the start of a call, or is one access. -/
inductive MpmcMove (s : MpmcRun ι T) : MpmcOp ι T → MpmcRun ι T → Prop where
  | restart {op : MpmcOp ι T} {t : ι} {p' : MpmcPoint T} (free : (s.threads t).reads = none)
      (begins : p'.Begins) : MpmcMove s op { s with threads := Function.update s.threads t p' }
  | access {t : ι} {q' : MPMCQueue T} {p' : MpmcPoint T}
      (run : s.queue.advance (s.threads t) = some (q', p')) :
      MpmcMove s (.advance t) ⟨q', Function.update s.threads t p'⟩

theorem mpmc_move {s s' : MpmcRun ι T} {op : MpmcOp ι T}
    (hs : (mpmcMachine ι T).step s op = some s') :
    MpmcMove s op s' := by
  cases op with
  | push t v =>
    simp only [mpmcMachine] at hs
    split at hs
    · rename_i idle
      cases hs
      exact .restart (by rw [idle]; rfl) (Or.inl ⟨v, rfl⟩)
    · cases hs
  | pop t =>
    simp only [mpmcMachine] at hs
    split at hs
    · rename_i idle
      cases hs
      exact .restart (by rw [idle]; rfl) (Or.inr rfl)
    · cases hs
  | advance t =>
    obtain ⟨⟨q', p'⟩, run, rfl⟩ := Option.map_eq_some_iff.mp hs
    exact .access run
  | failWeak t =>
    obtain ⟨p', fails, rfl⟩ := Option.map_eq_some_iff.mp hs
    obtain ⟨free, begins⟩ := failWeak_restarts fails
    exact .restart free begins

/-- The invariant of the queue, together with what each thread knows, along a run. -/
def MpmcRun.Inv (s : MpmcRun ι T) : Prop :=
  Together MPMCQueue.Inv MPMCQueue.Knows MpmcPoint.Apart s.queue s.threads

theorem mpmc_step (s : MpmcRun ι T) (op : MpmcOp ι T) (s' : MpmcRun ι T) (inv : s.Inv)
    (hs : (mpmcMachine ι T).step s op = some s') : s'.Inv := by
  have symm : ∀ l m : MpmcPoint T, l.Apart m → m.Apart l := fun _ _ => MpmcPoint.Apart.symm
  cases mpmc_move hs with
  | restart free begins =>
    rcases begins with ⟨v, rfl⟩ | rfl
    · exact inv.move symm (MPMCQueue.restart_moves inv.shared trivial rfl rfl rfl)
    · exact inv.move symm (MPMCQueue.restart_moves inv.shared trivial rfl rfl rfl)
  | @access t _ _ run => exact inv.move symm (MPMCQueue.advance_moves inv.shared (inv.knows t) run)

theorem mpmc_reach_inv {s : MpmcRun ι T} (h : (mpmcMachine ι T).Reach s) : s.Inv := by
  refine h.invariant ⟨MPMCQueue.init_inv, fun _ => trivial, ?_⟩ mpmc_step
  exact fun _ _ _ => ⟨nofun, nofun, nofun⟩

/- Every claimed index has been returned, or the `pop` that claimed it is still at work. -/
def MpmcRun.InHand (s : MpmcRun ι T) : Prop :=
  ∀ x, x < s.queue.headIndex → (∃ v, (x, v) ∈ s.queue.returned) ∨ ∃ t, (s.threads t).reads = some x

theorem in_hand_step (s : MpmcRun ι T) (op : MpmcOp ι T) (s' : MpmcRun ι T) (h : s.InHand)
    (hs : (mpmcMachine ι T).step s op = some s') : s'.InHand := by
  intro x hx
  cases mpmc_move hs with
  | @restart _ t _ free begins =>
    rcases h x hx with done | ⟨u, hu⟩
    · exact Or.inl done
    · have hut : u ≠ t := by
        rintro rfl
        rw [free] at hu
        cases hu
      exact Or.inr ⟨u, by simpa [Function.update_of_ne hut] using hu⟩
  | @access t _ _ run =>
    have d := MPMCQueue.advance_delivers run
    rcases d.claimed x hx with lt | mine
    · rcases h x lt with ⟨v, done⟩ | ⟨u, hu⟩
      · exact Or.inl ⟨v, d.returned _ done⟩
      · by_cases hut : u = t
        · subst u
          rcases d.reads x hu with still | done
          · exact Or.inr ⟨t, by simpa using still⟩
          · exact Or.inl done
        · exact Or.inr ⟨u, by simpa [Function.update_of_ne hut] using hu⟩
    · exact Or.inr ⟨t, by simpa using mine⟩

/-- In any interleaving the claims of either index go up one by one, what a `pop` returns for the
`i`-th claim of `head_index_` is the value of the `push` that made the `i`-th claim of
`tail_index_`, no index is returned twice and none is dropped, and a `pop` that gives up has
seen an empty queue. -/
theorem mpmc_fifo (s : MpmcRun ι T) (h : (mpmcMachine ι T).Reach s) :
    s.queue.headClaims = List.range s.queue.headIndex ∧
    s.queue.tailClaims.map Prod.fst = List.range s.queue.tailIndex ∧
    (∀ i v, (i, v) ∈ s.queue.returned →
      i < s.queue.headIndex ∧ ∃ u, v = some u ∧ s.queue.tailClaims[i]? = some (i, u)) ∧
    (s.queue.returned.map Prod.fst).Nodup ∧
    (∀ i, i < s.queue.headIndex →
      (∃ v, (i, v) ∈ s.queue.returned) ∨ ∃ t, (s.threads t).reads = some i) ∧
    ∀ e ∈ s.queue.empties, e.1 = e.2 := by
  have inv := (mpmc_reach_inv h).shared
  have inHand : s.InHand := h.invariant (fun x hx => absurd hx (Nat.not_lt_zero x)) in_hand_step
  exact ⟨inv.headClaims, inv.tailClaims, inv.returned, inv.returnedOnce, inHand, inv.empties⟩

/- Both threads push, and the one that came first loses the first index; then they pop, and a third
`pop` finds the queue empty. -/
def twoProducers : List (MpmcOp Bool Nat) :=
  .push false 5 :: .push true 6 :: List.replicate 2 (.advance false) ++
    List.replicate 7 (.advance true) ++
    List.replicate 8 (.advance false) ++ .pop true :: List.replicate 12 (.advance true) ++
    .pop false :: List.replicate 12 (.advance false) ++ .pop true ::
    List.replicate 3 (.advance true)

theorem mpmc_fifo_of_two_producers :
    ∃ s, (mpmcMachine Bool Nat).run (mpmcMachine Bool Nat).start twoProducers = some s ∧
      s.queue.returned = [(0, some 6), (1, some 5)] ∧ s.queue.empties = [(2, 2)] ∧
      (∃ u, some 6 = some u ∧ s.queue.tailClaims[0]? = some (0, u)) ∧
      (∃ u, some 5 = some u ∧ s.queue.tailClaims[1]? = some (1, u)) ∧
      ∀ e ∈ s.queue.empties, e.1 = e.2 := by
  have run : ((mpmcMachine Bool Nat).run (mpmcMachine Bool Nat).start twoProducers).map
      (fun s => (s.queue.returned, s.queue.empties)) =
          some ([(0, some 6), (1, some 5)], [(2, 2)]) := by
    decide +kernel
  obtain ⟨s, hs, results⟩ := Option.map_eq_some_iff.mp run
  obtain ⟨returned, empties⟩ := Prod.mk.inj results
  obtain ⟨_, _, fifo, _, _, empty⟩ := mpmc_fifo s (Machine.reach_run .start hs)
  refine ⟨s, hs, returned, empties, (fifo 0 _ ?_).2, (fifo 1 _ ?_).2, empty⟩ <;> simp [returned]

end

end Xuanqiong
