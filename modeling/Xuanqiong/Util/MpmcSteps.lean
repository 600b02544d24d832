import Mathlib.Data.List.Nodup
import Mathlib.Data.List.Infix
import Mathlib.Data.List.Perm.Subperm
import Xuanqiong.Util.MpmcInv

/-! The changes that accesses make to the shared state: each of them keeps the invariant and
leaves the other threads alone. -/
namespace Xuanqiong

namespace MPMCQueue

variable {T : Type} {q q' : MPMCQueue T} {p p' : MpmcPoint T}

theorem Inv.chain_inj (h : q.Inv) {i j c : Nat} (hi : q.chain[i]? = some c)
    (hj : q.chain[j]? = some c) : i = j :=
  (List.getElem?_inj (List.getElem?_eq_some_iff.mp hi).1 h.nodup).mp (hi.trans hj.symm)

theorem Inv.claims_length (h : q.Inv) : q.tailClaims.length = q.tailIndex := by
  simpa using congrArg List.length h.tailClaims

theorem Inv.claimed_lt (h : q.Inv) {x : Nat} {v : T} (hc : q.Claimed x v) : x < q.tailIndex :=
  h.claims_length ▸ (List.getElem?_eq_some_iff.mp hc).1

theorem Inv.claimed_of_lt (h : q.Inv) {x : Nat} (lt : x < q.tailIndex) : ∃ v, q.Claimed x v := by
  have hx : (q.tailClaims.map Prod.fst)[x]? = some x := by rw [h.tailClaims, List.getElem?_range lt]
  rw [List.getElem?_map] at hx
  obtain ⟨⟨i, v⟩, hi, rfl⟩ := Option.map_eq_some_iff.mp hx
  exact ⟨v, hi⟩

theorem Inv.begins_drop (h : q.Inv) (k : Nat) :
    (q.chain.drop k).map (fun c => (q.chunks c).beginIndex) =
      List.range' (k * CHUNK_SIZE) (q.chain.length - k) CHUNK_SIZE := by
  apply List.ext_getElem
  · rw [List.length_map, List.length_drop, List.length_range']
  · intro i hi _
    rw [List.length_map, List.length_drop] at hi
    have lt : k + i < q.chain.length := by omega
    rw [List.getElem_map, List.getElem_drop, List.getElem_range',
      h.begins _ _ (List.getElem?_eq_getElem lt), Nat.add_mul, Nat.mul_comm i]

theorem Inv.before_tail (h : q.Inv) : q.Before q.tailChunk q.tailIndex := by
  obtain ⟨k, hk, _, le⟩ := h.tail
  exact ⟨k, hk, le⟩

theorem Inv.past_of_ge (h : q.Inv) {c x : Nat} (hb : q.Before c x)
    (ge : (q.chunks c).beginIndex + CHUNK_SIZE ≤ x) : q.Past c x := by
  obtain ⟨k, hk, _⟩ := hb
  rw [h.begins k c hk] at ge
  exact ⟨k, hk, by rw [Nat.succ_mul]; exact ge⟩

theorem Inv.holds_of_lt (h : q.Inv) {c x : Nat} (hb : q.Before c x)
    (lt : ¬ (q.chunks c).beginIndex + CHUNK_SIZE ≤ x) : q.Holds c x := by
  obtain ⟨k, hk, le⟩ := hb
  rw [h.begins k c hk] at lt
  have hdiv : x / CHUNK_SIZE = k := Nat.div_eq_of_lt_le le (by rw [Nat.succ_mul]; omega)
  rw [← hdiv] at hk
  exact hk

theorem Inv.offset (h : q.Inv) {c x : Nat} (hh : q.Holds c x) :
    x - (q.chunks c).beginIndex = x % CHUNK_SIZE := by
  rw [h.begins _ c hh, Nat.mul_comm]
  have := Nat.div_add_mod x CHUNK_SIZE
  omega

theorem Inv.linked (h : q.Inv) {c x n : Nat} (hp : q.Past c x) (hn : (q.chunks c).next = some n) :
    q.Linked c n := by
  obtain ⟨k, hk, _⟩ := hp
  exact ⟨hn, k, hk, h.links k c n hk hn⟩

theorem Inv.before_next (h : q.Inv) {c n x : Nat} (hp : q.Past c x) (hl : q.Linked c n) :
    q.Before n x := by
  obtain ⟨k, hk, le⟩ := hp
  obtain ⟨_, j, hj, hn⟩ := hl
  rw [h.chain_inj hj hk] at hn
  exact ⟨k + 1, hn, le⟩

theorem Inv.full_iff (h : q.Inv) {k c : Nat} (hk : q.chain[k]? = some c) :
    (q.chunks c).readCount = CHUNK_SIZE ↔ ∀ x, x / CHUNK_SIZE = k → x ∈ q.counted := by
  have mem : ∀ x, x ∈ List.range' (k * CHUNK_SIZE) CHUNK_SIZE ↔ x / CHUNK_SIZE = k := by
    intro x
    rw [List.mem_range'_1, Nat.div_eq_iff CHUNK_SIZE_pos, Nat.add_sub_assoc CHUNK_SIZE_pos]
    have := CHUNK_SIZE_pos
    omega
  have sub : q.counted.filter (fun x => x / CHUNK_SIZE = k) ⊆ List.range'
      (k * CHUNK_SIZE) CHUNK_SIZE := by
    intro x hx
    exact (mem x).mpr (of_decide_eq_true (List.mem_filter.mp hx).2)
  have below := List.subperm_of_subset (h.countedOnce.filter _) sub
  rw [h.readCount k c hk, List.countP_eq_length_filter]
  constructor
  · intro full x hx
    have perm := below.perm_of_length_le (by rw [full, List.length_range'])
    exact (List.mem_filter.mp (perm.mem_iff.mpr ((mem x).mpr hx))).1
  · intro all
    have above : List.range' (k * CHUNK_SIZE) CHUNK_SIZE ⊆
        q.counted.filter (fun x => x / CHUNK_SIZE = k) := by
      intro x hx
      exact List.mem_filter.mpr ⟨all x ((mem x).mp hx), decide_eq_true ((mem x).mp hx)⟩
    have le := (List.subperm_of_subset (List.nodup_range' _ Nat.one_pos) above).length_le
    have ge := below.length_le
    rw [List.length_range'] at le ge
    omega

theorem Inv.past_of_full (h : q.Inv) {c x : Nat} (hb : q.Before c x)
    (full : (q.chunks c).readCount = CHUNK_SIZE) : q.Past c q.headIndex := by
  obtain ⟨k, hk, _⟩ := hb
  refine ⟨k, hk, ?_⟩
  have last : (k * CHUNK_SIZE + (CHUNK_SIZE - 1)) / CHUNK_SIZE = k := by
    rw [Nat.mul_comm, Nat.mul_add_div CHUNK_SIZE_pos,
      Nat.div_eq_of_lt (Nat.sub_one_lt_of_lt CHUNK_SIZE_pos)]
    rfl
  have lt := (h.countedRange _ ((h.full_iff hk).mp full _ last)).1
  rw [Nat.succ_mul]
  omega

theorem slotAt_eq (hchain : q'.chain = q.chain)
    (slots : ∀ c ∈ q.chain, (q'.chunks c).slots = (q.chunks c).slots) (x : Nat) :
    q'.slotAt x = q.slotAt x := by
  unfold slotAt
  rw [hchain]
  cases hc : q.chain[x / CHUNK_SIZE]? with
  | none => rfl
  | some c =>
    simp only
    rw [slots c (List.mem_of_getElem? hc)]

theorem setChunk_self (c : Nat) (chunk : Chunk T) : (q.setChunk c chunk).chunks c = chunk :=
  Function.update_self _ _ _

theorem setChunk_of_ne {c d : Nat} (hd : d ≠ c) (chunk : Chunk T) :
    (q.setChunk c chunk).chunks d = q.chunks d := Function.update_of_ne hd _ _

theorem setChunk_field {β : Type} (f : Chunk T → β) {c : Nat} {chunk : Chunk T}
    (h : f chunk = f (q.chunks c)) (d : Nat) :
    f ((q.setChunk c chunk).chunks d) = f (q.chunks d) := by
  by_cases hd : d = c
  · subst d
    rw [setChunk_self, h]
  · rw [setChunk_of_ne hd]

theorem Inv.slotAt_setSlot (h : q.Inv) {c x : Nat} (hh : q.Holds c x) (slot : Slot T) (y : Nat) :
    (q.setSlot c (x % CHUNK_SIZE) slot).slotAt y = if y = x then slot else q.slotAt y := by
  have hh' : q.chain[x / CHUNK_SIZE]? = some c := hh
  simp only [slotAt, setSlot, setChunk]
  by_cases hy : y = x
  · subst y
    simp [hh']
  · rw [if_neg hy]
    cases hd : q.chain[y / CHUNK_SIZE]? with
    | none => rfl
    | some d =>
      by_cases hdc : d = c
      · subst d
        have hdiv := h.chain_inj hd hh
        have hmod : y % CHUNK_SIZE ≠ x % CHUNK_SIZE := by
          intro hmod
          apply hy
          rw [← Nat.div_add_mod y CHUNK_SIZE, ← Nat.div_add_mod x CHUNK_SIZE, hdiv, hmod]
        simp [Function.update_of_ne hmod]
      · simp [Function.update_of_ne hdc]

theorem not_unlinked {c : Nat} (hc : c ∈ q.chain) : ¬ q.Unlinked c := fun h => h.2.1 hc

theorem Inv.setChunk (h : q.Inv) {c : Nat} {chunk : Chunk T}
    (begin : c ∈ q.chain → chunk.beginIndex = (q.chunks c).beginIndex)
    (next : ∀ k n, q.chain[k]? = some c → chunk.next = some n → q.chain[k + 1]? = some n)
    (count : c ∈ q.chain → chunk.readCount = (q.chunks c).readCount)
    (ready : ∀ x, ((q.setChunk c chunk).slotAt x).ready = true → x < q.tailIndex)
    (pending : ∀ x, q.headIndex ≤ x → ((q.setChunk c chunk).slotAt x).ready = true →
      (q.setChunk c chunk).Filled x) : (q.setChunk c chunk).Inv where
  nodup := h.nodup
  allocated := h.allocated
  begins := by
    intro k d hd
    by_cases hdc : d = c
    · subst d
      rw [setChunk_self, begin (List.mem_of_getElem? hd), h.begins k c hd]
    · rw [setChunk_of_ne hdc, h.begins k d hd]
  links := by
    intro k d n hd hn
    by_cases hdc : d = c
    · subst d
      rw [setChunk_self] at hn
      exact next k n hd hn
    · rw [setChunk_of_ne hdc] at hn
      exact h.links k d n hd hn
  tail := h.tail
  head := h.head
  order := h.order
  tailClaims := h.tailClaims
  headClaims := h.headClaims
  ready := ready
  pending := pending
  countedOnce := h.countedOnce
  countedRange := h.countedRange
  readCount := by
    intro k d hd
    by_cases hdc : d = c
    · subst d
      rw [setChunk_self, count (List.mem_of_getElem? hd)]
      exact h.readCount k c hd
    · rw [setChunk_of_ne hdc]
      exact h.readCount k d hd
  returnedOnce := h.returnedOnce
  returned := h.returned
  empties := h.empties
  discarded := h.discarded

theorem Inv.setChunk_slots (h : q.Inv) {c : Nat} {chunk : Chunk T}
    (begin : c ∈ q.chain → chunk.beginIndex = (q.chunks c).beginIndex)
    (next : ∀ k n, q.chain[k]? = some c → chunk.next = some n → q.chain[k + 1]? = some n)
    (count : c ∈ q.chain → chunk.readCount = (q.chunks c).readCount)
    (same : ∀ x, (q.setChunk c chunk).slotAt x = q.slotAt x) : (q.setChunk c chunk).Inv := by
  apply h.setChunk begin next count
  · intro x hx
    rw [same] at hx
    exact h.ready x hx
  · intro x le hx
    rw [same] at hx
    obtain ⟨v, hv, hs⟩ := h.pending x le hx
    exact ⟨v, hv, by rw [same]; exact hs⟩

theorem Frame.refl (q : MPMCQueue T) (p : MpmcPoint T) : Frame q q p where
  chain := List.prefix_refl _
  fresh := Nat.le_refl _
  tailIndex := Nat.le_refl _
  headIndex := Nat.le_refl _
  tailClaims := List.prefix_refl _
  next := fun _ _ _ hn => hn
  unready := fun _ _ _ => rfl
  ready := fun _ _ _ => rfl
  published := fun _ no yes => by rw [no] at yes; cases yes
  counted := fun _ _ hx => hx
  returned := fun _ _ _ hx => hx
  unlinked := fun _ _ hc => ⟨hc, rfl⟩
  head := fun k hk => ⟨k, Nat.le_refl k, hk⟩

theorem Frame.setChunk {c : Nat} {chunk : Chunk T} (linked : ¬ q.Unlinked c)
    (next : c ∈ q.chain → ∀ n, (q.chunks c).next = some n → chunk.next = some n)
    (same : ∀ x, (q.setChunk c chunk).slotAt x = q.slotAt x) : Frame q (q.setChunk c chunk) p :=
  { Frame.refl q p with
    next := by
      intro d hd n hn
      by_cases hdc : d = c
      · subst d
        rw [setChunk_self]
        exact next hd n hn
      · rw [setChunk_of_ne hdc]
        exact hn
    unready := fun x _ _ => same x
    ready := fun x _ _ => same x
    published := by
      intro x no yes
      rw [same, no] at yes
      cases yes
    unlinked := by
      intro d _ hd
      refine ⟨hd, setChunk_of_ne ?_ chunk⟩
      rintro rfl
      exact linked hd }

theorem Frame.setSlot (h : q.Inv) {c x : Nat} (hh : q.Holds c x) {slot : Slot T}
    (unready : (q.slotAt x).ready = false → p.writes = some x)
    (ready : (q.slotAt x).ready = true → p.reads = some x)
    (published : (q.slotAt x).ready = false → slot.ready = true →
      ∃ v, q.Claimed x v ∧ slot.value = some v) :
    Frame q (q.setSlot c (x % CHUNK_SIZE) slot) p :=
  { Frame.refl q p with
    next := fun d _ n hn => (setChunk_field Chunk.next (by rfl) d).trans hn
    unready := by
      intro y hy other
      rw [h.slotAt_setSlot hh, if_neg]
      rintro rfl
      exact other (unready hy)
    ready := by
      intro y hy other
      rw [h.slotAt_setSlot hh, if_neg]
      rintro rfl
      exact other (ready hy)
    published := by
      intro y no yes
      rw [h.slotAt_setSlot hh] at yes
      unfold Filled
      rw [h.slotAt_setSlot hh]
      by_cases hy : y = x
      · subst y
        rw [if_pos rfl] at yes ⊢
        exact published no yes
      · rw [if_neg hy, no] at yes
        cases yes
    unlinked := by
      intro d _ hd
      refine ⟨hd, setChunk_of_ne ?_ _⟩
      rintro rfl
      exact hd.2.1 (List.mem_of_getElem? hh) }

theorem Frame.giveBack (f : Frame q q' p) {x : Nat} (hx : p.reads = some x) (v : Option T) :
    Frame q (q'.giveBack x v) p :=
  { f with
    returned := by
      intro y u other hy
      rcases List.mem_append.mp hy with hy | hy
      · exact f.returned y u other hy
      · cases List.mem_singleton.mp hy
        exact absurd hx other }

theorem Inv.giveBack (h : q.Inv) {x : Nat} {v : Option T} (ht : q.Taken x v) :
    (q.giveBack x v).Inv :=
  { h with
    returnedOnce := by
      simp only [MPMCQueue.giveBack, List.map_append, List.map_cons, List.map_nil]
      refine List.Nodup.append h.returnedOnce (List.nodup_singleton x) ?_
      rw [List.disjoint_singleton]
      intro hx
      obtain ⟨⟨y, u⟩, hmem, rfl⟩ := List.mem_map.mp hx
      exact ht.2.1 u hmem
    returned := by
      intro y u hy
      rcases List.mem_append.mp hy with hy | hy
      · exact h.returned y u hy
      · cases List.mem_singleton.mp hy
        exact ⟨ht.1, ht.2.2⟩ }

theorem Inv.addRef (h : q.Inv) (c : Nat) : (q.addRef c).Inv :=
  h.setChunk_slots (fun _ => rfl) (fun k n hk hn => h.links k c n hk hn) (fun _ => rfl)
    (slotAt_eq rfl fun d _ => setChunk_field Chunk.slots (by rfl) d)

theorem Inv.dropRef (h : q.Inv) (c : Nat) : (q.dropRef c).Inv :=
  h.setChunk_slots (fun _ => rfl) (fun k n hk hn => h.links k c n hk hn) (fun _ => rfl)
    (slotAt_eq rfl fun d _ => setChunk_field Chunk.slots (by rfl) d)

theorem Frame.addRef {c : Nat} (hc : c ∈ q.chain) : Frame q (q.addRef c) p :=
  Frame.setChunk (not_unlinked hc) (fun _ _ hn => hn)
    (slotAt_eq rfl fun d _ => setChunk_field Chunk.slots (by rfl) d)

theorem Frame.dropRef {c : Nat} (hc : c ∈ q.chain) : Frame q (q.dropRef c) p :=
  Frame.setChunk (not_unlinked hc) (fun _ _ hn => hn)
    (slotAt_eq rfl fun d _ => setChunk_field Chunk.slots (by rfl) d)

theorem Inv.setSlot (h : q.Inv) {c x : Nat} (hh : q.Holds c x) {slot : Slot T}
    (ready : slot.ready = true → x < q.tailIndex)
    (pending : q.headIndex ≤ x → slot.ready = true → ∃ v, q.Claimed x v ∧ slot.value = some v) :
    (q.setSlot c (x % CHUNK_SIZE) slot).Inv := by
  have same := h.slotAt_setSlot hh slot
  unfold MPMCQueue.setSlot at same ⊢
  refine h.setChunk (fun _ => rfl) (fun k n hk hn => h.links k c n hk hn) (fun _ => rfl) ?_ ?_
  · intro y hy
    rw [same] at hy
    by_cases hyx : y = x
    · subst y
      rw [if_pos rfl] at hy
      exact ready hy
    · rw [if_neg hyx] at hy
      exact h.ready y hy
  · intro y le hy
    unfold Filled
    rw [same] at hy ⊢
    by_cases hyx : y = x
    · subst y
      rw [if_pos rfl] at hy ⊢
      exact pending le hy
    · rw [if_neg hyx] at hy ⊢
      exact h.pending y le hy

theorem Inv.claimTail (h : q.Inv) (v : T) :
    Inv { q with
      tailIndex := q.tailIndex + 1, tailClaims := q.tailClaims ++ [(q.tailIndex, v)] } := by
  have claimed : ∀ x u, q.Claimed x u → (q.tailClaims ++ [(q.tailIndex, v)])[x]? = some (x, u) := by
    intro x u hx
    rw [List.getElem?_append_left (List.getElem?_eq_some_iff.mp hx).1]
    exact hx
  obtain ⟨k, hk, hlen, le⟩ := h.tail
  exact
    { h with
      tail := ⟨k, hk, hlen, Nat.le_succ_of_le le⟩
      order := Nat.le_succ_of_le h.order
      tailClaims := by simp [h.tailClaims, List.range_succ]
      ready := fun x hx => Nat.lt_succ_of_lt (h.ready x hx)
      pending := by
        intro x hx hr
        obtain ⟨u, hu, hs⟩ := h.pending x hx hr
        exact ⟨u, claimed x u hu, hs⟩
      returned := by
        intro x u hx
        obtain ⟨lt, w, hw, hc⟩ := h.returned x u hx
        exact ⟨lt, w, hw, claimed x w hc⟩ }

theorem Frame.claimTail (v : T) :
    Frame q { q with
      tailIndex := q.tailIndex + 1, tailClaims := q.tailClaims ++ [(q.tailIndex, v)] } p :=
  { Frame.refl q p with
    tailIndex := Nat.le_succ _
    tailClaims := List.prefix_append _ _
    published := fun _ no yes => by cases no.symm.trans yes }

theorem Inv.claimHead (h : q.Inv) (lt : q.headIndex < q.tailIndex) :
    Inv { q with headIndex := q.headIndex + 1, headClaims := q.headClaims ++ [q.headIndex] } := by
  obtain ⟨k, hk, le⟩ := h.head
  exact
    { h with
      head := ⟨k, hk, Nat.le_succ_of_le le⟩
      order := lt
      headClaims := by simp [h.headClaims, List.range_succ]
      pending := fun x hx hr => h.pending x (Nat.le_of_succ_le hx) hr
      countedRange :=
        fun x hx => ⟨Nat.lt_succ_of_lt (h.countedRange x hx).1, (h.countedRange x hx).2⟩
      returned := fun x u hx => ⟨Nat.lt_succ_of_lt (h.returned x u hx).1, (h.returned x u hx).2⟩ }

theorem Frame.claimHead :
    Frame q { q with
      headIndex := q.headIndex + 1, headClaims := q.headClaims ++ [q.headIndex] } p :=
  { Frame.refl q p with
    headIndex := Nat.le_succ _
    published := fun _ no yes => by cases no.symm.trans yes }

theorem Inv.fresh_out (h : q.Inv) : q.fresh ∉ q.chain :=
    fun hf => Nat.lt_irrefl _ (h.allocated _ hf)

theorem Inv.alloc (h : q.Inv) (chunk : Chunk T) : (q.alloc chunk).Inv := by
  have out := h.fresh_out
  have hs : (q.setChunk q.fresh chunk).Inv := by
    apply h.setChunk_slots (fun hf => absurd hf out)
      (fun k n hk _ => absurd (List.mem_of_getElem? hk) out) (fun hf => absurd hf out)
    exact slotAt_eq rfl fun c hc =>
      congrArg Chunk.slots (setChunk_of_ne (ne_of_mem_of_not_mem hc out) chunk)
  exact
    { hs with
      allocated := fun c hc => Nat.lt_succ_of_lt (h.allocated c hc)
      discarded := fun c hc => ⟨Nat.lt_succ_of_lt (h.discarded c hc).1, (h.discarded c hc).2⟩ }

theorem Frame.alloc (h : q.Inv) (chunk : Chunk T) : Frame q (q.alloc chunk) p := by
  have out := h.fresh_out
  have hs : Frame q (q.setChunk q.fresh chunk) p := by
    apply Frame.setChunk (fun hf => Nat.lt_irrefl _ hf.1) (fun hf => absurd hf out)
    exact slotAt_eq rfl fun c hc =>
      congrArg Chunk.slots (setChunk_of_ne (ne_of_mem_of_not_mem hc out) chunk)
  exact
    { hs with
      fresh := Nat.le_succ _
      unlinked := by
        intro c hc hu
        obtain ⟨⟨lt, rest⟩, same⟩ := hs.unlinked c hc hu
        exact ⟨⟨Nat.lt_succ_of_lt lt, rest⟩, same⟩ }

theorem slotAt_install {nc b : Nat} (blank : q.chunks nc = Chunk.init b) (x : Nat) :
    slotAt { q with tailChunk := nc, chain := q.chain ++ [nc] } x = q.slotAt x := by
  simp only [slotAt]
  rcases Nat.lt_trichotomy (x / CHUNK_SIZE) q.chain.length with lt | eq | gt
  · rw [List.getElem?_append_left lt]
  · rw [eq, List.getElem?_concat_length, List.getElem?_eq_none (Nat.le_refl _)]
    simp [blank, Chunk.init]
  · rw [List.getElem?_eq_none (Nat.le_of_lt gt), List.getElem?_eq_none (by simp; omega)]

theorem Inv.install (h : q.Inv) {k nc wi : Nat} (hk : q.chain[k]? = some q.tailChunk)
    (le : (k + 1) * CHUNK_SIZE ≤ wi) (lt : wi < q.tailIndex) (hu : q.Unlinked nc)
    (blank : q.chunks nc = Chunk.init ((k + 1) * CHUNK_SIZE)) :
    Inv { q with tailChunk := nc, chain := q.chain ++ [nc] } := by
  obtain ⟨j, hj, hlen, _⟩ := h.tail
  cases h.chain_inj hj hk
  have same := slotAt_install blank
  have old : ∀ {i c}, (q.chain ++ [nc])[i]? = some c → q.chain[i]? = some c ∨ i = q.chain.length ∧
      c = nc := by
    intro i c hi
    rcases Nat.lt_or_ge i q.chain.length with hi' | hi'
    · rw [List.getElem?_append_left hi'] at hi
      exact Or.inl hi
    · rw [List.getElem?_append_right hi', List.getElem?_singleton] at hi
      split at hi
      · exact Or.inr ⟨by omega, (Option.some.inj hi).symm⟩
      · cases hi
  exact
    { h with
      nodup :=
        List.Nodup.append h.nodup (List.nodup_singleton nc) (List.disjoint_singleton.mpr hu.2.1)
      allocated := by
        intro c hc
        rcases List.mem_append.mp hc with hc | hc
        · exact h.allocated c hc
        · rw [List.mem_singleton.mp hc]
          exact hu.1
      begins := by
        intro i c hi
        rcases old hi with hi | ⟨rfl, rfl⟩
        · exact h.begins i c hi
        · rw [blank, ← hlen]
          rfl
      links := by
        intro i c n hi hn
        rcases old hi with hi | ⟨rfl, rfl⟩
        · have hin := h.links i c n hi hn
          rw [List.getElem?_append_left (List.getElem?_eq_some_iff.mp hin).1]
          exact hin
        · rw [blank] at hn
          cases hn
      tail := ⟨q.chain.length, List.getElem?_concat_length, by simp,
        by rw [← hlen]; exact le.trans (Nat.le_of_lt lt)⟩
      head := by
        obtain ⟨i, hi, hle⟩ := h.head
        exact ⟨i, by rw [List.getElem?_append_left (List.getElem?_eq_some_iff.mp hi).1]; exact hi,
          hle⟩
      ready := by
        intro x hx
        rw [same] at hx
        exact h.ready x hx
      pending := by
        intro x hx hr
        rw [same] at hr
        obtain ⟨v, hv, hs⟩ := h.pending x hx hr
        exact ⟨v, hv, by rw [same]; exact hs⟩
      countedRange := by
        intro x hx
        have := h.countedRange x hx
        exact ⟨this.1, by simp; omega⟩
      readCount := by
        intro i c hi
        rcases old hi with hi | ⟨rfl, rfl⟩
        · exact h.readCount i c hi
        · rw [blank]
          refine (List.countP_eq_zero.mpr ?_).symm
          intro x hx
          have := (h.countedRange x hx).2
          simp only [decide_eq_true_eq]
          omega
      discarded := by
        intro c hc
        refine ⟨(h.discarded c hc).1, ?_⟩
        intro hm
        rcases List.mem_append.mp hm with hm | hm
        · exact (h.discarded c hc).2 hm
        · rw [List.mem_singleton.mp hm] at hc
          exact hu.2.2 hc }

theorem Frame.install {nc b : Nat} (hp : p.makes = some nc) (blank : q.chunks nc = Chunk.init b) :
    Frame q { q with tailChunk := nc, chain := q.chain ++ [nc] } p :=
  { Frame.refl q p with
    chain := List.prefix_append _ _
    unready := fun x _ _ => slotAt_install blank x
    ready := fun x _ _ => slotAt_install blank x
    published := by
      intro x no yes
      rw [slotAt_install blank, no] at yes
      cases yes
    unlinked := by
      intro c hc hu
      refine ⟨⟨hu.1, ?_, hu.2.2⟩, rfl⟩
      intro hm
      rcases List.mem_append.mp hm with hm | hm
      · exact hu.2.1 hm
      · rw [List.mem_singleton.mp hm] at hc
        exact hc hp
    head := by
      intro k hk
      exact ⟨k, Nat.le_refl k,
        by rw [List.getElem?_append_left (List.getElem?_eq_some_iff.mp hk).1]; exact hk⟩ }

theorem Inv.link (h : q.Inv) {k tc nc : Nat} (hk : q.chain[k]? = some tc)
    (hn : q.chain[k + 1]? = some nc) :
    (q.setChunk tc { q.chunks tc with next := some nc }).Inv := by
  refine h.setChunk_slots (fun _ => rfl) ?_ (fun _ => rfl)
    (slotAt_eq rfl fun d _ => setChunk_field Chunk.slots (by rfl) d)
  intro i n hi hin
  cases hin
  rw [h.chain_inj hi hk]
  exact hn

theorem Frame.link (h : q.Inv) {k tc nc : Nat} (hk : q.chain[k]? = some tc)
    (hn : q.chain[k + 1]? = some nc) :
    Frame q (q.setChunk tc { q.chunks tc with next := some nc }) p := by
  refine Frame.setChunk (not_unlinked (List.mem_of_getElem? hk)) ?_
    (slotAt_eq rfl fun d _ => setChunk_field Chunk.slots (by rfl) d)
  intro _ n hnext
  exact hn.symm.trans (h.links k tc n hk hnext)

theorem Inv.discard (h : q.Inv) {nc : Nat} (hu : q.Unlinked nc) :
    Inv { q with discarded := q.discarded ++ [nc] } :=
  { h with
    discarded := by
      intro c hc
      rcases List.mem_append.mp hc with hc | hc
      · exact h.discarded c hc
      · rw [List.mem_singleton.mp hc]
        exact ⟨hu.1, hu.2.1⟩ }

theorem Frame.discard {nc : Nat} (hp : p.makes = some nc) :
    Frame q { q with discarded := q.discarded ++ [nc] } p :=
  { Frame.refl q p with
    published := fun _ no yes => by cases no.symm.trans yes
    unlinked := by
      intro c hc hu
      refine ⟨⟨hu.1, hu.2.1, ?_⟩, rfl⟩
      intro hm
      rcases List.mem_append.mp hm with hm | hm
      · exact hu.2.2 hm
      · rw [List.mem_singleton.mp hm] at hc
        exact hc hp }

theorem Inv.moveHead (h : q.Inv) {n : Nat} (hp : q.Past q.headChunk q.headIndex)
    (hl : q.Linked q.headChunk n) : Inv { q with headChunk := n } :=
  { h with head := h.before_next hp hl }

theorem Frame.moveHead (h : q.Inv) {n : Nat} (hl : q.Linked q.headChunk n) :
    Frame q { q with headChunk := n } p :=
  { Frame.refl q p with
    published := fun _ no yes => by cases no.symm.trans yes
    head := by
      intro k hk
      obtain ⟨_, j, hj, hn⟩ := hl
      rw [h.chain_inj hj hk] at hn
      exact ⟨k + 1, Nat.le_succ k, hn⟩ }

theorem Inv.countRead (h : q.Inv) {rc x : Nat} (hh : q.Holds rc x) (lt : x < q.headIndex)
    (uncounted : x ∉ q.counted) : (q.countRead rc x).Inv := by
  have same : ∀ y, (q.countRead rc x).slotAt y = q.slotAt y :=
    slotAt_eq rfl fun d _ => setChunk_field Chunk.slots (by rfl) d
  exact
    { h with
      begins := fun k c hc => (setChunk_field Chunk.beginIndex (by rfl) c).trans (h.begins k c hc)
      links := fun k c n hc hn =>
        h.links k c n hc ((setChunk_field Chunk.next (by rfl) c).symm.trans hn)
      ready := by
        intro y hy
        rw [same] at hy
        exact h.ready y hy
      pending := by
        intro y le hy
        rw [same] at hy
        obtain ⟨v, hv, hs⟩ := h.pending y le hy
        exact ⟨v, hv, by rw [same]; exact hs⟩
      countedOnce :=
        List.Nodup.append h.countedOnce (List.nodup_singleton x)
          (List.disjoint_singleton.mpr uncounted)
      countedRange := by
        intro y hy
        rcases List.mem_append.mp hy with hy | hy
        · exact h.countedRange y hy
        · rw [List.mem_singleton.mp hy]
          exact ⟨lt, (List.getElem?_eq_some_iff.mp hh).1⟩
      readCount := by
        intro k c hc
        simp only [MPMCQueue.countRead, List.countP_append]
        by_cases hcr : c = rc
        · subst c
          rw [setChunk_self, h.readCount k rc hc, h.chain_inj hc hh]
          simp
        · have hk : x / CHUNK_SIZE ≠ k := by
            rintro rfl
            exact hcr (Option.some.inj (hc.symm.trans hh))
          rw [setChunk_of_ne hcr, h.readCount k c hc]
          simp [hk] }

theorem Frame.countRead {rc x : Nat} (hp : p.reads = some x) (hh : q.Holds rc x) :
    Frame q (q.countRead rc x) p := by
  have f : Frame q (q.setChunk rc { q.chunks rc with
    readCount := (q.chunks rc).readCount + 1 }) p :=
    Frame.setChunk (not_unlinked (List.mem_of_getElem? hh)) (fun _ _ hn => hn)
      (slotAt_eq rfl fun d _ => setChunk_field Chunk.slots (by rfl) d)
  exact
    { f with
      counted := by
        intro y other hy
        rcases List.mem_append.mp hy with hy | hy
        · exact hy
        · rw [List.mem_singleton.mp hy] at other
          exact absurd hp other }

end MPMCQueue

end Xuanqiong
