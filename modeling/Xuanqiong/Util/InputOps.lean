import Xuanqiong.Util.InputBuffer

/-! The blocks hold the stream in segments of `kBlockSize`, each from the start of its
block, so that the place of a byte depends on its position in the stream alone and not on
how the stream was cut. -/
namespace Xuanqiong

def BufferBlock.written (b : BufferBlock) : List UInt8 := slice b.data 0 b.end_.toNat

namespace InputBuffer

/- From the given block on every block but the last is full, and none but the given
one has been read from. -/
def Filled : BufferBlock → List BufferBlock → Prop
  | c, [] => 0 ≤ c.end_ ∧ c.end_ < kBlockSize
  | c, n :: rest => c.end_ = kBlockSize ∧ n.begin = 0 ∧ Filled n rest

def SameChain (b c : InputBuffer) : Prop := b.past = c.past ∧ b.cur = c.cur ∧ b.after = c.after

theorem SameChain.refl (b : InputBuffer) : SameChain b b := ⟨rfl, rfl, rfl⟩

theorem SameChain.consume {b c : InputBuffer} (h : SameChain b c) (n : Int) :
    SameChain (b.consume n) (c.consume n) := by
  obtain ⟨hp, hc, ha⟩ := h
  exact ⟨hp, by simp only [InputBuffer.consume, hc], ha⟩

theorem SameChain.leaveIfDrained {b c : InputBuffer} (h : SameChain b c) :
    SameChain b.leaveIfDrained c.leaveIfDrained := by
  obtain ⟨hp, hc, ha⟩ := h
  unfold InputBuffer.leaveIfDrained nextBlock
  rw [hp, hc, ha]
  split
  · cases c.after with
    | nil => exact ⟨hp, hc, ha⟩
    | cons n rest => exact ⟨rfl, rfl, rfl⟩
  · exact ⟨hp, hc, ha⟩

/-- The state of the buffer after `received` has come in. -/
structure Inv (b : InputBuffer) (received : List UInt8) : Prop where
  past_full : ∀ blk ∈ b.past, blk.end_ = kBlockSize
  filled : Filled b.cur b.after
  nonneg : 0 ≤ b.cur.begin
  ordered : b.cur.begin ≤ b.cur.end_
  left_drained : b.after ≠ [] → b.cur.begin < kBlockSize
  counted : b.consumedBytes + b.readBytes = received.length
  aligned : ∃ m : Nat, (b.consumedBytes : Int) = m * kBlockSize + b.cur.begin ∧
    b.chain.flatMap BufferBlock.written = received.drop (m * kBlockSize).toNat
  limit_range : 0 ≤ b.limit ∧ b.limit ≤ INT32_MAX

theorem Filled.end_range {c : BufferBlock} {rest : List BufferBlock} (h : Filled c rest) :
    0 ≤ c.end_ ∧ c.end_ ≤ kBlockSize := by
  have := kBlockSize_pos
  cases rest with
  | nil => exact ⟨h.1, Int.le_of_lt h.2⟩
  | cons n rest => exact ⟨by have := h.1; omega, Int.le_of_eq h.1⟩

theorem Filled.moved {c d : BufferBlock} {rest : List BufferBlock} (h : Filled c rest)
    (he : d.end_ = c.end_) : Filled d rest := by
  cases rest with
  | nil => exact ⟨he ▸ h.1, he ▸ h.2⟩
  | cons n rest => exact ⟨he ▸ h.1, h.2⟩

theorem Filled.held_after {c : BufferBlock} {rest : List BufferBlock} (h : Filled c rest) :
    rest.flatMap BufferBlock.held = rest.flatMap BufferBlock.written := by
  induction rest generalizing c with
  | nil => rfl
  | cons n rest ih =>
    have hn : n.held = n.written := by
      simp only [BufferBlock.held, BufferBlock.written, h.2.1, Int.toNat_zero, Int.sub_zero]
    rw [List.flatMap_cons, List.flatMap_cons, hn, ih h.2.2]

theorem held_eq_drop {c : BufferBlock} (h0 : 0 ≤ c.begin) (h1 : c.begin ≤ c.end_) :
    c.held = c.written.drop c.begin.toNat := by
  have size : (c.end_ - c.begin).toNat = c.end_.toNat - c.begin.toNat := by omega
  rw [BufferBlock.held, BufferBlock.written, slice_drop, Nat.zero_add, size]

theorem Filled.last_range {c : BufferBlock} {rest : List BufferBlock} (h : Filled c rest) :
    0 ≤ (rest.getLastD c).end_ ∧ (rest.getLastD c).end_ < kBlockSize ∧
    ∀ blk ∈ (c :: rest).dropLast, blk.end_ = kBlockSize := by
  induction rest generalizing c with
  | nil => exact ⟨h.1, h.2, by simp⟩
  | cons n rest ih =>
    obtain ⟨h0, h1, hall⟩ := ih h.2.2
    rw [List.getLastD_cons]
    refine ⟨h0, h1, ?_⟩
    intro blk hb
    rcases List.mem_cons.mp hb with rfl | hb
    · exact h.1
    · exact hall blk hb

namespace Inv

variable {b : InputBuffer} {received : List UInt8}

theorem cur_wf (h : Inv b received) : b.cur.Wf := ⟨h.nonneg, h.ordered, h.filled.end_range.2⟩

/-- What is held from `cur_block_` on is the stream from the read position on. -/
theorem unread_eq (h : Inv b received) : b.unread = received.drop b.consumedBytes := by
  obtain ⟨m, hm, hw⟩ := h.aligned
  have h0 := h.nonneg
  have hlen : b.cur.begin.toNat ≤ b.cur.written.length := by
    have := h.ordered
    rw [BufferBlock.written, slice_length]
    omega
  have hpos : b.consumedBytes = (m * kBlockSize).toNat + b.cur.begin.toNat := by
    have : 0 ≤ (m : Int) * kBlockSize :=
      Int.mul_nonneg (Int.natCast_nonneg m) (Int.le_of_lt kBlockSize_pos)
    omega
  rw [hpos, ← List.drop_drop, ← hw]
  rw [unread, chain, List.flatMap_cons, List.flatMap_cons, held_eq_drop h.nonneg h.ordered,
    h.filled.held_after, List.drop_append_of_le_length hlen]

theorem unread_length (h : Inv b received) : b.unread.length = b.readBytes := by
  have := h.counted
  rw [h.unread_eq, List.length_drop]
  omega

theorem drained_iff (h : Inv b received) : b.cur.begin = b.cur.end_ ↔ b.readBytes = 0 := by
  have hlen := h.unread_length
  have hheld := BufferBlock.held_length h.cur_wf
  rw [unread, chain, List.flatMap_cons, List.length_append] at hlen
  constructor
  · intro he
    have hnil : b.after = [] := by
      cases ha : b.after with
      | nil => rfl
      | cons n rest =>
        have hf := h.filled
        have hlt := h.left_drained (by rw [ha]; simp)
        rw [ha] at hf
        have := hf.1
        omega
    rw [hnil, List.flatMap_nil, List.length_nil] at hlen
    omega
  · intro hz
    omega

theorem room (h : Inv b received) {n : Int} (h0 : n ≤ b.readBytes)
    (h1 : n ≤ kBlockSize - b.cur.begin) : n ≤ b.cur.end_ - b.cur.begin := by
  have hlen := h.unread_length
  have hheld := BufferBlock.held_length h.cur_wf
  have hf := h.filled
  rw [unread, chain, List.flatMap_cons, List.length_append] at hlen
  cases ha : b.after with
  | nil =>
    rw [ha, List.flatMap_nil, List.length_nil] at hlen
    omega
  | cons n rest =>
    rw [ha] at hf
    have := hf.1
    omega

/-- Reading on by `n` bytes of the current block, and out of it when they are its last. -/
theorem advance (h : Inv b received) {c : InputBuffer} {n : Int} (h0 : 0 ≤ n)
    (h1 : n ≤ b.cur.end_ - b.cur.begin) (same : SameChain c (b.consume n).leaveIfDrained)
    (hc : (c.consumedBytes : Int) = b.consumedBytes + n)
    (hr : (c.readBytes : Int) = b.readBytes - n) (hl : 0 ≤ c.limit ∧ c.limit ≤ INT32_MAX) :
    Inv c received := by
  have hcount := h.counted
  have hbegin := h.nonneg
  obtain ⟨m, hm, hw⟩ := h.aligned
  obtain ⟨hpast, hcur, hafter⟩ := same
  by_cases drained : b.cur.begin + n = kBlockSize
  · cases ha : b.after with
    | nil =>
      have hf := h.filled
      rw [ha] at hf
      have := hf.2
      omega
    | cons d rest =>
      have hleave : (b.consume n).leaveIfDrained =
          { b.consume n with past := b.past ++ [(b.consume n).cur], cur := d, after := rest } := by
        simp only [leaveIfDrained, consume, if_pos drained, nextBlock, ha, Option.getD_some]
      rw [hleave] at hpast hcur hafter
      have hf := h.filled
      have hend := hf.end_range.2
      rw [ha] at hf
      rw [chain, ha, List.flatMap_cons] at hw
      have hlen : b.cur.written.length = kBlockSize.toNat := by
        rw [BufferBlock.written, slice_length]
        omega
      have hstart : ((m + 1 : Nat) : Int) * kBlockSize = m * kBlockSize + kBlockSize := by
        rw [Int.natCast_add, Int.add_mul, Int.natCast_one, Int.one_mul]
      have hbase : 0 ≤ (m : Int) * kBlockSize :=
        Int.mul_nonneg (Int.natCast_nonneg m) (Int.le_of_lt kBlockSize_pos)
      refine ⟨?_, ?_, ?_, ?_, ?_, by omega, ⟨m + 1, ?_, ?_⟩, hl⟩
      · intro blk hb
        rw [hpast] at hb
        rcases List.mem_append.mp hb with hb | hb
        · exact h.past_full blk hb
        · rw [List.mem_singleton.mp hb]
          exact hf.1
      · rw [hcur, hafter]
        exact hf.2.2
      · rw [hcur]
        exact Int.le_of_eq hf.2.1.symm
      · rw [hcur, hf.2.1]
        exact hf.2.2.end_range.1
      · intro _
        rw [hcur, hf.2.1]
        exact kBlockSize_pos
      · rw [hcur, hf.2.1, hstart]
        omega
      · have hk := kBlockSize_pos
        have hnext : (((m + 1 : Nat) : Int) * kBlockSize).toNat =
            (m * kBlockSize).toNat + kBlockSize.toNat := by omega
        rw [hnext, ← List.drop_drop, ← hw, ← hlen, List.drop_left, chain, hcur, hafter]
  · have hstay : (b.consume n).leaveIfDrained = b.consume n := if_neg drained
    rw [hstay] at hpast hcur hafter
    have hend := h.filled.end_range.2
    refine ⟨hpast ▸ h.past_full, ?_, ?_, ?_, ?_, by omega, ⟨m, ?_, ?_⟩, hl⟩
    · rw [hcur, hafter]
      exact h.filled.moved rfl
    · rw [hcur]
      simp only [consume]
      omega
    · rw [hcur]
      simp only [consume]
      omega
    · intro _
      rw [hcur]
      simp only [consume]
      omega
    · rw [hcur]
      simp only [consume]
      omega
    · rw [chain, hcur, hafter]
      exact hw

theorem backUp (h : Inv b received) {n : Int} (h0 : 0 ≤ n)
    (hl : b.limit ≠ INT32_MAX → b.limit + n ≤ INT32_MAX) : Inv (b.backUp n) received := by
  have hbegin := h.nonneg
  have hend := h.ordered
  have hlimit := h.limit_range
  have hcount := h.counted
  obtain ⟨m, hm, hw⟩ := h.aligned
  have hbase : 0 ≤ (m : Int) * kBlockSize :=
    Int.mul_nonneg (Int.natCast_nonneg m) (Int.le_of_lt kBlockSize_pos)
  have hcons : ((sizeAdd b.consumedBytes (-min n b.cur.begin) : Nat) : Int) =
      b.consumedBytes + -min n b.cur.begin := sizeAdd_of_nonneg (by omega)
  have hread : ((sizeAdd b.readBytes (min n b.cur.begin) : Nat) : Int) =
      b.readBytes + min n b.cur.begin := sizeAdd_of_nonneg (by omega)
  refine ⟨?_, ?_, ?_, ?_, ?_, ?_, ⟨m, ?_, ?_⟩, ?_⟩
  · intro blk hb
    cases hb
  · exact h.filled.moved rfl
  · simp only [InputBuffer.backUp]
    omega
  · simp only [InputBuffer.backUp]
    omega
  · intro hne
    have := h.left_drained hne
    simp only [InputBuffer.backUp]
    omega
  · simp only [InputBuffer.backUp]
    omega
  · simp only [InputBuffer.backUp]
    omega
  · exact hw
  · simp only [InputBuffer.backUp]
    split
    · omega
    · rename_i finite
      have := hl finite
      omega

end Inv

/-- A piece is never empty and is cut from the stream at the read position. -/
theorem next_spec {b : InputBuffer} {received : List UInt8} (h : Inv b received) {p : Piece}
    {c : InputBuffer} (hn : b.next = some (p, c)) :
    Inv c received ∧ 0 < p.size ∧ p.size ≤ b.readBytes ∧ p.size ≤ b.limit ∧
    p.data = b.unread.take p.size.toNat ∧
    (c.consumedBytes : Int) = b.consumedBytes + p.size ∧
    (c.readBytes : Int) = b.readBytes - p.size ∧
    c.limit = b.limit - (if b.limit = INT32_MAX then 0 else p.size) := by
  have hend := h.ordered
  have hlimit := h.limit_range
  have hlen := h.unread_length
  have hheld := BufferBlock.held_length h.cur_wf
  rw [unread, chain, List.flatMap_cons, List.length_append] at hlen
  unfold next at hn
  split at hn
  · cases hn
  · rename_i some
    have ⟨h1, h2⟩ := not_or.mp some
    cases Option.some.inj hn
    have hsize : 0 < min (b.cur.end_ - b.cur.begin) b.limit ∧
        min (b.cur.end_ - b.cur.begin) b.limit ≤ b.cur.end_ - b.cur.begin ∧
        min (b.cur.end_ - b.cur.begin) b.limit ≤ b.limit := by omega
    revert hsize
    generalize min (b.cur.end_ - b.cur.begin) b.limit = size
    intro hsize
    have hc : ((sizeAdd b.consumedBytes size : Nat) : Int) = b.consumedBytes + size :=
      sizeAdd_of_nonneg (by omega)
    have hr : ((sizeAdd b.readBytes (-size) : Nat) : Int) = b.readBytes - size := by
      rw [sizeAdd_of_nonneg (by omega), Int.sub_eq_add_neg]
    refine ⟨h.advance (Int.le_of_lt hsize.1) hsize.2.1 (.refl _) hc hr ?_, hsize.1, ?_, hsize.2.2,
      ?_, hc, hr, rfl⟩
    · simp only
      split <;> omega
    · simp only
      omega
    · have hcut : size.toNat ≤ b.cur.held.length := by omega
      rw [unread, chain, List.flatMap_cons, List.take_append_of_le_length hcut, BufferBlock.held,
        slice_take _ _ _ _ (by omega)]

theorem next_none {b : InputBuffer} {received : List UInt8} (h : Inv b received)
    (hn : b.next = none) : b.limit = 0 ∨ b.readBytes = 0 := by
  unfold next at hn
  split at hn
  · rename_i stop
    exact stop.symm.imp id h.drained_iff.mp
  · cases hn

theorem unread_drop {b c : InputBuffer} {received : List UInt8} (hb : b.Inv received)
    (hc : c.Inv received) {n : Nat} (consumed : c.consumedBytes = b.consumedBytes + n) :
    c.unread = b.unread.drop n := by
  rw [hc.unread_eq, hb.unread_eq, consumed, List.drop_drop]

theorem fetchUint32_short {b : InputBuffer} (short : b.readBytes < 4) (value : Nat → UInt8) :
    b.fetchUint32 value = some (false, value, b) := if_pos short

theorem leaveIfDrained_counters (b : InputBuffer) :
    b.leaveIfDrained.limit = b.limit ∧ b.leaveIfDrained.consumedBytes = b.consumedBytes ∧
      b.leaveIfDrained.readBytes = b.readBytes := by
  unfold leaveIfDrained nextBlock
  cases b.after <;> split <;> exact ⟨rfl, rfl, rfl⟩

theorem nextBlock_spec {b : InputBuffer} {d : BufferBlock} {rest : List BufferBlock}
    (ha : b.after = d :: rest) (drained : b.cur.begin = kBlockSize) :
    ∃ c, b.nextBlock = some c ∧ b.leaveIfDrained = c ∧ c.cur = d ∧ c.limit = b.limit ∧
      c.consumedBytes = b.consumedBytes ∧ c.readBytes = b.readBytes := by
  refine ⟨{ b with past := b.past ++ [b.cur], cur := d, after := rest }, ?_, ?_, rfl, rfl, rfl, rfl⟩
  · simp only [nextBlock, ha]
  · simp only [leaveIfDrained, if_pos drained, nextBlock, ha, Option.getD_some]

theorem fetchUint32_whole {b : InputBuffer} {received : List UInt8} (h : Inv b received)
    (enough : 4 ≤ b.readBytes) (whole : b.cur.begin + 4 ≤ kBlockSize) (value : Nat → UInt8) :
    ∃ c, b.fetchUint32 value = some (true, store value 0 (b.unread.take 4), c) ∧ Inv c received ∧
      c.consumedBytes = b.consumedBytes + 4 ∧ (c.readBytes : Int) = b.readBytes - 4 ∧
      c.limit = b.limit := by
  have hread : ((sizeAdd b.readBytes (-4) : Nat) : Int) = b.readBytes - 4 :=
    sizeAdd_of_nonneg (by omega)
  have hroom := h.room (n := 4) (by omega) (by omega)
  have hcopy : b.copyLen = 4 := by unfold copyLen; omega
  have hheld := BufferBlock.held_length h.cur_wf
  have hdata : slice b.cur.data b.cur.begin.toNat 4 = b.unread.take 4 := by
    rw [unread, chain, List.flatMap_cons, List.take_append_of_le_length (by omega),
      BufferBlock.held, slice_take _ _ _ _ (by omega)]
  have hkeep := leaveIfDrained_counters (b.consume 4)
  refine ⟨{ (b.consume 4).leaveIfDrained with
      consumedBytes := b.consumedBytes + 4, readBytes := sizeAdd b.readBytes (-4) },
    ?_, h.advance (n := 4) (by decide) hroom ⟨rfl, rfl, rfl⟩ rfl hread
      (hkeep.1 ▸ h.limit_range), rfl, hread, hkeep.1⟩
  have long : ¬ b.readBytes < 4 := by omega
  simp only [fetchUint32, if_neg long, hcopy, if_neg (show ¬ (4 : Int) < 4 by decide),
    Option.map_some, Int.reduceToNat, hdata]
  rfl

theorem fetchUint32_cut {b : InputBuffer} {received : List UInt8} (h : Inv b received)
    (enough : 4 ≤ b.readBytes) (cut : kBlockSize < b.cur.begin + 4) (value : Nat → UInt8) :
    ∃ v c, b.fetchUint32 value = some (true, v, c) ∧ Inv c received ∧
      c.consumedBytes = b.consumedBytes + 4 ∧ (c.readBytes : Int) = b.readBytes - 4 ∧
      c.limit = b.limit := by
  have hf := h.filled
  have hread : ((sizeAdd b.readBytes (-4) : Nat) : Int) = b.readBytes - 4 :=
    sizeAdd_of_nonneg (by omega)
  cases ha : b.after with
  | nil =>
    have hlen := h.unread_length
    have hheld := BufferBlock.held_length h.cur_wf
    rw [ha] at hf
    rw [unread, chain, ha, List.flatMap_cons, List.flatMap_nil, List.append_nil] at hlen
    have := hf.2
    omega
  | cons d rest =>
    have hlt := h.left_drained (by rw [ha]; simp)
    rw [ha] at hf
    have hend := hf.1
    have hcopy : b.copyLen = kBlockSize - b.cur.begin := by unfold copyLen; omega
    obtain ⟨e, hnext, hleave, hcur, hlim, hcons, hreads⟩ :=
      nextBlock_spec (b := b.consume b.copyLen)
      ha (by simp only [consume]; omega)
    have hr₁ : ((sizeAdd b.readBytes (-b.copyLen) : Nat) : Int) = b.readBytes + -b.copyLen :=
      sizeAdd_of_nonneg (by omega)
    have hc₁ : ((sizeAdd b.consumedBytes b.copyLen : Nat) : Int) = b.consumedBytes + b.copyLen :=
      sizeAdd_of_nonneg (by omega)
    have first : Inv { e with
        consumedBytes := sizeAdd b.consumedBytes b.copyLen
        readBytes := sizeAdd b.readBytes (-b.copyLen) } received :=
      h.advance (n := b.copyLen) (by omega) (by omega) (hleave ▸ ⟨rfl, rfl, rfl⟩) hc₁ hr₁
        (hlim ▸ h.limit_range)
    have hroom := first.room (n := 4 - b.copyLen) (by simp only [hr₁]; omega)
      (by have := (by decide : (4 : Int) ≤ kBlockSize)
          simp only [hcur, hf.2.1]
          omega)
    have hkeep := leaveIfDrained_counters (e.consume (4 - b.copyLen))
    have same : SameChain (e.consume (4 - b.copyLen)).leaveIfDrained
        (({ e with
          consumedBytes := sizeAdd b.consumedBytes b.copyLen
          readBytes := sizeAdd b.readBytes (-b.copyLen) } : InputBuffer).consume
            (4 - b.copyLen)).leaveIfDrained := by
      apply SameChain.leaveIfDrained
      exact SameChain.consume ⟨rfl, rfl, rfl⟩ _
    refine ⟨store (store value 0 (slice b.cur.data b.cur.begin.toNat b.copyLen.toNat))
        (4 * b.copyLen).toNat (slice e.cur.data e.cur.begin.toNat (4 - b.copyLen).toNat),
      { (e.consume (4 - b.copyLen)).leaveIfDrained with
        consumedBytes := b.consumedBytes + 4, readBytes := sizeAdd b.readBytes (-4) },
      ?_, first.advance (n := 4 - b.copyLen) (by omega) hroom same ?_ ?_ ?_, rfl, hread,
      hkeep.1.trans hlim⟩
    · have long : ¬ b.readBytes < 4 := by omega
      have short : b.copyLen < 4 := by omega
      have hcons' : (e.consume (4 - b.copyLen)).consumedBytes = b.consumedBytes := hcons
      have hreads' : (e.consume (4 - b.copyLen)).readBytes = b.readBytes := hreads
      simp only [fetchUint32, if_neg long, if_pos short, hnext, Option.map_some, hcons', hreads']
    · simp only [hc₁]
      omega
    · simp only [hread, hr₁]
      omega
    · rw [hkeep.1]
      exact hlim ▸ h.limit_range

end InputBuffer

end Xuanqiong
