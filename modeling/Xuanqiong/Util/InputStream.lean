import Xuanqiong.Base.Machine
import Xuanqiong.Util.InputOps

/-! The input buffer as a byte stream with a read position, along whole runs. -/
namespace Xuanqiong

namespace InputBuffer

/- A read of `bs`: the kernel stores them, `recv_add` counts them. -/
def receive (b : InputBuffer) (bs : List UInt8) : InputBuffer := (b.fill bs).recvAdd bs.length

def writeBlock (bs : List UInt8) (l : BufferBlock) : BufferBlock :=
  { l with data := store l.data l.end_.toNat bs, end_ := l.end_ + bs.length }

theorem mapLast_mapLast (f g : BufferBlock → BufferBlock) (c : BufferBlock)
    (rest : List BufferBlock) :
    mapLast g (mapLast f c rest).1 (mapLast f c rest).2 = mapLast (fun l => g (f l)) c rest := by
  induction rest generalizing c with
  | nil => rfl
  | cons n rest ih => simp only [mapLast, ih n]

theorem mapLast_id {f : BufferBlock → BufferBlock} (hf : ∀ l, f l = l) (c : BufferBlock)
    (rest : List BufferBlock) : mapLast f c rest = (c, rest) := by
  induction rest generalizing c with
  | nil => simp only [mapLast, hf]
  | cons n rest ih => simp only [mapLast, ih n]

theorem mapLast_last (f : BufferBlock → BufferBlock) (c : BufferBlock) (rest : List BufferBlock) :
    (mapLast f c rest).2.getLastD (mapLast f c rest).1 = f (rest.getLastD c) := by
  induction rest generalizing c with
  | nil => rfl
  | cons n rest ih => simp only [mapLast, List.getLastD_cons, ih n]

theorem writeBlock_written {l : BufferBlock} (h : 0 ≤ l.end_) (bs : List UInt8) :
    (writeBlock bs l).written = l.written ++ bs := by
  have size : (l.end_ + bs.length).toNat = l.end_.toNat + bs.length := by omega
  simp only [BufferBlock.written, writeBlock, size]
  rw [← slice_append, slice_store_below _ _ _ _ _ (by omega), Nat.zero_add, slice_store_self]

theorem mapLast_written {c : BufferBlock} {rest : List BufferBlock} (h : Filled c rest)
    (bs : List UInt8) :
    ((mapLast (writeBlock bs) c rest).1 :: (mapLast (writeBlock bs) c rest).2).flatMap
        BufferBlock.written = (c :: rest).flatMap BufferBlock.written ++ bs := by
  induction rest generalizing c with
  | nil => simp [mapLast, writeBlock_written h.1]
  | cons n rest ih =>
    have tail := ih h.2.2
    rw [List.flatMap_cons] at tail
    simp only [mapLast, List.flatMap_cons, List.append_assoc, tail]

def Extends (n : Nat) (f : BufferBlock → BufferBlock) : Prop :=
  ∀ l, (f l).begin = l.begin ∧ (f l).end_ = l.end_ + n

theorem writeBlock_extends (bs : List UInt8) : Extends bs.length (writeBlock bs) :=
    fun _ => ⟨rfl, rfl⟩

section

variable {f : BufferBlock → BufferBlock} {n : Nat} {c : BufferBlock} {rest : List BufferBlock}

theorem mapLast_first (hf : Extends n f) (c : BufferBlock) (rest : List BufferBlock) :
    (mapLast f c rest).1.begin = c.begin ∧ c.end_ ≤ (mapLast f c rest).1.end_ := by
  cases rest with
  | nil =>
    refine ⟨(hf c).1, ?_⟩
    simp only [mapLast, (hf c).2]
    omega
  | cons d rest => exact ⟨rfl, Int.le_refl _⟩

theorem mapLast_filled (hf : Extends n f) (h : Filled c rest)
    (room : (rest.getLastD c).end_ + n < kBlockSize) :
    Filled (mapLast f c rest).1 (mapLast f c rest).2 := by
  induction rest generalizing c with
  | nil =>
    have := h.1
    simp only [List.getLastD_nil] at room
    simp only [mapLast, Filled, (hf c).2]
    omega
  | cons d rest ih =>
    rw [List.getLastD_cons] at room
    exact ⟨h.1, (mapLast_first hf d rest).1.trans h.2.1, ih h.2.2 room⟩

theorem mapLast_filled_push (hf : Extends n f) (h : Filled c rest) (addr : Nat)
    (full : (rest.getLastD c).end_ + n = kBlockSize) :
    Filled (mapLast f c rest).1 ((mapLast f c rest).2 ++ [newBlock addr]) := by
  induction rest generalizing c with
  | nil => exact ⟨(hf c).2.trans full, rfl, Int.le_refl 0, kBlockSize_pos⟩
  | cons d rest ih =>
    rw [List.getLastD_cons] at full
    exact ⟨h.1, (mapLast_first hf d rest).1.trans h.2.1, ih h.2.2 full⟩

end

theorem receive_nil (b : InputBuffer) : b.receive [] = b := by
  have same : ∀ l : BufferBlock,
      ({ l with data := store l.data l.end_.toNat [] } : BufferBlock) = l := by
    intro l
    have hd : store l.data l.end_.toNat [] = l.data := by
      funext i
      simp [store]
    rw [hd]
  simp only [receive, fill, onLast, mapLast_id same]
  rfl

theorem receive_eq (b : InputBuffer) (bs : List UInt8) (some : bs ≠ []) :
    b.receive bs =
      if b.last.end_ + bs.length = kBlockSize then
        { b with
          cur := (mapLast (writeBlock bs) b.cur b.after).1
          after := (mapLast (writeBlock bs) b.cur b.after).2 ++ [newBlock b.allocated]
          readBytes := sizeAdd b.readBytes bs.length, allocated := b.allocated + 1 }
      else
        { b with
          cur := (mapLast (writeBlock bs) b.cur b.after).1
          after := (mapLast (writeBlock bs) b.cur b.after).2
          readBytes := sizeAdd b.readBytes bs.length } := by
  have hpos : 0 < (bs.length : Int) := by
    have := List.length_pos_iff.mpr some
    omega
  have hlast := mapLast_last (writeBlock bs) b.cur b.after
  have hboth := mapLast_mapLast
    (fun l : BufferBlock => { l with data := store l.data l.end_.toNat bs })
    (fun l : BufferBlock => { l with end_ := l.end_ + bs.length }) b.cur b.after
  simp only [receive, fill, recvAdd, if_pos hpos, onLast, hboth, last]
  have hfull : ((mapLast (fun l : BufferBlock =>
      { l with
        data := store l.data l.end_.toNat bs
        end_ := l.end_ + bs.length }) b.cur b.after).2.getLastD
      (mapLast (fun l : BufferBlock =>
        { l with
          data := store l.data l.end_.toNat bs
          end_ := l.end_ + bs.length }) b.cur b.after).1).end_ =
      (b.after.getLastD b.cur).end_ + bs.length := congrArg BufferBlock.end_ hlast
  rw [hfull]
  rfl

theorem receive_written {b : InputBuffer} (h : Filled b.cur b.after) (bs : List UInt8) :
    (b.receive bs).chain.flatMap BufferBlock.written =
      b.chain.flatMap BufferBlock.written ++ bs := by
  by_cases some : bs = []
  · rw [some, receive_nil, List.append_nil]
  · have written := mapLast_written h bs
    rw [receive_eq b bs some]
    split
    · simp only [chain] at written ⊢
      rw [← List.cons_append, List.flatMap_append, written]
      simp [BufferBlock.written, newBlock]
    · exact written

theorem receive_counters (b : InputBuffer) (bs : List UInt8) :
    (b.receive bs).readBytes = b.readBytes + bs.length ∧
      (b.receive bs).cur.begin = b.cur.begin ∧ (b.receive bs).consumedBytes = b.consumedBytes ∧
      (b.receive bs).limit = b.limit := by
  by_cases some : bs = []
  · rw [some, receive_nil]
    exact ⟨rfl, rfl, rfl, rfl⟩
  · have first := (mapLast_first (writeBlock_extends bs) b.cur b.after).1
    have count : sizeAdd b.readBytes bs.length = b.readBytes + bs.length := by
      have := sizeAdd_of_nonneg (a := b.readBytes) (i := bs.length) (by omega)
      omega
    rw [receive_eq b bs some]
    split <;> exact ⟨count, first, rfl, rfl⟩

/-- Received bytes go to the end of the stream and move nothing else. -/
theorem Inv.receive {b : InputBuffer} {received : List UInt8} (h : Inv b received)
    (bs : List UInt8) (room : (bs.length : Int) ≤ b.getBuffer.size) :
    Inv (b.receive bs) (received ++ bs) ∧ (b.receive bs).consumedBytes = b.consumedBytes ∧
      (b.receive bs).limit = b.limit := by
  by_cases some : bs = []
  · subst some
    rw [receive_nil, List.append_nil]
    exact ⟨h, rfl, rfl⟩
  have hcount := h.counted
  have hfirst := mapLast_first (writeBlock_extends bs) b.cur b.after
  have hord := h.ordered
  obtain ⟨m, hm, hw⟩ := h.aligned
  have hbase : (m * kBlockSize).toNat ≤ received.length := by
    have := h.nonneg
    have := Int.mul_nonneg (Int.natCast_nonneg m) (Int.le_of_lt kBlockSize_pos)
    omega
  have hread : ((sizeAdd b.readBytes bs.length : Nat) : Int) = b.readBytes + bs.length :=
    sizeAdd_of_nonneg (by omega)
  have hwritten := receive_written h.filled bs
  have hlast : b.last.end_ + bs.length ≤ kBlockSize := by
    simp only [getBuffer] at room
    omega
  rw [receive_eq b bs some] at hwritten ⊢
  have hcur : (mapLast (writeBlock bs) b.cur b.after).1.begin < kBlockSize ∨ b.after = [] := by
    by_cases ha : b.after = []
    · exact Or.inr ha
    · exact Or.inl (hfirst.1 ▸ h.left_drained ha)
  split at hwritten
  · rename_i full
    rw [if_pos full]
    refine ⟨⟨h.past_full, mapLast_filled_push (writeBlock_extends bs) h.filled _ full, ?_, ?_, ?_,
      ?_, ⟨m, ?_, ?_⟩, h.limit_range⟩, rfl, rfl⟩
    · simp only [hfirst.1]
      exact h.nonneg
    · simp only
      omega
    · intro _
      have hend := h.filled.end_range.2
      have hl := h.filled.last_range.2.1
      cases ha : b.after with
      | nil =>
        have hf := h.filled
        rw [ha] at hf
        have := hf.2
        simp only [mapLast, writeBlock]
        omega
      | cons n rest =>
        have := h.left_drained (by rw [ha]; simp)
        simp only [mapLast]
        omega
    · simp only [List.length_append]
      omega
    · simp only [hfirst.1]
      exact hm
    · rw [List.drop_append_of_le_length hbase, ← hw]
      exact hwritten
  · rename_i partly
    rw [if_neg partly]
    refine ⟨⟨h.past_full, mapLast_filled (writeBlock_extends bs) h.filled ?_, ?_, ?_, ?_, ?_,
      ⟨m, ?_, ?_⟩, h.limit_range⟩, rfl, rfl⟩
    · simp only [last] at hlast partly
      omega
    · simp only [hfirst.1]
      exact h.nonneg
    · simp only
      omega
    · intro hne
      rcases hcur with hcur | ha
      · exact hcur
      · rw [ha] at hne
        exact absurd rfl hne
    · simp only [List.length_append]
      omega
    · simp only [hfirst.1]
      exact hm
    · rw [List.drop_append_of_le_length hbase, ← hw]
      exact hwritten

theorem init_inv : Inv init [] where
  past_full := by intro blk hb; cases hb
  filled := ⟨Int.le_refl 0, kBlockSize_pos⟩
  nonneg := Int.le_refl 0
  ordered := Int.le_refl 0
  left_drained := fun h => absurd rfl h
  counted := rfl
  aligned := ⟨0, by decide, rfl⟩
  limit_range := by decide

end InputBuffer

/- A read comes with the bytes it delivered, `fetch_uint32` with the memory its result
is written to. -/
inductive InputOp where
  | receive (bs : List UInt8)
  | fetchUint32 (value : Nat → UInt8)
  | next
  | backUp (n : Int)
  | pushLimit (limit : Int)
  | popLimit

/- `received` collects the stream, `region` is the size of an immediately preceding `next`. -/
structure InputRun where
  buf : InputBuffer
  received : List UInt8
  region : Int

def inputMachine : Machine InputRun InputOp where
  start := ⟨InputBuffer.init, [], 0⟩
  step s
    | .receive bs =>
      if (bs.length : Int) ≤ s.buf.getBuffer.size then
        some ⟨s.buf.receive bs, s.received ++ bs, 0⟩
      else none
    | .fetchUint32 value => (s.buf.fetchUint32 value).map (fun r => ⟨r.2.2, s.received, 0⟩)
    | .next =>
      match s.buf.next with
      | some (p, b) => some ⟨b, s.received, p.size⟩
      | none => some ⟨s.buf, s.received, 0⟩
    | .backUp n => if 0 ≤ n ∧ n ≤ s.region then some ⟨s.buf.backUp n, s.received, 0⟩ else none
    | .pushLimit l =>
      if 0 ≤ l ∧ l ≤ INT32_MAX then some ⟨s.buf.pushLimit l, s.received, 0⟩ else none
    | .popLimit => some ⟨s.buf.popLimit, s.received, 0⟩

/-- The region of a `next` under a limit still fits below the largest limit. -/
structure InputRun.Inv (s : InputRun) : Prop where
  inv : s.buf.Inv s.received
  region : s.buf.limit ≠ INT32_MAX → s.buf.limit + s.region ≤ INT32_MAX

theorem InputRun.Inv.settled {b : InputBuffer} {received : List UInt8} (h : b.Inv received) :
    InputRun.Inv ⟨b, received, 0⟩ :=
  ⟨h, fun _ => by have := h.limit_range; simp only; omega⟩

theorem InputBuffer.Inv.set_limit {b : InputBuffer} {received : List UInt8} (h : b.Inv received)
    (l : Int) (hl : 0 ≤ l ∧ l ≤ INT32_MAX) : InputBuffer.Inv { b with limit := l } received :=
  ⟨h.past_full, h.filled, h.nonneg, h.ordered, h.left_drained, h.counted, h.aligned, hl⟩

theorem InputBuffer.Inv.fetchUint32 {b : InputBuffer} {received : List UInt8} (h : b.Inv received)
    (value : Nat → UInt8) : ∃ r, b.fetchUint32 value = some r ∧ r.2.2.Inv received := by
  by_cases enough : b.readBytes < 4
  · exact ⟨_, InputBuffer.fetchUint32_short enough value, h⟩
  · by_cases whole : b.cur.begin + 4 ≤ kBlockSize
    · obtain ⟨c, hc, hi, _⟩ := InputBuffer.fetchUint32_whole h (by omega) whole value
      exact ⟨_, hc, hi⟩
    · obtain ⟨v, c, hc, hi, _⟩ := InputBuffer.fetchUint32_cut h (by omega) (by omega) value
      exact ⟨_, hc, hi⟩

theorem input_step_inv (s : InputRun) (op : InputOp) (t : InputRun) (h : s.Inv)
    (hs : inputMachine.step s op = some t) : t.Inv := by
  cases op with
  | receive bs =>
    simp only [inputMachine] at hs
    split at hs
    · rename_i room
      cases Option.some.inj hs
      exact .settled (h.inv.receive bs room).1
    · cases hs
  | fetchUint32 value =>
    obtain ⟨r, hr, hi⟩ := h.inv.fetchUint32 value
    simp only [inputMachine, hr, Option.map_some, Option.some.injEq] at hs
    subst hs
    exact .settled hi
  | next =>
    simp only [inputMachine] at hs
    split at hs
    · rename_i p b hn
      cases Option.some.inj hs
      obtain ⟨hi, h0, _, _, _, _, _, hl⟩ := InputBuffer.next_spec h.inv hn
      refine ⟨hi, ?_⟩
      have := h.inv.limit_range
      intro finite
      simp only at finite ⊢
      split at hl <;> omega
    · cases Option.some.inj hs
      exact .settled h.inv
  | backUp n =>
    simp only [inputMachine] at hs
    split at hs
    · rename_i allowed
      cases Option.some.inj hs
      refine .settled (h.inv.backUp allowed.1 ?_)
      intro finite
      have := h.region finite
      omega
    · cases hs
  | pushLimit l =>
    simp only [inputMachine] at hs
    split at hs
    · rename_i allowed
      cases Option.some.inj hs
      exact .settled (h.inv.set_limit l allowed)
    · cases hs
  | popLimit =>
    cases Option.some.inj hs
    exact .settled (h.inv.set_limit INT32_MAX (by decide))

theorem input_reach_inv {s : InputRun} (h : inputMachine.Reach s) : s.Inv :=
  h.invariant (.settled InputBuffer.init_inv) input_step_inv

theorem mem_dropLast_blocks {b : InputBuffer} {received : List UInt8} (h : b.Inv received) :
    ∀ blk ∈ b.past ++ b.chain.dropLast, blk.end_ = kBlockSize := by
  intro blk hb
  rcases List.mem_append.mp hb with hb | hb
  · exact h.past_full blk hb
  · exact h.filled.last_range.2.2 blk hb

/-- In every reachable state the counters add up to what came in, the blocks from the
current one on hold the stream from the read position on, every block before the last
is full and the last is not, and `next` fails for lack of a limit or of bytes only. -/
theorem input_buffer_refines_stream (s : InputRun) (h : inputMachine.Reach s) :
    s.buf.consumedBytes + s.buf.readBytes = s.received.length ∧
    s.buf.unread = s.received.drop s.buf.consumedBytes ∧
    (∀ blk ∈ s.buf.past ++ s.buf.chain.dropLast, blk.end_ = kBlockSize) ∧
    s.buf.last.end_ < kBlockSize ∧ 0 < s.buf.getBuffer.size ∧
    (s.buf.next = none → s.buf.limit = 0 ∨ s.buf.readBytes = 0) ∧
    ∀ value, ∃ r, s.buf.fetchUint32 value = some r := by
  have inv := (input_reach_inv h).inv
  have hlast : s.buf.last.end_ < kBlockSize := inv.filled.last_range.2.1
  refine ⟨inv.counted, inv.unread_eq, mem_dropLast_blocks inv, hlast, ?_,
    InputBuffer.next_none inv, ?_⟩
  · simp only [InputBuffer.getBuffer]
    omega
  · intro value
    obtain ⟨r, hr, _⟩ := inv.fetchUint32 value
    exact ⟨r, hr⟩

theorem input_buffer_refines_stream_at_prefix :
    ∃ s, inputMachine.run inputMachine.start
        [.receive [2, 0], .receive [0, 0, 8, 9], .fetchUint32 (fun _ => 0), .pushLimit 1, .next,
          .backUp 1] = some s ∧
      s.buf.unread = s.received.drop s.buf.consumedBytes := by
  obtain ⟨s, hs⟩ : ∃ s, inputMachine.run inputMachine.start
      [.receive [2, 0], .receive [0, 0, 8, 9], .fetchUint32 (fun _ => 0), .pushLimit 1, .next,
        .backUp 1] = some s := ⟨_, rfl⟩
  have reached := Machine.reach_run (Machine.ReachWith.start) hs
  exact ⟨s, hs, (input_buffer_refines_stream s reached).2.1⟩

end Xuanqiong
