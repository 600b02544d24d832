import Xuanqiong.Util.OutputBuffer

namespace Xuanqiong.OutputBuffer

theorem Shape.replace_last {b c : OutputBuffer} (h : Shape b) (front : c.front = b.front)
    (count : c.allocated = b.allocated) (addr : c.last.addr = b.last.addr)
    (wf : c.last.Wf ∧ c.last.begin < kBlockSize) : Shape c where
  wf := by
    intro blk hb
    rcases mem_blocks.mp hb with hb | rfl
    · exact h.wf blk (front_mem (front ▸ hb))
    · exact wf
  full := front ▸ h.full
  fresh := by
    intro blk hb
    rw [count]
    rcases mem_blocks.mp hb with hb | rfl
    · exact h.fresh blk (front_mem (front ▸ hb))
    · exact addr ▸ h.fresh b.last b.last_mem
  distinct := by
    have same : c.blocks.map BufferBlock.addr = b.blocks.map BufferBlock.addr := by
      simp [blocks, front, addr]
    exact same ▸ h.distinct

theorem pushBlock_blocks (b : OutputBuffer) :
    b.pushBlock.blocks = b.blocks ++ [newBlock b.allocated] := rfl

theorem Shape.pushBlock {b : OutputBuffer} (h : Shape b) (filled : b.last.end_ = kBlockSize) :
    Shape b.pushBlock where
  wf := by
    intro blk hb
    rw [pushBlock_blocks, List.mem_append, List.mem_singleton] at hb
    rcases hb with hb | rfl
    · exact h.wf blk hb
    · exact ⟨BufferBlock.newBlock_wf _, kBlockSize_pos⟩
  full := by
    intro blk hb
    rcases List.mem_append.mp hb with hb | hb
    · exact h.full blk hb
    · rw [List.mem_singleton.mp hb, filled]
  fresh := by
    intro blk hb
    rw [pushBlock_blocks, List.mem_append, List.mem_singleton] at hb
    rcases hb with hb | rfl
    · exact Nat.lt_succ_of_lt (h.fresh blk hb)
    · exact Nat.lt_succ_self b.allocated
  distinct := by
    rw [pushBlock_blocks, List.map_append, List.nodup_append]
    refine ⟨h.distinct, by simp, ?_⟩
    intro a ha c hc
    obtain ⟨blk, hb, rfl⟩ := List.mem_map.mp ha
    simp only [newBlock, List.map_cons, List.map_nil, List.mem_singleton] at hc
    have := h.fresh blk hb
    omega

@[simp] theorem pushBlock_pending (b : OutputBuffer) : b.pushBlock.pending = b.pending := by
  simp [pending, pushBlock_blocks]

theorem pushBlock_grows (b : OutputBuffer) : Grows b b.pushBlock :=
  ⟨b.last, [newBlock b.allocated], by rw [pushBlock_blocks]; simp [blocks], rfl, rfl,
    Int.le_refl _, fun _ _ => rfl⟩

theorem Shape.last_wf {b : OutputBuffer} (h : Shape b) : b.last.Wf := (h.wf _ b.last_mem).1

theorem last_held_le {b : OutputBuffer} (h : Inv b) :
    b.last.end_ - b.last.begin ≤ b.toWriteBytes := by
  have := BufferBlock.held_length h.last_wf
  rw [h.counted, pending_eq, List.length_append]
  omega

theorem Inv.pushBlock {b : OutputBuffer} (h : Inv b) (filled : b.last.end_ = kBlockSize) :
    Inv b.pushBlock :=
  ⟨h.toShape.pushBlock filled, by rw [pushBlock_pending]; exact h.counted⟩

theorem Inv.pushIfFull {b : OutputBuffer} (h : Inv b) :
    Inv b.pushIfFull ∧ Grows b b.pushIfFull ∧ b.pushIfFull.pending = b.pending ∧
      b.pushIfFull.last.end_ < kBlockSize := by
  unfold OutputBuffer.pushIfFull
  split
  · rename_i filled
    exact ⟨h.pushBlock filled, pushBlock_grows b, pushBlock_pending b, kBlockSize_pos⟩
  · rename_i room
    have := h.last_wf.bounded
    exact ⟨h, Grows.refl b, rfl, by omega⟩

theorem Inv.write_last {b c : OutputBuffer} (h : Inv b) (bs : List UInt8)
    (room : b.last.end_ + bs.length ≤ kBlockSize) (front : c.front = b.front)
    (count : c.allocated = b.allocated)
    (last : c.last = { b.last with
      data := store b.last.data b.last.end_.toNat bs, end_ := b.last.end_ + bs.length })
    (counter : c.toWriteBytes = sizeAdd b.toWriteBytes bs.length) :
    Inv c ∧ Grows b c ∧ c.pending = b.pending ++ bs := by
  have wf := h.wf _ b.last_mem
  have hp : c.pending = b.pending ++ bs := by
    rw [pending_eq, pending_eq, front, last, BufferBlock.held_write wf.1, List.append_assoc]
  have hc : (c.toWriteBytes : Int) = b.toWriteBytes + bs.length := by
    rw [counter, sizeAdd_of_nonneg (by omega)]
  have hwf : c.last.Wf ∧ c.last.begin < kBlockSize := by
    rw [last]
    exact ⟨⟨wf.1.nonneg, by have := wf.1.ordered; simp only; omega, room⟩, wf.2⟩
  refine ⟨⟨h.toShape.replace_last front count (by rw [last]) hwf, ?_⟩, ?_, hp⟩
  · rw [hp, List.length_append, ← h.counted]
    omega
  · refine ⟨c.last, [], by rw [blocks, front], by rw [last], by rw [last], ?_, ?_⟩
    · rw [last]
      simp only
      omega
    · intro i hi
      have below : ¬ b.last.end_.toNat ≤ i := by omega
      rw [last]
      simp only [store, if_neg below]

theorem toWrite_bounds {b : OutputBuffer} (h : Inv b) (bs : List UInt8) :
    0 ≤ b.toWrite bs ∧ b.toWrite bs ≤ bs.length ∧ b.toWrite bs ≤ kBlockSize - b.last.end_ ∧
    (0 < bs.length → b.last.end_ < kBlockSize → 0 < b.toWrite bs) := by
  have := h.last_wf.bounded
  unfold toWrite
  omega

theorem appendOnce_spec {b : OutputBuffer} (h : Inv b) (bs : List UInt8) :
    Inv (b.appendOnce bs).1 ∧ Grows b (b.appendOnce bs).1 ∧
    (b.appendOnce bs).1.pending ++ (b.appendOnce bs).2 = b.pending ++ bs ∧
    (b.appendOnce bs).1.last.end_ < kBlockSize ∧
    ((b.appendOnce bs).2.length : Int) = bs.length - b.toWrite bs := by
  obtain ⟨h0, h1, h2, _⟩ := toWrite_bounds h bs
  have hlen : ((bs.take (b.toWrite bs).toNat).length : Int) = b.toWrite bs := by
    rw [List.length_take]
    omega
  have written := h.write_last (c := b.copyIn (bs.take (b.toWrite bs).toNat))
    (bs.take (b.toWrite bs).toNat) (by omega) rfl rfl rfl rfl
  have room := written.1.pushIfFull
  refine ⟨room.1, written.2.1.trans room.2.1, ?_, room.2.2.2, ?_⟩
  · simp only [appendOnce]
    rw [room.2.2.1, written.2.2, List.append_assoc, List.take_append_drop]
  · simp only [appendOnce, List.length_drop]
    omega

theorem appendLoop_spec (fuel : Nat) {b : OutputBuffer} (h : Inv b) (bs : List UInt8)
    (enough : bs.length + (if b.last.end_ = kBlockSize then 1 else 0) < fuel) :
    ∃ c, appendLoop fuel b bs = some c ∧ Inv c ∧ Grows b c ∧ c.pending = b.pending ++ bs := by
  induction fuel generalizing b bs with
  | zero => omega
  | succ fuel ih =>
    unfold appendLoop
    split
    · rename_i more
      obtain ⟨hinv, hgrow, hpend, hroom, hlen⟩ := appendOnce_spec h bs
      have progress := toWrite_bounds h bs
      have bound := h.last_wf.bounded
      -- a full block costs the turn that replaces it, any other turn writes a byte
      have less : (b.appendOnce bs).2.length +
          (if (b.appendOnce bs).1.last.end_ = kBlockSize then 1 else 0) < fuel := by
        rw [if_neg (by omega)]
        split at enough <;> omega
      obtain ⟨c, hc, ci, cg, cp⟩ := ih hinv _ less
      exact ⟨c, hc, ci, hgrow.trans cg, cp.trans hpend⟩
    · rename_i none
      have hnil : bs = [] := List.eq_nil_of_length_eq_zero (by omega)
      subst hnil
      exact ⟨b, rfl, h, Grows.refl b, (List.append_nil _).symm⟩

theorem append_spec {b : OutputBuffer} (h : Inv b) (bs : List UInt8) :
    ∃ c, b.append bs = some c ∧ Inv c ∧ Grows b c ∧ c.pending = b.pending ++ bs :=
  appendLoop_spec _ h bs (by split <;> omega)

theorem next_region {b : OutputBuffer} (h : Inv b) :
    b.next.1.addr = b.next.2.last.addr ∧ b.next.1.off = b.pushIfFull.last.end_ ∧
    0 < b.next.1.size ∧ b.next.1.off + b.next.1.size = kBlockSize := by
  have room := h.pushIfFull.2.2.2
  refine ⟨rfl, rfl, ?_, ?_⟩ <;> simp only [next] <;> omega

theorem poke_last {b : OutputBuffer} (h : Shape b) (r : Region) (bs : List UInt8)
    (at_last : r.addr = b.last.addr) :
    b.poke r bs = { b with last := { b.last with data := store b.last.data r.off.toNat bs } } := by
  have hne : ∀ blk ∈ b.front, blk.addr ≠ r.addr := by
    intro blk hb
    have hd := h.distinct
    rw [blocks, List.map_append, List.nodup_append] at hd
    exact at_last ▸ hd.2.2 blk.addr (List.mem_map_of_mem hb) b.last.addr (by simp)
  have hfront : b.front.map (fun blk : BufferBlock =>
      if blk.addr = r.addr then { blk with data := store blk.data r.off.toNat bs } else blk) =
      b.front := by
    refine (List.map_congr_left (fun blk hb => ?_)).trans (List.map_id b.front)
    simp only [if_neg (hne blk hb), id]
  have hlast : b.last.addr = r.addr := at_last.symm
  simp only [poke, hfront, if_pos hlast]

theorem next_shape {b : OutputBuffer} (h : Inv b) : Shape b.next.2 := by
  obtain ⟨hi, _, _, hroom⟩ := h.pushIfFull
  have wf := hi.wf _ b.pushIfFull.last_mem
  refine hi.toShape.replace_last rfl rfl rfl ⟨⟨wf.1.nonneg, ?_, ?_⟩, wf.2⟩
  · have := wf.1.ordered
    simp only [next]
    omega
  · simp only [next]
    omega

/-- A region handed out by `next` and filled is the same as the bytes appended. -/
theorem next_fill_spec {b : OutputBuffer} (h : Inv b) (bs : List UInt8)
    (filled : (bs.length : Int) = b.next.1.size) :
    Inv (b.next.2.poke b.next.1 bs) ∧ Grows b (b.next.2.poke b.next.1 bs) ∧
    (b.next.2.poke b.next.1 bs).pending = b.pending ++ bs ∧
    (b.next.2.poke b.next.1 bs).last.end_ = kBlockSize ∧
    (b.next.2.poke b.next.1 bs).last.begin + bs.length ≤ kBlockSize := by
  obtain ⟨hi, hg, hp, hroom⟩ := h.pushIfFull
  have hsize : (bs.length : Int) = kBlockSize - b.pushIfFull.last.end_ := filled
  have hpoke := poke_last (next_shape h) b.next.1 bs rfl
  have written := hi.write_last (c := b.next.2.poke b.next.1 bs) bs (by omega)
    (by rw [hpoke]; rfl) (by rw [hpoke]; rfl)
    (by rw [hpoke]; simp only [next, hsize]) (by rw [hpoke]; simp only [next, hsize])
  refine ⟨written.1, hg.trans written.2.1, by rw [written.2.2, hp], ?_, ?_⟩
  · rw [hpoke]
    simp only [next]
    omega
  · have := hi.last_wf.ordered
    rw [hpoke]
    simp only [next]
    omega

theorem backUp_spec {b : OutputBuffer} (h : Inv b) {k : Int} (h0 : 0 ≤ k)
    (h1 : b.last.begin + k ≤ b.last.end_) :
    Inv (b.backUp k) ∧ (b.backUp k).pending = b.pending.take (b.pending.length - k.toNat) ∧
    k ≤ b.toWriteBytes ∧ (b.backUp k).last = { b.last with end_ := b.last.end_ - k } := by
  have wf := h.wf _ b.last_mem
  have hk : min k b.last.end_ = k := by have := wf.1.nonneg; omega
  have hcount := last_held_le h
  have hlast : (b.backUp k).last = { b.last with end_ := b.last.end_ - k } := by
    simp only [backUp, hk]
  have hlen := BufferBlock.held_length wf.1
  have hp : (b.backUp k).pending = b.pending.take (b.pending.length - k.toNat) := by
    rw [pending_eq, pending_eq, hlast, BufferBlock.held_retract wf.1 h0 (by omega)]
    have hcut : (b.front.flatMap BufferBlock.held ++ b.last.held).length - k.toNat =
        (b.front.flatMap BufferBlock.held).length + (b.last.held.length - k.toNat) := by
      rw [List.length_append]
      omega
    rw [hcut, List.take_length_add_append]
    rfl
  have hshape : Shape (b.backUp k) := by
    refine h.toShape.replace_last rfl rfl (by rw [hlast]) ?_
    rw [hlast]
    exact ⟨⟨wf.1.nonneg, by simp only; omega, by have := wf.1.bounded; simp only; omega⟩, wf.2⟩
  refine ⟨⟨hshape, ?_⟩, hp, by omega, hlast⟩
  have hc : ((b.backUp k).toWriteBytes : Int) = b.toWriteBytes + -k := by
    simp only [backUp, hk]
    exact sizeAdd_of_nonneg (by omega)
  have := h.counted
  rw [hp, List.length_take]
  omega

theorem Shape.tail {b : OutputBuffer} (h : Shape b) {c : BufferBlock} {rest : List BufferBlock}
    (hf : b.front = c :: rest) : Shape { b with front := rest } where
  wf := by
    intro blk hb
    apply h.wf
    rw [blocks, hf]
    exact List.mem_cons_of_mem _ hb
  full := by
    intro blk hb
    apply h.full
    rw [hf]
    exact List.mem_cons_of_mem _ hb
  fresh := by
    intro blk hb
    apply h.fresh
    rw [blocks, hf]
    exact List.mem_cons_of_mem _ hb
  distinct := by
    have hd := h.distinct
    rw [blocks, hf, List.cons_append, List.map_cons, List.nodup_cons] at hd
    exact hd.2

theorem Shape.advance {b : OutputBuffer} (h : Shape b) {c : BufferBlock} {rest : List BufferBlock}
    (hf : b.front = c :: rest) {k : Int} (h0 : 0 ≤ k) (h1 : c.begin + k < kBlockSize) :
    Shape { b with front := { c with begin := c.begin + k } :: rest } where
  wf := by
    intro blk hb
    rcases List.mem_cons.mp hb with hb | hb
    · have wf := (h.wf c (front_mem (by rw [hf]; exact List.mem_cons_self))).1
      have filled := h.full c (by rw [hf]; exact List.mem_cons_self)
      have := wf.nonneg
      subst hb
      exact ⟨⟨by simp only; omega, by simp only; omega, wf.bounded⟩, h1⟩
    · exact (h.tail hf).wf blk hb
  full := by
    intro blk hb
    rcases List.mem_cons.mp hb with hb | hb
    · subst hb
      exact h.full c (by rw [hf]; exact List.mem_cons_self)
    · exact (h.tail hf).full blk hb
  fresh := by
    intro blk hb
    rcases List.mem_cons.mp hb with hb | hb
    · subst hb
      exact h.fresh c (front_mem (by rw [hf]; exact List.mem_cons_self))
    · exact (h.tail hf).fresh blk hb
  distinct := by
    have hd := h.distinct
    rw [blocks, hf] at hd
    exact hd

theorem Shape.renewed {b c : OutputBuffer} (front : c.front = [])
    (last : c.last = newBlock b.allocated) (count : c.allocated = b.allocated + 1) : Shape c where
  wf := by
    intro blk hb
    rw [blocks, front, last, List.nil_append, List.mem_singleton] at hb
    exact hb ▸ ⟨BufferBlock.newBlock_wf _, kBlockSize_pos⟩
  full := by intro blk hb; rw [front] at hb; cases hb
  fresh := by
    intro blk hb
    rw [blocks, front, last, List.nil_append, List.mem_singleton] at hb
    rw [hb, count]
    exact Nat.lt_succ_self _
  distinct := by simp [blocks, front]

theorem sendOnce_spec {b : OutputBuffer} (h : Shape b) {left : Int} (h0 : 0 < left)
    (h1 : left ≤ b.pending.length) :
    Shape (b.sendOnce left).1 ∧ 0 ≤ (b.sendOnce left).2 ∧ (b.sendOnce left).2 < left ∧
    (b.sendOnce left).1.pending = b.pending.drop (left - (b.sendOnce left).2).toNat ∧
    (b.sendOnce left).1.toWriteBytes = b.toWriteBytes := by
  cases hf : b.front with
  | nil =>
    have wf := h.wf _ b.last_mem
    have hlen := BufferBlock.held_length wf.1
    have hp : b.pending = b.last.held := by rw [pending_eq, hf]; rfl
    rw [hp] at h1 ⊢
    have hall : min left (b.last.end_ - b.last.begin) = left := by omega
    have hdrop := BufferBlock.held_consume wf.1 (Int.le_of_lt h0) (by omega)
    simp only [sendOnce, cur, setCur, hf, hall, Int.sub_self, Int.sub_zero]
    have hbound := wf.1.bounded
    split
    · rename_i done
      refine ⟨Shape.renewed (b := b) rfl rfl rfl, Int.le_refl 0, h0, ?_, ?_⟩
      · have hnil : b.last.held.drop left.toNat = [] := by
          apply List.drop_eq_nil_of_le
          omega
        simp [pending_eq, dropCur, hnil]
      · rfl
    · rename_i more
      refine ⟨h.replace_last hf.symm rfl rfl ⟨⟨?_, ?_, wf.1.bounded⟩, ?_⟩, Int.le_refl 0,
        h0, ?_, rfl⟩
      · have := wf.1.nonneg
        simp only
        omega
      · simp only
        omega
      · simp only
        omega
      · rw [pending_eq]
        simpa [hf] using hdrop
  | cons c rest =>
    have hmem : c ∈ b.front := by rw [hf]; exact List.mem_cons_self
    have wf := h.wf c (front_mem hmem)
    have filled := h.full c hmem
    have hlen := BufferBlock.held_length wf.1
    have hp : b.pending = c.held ++ (rest.flatMap BufferBlock.held ++ b.last.held) := by
      rw [pending_eq, hf, List.flatMap_cons, List.append_assoc]
    simp only [sendOnce, cur, setCur, hf]
    have hk : 0 < min left (c.end_ - c.begin) ∧ min left (c.end_ - c.begin) ≤ left ∧
        min left (c.end_ - c.begin) ≤ c.end_ - c.begin := by omega
    revert hk
    generalize min left (c.end_ - c.begin) = k
    intro hk
    have hback : left - (left - k) = k := by omega
    rw [hback, hp]
    split
    · rename_i done
      refine ⟨h.tail hf, by omega, by omega, ?_, rfl⟩
      have hall : k.toNat = c.held.length := by omega
      rw [hall, List.drop_left, pending_eq]
      rfl
    · rename_i more
      refine ⟨h.advance hf (Int.le_of_lt hk.1) (by omega), by omega, by omega, ?_, rfl⟩
      have hdrop := BufferBlock.held_consume wf.1 (Int.le_of_lt hk.1) hk.2.2
      rw [pending_eq, List.drop_append_of_le_length (by omega)]
      simp only [List.flatMap_cons, hdrop, List.append_assoc]

theorem sendAddLoop_spec (fuel : Nat) {b : OutputBuffer} (h : Shape b) {left : Int} (h0 : 0 ≤ left)
    (h1 : left ≤ b.pending.length) (enough : left.toNat < fuel) :
    ∃ c, sendAddLoop fuel b left = some c ∧ Shape c ∧ c.pending = b.pending.drop left.toNat ∧
      c.toWriteBytes = b.toWriteBytes := by
  induction fuel generalizing b left with
  | zero => omega
  | succ fuel ih =>
    unfold sendAddLoop
    split
    · rename_i more
      obtain ⟨hs, hn, hlt, hp, hc⟩ := sendOnce_spec h more h1
      have hlen : ((b.sendOnce left).1.pending.length : Int) =
          b.pending.length - (left - (b.sendOnce left).2) := by
        rw [hp, List.length_drop]
        omega
      obtain ⟨c, he, cs, cp, cc⟩ := ih hs hn (by omega) (by omega)
      refine ⟨c, he, cs, ?_, cc.trans hc⟩
      rw [cp, hp, List.drop_drop]
      congr 1
      omega
    · have hz : left = 0 := by omega
      subst hz
      exact ⟨b, rfl, h, rfl, rfl⟩

theorem sendAdd_spec {b : OutputBuffer} (h : Inv b) {n : Int} (h1 : n ≤ b.bytes) :
    ∃ c, b.sendAdd n = some c ∧ Inv c ∧ c.pending = b.pending.drop n.toNat := by
  unfold sendAdd
  split
  · rename_i none
    have hz : n.toNat = 0 := by omega
    exact ⟨b, rfl, h, by rw [hz]; rfl⟩
  · rename_i some
    have hcount := h.counted
    have hn : n ≤ b.pending.length := by rw [← hcount]; exact h1
    have hs : Shape { b with toWriteBytes := sizeAdd b.toWriteBytes (-n) } :=
      ⟨h.wf, h.full, h.fresh, h.distinct⟩
    obtain ⟨c, he, cs, cp, cc⟩ := sendAddLoop_spec (n.toNat + 1) hs (by omega) hn (by omega)
    refine ⟨c, he, ⟨cs, ?_⟩, cp⟩
    have hsub : (c.toWriteBytes : Int) = b.toWriteBytes + -n := by
      rw [cc]
      exact sizeAdd_of_nonneg (by omega)
    have hlen : c.pending.length = b.pending.length - n.toNat := by rw [cp, List.length_drop]; rfl
    omega

end Xuanqiong.OutputBuffer
