import Mathlib.Data.List.Nodup
import Xuanqiong.Base.Machine
import Xuanqiong.Util.OutputOps

/-! The output buffer as a FIFO queue of bytes. The queue is stated on its own, with
no blocks in it; every run of the buffer is then a run of the queue. -/
namespace Xuanqiong

namespace OutputBuffer

theorem readRegion_of_mem {b : OutputBuffer} (h : Shape b) {blk : BufferBlock}
    (hb : blk ∈ b.blocks) (r : Region) (same : r.addr = blk.addr) :
    b.readRegion r = some (slice blk.data r.off.toNat r.size.toNat) := by
  have inj : ∀ x ∈ b.blocks, x.addr = blk.addr → x = blk :=
    fun x hx he => List.inj_on_of_nodup_map h.distinct hx hb he
  cases hf : b.blocks.find? (fun x => x.addr = r.addr) with
  | none =>
    have := List.find?_eq_none.mp hf blk hb
    simp [same] at this
  | some x =>
    have hx : x.addr = r.addr := by simpa using List.find?_some hf
    have heq := inj x (List.mem_of_find?_eq_some hf) (hx.trans same)
    simp only [readRegion, hf, heq, Option.map_some]

theorem readRegions_iovecs {b : OutputBuffer} (bs : List BufferBlock)
    (h : ∀ blk ∈ bs, b.readRegion (iovec blk) = some blk.held) :
    b.readRegions (bs.map iovec) = some (bs.flatMap BufferBlock.held) := by
  induction bs with
  | nil => rfl
  | cons blk rest ih =>
    have tail := ih (fun x hx => h x (List.mem_cons_of_mem _ hx))
    simp only [List.map_cons, readRegions, h blk List.mem_cons_self, tail, Option.bind_some,
      Option.map_some, List.flatMap_cons]

theorem Grows.readRegions {b c : OutputBuffer} (hg : Grows b c) (hb : Shape b) (hc : Shape c) :
    c.readRegions b.getIovecs = some ((b.blocks.take IOV_MAX).flatMap BufferBlock.held) := by
  obtain ⟨l, more, hblocks, haddr, hbegin, _, hdata⟩ := hg
  apply readRegions_iovecs
  intro blk hm
  rcases mem_blocks.mp (List.mem_of_mem_take hm) with hf | rfl
  · have hmem : blk ∈ c.blocks := by rw [hblocks]; exact List.mem_append_left _ hf
    exact readRegion_of_mem hc hmem _ rfl
  · have hmem : l ∈ c.blocks := by rw [hblocks]; simp
    have wf := hb.last_wf
    have h0 := wf.nonneg
    have h1 := wf.ordered
    rw [readRegion_of_mem hc hmem (iovec b.last) haddr.symm]
    congr 1
    apply List.map_congr_left
    intro i hi
    have hi' := List.mem_range'_1.mp hi
    simp only [iovec] at hi'
    exact hdata i (by omega)

theorem Grows.pending {b c : OutputBuffer} (hg : Grows b c) (hb : Shape b) :
    b.pending <+: c.pending := by
  obtain ⟨l, more, hblocks, _, hbegin, hend, hdata⟩ := hg
  have h0 := hb.last_wf.nonneg
  have h1 := hb.last_wf.ordered
  have hsize : (l.end_ - l.begin).toNat =
      (b.last.end_ - b.last.begin).toNat + (l.end_ - b.last.end_).toNat := by omega
  have hlast : b.last.held = slice l.data b.last.begin.toNat
      (b.last.end_ - b.last.begin).toNat := by
    apply List.map_congr_left
    intro i hi
    have hi' := List.mem_range'_1.mp hi
    exact (hdata i (by omega)).symm
  have hl : b.last.held <+: l.held := by
    rw [hlast, BufferBlock.held, hsize, hbegin, ← slice_append]
    exact List.prefix_append _ _
  rw [OutputBuffer.pending, OutputBuffer.pending, hblocks, blocks, List.flatMap_append,
    List.flatMap_append, List.flatMap_cons, List.prefix_append_right_inj]
  simp only [List.flatMap_cons, List.flatMap_nil, List.append_nil]
  exact hl.trans (List.prefix_append _ _)

theorem take_pending (b : OutputBuffer) :
    (b.blocks.take IOV_MAX).flatMap BufferBlock.held <+: b.pending := by
  have split : b.pending = (b.blocks.take IOV_MAX).flatMap BufferBlock.held ++
      (b.blocks.drop IOV_MAX).flatMap BufferBlock.held := by
    rw [← List.flatMap_append, List.take_append_drop]
    rfl
  rw [split]
  exact List.prefix_append _ _

end OutputBuffer

/- The operations of the writers and of the sender. A region of `next` comes with the
bytes it is filled with, a system call with the count it reported. -/
inductive OutputOp where
  | append (bs : List UInt8)
  | next (fill : List UInt8)
  | backUp (count : Int)
  | sendAdd (nwrite : Int)

/-- What the buffer is for: bytes enter at the end and leave at the front. `region` is
the size last handed out, as long as it may still be given back. -/
structure ByteQueue where
  contents : List UInt8
  region : Int

def queueMachine : Machine ByteQueue OutputOp where
  start := ⟨[], 0⟩
  step q
    | .append bs => some ⟨q.contents ++ bs, 0⟩
    | .next fill => if fill = [] then none else some ⟨q.contents ++ fill, fill.length⟩
    | .backUp k =>
      if 0 ≤ k ∧ k ≤ q.region then some ⟨q.contents.take (q.contents.length - k.toNat), 0⟩ else none
    | .sendAdd n => if n ≤ q.contents.length then some ⟨q.contents.drop n.toNat, 0⟩ else none

structure OutputRun where
  buf : OutputBuffer
  region : Int

/- `back_up` is called right after a `next`, with at most what that handed out;
`send_add` is called with at most `bytes()`. -/
def outputMachine : Machine OutputRun OutputOp where
  start := ⟨OutputBuffer.init, 0⟩
  step s
    | .append bs => (s.buf.append bs).map (fun b => ⟨b, 0⟩)
    | .next fill =>
      if (fill.length : Int) = s.buf.next.1.size then
        some ⟨s.buf.next.2.poke s.buf.next.1 fill, s.buf.next.1.size⟩
      else none
    | .backUp k => if 0 ≤ k ∧ k ≤ s.region then some ⟨s.buf.backUp k, 0⟩ else none
    | .sendAdd n => if n ≤ s.buf.bytes then (s.buf.sendAdd n).map (fun b => ⟨b, 0⟩) else none

/-- The buffer holds what the queue holds, and what may be given back is unsent. -/
structure Refines (s : OutputRun) (q : ByteQueue) : Prop where
  inv : s.buf.Inv
  contents : s.buf.pending = q.contents
  region : s.region = q.region
  unsent : s.buf.last.begin + s.region ≤ s.buf.last.end_

theorem Refines.settled {b : OutputBuffer} {bs : List UInt8} (inv : b.Inv) (h : b.pending = bs) :
    Refines ⟨b, 0⟩ ⟨bs, 0⟩ :=
  ⟨inv, h, rfl, by have := inv.last_wf.ordered; simp only; omega⟩

theorem step_refines (s : OutputRun) (q : ByteQueue) (op : OutputOp) (s' : OutputRun)
    (h : Refines s q) (hs : outputMachine.step s op = some s') :
    ∃ q', queueMachine.step q op = some q' ∧ Refines s' q' := by
  cases op with
  | append bs =>
    obtain ⟨b, hb, inv, _, hp⟩ := OutputBuffer.append_spec h.inv bs
    simp only [outputMachine, hb, Option.map_some, Option.some.injEq] at hs
    subst hs
    exact ⟨_, rfl, .settled inv (by rw [hp, h.contents])⟩
  | next fill =>
    simp only [outputMachine] at hs
    split at hs
    · rename_i filled
      cases Option.some.inj hs
      obtain ⟨inv, _, hp, hend, hroom⟩ := OutputBuffer.next_fill_spec h.inv fill filled
      have positive := (OutputBuffer.next_region h.inv).2.2.1
      have hne : fill ≠ [] := by rintro rfl; simp only [List.length_nil] at filled; omega
      refine ⟨⟨q.contents ++ fill, fill.length⟩, if_neg hne, inv,
        by rw [hp, h.contents], filled.symm, ?_⟩
      simp only [← filled, hend]
      exact hroom
    · cases hs
  | backUp k =>
    simp only [outputMachine] at hs
    split at hs
    · rename_i allowed
      cases Option.some.inj hs
      have hunsent := h.unsent
      obtain ⟨inv, hp, _, _⟩ := OutputBuffer.backUp_spec h.inv allowed.1 (by omega)
      rw [h.region] at allowed
      exact ⟨_, if_pos allowed, .settled inv (by rw [hp, h.contents])⟩
    · cases hs
  | sendAdd n =>
    simp only [outputMachine] at hs
    split at hs
    · rename_i allowed
      obtain ⟨b, hb, inv, hp⟩ := OutputBuffer.sendAdd_spec h.inv allowed
      simp only [hb, Option.map_some, Option.some.injEq] at hs
      subst hs
      have hlen : n ≤ q.contents.length := by
        rw [← h.contents, ← h.inv.counted]
        exact allowed
      exact ⟨_, if_pos hlen, .settled inv (by rw [hp, h.contents])⟩
    · cases hs

theorem backUp_conserves {s : OutputRun} {sent appended : List UInt8}
    (h : Refines s ⟨s.buf.pending, s.region⟩) (total : sent ++ s.buf.pending = appended) (k : Int)
    (q : ByteQueue) (hq : queueMachine.step ⟨s.buf.pending, s.region⟩ (.backUp k) = some q) :
    sent ++ q.contents = appended.take (appended.length - k.toNat) := by
  simp only [queueMachine] at hq
  split at hq
  · rename_i allowed
    cases Option.some.inj hq
    have hunsent := h.unsent
    have hlen := OutputBuffer.last_held_le h.inv
    have hcount := h.inv.counted
    have hcut : appended.length - k.toNat = sent.length + (s.buf.pending.length - k.toNat) := by
      rw [← total, List.length_append]
      omega
    rw [hcut, ← total, List.take_length_add_append]
  · cases hq

theorem start_refines : Refines outputMachine.start queueMachine.start :=
  .settled OutputBuffer.init_inv rfl

/-- Every run of the buffer is a run of the queue, and in the state it ends in the
buffer counts, holds and hands to the kernel what the queue contains. No operation
gets stuck there, and the byte counter stays above zero. -/
theorem output_buffer_refines_queue (ops : List OutputOp) (s : OutputRun)
    (h : outputMachine.run outputMachine.start ops = some s) :
    ∃ q, queueMachine.run queueMachine.start ops = some q ∧
      s.buf.bytes = q.contents.length ∧ s.buf.pending = q.contents ∧
      0 < s.buf.next.1.size ∧
      (∀ bs, ∃ b, s.buf.append bs = some b) ∧
      (∀ n : Int, n ≤ s.buf.bytes → ∃ b, s.buf.sendAdd n = some b) ∧
      (∀ k, 0 ≤ k → k ≤ s.region → min k s.buf.last.end_ ≤ s.buf.toWriteBytes) ∧
      ∃ sent, s.buf.readRegions s.buf.getIovecs = some sent ∧ sent <+: q.contents ∧
        (s.buf.blocks.length ≤ IOV_MAX → sent = q.contents) := by
  obtain ⟨q, hq, rel⟩ := Machine.run_simulates step_refines start_refines h
  have inv := rel.inv
  refine ⟨q, hq, by rw [← rel.contents]; exact inv.counted, rel.contents,
    (OutputBuffer.next_region inv).2.2.1, ?_, ?_, ?_, ?_⟩
  · intro bs
    obtain ⟨b, hb, _⟩ := OutputBuffer.append_spec inv bs
    exact ⟨b, hb⟩
  · intro n hn
    obtain ⟨b, hb, _⟩ := OutputBuffer.sendAdd_spec inv hn
    exact ⟨b, hb⟩
  · intro k h0 h1
    have hunsent := rel.unsent
    have := (OutputBuffer.backUp_spec inv h0 (by omega)).2.2.1
    omega
  · refine ⟨_, (OutputBuffer.Grows.refl s.buf).readRegions inv.toShape inv.toShape, ?_, ?_⟩
    · rw [← rel.contents]
      exact s.buf.take_pending
    · intro short
      rw [List.take_of_length_le short]
      exact rel.contents

theorem output_buffer_refines_queue_at_reply :
    ∃ s q, outputMachine.run outputMachine.start
        [.append [7, 0, 0, 0], .append [1, 2, 3, 4, 5, 6, 7], .sendAdd 6, .append [9]] = some s ∧
      queueMachine.run queueMachine.start
        [.append [7, 0, 0, 0], .append [1, 2, 3, 4, 5, 6, 7], .sendAdd 6, .append [9]] = some q ∧
      s.buf.pending = q.contents := by
  obtain ⟨s, hs⟩ : ∃ s, outputMachine.run outputMachine.start
      [.append [7, 0, 0, 0], .append [1, 2, 3, 4, 5, 6, 7], .sendAdd 6, .append [9]] = some s :=
    ⟨_, rfl⟩
  obtain ⟨q, hq, _, hp, _⟩ := output_buffer_refines_queue _ s hs
  exact ⟨s, q, hs, hq, hp⟩

end Xuanqiong
