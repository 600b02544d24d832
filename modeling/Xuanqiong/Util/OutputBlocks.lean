import Xuanqiong.Util.OutputQueue
import Xuanqiong.Util.ZeroCopy

/-! How many blocks the output buffer holds. Only the first block of the chain is ever sent
from, and it is freed with its last byte, so all between the first and the last are full of
pending bytes. -/
namespace Xuanqiong

namespace OutputBuffer

variable {b c : OutputBuffer}

def begins (b : OutputBuffer) : List Int := b.blocks.map BufferBlock.begin

/- Nothing behind the first block has been sent. -/
def Compact (b : OutputBuffer) : Prop := ∀ begin ∈ b.begins.tail, begin = 0

theorem Compact.same (h : b.Compact) (begins : c.begins = b.begins) : c.Compact := by
  rw [Compact, begins]
  exact h

theorem init_compact : init.Compact := by simp [Compact, begins, blocks, init]

theorem pushBlock_begins (b : OutputBuffer) : b.pushBlock.begins = b.begins ++ [0] := by
  rw [begins, pushBlock_blocks, List.map_append]
  rfl

theorem Compact.pushBlock (h : b.Compact) : b.pushBlock.Compact := by
  intro begin hb
  have some : b.begins ≠ [] := by simp [begins, blocks]
  rw [pushBlock_begins, List.tail_append_of_ne_nil some] at hb
  rcases List.mem_append.mp hb with hb | hb
  · exact h begin hb
  · exact List.mem_singleton.mp hb

theorem Compact.pushIfFull (h : b.Compact) : b.pushIfFull.Compact := by
  unfold OutputBuffer.pushIfFull
  split
  · exact h.pushBlock
  · exact h

theorem Compact.next (h : b.Compact) : b.next.2.Compact :=
  h.pushIfFull.same (by simp [begins, blocks, OutputBuffer.next])

theorem Compact.backUp (h : b.Compact) (count : Int) : (b.backUp count).Compact :=
  h.same (by simp [begins, blocks, OutputBuffer.backUp])

theorem Compact.poke (h : b.Compact) (r : Region) (bs : List UInt8) : (b.poke r bs).Compact := by
  have keeps : ∀ l : BufferBlock,
      (if l.addr = r.addr then { l with data := store l.data r.off.toNat bs } else l).begin =
        l.begin := by
    intro l
    split <;> rfl
  refine h.same ?_
  simp [begins, blocks, OutputBuffer.poke, keeps, Function.comp_def]

theorem Compact.copyIn (h : b.Compact) (bs : List UInt8) : (b.copyIn bs).Compact :=
  h.same (by simp [begins, blocks, OutputBuffer.copyIn])

theorem Compact.appendLoop {fuel : Nat} {bs : List UInt8} (h : b.Compact)
    (run : OutputBuffer.appendLoop fuel b bs = some c) : c.Compact := by
  induction fuel generalizing b bs with
  | zero => cases run
  | succ fuel ih =>
    unfold OutputBuffer.appendLoop at run
    split at run
    · exact ih (h.copyIn _).pushIfFull run
    · cases run
      exact h

theorem Compact.serialize {junk : Nat → UInt8} {fuel : Nat} {bs : List UInt8} (h : b.Compact)
    (run : OutputBuffer.serialize junk fuel b bs = some c) : c.Compact := by
  induction fuel generalizing b bs with
  | zero =>
    cases bs with
    | nil =>
      cases run
      exact h
    | cons => cases run
  | succ fuel ih =>
    cases bs with
    | nil =>
      simp only [OutputBuffer.serialize, Option.some.injEq] at run
      exact run ▸ h
    | cons byte rest =>
      have filled := h.next.poke b.next.1
      simp only [OutputBuffer.serialize] at run
      split at run
      · cases run
        exact (filled _).backUp _
      · exact ih (filled _) run

theorem Compact.sendOnce (h : b.Compact) (left : Int) : (b.sendOnce left).1.Compact := by
  cases hf : b.front with
  | nil =>
    simp only [OutputBuffer.sendOnce, cur, setCur, hf]
    split <;> simp [Compact, begins, blocks, dropCur]
  | cons first rest =>
    have behind : ∀ begin ∈ (rest ++ [b.last]).map BufferBlock.begin, begin = 0 := by
      simpa only [Compact, begins, blocks, hf, List.cons_append, List.map_cons,
        List.tail_cons] using h
    simp only [OutputBuffer.sendOnce, cur, setCur, hf]
    split
    · intro begin hb
      exact behind begin (List.mem_of_mem_tail hb)
    · exact behind

theorem Compact.sendAddLoop {fuel : Nat} {left : Int} (h : b.Compact)
    (run : OutputBuffer.sendAddLoop fuel b left = some c) : c.Compact := by
  induction fuel generalizing b left with
  | zero => cases run
  | succ fuel ih =>
    unfold OutputBuffer.sendAddLoop at run
    split at run
    · exact ih (h.sendOnce left) run
    · cases run
      exact h

theorem Compact.sendAdd {n : Int} (h : b.Compact) (run : b.sendAdd n = some c) : c.Compact := by
  unfold OutputBuffer.sendAdd at run
  split at run
  · cases run
    exact h
  · exact Compact.sendAddLoop (b := { b with toWriteBytes := sizeAdd b.toWriteBytes (-n) }) h run

/-- Two blocks at most are not full of pending bytes. -/
theorem Compact.length_le (h : b.Compact) (inv : b.Inv) :
    b.blocks.length ≤ b.pending.length / kBlockSize.toNat + 2 := by
  cases hf : b.front with
  | nil => simp [blocks, hf]
  | cons first rest =>
    have whole : ∀ blk ∈ rest, blk.held.length = kBlockSize.toNat := by
      intro blk hb
      have full := inv.full blk (by rw [hf]; exact List.mem_cons_of_mem _ hb)
      have unsent : blk.begin = 0 := by
        apply h
        simp only [begins, blocks, hf, List.cons_append, List.map_cons, List.tail_cons,
          List.map_append]
        exact List.mem_append_left _ (List.mem_map_of_mem hb)
      rw [BufferBlock.held, slice_length, full, unsent, Int.sub_zero]
    have between : (rest.flatMap BufferBlock.held).length = rest.length * kBlockSize.toNat := by
      rw [List.length_flatMap, List.map_congr_left whole, List.map_const', List.sum_replicate_nat]
    have total : b.pending.length =
        first.held.length + rest.length * kBlockSize.toNat + b.last.held.length := by
      rw [pending_eq, hf, List.flatMap_cons, List.length_append, List.length_append, between]
    have some : rest.length ≤ b.pending.length / kBlockSize.toNat := by
      rw [Nat.le_div_iff_mul_le (by decide), total]
      omega
    simp only [blocks, hf, List.length_append, List.length_cons, List.length_nil]
    omega

end OutputBuffer

end Xuanqiong
