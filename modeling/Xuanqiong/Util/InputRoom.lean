import Xuanqiong.Util.InputStream
import Xuanqiong.Util.ZeroCopy

/-! The last block of the input buffer has room in it whatever the users of the stream do: they move
`begin` and `cur_block_`, and only `recv_add` moves `end`. -/
namespace Xuanqiong

namespace InputBuffer

variable {b c : InputBuffer}

def Roomy (b : InputBuffer) : Prop := Filled b.cur b.after

theorem Inv.roomy {received : List UInt8} (h : b.Inv received) : b.Roomy := h.filled

theorem Roomy.size (h : b.Roomy) : 0 < b.getBuffer.size := by
  have := h.last_range
  simp only [getBuffer, last]
  omega

theorem Roomy.moved (h : b.Roomy) (end_ : c.cur.end_ = b.cur.end_) (after : c.after = b.after) :
    c.Roomy := by
  unfold Roomy
  rw [after]
  exact Filled.moved h end_

theorem Roomy.pushLimit (h : b.Roomy) (limit : Int) : (b.pushLimit limit).Roomy := h

theorem Roomy.nextBlock (h : b.Roomy) (hn : b.nextBlock = some c) : c.Roomy := by
  unfold InputBuffer.nextBlock at hn
  split at hn
  · cases hn
  · rename_i n rest after
    cases hn
    unfold Roomy at h
    rw [after] at h
    exact h.2.2

theorem Roomy.leaveIfDrained (h : b.Roomy) : b.leaveIfDrained.Roomy := by
  unfold InputBuffer.leaveIfDrained
  split
  · cases hn : b.nextBlock with
    | none => exact h
    | some c => exact h.nextBlock hn
  · exact h

theorem Roomy.next (h : b.Roomy) {p : Piece} (hn : b.next = some (p, c)) : c.Roomy := by
  unfold InputBuffer.next at hn
  split at hn
  · cases hn
  · cases hn
    exact Roomy.leaveIfDrained (h.moved rfl rfl)

theorem Roomy.pull (h : b.Roomy) {fuel : Nat} {bytes : List UInt8}
    (run : b.pull fuel = some (bytes, c)) :
    c.Roomy := by
  induction fuel generalizing b bytes with
  | zero => cases run
  | succ fuel ih =>
    unfold InputBuffer.pull at run
    split at run
    · cases run
      exact h
    · rename_i p d hn
      obtain ⟨r, hr, he⟩ := Option.map_eq_some_iff.mp run
      cases he
      exact ih (h.next hn) hr

theorem Roomy.fetchUint32 (h : b.Roomy) {value value' : Nat → UInt8} {ok : Bool}
    (run : b.fetchUint32 value = some (ok, value', c)) : c.Roomy := by
  unfold InputBuffer.fetchUint32 at run
  split at run
  · cases run
    exact h
  · obtain ⟨⟨memory, d⟩, hd, hc⟩ := Option.map_eq_some_iff.mp run
    cases hc
    have roomy : d.Roomy := by
      split at hd
      · obtain ⟨d', hn, he⟩ := Option.map_eq_some_iff.mp hd
        cases he
        exact (Roomy.nextBlock (b := b.consume b.copyLen) (h.moved rfl rfl) hn).moved rfl rfl
      · cases hd
        exact h.moved rfl rfl
    exact Roomy.leaveIfDrained roomy

theorem Roomy.fill (h : b.Roomy) (bs : List UInt8) : (b.fill bs).Roomy := by
  have last := h.last_range
  exact mapLast_filled (n := 0) (fun _ => ⟨rfl, (Int.add_zero _).symm⟩) h (by omega)

theorem fill_size (b : InputBuffer) (bs : List UInt8) :
    (b.fill bs).getBuffer.size = b.getBuffer.size := by
  simp only [getBuffer, last, InputBuffer.fill, onLast]
  rw [mapLast_last]

theorem Roomy.recvAdd (h : b.Roomy) {n : Nat} (fits : (n : Int) ≤ b.getBuffer.size) :
    (b.recvAdd n).Roomy := by
  have grows : Extends n (fun l => { l with end_ := l.end_ + n }) := fun _ => ⟨rfl, rfl⟩
  simp only [getBuffer, last] at fits
  unfold InputBuffer.recvAdd
  split
  · have stop := congrArg BufferBlock.end_
      (mapLast_last (fun l => { l with end_ := l.end_ + n }) b.cur b.after)
    dsimp only
    split
    · rename_i full
      exact mapLast_filled_push grows h _ (stop.symm.trans full)
    · rename_i partly
      have short : (b.after.getLastD b.cur).end_ + n ≠ kBlockSize :=
        fun full => partly (stop.trans full)
      exact mapLast_filled grows h (by omega)
  · exact h

end InputBuffer

end Xuanqiong
