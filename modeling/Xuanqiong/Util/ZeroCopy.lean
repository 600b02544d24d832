import Xuanqiong.Util.InputOps
import Xuanqiong.Util.OutputOps

/-! How protobuf uses the two streams. A parse takes pieces until `Next` fails, a serialization
asks for regions while it has bytes left and gives the rest of the last one back. -/
namespace Xuanqiong

namespace InputBuffer

/- The pieces of a parse, joined; `fuel` bounds the number of calls. -/
def pull : Nat → InputBuffer → Option (List UInt8 × InputBuffer)
  | 0, _ => none
  | fuel + 1, b =>
    match b.next with
    | none => some ([], b)
    | some (p, c) => (pull fuel c).map fun r => (p.data ++ r.1, r.2)

def nexts : Nat → InputBuffer → Option (List Piece × InputBuffer)
  | 0, _ => none
  | calls + 1, b =>
    match b.next with
    | none => some ([], b)
    | some (p, c) => (nexts calls c).map fun r => (p :: r.1, r.2)

def sizes : List Piece → Int
  | [] => 0
  | p :: rest => p.size + sizes rest

theorem pull_eq (calls : Nat) (b : InputBuffer) :
    pull calls b = (nexts calls b).map fun r => (r.1.flatMap Piece.data, r.2) := by
  induction calls generalizing b with
  | zero => rfl
  | succ calls ih =>
    unfold pull nexts
    cases b.next with
    | none => rfl
    | some r =>
      obtain ⟨p, c⟩ := r
      simp only [ih c, Option.map_map]
      rfl

/- The pieces are cut one after the other from the stream at the read position, and the last of
them uses up the bytes or the limit. -/
structure Pieces (b : InputBuffer) (received : List UInt8) (pieces : List Piece) (c : InputBuffer) :
    Prop where
  inv : c.Inv received
  filled : ∀ p ∈ pieces, 0 < p.size ∧ p.data.length = p.size
  nonneg : 0 ≤ sizes pieces
  data : pieces.flatMap Piece.data = b.unread.take (sizes pieces).toNat
  consumed : (c.consumedBytes : Int) = b.consumedBytes + sizes pieces
  read : (c.readBytes : Int) = b.readBytes - sizes pieces
  limit : c.limit = b.limit - (if b.limit = INT32_MAX then 0 else sizes pieces)
  stops : c.limit = 0 ∨ c.readBytes = 0

theorem Pieces.nil {b : InputBuffer} {received : List UInt8} (h : b.Inv received)
    (hn : b.next = none) : Pieces b received [] b where
  inv := h
  filled := by simp
  nonneg := Int.le_refl 0
  data := by simp [sizes]
  consumed := by simp [sizes]
  read := by simp [sizes]
  limit := by simp [sizes]
  stops := next_none h hn

theorem Pieces.cons {b c d : InputBuffer} {received : List UInt8} {p : Piece} {pieces : List Piece}
    (h : b.Inv received) (hn : b.next = some (p, c)) (rest : Pieces c received pieces d) :
    Pieces b received (p :: pieces) d := by
  obtain ⟨hc, pos, le, _, data, consumed, read, limit⟩ := next_spec h hn
  have total : sizes (p :: pieces) = p.size + sizes pieces := rfl
  have nonneg := rest.nonneg
  refine ⟨rest.inv, ?_, by omega, ?_, ?_, ?_, ?_, rest.stops⟩
  · intro q hq
    rcases List.mem_cons.mp hq with rfl | hq
    · refine ⟨pos, ?_⟩
      rw [data, List.length_take, h.unread_length]
      omega
    · exact rest.filled q hq
  · have cut : (sizes (p :: pieces)).toNat = p.size.toNat + (sizes pieces).toNat := by omega
    rw [List.flatMap_cons, rest.data, data, unread_drop h hc (n := p.size.toNat) (by omega), cut,
      List.take_add]
  · rw [rest.consumed, total]
    omega
  · rw [rest.read, total]
    omega
  · have range := h.limit_range
    by_cases free : b.limit = INT32_MAX
    · rw [if_pos free, Int.sub_zero] at limit
      rw [rest.limit, if_pos (limit.trans free), if_pos free, limit]
    · rw [if_neg free] at limit
      have finite : c.limit ≠ INT32_MAX := by omega
      rw [rest.limit, if_neg finite, if_neg free, limit, total]
      omega

theorem nexts_pieces {received : List UInt8} (calls : Nat) {b c : InputBuffer} {pieces : List Piece}
    (h : b.Inv received) (run : nexts calls b = some (pieces, c)) : Pieces b received pieces c := by
  induction calls generalizing b pieces with
  | zero => cases run
  | succ calls ih =>
    unfold nexts at run
    split at run
    · rename_i hn
      cases run
      exact .nil h hn
    · rename_i p d hn
      obtain ⟨r, hr, he⟩ := Option.map_eq_some_iff.mp run
      cases he
      exact .cons h hn (ih (next_spec h hn).1 hr)

theorem nexts_returns {received : List UInt8} (calls : Nat) {b : InputBuffer} (h : b.Inv received)
    (enough : b.readBytes < calls) : ∃ r, nexts calls b = some r := by
  induction calls generalizing b with
  | zero => omega
  | succ calls ih =>
    unfold nexts
    cases hn : b.next with
    | none => exact ⟨_, rfl⟩
    | some r =>
      obtain ⟨p, c⟩ := r
      obtain ⟨hc, pos, _, _, _, _, read, _⟩ := next_spec h hn
      obtain ⟨r, hr⟩ := ih hc (by omega)
      exact ⟨(p :: r.1, r.2), by simp only [hr, Option.map_some]⟩

theorem nexts_spec {received : List UInt8} (calls : Nat) {b : InputBuffer} (h : b.Inv received)
    (enough : b.readBytes < calls) : ∃ pieces c, nexts calls b = some (pieces, c) ∧
      Pieces b received pieces c := by
  obtain ⟨⟨pieces, c⟩, run⟩ := nexts_returns calls h enough
  exact ⟨pieces, c, run, nexts_pieces calls h run⟩

theorem Pieces.total {b c : InputBuffer} {received : List UInt8} {pieces : List Piece}
    (h : Pieces b received pieces c) {n : Nat} (limit : b.limit = n) (finite : b.limit < INT32_MAX)
    (enough : n ≤ b.readBytes) : sizes pieces = n := by
  have left := h.limit
  have read := h.read
  have range := h.inv.limit_range
  rw [if_neg (Int.ne_of_lt finite)] at left
  rcases h.stops with stop | stop <;> omega

theorem Pieces.total_free {b c : InputBuffer} {received : List UInt8} {pieces : List Piece}
    (h : Pieces b received pieces c) (free : b.limit = INT32_MAX) : sizes pieces = b.readBytes := by
  have max : INT32_MAX = 2147483647 := rfl
  have left := h.limit
  have read := h.read
  rw [if_pos free] at left
  rcases h.stops with stop | stop <;> omega

end InputBuffer

namespace OutputBuffer

/- `junk` is what the unused rest of a region holds. -/
def serialize (junk : Nat → UInt8) : Nat → OutputBuffer → List UInt8 → Option OutputBuffer
  | _, b, [] => some b
  | 0, _, _ :: _ => none
  | fuel + 1, b, byte :: rest =>
    let bs := byte :: rest
    let size := b.next.1.size.toNat
    let n := min bs.length size
    let c := b.next.2.poke b.next.1 (bs.take n ++ slice junk 0 (size - n))
    if n < size then some (c.backUp (size - n : Nat)) else serialize junk fuel c (bs.drop n)

/-- A serialization appends its bytes, wherever the blocks end. -/
theorem serialize_spec (junk : Nat → UInt8) (fuel : Nat) {b : OutputBuffer} (h : b.Inv)
    (bs : List UInt8) (calls : bs.length ≤ fuel) :
    ∃ c, serialize junk fuel b bs = some c ∧ c.Inv ∧ c.pending = b.pending ++ bs := by
  induction fuel generalizing b bs with
  | zero =>
    have : bs = [] := List.length_eq_zero_iff.mp (by omega)
    subst this
    exact ⟨b, rfl, h, by simp⟩
  | succ fuel ih =>
    cases bs with
    | nil => exact ⟨b, by simp [serialize], h, by simp⟩
    | cons byte rest =>
      have size := (next_region h).2.2.1
      simp only [serialize]
      generalize hn : min (byte :: rest).length b.next.1.size.toNat = n
      have filled :
          ((((byte :: rest).take n ++ slice junk 0 (b.next.1.size.toNat - n)).length : Nat) : Int) =
          b.next.1.size := by
        simp only [List.length_append, List.length_take, slice_length]
        omega
      obtain ⟨hc, _, pending, hend, hbegin⟩ := next_fill_spec h _ filled
      split
      · rename_i lt
        have all : (byte :: rest).take n = byte :: rest := List.take_of_length_le (by omega)
        obtain ⟨hb, hbp, _⟩ :=
          backUp_spec hc (Int.natCast_nonneg (b.next.1.size.toNat - n)) (by omega)
        refine ⟨_, rfl, hb, ?_⟩
        rw [hbp, pending, all, ← List.append_assoc, List.length_append, slice_length,
          Int.toNat_natCast, Nat.add_sub_cancel, List.take_left]
      · rename_i full
        have cut : (byte :: rest).take n ++ (byte :: rest).drop n = byte :: rest :=
          List.take_append_drop _ _
        have none : b.next.1.size.toNat - n = 0 := by omega
        obtain ⟨d, hd, hdi, hdp⟩ := ih hc ((byte :: rest).drop n) (by
          simp only [List.length_drop, List.length_cons] at *
          omega)
        refine ⟨d, hd, hdi, ?_⟩
        rw [hdp, pending, none, slice_zero, List.append_nil, List.append_assoc, cut]

end OutputBuffer

end Xuanqiong
