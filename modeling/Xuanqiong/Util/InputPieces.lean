import Mathlib.Data.List.Induction
import Xuanqiong.Util.FetchUint32
import Xuanqiong.Util.InputSkip
import Xuanqiong.Util.ZeroCopy

/-! The pieces that `next` cuts from the stream: whether `back_up` gives the end of the last one
back, and whether a limit cuts off a message of any length that a prefix on the wire can say. -/
namespace Xuanqiong

namespace InputBuffer

variable {b c : InputBuffer} {received : List UInt8} {p : Piece}

theorem next_in_block (hn : b.next = some (p, c)) : p.size ≤ b.cur.end_ - b.cur.begin := by
  unfold next at hn
  split at hn
  · cases hn
  · cases hn
    exact Int.min_le_left _ _

theorem begin_after_next (h : b.Inv received) (hn : b.next = some (p, c)) :
    (kBlockSize ∣ c.consumedBytes → c.cur.begin = 0) ∧
      (¬ kBlockSize ∣ c.consumedBytes → p.size ≤ c.cur.begin) := by
  obtain ⟨hc, pos, _, _, _, consumed, _⟩ := next_spec h hn
  have inside := next_in_block hn
  have bounded := h.filled.end_range.2
  have before := h.begin_eq
  have after := hc.begin_eq
  have size : kBlockSize = 8192 := rfl
  have nat : kBlockSize.toNat = 8192 := rfl
  rw [nat] at before after
  rw [size] at bounded ⊢
  omega

theorem backUp_counters (h : b.Inv received) {n : Int} (nonneg : 0 ≤ n) :
    ((b.backUp n).consumedBytes : Int) = b.consumedBytes - min n b.cur.begin ∧
      ((b.backUp n).readBytes : Int) = b.readBytes + min n b.cur.begin := by
  have begins := h.begin_eq
  have position := Nat.mod_le b.consumedBytes kBlockSize.toNat
  constructor
  · exact sizeAdd_of_nonneg (by omega)
  · exact sizeAdd_of_nonneg (by omega)

/-- What `BackUp` is for: `d` is `c` with the last `n` bytes of the piece `p` not read. -/
structure Undoes (c d : InputBuffer) (p : Piece) (n : Int) : Prop where
  consumed : (d.consumedBytes : Int) = c.consumedBytes - n
  read : (d.readBytes : Int) = c.readBytes + n
  limit : c.limit ≠ INT32_MAX → d.limit = c.limit + n
  delivers : ∀ calls, d.readBytes < calls → ∃ pieces e, d.nexts calls = some (pieces, e) ∧
    p.data.drop (p.size - n).toNat <+: pieces.flatMap Piece.data

theorem unread_before {d : InputBuffer} (h : b.Inv received) (hd : d.Inv received) {n : Int}
    (data : p.data = b.unread.take p.size.toNat) (nonneg : 0 ≤ n) (le : n ≤ p.size)
    (consumed : (d.consumedBytes : Int) = b.consumedBytes + (p.size - n)) :
    d.unread.take n.toNat = p.data.drop (p.size - n).toNat := by
  have cut : p.size.toNat = (p.size - n).toNat + n.toNat := by omega
  rw [unread_drop h hd (n := (p.size - n).toNat) (by omega), data, List.drop_take, cut,
    Nat.add_sub_cancel_left]

theorem delivers_given_back {d : InputBuffer} (hd : d.Inv received) {n : Nat}
    (read : n ≤ d.readBytes) (limit : n ≤ d.limit) {calls : Nat} (enough : d.readBytes < calls) :
    ∃ pieces e, d.nexts calls = some (pieces, e) ∧
      d.unread.take n <+: pieces.flatMap Piece.data := by
  obtain ⟨pieces, e, run, spec⟩ := nexts_spec calls hd enough
  refine ⟨pieces, e, run, ?_⟩
  have left := spec.limit
  have unread := spec.read
  rw [spec.data]
  apply List.take_prefix_take_left
  rcases spec.stops with stop | stop
  · split at left <;> omega
  · omega

theorem undoes_inside (h : b.Inv received) (hn : b.next = some (p, c)) {n : Int} (nonneg : 0 ≤ n)
    (le : n ≤ p.size) (inside : n ≤ c.cur.begin) : Undoes c (c.backUp n) p n := by
  obtain ⟨hc, pos, _, fits, data, consumed, read, limit⟩ := next_spec h hn
  have range := h.limit_range
  have whole : min n c.cur.begin = n := Int.min_eq_left inside
  obtain ⟨back, more⟩ := backUp_counters hc nonneg
  rw [whole] at back more
  have restored : (c.backUp n).limit = c.limit + (if c.limit = INT32_MAX then 0 else n) := by
    simp only [backUp, whole]
  have hd : (c.backUp n).Inv received := by
    refine hc.backUp nonneg ?_
    intro finite
    split at limit <;> omega
  refine ⟨back, more, ?_, ?_⟩
  · intro finite
    rw [restored, if_neg finite]
  · intro calls enough
    have first := unread_before h hd data nonneg le (by omega)
    obtain ⟨pieces, e, run, starts⟩ := delivers_given_back hd (n := n.toNat) (by omega)
      (by have := hc.limit_range
          rw [restored]
          split at limit <;> split <;> omega) enough
    exact ⟨pieces, e, run, first ▸ starts⟩

end InputBuffer

/-- In every state in which `next` has returned a piece, `back_up` gives its last `n` bytes back
just when there are none to give back or the piece did not end its block. -/
theorem back_up_undoes_iff (s : InputRun) (h : netInputMachine.Reach s) {p : Piece}
    {c : InputBuffer} (hn : s.buf.next = some (p, c)) (n : Int) (nonneg : 0 ≤ n) (le : n ≤ p.size) :
    InputBuffer.Undoes c (c.backUp n) p n ↔ n = 0 ∨ ¬ kBlockSize ∣ c.consumedBytes := by
  have inv := (net_input_reach h).inv
  have hc := (InputBuffer.next_spec inv hn).1
  obtain ⟨ended, inside⟩ := InputBuffer.begin_after_next inv hn
  constructor
  · intro undoes
    by_contra lost
    obtain ⟨some, block⟩ := not_or.mp lost
    have back := (InputBuffer.backUp_counters hc nonneg).1
    have expected := undoes.consumed
    rw [ended (not_not.mp block)] at back
    omega
  · rintro (zero | within)
    · exact InputBuffer.undoes_inside inv hn nonneg le (by have := hc.nonneg; omega)
    · exact InputBuffer.undoes_inside inv hn nonneg le (Int.le_trans le (inside within))

theorem back_up_undoes_iff_at_two :
    ∃ s p c, netInputMachine.run netInputMachine.start [.buffer (.receive [1, 2, 3])] = some s ∧
      s.buf.next = some (p, c) ∧ InputBuffer.Undoes c (c.backUp 2) p 2 := by
  obtain ⟨s, p, c, hs, hn, size, consumed⟩ : ∃ s p c,
      netInputMachine.run netInputMachine.start [.buffer (.receive [1, 2, 3])] = some s ∧
        s.buf.next = some (p, c) ∧ p.size = 3 ∧ c.consumedBytes = 3 :=
    ⟨_, _, _, rfl, rfl, rfl, rfl⟩
  have reached := Machine.reach_run .start hs
  refine ⟨s, p, c, hs, hn,
    (back_up_undoes_iff s reached hn 2 (by decide) (by rw [size]; decide)).mpr ?_⟩
  rw [consumed]
  decide

/- A piece of a whole block: the position has gone on to the next block, and stays there. -/
theorem back_up_keeps_drained_block :
    ∃ s p c, netInputMachine.Reach s ∧ s.buf.next = some (p, c) ∧ p.size = kBlockSize ∧
      (c.backUp 1).consumedBytes = c.consumedBytes ∧ (c.backUp 1).readBytes = c.readBytes ∧
      ¬ InputBuffer.Undoes c (c.backUp 1) p 1 := by
  have first := receive_block (List.length_replicate (n := 8192) (a := (7 : UInt8)))
  generalize List.replicate 8192 (7 : UInt8) = bs at first
  have reached : netInputMachine.Reach (blockRead bs) :=
    .next (a := .buffer (.receive bs)) .start trivial first
  obtain ⟨p, c, hn, size, consumed⟩ : ∃ p c, (blockRead bs).buf.next = some (p, c) ∧
      p.size = kBlockSize ∧ c.consumedBytes = 8192 := ⟨_, _, rfl, rfl, rfl⟩
  have inv := (net_input_reach reached).inv
  have begins : c.cur.begin = 0 :=
    (InputBuffer.begin_after_next inv hn).1 (by rw [consumed]; decide)
  obtain ⟨kept, same⟩ :=
    InputBuffer.backUp_counters (InputBuffer.next_spec inv hn).1 (n := 1) (by decide)
  rw [begins] at kept same
  refine ⟨blockRead bs, p, c, reached, hn, size, by omega, by omega, ?_⟩
  intro undoes
  have expected := undoes.consumed
  omega

/-- Exactly the next `len` bytes, in pieces none of which is empty. -/
def InputBuffer.Delimits (b : InputBuffer) (len : Nat) : Prop :=
  ∃ calls pieces c, (b.pushLimit (toInt32 len)).nexts calls = some (pieces, c) ∧
    (∀ p ∈ pieces, 0 < p.size ∧ p.data.length = p.size) ∧ InputBuffer.sizes pieces = len ∧
    pieces.flatMap Piece.data = b.unread.take len

namespace InputBuffer

variable {b : InputBuffer} {received : List UInt8} {len : Nat}

theorem next_negative (h : b.Inv received) (some : b.readBytes ≠ 0) (limit : Int)
    (negative : limit < 0) : ∃ p c, (b.pushLimit limit).next = Option.some (p, c) ∧ p.size < 0 := by
  have held : ¬ (b.cur.begin = b.cur.end_ ∨ limit = 0) := by
    rintro (drained | zero)
    · exact some (h.drained_iff.mp drained)
    · omega
  have ordered := h.ordered
  refine ⟨_, _, if_neg held, ?_⟩
  simp only [pushLimit]
  omega

theorem delimits_of_finite (h : b.Inv received) (enough : len ≤ b.readBytes)
    (finite : (len : Int) < INT32_MAX) : b.Delimits len := by
  have max : INT32_MAX = 2147483647 := rfl
  have int : toInt32 len = len := toInt32_of_lt (by omega)
  have limited : (b.pushLimit len).Inv received := h.set_limit _ (by omega)
  obtain ⟨pieces, c, run, spec⟩ := nexts_spec (b.readBytes + 1) limited (Nat.lt_succ_self _)
  have total := spec.total rfl finite enough
  refine ⟨_, pieces, c, by rw [int]; exact run, spec.filled, total, ?_⟩
  rw [spec.data, total, Int.toNat_natCast]
  rfl

theorem delimits_max_iff (h : b.Inv received) (max : (len : Int) = INT32_MAX) :
    b.Delimits len ↔ b.readBytes = len := by
  have value : INT32_MAX = 2147483647 := rfl
  have int : toInt32 len = INT32_MAX := by
    rw [toInt32_of_lt (by omega), max]
  have free : (b.pushLimit INT32_MAX).Inv received := h.set_limit _ (by decide)
  constructor
  · rintro ⟨calls, pieces, c, run, _, total, _⟩
    rw [int] at run
    have all := (nexts_pieces calls free run).total_free rfl
    exact_mod_cast all.symm.trans total
  · intro all
    obtain ⟨pieces, c, run, spec⟩ := nexts_spec (b.readBytes + 1) free (Nat.lt_succ_self _)
    have total : sizes pieces = len := by
      rw [spec.total_free rfl, ← all]
      rfl
    refine ⟨_, pieces, c, by rw [int]; exact run, spec.filled, total, ?_⟩
    rw [spec.data, total, Int.toNat_natCast]
    rfl

theorem not_delimits_of_negative (h : b.Inv received) (some : b.readBytes ≠ 0)
    (negative : toInt32 len < 0) : ¬ b.Delimits len := by
  rintro ⟨calls, pieces, c, run, filled, _⟩
  obtain ⟨p, d, hn, size⟩ := next_negative h some _ negative
  cases calls with
  | zero => cases run
  | succ calls =>
    simp only [nexts, hn] at run
    obtain ⟨r, _, he⟩ := Option.map_eq_some_iff.mp run
    cases he
    have pos := (filled p List.mem_cons_self).1
    omega

end InputBuffer

/-- In every reachable state that has the bytes, a limit set to a length of the wire cuts off just
these bytes if the length is below the largest `int`, or is that and no byte follows. -/
theorem limit_delimits_iff (s : InputRun) (h : netInputMachine.Reach s) (len : Nat)
    (word : len < 2 ^ 32) (enough : len ≤ s.buf.readBytes) :
    s.buf.Delimits len ↔
      (len : Int) < INT32_MAX ∨ ((len : Int) = INT32_MAX ∧ s.buf.readBytes = len) := by
  have inv := (net_input_reach h).inv
  have value : INT32_MAX = 2147483647 := rfl
  by_cases max : (len : Int) = INT32_MAX
  · rw [InputBuffer.delimits_max_iff inv max]
    constructor
    · exact fun all => Or.inr ⟨max, all⟩
    · rintro (below | ⟨_, all⟩)
      · omega
      · exact all
  · constructor
    · intro delimits
      by_contra outside
      have negative : toInt32 len < 0 := by
        rw [toInt32_of_ge (by omega) word]
        omega
      exact InputBuffer.not_delimits_of_negative inv (by omega) negative delimits
    · rintro (below | ⟨equal, _⟩)
      · exact InputBuffer.delimits_of_finite inv enough below
      · exact absurd equal max

theorem limit_delimits_iff_at_two :
    ∃ s, netInputMachine.run netInputMachine.start [.buffer (.receive [2, 0, 0, 0, 8, 9, 7]),
        .buffer (.fetchUint32 fun _ => 0)] = some s ∧ s.buf.Delimits 2 := by
  obtain ⟨s, hs, read⟩ : ∃ s, netInputMachine.run netInputMachine.start
      [.buffer (.receive [2, 0, 0, 0, 8, 9, 7]), .buffer (.fetchUint32 fun _ => 0)] = some s ∧
      s.buf.readBytes = 3 := ⟨_, rfl, rfl⟩
  have reached := Machine.reach_run .start hs
  exact ⟨s, hs, (limit_delimits_iff s reached 2 (by decide) (by rw [read]; decide)).mpr
    (Or.inl (by decide))⟩

theorem reach_received (bs : List UInt8) : ∃ s, netInputMachine.Reach s ∧ s.received = bs ∧
    s.buf.consumedBytes = 0 := by
  induction bs using List.reverseRecOn with
  | nil => exact ⟨_, .start, rfl, rfl⟩
  | append_singleton bs byte ih =>
    obtain ⟨s, reached, received, consumed⟩ := ih
    have inv := (net_input_reach reached).inv
    have last := inv.filled.last_range.2.1
    have room : (([byte] : List UInt8).length : Int) ≤ s.buf.getBuffer.size := by
      simp only [InputBuffer.getBuffer, InputBuffer.last, List.length_singleton]
      omega
    refine ⟨⟨s.buf.receive [byte], s.received ++ [byte], 0⟩, ?_, by rw [received], ?_⟩
    · exact .next (a := .buffer (.receive [byte])) reached trivial (if_pos room)
    · exact (inv.receive [byte] room).2.1.trans consumed

theorem reach_fetched (len : Nat) (word : len < 2 ^ 32) (rest : List UInt8) :
    ∃ s v b, netInputMachine.Reach s ∧ s.buf.fetchUint32 (fun _ => 0) = some (true, v, b) ∧
      fromLe (slice v 0 4) = len ∧ b.Inv s.received ∧ b.readBytes = rest.length := by
  obtain ⟨s, reached, received, consumed⟩ := reach_received (le32 len ++ rest)
  have inv := (net_input_reach reached).inv
  have unread : s.buf.unread = le32 len ++ rest := by
    rw [inv.unread_eq, received, consumed]
    rfl
  have enough : 4 ≤ s.buf.readBytes := by
    rw [← inv.unread_length, unread]
    simp
  obtain ⟨v, b, hf, number, _, left⟩ :=
    InputBuffer.decodes_of_whole inv enough (by rw [consumed]; decide) (fun _ => 0)
  obtain ⟨r, hr, hi⟩ := inv.fetchUint32 (fun _ => 0)
  cases hr.symm.trans hf
  refine ⟨s, v, b, reached, hf, ?_, hi, ?_⟩
  · rw [number, unread]
    exact fromLe_le32 len word
  · rw [← hi.unread_length, left, unread]
    rfl

/- A header of 2 GiB gets a piece of negative size; one of a byte less gets the next byte too. -/
theorem limit_fails_on_long_message :
    (∃ s v b p c, netInputMachine.Reach s ∧ s.buf.fetchUint32 (fun _ => 0) = some (true, v, b) ∧
      fromLe (slice v 0 4) = 2 ^ 31 ∧ b.readBytes = 2 ^ 31 ∧
      (b.pushLimit (toInt32 (2 ^ 31))).next = some (p, c) ∧ p.size < 0) ∧
    ∃ s v b, netInputMachine.Reach s ∧ s.buf.fetchUint32 (fun _ => 0) = some (true, v, b) ∧
      fromLe (slice v 0 4) = 2 ^ 31 - 1 ∧ b.readBytes = 2 ^ 31 ∧
      ∃ calls pieces c, (b.pushLimit (toInt32 (2 ^ 31 - 1))).nexts calls = some (pieces, c) ∧
        InputBuffer.sizes pieces = 2 ^ 31 := by
  obtain ⟨rest, long⟩ : ∃ rest : List UInt8, rest.length = 2 ^ 31 :=
    ⟨List.replicate (2 ^ 31) 0, List.length_replicate⟩
  constructor
  · obtain ⟨s, v, b, reached, hf, number, inv, read⟩ := reach_fetched (2 ^ 31) (by decide) rest
    obtain ⟨p, c, hn, negative⟩ := InputBuffer.next_negative inv (by omega)
      (toInt32 (2 ^ 31)) (by decide)
    exact ⟨s, v, b, p, c, reached, hf, number, read.trans long, hn, negative⟩
  · obtain ⟨s, v, b, reached, hf, number, inv, read⟩ := reach_fetched (2 ^ 31 - 1) (by decide) rest
    have free : (b.pushLimit (toInt32 (2 ^ 31 - 1))).Inv s.received := inv.set_limit _ (by decide)
    obtain ⟨pieces, c, run, spec⟩ :=
      InputBuffer.nexts_spec (b.readBytes + 1) free (Nat.lt_succ_self _)
    have max : toInt32 (2 ^ 31 - 1) = INT32_MAX := by decide
    have total := spec.total_free max
    refine ⟨s, v, b, reached, hf, number, read.trans long, _, pieces, c, run, ?_⟩
    have read' : (b.pushLimit (toInt32 (2 ^ 31 - 1))).readBytes = 2 ^ 31 := read.trans long
    rw [total, read']
    rfl

end Xuanqiong
