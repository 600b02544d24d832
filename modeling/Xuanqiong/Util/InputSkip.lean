import Xuanqiong.Util.InputStream

/-! `skip` moves the read position on, over any number of blocks. It asks `byte_count()`, the
bytes behind the position, whether there is enough before it. -/
namespace Xuanqiong

namespace InputBuffer

variable {b : InputBuffer} {received : List UInt8}

theorem skipOver_spec (h : b.Inv received) {n : Int} (pos : 0 < n) :
    ∃ k, min n (b.cur.end_ - b.cur.begin) = k ∧ (b.skipOver k).Inv received ∧ 0 ≤ k ∧ k ≤ n ∧
      ((b.skipOver k).consumedBytes : Int) = b.consumedBytes + k ∧
      ((b.skipOver k).readBytes : Int) = b.readBytes - k ∧ (0 < b.readBytes → 0 < k) := by
  have ordered := h.ordered
  have drained := h.drained_iff
  have held := BufferBlock.held_length h.cur_wf
  have length := h.unread_length
  rw [unread, chain, List.flatMap_cons, List.length_append] at length
  obtain ⟨k, hk⟩ : ∃ k, min n (b.cur.end_ - b.cur.begin) = k := ⟨_, rfl⟩
  have consumed : ((sizeAdd b.consumedBytes k : Nat) : Int) = b.consumedBytes + k :=
    sizeAdd_of_nonneg (by omega)
  have read : ((sizeAdd b.readBytes (-k) : Nat) : Int) = b.readBytes - k := by
    rw [sizeAdd_of_nonneg (by omega), Int.sub_eq_add_neg]
  have limit : (b.consume k).leaveIfDrained.limit = b.limit := (leaveIfDrained_counters _).1
  have inv : (b.skipOver k).Inv received :=
    h.advance (by omega) (by omega) ⟨rfl, rfl, rfl⟩ consumed read (limit ▸ h.limit_range)
  exact ⟨k, hk, inv, by omega, by omega, consumed, read, by omega⟩

theorem skipLoop_stops (turns : Nat) {n : Int} (none : ¬ 0 < n) : skipLoop turns b n = some b := by
  cases turns with
  | zero => exact if_neg none
  | succ turns => exact if_neg none

theorem skipLoop_turn (turns : Nat) {n k : Int} (pos : 0 < n)
    (hk : min n (b.cur.end_ - b.cur.begin) = k) :
    skipLoop (turns + 1) b n = skipLoop turns (b.skipOver k) (n - k) := by
  unfold skipLoop
  rw [if_pos pos, hk]
  cases turns <;> rfl

theorem skipLoop_spec (m : Nat) (h : b.Inv received) {n : Int} (nonneg : 0 ≤ n)
    (enough : n ≤ b.readBytes) (bound : n ≤ m) :
    ∃ c, (∀ turns : Nat, n ≤ turns → skipLoop turns b n = some c) ∧ c.Inv received ∧
      (c.consumedBytes : Int) = b.consumedBytes + n := by
  induction m generalizing b n with
  | zero => exact ⟨b, fun turns _ => skipLoop_stops turns (by omega), h, by omega⟩
  | succ m ih =>
    by_cases pos : 0 < n
    · obtain ⟨k, hk, inv, _, _, consumed, read, moves⟩ := skipOver_spec h pos
      have some := moves (by omega)
      obtain ⟨c, hc, hci, total⟩ := ih inv (n := n - k) (by omega) (by omega) (by omega)
      refine ⟨c, ?_, hci, by omega⟩
      intro turns le
      cases turns with
      | zero => omega
      | succ turns =>
        rw [skipLoop_turn turns pos hk]
        exact hc turns (by omega)
    · exact ⟨b, fun turns _ => skipLoop_stops turns pos, h, by omega⟩

theorem skipLoop_never (turns : Nat) (h : b.Inv received) {n : Int} (short : b.readBytes < n) :
    skipLoop turns b n = none := by
  have pos : 0 < n := by omega
  induction turns generalizing b n with
  | zero => exact if_pos pos
  | succ turns ih =>
    obtain ⟨k, hk, inv, _, _, _, read, _⟩ := skipOver_spec h pos
    rw [skipLoop_turn turns pos hk]
    exact ih inv (by omega) (by omega)

theorem skipLoop_inv (turns : Nat) (h : b.Inv received) {n : Int} {c : InputBuffer}
    (hs : skipLoop turns b n = some c) : c.Inv received := by
  induction turns generalizing b n with
  | zero =>
    unfold skipLoop at hs
    split at hs
    · cases hs
    · cases hs
      exact h
  | succ turns ih =>
    by_cases pos : 0 < n
    · obtain ⟨k, hk, inv, _⟩ := skipOver_spec h pos
      rw [skipLoop_turn turns pos hk] at hs
      exact ih inv hs
    · cases (skipLoop_stops (turns + 1) pos).symm.trans hs
      exact h

theorem skip_refuses (turns : Nat) {n : Int} (beyond : b.byteCount < n) :
    b.skip turns n = some (false, b) := if_pos beyond

theorem skip_advances (h : b.Inv received) {n : Int} (nonneg : 0 ≤ n) (behind : n ≤ b.byteCount)
    (enough : n ≤ b.readBytes) :
    ∃ c, (∀ turns : Nat, n ≤ turns → b.skip turns n = some (true, c)) ∧ c.Inv received ∧
      (c.consumedBytes : Int) = b.consumedBytes + n := by
  obtain ⟨c, hc, inv, consumed⟩ := skipLoop_spec n.toNat h nonneg enough (by omega)
  refine ⟨c, ?_, inv, consumed⟩
  intro turns le
  rw [skip, if_neg (by omega), hc turns le]
  rfl

theorem skip_never (h : b.Inv received) {n : Int} (behind : n ≤ b.byteCount)
    (short : b.readBytes < n) (turns : Nat) : b.skip turns n = none := by
  rw [skip, if_neg (by omega), skipLoop_never turns h short]
  rfl

theorem Inv.skip (h : b.Inv received) {turns : Nat} {n : Int} {r : Bool × InputBuffer}
    (hs : b.skip turns n = some r) : r.2.Inv received := by
  unfold InputBuffer.skip at hs
  split at hs
  · cases hs
    exact h
  · obtain ⟨c, hc, rfl⟩ := Option.map_eq_some_iff.mp hs
    exact skipLoop_inv turns h hc

/-- What `skip` is for: it says whether there are `n` bytes before the position, and if so moves
on by them. A call returns if it does so for every number of turns that is large enough. -/
def SkipsExactly (b : InputBuffer) (n : Int) : Prop :=
  if n ≤ b.readBytes then
    ∃ c, (∀ turns : Nat, n ≤ turns → b.skip turns n = some (true, c)) ∧
      (c.consumedBytes : Int) = b.consumedBytes + n ∧ (c.readBytes : Int) = b.readBytes - n ∧
      c.unread = b.unread.drop n.toNat
  else ∃ c, ∀ turns : Nat, n ≤ turns → b.skip turns n = some (false, c)

theorem skipsExactly_of_agree (h : b.Inv received) {n : Int} (nonneg : 0 ≤ n)
    (agree : n ≤ b.byteCount ↔ n ≤ b.readBytes) : b.SkipsExactly n := by
  unfold SkipsExactly
  split
  · rename_i enough
    obtain ⟨c, hc, inv, consumed⟩ := skip_advances h nonneg (agree.mpr enough) enough
    have before := h.counted
    have after := inv.counted
    exact ⟨c, hc, consumed, by omega, unread_drop h inv (by omega)⟩
  · rename_i short
    exact ⟨b, fun turns _ => skip_refuses turns (by omega)⟩

theorem agree_of_skipsExactly (h : b.Inv received) {n : Int} (skips : b.SkipsExactly n) :
    n ≤ b.byteCount ↔ n ≤ b.readBytes := by
  unfold SkipsExactly at skips
  split at skips
  · rename_i enough
    obtain ⟨c, hc, _⟩ := skips
    refine ⟨fun _ => enough, fun _ => ?_⟩
    by_contra beyond
    cases (skip_refuses n.toNat (by omega)).symm.trans (hc n.toNat (by omega))
  · rename_i short
    obtain ⟨c, hc⟩ := skips
    refine ⟨fun behind => ?_, fun enough => absurd enough short⟩
    cases (skip_never h behind (by omega) n.toNat).symm.trans (hc n.toNat (by omega))

end InputBuffer

inductive NetInputOp where
  | buffer (op : InputOp)
  | skip (turns : Nat) (n : Int)

def netInputMachine : Machine InputRun NetInputOp where
  start := inputMachine.start
  step s
    | .buffer op => inputMachine.step s op
    | .skip turns n => (s.buf.skip turns n).map fun r => ⟨r.2, s.received, 0⟩

theorem net_input_step (s : InputRun) (op : NetInputOp) (t : InputRun) (h : s.Inv)
    (hs : netInputMachine.step s op = some t) : t.Inv := by
  cases op with
  | buffer op => exact input_step_inv s op t h hs
  | skip turns n =>
    obtain ⟨r, hr, rfl⟩ := Option.map_eq_some_iff.mp hs
    exact .settled (h.inv.skip hr)

theorem net_input_reach {s : InputRun} (h : netInputMachine.Reach s) : s.Inv :=
  h.invariant (.settled InputBuffer.init_inv) net_input_step

/-- In every reachable state, whatever the limit: `skip` is exact for just the counts that the
bytes behind the position and those before it agree on. Of the others, it refuses those that
are there and never comes back from those that are not. -/
theorem skip_exact_iff_counts_agree (s : InputRun) (h : netInputMachine.Reach s) (n : Int)
    (nonneg : 0 ≤ n) :
    (s.buf.SkipsExactly n ↔ (n ≤ s.buf.byteCount ↔ n ≤ s.buf.readBytes)) ∧
    (s.buf.byteCount < n → ∀ turns, s.buf.skip turns n = some (false, s.buf)) ∧
    (n ≤ s.buf.byteCount → s.buf.readBytes < n → ∀ turns, s.buf.skip turns n = none) := by
  have inv := (net_input_reach h).inv
  refine ⟨⟨?_, ?_⟩, ?_, ?_⟩
  · exact InputBuffer.agree_of_skipsExactly inv
  · exact InputBuffer.skipsExactly_of_agree inv nonneg
  · exact fun beyond turns => InputBuffer.skip_refuses turns beyond
  · exact fun behind short turns => InputBuffer.skip_never inv behind short turns

/- Two bytes of five read, two of the other three skipped. -/
theorem skip_exact_iff_counts_agree_at_two :
    ∃ s, netInputMachine.run netInputMachine.start
        [.buffer (.receive [1, 2, 3, 4, 5]), .buffer (.pushLimit 2), .buffer .next,
          .buffer .popLimit] = some s ∧
      s.buf.SkipsExactly 2 := by
  obtain ⟨s, hs, behind, enough⟩ : ∃ s, netInputMachine.run netInputMachine.start
      [.buffer (.receive [1, 2, 3, 4, 5]), .buffer (.pushLimit 2), .buffer .next,
        .buffer .popLimit] = some s ∧ s.buf.byteCount = 2 ∧ s.buf.readBytes = 3 :=
    ⟨_, rfl, rfl, rfl⟩
  have reached := Machine.reach_run .start hs
  refine ⟨s, hs, (skip_exact_iff_counts_agree s reached 2 (by decide)).1.mpr ?_⟩
  rw [behind, enough]
  decide

/- With nothing read yet, a byte that is there is not skipped; with everything read, a `skip` of
one more byte does not end. -/
theorem skip_asks_the_wrong_count :
    (∃ s, netInputMachine.Reach s ∧ s.buf.limit = INT32_MAX ∧ s.buf.readBytes = 3 ∧
      ∀ turns, s.buf.skip turns 1 = some (false, s.buf)) ∧
    ∃ s, netInputMachine.Reach s ∧ s.buf.limit = INT32_MAX ∧ s.buf.readBytes = 0 ∧
      ∀ turns, s.buf.skip turns 1 = none := by
  constructor
  · obtain ⟨s, hs, limit, behind, read⟩ : ∃ s, netInputMachine.run netInputMachine.start
        [.buffer (.receive [1, 2, 3])] = some s ∧ s.buf.limit = INT32_MAX ∧
        s.buf.byteCount = 0 ∧ s.buf.readBytes = 3 := ⟨_, rfl, rfl, rfl, rfl⟩
    exact ⟨s, Machine.reach_run .start hs, limit, read,
      fun turns => InputBuffer.skip_refuses turns (by rw [behind]; decide)⟩
  · obtain ⟨s, hs, limit, behind, read⟩ : ∃ s, netInputMachine.run netInputMachine.start
        [.buffer (.receive [1, 2, 3]), .buffer .next] = some s ∧ s.buf.limit = INT32_MAX ∧
        s.buf.byteCount = 3 ∧ s.buf.readBytes = 0 := ⟨_, rfl, rfl, rfl, rfl⟩
    have reached := Machine.reach_run .start hs
    have inv := (net_input_reach reached).inv
    exact ⟨s, reached, limit, read,
      InputBuffer.skip_never inv (by rw [behind]; decide) (by rw [read]; decide)⟩

end Xuanqiong
