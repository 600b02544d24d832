import Xuanqiong.Util.InputStream

/-! `fetch_uint32` gives back the number that was written just when its four bytes lie in one
block. Where they are cut, the second copy goes past the word and part of it is never set. -/
namespace Xuanqiong

/- The four bytes from offset `o` of the stream on lie in one block. -/
def Whole (o : Nat) : Prop := o % kBlockSize.toNat + 4 ≤ kBlockSize.toNat

instance (o : Nat) : Decidable (Whole o) := inferInstanceAs (Decidable (_ ≤ _))

theorem fromLe_inj {xs ys : List UInt8} (length : xs.length = ys.length)
    (same : fromLe xs = fromLe ys) : xs = ys := by
  induction xs generalizing ys with
  | nil => exact (List.length_eq_zero_iff.mp length.symm).symm
  | cons x xs ih =>
    cases ys with
    | nil => cases length
    | cons y ys =>
      simp only [fromLe] at same
      have hx := x.toNat_lt
      have hy := y.toNat_lt
      have first : x.toNat = y.toNat := by omega
      have rest : fromLe xs = fromLe ys := by omega
      rw [UInt8.toNat_inj.mp first, ih (Nat.succ.inj length) rest]

namespace InputBuffer

theorem Inv.begin_eq {b : InputBuffer} {received : List UInt8} (h : b.Inv received) :
    b.cur.begin = (b.consumedBytes % kBlockSize.toNat : Nat) := by
  obtain ⟨m, hm, _⟩ := h.aligned
  have nonneg := h.nonneg
  have lt : b.cur.begin < kBlockSize := by
    have filled := h.filled
    have ordered := h.ordered
    cases ha : b.after with
    | nil =>
      rw [ha] at filled
      exact Int.lt_of_le_of_lt ordered filled.2
    | cons n rest => exact h.left_drained (by simp [ha])
  have size : kBlockSize = 8192 := rfl
  rw [size] at lt hm
  have : kBlockSize.toNat = 8192 := rfl
  rw [this]
  omega

theorem Inv.whole_iff {b : InputBuffer} {received : List UInt8} (h : b.Inv received) :
    Whole b.consumedBytes ↔ b.cur.begin + 4 ≤ kBlockSize := by
  have size : (kBlockSize.toNat : Int) = kBlockSize := rfl
  rw [h.begin_eq, ← size]
  exact ⟨fun whole => by exact_mod_cast whole, fun whole => by exact_mod_cast whole⟩

/- What a caller relies on when the word before it is the memory `value`. -/
def Decodes (b : InputBuffer) (value : Nat → UInt8) : Prop :=
  ∃ v c, b.fetchUint32 value = some (true, v, c) ∧
    fromLe (slice v 0 4) = fromLe (b.unread.take 4) ∧
    c.consumedBytes = b.consumedBytes + 4 ∧ c.unread = b.unread.drop 4

theorem fetchUint32_leaves {b c : InputBuffer} {value v : Nat → UInt8} (enough : ¬ b.readBytes < 4)
    (filled : 0 < b.copyLen) (cut : b.copyLen < 4) (h : b.fetchUint32 value = some (true, v, c)) :
    v b.copyLen.toNat = value b.copyLen.toNat := by
  simp only [fetchUint32, if_neg enough, if_pos cut] at h
  obtain ⟨r, hr, hv⟩ := Option.map_eq_some_iff.mp h
  obtain ⟨d, _, rfl⟩ := Option.map_eq_some_iff.mp hr
  simp only [Prod.mk.injEq, true_and] at hv
  rw [← hv.1]
  have before : ¬ (4 * b.copyLen).toNat ≤ b.copyLen.toNat := by omega
  simp [store, before]

theorem Inv.copyLen_cut {b : InputBuffer} {received : List UInt8} (h : b.Inv received)
    (enough : 4 ≤ b.readBytes) (cut : kBlockSize < b.cur.begin + 4) :
    0 < b.copyLen ∧ b.copyLen < 4 := by
  have drained := h.drained_iff.not.mpr (by omega)
  have ordered := h.ordered
  have range := h.filled.end_range.2
  unfold copyLen
  omega

theorem decodes_of_whole {b : InputBuffer} {received : List UInt8} (h : b.Inv received)
    (enough : 4 ≤ b.readBytes) (whole : Whole b.consumedBytes) (value : Nat → UInt8) :
    b.Decodes value := by
  obtain ⟨c, hc, hi, consumed, _⟩ := fetchUint32_whole h enough (h.whole_iff.mp whole) value
  have length : (b.unread.take 4).length = 4 := by
    have := h.unread_length
    rw [List.length_take]
    omega
  refine ⟨_, c, hc, ?_, consumed, ?_⟩
  · have word := slice_store_self value 0 (b.unread.take 4)
    rw [length] at word
    rw [word]
  · rw [hi.unread_eq, h.unread_eq, consumed, List.drop_drop]

theorem not_decodes_of_cut {b : InputBuffer} {received : List UInt8} (h : b.Inv received)
    (enough : 4 ≤ b.readBytes) (cut : ¬ Whole b.consumedBytes) {value : Nat → UInt8}
    (other : b.unread[b.copyLen.toNat]? ≠ some (value b.copyLen.toNat)) : ¬ b.Decodes value := by
  obtain ⟨pos, short⟩ := h.copyLen_cut enough (Int.not_le.mp (mt h.whole_iff.mpr cut))
  rintro ⟨v, c, hc, number, _⟩
  have length := h.unread_length
  have bytes : slice v 0 4 = b.unread.take 4 :=
    fromLe_inj (by rw [slice_length, List.length_take]; omega) number
  have left := fetchUint32_leaves (by omega) pos short hc
  have here : (slice v 0 4)[b.copyLen.toNat]? = (b.unread.take 4)[b.copyLen.toNat]? := by rw [bytes]
  have inWord : b.copyLen.toNat < 4 := by omega
  rw [List.getElem?_take_of_lt inWord] at here
  apply other
  rw [← here]
  simp [slice, inWord, left]

end InputBuffer

/-- In every reachable state a fetch of a word that is there succeeds and moves on by four, it
gives the number of the next four bytes for every content of the memory just when they lie in
one block, and a length that the other end wrote is then read back. A fetch of a word that is
not there changes nothing. -/
theorem fetch_uint32_decodes_iff_whole (s : InputRun) (h : inputMachine.Reach s) :
    (s.buf.readBytes < 4 → ∀ value, s.buf.fetchUint32 value = some (false, value, s.buf)) ∧
    (4 ≤ s.buf.readBytes →
      (∀ value, ∃ v c, s.buf.fetchUint32 value = some (true, v, c) ∧
        c.consumedBytes = s.buf.consumedBytes + 4 ∧ c.unread = s.buf.unread.drop 4) ∧
      ((∀ value, s.buf.Decodes value) ↔ Whole s.buf.consumedBytes)) ∧
    ∀ n, n < 2 ^ 32 → le32 n <+: s.buf.unread → Whole s.buf.consumedBytes → ∀ value,
      ∃ v c, s.buf.fetchUint32 value = some (true, v, c) ∧ fromLe (slice v 0 4) = n := by
  have inv := (input_reach_inv h).inv
  refine ⟨fun short value => InputBuffer.fetchUint32_short short value, ?_, ?_⟩
  · intro enough
    refine ⟨?_, ?_, ?_⟩
    · intro value
      by_cases whole : Whole s.buf.consumedBytes
      · obtain ⟨v, c, hc, _, moved⟩ := InputBuffer.decodes_of_whole inv enough whole value
        exact ⟨v, c, hc, moved⟩
      · obtain ⟨v, c, hc, hi, consumed, _⟩ := InputBuffer.fetchUint32_cut inv enough
          (Int.not_le.mp (mt inv.whole_iff.mpr whole)) value
        exact ⟨v, c, hc, consumed, by rw [hi.unread_eq, inv.unread_eq, consumed, List.drop_drop]⟩
    · intro decodes
      by_contra cut
      refine InputBuffer.not_decodes_of_cut inv enough cut ?_
        (decodes (fun _ => s.buf.unread[s.buf.copyLen.toNat]?.getD 0 + 1))
      cases s.buf.unread[s.buf.copyLen.toNat]? <;> simp
    · exact fun whole value => InputBuffer.decodes_of_whole inv enough whole value
  · intro n small written whole value
    have enough : 4 ≤ s.buf.readBytes := inv.unread_length ▸ written.length_le
    obtain ⟨v, c, hc, number, _⟩ := InputBuffer.decodes_of_whole inv enough whole value
    have first : s.buf.unread.take 4 = le32 n := (List.prefix_iff_eq_take.mp written).symm
    exact ⟨v, c, hc, by rw [number, first, fromLe_le32 n small]⟩

def blockRead (bs : List UInt8) : InputRun :=
  ⟨⟨[], ⟨0, 0, kBlockSize, store (newBlock 0).data 0 bs⟩, [newBlock 1], 8192, 0, INT32_MAX, 2⟩,
    bs, 0⟩

theorem receive_block {bs : List UInt8} (h : bs.length = 8192) :
    inputMachine.step inputMachine.start (.receive bs) = some (blockRead bs) := by
  have filled : bs ≠ [] := by
    intro none
    rw [none] at h
    cases h
  simp only [inputMachine, InputBuffer.receive_eq _ _ filled, h, InputBuffer.init,
    InputBuffer.mapLast, InputBuffer.writeBlock]
  rfl

/- The length 1799, two bytes of which end the first block, over a word of ones. -/
theorem fetch_uint32_misreads_cut_word :
    ∃ s, inputMachine.run inputMachine.start
      [.receive (List.replicate 8192 7), .pushLimit 8190, .next,
        .popLimit, .receive [0, 0]] = some s ∧
      s.buf.unread = le32 1799 ∧ ¬ s.buf.Decodes (fun _ => 255) := by
  have first := receive_block (List.length_replicate (n := 8192) (a := (7 : UInt8)))
  generalize hbs : List.replicate 8192 (7 : UInt8) = bs at first
  obtain ⟨s, hs, received, consumed, copied⟩ : ∃ s,
      inputMachine.run (blockRead bs)
        [.pushLimit 8190, .next, .popLimit, .receive [0, 0]] = some s ∧
        s.received = bs ++ [0, 0] ∧ s.buf.consumedBytes = 8190 ∧ s.buf.copyLen.toNat = 2 :=
    ⟨_, rfl, rfl, rfl, rfl⟩
  have run : inputMachine.run inputMachine.start
      [.receive bs, .pushLimit 8190, .next, .popLimit, .receive [0, 0]] = some s := by
    rw [Machine.run, first, Option.bind_some, hs]
  have inv := (input_reach_inv (Machine.reach_run Machine.ReachWith.start run)).inv
  have last : bs.drop 8190 = [7, 7] := by
    rw [← hbs, List.drop_replicate]
    rfl
  have long : 8190 ≤ bs.length := by
    rw [← hbs, List.length_replicate]
    omega
  have unread : s.buf.unread = le32 1799 := by
    rw [inv.unread_eq, received, consumed, List.drop_append_of_le_length long, last]
    decide
  have reads : 4 ≤ s.buf.readBytes := by
    rw [← inv.unread_length, unread]
    decide
  refine ⟨s, run, unread, InputBuffer.not_decodes_of_cut inv reads ?_ ?_⟩
  · rw [consumed]
    decide
  · rw [unread, copied]
    decide

theorem fetch_uint32_decodes_iff_whole_at_two :
    ∃ s, inputMachine.run inputMachine.start [.receive [2, 0, 0, 0]] = some s ∧
      ∀ value, ∃ v c, s.buf.fetchUint32 value = some (true, v, c) ∧ fromLe (slice v 0 4) = 2 := by
  obtain ⟨s, hs, written, whole⟩ : ∃ s,
      inputMachine.run inputMachine.start [.receive [2, 0, 0, 0]] = some s ∧
        le32 2 <+: s.buf.unread ∧ Whole s.buf.consumedBytes := ⟨_, rfl, ⟨[], rfl⟩, by decide⟩
  have reached := Machine.reach_run (Machine.ReachWith.start) hs
  exact ⟨s, hs, (fetch_uint32_decodes_iff_whole s reached).2.2 2 (by decide) written whole⟩

end Xuanqiong
