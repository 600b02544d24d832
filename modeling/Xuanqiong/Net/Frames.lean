import Mathlib.Data.List.Infix
import Xuanqiong.Net.Connection
import Xuanqiong.Util.FetchUint32

/-! Messages with their length in front of them, as both ends of a connection write and read
them: what reading a part of one takes from the stream, and what writing one adds to it. -/
namespace Xuanqiong

def message (bytes : List UInt8) : List UInt8 := le32 bytes.length ++ bytes

theorem length_message (bytes : List UInt8) : (message bytes).length = 4 + bytes.length := by
  simp [message]

theorem readBytes_of_consumed {received : List UInt8} {b d : InputBuffer} (hb : b.Inv received)
    (hd : d.Inv received) {k : Nat} (consumed : d.consumedBytes = b.consumedBytes + k) :
    d.readBytes + k = b.readBytes := by
  have := hb.counted
  have := hd.counted
  omega

theorem InputBuffer.Inv.take_expected {b : InputBuffer} {received bytes after : List UInt8}
    (h : b.Inv received) (feeds : b.unread <+: bytes ++ after)
    (enough : bytes.length ≤ b.readBytes) :
    b.unread.take bytes.length = bytes := by
  have first : bytes <+: b.unread :=
    List.prefix_of_prefix_length_le (List.prefix_append bytes after) feeds
      (h.unread_length ▸ enough)
  exact (List.prefix_iff_eq_take.mp first).symm

namespace Connection

theorem fetchUint32_front {c : Connection} {received : List UInt8} (inv : c.readBuf.Inv received)
    (enough : 4 ≤ c.readBytes) (memory : Nat → UInt8) :
    ∃ n b, c.fetchUint32 memory = some (some n, { c with readBuf := b }) ∧ b.Inv received ∧
      b.consumedBytes = c.readBuf.consumedBytes + 4 ∧ b.limit = c.readBuf.limit ∧
      (Whole c.readBuf.consumedBytes → n = fromLe (c.readBuf.unread.take 4)) := by
  by_cases whole : c.readBuf.cur.begin + 4 ≤ kBlockSize
  · obtain ⟨b, hb, hi, consumed, _, limit⟩ := InputBuffer.fetchUint32_whole inv enough whole memory
    refine ⟨fromLe (c.readBuf.unread.take 4), b, ?_, hi, consumed, limit, fun _ => rfl⟩
    have four : (c.readBuf.unread.take 4).length = 4 := by
      rw [List.length_take, inv.unread_length]
      exact Nat.min_eq_left enough
    have value := slice_store_self memory 0 (c.readBuf.unread.take 4)
    rw [four] at value
    simp [fetchUint32, hb, value]
  · obtain ⟨v, b, hb, hi, consumed, _, limit⟩ :=
      InputBuffer.fetchUint32_cut inv enough (Int.not_le.mp whole) memory
    exact ⟨fromLe (slice v 0 4), b, by simp [fetchUint32, hb], hi, consumed, limit,
      fun here => absurd (inv.whole_iff.mp here) whole⟩

theorem fetchUint32_spec {c : Connection} {received after : List UInt8} {n : Nat}
    (inv : c.readBuf.Inv received) (feeds : c.readBuf.unread <+: le32 n ++ after)
    (enough : 4 ≤ c.readBytes) (whole : Whole c.readBuf.consumedBytes) (small : n < 2 ^ 32)
    (memory : Nat → UInt8) :
    ∃ b, c.fetchUint32 memory = some (some n, { c with readBuf := b }) ∧ b.Inv received ∧
      b.consumedBytes = c.readBuf.consumedBytes + 4 ∧ b.limit = c.readBuf.limit := by
  obtain ⟨m, b, hb, hi, consumed, limit, value⟩ := fetchUint32_front inv enough memory
  have first : c.readBuf.unread.take 4 = le32 n := inv.take_expected feeds enough
  rw [first, fromLe_le32 n small] at value
  exact ⟨b, value whole ▸ hb, hi, consumed, limit⟩

/- A length of the wire that the buffered bytes cover cuts off just these bytes, also when it is the
largest `int`, which is no limit: nothing can follow then. -/
theorem pull_front {c : Connection} {received : List UInt8} {n : Nat} (inv : c.readBuf.Inv received)
    (enough : n ≤ c.readBytes) (small : (n : Int) < INT32_MAX ∨ c.readBytes < 2 ^ 31) :
    ∃ b, c.pull n = some (c.readBuf.unread.take n, { c with readBuf := b }) ∧ b.Inv received ∧
      b.consumedBytes = c.readBuf.consumedBytes + n := by
  have max : INT32_MAX = 2147483647 := rfl
  have int : toInt32 n = n := toInt32_of_lt (by omega)
  have limited : (c.readBuf.pushLimit n).Inv received := inv.set_limit _ (by omega)
  obtain ⟨pieces, b, run, spec⟩ :=
    InputBuffer.nexts_spec (c.readBytes + 1) limited (Nat.lt_succ_self _)
  have total : InputBuffer.sizes pieces = n := by
    by_cases finite : (n : Int) < INT32_MAX
    · exact spec.total rfl finite enough
    · have free : (c.readBuf.pushLimit n).limit = INT32_MAX := by
        show (n : Int) = INT32_MAX
        omega
      have all : (c.readBuf.pushLimit n).readBytes = c.readBytes := rfl
      have sizes := spec.total_free free
      omega
  have consumed := spec.consumed
  refine ⟨b, ?_, spec.inv, ?_⟩
  · have data := spec.data
    rw [total, Int.toNat_natCast] at data
    rw [pull, int, InputBuffer.pull_eq, run]
    exact congrArg (fun bytes => some (bytes, { c with readBuf := b })) data
  · rw [total] at consumed
    exact_mod_cast consumed

theorem pull_spec {c : Connection} {received bytes after : List UInt8}
    (inv : c.readBuf.Inv received) (feeds : c.readBuf.unread <+: bytes ++ after)
    (enough : bytes.length ≤ c.readBytes) (short : (bytes.length : Int) < INT32_MAX) :
    ∃ b, c.pull bytes.length = some (bytes, { c with readBuf := b }) ∧ b.Inv received ∧
      b.consumedBytes = c.readBuf.consumedBytes + bytes.length := by
  have front := pull_front inv enough (Or.inl short)
  rwa [inv.take_expected feeds enough] at front

theorem appendMessage_spec {c : Connection} (inv : c.writeBuf.Inv) (junk : Nat → UInt8)
    (message : List UInt8) :
    ∃ b, c.appendMessage junk message = some { c with writeBuf := b } ∧ b.Inv ∧
      b.pending = c.writeBuf.pending ++ (le32 message.length ++ message) := by
  obtain ⟨b, hb, hi, _, hp⟩ := OutputBuffer.append_spec inv (le32 message.length)
  obtain ⟨d, hd, hdi, hdp⟩ :=
    OutputBuffer.serialize_spec junk message.length hi message (Nat.le_refl _)
  exact ⟨d, by simp [appendMessage, hb, hd], hdi, by rw [hdp, hp, List.append_assoc]⟩

end Connection

end Xuanqiong
