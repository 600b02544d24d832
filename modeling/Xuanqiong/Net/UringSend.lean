import Xuanqiong.Net.UringStall
import Xuanqiong.Util.ZeroCopy

/-! What a resume of `send_fn` on the ring leaves behind, and what of the buffer stays as it was. As
long as output is announced by a resume and a closed connection has nothing left to submit,
`send_fn` ends only when nothing of its own is in flight. -/
namespace Xuanqiong

namespace OutputBuffer

theorem serialize_grows (junk : Nat → UInt8) (fuel : Nat) {b c : OutputBuffer} (h : b.Inv)
    (bs : List UInt8) (run : serialize junk fuel b bs = some c) : Grows b c := by
  induction fuel generalizing b bs with
  | zero =>
    cases bs with
    | nil =>
      cases run
      exact .refl _
    | cons => cases run
  | succ fuel ih =>
    cases bs with
    | nil =>
      simp only [serialize, Option.some.injEq] at run
      exact run ▸ .refl b
    | cons byte rest =>
      have size := (next_region h).2.2.1
      simp only [serialize] at run
      generalize hn : min (byte :: rest).length b.next.1.size.toNat = n at run
      have filled :
          ((((byte :: rest).take n ++ slice junk 0 (b.next.1.size.toNat - n)).length : Nat) : Int) =
          b.next.1.size := by
        simp only [List.length_append, List.length_take, slice_length]
        omega
      obtain ⟨inv, grown, _, stop, room⟩ := next_fill_spec h _ filled
      split at run
      · cases run
        refine (next_fill_grows h _).trans (backUp_grows inv (Int.natCast_nonneg _) (by omega) ?_)
        rw [stop]
        omega
      · exact grown.trans (ih inv _ run)

end OutputBuffer

namespace UringRun

structure Same (c d : UringRun) : Prop where
  out : d.out = c.out
  closed : d.closed = c.closed
  kernel : d.kernel = c.kernel

theorem asyncWrite_same (c : UringRun) : c.Same c.asyncWrite.1 := by
  unfold asyncWrite
  split
  · exact ⟨rfl, rfl, rfl⟩
  · dsimp only
    split <;> exact ⟨rfl, rfl, rfl⟩

theorem sendLoop_same {fuel : Nat} {c d : UringRun} (hs : sendLoop fuel c = some d) : c.Same d := by
  induction fuel generalizing c with
  | zero => cases hs
  | succ fuel ih =>
    obtain ⟨out, closed, kernel⟩ := c.asyncWrite_same
    simp only [sendLoop] at hs
    split at hs
    · cases hs
      exact ⟨out, closed, kernel⟩
    · split at hs
      · cases hs
        exact ⟨out, closed, kernel⟩
      · split at hs
        · obtain ⟨out', closed', kernel'⟩ := ih hs
          exact ⟨out'.trans out, closed'.trans closed, kernel'.trans kernel⟩
        · cases hs
          exact ⟨out, closed, kernel⟩

theorem resumeWrite_same {c d : UringRun} (hs : c.resumeWrite = some d) : c.Same d := by
  unfold resumeWrite at hs
  split at hs
  · exact sendLoop_same hs
  · split at hs
    · cases hs
      exact ⟨rfl, rfl, rfl⟩
    · split at hs
      · exact sendLoop_same hs
      · cases hs
        exact ⟨rfl, rfl, rfl⟩
  · cases hs

theorem asyncWrite_ready {c : UringRun} (ready : c.asyncWrite.2 = false) :
    c.asyncWrite.1.closed = true ∨ c.asyncWrite.1.writeBytes = 0 := by
  unfold asyncWrite at ready ⊢
  split at ready
  · cases ready
  · rename_i free
    rw [if_neg free]
    dsimp only at ready ⊢
    split at ready
    · rename_i empty
      rw [if_pos empty]
      exact Or.inr empty
    · rename_i some
      rw [if_neg some]
      exact Or.inl (by simpa using ready)

theorem sendLoop_returns (fuel : Nat) (c : UringRun) : ∃ d, sendLoop (fuel + 1) c = some d := by
  simp only [sendLoop]
  split
  · exact ⟨_, rfl⟩
  · rename_i ready
    split
    · exact ⟨_, rfl⟩
    · rename_i opened
      have empty := (asyncWrite_ready (Bool.eq_false_iff.mpr ready)).resolve_left opened
      rw [if_neg (by omega)]
      exact ⟨_, rfl⟩

theorem resumeWrite_returns {c : UringRun} (alive : c.send ≠ .done) :
    ∃ d, c.resumeWrite = some d := by
  unfold resumeWrite
  cases send : c.send with
  | waitWrite => exact sendLoop_returns 1 c
  | write =>
    dsimp only
    split
    · exact ⟨_, rfl⟩
    · split
      · exact sendLoop_returns 1 c
      · exact ⟨_, rfl⟩
  | done => exact absurd send alive

/-- Where `send_fn` is between its resumes. Output that is not `announced` yet waits
for the next. -/
def Waits (announced : Prop) (c : UringRun) : Prop :=
  match c.send with
  | .waitWrite => c.backLeft = 0 ∧ (announced → c.writeBytes = 0)
  | .write => 0 < c.backLeft ∧ 0 < c.writeBytes
  | .done => c.closed = true ∧ c.inflight = []

/- What a resume of `send_fn` finds: `back_left_` counts pending bytes, and if the connection is
closed then nothing is in flight and nothing would be submitted. -/
structure Resumable (c : UringRun) : Prop where
  free : c.backLeft = 0 → c.inflight = []
  backed : 0 < c.backLeft → 0 < c.writeBytes
  closing : c.closed = true → c.inflight = [] ∧ (c.send = .waitWrite → c.writeBytes = 0)

theorem Inv.no_flight {c : UringRun} (h : c.Inv) (none : c.backLeft = 0) : c.inflight = [] := by
  rcases h.flight with empty | ⟨_, _, _, _, _, left⟩
  · exact empty
  · omega

theorem Inv.backLeft_le {c : UringRun} (h : c.Inv) (flight : c.inflight ≠ []) :
    0 < c.backLeft ∧ c.backLeft ≤ c.writeBytes := by
  rcases h.flight with empty | ⟨b, _, inv, grows, left, positive⟩
  · exact absurd empty flight
  · have grown := grows.trans (OutputBuffer.retract_grows _ h.region)
    have longer := (grown.pending inv.toShape).length_le
    have counted : c.out.buf.bytes = c.out.buf.pending.length := h.refines.inv.counted
    have counted' : b.bytes = b.pending.length := inv.counted
    refine ⟨positive, ?_⟩
    rw [left, writeBytes, counted, counted']
    exact longer

theorem sendLoop_waits {c d : UringRun} (h : c.Resumable)
    (closing : c.closed = true → c.writeBytes = 0) {fuel : Nat}
    (hs : sendLoop (fuel + 1) c = some d) : d.Waits True := by
  simp only [sendLoop] at hs
  unfold asyncWrite at hs
  by_cases left : 0 < c.backLeft
  · simp only [if_pos left, if_true] at hs
    cases hs
    exact ⟨left, h.backed left⟩
  · have none : c.backLeft = 0 := by omega
    by_cases empty : c.out.buf.bytes = 0
    · simp only [if_neg left, if_pos empty, Bool.false_eq_true, if_false] at hs
      split at hs
      · rename_i closed
        cases hs
        exact ⟨closed, h.free none⟩
      · have idle : ¬ 0 < ({ c with backLeft := c.out.buf.bytes } : UringRun).writeBytes := by
          simp only [writeBytes, empty]
          omega
        rw [if_neg idle] at hs
        cases hs
        exact ⟨empty, fun _ => empty⟩
    · have opened : c.closed = false := by
        by_contra closed
        exact empty (closing (by simpa using closed))
      simp only [if_neg left, if_neg empty, opened, Bool.not_false, if_true] at hs
      cases hs
      exact ⟨Nat.pos_of_ne_zero empty, Nat.pos_of_ne_zero empty⟩

theorem Resumable.waits {c d : UringRun} (h : c.Resumable) (hs : c.resumeWrite = some d) :
    d.Waits True := by
  unfold resumeWrite at hs
  cases hp : c.send with
  | waitWrite =>
    rw [hp] at hs
    exact sendLoop_waits h (fun closed => (h.closing closed).2 hp) hs
  | write =>
    rw [hp] at hs
    simp only at hs
    split at hs
    · rename_i closed
      cases hs
      exact ⟨closed, (h.closing closed).1⟩
    · rename_i opened
      split at hs
      · exact sendLoop_waits h (fun closed => absurd closed opened) hs
      · rename_i empty
        cases hs
        have none : c.backLeft = 0 := by
          by_contra left
          exact empty (h.backed (Nat.pos_of_ne_zero left))
        exact ⟨none, fun _ => by simp only [writeBytes] at empty ⊢; omega⟩
  | done =>
    rw [hp] at hs
    cases hs

theorem Inv.complete_credits {c d : UringRun} (h : c.Inv) (waits : c.Waits True)
    {iovs : List Region} {res : Int} (hm : iovs ∈ c.inflight) (hs : c.complete iovs res = some d) :
    d.Waits True ∧ d.closed = c.closed ∧ d.out.region = 0 ∧ ∃ n : Nat, n ≤ c.writeBytes ∧
      c.out.buf.sendAdd n = some d.out.buf ∧ d.kernel = c.kernel ++ c.out.buf.pending.take n := by
  obtain ⟨alone, bytes, read, front⟩ := h.snapshot hm
  have covered := h.submitted_length hm read
  obtain ⟨positive, backed⟩ := h.backLeft_le (List.ne_nil_of_mem hm)
  have length := front.length_le
  have counted : c.writeBytes = c.out.buf.pending.length := h.refines.inv.counted
  unfold UringRun.complete at hs
  rw [read, Option.bind_some] at hs
  split at hs
  · rename_i bound
    have le : (res.toNat : Int) ≤ c.out.buf.bytes := by
      simp only [writeBytes] at counted
      omega
    obtain ⟨b, hb, inv, pending⟩ := OutputBuffer.sendAdd_spec h.refines.inv le
    have credit : c.out.buf.sendAdd res = some b := by
      by_cases negative : res ≤ 0
      · rw [OutputBuffer.sendAdd, if_pos negative]
        rw [OutputBuffer.sendAdd, if_pos (by omega)] at hb
        exact hb
      · rw [Int.toNat_of_nonneg (by omega)] at hb
        exact hb
    have left : (sizeAdd c.backLeft (-res) : Int) = c.backLeft + -res :=
      sizeAdd_of_nonneg (by omega)
    have rest : b.bytes = b.pending.length := inv.counted
    rw [pending, List.length_drop, Int.toNat_natCast] at rest
    simp only [UringRun.sendAdd, credit, Option.map_some, Option.bind_some] at hs
    obtain ⟨out, closed, kernel⟩ := resumeWrite_same hs
    have none : c.inflight.erase iovs = [] := by rw [alone, List.erase_cons_head]
    have taken : bytes.take res.toNat = c.out.buf.pending.take res.toNat := by
      obtain ⟨more, hr⟩ := front
      rw [← hr, List.take_append_of_le_length (by omega)]
    refine ⟨Resumable.waits ⟨fun _ => none, ?_, ?_⟩ hs, closed, by rw [out], res.toNat, ?_, ?_, ?_⟩
    · intro some
      simp only at some
      show 0 < b.bytes
      omega
    · intro closed
      refine ⟨none, fun waitWrite => ?_⟩
      simp only at waitWrite
      rw [Waits, waitWrite] at waits
      exact absurd waits.1 (Nat.ne_of_gt positive)
    · simp only [writeBytes] at le ⊢
      omega
    · rw [out]
      exact hb
    · rw [kernel, taken]
  · cases hs

theorem Inv.readEof_waits {c d : UringRun} (h : c.Inv) (waits : c.Waits True)
    (hs : c.readEof = some d) :
    d.Waits True ∧ d.closed = true ∧ d.out = c.out ∧ d.kernel = c.kernel := by
  unfold UringRun.readEof at hs
  split at hs
  · rename_i none
    obtain ⟨out, closed, kernel⟩ := resumeWrite_same hs
    have resumable : Resumable { c with closed := true } := by
      refine ⟨h.no_flight, fun left => absurd none (Nat.ne_of_gt left),
        fun _ => ⟨h.no_flight none, ?_⟩⟩
      intro waitWrite
      simp only at waitWrite
      rw [Waits, waitWrite] at waits
      exact waits.2 trivial
    exact ⟨resumable.waits hs, closed, out, kernel⟩
  · cases hs
    refine ⟨?_, rfl, rfl, rfl⟩
    unfold Waits at waits ⊢
    cases hp : c.send with
    | waitWrite | write =>
      rw [hp] at waits
      exact waits
    | done =>
      rw [hp] at waits
      exact ⟨rfl, waits.2⟩

theorem Waits.of_flight {c : UringRun} (h : c.Inv) (waits : c.Waits True)
    (flight : c.inflight ≠ []) :
    c.send = .write := by
  unfold Waits at waits
  cases send : c.send with
  | waitWrite =>
    rw [send] at waits
    exact absurd waits.1 (Nat.ne_of_gt (h.backLeft_le flight).1)
  | write => rfl
  | done =>
    rw [send] at waits
    exact absurd waits.2 flight

theorem Inv.complete_returns {c : UringRun} (h : c.Inv) (waits : c.Waits True) {iovs : List Region}
    (hm : iovs ∈ c.inflight) : ∃ bytes, c.out.buf.readRegions iovs = some bytes ∧
      ∀ res : Int, res ≤ bytes.length → ∃ d, c.complete iovs res = some d := by
  obtain ⟨_, bytes, read, front⟩ := h.snapshot hm
  refine ⟨bytes, read, fun res bound => ?_⟩
  have counted : c.out.buf.bytes = c.out.buf.pending.length := h.refines.inv.counted
  have length := front.length_le
  obtain ⟨b, hb, _⟩ := OutputBuffer.sendAdd_spec h.refines.inv (n := res) (by omega)
  have alive := waits.of_flight h (List.ne_nil_of_mem hm)
  simp only [UringRun.complete, read, Option.bind_some, if_pos bound, UringRun.sendAdd, hb,
    Option.map_some]
  apply resumeWrite_returns
  simp only [alive]
  decide

theorem readEof_returns {c : UringRun} (alive : c.send ≠ .done) : ∃ d, c.readEof = some d := by
  unfold UringRun.readEof
  split
  · exact resumeWrite_returns alive
  · exact ⟨_, rfl⟩

end UringRun

end Xuanqiong
