import Xuanqiong.Net.UringWrite

/-! When output on the ring is stranded. `back_left_` counts all that was pending at a submission
and only its own completion takes it down, so a completion that reports anything else leaves it
positive with nothing in flight, and `async_write` submits nothing from then on. -/
namespace Xuanqiong

/- A completion reports all that was pending when it was submitted. -/
def CompletesInFull (c : UringRun) : UringOp → Prop
  | .complete _ res => res = c.backLeft
  | _ => True

def UringOp.resumes : UringOp → Bool
  | .resumeWrite | .complete _ _ | .readEof => true
  | .append _ | .next _ | .backUp _ => false

namespace UringRun

def Moving (c : UringRun) : Prop := 0 < c.backLeft → c.inflight ≠ []

structure Settled (c : UringRun) : Prop where
  moving : c.Moving
  submitted : c.closed = false → 0 < c.writeBytes → c.inflight ≠ []

def Stalled (c : UringRun) : Prop := 0 < c.backLeft ∧ c.inflight = []

theorem Moving.asyncWrite {c : UringRun} (h : c.Moving) :
    c.asyncWrite.1.Moving ∧ (c.asyncWrite.2 = true → c.asyncWrite.1.inflight ≠ []) := by
  unfold UringRun.asyncWrite
  split
  · rename_i left
    exact ⟨h, fun _ => h left⟩
  · simp only
    split
    · rename_i empty
      refine ⟨fun left => ?_, fun suspended => by cases suspended⟩
      simp only at left
      omega
    · exact ⟨fun _ => by simp, fun _ => by simp⟩

theorem Moving.sendLoop {c d : UringRun} (h : c.Moving) {fuel : Nat}
    (hs : UringRun.sendLoop fuel c = some d) : d.Settled := by
  induction fuel generalizing c with
  | zero => cases hs
  | succ fuel ih =>
    obtain ⟨moving, suspended⟩ := h.asyncWrite
    simp only [UringRun.sendLoop] at hs
    split at hs
    · rename_i waits
      cases hs
      exact ⟨moving, fun _ _ => suspended waits⟩
    · split at hs
      · rename_i closed
        cases hs
        exact ⟨moving, fun opened => absurd closed (by simpa using opened)⟩
      · split at hs
        · exact ih moving hs
        · rename_i empty
          cases hs
          exact ⟨moving, fun _ some => absurd some empty⟩

theorem Moving.resumeWrite {c d : UringRun} (h : c.Moving) (hs : c.resumeWrite = some d) :
    d.Settled := by
  unfold UringRun.resumeWrite at hs
  split at hs
  · exact h.sendLoop hs
  · split at hs
    · rename_i closed
      cases hs
      exact ⟨h, fun opened => absurd closed (by simpa using opened)⟩
    · split at hs
      · exact h.sendLoop hs
      · rename_i empty
        cases hs
        exact ⟨h, fun _ some => absurd some empty⟩
  · cases hs

theorem complete_in_full {c d : UringRun} {iovs : List Region}
    (hs : c.complete iovs c.backLeft = some d) :
    d.Settled := by
  obtain ⟨bytes, _, hs⟩ := Option.bind_eq_some_iff.mp hs
  split at hs
  · obtain ⟨e, he, hd⟩ := Option.bind_eq_some_iff.mp hs
    obtain ⟨b, _, rfl⟩ := Option.map_eq_some_iff.mp he
    refine Moving.resumeWrite (fun left => ?_) hd
    have zero : (sizeAdd c.backLeft (-c.backLeft) : Int) = c.backLeft + -c.backLeft :=
      sizeAdd_of_nonneg (by omega)
    simp only at left
    omega
  · cases hs

end UringRun

theorem UringRun.output_flight {c d : UringRun} {op : OutputOp} {appended : List UInt8}
    (hs : c.output op appended = some d) : d.backLeft = c.backLeft ∧ d.inflight = c.inflight := by
  obtain ⟨out, _, rfl⟩ := Option.map_eq_some_iff.mp hs
  exact ⟨rfl, rfl⟩

theorem UringRun.Moving.readEof {c d : UringRun} (h : c.Moving) (hs : c.readEof = some d) :
    d.Settled := by
  unfold UringRun.readEof at hs
  split at hs
  · exact Moving.resumeWrite (c := { c with closed := true }) h hs
  · cases hs
    exact ⟨h, fun opened => by cases opened⟩

theorem moving_step {c d : UringRun} {op : UringOp} (h : c.Moving) (full : CompletesInFull c op)
    (hs : uringMachine.step c op = some d) : d.Moving ∧ (op.resumes → d.Settled) := by
  cases op with
  | append bs | next fill | backUp k =>
    obtain ⟨left, flight⟩ := UringRun.output_flight hs
    refine ⟨?_, fun resumed => by cases resumed⟩
    rw [UringRun.Moving, left, flight]
    exact h
  | resumeWrite =>
    have settled := UringRun.Moving.resumeWrite (c := { c with out := ⟨c.out.buf, 0⟩ }) h hs
    exact ⟨settled.moving, fun _ => settled⟩
  | complete iovs res =>
    cases full
    simp only [uringMachine] at hs
    split at hs
    · have settled := UringRun.complete_in_full (c := { c with out := ⟨c.out.buf, 0⟩ }) hs
      exact ⟨settled.moving, fun _ => settled⟩
    · cases hs
  | readEof =>
    have settled := UringRun.Moving.readEof (c := { c with out := ⟨c.out.buf, 0⟩ }) h hs
    exact ⟨settled.moving, fun _ => settled⟩

namespace UringRun

theorem Stalled.asyncWrite {c : UringRun} (h : c.Stalled) : c.asyncWrite = (c, true) := if_pos h.1

theorem Stalled.resumeWrite {c d : UringRun} (h : c.Stalled) (hs : c.resumeWrite = some d) :
    d.Stalled := by
  simp only [UringRun.resumeWrite, UringRun.sendLoop, h.asyncWrite, if_true] at hs
  split at hs
  · cases hs
    exact h
  · split at hs
    · cases hs
      exact h
    · split at hs <;>
      · cases hs
        exact h
  · cases hs

theorem Inv.submitted_length {c : UringRun} (h : c.Inv) {iovs : List Region} {bytes : List UInt8}
    (hm : iovs ∈ c.inflight) (hb : c.out.buf.readRegions iovs = some bytes) :
    bytes.length ≤ c.backLeft := by
  rcases h.flight with none | ⟨b, hf, inv, hg, left, _⟩
  · rw [none] at hm
    cases hm
  · rw [hf, List.mem_singleton] at hm
    subst hm
    have grown := hg.trans (OutputBuffer.retract_grows _ h.region)
    have taken := grown.readRegions inv.toShape h.refines.inv.toShape
    cases hb.symm.trans taken
    have counted : b.bytes = b.pending.length := inv.counted
    rw [left, counted]
    exact b.take_pending.length_le

theorem Inv.complete_otherwise {c d : UringRun} (h : c.Inv) {iovs : List Region} {res : Int}
    (hm : iovs ∈ c.inflight) (other : res ≠ c.backLeft) (hs : c.complete iovs res = some d) :
    d.Stalled := by
  obtain ⟨hone, _⟩ := h.snapshot hm
  obtain ⟨bytes, hb, hs⟩ := Option.bind_eq_some_iff.mp hs
  have covered := h.submitted_length hm hb
  split at hs
  · rename_i bound
    obtain ⟨e, he, hd⟩ := Option.bind_eq_some_iff.mp hs
    obtain ⟨b, _, rfl⟩ := Option.map_eq_some_iff.mp he
    have less : (sizeAdd c.backLeft (-res) : Int) = c.backLeft + -res :=
      sizeAdd_of_nonneg (by omega)
    refine Stalled.resumeWrite ⟨?_, ?_⟩ hd
    · simp only
      omega
    · simp only [hone, List.erase_cons_head]
  · cases hs

end UringRun

theorem stalled_step {c d : UringRun} {op : UringOp} (h : c.Stalled)
    (hs : uringMachine.step c op = some d) : d.Stalled := by
  cases op with
  | append bs | next fill | backUp k =>
    obtain ⟨left, flight⟩ := UringRun.output_flight hs
    rw [UringRun.Stalled, left, flight]
    exact h
  | resumeWrite => exact UringRun.Stalled.resumeWrite (c := { c with out := ⟨c.out.buf, 0⟩ }) h hs
  | complete iovs res =>
    simp only [uringMachine, h.2, List.not_mem_nil, if_false] at hs
    cases hs
  | readEof =>
    have left : c.backLeft ≠ 0 := Nat.pos_iff_ne_zero.mp h.1
    simp only [uringMachine, UringRun.readEof, if_neg left, Option.some.injEq] at hs
    subst hs
    exact h

theorem stalled_run {c d : UringRun} {ops : List UringOp} (h : c.Stalled)
    (hr : uringMachine.run c ops = some d) : d.Stalled := by
  induction ops generalizing c with
  | nil =>
    cases hr
    exact h
  | cons op rest ih =>
    obtain ⟨e, he, hd⟩ := Option.bind_eq_some_iff.mp hr
    exact ih (stalled_step h he) hd

/-- As long as every completion reports all that was pending at its submission, `back_left_` is
positive only while a submission is in flight, and after each resume of `send_fn` on an open
connection pending output is in flight. Any other result of a completion, short or negative,
leaves `back_left_` positive and nothing in flight for the rest of the run. -/
theorem uring_output_moves (c : UringRun) (h : uringMachine.ReachWith CompletesInFull c) :
    (0 < c.backLeft → c.inflight ≠ []) ∧
    (∀ op d, CompletesInFull c op → uringMachine.step c op = some d → op.resumes →
      d.closed = false → 0 < d.writeBytes → d.inflight ≠ []) ∧
    ∀ iovs (res : Int) d, res ≠ c.backLeft → uringMachine.step c (.complete iovs res) = some d →
      ∀ ops e, uringMachine.run d ops = some e → 0 < e.backLeft ∧ e.inflight = [] := by
  have moving : c.Moving := h.invariant (fun left => absurd left (Nat.lt_irrefl 0))
    (fun _ _ _ hm full hs => (moving_step hm full hs).1)
  have inv := h.reach.invariant uring_start uring_step
  refine ⟨moving, ?_, ?_⟩
  · intro op d full hs resumed
    exact ((moving_step moving full hs).2 resumed).submitted
  · intro iovs res d other hs ops e hr
    simp only [uringMachine] at hs
    split at hs
    · rename_i hm
      exact stalled_run (inv.settle.complete_otherwise hm other hs) hr
    · cases hs

theorem uring_output_moves_after_full_completion :
    ∃ c, uringMachine.run uringMachine.start
        [.append [1, 2, 3], .resumeWrite, .append [4], .resumeWrite, .complete [⟨0, 0, 3⟩] 3] =
          some c ∧
      0 < c.backLeft ∧ c.inflight ≠ [] := by
  obtain ⟨c, hc, left⟩ : ∃ c, uringMachine.run uringMachine.start
      [.append [1, 2, 3], .resumeWrite, .append [4], .resumeWrite, .complete [⟨0, 0, 3⟩] 3] =
        some c ∧
        0 < c.backLeft := ⟨_, rfl, by decide⟩
  have along : uringMachine.Along CompletesInFull uringMachine.start
      [.append [1, 2, 3], .resumeWrite, .append [4], .resumeWrite, .complete [⟨0, 0, 3⟩] 3] := by
    refine ⟨trivial,
      fun _ h₁ => ⟨trivial, fun _ h₂ => ⟨trivial, fun _ h₃ => ⟨trivial, fun _ h₄ => ?_⟩⟩⟩⟩
    cases h₁
    cases h₂
    cases h₃
    cases h₄
    exact ⟨rfl, fun _ _ => trivial⟩
  exact ⟨c, hc, left, (uring_output_moves c (Machine.reachWith_run .start along hc)).1 left⟩

/- Two of three bytes, or an error: what is left is never submitted. -/
theorem uring_output_stranded :
    (∃ c, uringMachine.run uringMachine.start
        [.append [1, 2, 3], .resumeWrite, .complete [⟨0, 0, 3⟩] 2, .resumeWrite] = some c ∧
      c.closed = false ∧ 0 < c.writeBytes ∧ 0 < c.backLeft ∧ c.inflight = []) ∧
    ∃ c, uringMachine.run uringMachine.start
        [.append [1, 2, 3], .resumeWrite, .complete [⟨0, 0, 3⟩] (-11), .resumeWrite] = some c ∧
      c.closed = false ∧ 0 < c.writeBytes ∧ 0 < c.backLeft ∧ c.inflight = [] :=
  ⟨⟨_, rfl, rfl, by decide, by decide, rfl⟩, ⟨_, rfl, rfl, by decide, by decide, rfl⟩⟩

end Xuanqiong
