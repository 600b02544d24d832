import Xuanqiong.Net.Coroutines

/-! `async_write` and the loop of `send_fn`, for every number of pending bytes. The number is a
`size_t`; the loop of `async_write` and its decision to suspend go by the `int` made from it. -/
namespace Xuanqiong

namespace Connection

variable {c d : Connection} {results : List WriteResult} {nwrite : Int} {taken : List UInt8}
  {suspend : Bool}

theorem asyncWrite_once (inv : c.writeBuf.Inv) (once : (accepts results).length ≤ 1)
    (loop : writeLoop c.writeBuf (toInt32 c.writeBytes) 0 [] results = some (nwrite, taken))
    (run : c.asyncWrite results = some (d, suspend)) :
    d.closed = c.closed ∧ suspend = (!c.closed && decide (nwrite < toInt32 c.writeBytes)) ∧
      d.writeBuf.Inv ∧ d.writeBuf.pending = c.writeBuf.pending.drop nwrite.toNat := by
  obtain ⟨_, bound, _⟩ := writeLoop_once inv once loop
  have front := (offered_front inv).length_le
  have fits : nwrite ≤ c.writeBuf.bytes := by
    rw [OutputBuffer.bytes, inv.counted]
    omega
  obtain ⟨b, sent, after, pending⟩ := OutputBuffer.sendAdd_spec inv fits
  simp only [asyncWrite, loop, Option.bind_some, sent, Option.map_some, Option.some.injEq,
    Prod.mk.injEq] at run
  obtain ⟨rfl, rfl⟩ := run
  exact ⟨rfl, rfl, after, pending⟩

/-- Whatever the kernel accepts at once, a call that does not ask to be suspended has handed over
all that was pending, and `send_fn` comes to its next suspension. -/
def DrainsOrSuspends (c : Connection) : Prop :=
  ∀ results nwrite taken d suspend, (accepts results).length ≤ 1 →
    writeLoop c.writeBuf (toInt32 c.writeBytes) 0 [] results = some (nwrite, taken) →
    c.asyncWrite results = some (d, suspend) →
    (suspend = false → taken = c.writeBuf.pending ∧ d.writeBuf.pending = []) ∧
      ∃ r, sendWrite c [results] = some r

/- The count fits an `int`, or what is left of it there exceeds all that a `writev` can take. -/
def CountFits (c : Connection) : Prop :=
  c.writeBytes < 2 ^ 31 ∨ ((offered c.writeBuf).length : Int) < toInt32 c.writeBytes

theorem toInt32_lt (n : Nat) : toInt32 n < 2 ^ 31 := by
  have := Int.bmod_lt (x := (n : Int)) (m := 2 ^ 32) (by decide)
  unfold toInt32
  omega

theorem drains_of_fits (inv : c.writeBuf.Inv) (opened : c.closed = false) (fits : c.CountFits) :
    c.DrainsOrSuspends := by
  intro results nwrite taken d suspend once loop run
  obtain ⟨nonneg, bound, rfl⟩ := writeLoop_once inv once loop
  obtain ⟨same, rfl, after, pending⟩ := asyncWrite_once inv once loop run
  have front := (offered_front inv).length_le
  have count : c.writeBytes = c.writeBuf.pending.length := inv.counted
  simp only [opened, Bool.not_false, Bool.true_and] at run same ⊢
  by_cases short : nwrite < toInt32 c.writeBytes
  · simp only [short, decide_true] at run ⊢
    exact ⟨nofun, (d, .write), by simp [sendWrite, run]⟩
  · -- so the count was right, and all of it has been taken
    have small : c.writeBytes < 2 ^ 31 := by
      rcases fits with small | big
      · exact small
      · omega
    have all : c.writeBuf.pending.length ≤ nwrite.toNat := by
      rw [toInt32_of_lt small] at short
      omega
    have empty : d.writeBuf.pending = [] := by rw [pending, List.drop_eq_nil_of_le all]
    have none : d.writeBytes = 0 := by
      have : d.writeBytes = d.writeBuf.pending.length := after.counted
      rw [this, empty]
      rfl
    simp only [short, decide_false] at run ⊢
    exact ⟨fun _ => ⟨List.take_of_length_le all, empty⟩, (d, .waitWrite), by
      simp [sendWrite, run, same, none]⟩

theorem writeLoop_exact {b : OutputBuffer} {need : Int} (offers : need ≤ (offered b).length) :
    ∃ results nwrite taken, (accepts results).length ≤ 1 ∧
      writeLoop b need 0 [] results = some (nwrite, taken) ∧ ¬ nwrite < need ∧
      taken.length ≤ need.toNat := by
  by_cases pos : 0 < need
  · refine ⟨[.accepted need.toNat], need, (offered b).take need.toNat, by simp [accepts], ?_,
      Int.lt_irrefl _, List.length_take_le _ _⟩
    have legal : 0 < need.toNat ∧ need.toNat ≤ (offered b).length := by omega
    have exact : (0 : Int) + need.toNat = need := by omega
    simp only [writeLoop, if_pos pos, if_pos legal, exact, Int.lt_irrefl, if_false, List.nil_append]
  · exact ⟨[], 0, [], by simp [accepts], by simp only [writeLoop, if_neg pos], pos, Nat.zero_le _⟩

theorem fits_of_drains (inv : c.writeBuf.Inv) (drains : c.DrainsOrSuspends) : c.CountFits := by
  by_contra unfit
  obtain ⟨big, offers⟩ := not_or.mp unfit
  have count : c.writeBytes = c.writeBuf.pending.length := inv.counted
  have below := toInt32_lt c.writeBytes
  obtain ⟨results, nwrite, taken, once, loop, enough, less⟩ :=
    writeLoop_exact (Int.not_lt.mp offers)
  obtain ⟨_, bound, _⟩ := writeLoop_once inv once loop
  have front := (offered_front inv).length_le
  obtain ⟨b, sent, _⟩ := OutputBuffer.sendAdd_spec inv (n := nwrite) (by
    rw [OutputBuffer.bytes, inv.counted]
    omega)
  have run : c.asyncWrite results = some ({ c with writeBuf := b }, false) := by
    simp only [asyncWrite, loop, Option.bind_some, sent, Option.map_some, enough, decide_false,
      Bool.and_false]
  have all := ((drains results nwrite taken _ false once loop run).1 rfl).1
  rw [all] at less
  omega

theorem spins (opened : c.closed = false) (none : toInt32 c.writeBytes ≤ 0)
    (left : c.writeBytes ≠ 0) :
    c.asyncWrite [] = some (c, false) ∧ ∀ k, sendWrite c (List.replicate k []) = .none := by
  have run : c.asyncWrite [] = some (c, false) := by
    simp [asyncWrite, writeLoop, OutputBuffer.sendAdd, Int.not_lt.mpr none]
  refine ⟨run, fun k => ?_⟩
  induction k with
  | zero => rfl
  | succ k ih => simp [List.replicate_succ, sendWrite, run, opened, left, ih]

end Connection

theorem output_reach_inv {s : OutputRun} (h : outputMachine.Reach s) : s.buf.Inv := by
  refine (h.invariant (I := fun s => ∃ q, Refines s q) ⟨_, start_refines⟩ ?_).elim fun _ rel =>
    rel.inv
  rintro s op t ⟨q, rel⟩ hs
  obtain ⟨q', _, rel'⟩ := step_refines s q op t rel hs
  exact ⟨q', rel'⟩

/-- For every content of the output buffer: `async_write` drains it or suspends if and only if the
number of bytes survives as an `int`. -/
theorem async_write_drains_iff_count_fits (s : OutputRun) (h : outputMachine.Reach s)
    (c : Connection) (out : c.writeBuf = s.buf) (opened : c.closed = false) : c.DrainsOrSuspends ↔
    c.CountFits := by
  have inv : c.writeBuf.Inv := out ▸ output_reach_inv h
  exact ⟨Connection.fits_of_drains inv, Connection.drains_of_fits inv opened⟩

theorem async_write_drains_iff_count_fits_at_three_bytes :
    ∃ s d, outputMachine.Reach s ∧ s.buf.pending = [1, 2, 3] ∧
      Connection.asyncWrite ⟨InputBuffer.init, s.buf, false⟩
        [.eintr, .accepted 3] = some (d, false) ∧
      d.writeBuf.pending = [] ∧
      ∃ r, sendWrite ⟨InputBuffer.init, s.buf, false⟩ [[.eintr, .accepted 3]] = some r := by
  obtain ⟨s, hs, bytes, pending, loop⟩ : ∃ s,
      outputMachine.run outputMachine.start [.append [1, 2, 3]] = some s ∧ s.buf.bytes = 3 ∧
      s.buf.pending = [1, 2, 3] ∧ writeLoop s.buf 3 0 [] [.eintr, .accepted 3] =
        some (3, [1, 2, 3]) :=
    ⟨_, rfl, rfl, rfl, rfl⟩
  have three : toInt32 s.buf.bytes = 3 := by rw [bytes, toInt32_of_lt (by decide)]; rfl
  have reached := Machine.reach_run .start hs
  have fits : Connection.CountFits ⟨InputBuffer.init, s.buf, false⟩ := Or.inl (by
    show s.buf.bytes < 2 ^ 31
    omega)
  have drains := (async_write_drains_iff_count_fits s reached _ rfl rfl).mpr fits
  obtain ⟨b, sent, _⟩ := OutputBuffer.sendAdd_spec (output_reach_inv reached) (n := 3) (by omega)
  have write : Connection.asyncWrite ⟨InputBuffer.init, s.buf, false⟩ [.eintr, .accepted 3] =
      some (⟨InputBuffer.init, b, false⟩, false) := by
    simp [Connection.asyncWrite, Connection.writeBytes, loop, three, sent]
  obtain ⟨all, returns⟩ := drains _ 3 [1, 2, 3] _ _ (by decide) (by
    show writeLoop s.buf (toInt32 s.buf.bytes) 0 [] _ = _
    rw [three, loop]) write
  exact ⟨s, _, reached, pending, write, (all rfl).2, returns⟩

/- Two gigabytes are a negative `int`: nothing is written, nobody waits, and `send_fn` goes
round for ever. -/
theorem async_write_spins_at_two_gigabytes :
    ∃ s, outputMachine.Reach s ∧ ∃ c : Connection, c.writeBuf = s.buf ∧ c.closed = false ∧
      c.writeBuf.pending.length = 2 ^ 31 ∧
      writeLoop c.writeBuf (toInt32 c.writeBytes) 0 [] [] = some (0, []) ∧
      c.asyncWrite [] = some (c, false) ∧ ∀ k, sendWrite c (List.replicate k []) = none := by
  obtain ⟨b, run, inv, _, pending⟩ :=
    OutputBuffer.append_spec OutputBuffer.init_inv (List.replicate (2 ^ 31) 0)
  have length : b.pending.length = 2 ^ 31 := by
    rw [pending, List.length_append, List.length_replicate]
    rfl
  have bytes : b.bytes = 2 ^ 31 := inv.counted.trans length
  have step : outputMachine.step outputMachine.start (.append (List.replicate (2 ^ 31) 0)) =
      some ⟨b, 0⟩ := by
    simp only [outputMachine, run, Option.map_some]
  have negative : toInt32 b.bytes ≤ 0 := by
    rw [bytes, toInt32_of_ge (Nat.le_refl _) (by decide)]
    decide
  refine ⟨⟨b, 0⟩, Machine.Reach.step .start step, ⟨InputBuffer.init, b, false⟩, rfl, rfl,
    length, ?_, Connection.spins rfl negative ?_⟩
  · simp only [Connection.writeBytes, writeLoop, Int.not_lt.mpr negative, if_false]
  · show b.bytes ≠ 0
    rw [bytes]
    decide

end Xuanqiong
