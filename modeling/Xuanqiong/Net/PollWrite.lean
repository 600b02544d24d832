import Mathlib.Algebra.Ring.Nat
import Xuanqiong.Util.OutputQueue

/-! The write path of a polled connection: `async_write` asks the kernel with the pending
bytes until it has counted enough, and only then advances the buffer. -/
namespace Xuanqiong

/- What a `writev` returned: a count, or an errno that the loop tells apart. -/
inductive WriteResult where
  | accepted (n : Nat)
  | eintr
  | eagain
  | failed
  deriving DecidableEq

def offered (b : OutputBuffer) : List UInt8 := (b.readRegions b.getIovecs).getD []

/-- The loop of `async_write`: `nwrite`, and what the kernel took on the way. The iovecs
are computed again on every turn, from a buffer that no turn advances. No result stands
for a call that has not returned yet, or for a count no kernel reports. -/
def writeLoop (b : OutputBuffer) (needWrite : Int) :
    Int → List UInt8 → List WriteResult → Option (Int × List UInt8)
  | nwrite, taken, [] => if nwrite < needWrite then none else some (nwrite, taken)
  | nwrite, taken, r :: rest =>
    if nwrite < needWrite then
      match r with
      | .accepted n =>
        if 0 < n ∧ n ≤ (offered b).length then
          writeLoop b needWrite (nwrite + n) (taken ++ (offered b).take n) rest
        else none
      | .eintr => writeLoop b needWrite nwrite taken rest
      | .eagain => if rest = [] then some (nwrite, taken) else none
      | .failed => if rest = [] then some (nwrite, taken) else none
    else none

/- `appended` are all bytes ever put in, `kernel` all bytes ever taken. `credit` is the
count of a finished loop on its way to `send_add`. -/
structure PollWriteRun where
  out : OutputRun
  credit : Option Int
  appended : List UInt8
  kernel : List UInt8

inductive PollWriteOp where
  | append (bs : List UInt8)
  | next (fill : List UInt8)
  | backUp (count : Int)
  | writev (results : List WriteResult)
  | sendAdd

def PollWriteRun.output (s : PollWriteRun) (op : OutputOp) (appended : List UInt8) :
    Option PollWriteRun :=
  if s.credit = none then
    (outputMachine.step s.out op).map (fun out => { s with out := out, appended := appended })
  else none

/- Everything runs on the executor's thread, so nothing comes between a loop and its
`send_add`. -/
def pollWriteMachine : Machine PollWriteRun PollWriteOp where
  start := ⟨outputMachine.start, none, [], []⟩
  step s
    | .append bs => s.output (.append bs) (s.appended ++ bs)
    | .next fill => s.output (.next fill) (s.appended ++ fill)
    | .backUp k => s.output (.backUp k) (s.appended.take (s.appended.length - k.toNat))
    | .writev rs =>
      if s.credit = none then
        (writeLoop s.out.buf (toInt32 s.out.buf.bytes) 0 [] rs).map (fun r =>
          { s with out := ⟨s.out.buf, 0⟩, credit := some r.1, kernel := s.kernel ++ r.2 })
      else none
    | .sendAdd =>
      s.credit.bind (fun n =>
        (s.out.buf.sendAdd n).map (fun b => { s with out := ⟨b, 0⟩, credit := none }))

def accepts : List WriteResult → List Nat
  | [] => []
  | .accepted n :: rest => n :: accepts rest
  | _ :: rest => accepts rest

/-- Each turn that is not refused takes its count from the front of the same bytes. -/
theorem writeLoop_taken (b : OutputBuffer) (need : Int) (rs : List WriteResult) (nwrite n : Int)
    (taken all : List UInt8) (h : writeLoop b need nwrite taken rs = some (n, all)) :
    n = nwrite + (accepts rs).sum ∧ all = taken ++ (accepts rs).flatMap (offered b).take ∧
      ∀ k ∈ accepts rs, k ≤ (offered b).length := by
  induction rs generalizing nwrite taken with
  | nil =>
    unfold writeLoop at h
    split at h
    · cases h
    · cases Option.some.inj h
      simp [accepts]
  | cons r rest ih =>
    unfold writeLoop at h
    split at h
    · cases r with
      | accepted k =>
        simp only at h
        split at h
        · rename_i bound
          obtain ⟨hn, ha, hk⟩ := ih _ _ h
          refine ⟨?_, ?_, ?_⟩
          · simp only [accepts, List.sum_cons]
            omega
          · rw [ha, accepts, List.flatMap_cons, List.append_assoc]
          · intro j hj
            rcases List.mem_cons.mp hj with rfl | hj
            · exact bound.2
            · exact hk j hj
        · cases h
      | eintr => exact ih _ _ h
      | eagain =>
        simp only at h
        split at h
        · rename_i hr
          cases Option.some.inj h
          simp [accepts, hr]
        · cases h
      | failed =>
        simp only at h
        split at h
        · rename_i hr
          cases Option.some.inj h
          simp [accepts, hr]
        · cases h
    · cases h

theorem offered_front {b : OutputBuffer} (h : b.Inv) : offered b <+: b.pending := by
  rw [offered, (OutputBuffer.Grows.refl b).readRegions h.toShape h.toShape]
  exact b.take_pending

theorem writeLoop_once {b : OutputBuffer} (inv : b.Inv) {need : Int} {rs : List WriteResult}
    (once : (accepts rs).length ≤ 1) {n : Int} {taken : List UInt8}
    (hw : writeLoop b need 0 [] rs = some (n, taken)) :
    0 ≤ n ∧ n ≤ (offered b).length ∧ taken = b.pending.take n.toNat := by
  obtain ⟨hn, ht, hk⟩ := writeLoop_taken _ _ _ _ _ _ _ hw
  cases ha : accepts rs with
  | nil =>
    simp only [ha, List.sum_nil, List.flatMap_nil, List.append_nil] at hn ht
    subst hn ht
    exact ⟨by omega, by omega, rfl⟩
  | cons k more =>
    have hmore : more = [] := by
      rw [ha, List.length_cons] at once
      exact List.eq_nil_of_length_eq_zero (by omega)
    have hle := hk k (by rw [ha]; exact List.mem_cons_self)
    rw [ha, hmore] at hn ht
    simp only [List.sum_cons, List.sum_nil, List.flatMap_cons, List.flatMap_nil, List.append_nil,
      List.nil_append] at hn ht
    have hcut : (offered b).take k = b.pending.take k := by
      obtain ⟨tail, ht⟩ := offered_front inv
      rw [← ht, List.take_append_of_le_length hle]
    have hnat : n.toNat = k := by omega
    exact ⟨by omega, by omega, by rw [ht, hcut, hnat]⟩

def WritesOnce (_ : PollWriteRun) : PollWriteOp → Prop
  | .writev rs => (accepts rs).length ≤ 1
  | _ => True

/-- What the kernel has, then what is pending and not yet credited, is what was put in. -/
structure PollWriteRun.Inv (s : PollWriteRun) : Prop where
  refines : Refines s.out ⟨s.out.buf.pending, s.out.region⟩
  idle : s.credit = none → s.kernel ++ s.out.buf.pending = s.appended
  credited : ∀ n, s.credit = some n →
    n ≤ s.out.buf.bytes ∧ s.kernel ++ s.out.buf.pending.drop n.toNat = s.appended

theorem output_keeps {s t : PollWriteRun} {op : OutputOp} {appended : List UInt8} (h : s.Inv)
    (hs : s.output op appended = some t)
    (ends : s.kernel ++ s.out.buf.pending = s.appended → ∀ q,
      queueMachine.step ⟨s.out.buf.pending, s.out.region⟩ op = some q →
      s.kernel ++ q.contents = appended) : t.Inv := by
  unfold PollWriteRun.output at hs
  split at hs
  · rename_i idle
    obtain ⟨out, ho, rfl⟩ := Option.map_eq_some_iff.mp hs
    obtain ⟨q, hq, rel⟩ := step_refines _ _ _ _ h.refines ho
    have hc := rel.contents
    refine ⟨?_, ?_, ?_⟩
    · simp only [hc, rel.region]
      exact rel
    · intro _
      simp only [hc]
      exact ends (h.idle idle) q hq
    · intro n hn
      rw [idle] at hn
      cases hn
  · cases hs

theorem writev_keeps {s : PollWriteRun} (h : s.Inv) (idle : s.credit = none) {rs : List WriteResult}
    (once : (accepts rs).length ≤ 1) {n : Int} {taken : List UInt8}
    (hw : writeLoop s.out.buf (toInt32 s.out.buf.bytes) 0 [] rs = some (n, taken)) :
    n ≤ s.out.buf.bytes ∧ s.kernel ++ taken ++ s.out.buf.pending.drop n.toNat = s.appended := by
  obtain ⟨_, bound, rfl⟩ := writeLoop_once h.refines.inv once hw
  have front := (offered_front h.refines.inv).length_le
  have hcount := h.refines.inv.counted
  refine ⟨by rw [OutputBuffer.bytes]; omega, ?_⟩
  rw [List.append_assoc, List.take_append_drop]
  exact h.idle idle

theorem poll_write_step (s : PollWriteRun) (op : PollWriteOp) (t : PollWriteRun) (h : s.Inv)
    (once : WritesOnce s op) (hs : pollWriteMachine.step s op = some t) : t.Inv := by
  cases op with
  | append bs =>
    refine output_keeps h hs ?_
    intro idle q hq
    cases Option.some.inj hq
    rw [← idle, List.append_assoc]
  | next fill =>
    refine output_keeps h hs ?_
    intro idle q hq
    simp only [queueMachine] at hq
    split at hq
    · cases hq
    · cases Option.some.inj hq
      rw [← idle, List.append_assoc]
  | backUp k => exact output_keeps h hs (fun idle q hq => backUp_conserves h.refines idle k q hq)
  | writev rs =>
    simp only [pollWriteMachine] at hs
    split at hs
    · rename_i idle
      obtain ⟨r, hr, rfl⟩ := Option.map_eq_some_iff.mp hs
      have kept := writev_keeps h idle once hr
      refine ⟨.settled h.refines.inv rfl, ?_, ?_⟩
      · intro hn
        cases hn
      · intro n hn
        cases Option.some.inj hn
        exact kept
    · cases hs
  | sendAdd =>
    obtain ⟨n, hn, ht⟩ := Option.bind_eq_some_iff.mp hs
    obtain ⟨bound, ends⟩ := h.credited n hn
    obtain ⟨b, hb, inv, hp⟩ := OutputBuffer.sendAdd_spec h.refines.inv bound
    simp only [hb, Option.map_some, Option.some.injEq] at ht
    subst ht
    refine ⟨.settled inv rfl, ?_, ?_⟩
    · intro _
      simp only [hp]
      exact ends
    · intro m hm
      cases hm

theorem poll_write_start : pollWriteMachine.start.Inv :=
  ⟨start_refines, fun _ => rfl, fun n hn => by cases hn⟩

/-- As long as no call is accepted twice, what the kernel took and what is pending make up
what was put in, and `send_add` is passed at most `bytes()` and returns. -/
theorem poll_write_exactly_once (s : PollWriteRun) (h : pollWriteMachine.ReachWith WritesOnce s) :
    (s.credit = none → s.kernel ++ s.out.buf.pending = s.appended) ∧
    ∀ n, s.credit = some n → n ≤ s.out.buf.bytes ∧
      ∃ b, s.out.buf.sendAdd n = some b ∧ s.kernel ++ b.pending = s.appended := by
  have inv := h.invariant poll_write_start poll_write_step
  refine ⟨inv.idle, ?_⟩
  intro n hn
  obtain ⟨bound, ends⟩ := inv.credited n hn
  obtain ⟨b, hb, _, hp⟩ := OutputBuffer.sendAdd_spec inv.refines.inv bound
  exact ⟨bound, b, hb, by rw [hp]; exact ends⟩

theorem poll_write_exactly_once_after_short_count :
    ∃ s, pollWriteMachine.run pollWriteMachine.start
        [.append [1, 2, 3], .writev [.eintr, .accepted 2, .eagain], .sendAdd] = some s ∧
      s.kernel = [1, 2] ∧ s.kernel ++ s.out.buf.pending = s.appended := by
  obtain ⟨s, hs, hk, hc⟩ : ∃ s, pollWriteMachine.run pollWriteMachine.start
      [.append [1, 2, 3], .writev [.eintr, .accepted 2, .eagain], .sendAdd] = some s ∧
      s.kernel = [1, 2] ∧ s.credit = none := ⟨_, rfl, rfl, rfl⟩
  have once : ∀ op ∈ [PollWriteOp.append [1, 2, 3], .writev [.eintr, .accepted 2, .eagain],
      .sendAdd],
      ∀ s, WritesOnce s op := by
    simp [WritesOnce, accepts]
  have reached := Machine.reachWith_run .start (Machine.along_of_forall once _) hs
  exact ⟨s, hs, hk, (poll_write_exactly_once s reached).1 hc⟩

/-- After a short count the loop asks again from the first byte: the kernel gets it twice,
and a later count can exceed all that was pending. -/
theorem poll_write_repeats_bytes :
    (∃ s, pollWriteMachine.Reach s ∧ s.credit = none ∧ s.appended = [1, 2, 3] ∧
      s.kernel ++ s.out.buf.pending = [1, 1, 3]) ∧
    ∃ s, pollWriteMachine.Reach s ∧ s.credit = some 4 ∧ s.out.buf.bytes = 3 := by
  constructor
  · have hr : ∃ s, pollWriteMachine.run pollWriteMachine.start
        [.append [1, 2, 3], .writev [.accepted 1, .accepted 1, .eagain], .sendAdd] = some s ∧
        s.credit = none ∧ s.appended = [1, 2, 3] ∧ s.kernel ++ s.out.buf.pending = [1, 1, 3] :=
      ⟨_, rfl, rfl, rfl, rfl⟩
    obtain ⟨s, hs, rest⟩ := hr
    exact ⟨s, Machine.reach_run .start hs, rest⟩
  · have hr : ∃ s, pollWriteMachine.run pollWriteMachine.start
        [.append [1, 2, 3], .writev [.accepted 1, .accepted 3]] = some s ∧
        s.credit = some 4 ∧ s.out.buf.bytes = 3 := ⟨_, rfl, rfl, rfl⟩
    obtain ⟨s, hs, rest⟩ := hr
    exact ⟨s, Machine.reach_run .start hs, rest⟩

end Xuanqiong
