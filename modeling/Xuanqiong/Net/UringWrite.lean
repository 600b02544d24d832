import Xuanqiong.Util.OutputQueue

/-! The write path of a connection on the ring: `send_fn` submits what is pending and is
resumed both by new output and by completions, while new output goes into the very
blocks that a submission in flight points to. -/
namespace Xuanqiong

inductive SendPoint where
  | waitWrite
  | write
  | done
  deriving DecidableEq

/-- `inflight` are the iovecs of the submissions that have not completed; `appended`
and `kernel` are all bytes ever put in and ever accepted. -/
structure UringRun where
  out : OutputRun
  backLeft : Nat
  inflight : List (List Region)
  closed : Bool
  send : SendPoint
  appended : List UInt8
  kernel : List UInt8

namespace UringRun

def writeBytes (c : UringRun) : Nat := c.out.buf.bytes

/- The awaiter's `should_suspend` is the second component. -/
def asyncWrite (c : UringRun) : UringRun × Bool :=
  -- if there are bytes left to back, suspend
  if 0 < c.backLeft then (c, true)
  else
    let c := { c with backLeft := c.out.buf.bytes }
    -- no bytes to write, do not suspend
    if c.backLeft = 0 then (c, false)
    else ({ c with inflight := c.inflight ++ [c.out.buf.getIovecs] }, !c.closed)

/- `send_fn` from the call of `async_write` to its next suspension. -/
def sendLoop : Nat → UringRun → Option UringRun
  | 0, _ => none
  | fuel + 1, c =>
    let r := c.asyncWrite
    if r.2 then some { r.1 with send := .write }
    else if r.1.closed then some { r.1 with send := .done }
    else if 0 < r.1.writeBytes then sendLoop fuel r.1
    else some { r.1 with send := .waitWrite }

/- The handle of a finished `send_fn` is gone. -/
def resumeWrite (c : UringRun) : Option UringRun :=
  match c.send with
  | .waitWrite => sendLoop 2 c
  | .write =>
    if c.closed then some { c with send := .done }
    else if 0 < c.writeBytes then sendLoop 2 c
    else some { c with send := .waitWrite }
  | .done => none

def sendAdd (c : UringRun) (nwrite : Int) : Option UringRun :=
  (c.out.buf.sendAdd nwrite).map (fun b =>
    { c with backLeft := sizeAdd c.backLeft (-nwrite), out := ⟨b, 0⟩ })

def output (c : UringRun) (op : OutputOp) (appended : List UInt8) : Option UringRun :=
  (outputMachine.step c.out op).map (fun out => { c with out := out, appended := appended })

/- What the ring reports for a submission: nothing beyond what was submitted. -/
def complete (c : UringRun) (iovs : List Region) (res : Int) : Option UringRun :=
  (c.out.buf.readRegions iovs).bind (fun bytes =>
    if res ≤ bytes.length then
      ({ c with
        inflight := c.inflight.erase iovs
        kernel := c.kernel ++ bytes.take res.toNat }.sendAdd res).bind resumeWrite
    else none)

/- The peer has closed: a READ completion with result 0. -/
def readEof (c : UringRun) : Option UringRun :=
  if c.backLeft = 0 then { c with closed := true }.resumeWrite else some { c with closed := true }

end UringRun

inductive UringOp where
  | append (bs : List UInt8)
  | next (fill : List UInt8)
  | backUp (count : Int)
  | resumeWrite
  | complete (iovs : List Region) (res : Int)
  | readEof

/- `send_fn` is spawned first and finds an open connection with nothing to write. A resume
settles what was serialized before it. -/
def uringMachine : Machine UringRun UringOp where
  start := ⟨outputMachine.start, 0, [], false, .waitWrite, [], []⟩
  step c
    | .append bs => c.output (.append bs) (c.appended ++ bs)
    | .next fill => c.output (.next fill) (c.appended ++ fill)
    | .backUp k => c.output (.backUp k) (c.appended.take (c.appended.length - k.toNat))
    | .resumeWrite => { c with out := ⟨c.out.buf, 0⟩ }.resumeWrite
    | .complete iovs res =>
      if iovs ∈ c.inflight then { c with out := ⟨c.out.buf, 0⟩ }.complete iovs res else none
    | .readEof => { c with out := ⟨c.out.buf, 0⟩ }.readEof

namespace OutputBuffer

/- The buffer as it is when the last `count` bytes of its last block are given back. -/
def retract (b : OutputBuffer) (count : Int) : OutputBuffer :=
  { b with last := { b.last with end_ := b.last.end_ - count } }

theorem grows_last {b c : OutputBuffer} (front : c.front = b.front)
    (addr : c.last.addr = b.last.addr) (begin : c.last.begin = b.last.begin)
    (stop : b.last.end_ ≤ c.last.end_)
    (data : ∀ i, i < b.last.end_.toNat → c.last.data i = b.last.data i) : Grows b c :=
  ⟨c.last, [], by rw [blocks, front], addr, begin, stop, data⟩

theorem retract_grows (b : OutputBuffer) {count : Int} (h : 0 ≤ count) :
    Grows (b.retract count) b :=
  grows_last rfl rfl rfl (by simp only [retract]; omega) (fun _ _ => rfl)

theorem retract_zero (b : OutputBuffer) : b.retract 0 = b := by
  simp only [retract, Int.sub_zero]

theorem next_fill_grows {b : OutputBuffer} (h : Inv b) (bs : List UInt8) :
    Grows b ((b.next.2.poke b.next.1 bs).retract b.next.1.size) := by
  have hpush := h.pushIfFull.2.1
  have hpoke := poke_last (next_shape h) b.next.1 bs rfl
  refine hpush.trans (grows_last ?_ ?_ ?_ ?_ ?_)
  · rw [hpoke]; rfl
  · rw [hpoke]; rfl
  · rw [hpoke]; rfl
  · rw [hpoke]
    simp only [retract, next]
    omega
  · intro i hi
    have below : ¬ b.next.1.off.toNat ≤ i := by simp only [next]; omega
    rw [hpoke]
    simp only [retract, store, if_neg below]
    rfl

theorem backUp_grows {b : OutputBuffer} (h : Inv b) {k r : Int} (h0 : 0 ≤ k) (h1 : k ≤ r)
    (h2 : b.last.begin + r ≤ b.last.end_) : Grows (b.retract r) (b.backUp k) := by
  have hlast := (backUp_spec h h0 (by omega)).2.2.2
  refine grows_last rfl ?_ ?_ ?_ ?_
  · rw [hlast]; rfl
  · rw [hlast]; rfl
  · rw [hlast]
    simp only [retract]
    omega
  · intro i _
    rw [hlast]
    rfl

end OutputBuffer

namespace UringRun

/-- A submission in flight was taken from a buffer that has only grown since, even if the
region handed out last is still given back, and `back_left_` is all it held. -/
structure Inv (c : UringRun) : Prop where
  refines : Refines c.out ⟨c.out.buf.pending, c.out.region⟩
  region : 0 ≤ c.out.region
  conserved : c.kernel ++ c.out.buf.pending = c.appended
  flight : c.inflight = [] ∨ ∃ b : OutputBuffer, c.inflight = [b.getIovecs] ∧ b.Inv ∧
    b.Grows (c.out.buf.retract c.out.region) ∧ c.backLeft = b.bytes ∧ 0 < c.backLeft

theorem Inv.settle {c : UringRun} (h : c.Inv) : Inv { c with out := ⟨c.out.buf, 0⟩ } where
  refines := .settled h.refines.inv rfl
  region := Int.le_refl 0
  conserved := h.conserved
  flight := by
    rcases h.flight with none | ⟨b, hf, hb, hg, hl⟩
    · exact Or.inl none
    · refine Or.inr ⟨b, hf, hb, ?_, hl⟩
      simp only [OutputBuffer.retract_zero]
      exact hg.trans (OutputBuffer.retract_grows _ h.region)

theorem Inv.at_point {c : UringRun} (h : c.Inv) (p : SendPoint) : Inv { c with send := p } :=
  ⟨h.refines, h.region, h.conserved, h.flight⟩

theorem Inv.close {c : UringRun} (h : c.Inv) : Inv { c with closed := true } :=
  ⟨h.refines, h.region, h.conserved, h.flight⟩

theorem Inv.output {c d : UringRun} {op : OutputOp} {appended : List UInt8} (h : c.Inv)
    (hs : c.output op appended = some d)
    (ends : ∀ q, queueMachine.step ⟨c.out.buf.pending, c.out.region⟩ op = some q →
      c.kernel ++ q.contents = appended)
    (grown : ∀ out, outputMachine.step c.out op = some out → 0 ≤ out.region ∧
      (c.out.buf.retract c.out.region).Grows (out.buf.retract out.region)) : d.Inv := by
  obtain ⟨out, ho, rfl⟩ := Option.map_eq_some_iff.mp hs
  obtain ⟨q, hq, rel⟩ := step_refines _ _ _ _ h.refines ho
  obtain ⟨hr, hg⟩ := grown out ho
  have hc := rel.contents
  refine ⟨?_, hr, ?_, ?_⟩
  · simp only [hc, rel.region]
    exact rel
  · simp only [hc]
    exact ends q hq
  · rcases h.flight with none | ⟨b, hf, hb, hgb, hl⟩
    · exact Or.inl none
    · exact Or.inr ⟨b, hf, hb, hgb.trans hg, hl⟩

theorem Inv.append {c d : UringRun} (h : c.Inv) (bs : List UInt8)
    (hs : c.output (.append bs) (c.appended ++ bs) = some d) : d.Inv := by
  refine h.output hs ?_ ?_
  · intro q hq
    cases Option.some.inj hq
    rw [← h.conserved, List.append_assoc]
  · intro out ho
    obtain ⟨b, hb, rfl⟩ := Option.map_eq_some_iff.mp ho
    obtain ⟨b', hb', _, hg, _⟩ := OutputBuffer.append_spec h.refines.inv bs
    cases Option.some.inj (hb.symm.trans hb')
    rw [OutputBuffer.retract_zero]
    exact ⟨Int.le_refl 0, (OutputBuffer.retract_grows _ h.region).trans hg⟩

theorem Inv.next {c d : UringRun} (h : c.Inv) (fill : List UInt8)
    (hs : c.output (.next fill) (c.appended ++ fill) = some d) : d.Inv := by
  refine h.output hs ?_ ?_
  · intro q hq
    simp only [queueMachine] at hq
    split at hq
    · cases hq
    · cases Option.some.inj hq
      rw [← h.conserved, List.append_assoc]
  · intro out ho
    simp only [outputMachine] at ho
    split at ho
    · cases Option.some.inj ho
      have positive := (OutputBuffer.next_region h.refines.inv).2.2.1
      exact ⟨Int.le_of_lt positive, (OutputBuffer.retract_grows _ h.region).trans
        (OutputBuffer.next_fill_grows h.refines.inv fill)⟩
    · cases ho

theorem Inv.backUp {c d : UringRun} (h : c.Inv) (k : Int)
    (hs : c.output (.backUp k) (c.appended.take (c.appended.length - k.toNat)) = some d) :
    d.Inv := by
  refine h.output hs ?_ ?_
  · intro q hq
    exact backUp_conserves h.refines h.conserved k q hq
  · intro out ho
    simp only [outputMachine] at ho
    split at ho
    · rename_i allowed
      cases Option.some.inj ho
      rw [OutputBuffer.retract_zero]
      exact ⟨Int.le_refl 0,
        OutputBuffer.backUp_grows h.refines.inv allowed.1 allowed.2 h.refines.unsent⟩
    · cases ho

/-- Nothing is submitted while something is in flight: `back_left_` is positive then. -/
theorem Inv.asyncWrite {c : UringRun} (h : c.Inv) (settled : c.out.region = 0) :
    c.asyncWrite.1.Inv ∧
      (c.asyncWrite.2 = false → c.asyncWrite.1.closed = true ∨ c.asyncWrite.1.writeBytes = 0) := by
  unfold UringRun.asyncWrite
  split
  · exact ⟨h, fun hf => by cases hf⟩
  · rename_i free
    have hnone : c.inflight = [] := by
      rcases h.flight with none | ⟨b, _, _, _, _, hl⟩
      · exact none
      · exact absurd hl free
    simp only
    split
    · rename_i empty
      exact ⟨⟨h.refines, h.region, h.conserved, Or.inl hnone⟩, fun _ => Or.inr empty⟩
    · rename_i some
      refine ⟨⟨h.refines, h.region, h.conserved,
        Or.inr ⟨c.out.buf, ?_, h.refines.inv, ?_, rfl, ?_⟩⟩, ?_⟩
      · simp only [hnone, List.nil_append]
      · simp only [settled, OutputBuffer.retract_zero]
        exact .refl _
      · simp only
        omega
      · intro hc
        exact Or.inl (by simpa using hc)

theorem Inv.sendLoop {c : UringRun} (h : c.Inv) (settled : c.out.region = 0) (fuel : Nat) :
    ∃ d, UringRun.sendLoop (fuel + 1) c = some d ∧ d.Inv := by
  obtain ⟨hi, hw⟩ := h.asyncWrite settled
  simp only [UringRun.sendLoop]
  split
  · exact ⟨_, rfl, hi.at_point .write⟩
  · rename_i ready
    split
    · exact ⟨_, rfl, hi.at_point .done⟩
    · rename_i isOpen
      have hempty : c.asyncWrite.1.writeBytes = 0 := by
        rcases hw (by simpa using ready) with hc | hb
        · exact absurd hc isOpen
        · exact hb
      rw [if_neg (by omega)]
      exact ⟨_, rfl, hi.at_point .waitWrite⟩

theorem Inv.resumeWrite {c : UringRun} (h : c.Inv) (settled : c.out.region = 0)
    (alive : c.send ≠ .done) : ∃ d, c.resumeWrite = some d ∧ d.Inv := by
  unfold UringRun.resumeWrite
  cases hp : c.send with
  | waitWrite => exact h.sendLoop settled 1
  | write =>
    simp only
    split
    · exact ⟨_, rfl, h.at_point .done⟩
    · split
      · exact h.sendLoop settled 1
      · exact ⟨_, rfl, h.at_point .waitWrite⟩
  | done => exact absurd hp alive

theorem Inv.resumeWrite_keeps {c d : UringRun} (h : c.Inv) (settled : c.out.region = 0)
    (hs : c.resumeWrite = some d) : d.Inv := by
  by_cases alive : c.send = .done
  · rw [UringRun.resumeWrite, alive] at hs
    cases hs
  · obtain ⟨e, he, hi⟩ := h.resumeWrite settled alive
    cases Option.some.inj (hs.symm.trans he)
    exact hi

theorem Inv.snapshot {c : UringRun} (h : c.Inv) {iovs : List Region} (hm : iovs ∈ c.inflight) :
    c.inflight = [iovs] ∧ ∃ bytes, c.out.buf.readRegions iovs = some bytes ∧
      bytes <+: c.out.buf.pending := by
  rcases h.flight with none | ⟨b, hf, hb, hg, _⟩
  · rw [none] at hm
    cases hm
  · rw [hf, List.mem_singleton] at hm
    subst hm
    have grown := hg.trans (OutputBuffer.retract_grows _ h.region)
    exact ⟨hf, _, grown.readRegions hb.toShape h.refines.inv.toShape,
      b.take_pending.trans (grown.pending hb.toShape)⟩

theorem Inv.complete {c d : UringRun} (h : c.Inv) {iovs : List Region} {res : Int}
    (hm : iovs ∈ c.inflight) (hs : c.complete iovs res = some d) : d.Inv := by
  obtain ⟨hone, bytes, hb, front⟩ := h.snapshot hm
  have hcount := h.refines.inv.counted
  have hlen := front.length_le
  unfold UringRun.complete at hs
  rw [hb, Option.bind_some] at hs
  split at hs
  · rename_i bound
    obtain ⟨buf, hbuf, inv, hp⟩ := OutputBuffer.sendAdd_spec h.refines.inv
      (n := res) (by rw [OutputBuffer.bytes]; omega)
    simp only [UringRun.sendAdd, hbuf, Option.map_some, Option.bind_some] at hs
    refine resumeWrite_keeps ⟨.settled inv rfl, Int.le_refl 0, ?_, Or.inl ?_⟩ rfl hs
    · obtain ⟨rest, hr⟩ := front
      have htake : bytes.take res.toNat = c.out.buf.pending.take res.toNat := by
        rw [← hr, List.take_append_of_le_length (by omega)]
      simp only [hp, htake]
      rw [List.append_assoc, List.take_append_drop]
      exact h.conserved
    · simp only [hone, List.erase_cons_head]
  · cases hs

theorem Inv.readEof {c d : UringRun} (h : c.Inv) (settled : c.out.region = 0)
    (hs : c.readEof = some d) : d.Inv := by
  unfold UringRun.readEof at hs
  split at hs
  · exact h.close.resumeWrite_keeps settled hs
  · cases Option.some.inj hs
    exact h.close

end UringRun

theorem uring_step (c : UringRun) (op : UringOp) (d : UringRun) (h : c.Inv)
    (hs : uringMachine.step c op = some d) : d.Inv := by
  cases op with
  | append bs => exact h.append bs hs
  | next fill => exact h.next fill hs
  | backUp k => exact h.backUp k hs
  | resumeWrite => exact h.settle.resumeWrite_keeps rfl hs
  | complete iovs res =>
    simp only [uringMachine] at hs
    split at hs
    · rename_i hm
      exact h.settle.complete hm hs
    · cases hs
  | readEof => exact h.settle.readEof rfl hs

theorem uring_start : uringMachine.start.Inv :=
  ⟨start_refines, Int.le_refl 0, rfl, Or.inl rfl⟩

/-- At most one submission is in flight, its iovecs denote a prefix of what is pending,
what the kernel accepted and what is pending make up what was put in, and a resume of
`send_fn` comes to its next suspension. -/
theorem uring_write_exactly_once (c : UringRun) (h : uringMachine.Reach c) :
    c.inflight.length ≤ 1 ∧
    (∀ iovs ∈ c.inflight, ∃ bytes, c.out.buf.readRegions iovs = some bytes ∧
      bytes <+: c.out.buf.pending) ∧
    c.kernel ++ c.out.buf.pending = c.appended ∧
    (c.send ≠ .done → ∃ d, uringMachine.step c .resumeWrite = some d) := by
  have inv := h.invariant uring_start uring_step
  refine ⟨?_, fun iovs hm => (inv.snapshot hm).2, inv.conserved, ?_⟩
  · rcases inv.flight with none | ⟨b, hf, _⟩
    · simp [none]
    · simp [hf]
  · intro alive
    obtain ⟨d, hd, _⟩ := inv.settle.resumeWrite rfl alive
    exact ⟨d, hd⟩

theorem uring_write_exactly_once_in_flight :
    ∃ c, uringMachine.run uringMachine.start
        [.append [1, 2, 3], .resumeWrite, .append [4], .resumeWrite, .complete [⟨0, 0, 3⟩] 2,
          .append [5], .resumeWrite] = some c ∧
      c.kernel = [1, 2] ∧ c.kernel ++ c.out.buf.pending = c.appended := by
  obtain ⟨c, hc, hk⟩ : ∃ c, uringMachine.run uringMachine.start
      [.append [1, 2, 3], .resumeWrite, .append [4], .resumeWrite, .complete [⟨0, 0, 3⟩] 2,
        .append [5], .resumeWrite] = some c ∧ c.kernel = [1, 2] := ⟨_, rfl, rfl⟩
  have reached := Machine.reach_run .start hc
  exact ⟨c, hc, hk, (uring_write_exactly_once c reached).2.2.1⟩

end Xuanqiong
