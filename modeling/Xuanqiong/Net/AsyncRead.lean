import Mathlib.Data.Nat.Find
import Mathlib.Order.WellFounded
import Xuanqiong.Net.Connection
import Xuanqiong.Util.InputRoom

/-! `async_read`, over every sequence of results of `read`: when it returns, what it leaves in the
buffer, and when it asks to be suspended. -/
namespace Xuanqiong

namespace ReadResult

def bytes : ReadResult → List UInt8
  | .data bs => bs
  | _ => []

/- Results after which the loop of `async_read` asks again as long as there is room. -/
def Again : ReadResult → Prop
  | .data _ | .eintr => True
  | _ => False

end ReadResult

def fetched (results : List ReadResult) : List UInt8 := results.flatMap ReadResult.bytes

/- Results that leave the loop of `async_read` running. -/
structure Passes (maxSize : Int) (results : List ReadResult) : Prop where
  again : ∀ r ∈ results, r.Again
  some : ∀ bs, .data bs ∈ results → bs ≠ []
  short : ((fetched results).length : Int) < maxSize

/- A result that ends it, with `room` bytes asked for, and whether the connection is closed then. -/
inductive Ends (room : Int) : ReadResult → Bool → Prop where
  | full {bs : List UInt8} (some : bs ≠ []) (exact : (bs.length : Int) = room) :
      Ends room (.data bs) false
  | eagain : Ends room .eagain false
  | eof : Ends room .eof true
  | failed : Ends room .failed true

section

variable {m : Int} {r : ReadResult} {rs : List ReadResult} {got acc : List UInt8} {ends : Bool}

theorem Passes.tail (h : Passes m (r :: rs)) : r.Again ∧ Passes (m - r.bytes.length) rs := by
  obtain ⟨again, some, short⟩ := h
  refine ⟨again r List.mem_cons_self, fun x hx => again x (List.mem_cons_of_mem _ hx),
    fun bs hbs => some bs (List.mem_cons_of_mem _ hbs), ?_⟩
  simp only [fetched, List.flatMap_cons, List.length_append] at short ⊢
  omega

theorem Passes.cons (again : r.Again) (some : ∀ bs, r = .data bs → bs ≠ [])
    (h : Passes (m - r.bytes.length) rs) : Passes m (r :: rs) := by
  refine ⟨List.forall_mem_cons.mpr ⟨again, h.again⟩, ?_, ?_⟩
  · intro bs hbs
    rcases List.mem_cons.mp hbs with hr | hbs
    · exact some bs hr.symm
    · exact h.some bs hbs
  · have short := h.short
    simp only [fetched, List.flatMap_cons, List.length_append] at short ⊢
    omega

theorem readLoop_passes (h : Passes m rs) (acc : List UInt8) (rest : List ReadResult) :
    readLoop m acc (rs ++ rest) = readLoop (m - (fetched rs).length) (acc ++ fetched rs) rest := by
  induction rs generalizing m acc with
  | nil => simp [fetched]
  | cons r rs ih =>
    have short := h.short
    have pos : 0 < m := by omega
    obtain ⟨again, passes⟩ := h.tail
    simp only [fetched, List.flatMap_cons, List.length_append] at short ih ⊢
    rw [List.cons_append, readLoop.eq_def]
    simp only [if_pos pos]
    cases r with
    | data bs =>
      have passes : Passes (m - bs.length) rs := passes
      have fits : bs ≠ [] ∧ (bs.length : Int) ≤ m := by
        refine ⟨h.some bs List.mem_cons_self, ?_⟩
        simp only [ReadResult.bytes] at short
        omega
      have room : m - bs.length - (rs.flatMap ReadResult.bytes).length =
          m - ((bs.length + (rs.flatMap ReadResult.bytes).length : Nat) : Int) := by omega
      dsimp only [ReadResult.bytes]
      rw [if_pos fits, ih passes, room, List.append_assoc]
    | eintr => simpa [ReadResult.bytes] using ih (by simpa [ReadResult.bytes] using passes) acc
    | eagain | eof | failed => exact absurd again id

theorem readLoop_unfinished (h : Passes m rs) (acc : List UInt8) : readLoop m acc rs = none := by
  have short := h.short
  have run := readLoop_passes h acc []
  rw [List.append_nil] at run
  rw [run, readLoop, if_pos (by omega)]

theorem readLoop_ends (pos : 0 < m) (h : Ends m r ends) (acc : List UInt8) :
    readLoop m acc [r] = some (acc ++ r.bytes, ends) := by
  rw [readLoop.eq_def]
  simp only [if_pos pos]
  cases h with
  | full some exact =>
    dsimp only [ReadResult.bytes]
    rw [if_pos ⟨some, Int.le_of_eq exact⟩, exact, Int.sub_self]
    rfl
  | eagain | eof | failed => simp [ReadResult.bytes]

theorem readLoop_cases (pos : 0 < m) (h : readLoop m acc rs = some (got, ends)) :
    ∃ init last, rs = init ++ [last] ∧ Passes m init ∧
    Ends (m - (fetched init).length) last ends := by
  induction rs generalizing m acc with
  | nil => simp [readLoop, pos] at h
  | cons r rs ih =>
    rw [readLoop.eq_def] at h
    simp only [if_pos pos] at h
    -- the loop ends at once, or it goes on with less room
    have here : ∀ {e}, rs = [] → Ends m r e → e = ends →
        ∃ init last, r :: rs = init ++ [last] ∧ Passes m init ∧
          Ends (m - (fetched init).length) last ends := by
      rintro e rfl stops rfl
      exact ⟨[], r, rfl, ⟨by simp, by simp, by simpa [fetched] using pos⟩,
        by simpa [fetched] using stops⟩
    have later : ∀ {init last}, r.Again → (∀ bs, r = .data bs → bs ≠ []) → rs = init ++ [last] →
        Passes (m - r.bytes.length) init →
        Ends (m - r.bytes.length - (fetched init).length) last ends →
        ∃ init last, r :: rs = init ++ [last] ∧ Passes m init ∧
          Ends (m - (fetched init).length) last ends := by
      intro init last again some hrs passes stops
      refine ⟨r :: init, last, by rw [hrs]; rfl, .cons again some passes, ?_⟩
      have room : m - r.bytes.length - (fetched init).length =
          m - (fetched (r :: init)).length := by
        simp only [fetched, List.flatMap_cons, List.length_append]
        omega
      exact room ▸ stops
    cases r with
    | data bs =>
      simp only [Option.ite_none_right_eq_some] at h
      obtain ⟨⟨some, fits⟩, h⟩ := h
      rcases Int.lt_or_eq_of_le fits with less | exact
      · obtain ⟨init, last, hrs, passes, stops⟩ := ih (by omega) h
        exact later trivial (by rintro _ ⟨⟩; exact some) hrs passes stops
      · cases rs with
        | nil =>
          simp only [readLoop, exact, Int.sub_self, Int.lt_irrefl, if_false, Option.some.injEq,
            Prod.mk.injEq] at h
          exact here rfl (.full some exact) h.2
        | cons _ _ => simp [readLoop, exact] at h
    | eintr =>
      obtain ⟨init, last, hrs, passes, stops⟩ := ih pos h
      exact later trivial (by rintro _ ⟨⟩) hrs (by simpa [ReadResult.bytes] using passes)
        (by simpa [ReadResult.bytes] using stops)
    | eagain =>
      simp only [Option.ite_none_right_eq_some, Option.some.injEq, Prod.mk.injEq] at h
      exact here h.1 .eagain h.2.2
    | eof =>
      simp only [Option.ite_none_right_eq_some, Option.some.injEq, Prod.mk.injEq] at h
      exact here h.1 .eof h.2.2
    | failed =>
      simp only [Option.ite_none_right_eq_some, Option.some.injEq, Prod.mk.injEq] at h
      exact here h.1 .failed h.2.2

/-- The loop returns just at the first result that is neither data nor EINTR, or that fills the
block, with all data in order. -/
theorem readLoop_iff (pos : 0 < m) :
    readLoop m [] rs = some (got, ends) ↔ got = fetched rs ∧
      ∃ init last, rs = init ++ [last] ∧ Passes m init ∧
      Ends (m - (fetched init).length) last ends := by
  have returns : ∀ {init last ends}, Passes m init → Ends (m - (fetched init).length) last ends →
      readLoop m [] (init ++ [last]) = some (fetched (init ++ [last]), ends) := by
    intro init last ends passes stops
    have short := passes.short
    rw [readLoop_passes passes, readLoop_ends (by omega) stops]
    simp [fetched]
  constructor
  · intro h
    obtain ⟨init, last, rfl, passes, stops⟩ := readLoop_cases pos h
    rw [returns passes stops] at h
    simp only [Option.some.injEq, Prod.mk.injEq] at h
    exact ⟨h.1.symm, init, last, rfl, passes, stops⟩
  · rintro ⟨rfl, init, last, rfl, passes, stops⟩
    exact returns passes stops

theorem Ends.length (h : Ends m r ends) (nonneg : 0 ≤ m) : (r.bytes.length : Int) ≤ m := by
  cases h with
  | full some exact => exact Int.le_of_eq exact
  | eagain | eof | failed => exact nonneg

end

def calls (r : Nat → ReadResult) (k : Nat) : List ReadResult := (List.range k).map r

theorem calls_succ (r : Nat → ReadResult) (k : Nat) : calls r (k + 1) = calls r k ++ [r k] := by
  simp [calls, List.range_succ]

theorem fetched_succ (r : Nat → ReadResult) (k : Nat) :
    fetched (calls r (k + 1)) = fetched (calls r k) ++ (r k).bytes := by
  simp [calls_succ, fetched]

/- What the kernel may answer: as long as the loop runs, data is of the size asked for at most. -/
def Legal (size : Int) (r : Nat → ReadResult) : Prop :=
  ∀ k, Passes size (calls r k) → ∀ bs, r k = .data bs →
    bs ≠ [] ∧ ((fetched (calls r k)).length : Int) + bs.length ≤ size

section

variable {size : Int} {r : Nat → ReadResult} {k : Nat}

theorem Passes.succ (h : Passes size (calls r k)) (legal : Legal size r) (again : (r k).Again)
    (short : ((fetched (calls r (k + 1))).length : Int) < size) :
    Passes size (calls r (k + 1)) := by
  refine ⟨?_, ?_, short⟩
  · rw [calls_succ]
    simp only [List.mem_append, List.mem_singleton]
    rintro x (hx | rfl)
    · exact h.again x hx
    · exact again
  · rw [calls_succ]
    simp only [List.mem_append, List.mem_singleton]
    rintro bs (hbs | hbs)
    · exact h.some bs hbs
    · exact (legal k h bs hbs.symm).1

theorem Passes.stops (h : Passes size (calls r k)) (legal : Legal size r)
    (stop : ¬ Passes size (calls r (k + 1))) :
    ∃ ends, Ends (size - (fetched (calls r k)).length) (r k) ends := by
  cases hr : r k with
  | data bs =>
    obtain ⟨some, fits⟩ := legal k h bs hr
    refine ⟨false, .full some ?_⟩
    by_contra less
    refine stop (h.succ legal (by rw [hr]; trivial) ?_)
    rw [fetched_succ, hr, List.length_append]
    simp only [ReadResult.bytes]
    omega
  | eintr =>
    refine absurd (h.succ legal (by rw [hr]; trivial) ?_) stop
    have short := h.short
    simpa [fetched_succ, hr, ReadResult.bytes] using short
  | eagain => exact ⟨false, .eagain⟩
  | eof => exact ⟨true, .eof⟩
  | failed => exact ⟨true, .failed⟩

theorem returns_iff (pos : 0 < size) (legal : Legal size r) :
    (∃ k out, readLoop size [] (calls r k) = some out) ↔
      ∃ k, ¬ (r k).Again ∨ size ≤ (fetched (calls r k)).length := by
  constructor
  · rintro ⟨k, ⟨got, ends⟩, h⟩
    obtain ⟨_, init, last, split, passes, stops⟩ := (readLoop_iff pos).mp h
    cases k with
    | zero => simp [calls] at split
    | succ k =>
      rw [calls_succ] at split
      obtain ⟨rfl, hlast⟩ := List.append_inj' split rfl
      cases List.cons.inj hlast |>.1
      generalize hr : r k = x at stops
      cases stops with
      | full some exact =>
        refine ⟨k + 1, Or.inr ?_⟩
        rw [fetched_succ, hr, List.length_append]
        simp only [ReadResult.bytes]
        omega
      | eagain | eof | failed => exact ⟨k, Or.inl (by rw [hr]; exact id)⟩
  · rintro ⟨k, stop⟩
    have ended : ∃ k, ¬ Passes size (calls r k) := by
      rcases stop with stop | full
      · refine ⟨k + 1, fun passes => stop (passes.again _ ?_)⟩
        rw [calls_succ]
        exact List.mem_append_right _ List.mem_cons_self
      · exact ⟨k, fun passes => absurd passes.short (Int.not_lt.mpr full)⟩
    classical
    have first := Nat.find_spec ended
    have before : ∀ j, j < Nat.find ended → Passes size (calls r j) := fun j lt =>
      not_not.mp (Nat.find_min ended lt)
    generalize Nat.find ended = n at first before
    cases n with
    | zero =>
      exact absurd ⟨by simp [calls], by simp [calls], by simpa [calls, fetched] using pos⟩ first
    | succ j =>
      have passes := before j (Nat.lt_succ_self j)
      obtain ⟨ends, stops⟩ := passes.stops legal first
      exact ⟨j + 1, _, (readLoop_iff pos).mpr ⟨rfl, calls r j, r j, calls_succ r j, passes, stops⟩⟩

theorem returns_or_interrupted (pos : 0 < size) (legal : Legal size r) :
    (∃ k out, readLoop size [] (calls r k) = some out) ∨ ∃ n, ∀ k, n ≤ k → r k = .eintr := by
  by_cases stop : ∃ k, ¬ (r k).Again ∨ size ≤ (fetched (calls r k)).length
  · exact Or.inl ((returns_iff pos legal).mpr stop)
  · right
    simp only [not_exists, not_or, not_not, Int.not_le] at stop
    have passes : ∀ k, Passes size (calls r k) := by
      intro k
      induction k with
      | zero => exact ⟨by simp [calls], by simp [calls], by simpa [calls, fetched] using pos⟩
      | succ k ih => exact ih.succ legal (stop k).1 (stop (k + 1)).2
    have grows : ∀ j k, j ≤ k → (fetched (calls r j)).length ≤ (fetched (calls r k)).length := by
      intro j k le
      induction le with
      | refl => exact Nat.le_refl _
      | step _ ih =>
        rw [fetched_succ, List.length_append]
        omega
    -- the number of bytes comes to a rest, since it stays below `size`
    obtain ⟨n, least⟩ : ∃ n, ∀ k, size.toNat - (fetched (calls r n)).length ≤
        size.toNat - (fetched (calls r k)).length :=
      ⟨_, fun k => Function.argmin_le (fun k => size.toNat - (fetched (calls r k)).length) k⟩
    refine ⟨n, fun k le => ?_⟩
    have least := least (k + 1)
    have below := (stop (k + 1)).2
    have more := grows _ _ le
    rw [fetched_succ, List.length_append] at least below
    have again := (stop k).1
    cases hr : r k with
    | data bs =>
      have some := List.length_pos_iff.mpr (legal k (passes k) bs hr).1
      rw [hr] at least below
      simp only [ReadResult.bytes] at least below
      omega
    | eintr => rfl
    | eagain | eof | failed =>
      rw [hr] at again
      exact absurd again id

end

namespace Connection

variable {c d : Connection} {results : List ReadResult} {n : Nat} {suspend : Bool}

theorem readAll_cases (room : c.readBuf.Roomy) (h : c.readAll results = some (d, n)) :
    ∃ ends init last, results = init ++ [last] ∧ Passes c.readBuf.getBuffer.size init ∧
      Ends (c.readBuf.getBuffer.size - (fetched init).length) last ends ∧
      d = { c with readBuf := c.readBuf.fill (fetched results), closed := c.closed || ends } ∧
      n = (fetched results).length ∧ (n : Int) ≤ c.readBuf.getBuffer.size := by
  obtain ⟨⟨got, ends⟩, run, hd⟩ := Option.map_eq_some_iff.mp h
  obtain ⟨rfl, init, last, rfl, passes, stops⟩ := (readLoop_iff room.size).mp run
  cases hd
  refine ⟨ends, init, last, rfl, passes, stops, rfl, rfl, ?_⟩
  have short := passes.short
  have fits := stops.length (by omega)
  simp only [fetched, List.flatMap_append, List.flatMap_singleton, List.length_append] at fits ⊢
  omega

theorem readAll_empty (room : c.readBuf.Roomy) (h : c.readAll results = some (d, 0))
    (opened : d.closed = false) : results.getLast? = some .eagain := by
  obtain ⟨ends, init, last, rfl, passes, stops, rfl, zero, _⟩ := readAll_cases room h
  have none : last.bytes = [] := by
    have := zero.symm
    simp only [fetched, List.flatMap_append, List.flatMap_singleton, List.length_eq_zero_iff,
      List.append_eq_nil_iff] at this
    exact this.2
  rw [List.getLast?_concat]
  cases stops with
  | full some => exact absurd none some
  | eagain => rfl
  | eof | failed => simp at opened

/-- What `async_read` promises of a connection. -/
structure ReadsSafely (c : Connection) : Prop where
  room : 0 < c.readBuf.getBuffer.size
  returns : ∀ r, Legal c.readBuf.getBuffer.size r →
    ((∃ k out, c.asyncRead (calls r k) = some out) ↔
      ∃ k, ¬ (r k).Again ∨ c.readBuf.getBuffer.size ≤ (fetched (calls r k)).length) ∧
    ((∃ k out, c.asyncRead (calls r k) = some out) ∨ ∃ n, ∀ k, n ≤ k → r k = .eintr)
  appends : ∀ results d suspend, c.asyncRead results = some (d, suspend) →
    d.readBuf.chain.flatMap BufferBlock.written =
      c.readBuf.chain.flatMap BufferBlock.written ++ fetched results ∧
    d.readBuf.readBytes = c.readBuf.readBytes + (fetched results).length ∧
    (d.readBuf.cur.begin = c.readBuf.cur.begin ∧ d.readBuf.consumedBytes = c.readBuf.consumedBytes ∧
      d.readBuf.limit = c.readBuf.limit) ∧
    ∀ received, c.readBuf.Inv received → d.readBuf.Inv (received ++ fetched results)
  suspends : ∀ results d, c.asyncRead results = some (d, true) →
    fetched results = [] ∧ results.getLast? = some .eagain

theorem asyncRead_isSome (c : Connection) (rs : List ReadResult) :
    (∃ out, c.asyncRead rs = some out) ↔
    ∃ out, readLoop c.readBuf.getBuffer.size [] rs = some out := by
  simp only [asyncRead, readAll, ← Option.isSome_iff_exists, Option.isSome_map]

theorem reads_safely (room : c.readBuf.Roomy) : c.ReadsSafely where
  room := room.size
  returns := by
    intro r legal
    simp only [asyncRead_isSome]
    exact ⟨returns_iff room.size legal, returns_or_interrupted room.size legal⟩
  appends := by
    intro results d suspend h
    obtain ⟨⟨a, n⟩, run, hd⟩ := Option.map_eq_some_iff.mp h
    obtain ⟨ends, _, _, _, _, _, rfl, rfl, fits⟩ := readAll_cases room run
    cases hd
    obtain ⟨count, counters⟩ := c.readBuf.receive_counters (fetched results)
    exact ⟨InputBuffer.receive_written room _, count, counters,
      fun received inv => (inv.receive _ fits).1⟩
  suspends := by
    intro results d h
    obtain ⟨⟨a, n⟩, run, hd⟩ := Option.map_eq_some_iff.mp h
    simp only [Prod.mk.injEq, Bool.and_eq_true, Bool.not_eq_true', decide_eq_true_eq,
      Nat.le_zero_eq] at hd
    obtain ⟨_, opened, rfl⟩ := hd
    obtain ⟨_, _, _, _, _, _, _, zero, _⟩ := readAll_cases room run
    exact ⟨List.length_eq_zero_iff.mp zero.symm, readAll_empty room run opened⟩

end Connection

end Xuanqiong
