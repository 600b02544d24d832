import Mathlib.Data.List.Nodup
import Mathlib.Data.List.Infix
import Xuanqiong.Base.Threads
import Xuanqiong.Util.MpmcQueue

/-! What holds of an `MPMCQueue` in every interleaving. The chunks form a chain in which the
`k`-th begins at index `k * CHUNK_SIZE`. A stale chunk pointer is harmless: it is never past the
chunk of the index a thread goes for. Each claimed index has one writer and one reader. -/
namespace Xuanqiong

namespace MPMCQueue

variable {T : Type}

/- The slot of an index; one whose chunk is not in the chain yet is blank. -/
def slotAt (q : MPMCQueue T) (x : Nat) : Slot T :=
  match q.chain[x / CHUNK_SIZE]? with
  | some c => (q.chunks c).slots (x % CHUNK_SIZE)
  | none => ⟨none, false⟩

def Before (q : MPMCQueue T) (c x : Nat) : Prop :=
  ∃ k, q.chain[k]? = some c ∧ k * CHUNK_SIZE ≤ x

def Past (q : MPMCQueue T) (c x : Nat) : Prop :=
  ∃ k, q.chain[k]? = some c ∧ (k + 1) * CHUNK_SIZE ≤ x

def Holds (q : MPMCQueue T) (c x : Nat) : Prop := q.chain[x / CHUNK_SIZE]? = some c

def Linked (q : MPMCQueue T) (c n : Nat) : Prop :=
  (q.chunks c).next = some n ∧ ∃ k, q.chain[k]? = some c ∧ q.chain[k + 1]? = some n

def Claimed (q : MPMCQueue T) (x : Nat) (v : T) : Prop := q.tailClaims[x]? = some (x, v)

def Filled (q : MPMCQueue T) (x : Nat) : Prop :=
  ∃ v, q.Claimed x v ∧ (q.slotAt x).value = some v

structure Inv (q : MPMCQueue T) : Prop where
  nodup : q.chain.Nodup
  allocated : ∀ c ∈ q.chain, c < q.fresh
  begins : ∀ k c, q.chain[k]? = some c → (q.chunks c).beginIndex = k * CHUNK_SIZE
  links : ∀ k c n, q.chain[k]? = some c → (q.chunks c).next = some n → q.chain[k + 1]? = some n
  tail : ∃ k, q.chain[k]? = some q.tailChunk ∧ k + 1 = q.chain.length ∧ k * CHUNK_SIZE ≤ q.tailIndex
  head : q.Before q.headChunk q.headIndex
  order : q.headIndex ≤ q.tailIndex
  tailClaims : q.tailClaims.map Prod.fst = List.range q.tailIndex
  headClaims : q.headClaims = List.range q.headIndex
  ready : ∀ x, (q.slotAt x).ready = true → x < q.tailIndex
  pending : ∀ x, q.headIndex ≤ x → (q.slotAt x).ready = true → q.Filled x
  countedOnce : q.counted.Nodup
  countedRange : ∀ x ∈ q.counted, x < q.headIndex ∧ x / CHUNK_SIZE < q.chain.length
  readCount : ∀ k c, q.chain[k]? = some c →
    (q.chunks c).readCount = q.counted.countP (fun x => x / CHUNK_SIZE = k)
  returnedOnce : (q.returned.map Prod.fst).Nodup
  returned : ∀ x v, (x, v) ∈ q.returned → x < q.headIndex ∧ ∃ u, v = some u ∧ q.Claimed x u
  empties : ∀ e ∈ q.empties, e.1 = e.2
  discarded : ∀ c ∈ q.discarded, c < q.fresh ∧ c ∉ q.chain

/- The states of a claimed index: to be written, written and not yet ready, to be moved out, and
moved out but not yet counted. -/
def Writing (q : MPMCQueue T) (v : T) (x : Nat) : Prop :=
  q.Claimed x v ∧ (q.slotAt x).ready = false

def Written (q : MPMCQueue T) (x : Nat) : Prop := (q.slotAt x).ready = false ∧ q.Filled x

def Reading (q : MPMCQueue T) (x : Nat) : Prop :=
  x < q.headIndex ∧ x ∉ q.counted ∧ (∀ v, (x, v) ∉ q.returned) ∧
    ((q.slotAt x).ready = true → q.Filled x)

def Taken (q : MPMCQueue T) (x : Nat) (v : Option T) : Prop :=
  x < q.headIndex ∧ (∀ v, (x, v) ∉ q.returned) ∧ ∃ u, v = some u ∧ q.Claimed x u

def Unlinked (q : MPMCQueue T) (c : Nat) : Prop :=
  c < q.fresh ∧ c ∉ q.chain ∧ c ∉ q.discarded

def OnJob (q : MPMCQueue T) : Job T → Nat → Prop
  | .write v, x => q.Writing v x
  | .read hc, x => hc ∈ q.chain ∧ q.Reading x

/-- What a thread may rely on before its next access. -/
def Knows (q : MPMCQueue T) : MpmcPoint T → Prop
  | .idle | .loadTailChunk _ | .loadHeadChunk => True
  | .loadTailIndex _ tc => q.Before tc q.tailIndex
  | .claimTail _ tc ti => q.Before tc ti
  | .testTail v tc wi => q.Before tc wi ∧ q.Writing v wi
  | .newChunk v tc wi => q.Past tc wi ∧ q.Writing v wi
  | .installChunk v tc nc wi =>
    (∃ k, q.chain[k]? = some tc ∧ (k + 1) * CHUNK_SIZE ≤ wi ∧
      q.chunks nc = Chunk.init ((k + 1) * CHUNK_SIZE)) ∧ q.Unlinked nc ∧ q.Writing v wi
  | .linkChunk v tc nc wi =>
    (∃ k, q.chain[k]? = some tc ∧ q.chain[k + 1]? = some nc ∧ (k + 1) * CHUNK_SIZE ≤ wi) ∧
      q.Writing v wi
  | .deleteNext v tc nc wi => q.Past tc wi ∧ q.Unlinked nc ∧ q.Writing v wi
  | .walk job c x => q.Before c x ∧ q.OnJob job x
  | .spin job c x => q.Past c x ∧ q.OnJob job x
  | .follow job c x => (∃ n, q.Linked c n) ∧ q.Past c x ∧ q.OnJob job x
  | .findSlot job c x => q.Holds c x ∧ q.OnJob job x
  | .writeValue v c offset x => q.Holds c x ∧ offset = x % CHUNK_SIZE ∧ q.Writing v x
  | .writeReady c offset x => q.Holds c x ∧ offset = x % CHUNK_SIZE ∧ q.Written x
  | .loadHeadIndex hc => q.Before hc q.headIndex
  | .testEmpty hc hi => q.Before hc hi ∧ hi ≤ q.headIndex
  | .testReadCount hc hi | .addRef hc hi | .claimHead hc hi => q.Before hc hi ∧ hi < q.tailIndex
  | .testRefCount hc hi => q.Before hc hi ∧ hi < q.tailIndex ∧ q.Past hc q.headIndex
  | .testNext hc => q.Past hc q.headIndex
  | .loadNext hc => q.Past hc q.headIndex ∧ ∃ n, q.Linked hc n
  | .moveHead hc n => q.Past hc q.headIndex ∧ q.Linked hc n
  | .deleteHead hc => ∃ k h : Nat, q.chain[k]? = some hc ∧ q.chain[h]? = some q.headChunk ∧ k < h
  | .dropRef hc rc x => hc ∈ q.chain ∧ q.Holds rc x ∧ q.Reading x
  | .waitReady hc rc offset x =>
    hc ∈ q.chain ∧ q.Holds rc x ∧ offset = x % CHUNK_SIZE ∧ q.Reading x
  | .moveValue hc rc offset x =>
    hc ∈ q.chain ∧ q.Holds rc x ∧ offset = x % CHUNK_SIZE ∧ q.Reading x ∧ (q.slotAt x).ready = true
  | .countRead hc rc x v => hc ∈ q.chain ∧ q.Holds rc x ∧ x ∉ q.counted ∧ q.Taken x v
  | .dropLastRef hc x v => hc ∈ q.chain ∧ q.Taken x v

end MPMCQueue

namespace MpmcPoint

variable {T : Type}

def writes : MpmcPoint T → Option Nat
  | .testTail _ _ x | .newChunk _ _ x | .installChunk _ _ _ x | .linkChunk _ _ _ x
  | .deleteNext _ _ _ x | .walk (.write _) _ x | .spin (.write _) _ x | .follow (.write _) _ x
  | .findSlot (.write _) _ x | .writeValue _ _ _ x | .writeReady _ _ x => some x
  | _ => none

def reads : MpmcPoint T → Option Nat
  | .walk (.read _) _ x | .spin (.read _) _ x | .follow (.read _) _ x | .findSlot (.read _) _ x
  | .dropRef _ _ x | .waitReady _ _ _ x | .moveValue _ _ _ x | .countRead _ _ x _
  | .dropLastRef _ x _ => some x
  | _ => none

def makes : MpmcPoint T → Option Nat
  | .installChunk _ _ nc _ | .deleteNext _ _ nc _ => some nc
  | _ => none

structure Apart (p m : MpmcPoint T) : Prop where
  writes : ∀ x, p.writes = some x → m.writes ≠ some x
  reads : ∀ x, p.reads = some x → m.reads ≠ some x
  makes : ∀ c, p.makes = some c → m.makes ≠ some c

theorem Apart.symm {p m : MpmcPoint T} (h : p.Apart m) : m.Apart p where
  writes := fun x hm hp => h.writes x hp hm
  reads := fun x hm hp => h.reads x hp hm
  makes := fun c hm hp => h.makes c hp hm

end MpmcPoint

namespace MPMCQueue

variable {T : Type} {q q' : MPMCQueue T} {p m : MpmcPoint T}

/-- What the step of a thread at `p` leaves alone for the other threads. -/
structure Frame (q q' : MPMCQueue T) (p : MpmcPoint T) : Prop where
  chain : q.chain <+: q'.chain
  fresh : q.fresh ≤ q'.fresh
  tailIndex : q.tailIndex ≤ q'.tailIndex
  headIndex : q.headIndex ≤ q'.headIndex
  tailClaims : q.tailClaims <+: q'.tailClaims
  next : ∀ c ∈ q.chain, ∀ n, (q.chunks c).next = some n → (q'.chunks c).next = some n
  unready : ∀ x, (q.slotAt x).ready = false → p.writes ≠ some x → q'.slotAt x = q.slotAt x
  ready : ∀ x, (q.slotAt x).ready = true → p.reads ≠ some x → q'.slotAt x = q.slotAt x
  published : ∀ x, (q.slotAt x).ready = false → (q'.slotAt x).ready = true → q'.Filled x
  counted : ∀ x, p.reads ≠ some x → x ∈ q'.counted → x ∈ q.counted
  returned : ∀ x v, p.reads ≠ some x → (x, v) ∈ q'.returned → (x, v) ∈ q.returned
  unlinked : ∀ c, p.makes ≠ some c → q.Unlinked c → q'.Unlinked c ∧ q'.chunks c = q.chunks c
  head : ∀ k : Nat, q.chain[k]? = some q.headChunk →
    ∃ h : Nat, k ≤ h ∧ q'.chain[h]? = some q'.headChunk

theorem Frame.at_chain (f : Frame q q' p) {k c : Nat} (h : q.chain[k]? = some c) :
    q'.chain[k]? = some c := by
  obtain ⟨rest, hrest⟩ := f.chain
  rw [← hrest, List.getElem?_append_left (List.getElem?_eq_some_iff.mp h).1, h]

theorem Frame.mem_chain (f : Frame q q' p) {c : Nat} (h : c ∈ q.chain) : c ∈ q'.chain :=
  f.chain.subset h

theorem Frame.before (f : Frame q q' p) {c x y : Nat} (h : q.Before c x) (hxy : x ≤ y) :
    q'.Before c y := by
  obtain ⟨k, hk, hx⟩ := h
  exact ⟨k, f.at_chain hk, hx.trans hxy⟩

theorem Frame.past (f : Frame q q' p) {c x y : Nat} (h : q.Past c x) (hxy : x ≤ y) :
    q'.Past c y := by
  obtain ⟨k, hk, hx⟩ := h
  exact ⟨k, f.at_chain hk, hx.trans hxy⟩

theorem Frame.linked (f : Frame q q' p) {c n : Nat} (h : q.Linked c n) : q'.Linked c n := by
  obtain ⟨hn, k, hk, hk'⟩ := h
  exact ⟨f.next c (List.mem_of_getElem? hk) n hn, k, f.at_chain hk, f.at_chain hk'⟩

theorem Frame.claimed (f : Frame q q' p) {x : Nat} {v : T} (h : q.Claimed x v) :
    q'.Claimed x v := by
  obtain ⟨rest, hrest⟩ := f.tailClaims
  unfold Claimed at h ⊢
  rw [← hrest, List.getElem?_append_left (List.getElem?_eq_some_iff.mp h).1, h]

theorem Frame.filled (f : Frame q q' p) {x : Nat} (h : q.Filled x)
    (same : q'.slotAt x = q.slotAt x) :
    q'.Filled x := by
  obtain ⟨v, hv, hs⟩ := h
  exact ⟨v, f.claimed hv, by rw [same]; exact hs⟩

theorem Frame.writing (f : Frame q q' p) {v : T} {x : Nat} (h : q.Writing v x)
    (other : p.writes ≠ some x) : q'.Writing v x :=
  ⟨f.claimed h.1, by rw [f.unready x h.2 other]; exact h.2⟩

theorem Frame.written (f : Frame q q' p) {x : Nat} (h : q.Written x) (other : p.writes ≠ some x) :
    q'.Written x := by
  have same := f.unready x h.1 other
  exact ⟨by rw [same]; exact h.1, f.filled h.2 same⟩

theorem Frame.filled_of_ready (f : Frame q q' p) {x : Nat} (other : p.reads ≠ some x)
    (h : (q.slotAt x).ready = true → q.Filled x) (now : (q'.slotAt x).ready = true) :
    q'.Filled x := by
  cases hr : (q.slotAt x).ready with
  | true => exact f.filled (h hr) (f.ready x hr other)
  | false => exact f.published x hr now

theorem Frame.reading (f : Frame q q' p) {x : Nat} (h : q.Reading x) (other : p.reads ≠ some x) :
    q'.Reading x := by
  obtain ⟨lt, uncounted, unreturned, filled⟩ := h
  exact ⟨lt.trans_le f.headIndex, fun hc => uncounted (f.counted x other hc),
    fun v hv => unreturned v (f.returned x v other hv), f.filled_of_ready other filled⟩

theorem Frame.taken (f : Frame q q' p) {x : Nat} {v : Option T} (h : q.Taken x v)
    (other : p.reads ≠ some x) : q'.Taken x v := by
  obtain ⟨lt, unreturned, u, hu, claimed⟩ := h
  exact ⟨lt.trans_le f.headIndex, fun v hv => unreturned v (f.returned x v other hv), u, hu,
    f.claimed claimed⟩

/-- What a thread knows is not disturbed by the threads apart from it. -/
theorem Frame.knows (f : Frame q q' p) (h : q.Knows m) (apart : p.Apart m) : q'.Knows m := by
  have notWrites : ∀ x, m.writes = some x → p.writes ≠ some x := fun x hm hp => apart.writes x hp hm
  have notReads : ∀ x, m.reads = some x → p.reads ≠ some x := fun x hm hp => apart.reads x hp hm
  have notMakes : ∀ c, m.makes = some c → p.makes ≠ some c := fun c hm hp => apart.makes c hp hm
  have sameJob : ∀ job c x, m.writes = (MpmcPoint.walk job c x).writes →
      m.reads = (MpmcPoint.walk job c x).reads → q.OnJob job x → q'.OnJob job x := by
    intro job c x hw hr hj
    cases job with
    | write v => exact f.writing hj (notWrites x hw)
    | read hc => exact ⟨f.mem_chain hj.1, f.reading hj.2 (notReads x hr)⟩
  cases m with
  | idle | loadTailChunk | loadHeadChunk => trivial
  | loadTailIndex v tc => exact f.before h f.tailIndex
  | claimTail v tc ti => exact f.before h (Nat.le_refl _)
  | testTail v tc wi => exact ⟨f.before h.1 (Nat.le_refl _), f.writing h.2 (notWrites wi rfl)⟩
  | newChunk v tc wi => exact ⟨f.past h.1 (Nat.le_refl _), f.writing h.2 (notWrites wi rfl)⟩
  | installChunk v tc nc wi =>
    obtain ⟨⟨k, hk, hx, hb⟩, hu, hw⟩ := h
    obtain ⟨hu', same⟩ := f.unlinked nc (notMakes nc rfl) hu
    exact ⟨⟨k, f.at_chain hk, hx, by rw [same]; exact hb⟩, hu', f.writing hw (notWrites wi rfl)⟩
  | linkChunk v tc nc wi =>
    obtain ⟨⟨k, hk, hn, hx⟩, hw⟩ := h
    exact ⟨⟨k, f.at_chain hk, f.at_chain hn, hx⟩, f.writing hw (notWrites wi rfl)⟩
  | deleteNext v tc nc wi =>
    exact ⟨f.past h.1 (Nat.le_refl _), (f.unlinked nc (notMakes nc rfl) h.2.1).1,
      f.writing h.2.2 (notWrites wi rfl)⟩
  | walk job c x => exact ⟨f.before h.1 (Nat.le_refl _), sameJob job c x rfl rfl h.2⟩
  | spin job c x =>
    exact ⟨f.past h.1 (Nat.le_refl _),
      sameJob job c x (by cases job <;> rfl) (by cases job <;> rfl) h.2⟩
  | follow job c x =>
    obtain ⟨⟨n, hn⟩, hp, hj⟩ := h
    exact ⟨⟨n, f.linked hn⟩, f.past hp (Nat.le_refl _),
      sameJob job c x (by cases job <;> rfl) (by cases job <;> rfl) hj⟩
  | findSlot job c x =>
    exact ⟨f.at_chain h.1, sameJob job c x (by cases job <;> rfl) (by cases job <;> rfl) h.2⟩
  | writeValue v c offset x => exact ⟨f.at_chain h.1, h.2.1, f.writing h.2.2 (notWrites x rfl)⟩
  | writeReady c offset x => exact ⟨f.at_chain h.1, h.2.1, f.written h.2.2 (notWrites x rfl)⟩
  | loadHeadIndex hc => exact f.before h f.headIndex
  | testEmpty hc hi => exact ⟨f.before h.1 (Nat.le_refl _), h.2.trans f.headIndex⟩
  | testReadCount hc hi | addRef hc hi | claimHead hc hi =>
    exact ⟨f.before h.1 (Nat.le_refl _), h.2.trans_le f.tailIndex⟩
  | testRefCount hc hi =>
    exact ⟨f.before h.1 (Nat.le_refl _), h.2.1.trans_le f.tailIndex, f.past h.2.2 f.headIndex⟩
  | testNext hc => exact f.past h f.headIndex
  | loadNext hc =>
    obtain ⟨hp, n, hn⟩ := h
    exact ⟨f.past hp f.headIndex, n, f.linked hn⟩
  | moveHead hc n => exact ⟨f.past h.1 f.headIndex, f.linked h.2⟩
  | deleteHead hc =>
    obtain ⟨k, i, hk, hi, lt⟩ := h
    obtain ⟨j, le, hj⟩ := f.head i hi
    exact ⟨k, j, f.at_chain hk, hj, lt.trans_le le⟩
  | dropRef hc rc x => exact ⟨f.mem_chain h.1, f.at_chain h.2.1, f.reading h.2.2 (notReads x rfl)⟩
  | waitReady hc rc offset x =>
    exact ⟨f.mem_chain h.1, f.at_chain h.2.1, h.2.2.1, f.reading h.2.2.2 (notReads x rfl)⟩
  | moveValue hc rc offset x =>
    obtain ⟨hm, hh, ho, hr, ready⟩ := h
    exact ⟨f.mem_chain hm, f.at_chain hh, ho, f.reading hr (notReads x rfl),
      by rw [f.ready x ready (notReads x rfl)]; exact ready⟩
  | countRead hc rc x v =>
    obtain ⟨hm, hh, hc, ht⟩ := h
    exact ⟨f.mem_chain hm, f.at_chain hh, fun h' => hc (f.counted x (notReads x rfl) h'),
      f.taken ht (notReads x rfl)⟩
  | dropLastRef hc x v => exact ⟨f.mem_chain h.1, f.taken h.2 (notReads x rfl)⟩

end MPMCQueue

end Xuanqiong
