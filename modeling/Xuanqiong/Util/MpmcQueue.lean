import Mathlib.Logic.Function.Basic
import Xuanqiong.Base.Machine

/-! `MPMCQueue` as a machine whose steps are the single accesses of `push` and `pop` to shared
memory. Chunks are named by addresses that are never used again; what a deleted chunk held
stays readable. Indices are unbounded. -/
namespace Xuanqiong

def CHUNK_SIZE : Nat := 4096

theorem CHUNK_SIZE_pos : 0 < CHUNK_SIZE := by decide

/- No value stands for the default and for the moved-from one. -/
structure Slot (T : Type) where
  value : Option T
  ready : Bool

/- `ref_count` wraps as `fetch_add` on an `int` does: a lost claim of `pop` never gives its
reference back. -/
structure Chunk (T : Type) where
  slots : Nat → Slot T
  beginIndex : Nat
  next : Option Nat
  readCount : Nat
  refCount : BitVec 32

def Chunk.init (beginIndex : Nat) : Chunk T := ⟨fun _ => ⟨none, false⟩, beginIndex, none, 0, 0⟩

/- The second half is history that no step reads: the chunks in the order they became
`tail_chunk_`, the claims of both indices, the indices counted by `read_count`, the results of
`pop`, both indices when a `pop` found the queue empty, and the deleted chunks. -/
structure MPMCQueue (T : Type) where
  chunks : Nat → Chunk T
  fresh : Nat
  headChunk : Nat
  headIndex : Nat
  tailChunk : Nat
  tailIndex : Nat
  chain : List Nat
  tailClaims : List (Nat × T)
  headClaims : List Nat
  counted : List Nat
  returned : List (Nat × Option T)
  empties : List (Nat × Nat)
  retired : List Nat
  discarded : List Nat

/- What a walk along the chain is for. -/
inductive Job (T : Type) where
  | write (value : T)
  | read (headChunk : Nat)

/- The access a call makes next, with its local variables. -/
inductive MpmcPoint (T : Type) where
  | idle
  | loadTailChunk (value : T)
  | loadTailIndex (value : T) (tailChunk : Nat)
  | claimTail (value : T) (tailChunk tailIdx : Nat)
  | testTail (value : T) (tailChunk writeIdx : Nat)
  | newChunk (value : T) (tailChunk writeIdx : Nat)
  | installChunk (value : T) (tailChunk nextChunk writeIdx : Nat)
  | linkChunk (value : T) (tailChunk nextChunk writeIdx : Nat)
  | deleteNext (value : T) (tailChunk nextChunk writeIdx : Nat)
  | walk (job : Job T) (chunk idx : Nat)
  | spin (job : Job T) (chunk idx : Nat)
  | follow (job : Job T) (chunk idx : Nat)
  | findSlot (job : Job T) (chunk idx : Nat)
  | writeValue (value : T) (writeChunk offset writeIdx : Nat)
  | writeReady (writeChunk offset writeIdx : Nat)
  | loadHeadChunk
  | loadHeadIndex (headChunk : Nat)
  | testEmpty (headChunk headIdx : Nat)
  | testReadCount (headChunk headIdx : Nat)
  | testRefCount (headChunk headIdx : Nat)
  | testNext (headChunk : Nat)
  | loadNext (headChunk : Nat)
  | moveHead (headChunk next : Nat)
  | deleteHead (headChunk : Nat)
  | addRef (headChunk headIdx : Nat)
  | claimHead (headChunk headIdx : Nat)
  | dropRef (headChunk readChunk readIdx : Nat)
  | waitReady (headChunk readChunk offset readIdx : Nat)
  | moveValue (headChunk readChunk offset readIdx : Nat)
  | countRead (headChunk readChunk readIdx : Nat) (value : Option T)
  | dropLastRef (headChunk readIdx : Nat) (value : Option T)

namespace MPMCQueue

variable {T : Type}

def init : MPMCQueue T :=
  ⟨fun _ => Chunk.init 0, 1, 0, 0, 0, 0, [0], [], [], [], [], [], [], []⟩

def setChunk (q : MPMCQueue T) (c : Nat) (chunk : Chunk T) : MPMCQueue T :=
  { q with chunks := Function.update q.chunks c chunk }

def setSlot (q : MPMCQueue T) (c offset : Nat) (slot : Slot T) : MPMCQueue T :=
  q.setChunk c { q.chunks c with slots := Function.update (q.chunks c).slots offset slot }

def addRef (q : MPMCQueue T) (c : Nat) : MPMCQueue T :=
  q.setChunk c { q.chunks c with refCount := (q.chunks c).refCount + 1 }

def dropRef (q : MPMCQueue T) (c : Nat) : MPMCQueue T :=
  q.setChunk c { q.chunks c with refCount := (q.chunks c).refCount - 1 }

def alloc (q : MPMCQueue T) (chunk : Chunk T) : MPMCQueue T :=
  { q.setChunk q.fresh chunk with fresh := q.fresh + 1 }

def countRead (q : MPMCQueue T) (c readIdx : Nat) : MPMCQueue T :=
  { q.setChunk c { q.chunks c with readCount := (q.chunks c).readCount + 1 } with
    counted := q.counted ++ [readIdx] }

def giveBack (q : MPMCQueue T) (readIdx : Nat) (value : Option T) : MPMCQueue T :=
  { q with returned := q.returned ++ [(readIdx, value)] }

def pushStep (q : MPMCQueue T) : MpmcPoint T → Option (MPMCQueue T × MpmcPoint T)
  | .loadTailChunk v => some (q, .loadTailIndex v q.tailChunk)
  | .loadTailIndex v tc => some (q, .claimTail v tc q.tailIndex)
  | .claimTail v tc ti =>
    if q.tailIndex = ti then
      some ({ q with
        tailIndex := ti + 1, tailClaims := q.tailClaims ++ [(ti, v)] }, .testTail v tc ti)
    else some (q, .loadTailChunk v)
  | .testTail v tc wi =>
    if wi ≥ (q.chunks tc).beginIndex + CHUNK_SIZE then some (q, .newChunk v tc wi)
    else some (q, .findSlot (.write v) tc wi)
  | .newChunk v tc wi =>
    some (q.alloc (Chunk.init ((q.chunks tc).beginIndex + CHUNK_SIZE)),
      .installChunk v tc q.fresh wi)
  | .installChunk v tc nc wi =>
    if q.tailChunk = tc then
      some ({ q with tailChunk := nc, chain := q.chain ++ [nc] }, .linkChunk v tc nc wi)
    else some (q, .deleteNext v tc nc wi)
  | .linkChunk v tc nc wi =>
    some (q.setChunk tc { q.chunks tc with next := some nc }, .walk (.write v) tc wi)
  | .deleteNext v tc nc wi =>
    some ({ q with discarded := q.discarded ++ [nc] }, .walk (.write v) tc wi)
  | .writeValue v wc offset wi =>
    some (q.setSlot wc offset { (q.chunks wc).slots offset with value := some v },
      .writeReady wc offset wi)
  | .writeReady wc offset _ =>
    some (q.setSlot wc offset { (q.chunks wc).slots offset with ready := true }, .idle)
  | _ => none

/- The loop over `next` is the same in `push` and `pop`. Once a load of `next` has found a
chunk, so does the load after it; a null pointer there has no step. -/
def walkStep (q : MPMCQueue T) : MpmcPoint T → Option (MPMCQueue T × MpmcPoint T)
  | .walk job c i =>
    if (q.chunks c).beginIndex + CHUNK_SIZE ≤ i then some (q, .spin job c i)
    else
      match job with
      | .write _ => some (q, .findSlot job c i)
      | .read hc => if c ≠ hc then some (q, .dropRef hc c i) else some (q, .findSlot job c i)
  | .spin job c i =>
    match (q.chunks c).next with
    | none => some (q, .spin job c i)
    | some _ => some (q, .follow job c i)
  | .follow job c i =>
    match (q.chunks c).next with
    | none => none
    | some next => some (q, .walk job next i)
  | .findSlot job c i =>
    match job with
    | .write v => some (q, .writeValue v c (i - (q.chunks c).beginIndex) i)
    | .read hc => some (q, .waitReady hc c (i - (q.chunks c).beginIndex) i)
  | _ => none

def popStep (q : MPMCQueue T) : MpmcPoint T → Option (MPMCQueue T × MpmcPoint T)
  | .loadHeadChunk => some (q, .loadHeadIndex q.headChunk)
  | .loadHeadIndex hc => some (q, .testEmpty hc q.headIndex)
  | .testEmpty hc hi =>
    if hi = q.tailIndex then
      some ({ q with empties := q.empties ++ [(q.headIndex, q.tailIndex)] }, .idle)
    else some (q, .testReadCount hc hi)
  | .testReadCount hc hi =>
    if (q.chunks hc).readCount = CHUNK_SIZE then some (q, .testRefCount hc hi)
    else some (q, .addRef hc hi)
  | .testRefCount hc hi =>
    if (q.chunks hc).refCount = 0 then some (q, .testNext hc) else some (q, .addRef hc hi)
  | .testNext hc =>
    match (q.chunks hc).next with
    | none => some (q, .loadHeadChunk)
    | some _ => some (q, .loadNext hc)
  | .loadNext hc =>
    match (q.chunks hc).next with
    | none => none
    | some next => some (q, .moveHead hc next)
  | .moveHead hc next =>
    if q.headChunk = hc then some ({ q with headChunk := next }, .deleteHead hc)
    else some (q, .loadHeadChunk)
  | .deleteHead hc => some ({ q with retired := q.retired ++ [hc] }, .loadHeadChunk)
  | .addRef hc hi => some (q.addRef hc, .claimHead hc hi)
  | .claimHead hc hi =>
    if q.headIndex = hi then
      some ({ q with headIndex := hi + 1, headClaims := q.headClaims ++ [hi] },
        .walk (.read hc) hc hi)
    else some (q, .loadHeadChunk)
  | .dropRef hc rc ri => some (q.dropRef hc, .findSlot (.read hc) rc ri)
  | .waitReady hc rc offset ri =>
    if ((q.chunks rc).slots offset).ready then some (q, .moveValue hc rc offset ri)
    else some (q, .waitReady hc rc offset ri)
  | .moveValue hc rc offset ri =>
    some (q.setSlot rc offset { (q.chunks rc).slots offset with value := none },
      .countRead hc rc ri ((q.chunks rc).slots offset).value)
  | .countRead hc rc ri v =>
    if rc = hc then some (q.countRead rc ri, .dropLastRef hc ri v)
    else some ((q.countRead rc ri).giveBack ri v, .idle)
  | .dropLastRef hc ri v => some ((q.dropRef hc).giveBack ri v, .idle)
  | _ => none

def advance (q : MPMCQueue T) (point : MpmcPoint T) : Option (MPMCQueue T × MpmcPoint T) :=
  (q.pushStep point).or ((q.walkStep point).or (q.popStep point))

/- The loop of the destructor, which starts at `head_chunk_`: the chunks it deletes. -/
def destroy (q : MPMCQueue T) : Nat → Option Nat → Option (List Nat)
  | _, none => some []
  | 0, some _ => none
  | fuel + 1, some curr => (q.destroy fuel (q.chunks curr).next).map (curr :: ·)

end MPMCQueue

/- A `compare_exchange_weak` may fail on its own. -/
def MpmcPoint.failWeak : MpmcPoint T → Option (MpmcPoint T)
  | .claimTail v _ _ => some (.loadTailChunk v)
  | .moveHead _ _ => some .loadHeadChunk
  | .claimHead _ _ => some .loadHeadChunk
  | _ => none

structure MpmcRun (ι T : Type) where
  queue : MPMCQueue T
  threads : ι → MpmcPoint T

inductive MpmcOp (ι T : Type) where
  | push (t : ι) (value : T)
  | pop (t : ι)
  | advance (t : ι)
  | failWeak (t : ι)

/-- Any thread may call `push` and `pop` at any time, one call at a time. -/
def mpmcMachine (ι T : Type) [DecidableEq ι] : Machine (MpmcRun ι T) (MpmcOp ι T) where
  start := ⟨MPMCQueue.init, fun _ => .idle⟩
  step s
    | .push t v =>
      match s.threads t with
      | .idle => some { s with threads := Function.update s.threads t (.loadTailChunk v) }
      | _ => none
    | .pop t =>
      match s.threads t with
      | .idle => some { s with threads := Function.update s.threads t .loadHeadChunk }
      | _ => none
    | .advance t =>
      (s.queue.advance (s.threads t)).map fun r => ⟨r.1, Function.update s.threads t r.2⟩
    | .failWeak t =>
      (s.threads t).failWeak.map fun p => { s with threads := Function.update s.threads t p }

end Xuanqiong
