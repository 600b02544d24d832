import Xuanqiong.Util.InputStream
import Xuanqiong.Util.ZeroCopy
import Xuanqiong.Net.PollWrite

/-! What the two ends of an rpc share: the header, and a polled connection with its buffers and
the loops of `async_read` and `async_write`. -/
namespace Xuanqiong

def MAGIC_NUM : UInt64 := 0x30F8CA9B

def VERSION : Int32 := 1

inductive MessageType where
  | unspecified
  | request
  | response
  deriving DecidableEq

structure Header where
  magic : UInt64
  version : Int32
  messageType : MessageType
  requestId : Int64
  serviceName : Option String
  methodName : Option String

structure Connection where
  readBuf : InputBuffer
  writeBuf : OutputBuffer
  closed : Bool

namespace Connection

def init : Connection := ⟨InputBuffer.init, OutputBuffer.init, false⟩

def readBytes (c : Connection) : Nat := c.readBuf.bytes

def writeBytes (c : Connection) : Nat := c.writeBuf.bytes

def close (c : Connection) : Connection := { c with closed := true }

/- `memory` is what the uninitialised `uint32_t` and the bytes after it hold. -/
def fetchUint32 (c : Connection) (memory : Nat → UInt8) : Option (Option Nat × Connection) :=
  (c.readBuf.fetchUint32 memory).map fun (ok, value, b) =>
    (if ok then some (fromLe (slice value 0 4)) else none, { c with readBuf := b })

/- The bytes that a parse sees after `push_limit(len)`. -/
def pull (c : Connection) (len : Nat) : Option (List UInt8 × Connection) :=
  ((c.readBuf.pushLimit (toInt32 len)).pull (c.readBytes + 1)).map fun (bytes, b) =>
    (bytes, { c with readBuf := b })

def popLimit (c : Connection) : Connection := { c with readBuf := c.readBuf.popLimit }

/- A message with its length in front of it, as both sides write it. -/
def appendMessage (c : Connection) (junk : Nat → UInt8) (message : List UInt8) :
    Option Connection :=
  (c.writeBuf.append (le32 message.length)).bind fun b =>
    (b.serialize junk message.length message).map fun b => { c with writeBuf := b }

def recvAdd (c : Connection) (n : Nat) : Connection := { c with readBuf := c.readBuf.recvAdd n }

theorem fetchUint32_closed {c d : Connection} {memory : Nat → UInt8} {v : Option Nat}
    (h : c.fetchUint32 memory = some (v, d)) : d.closed = c.closed := by
  obtain ⟨r, _, hd⟩ := Option.map_eq_some_iff.mp h
  cases hd
  rfl

theorem fetchUint32_enough {c d : Connection} {memory : Nat → UInt8} {v : Option Nat}
    (enough : ¬ c.readBytes < 4) (h : c.fetchUint32 memory = some (v, d)) : ∃ n, v = some n := by
  obtain ⟨⟨ok, value, b⟩, hf, hd⟩ := Option.map_eq_some_iff.mp h
  have short : ¬ c.readBuf.readBytes < 4 := enough
  unfold InputBuffer.fetchUint32 at hf
  rw [if_neg short] at hf
  obtain ⟨r, _, hr⟩ := Option.map_eq_some_iff.mp hf
  cases hr
  cases hd
  exact ⟨_, rfl⟩

theorem pull_closed {c d : Connection} {len : Nat} {bytes : List UInt8}
    (h : c.pull len = some (bytes, d)) : d.closed = c.closed := by
  obtain ⟨r, _, hd⟩ := Option.map_eq_some_iff.mp h
  cases hd
  rfl

theorem fetchUint32_writeBuf {c d : Connection} {memory : Nat → UInt8} {v : Option Nat}
    (h : c.fetchUint32 memory = some (v, d)) : d.writeBuf = c.writeBuf := by
  obtain ⟨r, _, hd⟩ := Option.map_eq_some_iff.mp h
  cases hd
  rfl

theorem pull_writeBuf {c d : Connection} {len : Nat} {bytes : List UInt8}
    (h : c.pull len = some (bytes, d)) : d.writeBuf = c.writeBuf := by
  obtain ⟨r, _, hd⟩ := Option.map_eq_some_iff.mp h
  cases hd
  rfl

/- What `recv_fn` does to the input in one step, at either end: nothing, a `fetch_uint32`, or a
parse. A parse that fails leaves its limit in force. -/
inductive Takes (c : Connection) : Connection → Prop where
  | nothing : Takes c c
  | word {memory : Nat → UInt8} {v : Option Nat} {d : Connection}
      (run : c.fetchUint32 memory = some (v, d)) : Takes c d
  | bytes {len : Nat} {bs : List UInt8} {d : Connection}
      (run : c.pull len = some (bs, d)) : Takes c d
  | message {len : Nat} {bs : List UInt8} {d : Connection} (run : c.pull len = some (bs, d)) :
      Takes c d.popLimit

theorem Takes.closed {c d : Connection} (h : c.Takes d) : d.closed = c.closed := by
  cases h with
  | nothing => rfl
  | word run => exact fetchUint32_closed run
  | bytes run | message run =>
    have same := pull_closed run
    exact same

theorem Takes.writeBuf {c d : Connection} (h : c.Takes d) : d.writeBuf = c.writeBuf := by
  cases h with
  | nothing => rfl
  | word run => exact fetchUint32_writeBuf run
  | bytes run | message run =>
    have same := pull_writeBuf run
    exact same

theorem appendMessage_closed {c d : Connection} {junk : Nat → UInt8} {message : List UInt8}
    (h : c.appendMessage junk message = some d) : d.closed = c.closed := by
  obtain ⟨b, _, hb⟩ := Option.bind_eq_some_iff.mp h
  obtain ⟨r, _, hd⟩ := Option.map_eq_some_iff.mp hb
  cases hd
  rfl

end Connection

inductive ReadResult where
  | data (bs : List UInt8)
  | eof
  | eintr
  | eagain
  | failed

/-- The loop of `async_read`: the bytes that came, and whether it calls `close`. No result
stands for a call that has not returned yet, or for more bytes than were asked for. -/
def readLoop (maxSize : Int) (got : List UInt8) : List ReadResult → Option (List UInt8 × Bool)
  | [] => if 0 < maxSize then none else some (got, false)
  | r :: rest =>
    if 0 < maxSize then
      match r with
      | .data bs =>
        if bs ≠ [] ∧ bs.length ≤ maxSize then readLoop (maxSize - bs.length)
          (got ++ bs) rest else none
      | .eintr => readLoop maxSize got rest
      | .eagain => if rest = [] then some (got, false) else none
      | .eof | .failed => if rest = [] then some (got, true) else none
    else none

namespace Connection

/- `async_read` up to the end of its loop, with `read_bytes`. -/
def readAll (c : Connection) (results : List ReadResult) : Option (Connection × Nat) :=
  (readLoop c.readBuf.getBuffer.size [] results).map fun (got, ends) =>
    ({ c with readBuf := c.readBuf.fill got, closed := c.closed || ends }, got.length)

/- `async_read` with `should_suspend`, less the `resume_write` on its way, which leaves alone
what is read. -/
def asyncRead (c : Connection) (results : List ReadResult) : Option (Connection × Bool) :=
  (c.readAll results).map fun (d, n) => (d.recvAdd n, !d.closed && decide (n ≤ 0))

theorem readAll_opened {c d : Connection} {results : List ReadResult} {n : Nat}
    (h : c.readAll results = some (d, n)) (opened : d.closed = false) : c.closed = false := by
  obtain ⟨⟨got, ends⟩, _, hd⟩ := Option.map_eq_some_iff.mp h
  cases hd
  exact (Bool.or_eq_false_iff.mp opened).1

/- `async_write`, with `should_suspend`. -/
def asyncWrite (c : Connection) (results : List WriteResult) : Option (Connection × Bool) :=
  let needWrite := toInt32 c.writeBytes
  (writeLoop c.writeBuf needWrite 0 [] results).bind fun (nwrite, _) =>
    (c.writeBuf.sendAdd nwrite).map fun b =>
      ({ c with writeBuf := b }, !c.closed && decide (nwrite < needWrite))

theorem asyncWrite_closed {c d : Connection} {results : List WriteResult} {suspend : Bool}
    (h : c.asyncWrite results = some (d, suspend)) : d.closed = c.closed := by
  obtain ⟨⟨nwrite, taken⟩, _, hs⟩ := Option.bind_eq_some_iff.mp h
  obtain ⟨b, _, hb⟩ := Option.map_eq_some_iff.mp hs
  cases hb
  rfl

theorem asyncWrite_suspends {c d : Connection} {results : List WriteResult} {suspend : Bool}
    (h : c.asyncWrite results = some (d, suspend)) (hs : suspend = true) : c.closed = false := by
  obtain ⟨⟨nwrite, taken⟩, _, hw⟩ := Option.bind_eq_some_iff.mp h
  obtain ⟨b, _, hb⟩ := Option.map_eq_some_iff.mp hw
  cases hb
  simp only [Bool.and_eq_true, Bool.not_eq_true'] at hs
  exact hs.1

end Connection

end Xuanqiong
