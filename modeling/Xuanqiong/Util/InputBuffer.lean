import Xuanqiong.Util.Block

namespace Xuanqiong

def INT32_MAX : Int := 2147483647

/-- `past` are the blocks of [first_block_, cur_block_), `after` those behind
`cur_block_` up to `last_block_`. -/
structure InputBuffer where
  past : List BufferBlock
  cur : BufferBlock
  after : List BufferBlock
  readBytes : Nat
  consumedBytes : Nat
  limit : Int
  allocated : Nat

/- What `Next` hands out: the bytes at `*data` and `*size`. -/
structure Piece where
  data : List UInt8
  size : Int

namespace InputBuffer

def init : InputBuffer := ⟨[], newBlock 0, [], 0, 0, INT32_MAX, 1⟩

def bytes (b : InputBuffer) : Nat := b.readBytes

def last (b : InputBuffer) : BufferBlock := b.after.getLastD b.cur

def mapLast (f : BufferBlock → BufferBlock) :
    BufferBlock → List BufferBlock → BufferBlock × List BufferBlock
  | c, [] => (f c, [])
  | c, n :: rest => (c, (mapLast f n rest).1 :: (mapLast f n rest).2)

def onLast (b : InputBuffer) (f : BufferBlock → BufferBlock) : InputBuffer :=
  { b with cur := (mapLast f b.cur b.after).1, after := (mapLast f b.cur b.after).2 }

def getBuffer (b : InputBuffer) : Region :=
  ⟨b.last.addr, b.last.end_, kBlockSize - b.last.end_⟩

/- The kernel stores received bytes at the address `get_buffer` returned. -/
def fill (b : InputBuffer) (bs : List UInt8) : InputBuffer :=
  b.onLast (fun l => { l with data := store l.data l.end_.toNat bs })

def recvAdd (b : InputBuffer) (nread : Int) : InputBuffer :=
  if 0 < nread then
    let grown : InputBuffer :=
      { b.onLast (fun l => { l with end_ := l.end_ + nread }) with
        readBytes := sizeAdd b.readBytes nread }
    -- if the current block is full, alloc a new block
    if grown.last.end_ = kBlockSize then
      { grown with after := grown.after ++ [newBlock b.allocated], allocated := b.allocated + 1 }
    else grown
  else b

/- cur_block_ = cur_block_->next, which has to exist -/
def nextBlock (b : InputBuffer) : Option InputBuffer :=
  match b.after with
  | [] => none
  | n :: rest => some { b with past := b.past ++ [b.cur], cur := n, after := rest }

/- if (cur_block_->begin == kBlockSize && cur_block_->next) cur_block_ = cur_block_->next -/
def leaveIfDrained (b : InputBuffer) : InputBuffer :=
  if b.cur.begin = kBlockSize then b.nextBlock.getD b else b

def consume (b : InputBuffer) (n : Int) : InputBuffer :=
  { b with cur := { b.cur with begin := b.cur.begin + n } }

def copyLen (b : InputBuffer) : Int := min (b.cur.end_ - b.cur.begin) 4

/-- `value` is the memory from the `uint32_t` on. The second copy goes to
`value + copy_len`, which steps by whole words. The flag is the result; no
result means that the null `next` of the last block was followed. -/
def fetchUint32 (b : InputBuffer) (value : Nat → UInt8) :
    Option (Bool × (Nat → UInt8) × InputBuffer) :=
  if b.readBytes < 4 then some (false, value, b)
  else
    let n := b.copyLen
    let value := store value 0 (slice b.cur.data b.cur.begin.toNat n.toNat)
    let rest : Option ((Nat → UInt8) × InputBuffer) :=
      if n < 4 then
        (b.consume n).nextBlock.map (fun b =>
          (store value (4 * n).toNat (slice b.cur.data b.cur.begin.toNat (4 - n).toNat),
            b.consume (4 - n)))
      else some (value, b.consume n)
    rest.map (fun (value, b) =>
      (true, value,
        { b.leaveIfDrained with
          consumedBytes := b.consumedBytes + 4, readBytes := sizeAdd b.readBytes (-4) }))

def next (b : InputBuffer) : Option (Piece × InputBuffer) :=
  if b.cur.begin = b.cur.end_ ∨ b.limit = 0 then none
  else
    let size := min (b.cur.end_ - b.cur.begin) b.limit
    some (⟨slice b.cur.data b.cur.begin.toNat size.toNat, size⟩,
      { (b.consume size).leaveIfDrained with
        limit := b.limit - (if b.limit = INT32_MAX then 0 else size)
        consumedBytes := sizeAdd b.consumedBytes size
        readBytes := sizeAdd b.readBytes (-size) })

def backUp (b : InputBuffer) (n : Int) : InputBuffer :=
  let backupBytes := min n b.cur.begin
  { b with
    cur := { b.cur with begin := b.cur.begin - backupBytes }
    readBytes := sizeAdd b.readBytes backupBytes
    limit := b.limit + (if b.limit = INT32_MAX then 0 else backupBytes)
    consumedBytes := sizeAdd b.consumedBytes (-backupBytes)
    -- dealloc consumed blocks
    past := [] }

def byteCount (b : InputBuffer) : Nat := b.consumedBytes

def skipOver (b : InputBuffer) (toSkip : Int) : InputBuffer :=
  { (b.consume toSkip).leaveIfDrained with
    consumedBytes := sizeAdd b.consumedBytes toSkip, readBytes := sizeAdd b.readBytes (-toSkip) }

/- The loop of `skip`. No result stands for a loop that has not ended after `turns` turns. -/
def skipLoop : Nat → InputBuffer → Int → Option InputBuffer
  | 0, b, n => if 0 < n then none else some b
  | turns + 1, b, n =>
    if 0 < n then
      let toSkip := min n (b.cur.end_ - b.cur.begin)
      skipLoop turns (b.skipOver toSkip) (n - toSkip)
    else some b

def skip (b : InputBuffer) (turns : Nat) (n : Int) : Option (Bool × InputBuffer) :=
  if n > b.byteCount then some (false, b) else (skipLoop turns b n).map fun c => (true, c)

def pushLimit (b : InputBuffer) (limit : Int) : InputBuffer := { b with limit := limit }

def popLimit (b : InputBuffer) : InputBuffer := { b with limit := INT32_MAX }

def chain (b : InputBuffer) : List BufferBlock := b.cur :: b.after

/- The bytes in [begin, end) of the blocks from `cur_block_` to `last_block_`. -/
def unread (b : InputBuffer) : List UInt8 := b.chain.flatMap BufferBlock.held

end InputBuffer

end Xuanqiong
