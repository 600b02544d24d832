import Xuanqiong.Util.Block

namespace Xuanqiong

def IOV_MAX : Nat := 1024

/-- The chain from `cur_block_` to `last_block_`, split before its last block.
`allocated` counts the blocks made so far and gives the next one its address. -/
structure OutputBuffer where
  front : List BufferBlock
  last : BufferBlock
  toWriteBytes : Nat
  totalBytes : Nat
  allocated : Nat

namespace OutputBuffer

def init : OutputBuffer := ⟨[], newBlock 0, 0, 0, 1⟩

def blocks (b : OutputBuffer) : List BufferBlock := b.front ++ [b.last]

def bytes (b : OutputBuffer) : Nat := b.toWriteBytes

/- last_block_->next = new BufferBlock; last_block_ = last_block_->next -/
def pushBlock (b : OutputBuffer) : OutputBuffer :=
  { b with
    front := b.front ++ [b.last], last := newBlock b.allocated, allocated := b.allocated + 1 }

def pushIfFull (b : OutputBuffer) : OutputBuffer :=
  if b.last.end_ = kBlockSize then b.pushBlock else b

def next (b : OutputBuffer) : Region × OutputBuffer :=
  let b := b.pushIfFull
  let size := kBlockSize - b.last.end_
  (⟨b.last.addr, b.last.end_, size⟩,
    { b with
      toWriteBytes := sizeAdd b.toWriteBytes size
      totalBytes := sizeAdd b.totalBytes size
      last := { b.last with end_ := b.last.end_ + size } })

def backUp (b : OutputBuffer) (count : Int) : OutputBuffer :=
  let toBackup := min count b.last.end_
  { b with
    toWriteBytes := sizeAdd b.toWriteBytes (-toBackup)
    totalBytes := sizeAdd b.totalBytes (-toBackup)
    last := { b.last with end_ := b.last.end_ - toBackup } }

/- What the holder of a region writes through its pointer. -/
def poke (b : OutputBuffer) (r : Region) (bs : List UInt8) : OutputBuffer :=
  let write := fun blk : BufferBlock =>
    if blk.addr = r.addr then { blk with data := store blk.data r.off.toNat bs } else blk
  { b with front := b.front.map write, last := write b.last }

def toWrite (b : OutputBuffer) (bs : List UInt8) : Int :=
  min (bs.length : Int) (kBlockSize - b.last.end_)

/- memcpy to the end of the last block, with the counters -/
def copyIn (b : OutputBuffer) (bs : List UInt8) : OutputBuffer :=
  { b with
    toWriteBytes := sizeAdd b.toWriteBytes bs.length
    last :=
      { b.last with
        data := store b.last.data b.last.end_.toNat bs
        end_ := b.last.end_ + bs.length } }

/- One turn of the loop of `append`; the second component is what is left of the data. -/
def appendOnce (b : OutputBuffer) (bs : List UInt8) : OutputBuffer × List UInt8 :=
  let n := (b.toWrite bs).toNat
  ((b.copyIn (bs.take n)).pushIfFull, bs.drop n)

def appendLoop : Nat → OutputBuffer → List UInt8 → Option OutputBuffer
  | 0, _, _ => none
  | fuel + 1, b, bs =>
    if 0 < bs.length then appendLoop fuel (b.appendOnce bs).1 (b.appendOnce bs).2 else some b

/- A chain that keeps its shape spends a turn on each byte at most, one on a full
last block and one on leaving the loop. -/
def append (b : OutputBuffer) (bs : List UInt8) : Option OutputBuffer :=
  appendLoop (bs.length + 2) b bs

def iovec (blk : BufferBlock) : Region := ⟨blk.addr, blk.begin, blk.end_ - blk.begin⟩

def getIovecs (b : OutputBuffer) : List Region := (b.blocks.take IOV_MAX).map iovec

def cur (b : OutputBuffer) : BufferBlock :=
  match b.front with
  | [] => b.last
  | c :: _ => c

def setCur (b : OutputBuffer) (c : BufferBlock) : OutputBuffer :=
  match b.front with
  | [] => { b with last := c }
  | _ :: rest => { b with front := c :: rest }

/- Frees `cur_block_` and moves to its successor, which is made when there is none. -/
def dropCur (b : OutputBuffer) : OutputBuffer :=
  match b.front with
  | [] => { b with last := newBlock b.allocated, allocated := b.allocated + 1 }
  | _ :: rest => { b with front := rest }

def sendOnce (b : OutputBuffer) (left : Int) : OutputBuffer × Int :=
  let curWrite := min left (b.cur.end_ - b.cur.begin)
  let moved := b.setCur { b.cur with begin := b.cur.begin + curWrite }
  (if b.cur.begin + curWrite = kBlockSize then moved.dropCur else moved, left - curWrite)

def sendAddLoop : Nat → OutputBuffer → Int → Option OutputBuffer
  | 0, _, _ => none
  | fuel + 1, b, left =>
    if 0 < left then sendAddLoop fuel (b.sendOnce left).1 (b.sendOnce left).2 else some b

def sendAdd (b : OutputBuffer) (nwrite : Int) : Option OutputBuffer :=
  if nwrite ≤ 0 then some b
  else
    sendAddLoop (nwrite.toNat + 1) { b with
      toWriteBytes := sizeAdd b.toWriteBytes (-nwrite) } nwrite

/- The bytes a region denotes now; a region of a freed block denotes none. -/
def readRegion (b : OutputBuffer) (r : Region) : Option (List UInt8) :=
  (b.blocks.find? (fun blk => blk.addr = r.addr)).map
    (fun blk => slice blk.data r.off.toNat r.size.toNat)

def readRegions (b : OutputBuffer) : List Region → Option (List UInt8)
  | [] => some []
  | r :: rest =>
    (b.readRegion r).bind (fun bs => (b.readRegions rest).map (fun more => bs ++ more))

/- The bytes in [begin, end) over the whole chain. -/
def pending (b : OutputBuffer) : List UInt8 := b.blocks.flatMap BufferBlock.held

/-- The shape every operation keeps: a block that has a successor is full, and a
block is left as soon as its last byte is sent, so only the last can be empty. -/
structure Shape (b : OutputBuffer) : Prop where
  wf : ∀ blk ∈ b.blocks, blk.Wf ∧ blk.begin < kBlockSize
  full : ∀ blk ∈ b.front, blk.end_ = kBlockSize
  fresh : ∀ blk ∈ b.blocks, blk.addr < b.allocated
  distinct : (b.blocks.map BufferBlock.addr).Nodup

structure Inv (b : OutputBuffer) : Prop extends Shape b where
  counted : b.toWriteBytes = b.pending.length

/-- The chain of `c` is that of `b` with bytes and blocks added at its end only. -/
def Grows (b c : OutputBuffer) : Prop :=
  ∃ l more, c.blocks = b.front ++ l :: more ∧ l.addr = b.last.addr ∧ l.begin = b.last.begin ∧
    b.last.end_ ≤ l.end_ ∧ ∀ i, i < b.last.end_.toNat → l.data i = b.last.data i

theorem init_inv : Inv init where
  wf := by
    intro blk hb
    simp only [blocks, init, List.nil_append, List.mem_singleton] at hb
    exact hb ▸ ⟨BufferBlock.newBlock_wf 0, kBlockSize_pos⟩
  full := by intro blk hb; simp [init] at hb
  fresh := by
    intro blk hb
    simp only [blocks, init, List.nil_append, List.mem_singleton] at hb
    subst hb
    exact Nat.zero_lt_one
  distinct := by simp [blocks, init]
  counted := rfl

theorem pending_eq (b : OutputBuffer) :
    b.pending = b.front.flatMap BufferBlock.held ++ b.last.held := by
  simp [pending, blocks]

theorem last_mem (b : OutputBuffer) : b.last ∈ b.blocks := by simp [blocks]

theorem front_mem {b : OutputBuffer} {blk : BufferBlock} (h : blk ∈ b.front) : blk ∈ b.blocks :=
  List.mem_append_left _ h

theorem mem_blocks {b : OutputBuffer} {blk : BufferBlock} :
    blk ∈ b.blocks ↔ blk ∈ b.front ∨ blk = b.last := by simp [blocks]

namespace Grows

theorem refl (b : OutputBuffer) : Grows b b :=
  ⟨b.last, [], rfl, rfl, rfl, Int.le_refl _, fun _ _ => rfl⟩

theorem trans {b c d : OutputBuffer} (hc : Grows b c) (hd : Grows c d) : Grows b d := by
  obtain ⟨l, more, hb, ha, hs, he, hdata⟩ := hc
  obtain ⟨m, extra, hb', ha', hs', he', hdata'⟩ := hd
  rcases List.eq_nil_or_concat more with hm | ⟨init, z, hm⟩
  · -- `c` still ends in the block `b` ends in
    subst hm
    have hl : c.front = b.front ∧ c.last = l := by
      have := List.append_inj' hb rfl
      exact ⟨this.1, by simpa using this.2⟩
    refine ⟨m, extra, by rw [hb', hl.1], by rw [ha', hl.2, ha], by rw [hs', hl.2, hs], ?_, ?_⟩
    · rw [hl.2] at he'
      omega
    · intro i hi
      rw [hdata' i (by rw [hl.2]; omega), hl.2, hdata i hi]
  · subst hm
    have hl : c.front = b.front ++ l :: init ∧ c.last = z := by
      have hb2 : c.front ++ [c.last] = (b.front ++ l :: init) ++ [z] := by
        simpa [blocks] using hb
      have := List.append_inj' hb2 rfl
      exact ⟨this.1, by simpa using this.2⟩
    exact ⟨l, init ++ m :: extra, by rw [hb', hl.1]; simp, ha, hs, he, hdata⟩

end Grows

end OutputBuffer

end Xuanqiong
