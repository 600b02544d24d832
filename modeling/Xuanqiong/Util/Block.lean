import Xuanqiong.Base.Bytes

namespace Xuanqiong

def kBlockSize : Int := 8192

theorem kBlockSize_pos : 0 < kBlockSize := by decide

/- A `size_t` after an `int` has been added to it. Only the wrap below zero is
kept: the counters of this development never come near 2^64 from below. -/
def sizeAdd (a : Nat) (i : Int) : Nat :=
  if 0 ≤ (a : Int) + i then ((a : Int) + i).toNat else ((a : Int) + i + 2 ^ 64).toNat

theorem sizeAdd_of_nonneg {a : Nat} {i : Int} (h : 0 ≤ (a : Int) + i) :
    (sizeAdd a i : Int) = a + i := by
  rw [sizeAdd, if_pos h, Int.toNat_of_nonneg h]

def toInt32 (n : Nat) : Int := (n : Int).bmod (2 ^ 32)

theorem toInt32_of_lt {n : Nat} (h : n < 2 ^ 31) : toInt32 n = n := by
  apply Int.bmod_eq_of_le
  · omega
  · have half : (((2 ^ 32 : Nat) : Int) + 1) / 2 = 2147483648 := by decide
    rw [half]
    omega

theorem toInt32_of_ge {n : Nat} (big : 2 ^ 31 ≤ n) (word : n < 2 ^ 32) :
    toInt32 n = n - 2 ^ 32 := by
  have half : (((2 ^ 32 : Nat) : Int) + 1) / 2 = 2147483648 := by decide
  have whole : ((n : Int) % ((2 ^ 32 : Nat) : Int)) = n := by omega
  unfold toInt32
  rw [Int.bmod_def, whole, half]
  omega

/-- A block of a buffer chain. The address stands for the pointer to it; the
chain itself is kept as a list by the two buffers. -/
structure BufferBlock where
  addr : Nat
  begin : Int
  end_ : Int
  data : Nat → UInt8

/- `new BufferBlock`. The bytes of a new block are indeterminate in the source. -/
def newBlock (addr : Nat) : BufferBlock := ⟨addr, 0, 0, fun _ => 0⟩

/- A pointer into a block with a byte count: an `iovec`, or the space a buffer hands out. -/
structure Region where
  addr : Nat
  off : Int
  size : Int
  deriving DecidableEq

namespace BufferBlock

/- The bytes in [begin, end). -/
def held (b : BufferBlock) : List UInt8 := slice b.data b.begin.toNat (b.end_ - b.begin).toNat

structure Wf (b : BufferBlock) : Prop where
  nonneg : 0 ≤ b.begin
  ordered : b.begin ≤ b.end_
  bounded : b.end_ ≤ kBlockSize

theorem newBlock_wf (addr : Nat) : (newBlock addr).Wf :=
  ⟨Int.le_refl 0, Int.le_refl 0, Int.le_of_lt kBlockSize_pos⟩

@[simp] theorem newBlock_held (addr : Nat) : (newBlock addr).held = [] := rfl

theorem held_length {b : BufferBlock} (h : b.Wf) : (b.held.length : Int) = b.end_ - b.begin := by
  have := h.ordered
  rw [held, slice_length, Int.toNat_of_nonneg (by omega)]

theorem held_write {b : BufferBlock} (h : b.Wf) (bs : List UInt8) :
    held { b with data := store b.data b.end_.toNat bs, end_ := b.end_ + bs.length } =
      b.held ++ bs := by
  obtain ⟨h0, h1, _⟩ := h
  have size : (b.end_ + bs.length - b.begin).toNat =
    (b.end_ - b.begin).toNat + bs.length := by omega
  have stop : b.begin.toNat + (b.end_ - b.begin).toNat = b.end_.toNat := by omega
  simp only [held, size]
  rw [← slice_append, slice_store_below _ _ _ _ _ (Nat.le_of_eq stop), stop, slice_store_self]

theorem held_consume {b : BufferBlock} (h : b.Wf) {k : Int} (h0 : 0 ≤ k)
    (h1 : k ≤ b.end_ - b.begin) :
    held { b with begin := b.begin + k } = b.held.drop k.toNat := by
  have := h.nonneg
  have start : (b.begin + k).toNat = b.begin.toNat + k.toNat := by omega
  have size : (b.end_ - (b.begin + k)).toNat = (b.end_ - b.begin).toNat - k.toNat := by omega
  simp only [held, start, size, slice_drop]

theorem held_retract {b : BufferBlock} (h : b.Wf) {k : Int} (h0 : 0 ≤ k)
    (h1 : k ≤ b.end_ - b.begin) :
    held { b with end_ := b.end_ - k } = b.held.take (b.held.length - k.toNat) := by
  have size : (b.end_ - k - b.begin).toNat = b.held.length - k.toNat := by
    have := held_length h
    omega
  have short : b.held.length - k.toNat ≤ (b.end_ - b.begin).toNat := by
    rw [held, slice_length]
    omega
  simp only [held] at size short ⊢
  rw [size, slice_take _ _ _ _ short]

end BufferBlock

end Xuanqiong
