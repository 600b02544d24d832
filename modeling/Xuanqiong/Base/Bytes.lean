import Mathlib.Algebra.Group.Int.Defs
import Mathlib.Algebra.Group.Nat.Defs
import Mathlib.Data.List.Basic

/-! Byte memory as a function of the offset, with the regions that are read from
it and copied into it, and the little-endian form of a 32-bit word. -/
namespace Xuanqiong

def slice (data : Nat → UInt8) (o n : Nat) : List UInt8 := (List.range' o n).map data

/- Memory after `bs` has been copied to offset `o`. -/
def store (data : Nat → UInt8) (o : Nat) (bs : List UInt8) : Nat → UInt8 :=
  fun i => if o ≤ i then bs.getD (i - o) (data i) else data i

@[simp] theorem slice_length (data : Nat → UInt8) (o n : Nat) : (slice data o n).length = n := by
  simp [slice]

@[simp] theorem slice_zero (data : Nat → UInt8) (o : Nat) : slice data o 0 = [] := rfl

theorem slice_append (data : Nat → UInt8) (o m n : Nat) :
    slice data o m ++ slice data (o + m) n = slice data o (m + n) := by
  rw [slice, slice, slice, ← List.map_append, List.range'_append_1]

theorem slice_drop (data : Nat → UInt8) (o n k : Nat) :
    (slice data o n).drop k = slice data (o + k) (n - k) := by
  rw [slice, slice, ← List.map_drop, List.drop_range', Nat.mul_one]

theorem slice_take (data : Nat → UInt8) (o n k : Nat) (h : k ≤ n) :
    (slice data o n).take k = slice data o k := by
  have split : slice data o n = slice data o k ++ slice data (o + k) (n - k) := by
    rw [slice_append, Nat.add_sub_cancel' h]
  rw [split, List.take_left' (slice_length data o k)]

theorem slice_store_below (data : Nat → UInt8) (o n p : Nat) (bs : List UInt8) (h : o + n ≤ p) :
    slice (store data p bs) o n = slice data o n := by
  apply List.map_congr_left
  intro i hi
  have hi' := List.mem_range'_1.mp hi
  have below : ¬ p ≤ i := by omega
  simp only [store, if_neg below]

theorem slice_store_self (data : Nat → UInt8) (o : Nat) (bs : List UInt8) :
    slice (store data o bs) o bs.length = bs := by
  apply List.ext_getElem
  · simp
  · intro i h₁ h₂
    simp [slice, store, h₂]

/- The four bytes of the low 32 bits of `n`, least significant first. -/
def le32 (n : Nat) : List UInt8 :=
  [UInt8.ofNat n, UInt8.ofNat (n / 2 ^ 8), UInt8.ofNat (n / 2 ^ 16), UInt8.ofNat (n / 2 ^ 24)]

/- The number a list of bytes denotes, least significant byte first. -/
def fromLe : List UInt8 → Nat
  | [] => 0
  | b :: bs => b.toNat + 2 ^ 8 * fromLe bs

@[simp] theorem le32_length (n : Nat) : (le32 n).length = 4 := rfl

theorem fromLe_le32 (n : Nat) (h : n < 2 ^ 32) : fromLe (le32 n) = n := by
  simp only [le32, fromLe, UInt8.toNat_ofNat']
  omega

end Xuanqiong
