import Xuanqiong.Util.InputStream
import Xuanqiong.Util.ZeroCopy

/-! Where the input buffer keeps its bytes. `recv_add` fills block after block, the users of the
stream move `begin` and `cur_block_` only, and of these `back_up` alone gives blocks back; so
without it the chain is known from the number of bytes received, and `get_buffer` with it. -/
namespace Xuanqiong

namespace InputBuffer

variable {b c : InputBuffer}

def blocks (b : InputBuffer) : List BufferBlock := b.past ++ b.cur :: b.after

def mark (l : BufferBlock) : Nat × Int := (l.addr, l.end_)

def marks (b : InputBuffer) : List (Nat × Int) := b.blocks.map mark

def fullBlocks (n : Nat) : List (Nat × Int) :=
  (List.range (n / kBlockSize.toNat)).map fun i => (i, kBlockSize)

/- The chain after `n` bytes, if no block is ever given back. -/
def layout (n : Nat) : List (Nat × Int) :=
  fullBlocks n ++ [(n / kBlockSize.toNat, ((n % kBlockSize.toNat : Nat) : Int))]

theorem layout_within {n k : Nat} (short : n % kBlockSize.toNat + k < kBlockSize.toNat) :
    layout (n + k) = fullBlocks n ++
      [(n / kBlockSize.toNat, ((n % kBlockSize.toNat + k : Nat) : Int))] := by
  have size : kBlockSize.toNat = 8192 := rfl
  rw [size] at short
  have block : (n + k) / 8192 = n / 8192 := by omega
  have place : (n + k) % 8192 = n % 8192 + k := by omega
  simp only [layout, fullBlocks, size, block, place]

theorem layout_full {n k : Nat} (full : n % kBlockSize.toNat + k = kBlockSize.toNat) :
    layout (n + k) =
      fullBlocks n ++ [(n / kBlockSize.toNat, kBlockSize)] ++ [(n / kBlockSize.toNat + 1, 0)] := by
  have size : kBlockSize.toNat = 8192 := rfl
  rw [size] at full
  have block : (n + k) / 8192 = n / 8192 + 1 := by omega
  have place : (n + k) % 8192 = 0 := by omega
  simp only [layout, fullBlocks, size, block, place, List.range_succ, List.map_append]
  rfl

theorem layout_length (n : Nat) : (layout n).length = n / kBlockSize.toNat + 1 := by
  simp [layout, fullBlocks]

structure Laid (b : InputBuffer) (n : Nat) : Prop where
  marks : b.marks = layout n
  allocated : b.allocated = (layout n).length

/- What the users of the stream do to the chain. -/
def SameMarks (b c : InputBuffer) : Prop := c.marks = b.marks ∧ c.allocated = b.allocated

theorem SameMarks.trans {d : InputBuffer} (h : SameMarks b c) (h' : SameMarks c d) :
    SameMarks b d :=
  ⟨h'.1.trans h.1, h'.2.trans h.2⟩

theorem SameMarks.laid (h : SameMarks b c) {n : Nat} (laid : b.Laid n) : c.Laid n :=
  ⟨h.1.trans laid.marks, h.2.trans laid.allocated⟩

theorem nextBlock_marks (hn : b.nextBlock = some c) : SameMarks b c := by
  unfold nextBlock at hn
  split at hn
  · cases hn
  · rename_i n rest after
    cases hn
    simp [SameMarks, marks, blocks, after]

theorem leaveIfDrained_marks (b : InputBuffer) : SameMarks b b.leaveIfDrained := by
  unfold leaveIfDrained
  split
  · cases hn : b.nextBlock with
    | none => exact ⟨rfl, rfl⟩
    | some c => exact nextBlock_marks hn
  · exact ⟨rfl, rfl⟩

theorem consume_marks (b : InputBuffer) (n : Int) : SameMarks b (b.consume n) := by
  simp [SameMarks, marks, blocks, mark, consume]

theorem pushLimit_marks (b : InputBuffer) (limit : Int) : SameMarks b (b.pushLimit limit) :=
    ⟨rfl, rfl⟩

theorem next_marks {p : Piece} (hn : b.next = some (p, c)) : SameMarks b c := by
  unfold next at hn
  split at hn
  · cases hn
  · cases hn
    exact (consume_marks b _).trans (leaveIfDrained_marks _)

theorem pull_marks {fuel : Nat} {bytes : List UInt8} (run : b.pull fuel = some (bytes, c)) :
    SameMarks b c := by
  induction fuel generalizing b bytes with
  | zero => cases run
  | succ fuel ih =>
    unfold pull at run
    split at run
    · cases run
      exact ⟨rfl, rfl⟩
    · rename_i p d hn
      obtain ⟨r, hr, he⟩ := Option.map_eq_some_iff.mp run
      cases he
      exact (next_marks hn).trans (ih hr)

theorem fetchUint32_marks {value value' : Nat → UInt8} {ok : Bool}
    (run : b.fetchUint32 value = some (ok, value', c)) : SameMarks b c := by
  unfold fetchUint32 at run
  split at run
  · cases run
    exact ⟨rfl, rfl⟩
  · obtain ⟨⟨memory, d⟩, hd, hc⟩ := Option.map_eq_some_iff.mp run
    cases hc
    have moved : SameMarks b d := by
      split at hd
      · obtain ⟨d', hn, he⟩ := Option.map_eq_some_iff.mp hd
        cases he
        exact ((consume_marks b _).trans (nextBlock_marks hn)).trans (consume_marks d' _)
      · cases hd
        exact consume_marks b _
    exact moved.trans (leaveIfDrained_marks d)

def front (b : InputBuffer) : List BufferBlock := b.past ++ (b.cur :: b.after).dropLast

theorem mapLast_eq (f : BufferBlock → BufferBlock) (c : BufferBlock) (rest : List BufferBlock) :
    (mapLast f c rest).1 :: (mapLast f c rest).2 =
      (c :: rest).dropLast ++ [f (rest.getLastD c)] := by
  induction rest generalizing c with
  | nil => rfl
  | cons n rest ih =>
    rw [List.getLastD_cons, List.dropLast_cons_cons, List.cons_append, ← ih n]
    rfl

theorem onLast_blocks (b : InputBuffer) (f : BufferBlock → BufferBlock) :
    (b.onLast f).blocks = b.front ++ [f b.last] := by
  simp only [blocks, onLast, mapLast_eq, front, last, List.append_assoc]

theorem blocks_eq (b : InputBuffer) : b.blocks = b.front ++ [b.last] := by
  have same := onLast_blocks b id
  rw [onLast, mapLast_id (f := id) fun _ => rfl] at same
  exact same

namespace Laid

variable {n : Nat}

theorem init : InputBuffer.init.Laid 0 := ⟨rfl, rfl⟩

theorem cut (h : b.Laid n) : b.front.map mark = fullBlocks n ∧
    b.last.addr = n / kBlockSize.toNat ∧ b.last.end_ = ((n % kBlockSize.toNat : Nat) : Int) := by
  have marks := h.marks
  rw [InputBuffer.marks, blocks_eq, List.map_append, layout] at marks
  obtain ⟨front, last⟩ := List.append_inj' marks rfl
  have last := List.cons.inj last
  exact ⟨front, congrArg Prod.fst last.1, congrArg Prod.snd last.1⟩

theorem getBuffer (h : b.Laid n) : b.getBuffer =
    ⟨n / kBlockSize.toNat, ((n % kBlockSize.toNat : Nat) : Int),
      kBlockSize - (n % kBlockSize.toNat : Nat)⟩ := by
  obtain ⟨_, addr, stop⟩ := h.cut
  simp only [InputBuffer.getBuffer, addr, stop]

theorem room (h : b.Laid n) : 0 < b.getBuffer.size := by
  have below := Nat.mod_lt n (show 0 < kBlockSize.toNat by decide)
  have size : kBlockSize = (kBlockSize.toNat : Int) := rfl
  rw [h.getBuffer]
  simp only
  omega

theorem addrs (h : b.Laid n) : b.blocks.map BufferBlock.addr = List.range b.allocated := by
  have addrs := congrArg (List.map Prod.fst) h.marks
  simp only [InputBuffer.marks, List.map_map, layout, fullBlocks, List.map_append] at addrs
  rw [h.allocated, layout_length, List.range_succ]
  exact addrs.trans (congrArg (· ++ [n / kBlockSize.toNat]) (List.map_id _))

theorem fill (h : b.Laid n) (bs : List UInt8) : (b.fill bs).Laid n := by
  refine ⟨?_, h.allocated⟩
  rw [← h.marks, InputBuffer.marks, InputBuffer.marks, InputBuffer.fill, onLast_blocks, blocks_eq]
  simp [mark]

theorem recvAdd (h : b.Laid n) {k : Nat} (fits : (k : Int) ≤ b.getBuffer.size) :
    (b.recvAdd k).Laid (n + k) := by
  obtain ⟨front, addr, stop⟩ := h.cut
  simp only [InputBuffer.getBuffer, stop] at fits
  have size : kBlockSize = (kBlockSize.toNat : Int) := rfl
  have grown : (b.onLast fun l => { l with end_ := l.end_ + k }).marks =
      fullBlocks n ++ [(n / kBlockSize.toNat, ((n % kBlockSize.toNat + k : Nat) : Int))] := by
    rw [InputBuffer.marks, onLast_blocks, List.map_append, front]
    simp [mark, addr, stop]
  have last := mapLast_last (fun l => { l with end_ := l.end_ + k }) b.cur b.after
  have reached : (b.onLast fun l => { l with end_ := l.end_ + k }).last.end_ =
      ((n % kBlockSize.toNat + k : Nat) : Int) := by
    have stop' : (b.onLast fun l => { l with end_ := l.end_ + k }).last.end_ = b.last.end_ + k :=
      congrArg BufferBlock.end_ last
    rw [stop', stop]
    rfl
  unfold InputBuffer.recvAdd
  split
  · dsimp only
    split
    · rename_i full
      have full : n % kBlockSize.toNat + k = kBlockSize.toNat := by
        have meets := reached.symm.trans full
        omega
      have fresh := h.allocated.trans (layout_length n)
      refine ⟨?_, by rw [layout_full full, h.allocated]; simp [layout]⟩
      have pushed : ∀ c : InputBuffer,
          (c.past ++ c.cur :: (c.after ++ [newBlock b.allocated])).map mark =
          c.marks ++ [(b.allocated, 0)] := by simp [InputBuffer.marks, blocks, mark, newBlock]
      rw [layout_full full, ← fresh]
      refine (pushed _).trans (congrArg (· ++ [(b.allocated, 0)]) (grown.trans ?_))
      rw [full]
      rfl
    · rename_i partly
      have short : n % kBlockSize.toNat + k < kBlockSize.toNat := by
        have misses : ¬ ((n % kBlockSize.toNat + k : Nat) : Int) = kBlockSize :=
          fun meets => partly (reached.trans meets)
        omega
      have count : (layout n).length = (layout (n + k)).length := by
        rw [layout_within short]
        simp [layout]
      exact ⟨grown.trans (layout_within short).symm, h.allocated.trans count⟩
  · have none : k = 0 := by omega
    subst none
    exact h

theorem receive (h : b.Laid n) {bs : List UInt8} (fits : (bs.length : Int) ≤ b.getBuffer.size) :
    (b.receive bs).Laid (n + bs.length) := by
  have room : (b.fill bs).getBuffer = b.getBuffer := (h.fill bs).getBuffer.trans h.getBuffer.symm
  exact (h.fill bs).recvAdd (room ▸ fits)

end Laid

/- A store through a pointer into a block, which has to be there still. -/
def poke (b : InputBuffer) (r : Region) (bs : List UInt8) : Option InputBuffer :=
  let put (l : BufferBlock) : BufferBlock :=
    if l.addr = r.addr then { l with data := store l.data r.off.toNat bs } else l
  if r.addr ∈ b.blocks.map BufferBlock.addr then
    some { b with past := b.past.map put, cur := put b.cur, after := b.after.map put }
  else none

theorem map_eq_mapLast (put f : BufferBlock → BufferBlock) {c : BufferBlock}
    {rest : List BufferBlock} (others : ∀ l ∈ (c :: rest).dropLast, put l = l)
    (last : put (rest.getLastD c) = f (rest.getLastD c)) :
    (put c, rest.map put) = mapLast f c rest := by
  induction rest generalizing c with
  | nil => exact congrArg (·, []) last
  | cons n rest ih =>
    rw [List.dropLast_cons_cons] at others
    rw [List.getLastD_cons] at last
    have tail := ih (fun l hl => others l (List.mem_cons_of_mem _ hl)) last
    simp only [mapLast, ← tail, others c List.mem_cons_self, List.map_cons]

theorem Laid.distinct {n : Nat} (h : b.Laid n) {l : BufferBlock} (hl : l ∈ b.front) :
    l.addr ≠ b.last.addr := by
  obtain ⟨front, addr, _⟩ := h.cut
  have marked : mark l ∈ fullBlocks n := front ▸ List.mem_map_of_mem hl
  obtain ⟨i, hi, same⟩ := List.mem_map.mp marked
  have below := List.mem_range.mp hi
  have here : l.addr = i := (congrArg Prod.fst same).symm
  rw [addr, here]
  omega

/-- The bytes of a read go where `recv_add` will count them. -/
theorem Laid.poke {n : Nat} (h : b.Laid n) (bs : List UInt8) :
    b.poke b.getBuffer bs = some (b.fill bs) := by
  let put (l : BufferBlock) : BufferBlock :=
    if l.addr = b.last.addr then { l with data := store l.data b.last.end_.toNat bs } else l
  have others : ∀ l ∈ b.front, put l = l := fun l hl => if_neg (h.distinct hl)
  have past : b.past.map put = b.past := by
    refine (List.map_congr_left fun l hl => ?_).trans (List.map_id _)
    exact others l (List.mem_append_left _ hl)
  have chain := map_eq_mapLast put (fun l => { l with data := store l.data l.end_.toNat bs })
    (fun l hl => others l (List.mem_append_right _ hl)) (if_pos rfl)
  have there : b.last.addr ∈ b.blocks.map BufferBlock.addr := by
    rw [blocks_eq]
    simp
  have cur : put b.cur = (b.fill bs).cur := congrArg Prod.fst chain
  have after : b.after.map put = (b.fill bs).after := congrArg Prod.snd chain
  refine (if_pos there).trans (congrArg some ?_)
  show { b with past := b.past.map put, cur := put b.cur, after := b.after.map put } = b.fill bs
  rw [past, cur, after]
  rfl

end InputBuffer

end Xuanqiong
