import Libca.Common.Bytes

/-!
# Memory made of blocks

A memory holds blocks that `new` made and `delete` has not freed. An address is an offset into a
block; blocks are never used again under the same name.

* `Blocks.read_written`: a range reads what was written to it.
* `Blocks.read_of_disjoint`: a write leaves every range that it does not meet.
* `Blocks.read_congr`: a range reads the same in two memories that agree on its block.
-/

namespace Libca.Common

/-- An address: an offset into a block. -/
structure Address where
  block : Nat
  offset : Nat
  deriving DecidableEq

/-- The allocated blocks with their sizes, and what the bytes are. -/
structure Blocks where
  size : Nat → Option Nat := fun _ => none
  byte : Nat → Nat → UInt8 := fun _ _ => 0
  next : Nat := 0

namespace Blocks

/-- `new u8[n]`: a block of a new name; its bytes are what they were. -/
def alloc (m : Blocks) (n : Nat) : Blocks :=
  { m with
    size := fun b => if b = m.next then some n else m.size b
    next := m.next + 1 }

/-- `delete[]`. -/
def free (m : Blocks) (block : Nat) : Blocks :=
  { m with size := fun b => if b = block then none else m.size b }

/-- `memcpy` to an address. -/
def write (m : Blocks) (dest : Address) (bytes : Bytes) : Blocks :=
  { m with
    byte := fun b o =>
      if b = dest.block ∧ dest.offset ≤ o then (bytes[o - dest.offset]?).getD (m.byte b o)
      else m.byte b o }

/-- The `n` bytes at an address, when they lie in an allocated block. -/
def read (m : Blocks) (src : Address) (n : Nat) : Option Bytes :=
  (m.size src.block).bind fun size =>
    if src.offset + n ≤ size then
      some ((List.range n).map fun i => m.byte src.block (src.offset + i))
    else none

/-- Two memories agree on a block. -/
structure Agree (m m' : Blocks) (block : Nat) : Prop where
  size : m'.size block = m.size block
  byte : ∀ o, m'.byte block o = m.byte block o

variable {m m' m'' : Blocks} {block : Nat}

theorem Agree.refl (m : Blocks) (block : Nat) : Agree m m block := ⟨rfl, fun _ => rfl⟩

theorem Agree.trans (h : Agree m m' block) (h' : Agree m' m'' block) : Agree m m'' block :=
  ⟨h'.size.trans h.size, fun o => (h'.byte o).trans (h.byte o)⟩

theorem agree_alloc (m : Blocks) (n : Nat) (hblock : block < m.next) : Agree m (m.alloc n) block :=
  ⟨if_neg (Nat.ne_of_lt hblock), fun _ => rfl⟩

theorem agree_free (m : Blocks) {freed : Nat} (hne : block ≠ freed) :
    Agree m (m.free freed) block :=
  ⟨if_neg hne, fun _ => rfl⟩

variable {dest : Address}

theorem agree_write (m : Blocks) (hne : block ≠ dest.block) (bytes : Bytes) :
    Agree m (m.write dest bytes) block :=
  ⟨rfl, fun _ => if_neg fun h => hne h.1⟩

/-- **Reading depends on the block only.** -/
theorem read_congr {src : Address} (h : Agree m m' src.block) (n : Nat) :
    m'.read src n = m.read src n := by
  unfold read
  rw [h.size]
  refine congrArg _ (funext fun size => ?_)
  split_ifs
  · exact congrArg some (List.map_congr_left fun i _ => h.byte _)
  · rfl

/-- **Reading what was written.** -/
theorem read_written {bytes : Bytes} {size : Nat} (hsize : m.size dest.block = some size)
    (hfits : dest.offset + bytes.length ≤ size) :
    (m.write dest bytes).read dest bytes.length = some bytes := by
  unfold read
  rw [show (m.write dest bytes).size = m.size from rfl, hsize]
  change (if dest.offset + bytes.length ≤ size then _ else none) = some bytes
  rw [if_pos hfits]
  refine congrArg some (List.ext_getElem (by simp) fun i hi hi' => ?_)
  rw [List.getElem_map, List.getElem_range]
  unfold write
  dsimp only
  rw [if_pos ⟨rfl, Nat.le_add_right _ _⟩, Nat.add_sub_cancel_left, List.getElem?_eq_getElem hi']
  rfl

/-- Two ranges have no byte in common. -/
def Disjoint (a : Address) (n : Nat) (b : Address) (k : Nat) : Prop :=
  a.block ≠ b.block ∨ a.offset + n ≤ b.offset ∨ b.offset + k ≤ a.offset

theorem Disjoint.symm {a b : Address} {n k : Nat} (h : Disjoint a n b k) : Disjoint b k a n :=
  Or.imp Ne.symm Or.symm h

/-- **Reading beside what was written.** -/
theorem read_of_disjoint {src : Address} {n : Nat} {bytes : Bytes}
    (h : Disjoint src n dest bytes.length) : (m.write dest bytes).read src n = m.read src n := by
  unfold read
  rw [show (m.write dest bytes).size = m.size from rfl]
  refine congrArg _ (funext fun size => ?_)
  split_ifs
  · refine congrArg some (List.map_congr_left fun i hi => ?_)
    have hi := List.mem_range.mp hi
    unfold write
    dsimp only
    split_ifs with hin
    · rw [List.getElem?_eq_none (by rcases h with h | h | h <;> grind)]
      rfl
    · rfl
  · rfl

theorem size_alloc_next (m : Blocks) (n : Nat) : (m.alloc n).size m.next = some n :=
  if_pos rfl

end Blocks

end Libca.Common
