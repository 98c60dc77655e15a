import Libca.Common.Bytes

/-!
# A flat memory

* `store`, `load`: a range of bytes at an offset.
* `load_store`: a range reads what was stored in it; `load_store_of_disjoint`: a store leaves every
  range that it does not meet.
* `store_of_outside`: a store leaves every byte outside of it.
-/

namespace Libca.Common

/-- A byte at every offset. -/
abbrev Memory := Nat → UInt8

namespace Memory

def store (mem : Memory) (offset : Nat) (bytes : Bytes) : Memory := fun o =>
  if offset ≤ o then (bytes[o - offset]?).getD (mem o) else mem o

def load (mem : Memory) (offset n : Nat) : Bytes := (List.range n).map fun i => mem (offset + i)

variable {mem : Memory} {offset n : Nat} {bytes : Bytes}

theorem store_nil (mem : Memory) (offset : Nat) : mem.store offset [] = mem := by
  funext o
  unfold store
  split <;> rfl

/-- **A store leaves the bytes outside of it.** -/
theorem store_of_outside {o : Nat} (h : o < offset ∨ offset + bytes.length ≤ o) :
    mem.store offset bytes o = mem o := by
  unfold store
  rcases h with hlt | hle
  · rw [if_neg (Nat.not_le.mpr hlt)]
  · rw [if_pos (by omega), List.getElem?_eq_none (by omega)]
    rfl

/-- **A range reads what was stored in it.** -/
theorem load_store (mem : Memory) (offset : Nat) (bytes : Bytes) :
    (mem.store offset bytes).load offset bytes.length = bytes := by
  unfold load
  refine List.ext_getElem (by rw [List.length_map, List.length_range]) fun i _ hi => ?_
  rw [List.getElem_map, List.getElem_range]
  unfold store
  rw [if_pos (Nat.le_add_right _ _), Nat.add_sub_cancel_left, List.getElem?_eq_getElem hi]
  rfl

/-- **A store leaves the ranges that it does not meet.** -/
theorem load_store_of_disjoint {other : Nat}
    (h : other + n ≤ offset ∨ offset + bytes.length ≤ other) :
    (mem.store offset bytes).load other n = mem.load other n := by
  refine List.map_congr_left fun i hi => store_of_outside ?_
  have hi := List.mem_range.mp hi
  omega

end Memory

end Libca.Common
