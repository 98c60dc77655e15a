import Mathlib.Tactic.Common

/-!
# Absorbing a sequence block by block

A function that takes a state and a block of `n` letters is folded over the blocks of a sequence;
what is left at the end is shorter than a block.

* `front`: the block at the front of a sequence.
* `absorb`: the state after the whole blocks, and the rest.
* `absorb_append`: a sequence is absorbed in pieces, the rest of each put in front of the next.
* `length_absorb`: the rest has the length modulo `n`.
-/

namespace Libca.Common

variable {α S : Type*} {n : Nat}

/-- The first `n` letters. -/
def front (xs : List α) (h : n ≤ xs.length) : Vector α n := Vector.ofFn fun i => xs[i.val]

theorem toList_front (xs : List α) (h : n ≤ xs.length) : (front xs h).toList = xs.take n := by
  refine List.ext_getElem ?_ fun i h₁ h₂ => ?_
  · rw [Vector.length_toList, List.length_take, Nat.min_eq_left h]
  · rw [Vector.getElem_toList, List.getElem_take]
    exact Vector.getElem_ofFn _

theorem front_append (block : Vector α n) (xs : List α) (h : n ≤ (block.toList ++ xs).length) :
    front (block.toList ++ xs) h = block := by
  rw [← Vector.toList_inj, toList_front, List.take_left' Vector.length_toList]

variable (f : S → Vector α n → S)

/-- The state after the whole blocks, and the rest. -/
def absorb (s : S) (xs : List α) : S × List α :=
  if h : 0 < n ∧ n ≤ xs.length then absorb (f s (front xs h.2)) (xs.drop n) else (s, xs)
termination_by xs.length
decreasing_by
  rw [List.length_drop]
  omega

theorem absorb_of_lt {xs : List α} (h : xs.length < n) (s : S) : absorb f s xs = (s, xs) := by
  rw [absorb, dif_neg (by omega)]

theorem absorb_of_le {xs : List α} (hn : 0 < n) (h : n ≤ xs.length) (s : S) :
    absorb f s xs = absorb f (f s (front xs h)) (xs.drop n) := by
  rw [absorb, dif_pos ⟨hn, h⟩]

/-- A block in front. -/
theorem absorb_block (hn : 0 < n) (block : Vector α n) (s : S) (xs : List α) :
    absorb f s (block.toList ++ xs) = absorb f (f s block) xs := by
  have h : n ≤ (block.toList ++ xs).length := by
    rw [List.length_append, Vector.length_toList]
    omega
  rw [absorb_of_le f hn h, front_append, List.drop_left' Vector.length_toList]

/-- **The rest has the length modulo the length of a block.** -/
theorem length_absorb (hn : 0 < n) (s : S) (xs : List α) :
    (absorb f s xs).2.length = xs.length % n := by
  fun_induction absorb f s xs with
  | case1 s xs h ih =>
    rw [ih, List.length_drop]
    exact (Nat.mod_eq_sub_mod h.2).symm
  | case2 s xs h =>
    show xs.length = xs.length % n
    exact (Nat.mod_eq_of_lt (by omega)).symm

/-- **Absorbing in pieces.** -/
theorem absorb_append (s : S) (xs ys : List α) :
    absorb f s (xs ++ ys) = absorb f (absorb f s xs).1 ((absorb f s xs).2 ++ ys) := by
  fun_induction absorb f s xs with
  | case1 s xs h ih =>
    have hle : n ≤ (xs ++ ys).length := by
      rw [List.length_append]
      omega
    have hfront : front (xs ++ ys) hle = front xs h.2 := by
      rw [← Vector.toList_inj, toList_front, toList_front, List.take_append_of_le_length h.2]
    rw [absorb_of_le f h.1 hle, hfront, List.drop_append_of_le_length h.2, ih]
  | case2 s xs h => rfl

end Libca.Common
