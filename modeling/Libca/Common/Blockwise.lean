import Mathlib.Tactic.Common

/-!
# Functions with a state, block by block

* `blockwise`: a function of a state and of a block is applied to the blocks of a sequence of
  letters.
* `blockwise_blockwise`: a function that undoes another on each block, from the same state, undoes
  it on every sequence of whole blocks.
-/

namespace Libca.Common

variable {α S : Type*}

/-- The results for the whole blocks of `n` letters, one after the other. -/
def blockwise (n : Nat) (f : S → List α → S × List α) (s : S) (data : List α) : List α :=
  if 0 < n ∧ n ≤ data.length then
    (f s (data.take n)).2 ++ blockwise n f (f s (data.take n)).1 (data.drop n)
  else []
termination_by data.length
decreasing_by
  rw [List.length_drop]
  omega

/-- `g` undoes `f` on blocks of `n` letters, in the states that meet `I`. -/
structure Undoes (n : Nat) (I : S → Prop) (f g : S → List α → S × List α) : Prop where
  length : ∀ s block, I s → block.length = n → (f s block).2.length = n
  invariant : ∀ s block, I s → block.length = n → I (f s block).1
  undo : ∀ s block, I s → block.length = n → g s (f s block).2 = ((f s block).1, block)

variable {n : Nat} {I : S → Prop} {f g : S → List α → S × List α}

variable {s : S}

theorem blockwise_append {block rest : List α} (hn : 0 < n) (hlength : block.length = n) :
    blockwise n f s (block ++ rest) = (f s block).2 ++ blockwise n f (f s block).1 rest := by
  have hle : n ≤ (block ++ rest).length := by
    rw [List.length_append]
    omega
  rw [blockwise, if_pos ⟨hn, hle⟩, List.take_left' hlength, List.drop_left' hlength]

variable {data : List α}

theorem length_mod_drop (hle : n ≤ data.length) (h : data.length % n = 0) :
    (data.drop n).length % n = 0 := by
  rw [List.length_drop, ← Nat.mod_eq_sub_mod hle]
  exact h

theorem length_blockwise (hundoes : Undoes n I f g) (hs : I s)
    (h : data.length % n = 0) : (blockwise n f s data).length % n = 0 := by
  fun_induction blockwise n f s data with
  | case1 s data hfull ih =>
    have hlength : (data.take n).length = n := List.length_take_of_le hfull.2
    have hrest := ih (hundoes.invariant s _ hs hlength) (length_mod_drop hfull.2 h)
    rw [List.length_append, hundoes.length s _ hs hlength, Nat.add_mod_left]
    exact hrest
  | case2 s data hfull => exact Nat.zero_mod n

/-- **What is undone on each block is undone on every sequence of blocks.** -/
theorem blockwise_blockwise (hn : 0 < n) (hundoes : Undoes n I f g) (hs : I s)
    (h : data.length % n = 0) : blockwise n g s (blockwise n f s data) = data := by
  fun_induction blockwise n f s data with
  | case1 s data hfull ih =>
    have hlength : (data.take n).length = n := List.length_take_of_le hfull.2
    have hrest := ih (hundoes.invariant s _ hs hlength) (length_mod_drop hfull.2 h)
    rw [blockwise_append hn (hundoes.length s _ hs hlength), hundoes.undo s _ hs hlength, hrest]
    exact List.take_append_drop n data
  | case2 s data hfull =>
    have hnil : data = [] := by
      by_contra hne
      have hpos := List.length_pos_iff.mpr hne
      have hle := Nat.le_of_dvd hpos (Nat.dvd_of_mod_eq_zero h)
      exact hfull ⟨hn, hle⟩
    rw [hnil, blockwise, if_neg (by simp; omega)]

end Libca.Common
