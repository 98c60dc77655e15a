import Mathlib.Data.List.Iterate
import Mathlib.Tactic.Common

/-!
# Keystreams

A keystream is the blocks of a counter, of the next one and so on, `n` letters each. Data takes as
many of them as it has blocks, the last one perhaps only in part.

* `countersOf`: the counters that data takes. `countersOf_eq`: one for every block that was begun.
* `addKeystream_addKeystream`: **an addition that undoes itself undoes the keystream.**
* `addKeystream_append`: **after whole blocks the keystream goes on with the next counter.**
-/

namespace Libca.Common

variable {C α : Type*}

/-- The counters of the blocks that data takes. -/
def countersOf (n : Nat) (next : C → C) (c : C) (data : List α) : List C :=
  if data = [] ∨ n = 0 then [] else c :: countersOf n next (next c) (data.drop n)
termination_by data.length
decreasing_by
  rw [not_or, ← ne_eq, ← List.length_pos_iff] at *
  rw [List.length_drop]
  omega

/-- The data with the keystream added, letter by letter. -/
def addKeystream (n : Nat) (block : C → List α) (next : C → C) (add : α → α → α) (c : C)
    (data : List α) : List α :=
  if data = [] ∨ n = 0 then []
  else List.zipWith add (data.take n) (block c) ++ addKeystream n block next add (next c)
    (data.drop n)
termination_by data.length
decreasing_by
  rw [not_or, ← ne_eq, ← List.length_pos_iff] at *
  rw [List.length_drop]
  omega

variable {n : Nat} {block : C → List α} {next : C → C} {add : α → α → α}

theorem countersOf_nil (c : C) : countersOf n next c ([] : List α) = [] := by
  rw [countersOf, if_pos (.inl rfl)]

theorem countersOf_of_ne_nil (hn : 0 < n) (c : C) {data : List α} (h : data ≠ []) :
    countersOf n next c data = c :: countersOf n next (next c) (data.drop n) := by
  rw [countersOf, if_neg (by rintro (hnil | hzero); exacts [h hnil, hn.ne' hzero])]

/-- **One counter for every block that was begun.** -/
theorem countersOf_eq (hn : 0 < n) (c : C) (data : List α) :
    countersOf n next c data = List.iterate next c ((data.length + n - 1) / n) := by
  fun_induction countersOf n next c data with
  | case1 c data h =>
    have hnil : data = [] := h.resolve_right hn.ne'
    rw [hnil, List.length_nil, Nat.zero_add, Nat.div_eq_of_lt (by omega)]
    rfl
  | case2 c data h ih =>
    have hpos := List.length_pos_iff.mpr (not_or.mp h).1
    have hblocks : (data.length + n - 1) / n = ((data.drop n).length + n - 1) / n + 1 := by
      rw [List.length_drop]
      by_cases hwhole : n ≤ data.length
      · rw [← Nat.add_div_right _ hn]
        exact congrArg (· / n) (by omega)
      · rw [Nat.div_eq_of_lt (a := data.length - n + n - 1) (by omega), Nat.zero_add]
        exact Nat.div_eq_of_lt_le (by omega) (by omega)
    rw [hblocks, ih]
    rfl

theorem addKeystream_nil (c : C) : addKeystream n block next add c [] = [] := by
  rw [addKeystream, if_pos (.inl rfl)]

theorem addKeystream_of_ne_nil (hn : 0 < n) (c : C) {data : List α} (h : data ≠ []) :
    addKeystream n block next add c data =
      List.zipWith add (data.take n) (block c) ++ addKeystream n block next add (next c)
        (data.drop n) := by
  rw [addKeystream, if_neg (by rintro (hnil | hzero); exacts [h hnil, hn.ne' hzero])]

theorem length_zipWith_take (hblock : ∀ c, (block c).length = n) (c : C) (data : List α) :
    (List.zipWith add (data.take n) (block c)).length = min n data.length := by
  rw [List.length_zipWith, List.length_take, hblock]
  omega

theorem length_addKeystream (hn : 0 < n) (hblock : ∀ c, (block c).length = n) (c : C)
    (data : List α) :
    (addKeystream n block next add c data).length = data.length := by
  fun_induction addKeystream n block next add c data with
  | case1 c data h =>
    rw [h.resolve_right hn.ne']
  | case2 c data h ih =>
    rw [List.length_append, length_zipWith_take hblock, ih, List.length_drop]
    omega

/-- Letters with the same letters added twice. -/
theorem zipWith_zipWith_of_undo (hadd : ∀ a k, add (add a k) k = a) (as ks : List α)
    (h : as.length ≤ ks.length) :
    List.zipWith add (List.zipWith add as ks) ks = as := by
  induction as generalizing ks with
  | nil => rfl
  | cons a as ih =>
    cases ks with
    | nil => exact absurd h (by simp)
    | cons k ks =>
      rw [List.zipWith_cons_cons, List.zipWith_cons_cons, hadd, ih ks (Nat.le_of_succ_le_succ h)]

/-- **The keystream added twice gives the data.** -/
theorem addKeystream_addKeystream (hn : 0 < n) (hblock : ∀ c, (block c).length = n)
    (hadd : ∀ a k, add (add a k) k = a) (c : C) (data : List α) :
    addKeystream n block next add c (addKeystream n block next add c data) = data := by
  fun_induction addKeystream n block next add c data with
  | case1 c data h =>
    rw [addKeystream_nil, h.resolve_right hn.ne']
  | case2 c data h ih =>
    have hpos := List.length_pos_iff.mpr (not_or.mp h).1
    have hfirst : (List.zipWith add (data.take n) (block c)).length = min n data.length :=
      length_zipWith_take hblock c data
    have hrest : (addKeystream n block next add (next c) (data.drop n)).length =
      data.length - n := by
      rw [length_addKeystream hn hblock, List.length_drop]
    -- either the block is a whole one or nothing comes after it
    have htake : (List.zipWith add (data.take n) (block c) ++
        addKeystream n block next add (next c) (data.drop n)).take n =
          List.zipWith add (data.take n) (block c) := by
      by_cases hwhole : n ≤ data.length
      · exact List.take_left' (by omega)
      · have hnil : addKeystream n block next add (next c) (data.drop n) = [] :=
          List.length_eq_zero_iff.mp (by omega)
        rw [hnil, List.append_nil]
        exact List.take_of_length_le (by omega)
    have hdrop := List.take_append_drop n
      (List.zipWith add (data.take n) (block c) ++ addKeystream n block next add (next c)
        (data.drop n))
    rw [htake, List.append_cancel_left_eq] at hdrop
    have hcancel := zipWith_zipWith_of_undo hadd (data.take n) (block c) (by
      rw [List.length_take, hblock]
      exact Nat.min_le_left n _)
    rw [addKeystream_of_ne_nil hn c (by
      rw [← List.length_pos_iff, List.length_append]
      omega), htake, hdrop, hcancel, ih, List.take_append_drop]

/-- **After whole blocks the keystream goes on with the next counter.** -/
theorem addKeystream_append (hn : 0 < n) (c : C) (k : Nat) (a b : List α) (ha : a.length = n * k) :
    addKeystream n block next add c (a ++ b) =
      addKeystream n block next add c a ++ addKeystream n block next add (next^[k] c) b := by
  induction k generalizing c a with
  | zero =>
    rw [List.length_eq_zero_iff.mp ha, addKeystream_nil, List.nil_append, List.nil_append]
    rfl
  | succ k ih =>
    have hne : a ≠ [] := by
      rintro rfl
      rw [List.length_nil, Nat.mul_succ] at ha
      omega
    rw [Nat.mul_succ] at ha
    have hrest : (a.drop n).length = n * k := by
      rw [List.length_drop]
      omega
    have hnext := ih (next c) (a.drop n) hrest
    rw [addKeystream_of_ne_nil hn _ (List.append_ne_nil_of_left_ne_nil hne b),
      addKeystream_of_ne_nil hn _ hne, List.take_append_of_le_length (by omega),
      List.drop_append_of_le_length (by omega), hnext, List.append_assoc,
        Function.iterate_succ_apply]

end Libca.Common
