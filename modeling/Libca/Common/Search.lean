import Mathlib.Data.Nat.Find
import Mathlib.Tactic.Common

/-!
# Binary search

Bisection of the positions below `n` by a test that holds of the first ones only.

* `lastTrue`, `lastTrue_eq`: the last position where the test holds.
* `firstFalse`, `firstFalse_spec`: the first position where it does not.
* `exists_lastTrue`: in a list that ascends, the last entry up to a value is found.
* `tryLastTrue`, `tryFirstFalse`: the same with a test that may read outside its list, which it does
  not.
-/

namespace Libca.Common

/-- `while (lo <= hi)`: the last position of `lo … hi` where the test holds, or `ans`. -/
def lastTrue (p : Nat → Bool) (lo hi ans : Nat) : Nat :=
  if lo ≤ hi then
    let mid := lo + (hi - lo) / 2
    if p mid then lastTrue p (mid + 1) hi mid
    else if mid = 0 then ans
    else lastTrue p lo (mid - 1) ans
  else ans
termination_by hi + 1 - lo

/-- `while (lo < hi)`: the first position of `lo … hi` where the test does not hold. -/
def firstFalse (p : Nat → Bool) (lo hi : Nat) : Nat :=
  if lo < hi then
    let mid := lo + (hi - lo) / 2
    if p mid then firstFalse p (mid + 1) hi
    else firstFalse p lo mid
  else lo
termination_by hi - lo

variable {n : Nat}

/-- A test that holds up to `k` has `k` as its last position. -/
theorem lastTrue_eq {p : Nat → Bool} {k : Nat} (hp : ∀ i < n, p i = true ↔ i ≤ k)
    {lo hi ans : Nat} (hlo : lo ≤ k + 1) (hhi : k ≤ hi) (hn : hi < n)
    (hans : lo = k + 1 → ans = k) :
    lastTrue p lo hi ans = k := by
  fun_induction lastTrue p lo hi ans with
  | case1 lo hi ans hle mid hmid ih =>
    have hk : mid ≤ k := (hp mid (by omega)).mp hmid
    exact ih (by omega) hhi hn (by omega)
  | case2 lo hi ans hle mid hmid h0 =>
    have hk : ¬ mid ≤ k := fun hk => hmid ((hp mid (by omega)).mpr hk)
    omega
  | case3 lo hi ans hle mid hmid h0 ih =>
    have hk : ¬ mid ≤ k := fun hk => hmid ((hp mid (by omega)).mpr hk)
    exact ih hlo (by omega) (by omega) hans
  | case4 lo hi ans hgt => exact hans (by omega)

/-- A test that holds of the first positions only is bisected where it stops to hold. -/
theorem firstFalse_spec {p : Nat → Bool}
    (hp : ∀ i j, i ≤ j → j < n → p j = true → p i = true) (lo hi : Nat) (hle : lo ≤ hi)
    (hn : hi ≤ n) (hlo : ∀ i < lo, p i = true) (hhi : ∀ i, hi ≤ i → i < n → p i = false) :
    (∀ i < firstFalse p lo hi, p i = true) ∧
      ∀ i, firstFalse p lo hi ≤ i → i < n → p i = false := by
  fun_induction firstFalse p lo hi with
  | case1 lo hi hlt mid hmid ih =>
    refine ih (by omega) hn (fun i hi' => ?_) hhi
    exact hp i mid (by omega) (by omega) hmid
  | case2 lo hi hlt mid hmid ih =>
    refine ih (by omega) (by omega) hlo fun i hi' hin => ?_
    by_contra htrue
    exact hmid (hp mid i hi' hin (by simpa using htrue))
  | case3 lo hi hge =>
    obtain rfl : lo = hi := by omega
    exact ⟨hlo, hhi⟩

theorem firstFalse_le (p : Nat → Bool) (lo hi : Nat) (hle : lo ≤ hi) : firstFalse p lo hi ≤ hi := by
  fun_induction firstFalse p lo hi with
  | case1 lo hi hlt mid hmid ih => exact ih (by omega)
  | case2 lo hi hlt mid hmid ih => exact Nat.le_trans (ih (by omega)) (by omega)
  | case3 lo hi hge => exact hle

/-- In a list that ascends, bisection finds the last entry up to a value. -/
theorem exists_lastTrue {f : Nat → Nat} (hsorted : ∀ i j, i < j → j < n → f i < f j) (hn : 0 < n)
    {x : Nat} (hstart : f 0 ≤ x) : ∃ k < n, lastTrue (fun mid => f mid ≤ x) 0 (n - 1) (n - 1) = k ∧
      f k ≤ x ∧ (k + 1 < n → x < f (k + 1)) := by
  let k := Nat.findGreatest (fun i => f i ≤ x) (n - 1)
  have hk : k ≤ n - 1 := Nat.findGreatest_le _
  have hle : f k ≤ x := Nat.findGreatest_spec (P := fun i => f i ≤ x) (Nat.zero_le _) hstart
  have hgt : ∀ i, k < i → i ≤ n - 1 → ¬ f i ≤ x := fun i hi hi' =>
    Nat.findGreatest_is_greatest (P := fun i => f i ≤ x) hi hi'
  refine ⟨k, by omega, ?_, hle, fun hk' => Nat.lt_of_not_le (hgt (k + 1) (by omega) (by omega))⟩
  refine lastTrue_eq (n := n) (fun i hi => ?_) (by omega) hk (by omega) (by omega)
  rw [decide_eq_true_eq]
  constructor
  · intro hi'
    by_contra hlt
    exact hgt i (by omega) (by omega) hi'
  · intro hik
    rcases Nat.eq_or_lt_of_le hik with rfl | hik
    · exact hle
    · exact Nat.le_trans (Nat.le_of_lt (hsorted i k hik (by omega))) hle

/-- In a list that ascends, a value lies between one entry and the next only. -/
theorem eq_of_between {f : Nat → Nat} (hsorted : ∀ i j, i < j → j < n → f i < f j) {x k l : Nat}
    (hk : k < n) (hl : l < n) (hfk : f k ≤ x) (hfl : f l ≤ x) (hk' : k + 1 < n → x < f (k + 1))
    (hl' : l + 1 < n → x < f (l + 1)) : k = l := by
  have hnot {i j : Nat} (hi : i + 1 < n → x < f (i + 1)) (hj : j < n) (hfj : f j ≤ x) : ¬ i <
    j := by
    intro hlt
    have hnext := hi (by omega)
    rcases Nat.eq_or_lt_of_le (Nat.succ_le_of_lt hlt) with heq | hlt
    · rw [Nat.succ_eq_add_one] at heq
      rw [heq] at hnext
      omega
    · have hmono := hsorted (i + 1) j hlt hj
      omega
  have := hnot hk' hl hfl
  have := hnot hl' hk hfk
  omega

/-! ## Reads -/

/-- `lastTrue` with a test that may read outside its list. -/
def tryLastTrue (p : Nat → Option Bool) (lo hi ans : Nat) : Option Nat :=
  if lo ≤ hi then
    let mid := lo + (hi - lo) / 2
    match p mid with
    | none => none
    | some true => tryLastTrue p (mid + 1) hi mid
    | some false => if mid = 0 then some ans else tryLastTrue p lo (mid - 1) ans
  else some ans
termination_by hi + 1 - lo

/-- `firstFalse` with a test that may read outside its list. -/
def tryFirstFalse (p : Nat → Option Bool) (lo hi : Nat) : Option Nat :=
  if lo < hi then
    let mid := lo + (hi - lo) / 2
    match p mid with
    | none => none
    | some true => tryFirstFalse p (mid + 1) hi
    | some false => tryFirstFalse p lo mid
  else some lo
termination_by hi - lo

/-- The search reads no position from `n` on, and ends below `n`. -/
theorem tryLastTrue_eq {p : Nat → Option Bool} {q : Nat → Bool} (hp : ∀ i < n, p i = some (q i))
    {hi ans : Nat} (hn : hi < n) (hans : ans < n) (lo : Nat) :
    tryLastTrue p lo hi ans = some (lastTrue q lo hi ans) ∧ lastTrue q lo hi ans < n := by
  fun_induction lastTrue q lo hi ans with
  | case1 lo hi ans hle mid hmid ih =>
    have hread : p (lo + (hi - lo) / 2) = some true := (hp _ (by omega)).trans (congrArg some hmid)
    rw [tryLastTrue, if_pos hle]
    dsimp only
    rw [hread]
    exact ih hn (by omega)
  | case2 lo hi ans hle mid hmid h0 =>
    have hread : p (lo + (hi - lo) / 2) = some false :=
      (hp _ (by omega)).trans (congrArg some (Bool.eq_false_iff.mpr hmid))
    rw [tryLastTrue, if_pos hle]
    dsimp only
    rw [hread]
    exact ⟨if_pos h0, hans⟩
  | case3 lo hi ans hle mid hmid h0 ih =>
    have hread : p (lo + (hi - lo) / 2) = some false :=
      (hp _ (by omega)).trans (congrArg some (Bool.eq_false_iff.mpr hmid))
    rw [tryLastTrue, if_pos hle]
    dsimp only
    rw [hread]
    dsimp only
    rw [if_neg h0]
    exact ih (by omega) hans
  | case4 lo hi ans hgt =>
    rw [tryLastTrue, if_neg hgt]
    exact ⟨rfl, hans⟩

/-- The search reads no position from `n` on. -/
theorem tryFirstFalse_eq {p : Nat → Option Bool} {q : Nat → Bool} (hp : ∀ i < n, p i = some (q i))
    {hi : Nat} (hn : hi ≤ n) (lo : Nat) : tryFirstFalse p lo hi = some (firstFalse q lo hi) := by
  fun_induction firstFalse q lo hi with
  | case1 lo hi hlt mid hmid ih =>
    have hread : p (lo + (hi - lo) / 2) = some true := (hp _ (by omega)).trans (congrArg some hmid)
    rw [tryFirstFalse, if_pos hlt]
    dsimp only
    rw [hread]
    exact ih hn
  | case2 lo hi hlt mid hmid ih =>
    have hread : p (lo + (hi - lo) / 2) = some false :=
      (hp _ (by omega)).trans (congrArg some (Bool.eq_false_iff.mpr hmid))
    rw [tryFirstFalse, if_pos hlt]
    dsimp only
    rw [hread]
    exact ih (by omega)
  | case3 lo hi hge => rw [tryFirstFalse, if_neg hge]

end Libca.Common
