import Mathlib.Algebra.Group.Int.Defs
import Mathlib.Algebra.Group.Nat.Defs
import Mathlib.Tactic.Common

/-!
# Checked signed arithmetic

A signed operation has a result where the exact one is in its type; no result is an overflow.
Quotients and remainders are truncated.

* `sumI64_eq_some`, `productI64_eq_some`: an operation has its exact result, where that fits.
* `tdiv_tmod_carry`: a nonnegative count split by truncation is the count.
* `quotientSigned_eq`, `remainderSigned_eq`: in a type of any width only the least value divided by
  `-1` overflows.
* `fdiv_eq_corrected`: the quotient rounded down, from the truncated one.
-/

namespace Libca.Common

/-- The values of the type. -/
def InI64 (v : Int) : Prop := -2 ^ 63 ≤ v ∧ v < 2 ^ 63

instance (v : Int) : Decidable (InI64 v) := inferInstanceAs (Decidable (_ ∧ _))

/-- A result that has to fit. -/
def exactI64 (v : Int) : Option Int := if InI64 v then some v else none

/-- `a + b`. -/
def sumI64 (a b : Int) : Option Int := exactI64 (a + b)

/-- `a * b`. -/
def productI64 (a b : Int) : Option Int := exactI64 (a * b)

theorem exactI64_eq_some {v r : Int} : exactI64 v = some r ↔ InI64 v ∧ r = v := by
  unfold exactI64
  split_ifs with h
  · rw [Option.some_inj]
    exact ⟨fun heq => ⟨h, heq.symm⟩, fun hand => hand.2.symm⟩
  · exact ⟨nofun, fun hand => absurd hand.1 h⟩

theorem sumI64_eq_some {a b r : Int} : sumI64 a b = some r ↔ InI64 (a + b) ∧ r = a + b :=
  exactI64_eq_some

theorem productI64_eq_some {a b r : Int} : productI64 a b = some r ↔ InI64 (a * b) ∧ r = a * b :=
  exactI64_eq_some

/-! ## Truncation -/

/-- **The quotient carried over and the remainder make up the count.** -/
theorem tdiv_tmod_carry (count unit : Int) : count.tdiv unit * unit + count.tmod unit = count := by
  rw [Int.mul_comm]
  exact Int.mul_tdiv_add_tmod count unit

theorem tmod_bounds {count unit : Int} (hcount : 0 ≤ count) (hunit : 0 < unit) :
    0 ≤ count.tmod unit ∧ count.tmod unit < unit :=
  ⟨Int.tmod_nonneg unit hcount, Int.tmod_lt_of_pos count hunit⟩

/-! ## Types of any width -/

/-- The values of a signed type of `w` bits. -/
def InSigned (w : Nat) (v : Int) : Prop := -2 ^ (w - 1) ≤ v ∧ v < 2 ^ (w - 1)

instance (w : Nat) (v : Int) : Decidable (InSigned w v) := inferInstanceAs (Decidable (_ ∧ _))

/-- `std::numeric_limits<T>::min()`. -/
def minSigned (w : Nat) : Int := -2 ^ (w - 1)

def exactSigned (w : Nat) (v : Int) : Option Int := if InSigned w v then some v else none

/-- `a - b`. -/
def differenceSigned (w : Nat) (a b : Int) : Option Int := exactSigned w (a - b)

/-- `a * b`. -/
def productSigned (w : Nat) (a b : Int) : Option Int := exactSigned w (a * b)

/-- `a / b`. -/
def quotientSigned (w : Nat) (a b : Int) : Option Int := if b = 0 then none
else exactSigned w (a.tdiv b)

/-- `a % b`, which has no result either where the quotient has none. -/
def remainderSigned (w : Nat) (a b : Int) : Option Int :=
  if b = 0 ∨ ¬ InSigned w (a.tdiv b) then none else some (a.tmod b)

section Signed

variable {w : Nat} {a b v : Int}

theorem exactSigned_of_inSigned (h : InSigned w v) : exactSigned w v = some v := if_pos h

theorem natAbs_tdiv_le_half (a : Int) (hb : 2 ≤ b.natAbs) : 2 * (a.tdiv b).natAbs ≤ a.natAbs := by
  rw [Int.natAbs_tdiv]
  have hle : a.natAbs / b.natAbs ≤ a.natAbs / 2 := Nat.div_le_div_left hb (by decide)
  have hhalf := Nat.mul_div_le a.natAbs 2
  change 2 * (a.natAbs / b.natAbs) ≤ a.natAbs
  omega

/-- **Only the least value divided by `-1` leaves the type.** -/
theorem inSigned_tdiv (ha : InSigned w a) (hb : b ≠ 0) (hmin : ¬ (a = minSigned w ∧ b = -1)) :
    InSigned w (a.tdiv b) := by
  unfold InSigned minSigned at *
  have hpos : (0 : Int) < 2 ^ (w - 1) := Int.pow_pos (by decide)
  generalize (2 : Int) ^ (w - 1) = m at *
  by_cases hone : b = 1
  · rw [hone, Int.tdiv_one]
    exact ha
  · by_cases hneg : b = -1
    · rw [hneg, Int.tdiv_neg, Int.tdiv_one]
      omega
    · have hhalf := natAbs_tdiv_le_half a (b := b) (by omega)
      omega

/-- **The quotient rounded down is the truncated one, less one where the remainder has the other
sign.** -/
theorem fdiv_eq_corrected (hb : b ≠ 0) : a.fdiv b =
    if a.tmod b ≠ 0 ∧ decide (a.tmod b < 0) ≠ decide (b < 0) then a.tdiv b - 1 else a.tdiv b := by
  have hsign := Int.sign_tmod a b
  rw [Int.fdiv_eq_tdiv]
  by_cases hdvd : b ∣ a
  · rw [if_pos hdvd, if_neg fun h => h.1 (Int.tmod_eq_zero_of_dvd hdvd), Int.sub_zero]
  · have hne : a.tmod b ≠ 0 := fun h => hdvd (Int.dvd_of_tmod_eq_zero h)
    rw [if_neg hdvd] at hsign
    have hneg : a.tmod b < 0 ↔ a < 0 := by
      rw [← Int.sign_eq_neg_one_iff_neg, hsign, Int.sign_eq_neg_one_iff_neg]
    have hcorrect : (a.tmod b ≠ 0 ∧ decide (a.tmod b < 0) ≠ decide (b < 0)) ↔
      ¬ (a < 0 ↔ b < 0) := by
      rw [and_iff_right hne, ne_eq, decide_eq_decide, hneg]
    rw [if_neg hdvd, if_congr hcorrect rfl rfl]
    rcases Int.lt_or_gt_of_ne hb with hb | hb
    · rw [Int.sign_eq_neg_one_of_neg hb]
      split_ifs <;> omega
    · rw [Int.sign_eq_one_of_pos hb]
      split_ifs <;> omega

/-- The quotient rounded down is in the type as well. -/
theorem inSigned_fdiv (ha : InSigned w a) (hb : b ≠ 0) (hmin : ¬ (a = minSigned w ∧ b = -1)) :
    InSigned w (a.fdiv b) := by
  have htdiv := inSigned_tdiv ha hb hmin
  rw [fdiv_eq_corrected hb]
  split_ifs with hcorrect
  · -- A divisor that leaves a remainder at least halves the dividend.
    have htwo : 2 ≤ b.natAbs := by
      by_contra hlt
      obtain rfl | rfl : b = 1 ∨ b = -1 := by omega
      · exact hcorrect.1 (Int.tmod_one a)
      · exact hcorrect.1 (by rw [Int.tmod_neg, Int.tmod_one])
    have hhalf := natAbs_tdiv_le_half a htwo
    unfold InSigned at *
    have hpos : (0 : Int) < 2 ^ (w - 1) := Int.pow_pos (by decide)
    generalize (2 : Int) ^ (w - 1) = m at *
    omega
  · exact htdiv

theorem quotientSigned_eq (ha : InSigned w a) (hb : b ≠ 0) (hmin : ¬ (a = minSigned w ∧ b = -1)) :
    quotientSigned w a b = some (a.tdiv b) := by
  rw [quotientSigned, if_neg hb, exactSigned_of_inSigned (inSigned_tdiv ha hb hmin)]

theorem remainderSigned_eq (ha : InSigned w a) (hb : b ≠ 0) (hmin : ¬ (a = minSigned w ∧ b = -1)) :
    remainderSigned w a b = some (a.tmod b) :=
  if_neg fun h => h.elim hb fun h => h (inSigned_tdiv ha hb hmin)

/-- The remainder of rounding down has the sign of the divisor, and is smaller. -/
theorem fmod_spec (a : Int) (hb : b ≠ 0) :
    (a.fmod b = 0 ∨ (a.fmod b < 0 ↔ b < 0)) ∧ (a.fmod b).natAbs < b.natAbs := by
  rcases Int.lt_or_gt_of_ne hb with hb | hb
  · have hneg := Int.neg_fmod_neg a b
    have hnonneg := Int.fmod_nonneg_of_pos (-a) (b := -b) (by omega)
    have hlt := Int.fmod_lt_of_pos (-a) (b := -b) (by omega)
    omega
  · have hnonneg := Int.fmod_nonneg_of_pos a hb
    have hlt := Int.fmod_lt_of_pos a hb
    omega

end Signed

end Libca.Common
