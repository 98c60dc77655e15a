import Libca.Common.CheckedInt

/-!
# Floor division

`MathUtil::floor_div` and `MathUtil::floor_mod` (`core/math_util.hpp`) for a signed type of `w` bits
whose operations are done in the type itself, as those of `i32` and `i64` are. No result is an
overflow.

* `floorDiv_eq`: **the quotient is rounded down, and nothing overflows.**
* `floorMod_eq`: the modulus is right where its product fits, and overflows elsewhere.
* `floors_iff`: **both are right just where the type has a multiple of the divisor on the side of
  the dividend that is rounded to.** `not_floors`: the least `i32` modulo `3`.
-/

namespace Libca.Core

open Common

namespace MathUtil

/-- `floor_div`. -/
def floorDiv (w : Nat) (lhs rhs : Int) : Option Int :=
  if lhs = minSigned w ∧ rhs = -1 then some (minSigned w)
  else do
    let quotient ← quotientSigned w lhs rhs
    let remainder ← remainderSigned w lhs rhs
    if remainder ≠ 0 ∧ decide (remainder < 0) ≠ decide (rhs < 0) then differenceSigned w quotient 1
    else some quotient

/-- `floor_mod`. -/
def floorMod (w : Nat) (lhs rhs : Int) : Option Int :=
  if lhs = minSigned w ∧ rhs = -1 then some 0
  else do
    let quotient ← floorDiv w lhs rhs
    let product ← productSigned w quotient rhs
    differenceSigned w lhs product

variable {w : Nat} {lhs rhs : Int}

/-- **The quotient is rounded down**, but the one that is not in the type is the least value. -/
theorem floorDiv_eq (hlhs : InSigned w lhs) (hrhs : rhs ≠ 0) : floorDiv w lhs rhs =
    some (if lhs = minSigned w ∧ rhs = -1 then minSigned w else lhs.fdiv rhs) := by
  unfold floorDiv
  by_cases hmin : lhs = minSigned w ∧ rhs = -1
  · rw [if_pos hmin, if_pos hmin]
  · have hfits := inSigned_fdiv hlhs hrhs hmin
    rw [if_neg hmin, if_neg hmin, quotientSigned_eq hlhs hrhs hmin,
      remainderSigned_eq hlhs hrhs hmin]
    rw [fdiv_eq_corrected hrhs] at hfits ⊢
    simp only [Option.bind_eq_bind, Option.bind_some]
    split_ifs at hfits ⊢ with hcorrect
    · exact exactSigned_of_inSigned hfits
    · rfl

/-- What the modulus leaves is in the type. -/
theorem inSigned_fmod (hrhs : InSigned w rhs) (hne : rhs ≠ 0) (lhs : Int) :
    InSigned w (lhs.fmod rhs) := by
  obtain ⟨hsign, hlt⟩ := fmod_spec lhs hne
  unfold InSigned at *
  omega

/-- **The modulus is what the multiple of the divisor leaves, where that multiple fits.** -/
theorem floorMod_eq (hlhs : InSigned w lhs) (hrhs : InSigned w rhs) (hne : rhs ≠ 0) :
    floorMod w lhs rhs = if InSigned w (lhs.fdiv rhs * rhs) then some (lhs.fmod rhs) else none := by
  unfold floorMod
  by_cases hmin : lhs = minSigned w ∧ rhs = -1
  · obtain ⟨rfl, rfl⟩ := hmin
    have hdvd : (-1 : Int) ∣ minSigned w := Int.neg_dvd.mpr (Int.one_dvd _)
    rw [if_pos ⟨rfl, rfl⟩, Int.fdiv_mul_cancel hdvd, if_pos hlhs, Int.fmod_eq_zero_of_dvd hdvd]
  · rw [if_neg hmin, floorDiv_eq hlhs hne, if_neg hmin]
    simp only [Option.bind_eq_bind, Option.bind_some, productSigned, exactSigned]
    split_ifs with hfits
    · rw [Option.bind_some, differenceSigned, Int.mul_comm, ← Int.fmod_def]
      exact exactSigned_of_inSigned (inSigned_fmod hrhs hne lhs)
    · rfl

end MathUtil

open MathUtil

/-- What rounding down is to give: nothing overflows, the quotient is the one rounded down but for
the least value by `-1`, and the modulus is what is left of the dividend, with the sign of the
divisor and below it. -/
structure Floors (w : Nat) (lhs rhs : Int) : Prop where
  div : floorDiv w lhs rhs = some (if lhs = minSigned w ∧ rhs = -1 then
    minSigned w else lhs.fdiv rhs)
  mod : ∃ r, floorMod w lhs rhs = some r ∧ r = lhs - lhs.fdiv rhs * rhs ∧
    (r = 0 ∨ (r < 0 ↔ rhs < 0)) ∧ r.natAbs < rhs.natAbs

/-- The type has a multiple of the divisor that is not above the dividend, for a negative divisor
not below it. -/
def HasMultiple (w : Nat) (lhs rhs : Int) : Prop :=
  ∃ k, InSigned w (k * rhs) ∧ (0 < rhs → k * rhs ≤ lhs) ∧ (rhs < 0 → lhs ≤ k * rhs)

/-- The quotient rounded down gives the multiple next to the dividend. -/
theorem hasMultiple_iff {w : Nat} {lhs rhs : Int} (hlhs : InSigned w lhs) (hne : rhs ≠ 0) :
    HasMultiple w lhs rhs ↔ InSigned w (lhs.fdiv rhs * rhs) := by
  have hsum := Int.fmod_add_fdiv_mul lhs rhs
  obtain ⟨hsign, hlt⟩ := fmod_spec lhs hne
  constructor
  · rintro ⟨k, hk, hbelow, habove⟩
    have hle : k ≤ lhs.fdiv rhs := by
      by_contra hgt
      have hnext : lhs.fdiv rhs + 1 ≤ k := by omega
      rcases Int.lt_or_gt_of_ne hne with hrhs | hrhs
      · have hmul := Int.mul_le_mul_of_nonpos_right hnext (Int.le_of_lt hrhs)
        rw [Int.add_mul, Int.one_mul] at hmul
        have hk := habove hrhs
        omega
      · have hmul := Int.mul_le_mul_of_nonneg_right hnext (Int.le_of_lt hrhs)
        rw [Int.add_mul, Int.one_mul] at hmul
        have hk := hbelow hrhs
        omega
    unfold InSigned at *
    rcases Int.lt_or_gt_of_ne hne with hrhs | hrhs
    · have hmul := Int.mul_le_mul_of_nonpos_right hle (Int.le_of_lt hrhs)
      omega
    · have hmul := Int.mul_le_mul_of_nonneg_right hle (Int.le_of_lt hrhs)
      omega
  · exact fun h => ⟨_, h, fun _ => by omega, fun _ => by omega⟩

/-- **Both are right just where the type has such a multiple.** -/
theorem floors_iff {w : Nat} {lhs rhs : Int} (hlhs : InSigned w lhs) (hrhs : InSigned w rhs)
    (hne : rhs ≠ 0) :
    Floors w lhs rhs ↔ HasMultiple w lhs rhs := by
  rw [hasMultiple_iff hlhs hne]
  have hmod := floorMod_eq hlhs hrhs hne
  constructor
  · rintro ⟨-, r, hr, -⟩
    by_contra hfits
    rw [if_neg hfits, hr] at hmod
    cases hmod
  · intro hfits
    rw [if_pos hfits] at hmod
    obtain ⟨hsign, hlt⟩ := fmod_spec lhs hne
    refine ⟨floorDiv_eq hlhs hne, _, hmod, ?_, hsign, hlt⟩
    rw [Int.mul_comm, Int.fmod_def]

theorem floors_iff_negative : Floors 32 (-7) 3 ↔ HasMultiple 32 (-7) 3 :=
  floors_iff (by decide) (by decide) (by decide)

/-- The product of the least `i32` rounded down to a multiple of `3` overflows. -/
theorem not_floors : ¬ ∀ lhs rhs, InSigned 32 lhs → InSigned 32 rhs → rhs ≠ 0 →
    Floors 32 lhs rhs := by
  intro h
  obtain ⟨-, r, hr, -⟩ := h (-2147483648) 3 (by decide) (by decide) (by decide)
  exact absurd hr (by rw [show floorMod 32 (-2147483648) 3 = none by decide]; nofun)

end Libca.Core
