import Mathlib.Algebra.Group.Nat.Defs
import Mathlib.Data.Nat.Log
import Mathlib.Tactic.Common

/-!
# Integers as binary floating-point numbers

The bits of the floating-point number next to a natural number, as IEEE 754 rounds to the nearest
one and ties to even. `p` is the number of bits of a fraction, `bias` the exponent of the number
one.

* `shiftNearest`: a number divided by a power of two, rounded. `shiftNearest_mono`.
* `magnitudeBits`: exponent and fraction of the nearest number; `magnitudeBits_mono`: **they keep
  the order.**
* `unitsOf`: the number that exponent and fraction stand for, as a multiple of the smallest one;
  `unitsOf_lt_iff`: **their order is that of the numbers.** `unitsOf_magnitudeBits`: a number of
  `p + 1` bits is not rounded.
-/

namespace Libca.Common

/-- A number divided by `2 ^ k`, to the nearest integer, and to the even one of two. -/
def shiftNearest (m k : Nat) : Nat :=
  let q := m / 2 ^ k
  let r := m % 2 ^ k
  if 2 ^ k < 2 * r ∨ (2 ^ k = 2 * r ∧ q % 2 = 1) then q + 1 else q

theorem shiftNearest_bounds (m k : Nat) :
    m / 2 ^ k ≤ shiftNearest m k ∧ shiftNearest m k ≤ m / 2 ^ k + 1 := by
  unfold shiftNearest
  dsimp only
  split_ifs
  · exact ⟨Nat.le_succ _, le_rfl⟩
  · exact ⟨le_rfl, Nat.le_succ _⟩

/-- **Rounding keeps the order.** -/
theorem shiftNearest_mono {m n : Nat} (h : m ≤ n) (k : Nat) :
    shiftNearest m k ≤ shiftNearest n k := by
  rcases Nat.lt_or_ge (m / 2 ^ k) (n / 2 ^ k) with hlt | hge
  · exact (shiftNearest_bounds m k).2.trans (Nat.le_trans hlt (shiftNearest_bounds n k).1)
  · -- Within one step of the quotient the remainders decide.
    have hq : m / 2 ^ k = n / 2 ^ k := Nat.le_antisymm (Nat.div_le_div_right h) hge
    have hr : m % 2 ^ k ≤ n % 2 ^ k := by
      have hm := Nat.div_add_mod m (2 ^ k)
      have hn := Nat.div_add_mod n (2 ^ k)
      rw [hq] at hm
      omega
    unfold shiftNearest
    dsimp only
    rw [hq]
    split_ifs with hup hup' hup'
    · exact le_rfl
    · omega
    · exact Nat.le_succ _
    · exact le_rfl

/-- The significand of a positive number with the leading bit `e`, as `p + 1` bits. -/
def significand (p m e : Nat) : Nat := if e ≤ p then m * 2 ^ (p - e) else shiftNearest m (e - p)

/-- Exponent and fraction of the floating-point number next to a number. A significand that is
rounded up to `2 ^ (p + 1)` raises the exponent. -/
def magnitudeBits (p bias m : Nat) : Nat :=
  if m = 0 then 0 else (m.log2 + bias - 1) * 2 ^ p + significand p m m.log2

variable {p bias m n e : Nat}

theorem significand_mono (h : m ≤ n) (p e : Nat) : significand p m e ≤ significand p n e := by
  unfold significand
  split_ifs
  · exact Nat.mul_le_mul_right _ h
  · exact shiftNearest_mono h _

theorem significand_bounds (hlow : 2 ^ e ≤ m) (hhigh : m < 2 ^ (e + 1)) :
    2 ^ p ≤ significand p m e ∧ significand p m e ≤ 2 ^ (p + 1) := by
  unfold significand
  split_ifs with hep
  · have hlow' := Nat.mul_le_mul_right (2 ^ (p - e)) hlow
    have hhigh' := Nat.mul_le_mul_right (2 ^ (p - e)) hhigh.le
    rw [← Nat.pow_add] at hlow' hhigh'
    rw [show e + (p - e) = p by omega] at hlow'
    rw [show e + 1 + (p - e) = p + 1 by omega] at hhigh'
    exact ⟨hlow', hhigh'⟩
  · obtain ⟨hge, hle⟩ := shiftNearest_bounds m (e - p)
    have hlow' : 2 ^ p ≤ m / 2 ^ (e - p) := by
      rw [Nat.le_div_iff_mul_le (Nat.two_pow_pos _), ← Nat.pow_add, show p + (e - p) = e by omega]
      exact hlow
    have hhigh' : m / 2 ^ (e - p) < 2 ^ (p + 1) := by
      rw [Nat.div_lt_iff_lt_mul (Nat.two_pow_pos _), ← Nat.pow_add, show p + 1 + (e - p) =
        e + 1 by omega]
      exact hhigh
    omega

/-- **Rounding to a floating-point number keeps the order.** -/
theorem magnitudeBits_mono (p : Nat) {bias : Nat} (hbias : 0 < bias) (h : m ≤ n) :
    magnitudeBits p bias m ≤ magnitudeBits p bias n := by
  unfold magnitudeBits
  split_ifs with hm hn hn
  · exact Nat.le_refl 0
  · exact Nat.zero_le _
  · omega
  · have hbounds {k : Nat} (hk : k ≠ 0) :=
      significand_bounds (p := p) (Nat.log2_self_le hk) Nat.lt_log2_self
    have hlog : m.log2 ≤ n.log2 := (Nat.le_log2 hn).mpr ((Nat.log2_self_le hm).trans h)
    rcases Nat.lt_or_eq_of_le hlog with hlt | heq
    · -- The leading bit moves up by one at least, which is worth a whole significand.
      have hsteps :=
        Nat.mul_le_mul_right (2 ^ p) (show m.log2 + bias - 1 + 1 ≤ n.log2 + bias - 1 by omega)
      rw [Nat.succ_mul] at hsteps
      have hm' := (hbounds hm).2
      have hn' := (hbounds hn).1
      rw [Nat.pow_succ] at hm'
      omega
    · rw [heq]
      exact Nat.add_le_add_left (significand_mono h p _) _

theorem magnitudeBits_le (hbias : 0 < bias) (hm : m < 2 ^ (e + 1)) :
    magnitudeBits p bias m ≤ (e + bias + 1) * 2 ^ p := by
  unfold magnitudeBits
  split_ifs with hzero
  · exact Nat.zero_le _
  · have hlog : m.log2 < e + 1 := (Nat.log2_lt hzero).mpr hm
    have hsignificand := (significand_bounds (p := p) (Nat.log2_self_le hzero) Nat.lt_log2_self).2
    have hsteps := Nat.mul_le_mul_right (2 ^ p) (show m.log2 + bias - 1 ≤ e + bias - 1 by omega)
    obtain ⟨b, hb⟩ : ∃ b, e + bias = b + 1 := ⟨e + bias - 1, by omega⟩
    rw [hb, Nat.add_sub_cancel] at hsteps
    rw [hb, Nat.succ_mul, Nat.succ_mul]
    rw [Nat.pow_succ] at hsignificand
    omega

theorem magnitudeBits_pos (p bias : Nat) (hm : m ≠ 0) : 0 < magnitudeBits p bias m := by
  have hsignificand := (significand_bounds (p := p) (Nat.log2_self_le hm) Nat.lt_log2_self).1
  have hpos := Nat.two_pow_pos p
  unfold magnitudeBits
  rw [if_neg hm]
  omega

/-! ## The numbers themselves -/

/-- The number with an exponent and a fraction, as a multiple of the smallest positive one. -/
def unitsOf (p bits : Nat) : Nat :=
  if bits / 2 ^ p = 0 then bits else (2 ^ p + bits % 2 ^ p) * 2 ^ (bits / 2 ^ p - 1)

theorem unitsOf_lt_succ (p bits : Nat) : unitsOf p bits < unitsOf p (bits + 1) := by
  have hpos := Nat.two_pow_pos p
  have hsplit := Nat.div_add_mod bits (2 ^ p)
  have hfraction := Nat.mod_lt bits hpos
  unfold unitsOf
  by_cases hlast : bits % 2 ^ p + 1 = 2 ^ p
  · -- The next number has the next exponent.
    have hnext : bits + 1 = 2 ^ p * (bits / 2 ^ p + 1) := by
      rw [Nat.mul_succ]
      omega
    rw [hnext, Nat.mul_div_cancel_left _ hpos, Nat.mul_mod_right, if_neg (Nat.succ_ne_zero _),
      Nat.add_zero, Nat.add_sub_cancel]
    split_ifs with hzero
    · rw [hzero, Nat.mul_zero] at hsplit
      rw [hzero, Nat.pow_zero]
      omega
    · obtain ⟨x, hx⟩ := Nat.exists_eq_succ_of_ne_zero hzero
      rw [hx, Nat.succ_sub_one, Nat.pow_succ 2 x, Nat.mul_comm (2 ^ x) 2, ← Nat.mul_assoc]
      exact Nat.mul_lt_mul_of_pos_right (by omega) (Nat.two_pow_pos x)
  · have hnext : (bits + 1) / 2 ^ p = bits / 2 ^ p ∧ (bits + 1) % 2 ^ p = bits % 2 ^ p + 1 :=
      (Nat.div_mod_unique hpos).mpr ⟨by omega, by omega⟩
    rw [hnext.1, hnext.2]
    split_ifs with hzero
    · exact Nat.lt_succ_self _
    · exact Nat.mul_lt_mul_of_pos_right (by omega) (Nat.two_pow_pos _)

/-- **Exponents and fractions are in the order of the numbers.** -/
theorem unitsOf_lt_iff {a b : Nat} : unitsOf p a < unitsOf p b ↔ a < b :=
  (strictMono_nat_of_lt_succ (unitsOf_lt_succ p)).lt_iff_lt

theorem unitsOf_zero (p : Nat) : unitsOf p 0 = 0 := by
  unfold unitsOf
  rw [if_pos (Nat.zero_div _)]

/-- The multiples of the smallest positive number that make one. -/
def unitsPerOne (p bias : Nat) : Nat := 2 ^ (p + bias - 1)

/-- **A number of `p + 1` bits is not rounded.** -/
theorem unitsOf_magnitudeBits (hbias : 0 < bias) (hm : m < 2 ^ (p + 1)) :
    unitsOf p (magnitudeBits p bias m) = m * unitsPerOne p bias := by
  unfold unitsPerOne
  by_cases hzero : m = 0
  · rw [hzero, magnitudeBits, if_pos rfl, unitsOf_zero, Nat.zero_mul]
  · have hlog : m.log2 ≤ p := Nat.lt_succ_iff.mp ((Nat.log2_lt hzero).mpr hm)
    have hpos := Nat.two_pow_pos p
    have hlow := Nat.mul_le_mul_right (2 ^ (p - m.log2)) (Nat.log2_self_le hzero)
    have hhigh :=
      Nat.mul_lt_mul_of_pos_right (Nat.lt_log2_self (n := m)) (Nat.two_pow_pos (p - m.log2))
    rw [← Nat.pow_add, show m.log2 + (p - m.log2) = p by omega] at hlow
    rw [← Nat.pow_add, show m.log2 + 1 + (p - m.log2) = p + 1 by omega, Nat.pow_succ] at hhigh
    have hbits : magnitudeBits p bias m / 2 ^ p = m.log2 + bias ∧
        magnitudeBits p bias m % 2 ^ p = m * 2 ^ (p - m.log2) - 2 ^ p := by
      refine (Nat.div_mod_unique hpos).mpr ⟨?_, by omega⟩
      obtain ⟨x, hx⟩ : ∃ x, m.log2 + bias = x + 1 := ⟨m.log2 + bias - 1, by omega⟩
      unfold magnitudeBits significand
      rw [if_neg hzero, if_pos hlog, hx, Nat.add_sub_cancel, Nat.mul_succ, Nat.mul_comm x]
      omega
    unfold unitsOf
    rw [hbits.1, hbits.2, if_neg (by omega), show 2 ^ p + (m * 2 ^ (p - m.log2) - 2 ^ p) =
      m * 2 ^ (p - m.log2) by omega,
      Nat.mul_assoc, ← Nat.pow_add, show p - m.log2 + (m.log2 + bias - 1) = p + bias - 1 by omega]

end Libca.Common
