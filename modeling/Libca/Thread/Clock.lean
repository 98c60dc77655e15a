import Mathlib.Algebra.Group.Int.Defs
import Mathlib.Algebra.Group.Nat.Defs
import Mathlib.Tactic.Common

/-!
# Clock sums

A `steady_clock::time_point` is a count of nanoseconds in an `int64`, a `milliseconds` delay another
`int64`. Their sum goes through nanoseconds, and wraps around where it overflows.

* `toInt_after`: the sum is exact when it fits.
* `earlier`: the order of what is due, by time and then by a number.
-/

namespace Libca.Thread

/-- `now + std::chrono::milliseconds(delay)`. -/
def after (now delay : Int64) : Int64 := now + delay * 1000000

/-- The sum as integers. -/
def exactAfter (now delay : Int64) : Int := now.toInt + delay.toInt * 1000000

/-- The sum is a time point. -/
def Fits (now delay : Int64) : Prop := exactAfter now delay < 2 ^ 63

instance (now delay : Int64) : Decidable (Fits now delay) := inferInstanceAs (Decidable (_ < _))

/-- `delay > zero ? delay : zero`. -/
def positivePart (delay : Int64) : Int64 := if delay > 0 then delay else 0

theorem toInt_after {now delay : Int64} (hdelay : 0 ≤ delay.toInt) (h : Fits now delay) :
    (after now delay).toInt = exactAfter now delay := by
  have hnow : -2 ^ 63 ≤ now.toInt := Int64.le_toInt now
  have hsum : exactAfter now delay < 2 ^ 63 := h
  unfold after
  rw [Int64.toInt_add, Int64.toInt_mul]
  rw [Int.add_bmod_bmod]
  unfold exactAfter at hsum ⊢
  rw [show (1000000 : Int64).toInt = 1000000 from rfl]
  apply Int.bmod_eq_of_le <;> omega

theorem toInt_positivePart (delay : Int64) : (positivePart delay).toInt = max delay.toInt 0 := by
  unfold positivePart
  split_ifs with h
  · have hlt : (0 : Int64).toInt < delay.toInt := Int64.lt_iff_toInt_lt.mp h
    rw [Int64.toInt_zero] at hlt
    omega
  · have hle : ¬ (0 : Int64).toInt < delay.toInt := fun hlt => h (Int64.lt_iff_toInt_lt.mpr hlt)
    rw [Int64.toInt_zero] at hle ⊢
    omega

/-! ## Time points with numbers -/

/-- The order by time, and by number at the same time. -/
def earlier (t : Int64) (n : Nat) (t' : Int64) (n' : Nat) : Bool :=
  if t ≠ t' then t < t' else n < n'

theorem earlier_iff {t t' : Int64} {n n' : Nat} :
    earlier t n t' n' = true ↔ t.toInt < t'.toInt ∨ (t.toInt = t'.toInt ∧ n < n') := by
  unfold earlier
  split_ifs with h
  · rw [decide_eq_true_eq, Int64.lt_iff_toInt_lt]
    have hne : t.toInt ≠ t'.toInt := fun heq => h (Int64.toInt_inj.mp heq)
    constructor
    · exact .inl
    · exact fun hor => hor.resolve_right fun hand => hne hand.1
  · rw [not_not] at h
    subst h
    rw [decide_eq_true_eq]
    constructor
    · exact fun hlt => .inr ⟨rfl, hlt⟩
    · exact fun hor => (hor.resolve_left (Int.lt_irrefl _)).2

theorem earlier_irrefl (t : Int64) (n : Nat) : earlier t n t n = false := by
  rw [Bool.eq_false_iff, Ne, earlier_iff]
  omega

theorem earlier_trans {t t' t'' : Int64} {n n' n'' : Nat} (h : earlier t n t' n' = true)
    (h' : earlier t' n' t'' n'' = true) : earlier t n t'' n'' = true := by
  rw [earlier_iff] at *
  omega

end Libca.Thread
