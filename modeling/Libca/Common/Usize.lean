import Mathlib.Algebra.Group.Nat.Defs
import Mathlib.Tactic.Common

/-!
# Unsigned sums and differences

`usize` arithmetic wraps around at `2 ^ 64`.

* `sumUsize_of_lt`, `differenceUsize_of_le`: it is exact where the exact result fits.
-/

namespace Libca.Common

/-- `a + b`. -/
def sumUsize (a b : Nat) : Nat := (a + b) % 2 ^ 64

/-- `a - b`. -/
def differenceUsize (a b : Nat) : Nat := (a + (2 ^ 64 - b)) % 2 ^ 64

theorem sumUsize_of_lt {a b : Nat} (hlt : a + b < 2 ^ 64) : sumUsize a b = a + b :=
  Nat.mod_eq_of_lt hlt

theorem differenceUsize_of_le {a b : Nat} (hle : b ≤ a) (hlt : a < 2 ^ 64) :
    differenceUsize a b = a - b := by
  unfold differenceUsize
  omega

end Libca.Common
