import Libca.Common.NearestEven
import Libca.Json.Value

/-!
# Comparing doubles

The order of doubles, and the double that an integer is converted to.

* `F64.key`: sign and magnitude as a number; the two zeros have the same. `F64.eq`, `F64.lt`: the
  comparisons, which are false of a NaN.
* `F64.ofInt64`: `static_cast<double>`. `key_ofInt64_mono`: **it keeps the order**;
  `lt_ofInt64_iff`: two integers are told apart when they are not rounded to the same double.
* `F64.units`: the number that a double is. `lt_iff_units`: **doubles are compared as numbers**;
  `units_ofInt64`: integers up to `2 ^ 53` are converted exactly.
-/

namespace Libca.Json

open Common

namespace F64

/-- The sign bit. -/
def negative (v : F64) : Bool := 2 ^ 63 ≤ v.bits.toNat

/-- Exponent and fraction. -/
def magnitude (v : F64) : Nat := v.bits.toNat % 2 ^ 63

/-- The position of a double in the order of those that are no NaN. -/
def key (v : F64) : Int := if v.negative then -(v.magnitude : Int) else v.magnitude

/-- `a == b`. -/
def eq (a b : F64) : Bool := !a.isNan && !b.isNan && a.key == b.key

/-- `a < b`. -/
def lt (a b : F64) : Bool := !a.isNan && !b.isNan && decide (a.key < b.key)

theorem eq_iff {a b : F64} : a.eq b = true ↔ a.isNan = false ∧ b.isNan = false ∧ a.key = b.key := by
  simp [eq, and_assoc]

theorem lt_iff {a b : F64} : a.lt b = true ↔ a.isNan = false ∧ b.isNan = false ∧ a.key < b.key := by
  simp [lt, and_assoc]

/-- `static_cast<double>` of an `i64`. -/
def ofInt64 (v : Int64) : F64 :=
  ⟨UInt64.ofNat ((if v.toInt < 0 then 2 ^ 63 else 0) + magnitudeBits 52 1023 v.toInt.natAbs)⟩

/-- The magnitudes of converted integers are far below those of the infinities. -/
theorem magnitudeBits_le_of_int64 (v : Int64) :
    magnitudeBits 52 1023 v.toInt.natAbs ≤ 1087 * 2 ^ 52 := by
  have hlow := v.le_toInt
  have hhigh := v.toInt_lt
  exact magnitudeBits_le (e := 63) (by decide) (by omega)

theorem toNat_ofInt64 (v : Int64) :
    (ofInt64 v).bits.toNat = (if v.toInt < 0 then 2 ^ 63 else 0) +
      magnitudeBits 52 1023 v.toInt.natAbs := by
  have hle := magnitudeBits_le_of_int64 v
  refine UInt64.toNat_ofNat_of_lt' ?_
  show _ < 2 ^ 64
  split_ifs <;> omega

theorem isNan_ofInt64 (v : Int64) : (ofInt64 v).isNan = false := by
  have hle := magnitudeBits_le_of_int64 v
  have hexponent : (ofInt64 v).exponent ≠ 2047 := by
    unfold exponent
    rw [toNat_ofInt64]
    split_ifs <;> omega
  simp [isNan, hexponent]

/-- The position of a converted integer. -/
theorem key_ofInt64 (v : Int64) :
    (ofInt64 v).key =
      if v.toInt < 0 then -(magnitudeBits 52 1023 v.toInt.natAbs : Int)
      else magnitudeBits 52 1023 v.toInt.natAbs := by
  have hle := magnitudeBits_le_of_int64 v
  unfold key negative magnitude
  rw [toNat_ofInt64]
  by_cases hneg : v.toInt < 0
  · rw [if_pos hneg, if_pos hneg, if_pos (decide_eq_true (by omega))]
    omega
  · rw [if_neg hneg, if_neg hneg, if_neg (by rw [decide_eq_true_eq]; omega)]
    omega

/-- **The conversion keeps the order.** -/
theorem key_ofInt64_mono {n m : Int64} (h : n.toInt ≤ m.toInt) :
    (ofInt64 n).key ≤ (ofInt64 m).key := by
  rw [key_ofInt64, key_ofInt64]
  split_ifs with hn hm hm
  · have hmono := magnitudeBits_mono 52 (show 0 < 1023 by decide)
      (show m.toInt.natAbs ≤ n.toInt.natAbs by omega)
    omega
  · omega
  · omega
  · have hmono := magnitudeBits_mono 52 (show 0 < 1023 by decide)
      (show n.toInt.natAbs ≤ m.toInt.natAbs by omega)
    omega

/-- Positions tell converted integers apart. -/
theorem key_ofInt64_inj {n m : Int64} (h : (ofInt64 n).key = (ofInt64 m).key) :
    ofInt64 n = ofInt64 m := by
  have hbits : (ofInt64 n).bits.toNat = (ofInt64 m).bits.toNat := by
    rw [key_ofInt64, key_ofInt64] at h
    rw [toNat_ofInt64, toNat_ofInt64]
    have hpos {v : Int64} (hv : v.toInt < 0) := magnitudeBits_pos 52 1023
      (show v.toInt.natAbs ≠ 0 by omega)
    split_ifs at h ⊢ with hn hm hm
    · omega
    · have := hpos hn
      omega
    · have := hpos hm
      omega
    · omega
  show F64.mk _ = F64.mk _
  exact congrArg F64.mk (UInt64.toNat_inj.mp hbits)

/-- **Converted integers compare as the integers do, unless both are rounded to the same double.**
-/
theorem lt_ofInt64_iff {n m : Int64} :
    (ofInt64 n).lt (ofInt64 m) = true ↔ n.toInt < m.toInt ∧ ofInt64 n ≠ ofInt64 m := by
  rw [lt_iff]
  constructor
  · rintro ⟨-, -, hlt⟩
    refine ⟨?_, fun heq => ?_⟩
    · by_contra hge
      exact absurd (key_ofInt64_mono (Int.not_lt.mp hge)) (Int.not_le.mpr hlt)
    · rw [heq] at hlt
      exact absurd hlt (Int.lt_irrefl _)
  · rintro ⟨hlt, hne⟩
    have hle := key_ofInt64_mono hlt.le
    have hkey : (ofInt64 n).key ≠ (ofInt64 m).key := fun h => hne (key_ofInt64_inj h)
    exact ⟨isNan_ofInt64 n, isNan_ofInt64 m, by omega⟩

/-- The multiples of the smallest positive double that make one. -/
def one : Nat := unitsPerOne 52 1023

/-- The number that a double is, as a multiple of the smallest positive one. The infinities are
beyond all others. -/
def units (v : F64) : Int := if v.negative then -(unitsOf 52 v.magnitude : Int)
else unitsOf 52 v.magnitude

/-- **Doubles are compared as numbers.** -/
theorem lt_iff_units {a b : F64} :
    a.lt b = true ↔ a.isNan = false ∧ b.isNan = false ∧ a.units < b.units := by
  have horder {m n : Nat} : unitsOf 52 m < unitsOf 52 n ↔ m < n := unitsOf_lt_iff
  have hpos {m : Nat} : unitsOf 52 m = 0 ↔ m = 0 := by
    have h := @horder 0 m
    rw [unitsOf_zero] at h
    omega
  have hlt : a.units < b.units ↔ a.key < b.key := by
    have hab := @horder a.magnitude b.magnitude
    have hba := @horder b.magnitude a.magnitude
    have ha := @hpos a.magnitude
    have hb := @hpos b.magnitude
    unfold units key
    split_ifs <;> omega
  rw [lt_iff, hlt]

/-- **An integer of 53 bits is converted exactly.** -/
theorem units_ofInt64 {v : Int64} (h : v.toInt.natAbs < 2 ^ 53) :
    (ofInt64 v).units = v.toInt * one := by
  have hunits : unitsOf 52 (magnitudeBits 52 1023 v.toInt.natAbs) = v.toInt.natAbs * one :=
    unitsOf_magnitudeBits (by decide) h
  have hle := magnitudeBits_le_of_int64 v
  have hmagnitude : (ofInt64 v).magnitude = magnitudeBits 52 1023 v.toInt.natAbs := by
    unfold magnitude
    rw [toNat_ofInt64]
    split_ifs <;> omega
  have hnegative : (ofInt64 v).negative = decide (v.toInt < 0) := by
    unfold negative
    rw [toNat_ofInt64]
    split_ifs with hneg
    · exact decide_eq_decide.mpr (iff_of_true (by omega) hneg)
    · exact decide_eq_decide.mpr (iff_of_false (by omega) hneg)
  unfold units
  rw [hmagnitude, hunits, hnegative, Int.natCast_mul]
  split_ifs with hneg
  · rw [decide_eq_true_eq] at hneg
    rw [← Int.neg_mul, show -(v.toInt.natAbs : Int) = v.toInt by omega]
  · rw [decide_eq_true_eq] at hneg
    rw [show (v.toInt.natAbs : Int) = v.toInt by omega]

end F64

end Libca.Json
