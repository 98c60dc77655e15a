import Mathlib.Data.Nat.Bitwise

/-!
# Strings of bits

* `bits`: the low bits of a number, the highest first.
* `bits_push`: a number shifted into an accumulator of a fixed width is appended to its bits;
  `bits_add`, `bits_shiftRight_and`: the bits of an accumulator are those above a position and those
  below it.
* `bits_inj`, `flatMap_bits_inj`: digits of one width, and strings of them, are determined by their
  bits.
-/

namespace Libca.Common

/-- The low `w` bits of a number. -/
def bits : Nat → Nat → List Bool
  | 0, _ => []
  | w + 1, n => n.testBit w :: bits w n

theorem bits_succ (w n : Nat) : bits (w + 1) n = n.testBit w :: bits w n := rfl

@[simp] theorem length_bits (w n : Nat) : (bits w n).length = w := by
  induction w with
  | zero => rfl
  | succ w ih => rw [bits_succ, List.length_cons, ih]

theorem bits_congr {w n m : Nat} (h : ∀ i < w, n.testBit i = m.testBit i) : bits w n =
    bits w m := by
  induction w with
  | zero => rfl
  | succ w ih => rw [bits_succ, bits_succ, h w (Nat.lt_succ_self w), ih fun i hi =>
    h i (Nat.lt_succ_of_lt hi)]

theorem testBit_of_bits {w n m : Nat} (h : bits w n = bits w m) :
    ∀ i < w, n.testBit i = m.testBit i := by
  induction w with
  | zero => exact fun i hi => absurd hi (Nat.not_lt_zero i)
  | succ w ih =>
    obtain ⟨hhead, htail⟩ := List.cons.inj h
    intro i hi
    rcases Nat.lt_succ_iff_lt_or_eq.mp hi with hlt | rfl
    · exact ih htail i hlt
    · exact hhead

theorem bits_zero (w : Nat) : bits w 0 = List.replicate w false := by
  induction w with
  | zero => rfl
  | succ w ih => rw [bits_succ, Nat.zero_testBit, ih, List.replicate_succ]

/-- **The bits above a position, and those below it.** -/
theorem bits_add (w v n : Nat) : bits (w + v) n = bits w (n >>> v) ++ bits v n := by
  induction w with
  | zero =>
    rw [Nat.zero_add]
    rfl
  | succ w ih =>
    rw [Nat.add_right_comm, bits_succ, bits_succ, ih, Nat.testBit_shiftRight, Nat.add_comm v w,
      List.cons_append]

/-- **A number is shifted into an accumulator.** -/
theorem bits_push {w v b : Nat} (W n : Nat) (hwidth : w + v ≤ W) (hb : b < 2 ^ v) :
    bits (w + v) (n <<< v % 2 ^ W ||| b) = bits w n ++ bits v b := by
  rw [bits_add]
  congr 1
  · refine bits_congr fun i hi => ?_
    rw [Nat.testBit_shiftRight, Nat.testBit_or, Nat.testBit_mod_two_pow, Nat.testBit_shiftLeft,
      Nat.testBit_lt_two_pow (Nat.lt_of_lt_of_le hb (Nat.pow_le_pow_right (by decide)
        (Nat.le_add_right v i))), Nat.add_sub_cancel_left]
    simp only [show v + i < W by omega, Nat.le_add_right, decide_true, Bool.true_and, Bool.or_false,
      ge_iff_le]
  · refine bits_congr fun i hi => ?_
    rw [Nat.testBit_or, Nat.testBit_mod_two_pow, Nat.testBit_shiftLeft]
    simp only [ge_iff_le, Nat.not_le.mpr hi, decide_false, Bool.false_and, Bool.and_false,
      Bool.false_or]

/-- The bits that a mask leaves. -/
theorem bits_mod (w n : Nat) : bits w (n % 2 ^ w) = bits w n :=
  bits_congr fun i hi => by rw [Nat.testBit_mod_two_pow, decide_eq_true hi, Bool.true_and]

/-- The bits of a digit taken from an accumulator. -/
theorem bits_shiftRight_and (w v n : Nat) : bits w (n >>> v &&& (2 ^ w - 1)) =
    bits w (n >>> v) := by
  rw [Nat.and_two_pow_sub_one_eq_mod, bits_mod]

/-- **Digits are determined by their bits.** -/
theorem bits_inj {w n m : Nat} (hn : n < 2 ^ w) (hm : m < 2 ^ w) (h : bits w n = bits w m) :
    n = m := by
  refine Nat.eq_of_testBit_eq fun i => ?_
  rcases Nat.lt_or_ge i w with hi | hi
  · exact testBit_of_bits h i hi
  · have hle := Nat.pow_le_pow_right (show 0 < 2 by decide) hi
    rw [Nat.testBit_lt_two_pow (Nat.lt_of_lt_of_le hn hle),
      Nat.testBit_lt_two_pow (Nat.lt_of_lt_of_le hm hle)]

/-- The bits that are all zero. -/
theorem bits_eq_replicate_iff {w n : Nat} :
    bits w n = List.replicate w false ↔ n &&& (2 ^ w - 1) = 0 := by
  rw [← bits_zero, Nat.and_two_pow_sub_one_eq_mod]
  constructor
  · intro h
    rw [← bits_mod] at h
    exact bits_inj (Nat.mod_lt _ (Nat.two_pow_pos w)) (Nat.two_pow_pos w) h
  · intro h
    rw [← bits_mod, h]

/-- The bits of a string of digits. -/
theorem length_flatMap_bits (w : Nat) (ds : List Nat) :
    (ds.flatMap (bits w)).length = w * ds.length := by
  induction ds with
  | nil => rfl
  | cons d ds ih =>
    rw [List.flatMap_cons, List.length_append, length_bits, ih, List.length_cons, Nat.mul_succ,
      Nat.add_comm]

/-- **Strings of digits are determined by their bits.** -/
theorem flatMap_bits_inj {w : Nat} {ds es : List Nat} (hds : ∀ d ∈ ds, d < 2 ^ w)
    (hes : ∀ e ∈ es, e < 2 ^ w)
    (hlength : ds.length = es.length) (h : ds.flatMap (bits w) = es.flatMap (bits w)) : ds =
      es := by
  induction ds generalizing es with
  | nil => exact (List.length_eq_zero_iff.mp hlength.symm).symm
  | cons d ds ih =>
    cases es with
    | nil => cases hlength
    | cons e es =>
      rw [List.flatMap_cons, List.flatMap_cons] at h
      obtain ⟨hhead, htail⟩ := List.append_inj h (by rw [length_bits, length_bits])
      rw [bits_inj (hds d (.head _)) (hes e (.head _)) hhead,
        ih (fun x hx => hds x (.tail _ hx)) (fun x hx => hes x (.tail _ hx))
          (Nat.succ.inj hlength) htail]

end Libca.Common
