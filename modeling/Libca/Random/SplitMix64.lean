import Mathlib.Data.UInt

/-!
# `SplitMix64` (`random/split_mix64.hpp` 18-52)

* `injective_xor_shiftRight`: a word exclusive-or a shift of itself determines the word.
* `splitMix64_cycle`: **2^64 values in a row are all values, each of them once.**
-/

namespace Libca.Random

/-- The bits above a bit determine it. -/
theorem injective_xor_shiftRight {w k : Nat} (hk : 0 < k) :
    Function.Injective fun x : BitVec w => x ^^^ x >>> k := by
  intro x y h
  have hbits (n i : Nat) : w ≤ i + n → x.getLsbD i = y.getLsbD i := by
    induction n generalizing i with
    | zero =>
      intro hi
      rw [BitVec.getLsbD_of_ge x i hi, BitVec.getLsbD_of_ge y i hi]
    | succ n ih =>
      intro hi
      have hbit := congrArg (BitVec.getLsbD · i) h
      simp only [BitVec.getLsbD_xor, BitVec.getLsbD_ushiftRight, ih (k + i) (by omega)] at hbit
      exact Bool.xor_left_inj.mp hbit
  exact BitVec.eq_of_getLsbD_eq fun i _ => hbits w i (Nat.le_add_left w i)

structure SplitMix64 where
  state : UInt64

/-- `next`. -/
def SplitMix64.next (g : SplitMix64) : UInt64 × SplitMix64 :=
  let state := g.state + 0x9E3779B97F4A7C15
  let z := state
  let z := (z ^^^ (z >>> 30)) * 0xBF58476D1CE4E5B9
  let z := (z ^^^ (z >>> 27)) * 0x94D049BB133111EB
  (z ^^^ (z >>> 31), ⟨state⟩)

/-- The value of a call of `next`, after as many others. -/
def SplitMix64.value (seed : UInt64) (calls : Nat) : UInt64 :=
  ((fun g : SplitMix64 => g.next.2)^[calls] ⟨seed⟩).next.1

theorem state_iterate (seed : UInt64) (calls : Nat) :
    ((fun g : SplitMix64 => g.next.2)^[calls] ⟨seed⟩).state =
      seed + UInt64.ofNat calls * 0x9E3779B97F4A7C15 := by
  induction calls with
  | zero => exact (UInt64.add_zero seed).symm
  | succ calls ih =>
    rw [Function.iterate_succ_apply', UInt64.ofNat_add, UInt64.add_mul, ← UInt64.add_assoc, ← ih]
    rfl

theorem mul_injective {c d : UInt64} (h : c * d = 1) : Function.Injective (· * c) :=
  Function.LeftInverse.injective (g := (· * d)) fun x => by
    show x * c * d = x
    rw [UInt64.mul_assoc, h, UInt64.mul_one]

theorem eq_of_xor_shiftRight {x y k : UInt64} (hk : 0 < (k.toBitVec % 64).toNat)
    (h : x ^^^ x >>> k = y ^^^ y >>> k) : x = y :=
  UInt64.toBitVec_inj.mp (injective_xor_shiftRight hk (congrArg UInt64.toBitVec h))

/-- The value of a call determines the state. -/
theorem SplitMix64.next_injective :
    Function.Injective fun state : UInt64 => (SplitMix64.next ⟨state⟩).1 := by
  intro s t h
  have hz := mul_injective (c := 0x94D049BB133111EB) (d := 0x319642b2d24d8ec3) (by decide)
    (eq_of_xor_shiftRight (k := 31) (by decide) h)
  have hz := mul_injective (c := 0xBF58476D1CE4E5B9) (d := 0x96de1b173f119089) (by decide)
    (eq_of_xor_shiftRight (k := 27) (by decide) hz)
  have hstate : s + 0x9E3779B97F4A7C15 = t + 0x9E3779B97F4A7C15 :=
    eq_of_xor_shiftRight (k := 30) (by decide) hz
  exact (UInt64.add_left_inj _).mp hstate

/-- **The cycle of `SplitMix64`.** Of the first 2^64 calls from a seed, each value is that of one.
-/
theorem splitMix64_cycle (seed v : UInt64) :
    ∃! calls, calls < 2 ^ 64 ∧ SplitMix64.value seed calls = v := by
  have hvalue (calls : Nat) : SplitMix64.value seed calls =
      (SplitMix64.next ⟨seed + UInt64.ofNat calls * 0x9E3779B97F4A7C15⟩).1 := by
    rw [← state_iterate]
    rfl
  have hinjective : Function.Injective fun c : UInt64 =>
    (SplitMix64.next ⟨seed + c * 0x9E3779B97F4A7C15⟩).1 :=
    fun a b h => mul_injective (c := 0x9E3779B97F4A7C15) (d := 0xf1de83e19937733d) (by decide)
      ((UInt64.add_right_inj _).mp (SplitMix64.next_injective h))
  have : Finite UInt64 := .of_injective (fun x => x.toBitVec.toFin) fun _ _ h =>
    UInt64.toBitVec_inj.mp (BitVec.toFin_inj.mp h)
  obtain ⟨c, hc⟩ := Finite.surjective_of_injective hinjective v
  refine ⟨c.toNat, ⟨c.toNat_lt, ?_⟩, ?_⟩
  · rw [hvalue, UInt64.ofNat_toNat]
    exact hc
  · rintro calls ⟨hlt, rfl⟩
    rw [hvalue] at hc
    rw [hinjective hc, UInt64.toNat_ofNat_of_lt' hlt]

end Libca.Random
