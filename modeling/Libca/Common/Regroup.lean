import Libca.Common.BitString

/-!
# Regrouping bits

Digits of one width are shifted into an accumulator, and digits of another width are taken from it.

* `pack`: the accumulator; `bits_pack`: its bits are those of the digits.
* `digitsFromTop`: digits taken from the highest bits on; `flatMap_bits_digitsFromTop`: their bits
  are the highest bits of the accumulator.
-/

namespace Libca.Common

/-- Digits shifted into an accumulator, the first one ends up highest. -/
def pack (w : Nat) (ds : List Nat) : Nat := ds.foldl (fun acc d => acc <<< w ||| d) 0

/-- The first digits of an accumulator that is `total` bits wide. -/
def digitsFromTop (w total count acc : Nat) : List Nat :=
  (List.range count).map fun c => acc >>> (total - w * (c + 1)) &&& (2 ^ w - 1)

variable {w : Nat}

theorem bits_shiftLeft_or {v b : Nat} (w n : Nat) (hb : b < 2 ^ v) :
    bits (w + v) (n <<< v ||| b) = bits w n ++ bits v b := by
  rw [← bits_push (w + v) n (le_rfl) hb]
  refine bits_congr fun i hi => ?_
  rw [Nat.testBit_or, Nat.testBit_or, Nat.testBit_mod_two_pow, decide_eq_true hi, Bool.true_and]

/-- **The bits of the accumulator are those of the digits.** -/
theorem bits_pack {ds : List Nat} (hds : ∀ d ∈ ds, d < 2 ^ w) :
    bits (w * ds.length) (pack w ds) = ds.flatMap (bits w) := by
  suffices h : ∀ acc u, bits (u + w * ds.length) (ds.foldl (fun acc d => acc <<< w ||| d) acc) =
      bits u acc ++ ds.flatMap (bits w) by
    simpa [bits, pack] using h 0 0
  induction ds with
  | nil => simp
  | cons d ds ih =>
    intro acc u
    have hd := hds d (.head _)
    rw [List.foldl_cons, List.flatMap_cons, List.length_cons, Nat.mul_succ,
      Nat.add_comm (w * ds.length) w, ← Nat.add_assoc, ih (fun e he => hds e (.tail _ he)),
        bits_shiftLeft_or u acc hd,
      List.append_assoc]

/-- Bits shifted to the top are followed by zeros. -/
theorem bits_shiftLeft (w v n : Nat) :
    bits (w + v) (n <<< v) = bits w n ++ List.replicate v false := by
  rw [← bits_zero, ← bits_shiftLeft_or w n (Nat.two_pow_pos v), Nat.or_zero]

@[simp] theorem length_digitsFromTop (w total count acc : Nat) :
    (digitsFromTop w total count acc).length = count := by
  rw [digitsFromTop, List.length_map, List.length_range]

theorem digitsFromTop_lt {total count acc : Nat} :
    ∀ d ∈ digitsFromTop w total count acc, d < 2 ^ w := by
  intro d hd
  obtain ⟨c, -, rfl⟩ := List.mem_map.mp hd
  rw [Nat.and_two_pow_sub_one_eq_mod]
  exact Nat.mod_lt _ (Nat.two_pow_pos w)

/-- **The bits of the digits are the highest bits of the accumulator.** -/
theorem flatMap_bits_digitsFromTop {total count : Nat} (acc : Nat) (hfit : w * count ≤ total) :
    (digitsFromTop w total count acc).flatMap (bits w) = (bits total acc).take (w * count) := by
  induction count with
  | zero => simp [digitsFromTop]
  | succ count ih =>
    have hcount : w * (count + 1) = w * count + w := Nat.mul_succ w count
    rw [hcount] at hfit
    obtain ⟨low, hlow⟩ : ∃ low, total = w * count + w + low := ⟨total - (w * count + w), by omega⟩
    have hshift : total - w * (count + 1) = low := by
      rw [hcount]
      omega
    have hsplit : bits total acc =
        bits (w * count) (acc >>> low >>> w) ++ (bits w (acc >>> low) ++ bits low acc) := by
      rw [hlow, bits_add, bits_add, List.append_assoc]
    have htake := ih (by omega)
    rw [hsplit, List.take_left' (length_bits ..)] at htake
    rw [digitsFromTop, List.range_succ, List.map_append, List.flatMap_append]
    rw [digitsFromTop] at htake
    rw [htake, hsplit, ← List.append_assoc, List.take_left']
    · simp only [List.map_cons, List.map_nil, List.flatMap_cons, List.flatMap_nil, List.append_nil]
      rw [bits_shiftRight_and, hshift]
    · rw [List.length_append, length_bits, length_bits, hcount]

end Libca.Common
