import Libca.Common.LittleEndian

/-!
# Big-endian numbers in a byte string

* `toBe w n`: the `w` low bytes of `n`, the most significant first; `ofBe`: their value.
* `toBe_mod`: only the number modulo `256 ^ w` counts.
* `toBe_succ`: the last byte, and the bytes in front of it.
-/

namespace Libca.Common

/-- The `w` low bytes of a number, the most significant first. -/
def toBe (w n : Nat) : Bytes := (toLe w n).reverse

/-- The number that bytes stand for, the most significant first. -/
def ofBe (bs : Bytes) : Nat := ofLe bs.reverse

@[simp] theorem length_toBe (w n : Nat) : (toBe w n).length = w := by
  rw [toBe, List.length_reverse, length_toLe]

/-- **Writing a number and reading it** reduces it to its width. -/
theorem ofBe_toBe (w n : Nat) : ofBe (toBe w n) = n % 256 ^ w := by
  rw [ofBe, toBe, List.reverse_reverse, ofLe_toLe]

/-- **Reading a number and writing it** gives the bytes back. -/
theorem toBe_ofBe {w : Nat} {bs : Bytes} (h : bs.length = w) : toBe w (ofBe bs) = bs := by
  have hle := toLe_ofLe bs.reverse
  rw [List.length_reverse, h] at hle
  rw [toBe, ofBe, hle, List.reverse_reverse]

theorem toBe_mod (w n : Nat) : toBe w (n % 256 ^ w) = toBe w n := by
  rw [← ofBe_toBe, toBe_ofBe (length_toBe w n)]

theorem toBe_succ (w n : Nat) : toBe (w + 1) n = toBe w (n / 256) ++ [UInt8.ofNat n] := by
  rw [toBe, toLe, List.reverse_cons, toBe]

theorem toBe_zero (n : Nat) : toBe 0 n = [] := rfl

/-- The high bytes and the low bytes. -/
theorem toBe_add (v w n : Nat) : toBe (v + w) n = toBe v (n / 256 ^ w) ++ toBe w n := by
  induction w generalizing n with
  | zero => rw [Nat.pow_zero, Nat.div_one, toBe_zero, List.append_nil, Nat.add_zero]
  | succ w ih =>
    rw [← Nat.add_assoc, toBe_succ, toBe_succ, ih, Nat.div_div_eq_div_mul, ← Nat.pow_succ',
      List.append_assoc]

theorem ofBe_append_singleton (bs : Bytes) (b : UInt8) :
    ofBe (bs ++ [b]) = b.toNat + 256 * ofBe bs := by
  rw [ofBe, List.reverse_append, List.reverse_singleton, List.singleton_append, ofLe, ofBe]

end Libca.Common
