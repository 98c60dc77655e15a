import Libca.Common.Bytes

/-!
# LEB128

The base-128 numeral of a number, least significant digit first, each digit but the last with the
high bit set.

* `eq_of_leb128_le`, `leb128_unique`: no numeral is a proper prefix of another, so a string of bytes
  begins with one numeral at most.
* `leb128_length_le`: a number of `7 * n` bits has at most `n` digits.
-/

namespace Libca.Common

/-- The LEB128 numeral of `n`. -/
def leb128 (n : Nat) : Bytes :=
  if n < 128 then [UInt8.ofNat n] else UInt8.ofNat (n % 128 + 128) :: leb128 (n / 128)
termination_by n

variable {n : Nat}

theorem leb128_of_lt (h : n < 128) : leb128 n = [UInt8.ofNat n] := by
  rw [leb128, if_pos h]

theorem leb128_of_ge (h : 128 ≤ n) :
    leb128 n = UInt8.ofNat (n % 128 + 128) :: leb128 (n / 128) := by
  rw [leb128, if_neg (by omega)]

theorem leb128_ne_nil (n : Nat) : leb128 n ≠ [] := by
  rw [leb128]
  split_ifs <;> exact List.cons_ne_nil _ _

theorem toNat_ofNat_lt_256 (h : n < 256) : (UInt8.ofNat n).toNat = n :=
  UInt8.toNat_ofNat_of_lt' h

variable {b : UInt8}

/-- A last digit is the numeral of its value. -/
theorem leb128_toNat (h : b.toNat < 128) : leb128 b.toNat = [b] := by
  rw [leb128_of_lt h, UInt8.ofNat_toNat]

/-- A digit with the high bit set stands before a numeral other than that of zero. -/
theorem leb128_cons (h : 128 ≤ b.toNat) (hn : n ≠ 0) :
    leb128 (b.toNat - 128 + 128 * n) = b :: leb128 n := by
  have hb := b.toNat_lt
  rw [leb128_of_ge (by omega)]
  congr 1
  · rw [show (b.toNat - 128 + 128 * n) % 128 + 128 = b.toNat by omega, UInt8.ofNat_toNat]
  · rw [show (b.toNat - 128 + 128 * n) / 128 = n by omega]

/-- The first byte of a numeral, and what follows it. -/
theorem leb128_eq_cons {rest : Bytes} (h : leb128 n = b :: rest) :
    (b.toNat < 128 ∧ n = b.toNat ∧ rest = []) ∨
      ∃ m, m ≠ 0 ∧ 128 ≤ b.toNat ∧ n = b.toNat - 128 + 128 * m ∧ rest = leb128 m := by
  by_cases hn : n < 128
  · rw [leb128_of_lt hn] at h
    obtain ⟨rfl, rfl⟩ := List.cons.inj h
    rw [toNat_ofNat_lt_256 (by omega)]
    exact .inl ⟨hn, rfl, rfl⟩
  · rw [leb128_of_ge (by omega)] at h
    obtain ⟨rfl, rfl⟩ := List.cons.inj h
    rw [toNat_ofNat_lt_256 (by omega)]
    exact .inr ⟨n / 128, by omega, by omega, by omega, rfl⟩

/-- **No numeral is a proper prefix of another.** -/
theorem eq_of_leb128_le {m : Nat} (h : leb128 n <+: leb128 m) : n = m := by
  induction n using Nat.strongRecOn generalizing m with
  | ind n ih =>
    obtain ⟨tail, htail⟩ := h
    cases hn : leb128 n with
    | nil => exact absurd hn (leb128_ne_nil n)
    | cons b rest =>
      rw [hn, List.cons_append] at htail
      obtain ⟨hb, rfl, rfl⟩ | ⟨k, hk, hb, rfl, rfl⟩ := leb128_eq_cons hn
      · obtain ⟨-, rfl, -⟩ | ⟨k, -, hb', -⟩ := leb128_eq_cons htail.symm
        · rfl
        · omega
      · obtain ⟨hb', -⟩ | ⟨l, hl, -, rfl, hrest⟩ := leb128_eq_cons htail.symm
        · omega
        · rw [ih k (by omega) ⟨tail, hrest⟩]

/-- Two numerals that begin the same string are the same. -/
theorem leb128_unique {m : Nat} {bs : Bytes} (hn : leb128 n <+: bs) (hm : leb128 m <+: bs) :
    n = m := by
  obtain h | h := List.prefix_or_prefix_of_prefix hn hm
  · exact eq_of_leb128_le h
  · exact (eq_of_leb128_le h).symm

/-- A number of `7 * count` bits has at most `count` digits. -/
theorem leb128_length_le {count : Nat} (h : n < 128 ^ (count + 1)) :
    (leb128 n).length ≤ count + 1 := by
  induction count generalizing n with
  | zero =>
    rw [leb128_of_lt (by omega)]
    exact Nat.le_refl 1
  | succ count ih =>
    by_cases hn : n < 128
    · rw [leb128_of_lt hn]
      exact Nat.le_add_left 1 _
    · rw [leb128_of_ge (by omega), List.length_cons]
      have hdiv : n / 128 < 128 ^ (count + 1) := by
        rw [Nat.div_lt_iff_lt_mul (by decide)]
        rwa [Nat.pow_succ] at h
      exact Nat.succ_le_succ (ih hdiv)

end Libca.Common
