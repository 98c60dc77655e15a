import Mathlib.Data.Nat.Digits.Lemmas

/-!
# Byte strings and numerals

A `std::string`, a `std::string_view` and a buffer are lists of bytes.

* `ascii`: the bytes of a literal of ASCII characters.
* `toChars`, `ofChars`: the numeral of a number in a base up to 16 (lower-case digits, no leading
  zero), and the value of a string of digits. `ofChars_toChars`: the numeral has the value it was
  made of; `mem_toChars`, `toChars_ne_nil`: it is a nonempty string of digits.
-/

namespace Libca.Common

/-- A string of bytes. -/
abbrev Bytes := List UInt8

/-! What the definitions of several modules find by instance search has one name for all of them. -/

instance instNeZeroFour : NeZero 4 := ⟨by decide⟩

instance instNeZeroSixteen : NeZero 16 := ⟨by decide⟩

instance instIsPreorderByte : Std.IsPreorder UInt8 := inferInstance

instance instLawfulBEqBytes : LawfulBEq Bytes := inferInstance

instance instTrichotomousBytes : @Std.Trichotomous Bytes (· < ·) := inferInstance

/-- What holds of every byte of a string is decided along the string, not over all bytes. -/
instance (priority := high) {p : UInt8 → Prop} [DecidablePred p] (bs : Bytes) :
    Decidable (∀ b ∈ bs, p b) :=
  List.decidableBAll p bs

/-- What is computed of each of the 256 bytes holds of every byte. -/
theorem forall_byte {p : UInt8 → Prop} (h : ∀ n < 256, p (UInt8.ofNat n)) (b : UInt8) : p b := by
  have hb := h b.toNat b.toNat_lt
  rwa [UInt8.ofNat_toNat] at hb

/-- The bytes of an ASCII literal. -/
def ascii (s : String) : Bytes := s.toList.map fun c => c.val.toUInt8

/-- The character of a digit below 16. -/
def digitChar (d : Nat) : UInt8 := if d < 10 then 48 + d.toUInt8 else 87 + d.toUInt8

/-- The value of a digit character; letters of both cases count. -/
def digitVal (b : UInt8) : Nat :=
  if b ≤ 57 then b.toNat - 48 else if b ≤ 70 then b.toNat - 55 else b.toNat - 87

/-- `std::to_chars(n, base)`, and `std::to_string(n)` for `base = 10`. -/
def toChars (base n : Nat) : Bytes :=
  if n = 0 then [48] else ((Nat.digits base n).map digitChar).reverse

/-- The value of a string of digits. -/
def ofChars (base : Nat) (bs : Bytes) : Nat := bs.foldl (fun acc b => acc * base + digitVal b) 0

theorem digitVal_digitChar {d : Nat} (h : d < 16) : digitVal (digitChar d) = d := by
  interval_cases d <;> rfl

theorem toChars_ne_nil (base n : Nat) : toChars base n ≠ [] := by
  unfold toChars
  split_ifs with h
  · exact List.cons_ne_nil _ _
  · simpa using Nat.digits_ne_nil_iff_ne_zero.mpr h

theorem mem_toChars {base n : Nat} (hb : 2 ≤ base) {b : UInt8} (h : b ∈ toChars base n) :
    ∃ d < base, b = digitChar d := by
  unfold toChars at h
  split_ifs at h
  · exact ⟨0, by omega, List.mem_singleton.mp h⟩
  · obtain ⟨d, hd, rfl⟩ := List.mem_map.mp (List.mem_reverse.mp h)
    exact ⟨d, Nat.digits_lt_base (by omega) hd, rfl⟩

/-- A string of digits read from the left, onto a value read so far. -/
theorem foldl_digitChar_reverse (base : Nat) (ds : List Nat) (hds : ∀ d ∈ ds, d < 16) :
    (ds.map digitChar).reverse.foldl (fun acc b => acc * base + digitVal b) 0 =
      Nat.ofDigits base ds := by
  induction ds with
  | nil => rfl
  | cons d ds ih =>
    rw [List.map_cons, List.reverse_cons, List.foldl_append, ih fun d hd =>
      hds d (.tail _ hd), Nat.ofDigits_cons]
    simp only [List.foldl_cons, List.foldl_nil, digitVal_digitChar (hds d (.head _))]
    rw [Nat.mul_comm, Nat.add_comm]

/-- **A numeral has the value it was made of.** -/
theorem ofChars_toChars {base : Nat} (hb : 2 ≤ base) (hb' : base ≤ 16) (n : Nat) :
    ofChars base (toChars base n) = n := by
  unfold ofChars toChars
  split_ifs with h
  · rw [h, List.foldl_cons, List.foldl_nil]
    simp [digitVal]
  · rw [foldl_digitChar_reverse base _ fun d hd =>
      Nat.lt_of_lt_of_le (Nat.digits_lt_base (by omega) hd) hb', Nat.ofDigits_digits]

/-- Reading on only makes the value larger. -/
theorem le_foldl_digits {base : Nat} (hb : 1 ≤ base) (bs : Bytes) (acc : Nat) :
    acc ≤ bs.foldl (fun acc b => acc * base + digitVal b) acc := by
  induction bs generalizing acc with
  | nil => exact Nat.le_refl acc
  | cons b bs ih =>
    refine Nat.le_trans ?_ (ih _)
    exact Nat.le_trans (Nat.le_mul_of_pos_right acc hb) (Nat.le_add_right _ _)

end Libca.Common
