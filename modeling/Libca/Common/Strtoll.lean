import Libca.Common.FromChars

/-!
# `strtoll`

What `strtoll` of the C library reads from a string, for a base up to 16: white space, a sign, for
base 16 the letters `0x`, and digits.

* `strtoll`: the value, the number of bytes that are read, and whether the value is out of range.
* `strtoll_digits`: **digits behind a sign are read to their end**, with their value when it fits
  into `long long`; `strtoll_hex` says the same of digits behind `0x`.
* `strtoull`, `strtoull_digits`: unsigned integers, which end where the digits do.
-/

namespace Libca.Common

/-- What a conversion of the C library reports: a value, the number of bytes that were read, and
whether `errno` is `ERANGE`. -/
structure Converted (α : Type) where
  value : α
  read : Nat
  rangeError : Bool
  deriving DecidableEq

/-- `isspace`. -/
def isSpace (b : UInt8) : Bool := b == 32 || (9 ≤ b && b ≤ 13)

/-- A digit of a base up to 16. -/
def isDigitOf (base : Nat) (b : UInt8) : Bool :=
  (decimalDigit b || (65 ≤ b && b ≤ 70) || (97 ≤ b && b ≤ 102)) && decide (digitVal b < base)

/-- The letters in front of hexadecimal digits are passed, when there are digits behind them. -/
def dropHexLetters (base : Nat) (text : Bytes) : Bytes :=
  match text with
  | 48 :: x :: rest =>
    if base = 16 ∧ (x = 120 ∨ x = 88) ∧ rest.head?.any (isDigitOf 16) then rest else text
  | _ => text

/-- The value of digits behind a sign. -/
def behindSign (base : Nat) (sign digits : Bytes) : Int :=
  if sign = [45] then -(ofChars base digits : Int) else ofChars base digits

/-- The range of `long long`. -/
def FitsLongLong (v : Int) : Prop := -2 ^ 63 ≤ v ∧ v < 2 ^ 63

instance (v : Int) : Decidable (FitsLongLong v) := inferInstanceAs (Decidable (_ ∧ _))

/-- `strtoll(text, &end, base)` on a string that a NUL ends. -/
def strtoll (text : Bytes) (base : Nat) : Converted Int :=
  let signed := text.dropWhile isSpace
  let behind := dropHexLetters base (dropSign signed)
  let digits := behind.takeWhile (isDigitOf base)
  if digits = [] then ⟨0, 0, false⟩
  else
    let v : Int := if signed.head? = some 45 then -(ofChars base digits : Int)
    else ofChars base digits
    let read := text.length - (behind.length - digits.length)
    if v < -2 ^ 63 then ⟨-2 ^ 63, read, true⟩
    else if 2 ^ 63 ≤ v then ⟨2 ^ 63 - 1, read, true⟩
    else ⟨v, read, false⟩

variable {base : Nat} {text sign digits : Bytes}

/-- The classes of a byte: no digit of any base is white space or a sign. -/
theorem digit_classes (b : UInt8) :
    ((decimalDigit b || (65 ≤ b && b ≤ 70) || (97 ≤ b && b ≤ 102)) = true → isSpace b = false ∧
      b ≠ 43 ∧ b ≠ 45) ∧ isDigitOf 10 b = decimalDigit b := by
  revert b
  exact forall_byte (by decide +kernel)

/-- No digit is white space or a sign. -/
theorem not_space_of_digit {b : UInt8} (h : isDigitOf base b = true) :
    isSpace b = false ∧ b ≠ 43 ∧ b ≠ 45 := by
  unfold isDigitOf at h
  rw [Bool.and_eq_true] at h
  exact (digit_classes b).1 h.1

theorem isDigitOf_ten (b : UInt8) : isDigitOf 10 b = decimalDigit b := (digit_classes b).2

theorem dropHexLetters_of_ne (hbase : base ≠ 16) (text : Bytes) :
    dropHexLetters base text = text := by
  unfold dropHexLetters
  split
  · rw [if_neg fun h => hbase h.1]
  · rfl

theorem takeWhile_all {p : UInt8 → Bool} (h : ∀ b ∈ digits, p b = true) :
    digits.takeWhile p = digits :=
  List.takeWhile_eq_self_iff.mpr h

/-- Nothing is passed in front of a sign and digits. -/
theorem dropWhile_isSpace (hsign : sign = [] ∨ sign = [43] ∨ sign = [45]) (hne : digits ≠ [])
    (hdigits : ∀ b ∈ digits, isDigitOf base b = true) :
    (sign ++ digits).dropWhile isSpace = sign ++ digits := by
  obtain ⟨b, digits, rfl⟩ := List.exists_cons_of_ne_nil hne
  have hb := (not_space_of_digit (hdigits b (.head _))).1
  rcases hsign with rfl | rfl | rfl
  · exact List.dropWhile_cons_of_neg (by simp [hb])
  · rfl
  · rfl

theorem dropSign_digits (hsign : sign = [] ∨ sign = [43] ∨ sign = [45])
    (hdigits : ∀ b ∈ digits, isDigitOf base b = true) : dropSign (sign ++ digits) = digits :=
  dropSign_append_of_head hsign fun b hb =>
    (not_space_of_digit (hdigits b (List.mem_of_head? hb))).2

theorem head?_sign (hsign : sign = [] ∨ sign = [43] ∨ sign = [45])
    (hdigits : ∀ b ∈ digits, isDigitOf base b = true) :
    (sign ++ digits).head? = some 45 ↔ sign = [45] := by
  rcases hsign with rfl | rfl | rfl
  · refine ⟨fun h => ?_, nofun⟩
    exact absurd rfl (not_space_of_digit (hdigits 45 (List.mem_of_head? h))).2.2
  · exact iff_of_false (fun h => absurd (Option.some.inj h) (by decide)) (by decide)
  · exact iff_of_true rfl rfl

/-- **Digits behind a sign are read to their end.** -/
theorem strtoll_digits (hbase : base ≠ 16) (hsign : sign = [] ∨ sign = [43] ∨ sign = [45])
    (hne : digits ≠ []) (hdigits : ∀ b ∈ digits, isDigitOf base b = true) :
    (strtoll (sign ++ digits) base).rangeError = decide
    (¬ FitsLongLong (behindSign base sign digits)) ∧
      (strtoll (sign ++ digits) base).read = (sign ++ digits).length ∧
      (FitsLongLong (behindSign base sign digits) →
        (strtoll (sign ++ digits) base).value = behindSign base sign digits) := by
  have hminus := head?_sign hsign hdigits
  unfold strtoll
  simp only [dropWhile_isSpace hsign hne hdigits, dropSign_digits hsign hdigits,
    dropHexLetters_of_ne hbase,
    takeWhile_all hdigits, if_neg hne, hminus, Nat.sub_self, Nat.sub_zero]
  rw [← behindSign]
  unfold FitsLongLong
  split_ifs with hlow hhigh
  · exact ⟨by simp; omega, rfl, fun h => by omega⟩
  · exact ⟨by simp; omega, rfl, fun h => by omega⟩
  · exact ⟨by simp; omega, rfl, fun _ => rfl⟩

/-- **Hexadecimal digits behind `0x` are read to their end.** -/
theorem strtoll_hex (hne : digits ≠ []) (hdigits : ∀ b ∈ digits, isDigitOf 16 b = true) :
    (strtoll (48 :: 120 :: digits) 16).rangeError = decide (¬ FitsLongLong (ofChars 16 digits)) ∧
      (strtoll (48 :: 120 :: digits) 16).read = (48 :: 120 :: digits).length ∧
      (FitsLongLong (ofChars 16 digits) → (strtoll (48 :: 120 :: digits) 16).value =
      ofChars 16 digits) := by
  have hletters : dropHexLetters 16 (48 :: 120 :: digits) = digits := by
    obtain ⟨b, digits, rfl⟩ := List.exists_cons_of_ne_nil hne
    exact if_pos ⟨rfl, .inl rfl, hdigits b (.head _)⟩
  have hspace : (48 :: 120 :: digits).dropWhile isSpace = 48 :: 120 :: digits := rfl
  have hsign : dropSign (48 :: 120 :: digits) = 48 :: 120 :: digits := rfl
  have hminus : ¬ (48 :: 120 :: digits).head? = some 45 := by
    rw [List.head?_cons]
    decide
  unfold strtoll
  simp only [hspace, hsign, hletters, takeWhile_all hdigits, if_neg hne, if_neg hminus,
    Nat.sub_self, Nat.sub_zero]
  unfold FitsLongLong
  split_ifs with hlow hhigh
  · exact absurd hlow (by omega)
  · exact ⟨by simp; omega, rfl, fun h => by omega⟩
  · exact ⟨by simp; omega, rfl, fun _ => rfl⟩

/-! ## Unsigned integers -/

/-- `strtoull(text, nullptr, 10)` on a string that a NUL ends; a minus sign negates in the unsigned
type. -/
def strtoull (text : Bytes) : UInt64 :=
  let signed := text.dropWhile isSpace
  let v := ofChars 10 ((dropSign signed).takeWhile (isDigitOf 10))
  if 2 ^ 64 ≤ v then UInt64.ofNat (2 ^ 64 - 1)
  else if signed.head? = some 45 then 0 - UInt64.ofNat v
  else UInt64.ofNat v

/-- **Digits are read up to what is no digit**; a value out of range is the largest one. -/
theorem strtoull_digits {stop : Bytes} (hne : digits ≠ [])
    (hdigits : ∀ b ∈ digits, isDigitOf 10 b = true)
    (hstop : ∀ b ∈ stop.head?, isDigitOf 10 b = false) :
    strtoull (digits ++ stop) = UInt64.ofNat (min (ofChars 10 digits) (2 ^ 64 - 1)) := by
  have hhead : ∀ b ∈ (digits ++ stop).head?, isSpace b = false ∧ b ≠ 43 ∧ b ≠ 45 := by
    obtain ⟨d, digits, rfl⟩ := List.exists_cons_of_ne_nil hne
    intro b hb
    rw [← Option.some.inj hb]
    exact not_space_of_digit (hdigits d (.head _))
  have hspace : (digits ++ stop).dropWhile isSpace = digits ++ stop :=
    List.dropWhile_eq_self_iff.mpr fun hpos => by
      have hb := (hhead _ (List.head?_eq_getElem? ▸ List.getElem?_eq_getElem hpos)).1
      simp [hb]
  have hsign : dropSign (digits ++ stop) = digits ++ stop :=
    dropSign_append_of_head (.inl rfl) fun b hb => (hhead b hb).2
  have hminus : (digits ++ stop).head? ≠ some 45 := fun h => (hhead 45 h).2.2 rfl
  have htake : (digits ++ stop).takeWhile (isDigitOf 10) = digits := by
    rw [List.takeWhile_append_of_pos hdigits]
    cases stop with
    | nil => exact List.append_nil digits
    | cons b stop =>
      rw [List.takeWhile_cons_of_neg (by rw [hstop b rfl]; exact Bool.false_ne_true),
        List.append_nil]
  unfold strtoull
  simp only [hspace, hsign, htake, if_neg hminus]
  split_ifs with hlarge
  · rw [Nat.min_eq_right (by omega)]
  · rw [Nat.min_eq_left (by omega)]

end Libca.Common
