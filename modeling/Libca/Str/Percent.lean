import Libca.Str.Base64Url

/-!
# Percent encoding of `StringUtil` (`str/string_util.cpp` 367-456)

* `percentEncode`, `percentDecode`: with a space as `+` or not. A string is read from the left; the
  decoder also counts its position, for the texts of its errors.
* `hexValue_hexDigits`: the digits that are written have the value they stand for.
* `percentDecode_percentEncode`: **decoding with the same setting undoes encoding.**
-/

namespace Libca.Str

open Common

/-! ## Characters -/

def isAsciiLower (ch : UInt8) : Bool := 97 ≤ ch && ch ≤ 122

def isAsciiUpper (ch : UInt8) : Bool := 65 ≤ ch && ch ≤ 90

def isAsciiAlpha (ch : UInt8) : Bool := isAsciiLower ch || isAsciiUpper ch

def isAsciiDigit (ch : UInt8) : Bool := 48 ≤ ch && ch ≤ 57

def isAsciiAlnum (ch : UInt8) : Bool := isAsciiAlpha ch || isAsciiDigit ch

def isUnreservedUrlChar (ch : UInt8) : Bool :=
  isAsciiAlnum ch || ch == 45 || ch == 46 || ch == 95 || ch == 126

def isHexDigit (ch : UInt8) : Bool :=
  (48 ≤ ch && ch ≤ 57) || (65 ≤ ch && ch ≤ 70) || (97 ≤ ch && ch ≤ 102)

/-- `hex_value` of a hexadecimal digit. -/
def hexValue (ch : UInt8) : Nat :=
  if 48 ≤ ch ∧ ch ≤ 57 then ch.toNat - 48
  else if 65 ≤ ch ∧ ch ≤ 70 then ch.toNat - 65 + 10
  else ch.toNat - 97 + 10

/-- `HEX_DIGITS`. -/
def hexDigits : Vector UInt8 16 :=
  #v[48, 49, 50, 51, 52, 53, 54, 55, 56, 57, 65, 66, 67, 68, 69, 70]

/-! ## The functions -/

/-- The two digits of a byte. -/
def hexPair (byte : UInt8) : Bytes :=
  have hhigh : byte.toNat / 16 < 16 := by have := byte.toNat_lt; omega
  [hexDigits[byte.toNat / 16], hexDigits[byte.toNat % 16]]

/-- What `percent_encode` writes for a byte. -/
def encodeChar (spaceAsPlus : Bool) (byte : UInt8) : Bytes :=
  if spaceAsPlus && byte == 32 then [43]
  else if isUnreservedUrlChar byte then [byte]
  else 37 :: hexPair byte

def percentEncode (input : Bytes) (spaceAsPlus : Bool) : Bytes :=
  input.flatMap (encodeChar spaceAsPlus)

/-- The loop of `percent_decode` from the position `i` on. -/
def decodeFrom (plusAsSpace : Bool) : Nat → Bytes → Except Bytes Bytes
  | _, [] => .ok []
  | i, ch :: rest =>
    if plusAsSpace && ch == 43 then (decodeFrom plusAsSpace (i + 1) rest).map (32 :: ·)
    else if ch ≠ 37 then (decodeFrom plusAsSpace (i + 1) rest).map (ch :: ·)
    else
      match rest with
      | hi :: lo :: rest =>
        if isHexDigit hi = false ∨ isHexDigit lo = false then
          .error (bytePositionError (ascii "invalid percent escape at byte ") i)
        else
          (decodeFrom plusAsSpace (i + 3) rest).map
            (UInt8.ofNat (hexValue hi <<< 4 ||| hexValue lo) :: ·)
      | _ => .error (bytePositionError (ascii "incomplete percent escape at byte ") i)

def percentDecode (input : Bytes) (plusAsSpace : Bool) : Except Bytes Bytes :=
  decodeFrom plusAsSpace 0 input

/-! ## Digits -/

theorem isHexDigit_hexDigits : ∀ d : Fin 16, isHexDigit (hexDigits.get d) = true := by decide

theorem hexValue_hexDigits : ∀ d : Fin 16, hexValue (hexDigits.get d) = d := by decide

theorem isUnreserved_hexDigits : ∀ d : Fin 16, isUnreservedUrlChar (hexDigits.get d) = true := by
  decide

variable {ch : UInt8}

theorem hexValue_lt (h : isHexDigit ch = true) : hexValue ch < 16 := by
  unfold isHexDigit at h
  unfold hexValue
  simp only [Bool.or_eq_true, Bool.and_eq_true, decide_eq_true_eq, UInt8.le_iff_toNat_le] at h ⊢
  split_ifs
  all_goals
    simp_all
    omega

theorem shiftLeft_or_eq {hi lo : Nat} (h : lo < 16) : hi <<< 4 ||| lo = 16 * hi + lo := by
  rw [← Nat.shiftLeft_add_eq_or_of_lt h, Nat.shiftLeft_eq, Nat.mul_comm]

/-! ## Decoding what was encoded -/

variable {plusAsSpace : Bool}

theorem decodeFrom_plain (hplus : (plusAsSpace && ch == 43) = false) (hne : ch ≠ 37) (i : Nat)
    (rest : Bytes) :
    decodeFrom plusAsSpace i (ch :: rest) = (decodeFrom plusAsSpace (i + 1) rest).map
      (ch :: ·) := by
  rw [decodeFrom.eq_def]
  dsimp only
  rw [if_neg (by simp [hplus]), if_pos hne]

theorem decodeFrom_plus (i : Nat) (rest : Bytes) :
    decodeFrom true i (43 :: rest) = (decodeFrom true (i + 1) rest).map (32 :: ·) := by
  rw [decodeFrom.eq_def]
  rfl

theorem decodeFrom_hexPair (i : Nat) (byte : UInt8) (rest : Bytes) :
    decodeFrom plusAsSpace i (37 :: (hexPair byte ++ rest)) =
      (decodeFrom plusAsSpace (i + 3) rest).map (byte :: ·) := by
  have hhigh : byte.toNat / 16 < 16 := by have := byte.toNat_lt; omega
  have hhi : hexValue hexDigits[byte.toNat / 16] = byte.toNat / 16 := hexValue_hexDigits ⟨_, hhigh⟩
  have hlo : hexValue hexDigits[byte.toNat % 16] = byte.toNat % 16 :=
    hexValue_hexDigits ⟨_, by omega⟩
  have hhiDigit : isHexDigit hexDigits[byte.toNat / 16] = true := isHexDigit_hexDigits ⟨_, hhigh⟩
  have hloDigit : isHexDigit hexDigits[byte.toNat % 16] = true := isHexDigit_hexDigits ⟨_, by omega⟩
  unfold hexPair
  rw [List.cons_append, List.cons_append, List.nil_append, decodeFrom, if_neg (by simp),
    if_neg (by simp)]
  simp only [hhi, hlo, hhiDigit, hloDigit]
  rw [if_neg (by simp), shiftLeft_or_eq (Nat.mod_lt _ (by decide)), Nat.div_add_mod,
    UInt8.ofNat_toNat]

/-- **A byte that was encoded is decoded first.** -/
theorem decodeFrom_encodeChar (i : Nat) (byte : UInt8) (rest : Bytes) :
    ∃ j, decodeFrom plusAsSpace i (encodeChar plusAsSpace byte ++ rest) =
      (decodeFrom plusAsSpace j rest).map (byte :: ·) := by
  unfold encodeChar
  by_cases hspace : (plusAsSpace && byte == 32) = true
  · rw [if_pos hspace]
    obtain ⟨rfl, hbyte⟩ := Bool.and_eq_true_iff.mp hspace
    obtain rfl := eq_of_beq hbyte
    exact ⟨i + 1, decodeFrom_plus i rest⟩
  · rw [if_neg hspace]
    by_cases hplain : isUnreservedUrlChar byte = true
    · rw [if_pos hplain]
      refine ⟨i + 1, decodeFrom_plain ?_ ?_ i rest⟩
      · rw [Bool.and_eq_false_iff, beq_eq_false_iff_ne]
        right
        rintro rfl
        cases hplain
      · rintro rfl
        cases hplain
    · rw [if_neg hplain]
      exact ⟨i + 3, decodeFrom_hexPair i byte rest⟩

theorem decodeFrom_encoded (i : Nat) (input : Bytes) :
    decodeFrom plusAsSpace i (input.flatMap (encodeChar plusAsSpace)) = .ok input := by
  induction input generalizing i with
  | nil => rfl
  | cons byte input ih =>
    obtain ⟨j, hfirst⟩ := decodeFrom_encodeChar i byte (input.flatMap (encodeChar plusAsSpace))
    rw [List.flatMap_cons, hfirst, ih]
    rfl

/-- **Decoding with the same setting undoes encoding.** -/
theorem percentDecode_percentEncode (input : Bytes) (plus : Bool) :
    percentDecode (percentEncode input plus) plus = .ok input :=
  decodeFrom_encoded 0 input

/-- What `percent_encode` writes. -/
theorem mem_percentEncode {input : Bytes} (h : ch ∈ percentEncode input false) :
    isUnreservedUrlChar ch = true ∨ ch = 37 := by
  obtain ⟨byte, -, hch⟩ := List.mem_flatMap.mp h
  unfold encodeChar at hch
  rw [if_neg (by simp)] at hch
  split_ifs at hch with hplain
  · left
    rwa [List.mem_singleton.mp hch]
  · rcases List.mem_cons.mp hch with rfl | hdigit
    · exact .inr rfl
    · left
      have hlt := byte.toNat_lt
      have hhi := isUnreserved_hexDigits ⟨byte.toNat / 16, by omega⟩
      have hlo := isUnreserved_hexDigits ⟨byte.toNat % 16, by omega⟩
      unfold hexPair at hdigit
      rcases List.mem_pair.mp hdigit with rfl | rfl
      · exact hhi
      · exact hlo

end Libca.Str
