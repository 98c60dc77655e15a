import Libca.Common.Except
import Libca.Common.Regroup
import Libca.Crypto.Aes
import Libca.Str.Base64Url

/-!
# Base64 and Base32 (`crypto/base64.cpp`, `crypto/base32.cpp`)

Both turn bytes into digits of another width, the last of them filled up with zero bits, and pad the
text to whole groups. A decoder checks the padding, the digits and the bits that were filled up.

* `Spelling`: digits that hold a byte string, with less than a byte of zeros behind it.
* `Spelling.digits_unique`, `Spelling.bytes_unique`: digits and bytes determine each other.
* `spelling_base64Group`, `spelling_digits`: the digits of a group; `spelling_base64Bytes`,
  `spelling_bytes`: the bytes that are put together of them.
* `base64_decode_iff`, `base32_decode_iff`: what the decoders accept.
* `decode_exactly_encodings`: **Base64 and Base32 decode exactly their canonical encodings.**
-/

namespace Libca.Crypto

open Common
open Str (byteBits byteBits_append length_byteBits byteBits_inj)

/-! ## Alphabets -/

/-- `kBase64Chars`. -/
def base64Chars : Bytes := ascii "ABCDEFGHIJKLMNOPQRSTUVWXYZabcdefghijklmnopqrstuvwxyz0123456789+/"

/-- `kBase32Chars`. -/
def base32Chars : Bytes := ascii "ABCDEFGHIJKLMNOPQRSTUVWXYZ234567"

/-- A character of an alphabet. -/
def charAt (alphabet : Bytes) (value : Nat) : UInt8 := alphabet.getD value 0

/-- `kReverse.map`: the value of a character, `-1` for one outside of the alphabet. -/
def charIndex (alphabet : Bytes) (c : UInt8) : Int :=
  match alphabet.idxOf? c with
  | some i => i
  | none => -1

/-! ## Base64 -/

/-- The four values of three bytes. -/
def base64Group (first second third : UInt8) : List Nat :=
  [first.toNat >>> 2 &&& 0b111111,
    (first.toNat &&& 0b11) <<< 4 ||| (second.toNat >>> 4 &&& 0b1111),
    (second.toNat &&& 0b1111) <<< 2 ||| (third.toNat >>> 6 &&& 0b11),
    third.toNat &&& 0b111111]

/-- `base64_encode`; a byte that is missing counts as zero. -/
def base64Encode : Bytes → Bytes
  | [] => []
  | [first] => ((base64Group first 0 0).take 2).map (charAt base64Chars) ++ [61, 61]
  | [first, second] => ((base64Group first second 0).take 3).map (charAt base64Chars) ++ [61]
  | first :: second :: third :: rest =>
    (base64Group first second third).map (charAt base64Chars) ++ base64Encode rest

/-- The bytes that a group of values is put together to. -/
def base64Bytes (b0 b1 b2 b3 : Nat) : Bytes :=
  [UInt8.ofNat (b0 <<< 2 ||| (b1 >>> 4 &&& 0x03)),
    UInt8.ofNat ((b1 &&& 0x0F) <<< 4 ||| (b2 >>> 2 &&& 0x0F)),
    UInt8.ofNat ((b2 &&& 0x03) <<< 6 ||| b3)]

/-- The value of a character that must be of the alphabet. -/
def readChar (alphabet : Bytes) (e : CryptoError) (c : UInt8) : Except CryptoError Nat :=
  if charIndex alphabet c < 0 then .error e else .ok (charIndex alphabet c).toNat

/-- One turn of the loop of `base64_decode`; `last` says that no group follows. -/
def base64DecodeGroup (c0 c1 c2 c3 : UInt8) (last : Bool) : Except CryptoError Bytes := do
  let b0 ← readChar base64Chars .invalidBase64 c0
  let b1 ← readChar base64Chars .invalidBase64 c1
  let pad2 := c2 == 61
  let pad3 := c3 == 61
  if pad2 && !pad3 then .error .invalidBase64
  else if (pad2 || pad3) && !last then .error .invalidBase64
  else if pad2 && b1 &&& 0x0F != 0 then .error .invalidBase64
  else if pad2 then .ok ((base64Bytes b0 b1 0 0).take 1)
  else do
    let b2 ← readChar base64Chars .invalidBase64 c2
    if pad3 && b2 &&& 0x03 != 0 then .error .invalidBase64
    else if pad3 then .ok ((base64Bytes b0 b1 b2 0).take 2)
    else do
      let b3 ← readChar base64Chars .invalidBase64 c3
      .ok (base64Bytes b0 b1 b2 b3)

/-- The loop of `base64_decode`, over a text of whole groups. -/
def base64DecodeLoop : Bytes → Except CryptoError Bytes
  | c0 :: c1 :: c2 :: c3 :: rest => do
    let output ← base64DecodeGroup c0 c1 c2 c3 rest.isEmpty
    let more ← base64DecodeLoop rest
    .ok (output ++ more)
  | _ => .ok []

/-- `base64_decode`. -/
def base64Decode (src : Bytes) : Except CryptoError Bytes :=
  if src.length % 4 ≠ 0 then .error .invalidBase64 else base64DecodeLoop src

/-! ## Base32 -/

/-- `base32_encode`. An accumulator holds 40 bits at most, which `u64` does not cut. -/
def base32Encode (data : Bytes) (padding : Bool) : Bytes :=
  if 5 ≤ data.length then
    (digitsFromTop 5 40 8 (pack 8 ((data.take 5).map UInt8.toNat))).map (charAt base32Chars) ++
      base32Encode (data.drop 5) padding
  else if data.length ≠ 0 then
    let acc := pack 8 (data.map UInt8.toNat) <<< (8 * (5 - data.length))
    let outChars := (data.length * 8 + 4) / 5
    (digitsFromTop 5 40 outChars acc).map (charAt base32Chars) ++
      if padding then List.replicate (8 - outChars) 61 else []
  else []
termination_by data.length
decreasing_by
  rw [List.length_drop]
  omega

/-- The loops of `base32_decode` over the characters in front of the padding. -/
def base32DecodeLoop (data : Bytes) : Except CryptoError Bytes :=
  if 8 ≤ data.length then do
    let values ← (data.take 8).mapM (readChar base32Chars .invalidBase32)
    let more ← base32DecodeLoop (data.drop 8)
    .ok ((digitsFromTop 8 40 5 (pack 5 values)).map UInt8.ofNat ++ more)
  else if data.length ≠ 0 then do
    let values ← data.mapM (readChar base32Chars .invalidBase32)
    let acc := pack 5 values
    let totalBits := data.length * 5
    let unusedBits := totalBits % 8
    if unusedBits ≠ 0 ∧ acc &&& (1 <<< unusedBits - 1) ≠ 0 then .error .invalidBase32
    else .ok ((digitsFromTop 8 40 (totalBits / 8) (acc <<< (5 * (8 - data.length)))).map
      UInt8.ofNat)
  else .ok []
termination_by data.length
decreasing_by
  rw [List.length_drop]
  omega

/-- `base32_decode`. -/
def base32Decode (src : Bytes) : Except CryptoError Bytes :=
  let data := src.takeWhile (· != 61)
  let pads := src.dropWhile (· != 61)
  if pads ≠ [] then
    if pads.any (· != 61) then .error .invalidBase32
    else
      let groupRem := data.length % 8
      if groupRem = 0 ∨ groupRem = 1 ∨ groupRem = 3 ∨ groupRem = 6 then .error .invalidBase32
      else if 8 - groupRem ≠ pads.length then .error .invalidBase32
      else base32DecodeLoop data
  else if src.length % 8 = 1 ∨ src.length % 8 = 3 ∨ src.length % 8 = 6 then .error .invalidBase32
  else base32DecodeLoop data

/-! ## Characters -/

/-- An alphabet of `2 ^ w` characters, with what the decoders need of them. -/
structure IsAlphabet (w : Nat) (alphabet : Bytes) : Prop where
  index : ∀ v < 2 ^ w, charIndex alphabet (charAt alphabet v) = v
  char : ∀ c, 0 ≤ charIndex alphabet c →
    (charIndex alphabet c).toNat < 2 ^ w ∧ charAt alphabet (charIndex alphabet c).toNat = c
  pad : charIndex alphabet 61 = -1

theorem isAlphabet_base64 : IsAlphabet 6 base64Chars where
  index := by decide +kernel
  char := forall_byte (by decide +kernel)
  pad := by decide +kernel

theorem isAlphabet_base32 : IsAlphabet 5 base32Chars where
  index := by decide
  char := forall_byte (by decide +kernel)
  pad := by decide

section

variable {w : Nat} {alphabet : Bytes} {e : CryptoError}

/-- **A character is read as a value below `2 ^ w`, of which it is the character.** -/
theorem IsAlphabet.readChar_eq_ok (h : IsAlphabet w alphabet) {c : UInt8} {v : Nat} :
    readChar alphabet e c = .ok v ↔ v < 2 ^ w ∧ c = charAt alphabet v := by
  unfold readChar
  constructor
  · intro hread
    split_ifs at hread with hneg
    cases hread
    obtain ⟨hlt, hchar⟩ := h.char c (Int.not_lt.mp hneg)
    exact ⟨hlt, hchar.symm⟩
  · rintro ⟨hlt, rfl⟩
    rw [h.index v hlt, if_neg (by omega), Int.toNat_natCast]

/-- A character of the alphabet is no padding. -/
theorem IsAlphabet.charAt_ne (h : IsAlphabet w alphabet) {v : Nat} (hv : v < 2 ^ w) :
    charAt alphabet v ≠ 61 := by
  intro hpad
  have hindex := h.index v hv
  rw [hpad, h.pad] at hindex
  omega

/-- Characters are read one by one. -/
theorem IsAlphabet.mapM_readChar (h : IsAlphabet w alphabet) {text : Bytes} {vs : List Nat} :
    text.mapM (readChar alphabet e) = .ok vs ↔ (∀ v ∈ vs, v < 2 ^ w) ∧
      text = vs.map (charAt alphabet) := by
  induction text generalizing vs with
  | nil =>
    constructor
    · intro hread
      cases hread
      exact ⟨List.forall_mem_nil _, rfl⟩
    · rintro ⟨-, htext⟩
      rw [List.map_eq_nil_iff.mp htext.symm]
      rfl
  | cons c text ih =>
    rw [List.mapM_cons, except_bind_eq_ok]
    constructor
    · rintro ⟨v, hv, hrest⟩
      obtain ⟨us, hus, hvs⟩ := except_bind_eq_ok.mp hrest
      obtain ⟨hlt, rfl⟩ := h.readChar_eq_ok.mp hv
      obtain ⟨hall, rfl⟩ := ih.mp hus
      cases hvs
      exact ⟨List.forall_mem_cons.mpr ⟨hlt, hall⟩, rfl⟩
    · rintro ⟨hall, htext⟩
      obtain ⟨v, us, rfl, rfl, rfl⟩ := List.map_eq_cons_iff.mp htext.symm
      obtain ⟨hlt, hus⟩ := List.forall_mem_cons.mp hall
      exact ⟨v, h.readChar_eq_ok.mpr ⟨hlt, rfl⟩, except_bind_eq_ok.mpr ⟨us, ih.mpr ⟨hus, rfl⟩, rfl⟩⟩

end

/-! ## Spellings -/

/-- Digits that hold a byte string, with `z` zeros behind it. -/
structure Spelling (w : Nat) (x : Bytes) (vs : List Nat) (z : Nat) : Prop where
  values : ∀ v ∈ vs, v < 2 ^ w
  total : vs.flatMap (bits w) = byteBits x ++ List.replicate z false

namespace Spelling

variable {w z z' : Nat} {x y : Bytes} {vs us : List Nat}

theorem length_eq (h : Spelling w x vs z) : w * vs.length = 8 * x.length + z := by
  have hlength := congrArg List.length h.total
  rwa [List.length_append, length_flatMap_bits, length_byteBits, List.length_replicate] at hlength

/-- **The digits are determined by the bytes.** -/
theorem digits_unique (hw : 0 < w) (h : Spelling w x vs z) (h' : Spelling w x us z) : vs = us := by
  refine flatMap_bits_inj h.values h'.values ?_ (h.total.trans h'.total.symm)
  exact Nat.eq_of_mul_eq_mul_left hw (h.length_eq.trans h'.length_eq.symm)

/-- **The bytes are determined by the digits.** -/
theorem bytes_unique (h : Spelling w x vs z) (h' : Spelling w y vs z') (hz : z < 8) (hz' : z' < 8) :
    x = y := by
  have hlength := h.length_eq
  have hlength' := h'.length_eq
  have hbytes : x.length = y.length := by omega
  obtain ⟨hbits, -⟩ := List.append_inj (h.total.symm.trans h'.total) (by
    rw [length_byteBits, length_byteBits, hbytes])
  exact byteBits_inj hbytes hbits

/-- The lowest bits of the last digit are the zeros. -/
theorem low_zero (vs : List Nat) {v : Nat} (h : Spelling w x (vs ++ [v]) z) (hz : z ≤ w) :
    v &&& (2 ^ z - 1) = 0 := by
  have htotal := h.total
  have hbits := bits_add (w - z) z v
  rw [Nat.sub_add_cancel hz] at hbits
  rw [List.flatMap_append, List.flatMap_cons, List.flatMap_nil, List.append_nil, hbits,
    ← List.append_assoc]
    at htotal
  refine bits_eq_replicate_iff.mp (List.append_inj_right' htotal ?_)
  rw [length_bits, List.length_replicate]

end Spelling

theorem byteBits_cons (b : UInt8) (bs : Bytes) :
    byteBits (b :: bs) = bits 8 b.toNat ++ byteBits bs := rfl

/-- Bytes made of digits below 256. -/
theorem byteBits_ofNat {ds : List Nat} (hds : ∀ d ∈ ds, d < 256) :
    byteBits (ds.map UInt8.ofNat) = ds.flatMap (bits 8) := by
  have hmap : (ds.map UInt8.ofNat).map UInt8.toNat = ds := by
    rw [List.map_map]
    refine (List.map_congr_left fun d hd => ?_).trans (List.map_id ds)
    exact UInt8.toNat_ofNat_of_lt' (hds d hd)
  rw [byteBits, hmap]

theorem byteBits_zeros (m : Nat) : byteBits (List.replicate m 0) =
    List.replicate (8 * m) false := by
  induction m with
  | zero => rfl
  | succ m ih =>
    rw [List.replicate_succ, byteBits_cons, ih, Nat.mul_succ, Nat.add_comm, List.replicate_add]
    rfl

/-- The digits of bytes with zero bytes behind them may be cut to `z` zeros. -/
theorem Spelling.truncate {w m n z : Nat} {x : Bytes} {vs : List Nat}
    (h : Spelling w (x ++ List.replicate m 0) vs 0) (hn : n ≤ vs.length)
    (hwidth : w * n = 8 * x.length + z) : Spelling w x (vs.take n) z := by
  refine ⟨fun v hv => h.values v (List.mem_of_mem_take hv), ?_⟩
  have htotal := h.total
  have hlength := h.length_eq
  rw [List.length_append, List.length_replicate] at hlength
  have hmore := Nat.mul_le_mul_left w hn
  rw [← List.take_append_drop n vs, List.flatMap_append, byteBits_append, byteBits_zeros,
    List.append_assoc, List.replicate_append_replicate] at htotal
  have hsplit : 8 * m + 0 = z + (8 * m - z) := by omega
  rw [hsplit, List.replicate_add, ← List.append_assoc] at htotal
  refine (List.append_inj htotal ?_).1
  rw [length_flatMap_bits, List.length_append, length_byteBits, List.length_replicate,
    List.length_take_of_le hn, hwidth]

/-! ## Base64: groups -/

theorem bits_and (w n : Nat) : bits w (n &&& (2 ^ w - 1)) = bits w n := by
  rw [Nat.and_two_pow_sub_one_eq_mod, bits_mod]

/-- The lower bits of two numbers, put together. -/
theorem bits_join (w v n m : Nat) :
    bits (w + v) ((n &&& (2 ^ w - 1)) <<< v ||| (m &&& (2 ^ v - 1))) = bits w n ++ bits v m := by
  rw [bits_shiftLeft_or w _ (Nat.and_lt_two_pow m (Nat.sub_lt (Nat.two_pow_pos v) Nat.one_pos)),
    bits_and, bits_and]

theorem bits_ofNat (n : Nat) : bits 8 (UInt8.ofNat n).toNat = bits 8 n := by
  rw [UInt8.toNat_ofNat', bits_mod]

/-- **Four values hold three bytes.** -/
theorem spelling_base64Group (first second third : UInt8) :
    Spelling 6 [first, second, third] (base64Group first second third) 0 := by
  have h0 : bits 6 (first.toNat >>> 2 &&& 0b111111) = bits 6 (first.toNat >>> 2) := bits_and 6 _
  have h1 : bits 6 ((first.toNat &&& 0b11) <<< 4 ||| (second.toNat >>> 4 &&& 0b1111)) =
      bits 2 first.toNat ++ bits 4 (second.toNat >>> 4) := bits_join 2 4 _ _
  have h2 : bits 6 ((second.toNat &&& 0b1111) <<< 2 ||| (third.toNat >>> 6 &&& 0b11)) =
      bits 4 second.toNat ++ bits 2 (third.toNat >>> 6) := bits_join 4 2 _ _
  have h3 : bits 6 (third.toNat &&& 0b111111) = bits 6 third.toNat := bits_and 6 _
  have hfirst : bits 8 first.toNat = bits 6 (first.toNat >>> 2) ++ bits 2 first.toNat :=
    bits_add 6 2 _
  have hsecond : bits 8 second.toNat = bits 4 (second.toNat >>> 4) ++ bits 4 second.toNat :=
    bits_add 4 4 _
  have hthird : bits 8 third.toNat = bits 2 (third.toNat >>> 6) ++ bits 6 third.toNat :=
    bits_add 2 6 _
  constructor
  · have hmask (w n : Nat) : n &&& (2 ^ w - 1) < 2 ^ w :=
      Nat.and_lt_two_pow n (Nat.sub_lt (Nat.two_pow_pos w) Nat.one_pos)
    have hjoin (w v n m : Nat) (hw : w + v = 6) :
        (n &&& (2 ^ w - 1)) <<< v ||| (m &&& (2 ^ v - 1)) < 2 ^ 6 := by
      refine Nat.or_lt_two_pow ?_
        (Nat.lt_of_lt_of_le (hmask v m) (Nat.pow_le_pow_right (by decide) (by omega)))
      rw [Nat.shiftLeft_eq, ← hw, Nat.pow_add]
      exact Nat.mul_lt_mul_of_pos_right (hmask w n) (Nat.two_pow_pos v)
    simp only [base64Group, List.forall_mem_cons]
    exact ⟨hmask 6 _, hjoin 2 4 _ _ rfl, hjoin 4 2 _ _ rfl, hmask 6 _, List.forall_mem_nil _⟩
  · simp only [base64Group, List.flatMap_cons, List.flatMap_nil, h0, h1, h2, h3, byteBits_cons,
      hfirst, hsecond, hthird, List.append_assoc]
    rfl

/-- **Three bytes are put together of four values.** -/
theorem spelling_base64Bytes {b0 b1 b2 b3 : Nat} (hvalues : ∀ v ∈ [b0, b1, b2, b3], v < 2 ^ 6) :
    Spelling 6 (base64Bytes b0 b1 b2 b3) [b0, b1, b2, b3] 0 := by
  have h3 : b3 < 2 ^ 6 := hvalues b3 (by simp)
  have h0 : bits 8 (b0 <<< 2 ||| (b1 >>> 4 &&& 0x03)) = bits 6 b0 ++ bits 2 (b1 >>> 4) := by
    rw [← bits_and 2 (b1 >>> 4)]
    exact bits_shiftLeft_or 6 b0 (Nat.and_lt_two_pow _ (show 0x03 < 2 ^ 2 by decide))
  have h1 : bits 8 ((b1 &&& 0x0F) <<< 4 ||| (b2 >>> 2 &&& 0x0F)) = bits 4 b1 ++ bits 4 (b2 >>> 2) :=
    bits_join 4 4 _ _
  have h2 : bits 8 ((b2 &&& 0x03) <<< 6 ||| b3) = bits 2 b2 ++ bits 6 b3 := by
    rw [← bits_and 2 b2]
    exact bits_shiftLeft_or 2 _ h3
  have hb1 : bits 6 b1 = bits 2 (b1 >>> 4) ++ bits 4 b1 := bits_add 2 4 _
  have hb2 : bits 6 b2 = bits 4 (b2 >>> 2) ++ bits 2 b2 := bits_add 4 2 _
  refine ⟨hvalues, ?_⟩
  simp only [base64Bytes, List.flatMap_cons, List.flatMap_nil, byteBits_cons, bits_ofNat, h0, h1,
    h2, hb1, hb2, List.append_assoc]
  rfl

/-- The values of one byte. -/
theorem spelling_one_byte (first : UInt8) : Spelling 6 [first] ((base64Group first 0 0).take 2) 4 :=
  (spelling_base64Group first 0 0).truncate (m := 2) (x := [first]) (show 2 ≤ 4 by decide) rfl

/-- The values of two bytes. -/
theorem spelling_two_bytes (first second : UInt8) :
    Spelling 6 [first, second] ((base64Group first second 0).take 3) 2 :=
  (spelling_base64Group first second 0).truncate (m := 1) (x := [first, second])
    (show 3 ≤ 4 by decide) rfl

/-- Two values with four zero bits at the end hold a byte. -/
theorem spelling_two_values {b0 b1 : Nat} (h0 : b0 < 2 ^ 6) (h1 : b1 < 2 ^ 6)
    (hzero : b1 &&& 0x0F = 0) :
    Spelling 6 ((base64Bytes b0 b1 0 0).take 1) [b0, b1] 4 := by
  have hvalues : ∀ v ∈ [b0, b1, 0, 0], v < 2 ^ 6 := by
    simp only [List.forall_mem_cons]
    exact ⟨h0, h1, by decide, by decide, List.forall_mem_nil _⟩
  have hbytes : base64Bytes b0 b1 0 0 = (base64Bytes b0 b1 0 0).take 1 ++ List.replicate 2 0 := by
    simp only [base64Bytes, hzero]
    rfl
  have hspelling := spelling_base64Bytes hvalues
  rw [hbytes] at hspelling
  exact hspelling.truncate (n := 2) (show 2 ≤ 4 by decide) rfl

/-- Three values with two zero bits at the end hold two bytes. -/
theorem spelling_three_values {b0 b1 b2 : Nat} (h0 : b0 < 2 ^ 6) (h1 : b1 < 2 ^ 6) (h2 : b2 < 2 ^ 6)
    (hzero : b2 &&& 0x03 = 0) : Spelling 6 ((base64Bytes b0 b1 b2 0).take 2) [b0, b1, b2] 2 := by
  have hvalues : ∀ v ∈ [b0, b1, b2, 0], v < 2 ^ 6 := by
    simp only [List.forall_mem_cons]
    exact ⟨h0, h1, h2, by decide, List.forall_mem_nil _⟩
  have hbytes : base64Bytes b0 b1 b2 0 = (base64Bytes b0 b1 b2 0).take 2 ++ List.replicate 1 0 := by
    simp only [base64Bytes, hzero]
    rfl
  have hspelling := spelling_base64Bytes hvalues
  rw [hbytes] at hspelling
  exact hspelling.truncate (n := 3) (show 3 ≤ 4 by decide) rfl

/-! ## Base64: decoding -/

/-- **A group that is decoded is the encoding of what it is decoded to**, three bytes unless it is
the last one. -/
theorem base64DecodeGroup_sound {c0 c1 c2 c3 : UInt8} {last : Bool} {output : Bytes}
    (h : base64DecodeGroup c0 c1 c2 c3 last = .ok output) :
    [c0, c1, c2, c3] = base64Encode output ∧ (last = false → output.length = 3) := by
  obtain ⟨b0, hread0, hgroup⟩ := except_bind_eq_ok.mp h
  obtain ⟨b1, hread1, hcases⟩ := except_bind_eq_ok.mp hgroup
  obtain ⟨h0, rfl⟩ := isAlphabet_base64.readChar_eq_ok.mp hread0
  obtain ⟨h1, rfl⟩ := isAlphabet_base64.readChar_eq_ok.mp hread1
  dsimp only at hcases
  split_ifs at hcases with hpads hplace hlow hpad2 hpad3
  · -- One byte.
    cases hcases
    have hc2 : c2 = 61 := beq_iff_eq.mp hpad2
    have hc3 : c3 = 61 := by simpa [hpad2] using hpads
    have hlast : last = true := by simpa [hpad2] using hplace
    have hzero : b1 &&& 0x0F = 0 := by simpa [hpad2] using hlow
    have hdigits :=
      (spelling_one_byte _).digits_unique (by decide) (spelling_two_values h0 h1 hzero)
    subst hc2 hc3 hlast
    refine ⟨?_, nofun⟩
    show _ = ((base64Group _ 0 0).take 2).map (charAt base64Chars) ++ [61, 61]
    rw [hdigits]
    rfl
  · -- Two bytes.
    obtain ⟨b2, hread2, hthird⟩ := except_bind_eq_ok.mp hcases
    obtain ⟨h2, rfl⟩ := isAlphabet_base64.readChar_eq_ok.mp hread2
    split_ifs at hthird with hlow3
    cases hthird
    have hc3 : c3 = 61 := beq_iff_eq.mp hpad3
    have hlast : last = true := by simpa [hpad3] using hplace
    have hzero : b2 &&& 0x03 = 0 := by simpa [hpad3] using hlow3
    have hdigits :=
      (spelling_two_bytes _ _).digits_unique (by decide) (spelling_three_values h0 h1 h2 hzero)
    subst hc3 hlast
    refine ⟨?_, nofun⟩
    show _ = ((base64Group _ _ 0).take 3).map (charAt base64Chars) ++ [61]
    rw [hdigits]
    rfl
  · -- Three bytes.
    obtain ⟨b2, hread2, hthird⟩ := except_bind_eq_ok.mp hcases
    obtain ⟨h2, rfl⟩ := isAlphabet_base64.readChar_eq_ok.mp hread2
    split_ifs at hthird with hlow3
    obtain ⟨b3, hread3, hfourth⟩ := except_bind_eq_ok.mp hthird
    obtain ⟨h3, rfl⟩ := isAlphabet_base64.readChar_eq_ok.mp hread3
    cases hfourth
    have hvalues : ∀ v ∈ [b0, b1, b2, b3], v < 2 ^ 6 := by
      simp only [List.forall_mem_cons]
      exact ⟨h0, h1, h2, h3, List.forall_mem_nil _⟩
    have hdigits :=
      (spelling_base64Group _ _ _).digits_unique (by decide) (spelling_base64Bytes hvalues)
    refine ⟨?_, fun _ => rfl⟩
    show _ = (base64Group _ _ _).map (charAt base64Chars) ++ []
    rw [hdigits]
    rfl

/-- Three bytes are encoded apart from the rest. -/
theorem base64Encode_append {front : Bytes} (hfront : front.length = 3) (rest : Bytes) :
    base64Encode (front ++ rest) = base64Encode front ++ base64Encode rest := by
  obtain ⟨first, second, third, rfl⟩ := List.length_eq_three.mp hfront
  simp only [List.cons_append, List.nil_append, base64Encode, List.append_nil]

/-- **A text that is decoded is the encoding of what it is decoded to.** -/
theorem base64DecodeLoop_sound {text x : Bytes} (hgroups : text.length % 4 = 0)
    (h : base64DecodeLoop text = .ok x) : text = base64Encode x := by
  fun_induction base64DecodeLoop text generalizing x with
  | case1 c0 c1 c2 c3 rest ih =>
    obtain ⟨output, hgroup, hrest⟩ := except_bind_eq_ok.mp h
    obtain ⟨more, hmore, hx⟩ := except_bind_eq_ok.mp hrest
    cases hx
    obtain ⟨htext, hlength⟩ := base64DecodeGroup_sound hgroup
    have hgroups' : rest.length % 4 = 0 := by
      simp only [List.length_cons] at hgroups
      omega
    cases hcase : rest.isEmpty with
    | true =>
      obtain rfl := List.isEmpty_iff.mp hcase
      cases hmore
      rw [List.append_nil, htext]
    | false =>
      rw [base64Encode_append (hlength hcase), ← ih hgroups' hmore, ← htext]
      rfl
  | case2 text hshort =>
    cases h
    rcases text with - | ⟨c0, - | ⟨c1, - | ⟨c2, - | ⟨c3, rest⟩⟩⟩⟩
    · rfl
    · simp at hgroups
    · simp at hgroups
    · simp at hgroups
    · exact absurd rfl (hshort c0 c1 c2 c3 rest)

/-- The values of a group are read back from their characters. -/
theorem readChar_charAt {v : Nat} (hv : v < 2 ^ 6) :
    readChar base64Chars .invalidBase64 (charAt base64Chars v) = .ok v :=
  isAlphabet_base64.readChar_eq_ok.mpr ⟨hv, rfl⟩

/-- **A whole group is decoded to its bytes.** -/
theorem base64DecodeGroup_of_three {first second third : UInt8} {v0 v1 v2 v3 : Nat}
    (hgroup : base64Group first second third = [v0, v1, v2, v3]) (last : Bool) :
    base64DecodeGroup (charAt base64Chars v0) (charAt base64Chars v1) (charAt base64Chars v2)
      (charAt base64Chars v3) last = .ok [first, second, third] := by
  have hspelling := spelling_base64Group first second third
  rw [hgroup] at hspelling
  have hvalues := hspelling.values
  have hbytes := (spelling_base64Bytes hvalues).bytes_unique hspelling (by decide) (by decide)
  simp only [List.forall_mem_cons] at hvalues
  obtain ⟨h0, h1, h2, h3, -⟩ := hvalues
  have hne2 := isAlphabet_base64.charAt_ne h2
  have hne3 := isAlphabet_base64.charAt_ne h3
  simp only [base64DecodeGroup, readChar_charAt h0, readChar_charAt h1, readChar_charAt h2,
    readChar_charAt h3, except_ok_bind, beq_eq_false_iff_ne.mpr hne2, beq_eq_false_iff_ne.mpr hne3,
      hbytes,
    Bool.false_and, Bool.or_self, Bool.false_eq_true, if_false]

/-- **Two values and padding are decoded to their byte.** -/
theorem base64DecodeGroup_of_one {first : UInt8} {v0 v1 : Nat}
    (hgroup : (base64Group first 0 0).take 2 = [v0, v1]) :
    base64DecodeGroup (charAt base64Chars v0) (charAt base64Chars v1) 61 61 true = .ok [first] := by
  have hspelling := spelling_one_byte first
  rw [hgroup] at hspelling
  have hvalues := hspelling.values
  simp only [List.forall_mem_cons] at hvalues
  obtain ⟨h0, h1, -⟩ := hvalues
  have hzero : v1 &&& 0x0F = 0 := hspelling.low_zero [v0] (by decide)
  have hbytes := (spelling_two_values h0 h1 hzero).bytes_unique hspelling (by decide) (by decide)
  simp only [base64DecodeGroup, readChar_charAt h0, readChar_charAt h1, except_ok_bind, hzero,
    hbytes]
  rfl

/-- **Three values and padding are decoded to their bytes.** -/
theorem base64DecodeGroup_of_two {first second : UInt8} {v0 v1 v2 : Nat}
    (hgroup : (base64Group first second 0).take 3 = [v0, v1, v2]) :
    base64DecodeGroup (charAt base64Chars v0) (charAt base64Chars v1)
      (charAt base64Chars v2) 61 true = .ok [first, second] := by
  have hspelling := spelling_two_bytes first second
  rw [hgroup] at hspelling
  have hvalues := hspelling.values
  simp only [List.forall_mem_cons] at hvalues
  obtain ⟨h0, h1, h2, -⟩ := hvalues
  have hne2 := isAlphabet_base64.charAt_ne h2
  have hzero : v2 &&& 0x03 = 0 := hspelling.low_zero [v0, v1] (by decide)
  have hbytes := (spelling_three_values h0 h1 h2 hzero).bytes_unique hspelling (by decide)
    (by decide)
  simp only [base64DecodeGroup, readChar_charAt h0, readChar_charAt h1, readChar_charAt h2,
    except_ok_bind, hzero, hbytes, beq_eq_false_iff_ne.mpr hne2]
  rfl

theorem length_base64Encode_mod (x : Bytes) : (base64Encode x).length % 4 = 0 := by
  fun_induction base64Encode x with
  | case1 => rfl
  | case2 first => simp [base64Group]
  | case3 first second => simp [base64Group]
  | case4 first second third rest ih =>
    rw [List.length_append, List.length_map]
    show (4 + _) % 4 = 0
    omega

/-- **What is encoded is decoded again.** -/
theorem base64DecodeLoop_encode (x : Bytes) : base64DecodeLoop (base64Encode x) = .ok x := by
  fun_induction base64Encode x with
  | case1 => rfl
  | case2 first =>
    show (base64DecodeGroup _ _ 61 61 true >>= _) = _
    rw [base64DecodeGroup_of_one rfl]
    rfl
  | case3 first second =>
    show (base64DecodeGroup _ _ _ 61 true >>= _) = _
    rw [base64DecodeGroup_of_two rfl]
    rfl
  | case4 first second third rest ih =>
    show (base64DecodeGroup _ _ _ _ (base64Encode rest).isEmpty >>= fun output =>
      base64DecodeLoop (base64Encode rest) >>= fun more => .ok (output ++ more)) = _
    rw [base64DecodeGroup_of_three rfl, except_ok_bind, ih]
    rfl

/-- **Exactly the encoding of a byte string is decoded to it.** -/
theorem base64_decode_iff {text x : Bytes} : base64Decode text = .ok x ↔ text = base64Encode x := by
  unfold base64Decode
  constructor
  · intro h
    split_ifs at h with hgroups
    exact base64DecodeLoop_sound (not_not.mp hgroups) h
  · rintro rfl
    rw [if_neg (not_not.mpr (length_base64Encode_mod x)), base64DecodeLoop_encode]

/-! ## Base32: groups -/

theorem toNat_lt_of_mem {x : Bytes} : ∀ d ∈ x.map UInt8.toNat, d < 2 ^ 8 := by
  intro d hd
  obtain ⟨b, -, rfl⟩ := List.mem_map.mp hd
  exact b.toNat_lt

/-- **The digits of up to five bytes**, moved to the top of forty bits. -/
theorem spelling_digits (x : Bytes) (count z : Nat) (hx : x.length ≤ 5) (hcount : count ≤ 8)
    (hwidth : 5 * count = 8 * x.length + z) :
    Spelling 5 x (digitsFromTop 5 40 count (pack 8 (x.map UInt8.toNat) <<< (8 * (5 - x.length))))
      z := by
  refine ⟨digitsFromTop_lt, ?_⟩
  have hpack := bits_pack (w := 8) (toNat_lt_of_mem (x := x))
  rw [List.length_map] at hpack
  have htop := bits_shiftLeft (8 * x.length) (8 * (5 - x.length)) (pack 8 (x.map UInt8.toNat))
  have hforty : 8 * x.length + 8 * (5 - x.length) = 40 := by omega
  have hzeros : 8 * (5 - x.length) = z + (40 - 5 * count) := by omega
  rw [hforty, hpack] at htop
  rw [flatMap_bits_digitsFromTop _ (by omega), htop, hzeros, List.replicate_add,
    ← List.append_assoc, List.take_left']
  · rfl
  · rw [List.length_append, length_flatMap_bits, List.length_map, List.length_replicate, hwidth]

variable {values : List Nat}

/-- **The bytes of up to eight digits**, moved to the top of forty bits, when the bits that are left
are zeros. -/
theorem spelling_bytes {m z : Nat} (hvalues : ∀ v ∈ values, v < 2 ^ 5)
    (hlength : values.length ≤ 8) (hwidth : 5 * values.length = 8 * m + z)
    (hzero : pack 5 values &&& (2 ^ z - 1) = 0) :
    Spelling 5 ((digitsFromTop 8 40 m (pack 5 values <<< (5 * (8 - values.length)))).map
      UInt8.ofNat) values z := by
  refine ⟨hvalues, ?_⟩
  have hpack := bits_pack hvalues
  rw [hwidth, bits_add, bits_eq_replicate_iff.mpr hzero] at hpack
  have htop := bits_shiftLeft (5 * values.length) (5 * (8 - values.length)) (pack 5 values)
  have hforty : 5 * values.length + 5 * (8 - values.length) = 40 := by omega
  rw [hforty, bits_pack hvalues, ← hpack, List.append_assoc] at htop
  rw [byteBits_ofNat (digitsFromTop_lt (w := 8)), flatMap_bits_digitsFromTop _ (by omega), htop,
    List.take_left' (length_bits ..), hpack]

/-- Five bytes in front are encoded apart from the rest. -/
theorem base32Encode_group {front rest : Bytes} (hfront : front.length = 5)
    (h : Spelling 5 front values 0) (padding : Bool) :
    base32Encode (front ++ rest) padding = values.map (charAt base32Chars) ++
      base32Encode rest padding := by
  have hdigits := spelling_digits front 8 0 (by omega) (by decide) (by omega)
  rw [hfront, Nat.sub_self, Nat.mul_zero, Nat.shiftLeft_zero] at hdigits
  rw [base32Encode, if_pos (by rw [List.length_append]; omega), List.take_left' hfront,
    List.drop_left' hfront, hdigits.digits_unique (by decide) h]

/-- Fewer than five bytes are encoded as the digits that hold them, and padding. -/
theorem base32Encode_tail {x : Bytes} {z : Nat} (hpos : x ≠ []) (hx : x.length < 5)
    (h : Spelling 5 x values z) (hz : z < 5) (padding : Bool) :
    base32Encode x padding =
      values.map (charAt base32Chars) ++ if padding then List.replicate (8 - values.length) 61
        else [] := by
  have hlength := h.length_eq
  have hcount : (x.length * 8 + 4) / 5 = values.length := by omega
  have hdigits := spelling_digits x values.length z (by omega) (by omega) (by omega)
  rw [base32Encode, if_neg (by omega), if_pos (by simpa using hpos)]
  simp only [hcount]
  rw [hdigits.digits_unique (by decide) h]

/-! ## Base32: decoding -/

/-- Eight characters in front are decoded apart from the rest. -/
theorem base32DecodeLoop_group {front rest : Bytes} (hfront : front.length = 5)
    (h : Spelling 5 front values 0) :
    base32DecodeLoop (values.map (charAt base32Chars) ++ rest) =
      base32DecodeLoop rest >>= fun more => .ok (front ++ more) := by
  have hlength := h.length_eq
  have hvalues : (values.map (charAt base32Chars)).length = 8 := by
    rw [List.length_map]
    omega
  have hread := (isAlphabet_base32.mapM_readChar (e := .invalidBase32)).mpr ⟨h.values, rfl⟩
  have hbytes := spelling_bytes (m := 5) (z := 0) h.values (by omega) (by omega) (Nat.and_zero _)
  rw [show 5 * (8 - values.length) = 0 by omega, Nat.shiftLeft_zero] at hbytes
  rw [base32DecodeLoop, if_pos (by rw [List.length_append]; omega), List.take_left' hvalues,
    List.drop_left' hvalues, hread, except_ok_bind, hbytes.bytes_unique h (by decide) (by decide)]

/-- Fewer than eight characters are decoded to the bytes that their digits hold. -/
theorem base32DecodeLoop_tail {x : Bytes} {z : Nat} (hpos : x ≠ []) (hx : x.length < 5)
    (h : Spelling 5 x values z) (hz : z < 5) :
    base32DecodeLoop (values.map (charAt base32Chars)) = .ok x := by
  have hlength := h.length_eq
  have hxpos := List.length_pos_iff.mpr hpos
  have hread := (isAlphabet_base32.mapM_readChar (e := .invalidBase32)).mpr ⟨h.values, rfl⟩
  have hunused : values.length * 5 % 8 = z := by omega
  have hcount : values.length * 5 / 8 = x.length := by omega
  have hzero : pack 5 values &&& (2 ^ z - 1) = 0 := by
    have hpack := bits_pack h.values
    rw [hlength, bits_add, h.total] at hpack
    refine bits_eq_replicate_iff.mp (List.append_inj_right' hpack ?_)
    rw [length_bits, List.length_replicate]
  have hbytes := spelling_bytes h.values (by omega) hlength hzero
  rw [base32DecodeLoop, if_neg (by rw [List.length_map]; omega),
    if_pos (by rw [List.length_map]; omega), hread, except_ok_bind]
  simp only [List.length_map, hunused, hcount, Nat.one_shiftLeft, hzero, ne_eq, not_true_eq_false,
    and_false, if_false]
  rw [hbytes.bytes_unique h (by omega) (by omega)]

/-- The lengths at which a digit could be left out. -/
theorem unusedBits_lt : ∀ n < 8, n % 8 ≠ 1 ∧ n % 8 ≠ 3 ∧ n % 8 ≠ 6 → n * 5 % 8 < 5 := by decide

/-- **A text that is decoded is the encoding of what it is decoded to**, when its length is that of
an encoding. -/
theorem base32DecodeLoop_sound {text x : Bytes}
    (hrest : text.length % 8 ≠ 1 ∧ text.length % 8 ≠ 3 ∧ text.length % 8 ≠ 6)
    (h : base32DecodeLoop text = .ok x) : text = base32Encode x false := by
  fun_induction base32DecodeLoop text generalizing x with
  | case1 text hlong ih =>
    obtain ⟨values, hread, hback⟩ := except_bind_eq_ok.mp h
    obtain ⟨more, hmore, hx⟩ := except_bind_eq_ok.mp hback
    obtain ⟨hvalues, htext⟩ := isAlphabet_base32.mapM_readChar.mp hread
    cases hx
    have hlength : values.length = 8 := by
      have htake := congrArg List.length htext
      rw [List.length_take, List.length_map] at htake
      omega
    have hbytes := spelling_bytes (m := 5) (z := 0) hvalues (by omega) (by omega) (Nat.and_zero _)
    rw [show 5 * (8 - values.length) = 0 by omega, Nat.shiftLeft_zero] at hbytes
    have hdrop : (text.drop 8).length % 8 = text.length % 8 := by
      rw [List.length_drop]
      omega
    rw [base32Encode_group (by simp) hbytes, ← htext, ← ih (by rwa [hdrop]) hmore,
      List.take_append_drop]
  | case2 text hshort hne =>
    obtain ⟨values, hread, htail⟩ := except_bind_eq_ok.mp h
    obtain ⟨hvalues, rfl⟩ := isAlphabet_base32.mapM_readChar.mp hread
    dsimp only at htail
    split_ifs at htail with hunused
    cases htail
    rw [List.length_map] at hshort hne hrest
    have hzero : pack 5 values &&& (2 ^ (values.length * 5 % 8) - 1) = 0 := by
      by_cases hz : values.length * 5 % 8 = 0
      · rw [hz]
        exact Nat.and_zero _
      · rw [List.length_map, Nat.one_shiftLeft] at hunused
        exact not_not.mp fun hne => hunused ⟨hz, hne⟩
    have hbytes := spelling_bytes (m := values.length * 5 / 8) hvalues (by omega) (by omega) hzero
    rw [List.length_map]
    have hlength := hbytes.length_eq
    have hsome : 0 < values.length * 5 / 8 := by omega
    refine ((base32Encode_tail ?_ ?_ hbytes (unusedBits_lt _ (by omega) hrest) false).trans
      (List.append_nil _)).symm
    · exact List.length_pos_iff.mp (by omega)
    · omega
  | case3 text hshort hempty =>
    cases h
    obtain rfl := List.length_eq_zero_iff.mp (not_not.mp hempty)
    rw [base32Encode, if_neg (by decide), if_neg (by decide)]

/-- The digits of a group, or of the bytes at the end. -/
theorem exists_spelling {x : Bytes} (hx : x.length ≤ 5) :
    ∃ values z, z < 5 ∧ Spelling 5 x values z := by
  refine ⟨_, 5 * ((8 * x.length + 4) / 5) - 8 * x.length, by omega,
    spelling_digits x ((8 * x.length + 4) / 5) _ hx (by omega) (by omega)⟩

/-- Bytes in groups of five, with fewer than five at the end. -/
@[elab_as_elim]
theorem groupsOfFive {motive : Bytes → Prop} (nil : motive [])
    (tail : ∀ (x : Bytes) (values : List Nat) (z : Nat), x ≠ [] → x.length < 5 → z < 5 →
      Spelling 5 x values z → motive x)
    (group : ∀ (front rest : Bytes) (values : List Nat), front.length = 5 →
      Spelling 5 front values 0 → motive rest → motive (front ++ rest)) (x : Bytes) : motive x := by
  induction hn : x.length using Nat.strong_induction_on generalizing x with
  | _ n ih =>
    by_cases hlong : 5 ≤ x.length
    · have hfront : (x.take 5).length = 5 := List.length_take_of_le hlong
      obtain ⟨values, z, hz, hspelling⟩ := exists_spelling (Nat.le_of_eq hfront)
      have hlength := hspelling.length_eq
      obtain rfl : z = 0 := by omega
      rw [← List.take_append_drop 5 x]
      exact group _ _ values hfront hspelling (ih _ (by rw [List.length_drop]; omega) _ rfl)
    · by_cases hempty : x = []
      · exact hempty ▸ nil
      · obtain ⟨values, z, hz, hspelling⟩ := exists_spelling (x := x) (by omega)
        exact tail x values z hempty (by omega) hz hspelling

theorem base32Encode_nil (padding : Bool) : base32Encode [] padding = [] := by
  rw [base32Encode, if_neg (by decide), if_neg (by decide)]

/-- **What is encoded is decoded again.** -/
theorem base32DecodeLoop_encode (x : Bytes) : base32DecodeLoop (base32Encode x false) = .ok x := by
  induction x using groupsOfFive with
  | nil =>
    rw [base32Encode_nil, base32DecodeLoop, if_neg (by decide), if_neg (by decide)]
  | tail x values z hpos hshort hz hspelling =>
    rw [base32Encode_tail hpos hshort hspelling hz]
    exact (congrArg base32DecodeLoop (List.append_nil _)).trans
      (base32DecodeLoop_tail hpos hshort hspelling hz)
  | group front rest values hfront hspelling ih =>
    rw [base32Encode_group hfront hspelling, base32DecodeLoop_group hfront hspelling, ih]
    rfl

/-- The lengths of encodings without padding. -/
theorem length_base32Encode_mod (x : Bytes) :
    (base32Encode x false).length % 8 ≠ 1 ∧ (base32Encode x false).length % 8 ≠ 3 ∧
      (base32Encode x false).length % 8 ≠ 6 := by
  induction x using groupsOfFive with
  | nil =>
    rw [base32Encode_nil]
    decide
  | tail x values z hpos hshort hz hspelling =>
    have hlength := hspelling.length_eq
    have hxpos := List.length_pos_iff.mpr hpos
    rw [base32Encode_tail hpos hshort hspelling hz, if_neg Bool.false_ne_true, List.append_nil,
      List.length_map]
    omega
  | group front rest values hfront hspelling ih =>
    have hlength := hspelling.length_eq
    rw [base32Encode_group hfront hspelling, List.length_append, List.length_map]
    omega

/-- Padding stands behind the encoding without it, and fills up a group. -/
theorem base32Encode_padding (x : Bytes) :
    base32Encode x true = base32Encode x false ++
      List.replicate ((8 - (base32Encode x false).length % 8) % 8) 61 := by
  induction x using groupsOfFive with
  | nil =>
    rw [base32Encode_nil, base32Encode_nil]
    rfl
  | tail x values z hpos hshort hz hspelling =>
    have hlength := hspelling.length_eq
    have hxpos := List.length_pos_iff.mpr hpos
    have hcount : (8 - values.length % 8) % 8 = 8 - values.length := by omega
    rw [base32Encode_tail hpos hshort hspelling hz, base32Encode_tail hpos hshort hspelling hz,
      if_neg Bool.false_ne_true, List.append_nil, List.length_map, hcount, if_pos rfl]
  | group front rest values hfront hspelling ih =>
    have hlength := hspelling.length_eq
    rw [base32Encode_group hfront hspelling, base32Encode_group hfront hspelling, ih,
      List.append_assoc, List.length_append, List.length_map]
    congr 3
    omega

/-- An encoding without padding holds no `'='`. -/
theorem base32Encode_ne (x : Bytes) : ∀ c ∈ base32Encode x false, c ≠ 61 := by
  have hchars {values : List Nat} (hvalues : ∀ v ∈ values, v < 2 ^ 5) :
      ∀ c ∈ values.map (charAt base32Chars), c ≠ 61 := by
    intro c hc
    obtain ⟨v, hv, rfl⟩ := List.mem_map.mp hc
    exact isAlphabet_base32.charAt_ne (hvalues v hv)
  induction x using groupsOfFive with
  | nil =>
    rw [base32Encode_nil]
    exact List.forall_mem_nil _
  | tail x values z hpos hshort hz hspelling =>
    rw [base32Encode_tail hpos hshort hspelling hz, if_neg Bool.false_ne_true, List.append_nil]
    exact hchars hspelling.values
  | group front rest values hfront hspelling ih =>
    rw [base32Encode_group hfront hspelling]
    exact List.forall_mem_append.mpr ⟨hchars hspelling.values, ih⟩

theorem takeWhile_pads {data : Bytes} (hne : ∀ c ∈ data, c ≠ 61) (k : Nat) :
    (data ++ List.replicate k 61).takeWhile (· != 61) = data := by
  rw [List.takeWhile_append_of_pos fun c hc => bne_iff_ne.mpr (hne c hc)]
  cases k with
  | zero => exact List.append_nil _
  | succ k => rw [List.replicate_succ, List.takeWhile_cons_of_neg (by decide), List.append_nil]

theorem dropWhile_pads {data : Bytes} (hne : ∀ c ∈ data, c ≠ 61) (k : Nat) :
    (data ++ List.replicate k 61).dropWhile (· != 61) = List.replicate k 61 := by
  rw [List.dropWhile_append_of_pos fun c hc => bne_iff_ne.mpr (hne c hc)]
  cases k with
  | zero => rfl
  | succ k => rw [List.replicate_succ, List.dropWhile_cons_of_neg (by decide)]

/-- **Exactly the encodings of a byte string, with padding and without, are decoded to it.** -/
theorem base32_decode_iff {text x : Bytes} :
    base32Decode text = .ok x ↔ text = base32Encode x true ∨ text = base32Encode x false := by
  have hmod := length_base32Encode_mod x
  have hne := base32Encode_ne x
  constructor
  · intro h
    have htext : text.takeWhile (· != 61) ++ text.dropWhile (· != 61) = text :=
      List.takeWhile_append_dropWhile
    unfold base32Decode at h
    dsimp only at h
    split_ifs at h with hpads hothers hrest hcount hrest
    · -- Padding that fills up a group.
      refine .inl ?_
      have hdata := base32DecodeLoop_sound (by omega) h
      have hall : text.dropWhile (· != 61) =
        List.replicate (text.dropWhile (· != 61)).length 61 := by
        refine List.eq_replicate_of_mem fun c hc => ?_
        by_contra hc61
        exact hothers (List.any_eq_true.mpr ⟨c, hc, bne_iff_ne.mpr hc61⟩)
      have hwhole : (8 - (text.takeWhile (· != 61)).length % 8) % 8 =
        (text.dropWhile (· != 61)).length := by
        omega
      rw [base32Encode_padding, ← hdata, hwhole, ← hall, htext]
    · refine .inr ?_
      rw [not_not.mp hpads, List.append_nil] at htext
      rw [htext] at h
      exact base32DecodeLoop_sound (by omega) h
  · rintro (rfl | rfl)
    · -- No padding is written behind whole groups.
      rw [base32Encode_padding, base32Decode, takeWhile_pads hne, dropWhile_pads hne]
      by_cases hwhole : (base32Encode x false).length % 8 = 0
      · rw [hwhole, Nat.sub_zero, Nat.mod_self, List.replicate_zero, List.append_nil]
        simp only [hwhole, ne_eq, not_true_eq_false, if_false]
        rw [if_neg (by decide), base32DecodeLoop_encode]
      · have hcount : (8 - (base32Encode x false).length % 8) % 8 =
          8 - (base32Encode x false).length % 8 := by
          omega
        rw [hcount, if_pos (by rw [ne_eq, List.replicate_eq_nil_iff]; omega), if_neg (by simp),
          if_neg (by omega), if_neg (by rw [List.length_replicate]; exact not_not.mpr rfl),
            base32DecodeLoop_encode]
    · have hdrop := dropWhile_pads hne 0
      have htake := takeWhile_pads hne 0
      rw [List.replicate_zero, List.append_nil] at hdrop htake
      rw [base32Decode, hdrop, htake, if_neg (not_not.mpr rfl), if_neg (by omega),
        base32DecodeLoop_encode]

/-- **Base64 and Base32 decode exactly their canonical encodings**: what is encoded is decoded to
the same bytes, and no other text is decoded to them. -/
theorem decode_exactly_encodings (x : Bytes) :
    base64Decode (base64Encode x) = .ok x ∧
      (∀ text, base64Decode text = .ok x → text = base64Encode x) ∧
      (∀ padding, base32Decode (base32Encode x padding) = .ok x) ∧
      ∀ text, base32Decode text = .ok x → text = base32Encode x true ∨
        text = base32Encode x false := by
  refine ⟨base64_decode_iff.mpr rfl, fun text => base64_decode_iff.mp, fun padding => ?_,
    fun text => base32_decode_iff.mp⟩
  cases padding with
  | false => exact base32_decode_iff.mpr (.inr rfl)
  | true => exact base32_decode_iff.mpr (.inl rfl)

end Libca.Crypto
