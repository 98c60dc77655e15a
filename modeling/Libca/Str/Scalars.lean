import Libca.Str.Utf8

/-!
# Scalar values (`str/utf8_util.cpp` 20-49)

* `decodeCodePoint`, `validContinuation`: decoding the sequence at the front of a buffer.
* `EncodingOf`: a buffer is the concatenation of the encodings of some scalar values.
* `decodeCodePoint_utf8EncodeChar`, `encode_injective`: an encoded character is decoded to itself,
  so a buffer encodes one string of characters at most.
* `isValid_exact`: **the validity check is exact**: it accepts the concatenations of encoded scalar
  values, whose decomposition is unique, counted and decoded piece by piece.
-/

namespace Libca.Str

open Common

/-- A Unicode scalar value. -/
def IsScalar (n : Nat) : Prop := n < 0xD800 ∨ (0xDFFF < n ∧ n ≤ 0x10FFFF)

instance (n : Nat) : Decidable (IsScalar n) := inferInstanceAs (Decidable (_ ∨ _))

/-! ## Decoding -/

/-- The low six bits of `bytes[i]`, shifted to their place. -/
def trailBits (bytes : Bytes) (i shift : Nat) : Nat :=
  ((bytes.getD i 0).toNat &&& 0x3F) <<< shift

/-- `utf8_decode_code_point`. -/
def decodeCodePoint (bytes : Bytes) : Nat :=
  let b0 := bytes.getD 0 0
  if b0 &&& 0x80 = 0 then b0.toNat
  else if b0 &&& 0xE0 = 0xC0 then (b0.toNat &&& 0x1F) <<< 6 ||| trailBits bytes 1 0
  else if b0 &&& 0xF0 = 0xE0 then
    (b0.toNat &&& 0x0F) <<< 12 ||| trailBits bytes 1 6 ||| trailBits bytes 2 0
  else if b0 &&& 0xF8 = 0xF0 then
    (b0.toNat &&& 0x07) <<< 18 ||| trailBits bytes 1 12 ||| trailBits bytes 2 6 |||
      trailBits bytes 3 0
  else 0

/-- `utf8_valid_continuation`. -/
def validContinuation (bytes : Bytes) (clen : Nat) : Bool :=
  ((bytes.take clen).drop 1).all fun b => b &&& 0xC0 == 0x80

/-- A whole sequence is decoded to its value. -/
theorem decodeCodePoint_eq {b : UInt8} {rest : Bytes} {len : Nat} (hlen : codePointBytes b = len)
    (h0 : len ≠ 0) (hle : len ≤ rest.length + 1) :
    decodeCodePoint (b :: rest) = sequenceValue (b :: rest) len := by
  subst hlen
  unfold codePointBytes at *
  unfold decodeCodePoint
  simp only [List.getD_cons_zero]
  split_ifs at * with h1 h2 h3 h4
  · rfl
  · obtain ⟨b1, rest, rfl⟩ := List.exists_cons_of_ne_nil (l := rest) (by rintro rfl; simp at hle)
    simp [sequenceValue, trailBits]
  · obtain ⟨b1, rest, rfl⟩ := List.exists_cons_of_ne_nil (l := rest) (by rintro rfl; simp at hle)
    obtain ⟨b2, rest, rfl⟩ := List.exists_cons_of_ne_nil (l := rest) (by rintro rfl; simp at hle)
    simp [sequenceValue, trailBits]
  · obtain ⟨b1, rest, rfl⟩ := List.exists_cons_of_ne_nil (l := rest) (by rintro rfl; simp at hle)
    obtain ⟨b2, rest, rfl⟩ := List.exists_cons_of_ne_nil (l := rest) (by rintro rfl; simp at hle)
    obtain ⟨b3, rest, rfl⟩ := List.exists_cons_of_ne_nil (l := rest) (by rintro rfl; simp at hle)
    simp [sequenceValue, trailBits]
  · exact absurd rfl h0

/-- The value of an encoded character is its code point. -/
theorem sequenceValue_utf8EncodeChar (c : Char) (rest : Bytes) :
    sequenceValue (String.utf8EncodeChar c ++ rest) (String.utf8EncodeChar c).length = c.toNat := by
  have hc := toNat_scalar c
  have hlow := toNat_ofNat_byte (n := c.toNat % 64 + 128) (by omega)
  have hmid := toNat_ofNat_byte (n := c.toNat / 64 % 64 + 128) (by omega)
  have htop := toNat_ofNat_byte (n := c.toNat / 4096 % 64 + 128) (by omega)
  obtain h | ⟨h, h'⟩ | ⟨h, h'⟩ | h := toNat_cases c
  · rw [utf8EncodeChar_one h]
    exact toNat_ofNat_byte (by omega)
  · rw [utf8EncodeChar_two h h']
    have h0 := toNat_ofNat_byte (n := c.toNat / 64 + 192) (by omega)
    simp only [List.cons_append, List.nil_append, List.length_cons, List.length_nil, Nat.zero_add,
      Nat.reduceAdd]
    rw [sequenceValue_two, h0, hlow]
    omega
  · rw [utf8EncodeChar_three h h']
    have h0 := toNat_ofNat_byte (n := c.toNat / 4096 + 224) (by omega)
    simp only [List.cons_append, List.nil_append, List.length_cons, List.length_nil, Nat.zero_add,
      Nat.reduceAdd]
    rw [sequenceValue_three, h0, hmid, hlow]
    omega
  · rw [utf8EncodeChar_four h]
    have h0 := toNat_ofNat_byte (n := c.toNat / 262144 + 240) (by omega)
    simp only [List.cons_append, List.nil_append, List.length_cons, List.length_nil, Nat.zero_add,
      Nat.reduceAdd]
    rw [sequenceValue_four, h0, htop, hmid, hlow]
    omega

/-- **An encoded character is decoded to itself**, whatever follows it. -/
theorem decodeCodePoint_utf8EncodeChar (c : Char) (rest : Bytes) :
    decodeCodePoint (String.utf8EncodeChar c ++ rest) = c.toNat := by
  have hseq := sequenceLength_eq_some.mp (sequenceLength_utf8EncodeChar c rest)
  obtain ⟨-, hlen, h0, hle, -, -⟩ := hseq
  rw [← sequenceValue_utf8EncodeChar c rest]
  cases hc : String.utf8EncodeChar c with
  | nil => exact absurd hc (utf8EncodeChar_ne_nil c)
  | cons b bs =>
    rw [hc] at hlen h0 hle
    exact decodeCodePoint_eq hlen.symm h0 (by simp)

/-- A buffer encodes one string of characters at most. -/
theorem encode_injective {cs ds : List Char} (h : encode cs = encode ds) : cs = ds := by
  induction cs generalizing ds with
  | nil =>
    cases ds with
    | nil => rfl
    | cons d ds => exact absurd h.symm (encode_ne_nil (List.cons_ne_nil d ds))
  | cons c cs ih =>
    cases ds with
    | nil => exact absurd h (encode_ne_nil (List.cons_ne_nil c cs))
    | cons d ds =>
      rw [encode_cons, encode_cons] at h
      have hcd : c = d := by
        have hdecode := congrArg decodeCodePoint h
        rw [decodeCodePoint_utf8EncodeChar, decodeCodePoint_utf8EncodeChar] at hdecode
        exact Char.toNat_inj.mp hdecode
      subst hcd
      rw [ih (List.append_cancel_left h)]

/-! ## Exactness -/

/-- The encodings of some code points, one after the other. -/
def encodings (cps : List Nat) : Bytes := cps.flatMap fun cp => (encodeCodePoint cp).getD []

/-- A buffer is the concatenation of the encodings of some scalar values. -/
def EncodingOf (cps : List Nat) (data : Bytes) : Prop :=
  (∀ cp ∈ cps, IsScalar cp) ∧ data = encodings cps

theorem encodings_toNat (cs : List Char) : encodings (cs.map Char.toNat) = encode cs := by
  unfold encodings encode
  rw [List.flatMap_map]
  refine List.flatMap_congr fun c _ => ?_
  rw [encodeCodePoint_toNat, Option.getD_some]

/-- Scalar values are the code points of characters. -/
theorem exists_chars {cps : List Nat} (h : ∀ cp ∈ cps, IsScalar cp) :
    ∃ cs : List Char, cs.map Char.toNat = cps := by
  refine ⟨cps.map Char.ofNat, ?_⟩
  rw [List.map_map]
  refine (List.map_congr_left fun cp hcp => ?_).trans (List.map_id cps)
  refine toNat_ofNat ?_
  rcases h cp hcp with hcp | hcp
  · exact .inl hcp
  · exact .inr ⟨hcp.1, by omega⟩

theorem encodingOf_iff {cps : List Nat} {data : Bytes} :
    EncodingOf cps data ↔ ∃ cs : List Char, cs.map Char.toNat = cps ∧ data = encode cs := by
  constructor
  · rintro ⟨hscalar, rfl⟩
    obtain ⟨cs, rfl⟩ := exists_chars hscalar
    exact ⟨cs, rfl, encodings_toNat cs⟩
  · rintro ⟨cs, rfl, rfl⟩
    refine ⟨fun cp hcp => ?_, (encodings_toNat cs).symm⟩
    obtain ⟨c, -, rfl⟩ := List.mem_map.mp hcp
    rcases toNat_scalar c with hc | hc
    · exact .inl hc
    · exact .inr ⟨hc.1, by omega⟩

/-- **The validity check is exact.** It accepts the concatenations of encoded scalar values; such a
decomposition is unique, its length is what is counted, and each piece, where it stands, is decoded
to its scalar value. Nothing is counted in another buffer. -/
theorem isValid_exact (data : Bytes) :
    (isValid data = true ↔ ∃ cps, EncodingOf cps data) ∧
      (∀ cps, EncodingOf cps data →
        (∀ cps', EncodingOf cps' data → cps' = cps) ∧ countCodePoints data = cps.length ∧
          ∀ before cp after, cps = before ++ cp :: after →
            decodeCodePoint (data.drop (encodings before).length) = cp) ∧
      (isValid data = false → data ≠ [] → countCodePoints data = 0) := by
  refine ⟨?_, ?_, ?_⟩
  · rw [isValid_iff]
    constructor
    · rintro ⟨cs, rfl⟩
      exact ⟨_, encodingOf_iff.mpr ⟨cs, rfl, rfl⟩⟩
    · rintro ⟨cps, h⟩
      obtain ⟨cs, -, rfl⟩ := encodingOf_iff.mp h
      exact isUtf8_encode cs
  · intro cps h
    obtain ⟨cs, rfl, rfl⟩ := encodingOf_iff.mp h
    refine ⟨fun cps' h' => ?_, ?_, fun before cp after hsplit => ?_⟩
    · obtain ⟨ds, rfl, hds⟩ := encodingOf_iff.mp h'
      rw [encode_injective hds]
    · rw [countCodePoints, countLoop_encode, Option.getD_some, List.length_map]
    · obtain ⟨bs, es, rfl, rfl, hes⟩ := List.map_eq_append_iff.mp hsplit
      obtain ⟨c, es, rfl, rfl, rfl⟩ := List.map_eq_cons_iff.mp hes
      rw [encodings_toNat, encode_append, List.drop_left, encode_cons,
        decodeCodePoint_utf8EncodeChar]
  · intro hinvalid hne
    rw [countCodePoints_eq_zero hne, ← isValid_iff, hinvalid]
    exact Bool.false_ne_true

end Libca.Str
