import Libca.Common.Bytes

/-!
# UTF-8 (`str/utf8_util.cpp` 8-155)

The encoding of characters is Lean's own (`String.utf8EncodeChar`); a byte string is valid when it
encodes some characters.

* `encodeCodePoint`, `codePointBytes`, `sequenceValue`, `sequenceValid`, `countCodePoints`,
  `isValid`: the functions of the string module, on bytes.
* `encodeCodePoint_toNat`: a code point is encoded as Lean encodes its character.
* `isValid_iff`: the validity check accepts the encodings of characters and nothing else.
* `intern`, `buildOrEmpty`: what the arena and the builder keep of a byte string, which is the
  string itself when it is valid and nothing otherwise.
-/

namespace Libca.Str

open Common

/-! ## Encoded characters -/

/-- The UTF-8 encoding of a string of characters. -/
def encode (cs : List Char) : Bytes := cs.flatMap String.utf8EncodeChar

/-- The bytes encode some characters. -/
def IsUtf8 (bs : Bytes) : Prop := ∃ cs, bs = encode cs

@[simp] theorem encode_nil : encode [] = [] := rfl

@[simp] theorem encode_cons (c : Char) (cs : List Char) :
    encode (c :: cs) = String.utf8EncodeChar c ++ encode cs := rfl

@[simp] theorem encode_append (cs ds : List Char) : encode (cs ++ ds) = encode cs ++ encode ds :=
  List.flatMap_append

theorem isUtf8_nil : IsUtf8 [] := ⟨[], rfl⟩

theorem isUtf8_encode (cs : List Char) : IsUtf8 (encode cs) := ⟨cs, rfl⟩

variable {bs : Bytes}

variable {as : Bytes}

theorem IsUtf8.append (ha : IsUtf8 as) (hb : IsUtf8 bs) : IsUtf8 (as ++ bs) := by
  obtain ⟨cs, rfl⟩ := ha
  obtain ⟨ds, rfl⟩ := hb
  exact ⟨cs ++ ds, (encode_append cs ds).symm⟩

/-- The code point of a character is no surrogate and below `0x110000`. -/
theorem toNat_scalar (c : Char) : c.toNat < 0xD800 ∨ 0xDFFF < c.toNat ∧ c.toNat < 0x110000 :=
  c.valid

variable {n : Nat}

/-- The character of a code point that is no surrogate. -/
theorem toNat_ofNat (h : n < 0xD800 ∨ 0xDFFF < n ∧ n < 0x110000) : (Char.ofNat n).toNat = n := by
  have hv : n.isValidChar := h
  rw [Char.ofNat, dif_pos hv]
  rfl

variable {c : Char}

theorem utf8EncodeChar_one (h : c.toNat < 0x80) : String.utf8EncodeChar c = [UInt8.ofNat c.toNat] :=
  if_pos (Nat.le_of_lt_succ h)

theorem utf8EncodeChar_two (h : 0x80 ≤ c.toNat) (h' : c.toNat < 0x800) :
    String.utf8EncodeChar c =
      [UInt8.ofNat (c.toNat / 64 + 192), UInt8.ofNat (c.toNat % 64 + 128)] := by
  have hmod : c.toNat / 64 % 32 = c.toNat / 64 := by omega
  unfold String.utf8EncodeChar
  simp only [show c.val.toNat = c.toNat from rfl]
  rw [if_neg (by omega), if_pos (by omega), hmod]

theorem utf8EncodeChar_three (h : 0x800 ≤ c.toNat) (h' : c.toNat < 0x10000) :
    String.utf8EncodeChar c = [UInt8.ofNat (c.toNat / 4096 + 224),
      UInt8.ofNat (c.toNat / 64 % 64 + 128), UInt8.ofNat (c.toNat % 64 + 128)] := by
  have hmod : c.toNat / 4096 % 16 = c.toNat / 4096 := by omega
  unfold String.utf8EncodeChar
  simp only [show c.val.toNat = c.toNat from rfl]
  rw [if_neg (by omega), if_neg (by omega), if_pos (by omega), hmod]

theorem utf8EncodeChar_four (h : 0x10000 ≤ c.toNat) :
    String.utf8EncodeChar c = [UInt8.ofNat (c.toNat / 262144 + 240),
      UInt8.ofNat (c.toNat / 4096 % 64 + 128), UInt8.ofNat (c.toNat / 64 % 64 + 128),
      UInt8.ofNat (c.toNat % 64 + 128)] := by
  have hc := toNat_scalar c
  have hmod : c.toNat / 262144 % 8 = c.toNat / 262144 := by omega
  unfold String.utf8EncodeChar
  simp only [show c.val.toNat = c.toNat from rfl]
  rw [if_neg (by omega), if_neg (by omega), if_neg (by omega), hmod]

/-- The four lengths of an encoded character. -/
theorem toNat_cases (c : Char) : c.toNat < 0x80 ∨ (0x80 ≤ c.toNat ∧ c.toNat < 0x800) ∨
    (0x800 ≤ c.toNat ∧ c.toNat < 0x10000) ∨ 0x10000 ≤ c.toNat := by
  omega

/-- A character of one byte, or one all of whose bytes are outside ASCII. -/
theorem utf8EncodeChar_ascii_or (c : Char) :
    (c.toNat < 0x80 ∧ String.utf8EncodeChar c = [UInt8.ofNat c.toNat]) ∨
      (0x80 ≤ c.toNat ∧ ∀ b ∈ String.utf8EncodeChar c, 0x80 ≤ b.toNat) := by
  have hc := toNat_scalar c
  obtain h | ⟨h, h'⟩ | ⟨h, h'⟩ | h := toNat_cases c
  · exact .inl ⟨h, utf8EncodeChar_one h⟩
  · refine .inr ⟨h, ?_⟩
    rw [utf8EncodeChar_two h h']
    simp only [List.mem_cons, List.not_mem_nil, or_false]
    rintro b (rfl | rfl) <;> simp only [UInt8.toNat_ofNat'] <;> omega
  · refine .inr ⟨by omega, ?_⟩
    rw [utf8EncodeChar_three h h']
    simp only [List.mem_cons, List.not_mem_nil, or_false]
    rintro b (rfl | rfl | rfl) <;> simp only [UInt8.toNat_ofNat'] <;> omega
  · refine .inr ⟨by omega, ?_⟩
    rw [utf8EncodeChar_four h]
    simp only [List.mem_cons, List.not_mem_nil, or_false]
    rintro b (rfl | rfl | rfl | rfl) <;> simp only [UInt8.toNat_ofNat'] <;> omega

theorem utf8EncodeChar_ne_nil (c : Char) : String.utf8EncodeChar c ≠ [] :=
  String.utf8EncodeChar_ne_nil

theorem encode_ne_nil {cs : List Char} (h : cs ≠ []) : encode cs ≠ [] := by
  cases cs with
  | nil => exact absurd rfl h
  | cons c cs =>
    rw [encode_cons]
    exact fun happ => utf8EncodeChar_ne_nil c (List.append_eq_nil_iff.mp happ).1

/-- A string of ASCII bytes. -/
theorem isUtf8_of_ascii (h : ∀ b ∈ bs, b < 0x80) : IsUtf8 bs := by
  induction bs with
  | nil => exact isUtf8_nil
  | cons b bs ih =>
    have hb : b.toNat < 0x80 := UInt8.lt_iff_toNat_lt.mp (h b (.head _))
    have hc : (Char.ofNat b.toNat).toNat = b.toNat := toNat_ofNat (.inl (by omega))
    have hone : [b] = encode [Char.ofNat b.toNat] := by
      rw [encode_cons, utf8EncodeChar_one (by rw [hc]; exact hb), hc, UInt8.ofNat_toNat]
      rfl
    rw [← List.singleton_append, hone]
    exact (isUtf8_encode _).append (ih fun b hb => h b (.tail _ hb))

/-- An ASCII byte in front of valid UTF-8 is a character of its own. -/
theorem IsUtf8.of_cons {b : UInt8} (h : IsUtf8 (b :: bs)) (hb : b.toNat < 0x80) : IsUtf8 bs := by
  obtain ⟨cs, hcs⟩ := h
  cases cs with
  | nil => cases hcs
  | cons c cs =>
    rw [encode_cons] at hcs
    obtain ⟨-, hone⟩ | ⟨-, hall⟩ := utf8EncodeChar_ascii_or c
    · rw [hone, List.singleton_append] at hcs
      exact ⟨cs, (List.cons.inj hcs).2⟩
    · cases hc : String.utf8EncodeChar c with
      | nil => exact absurd hc (utf8EncodeChar_ne_nil c)
      | cons d ds =>
        rw [hc, List.cons_append] at hcs
        have hd := hall d (by rw [hc]; exact .head _)
        rw [← (List.cons.inj hcs).1] at hd
        omega

/-- A test of bytes that holds outside ASCII cuts valid UTF-8 between characters. -/
theorem takeWhile_encode (p : UInt8 → Bool) (hp : ∀ b : UInt8, 0x80 ≤ b.toNat → p b = true)
    (cs : List Char) : ∃ ds es, cs = ds ++ es ∧ (encode cs).takeWhile p = encode ds ∧
      (encode cs).dropWhile p = encode es := by
  induction cs with
  | nil => exact ⟨[], [], rfl, rfl, rfl⟩
  | cons c cs ih =>
    obtain ⟨ds, es, rfl, htake, hdrop⟩ := ih
    by_cases hc : ∀ b ∈ String.utf8EncodeChar c, p b = true
    · refine ⟨c :: ds, es, rfl, ?_, ?_⟩
      · rw [encode_cons, List.takeWhile_append_of_pos hc, htake, encode_cons]
      · rw [encode_cons, List.dropWhile_append_of_pos hc, hdrop]
    · obtain ⟨-, hone⟩ | ⟨-, hall⟩ := utf8EncodeChar_ascii_or c
      · have hneg : ¬ p (UInt8.ofNat c.toNat) = true := by
          rw [hone] at hc
          simpa using hc
        refine ⟨[], c :: (ds ++ es), rfl, ?_, ?_⟩
        · rw [encode_cons, hone, List.singleton_append, List.takeWhile_cons_of_neg hneg, encode_nil]
        · rw [encode_cons, hone, List.singleton_append, List.dropWhile_cons_of_neg hneg]
      · exact absurd (fun b hb => hp b (hall b hb)) hc

/-- What is left when ASCII bytes are passed is valid. -/
theorem IsUtf8.of_append_ascii (h : IsUtf8 (as ++ bs)) (has : ∀ b ∈ as, b < 0x80) : IsUtf8 bs := by
  induction as with
  | nil => exact h
  | cons a as ih =>
    refine ih ?_ fun b hb => has b (.tail _ hb)
    exact IsUtf8.of_cons h (UInt8.lt_iff_toNat_lt.mp (has a (.head _)))

/-- Valid UTF-8 is cut at an ASCII byte. -/
theorem IsUtf8.split {c : UInt8} (h : IsUtf8 (as ++ c :: bs)) (hc : c < 0x80) :
    IsUtf8 as ∧ IsUtf8 bs := by
  obtain ⟨cs, hcs⟩ := h
  induction cs generalizing as with
  | nil => simp at hcs
  | cons d cs ih =>
    rw [encode_cons, List.append_eq_append_iff] at hcs
    obtain ⟨as', hd, hrest⟩ | ⟨as', rfl, hrest⟩ := hcs
    · -- the byte is in the first character, which is then this byte alone
      cases as' with
      | nil =>
        have hbs : [] ++ c :: bs = encode cs := by simpa using hrest
        refine ⟨⟨[d], ?_⟩, (ih hbs).2⟩
        simpa using hd.symm
      | cons a as' =>
        rw [List.cons_append, List.cons.injEq] at hrest
        obtain ⟨rfl, rfl⟩ := hrest
        obtain ⟨-, hone⟩ | ⟨-, hall⟩ := utf8EncodeChar_ascii_or d
        · obtain ⟨rfl, -, rfl⟩ : as = [] ∧ _ ∧ as' = [] := by
            rw [hone, List.singleton_eq_append_iff] at hd
            simpa using hd
          exact ⟨isUtf8_nil, ⟨cs, by simp⟩⟩
        · have hd' := hall c (by rw [hd]; simp)
          exact absurd (UInt8.lt_iff_toNat_lt.mp hc) (by simpa using hd')
    · obtain ⟨h1, h2⟩ := ih hrest.symm
      exact ⟨IsUtf8.append ⟨[d], by simp⟩ h1, h2⟩

/-- What stands before ASCII bytes is valid. -/
theorem IsUtf8.of_append_ascii_right (h : IsUtf8 (as ++ bs)) (hbs : ∀ b ∈ bs, b < 0x80) :
    IsUtf8 as := by
  cases bs with
  | nil => simpa using h
  | cons b bs => exact (h.split (hbs b (.head _))).1

/-! ## The functions of the string module -/

/-- `utf8_code_point_bytes`. -/
def codePointBytes (firstByte : UInt8) : Nat :=
  if firstByte &&& 0x80 = 0 then 1
  else if firstByte &&& 0xE0 = 0xC0 then 2
  else if firstByte &&& 0xF0 = 0xE0 then 3
  else if firstByte &&& 0xF8 = 0xF0 then 4
  else 0

/-- `utf8_sequence_value`: the code point of the first `len` bytes. -/
def sequenceValue : Bytes → Nat → Nat
  | b0 :: _, 1 => b0.toNat
  | b0 :: b1 :: _, 2 => (b0.toNat &&& 0x1F) <<< 6 ||| (b1.toNat &&& 0x3F)
  | b0 :: b1 :: b2 :: _, 3 =>
    (b0.toNat &&& 0x0F) <<< 12 ||| (b1.toNat &&& 0x3F) <<< 6 ||| (b2.toNat &&& 0x3F)
  | b0 :: b1 :: b2 :: b3 :: _, _ =>
    (b0.toNat &&& 0x07) <<< 18 ||| (b1.toNat &&& 0x3F) <<< 12 ||| (b2.toNat &&& 0x3F) <<< 6 |||
      (b3.toNat &&& 0x3F)
  | _, _ => 0

/-- `utf8_sequence_valid`: no overlong form, no surrogate, nothing above `0x10FFFF`. -/
def sequenceValid (cp len : Nat) : Bool :=
  if len = 2 ∧ cp < 0x80 then false
  else if len = 3 ∧ cp < 0x800 then false
  else if len = 3 ∧ 0xD800 ≤ cp ∧ cp ≤ 0xDFFF then false
  else if len = 4 ∧ (cp < 0x10000 ∨ 0x10FFFF < cp) then false
  else true

/-- `utf8_encode_code_point`; the length `0` of a code point it refuses is `none`. -/
def encodeCodePoint (cp : Nat) : Option Bytes :=
  if 0x10FFFF < cp ∨ (0xD800 ≤ cp ∧ cp ≤ 0xDFFF) then none
  else if cp ≤ 0x007F then some [cp.toUInt8]
  else if cp ≤ 0x07FF then some [(0xC0 ||| cp >>> 6).toUInt8, (0x80 ||| (cp &&& 0x3F)).toUInt8]
  else if cp ≤ 0xFFFF then
    some [(0xE0 ||| cp >>> 12).toUInt8, (0x80 ||| (cp >>> 6 &&& 0x3F)).toUInt8,
      (0x80 ||| (cp &&& 0x3F)).toUInt8]
  else
    some [(0xF0 ||| cp >>> 18).toUInt8, (0x80 ||| (cp >>> 12 &&& 0x3F)).toUInt8,
      (0x80 ||| (cp >>> 6 &&& 0x3F)).toUInt8, (0x80 ||| (cp &&& 0x3F)).toUInt8]

/-- One turn of the loops of `utf8_is_valid` and `utf8_count_code_points`: the length of the
sequence at the front, unless it is invalid. -/
def sequenceLength (data : Bytes) : Option Nat :=
  match data with
  | [] => none
  | b :: rest =>
    let len := codePointBytes b
    if len = 0 ∨ data.length < len then none
    else if (rest.take (len - 1)).any (fun b => b &&& 0xC0 != 0x80) then none
    else if !sequenceValid (sequenceValue data len) len then none
    else some len

/-- The loop over a buffer, where `skip` bytes of the current sequence are still ahead: the number
of sequences, unless one is invalid. -/
def countLoop : Nat → Bytes → Option Nat
  | _, [] => some 0
  | skip + 1, _ :: rest => countLoop skip rest
  | 0, b :: rest =>
    match sequenceLength (b :: rest) with
    | none => none
    | some len => (countLoop (len - 1) rest).map (· + 1)

/-- `utf8_count_code_points`; an invalid sequence makes it `0`. -/
def countCodePoints (data : Bytes) : Nat := (countLoop 0 data).getD 0

/-- The loop of `utf8_is_valid` over a buffer, with the same bytes ahead. -/
def validLoop : Nat → Bytes → Bool
  | _, [] => true
  | skip + 1, _ :: rest => validLoop skip rest
  | 0, b :: rest =>
    match sequenceLength (b :: rest) with
    | none => false
    | some len => validLoop (len - 1) rest

/-- `utf8_is_valid`. -/
def isValid (data : Bytes) : Bool := validLoop 0 data

/-- What the reference returned by `Utf8StringArena::intern` refers to. -/
def intern (data : Bytes) : Bytes :=
  if data.length = 0 then [] else if countCodePoints data = 0 then [] else data

/-- The string of `Utf8StringBuilder::build_or_empty`. -/
def buildOrEmpty (buffer : Bytes) : Bytes :=
  if buffer.length = 0 then [] else if countCodePoints buffer = 0 then [] else buffer

/-! ## Bytes as numbers -/

/-- The first bytes and the continuation bytes, by their numbers. -/
theorem byte_ranges : ∀ n < 256,
    (codePointBytes (UInt8.ofNat n) = if n < 0x80 then 1 else if n < 0xC0 then
      0 else if n < 0xE0 then 2
      else if n < 0xF0 then 3 else if n < 0xF8 then 4 else 0) ∧
    ((UInt8.ofNat n &&& 0xC0 != 0x80) = false ↔ 0x80 ≤ n ∧ n < 0xC0) := by
  decide +kernel

theorem codePointBytes_eq (b : UInt8) : codePointBytes b =
    if b.toNat < 0x80 then 1 else if b.toNat < 0xC0 then 0 else if b.toNat < 0xE0 then 2
    else if b.toNat < 0xF0 then 3 else if b.toNat < 0xF8 then 4 else 0 := by
  simpa using (byte_ranges b.toNat b.toNat_lt).1

/-- A continuation byte. -/
theorem continuation_iff (b : UInt8) :
    (b &&& 0xC0 != 0x80) = false ↔ 0x80 ≤ b.toNat ∧ b.toNat < 0xC0 := by
  simpa using (byte_ranges b.toNat b.toNat_lt).2

/-- Or-ing a number into the zeros of a multiple of a power of two adds it. -/
theorem or_eq_add {a b : Nat} (i : Nat) (ha : 2 ^ i ∣ a) (hb : b < 2 ^ i) : a ||| b = a + b := by
  obtain ⟨k, rfl⟩ := ha
  exact (Nat.two_pow_add_eq_or_of_lt hb k).symm

/-- **A code point is encoded as Lean encodes its character.** -/
theorem encodeCodePoint_toNat (c : Char) :
    encodeCodePoint c.toNat = some (String.utf8EncodeChar c) := by
  have hc := toNat_scalar c
  have hlow : c.toNat &&& 0x3F = c.toNat % 64 := Nat.and_two_pow_sub_one_eq_mod _ 6
  have hmid : c.toNat >>> 6 &&& 0x3F = c.toNat / 64 % 64 := by
    rw [Nat.shiftRight_eq_div_pow]
    exact Nat.and_two_pow_sub_one_eq_mod _ 6
  have htop : c.toNat >>> 12 &&& 0x3F = c.toNat / 4096 % 64 := by
    rw [Nat.shiftRight_eq_div_pow]
    exact Nat.and_two_pow_sub_one_eq_mod _ 6
  have hor : ∀ n, n < 64 → 0x80 ||| n = n + 128 := fun n hn => by
    rw [or_eq_add 6 (by decide) hn, Nat.add_comm]
  unfold encodeCodePoint
  rw [if_neg (by omega), hlow, hmid, htop, hor _ (Nat.mod_lt _ (by decide)),
    hor _ (Nat.mod_lt _ (by decide)), hor _ (Nat.mod_lt _ (by decide)),
    Nat.shiftRight_eq_div_pow, Nat.shiftRight_eq_div_pow, Nat.shiftRight_eq_div_pow]
  obtain h | ⟨h, h'⟩ | ⟨h, h'⟩ | h := toNat_cases c
  · rw [if_pos (by omega), utf8EncodeChar_one h]
  · rw [if_neg (by omega), if_pos (by omega), utf8EncodeChar_two h h',
      or_eq_add 5 (by decide) (by omega), Nat.add_comm]
  · rw [if_neg (by omega), if_neg (by omega), if_pos (by omega), utf8EncodeChar_three h h',
      or_eq_add 4 (by decide) (by omega), Nat.add_comm]
  · rw [if_neg (by omega), if_neg (by omega), if_neg (by omega), utf8EncodeChar_four h,
      or_eq_add 3 (by decide) (by omega), Nat.add_comm]

/-- The code point that the bytes of a sequence of each length stand for. -/
theorem sequenceValue_two (b0 b1 : UInt8) (r : Bytes) :
    sequenceValue (b0 :: b1 :: r) 2 = b0.toNat % 32 * 64 + b1.toNat % 64 := by
  have h0 : b0.toNat &&& 0x1F = b0.toNat % 32 := Nat.and_two_pow_sub_one_eq_mod _ 5
  have h1 : b1.toNat &&& 0x3F = b1.toNat % 64 := Nat.and_two_pow_sub_one_eq_mod _ 6
  change (b0.toNat &&& 0x1F) <<< 6 ||| (b1.toNat &&& 0x3F) = _
  rw [h0, h1, Nat.shiftLeft_eq]
  exact or_eq_add 6 (Nat.dvd_mul_left _ _) (Nat.mod_lt _ (by decide))

theorem sequenceValue_three (b0 b1 b2 : UInt8) (r : Bytes) :
    sequenceValue (b0 :: b1 :: b2 :: r) 3 =
      b0.toNat % 16 * 4096 + b1.toNat % 64 * 64 + b2.toNat % 64 := by
  have h0 : b0.toNat &&& 0x0F = b0.toNat % 16 := Nat.and_two_pow_sub_one_eq_mod _ 4
  have h1 : b1.toNat &&& 0x3F = b1.toNat % 64 := Nat.and_two_pow_sub_one_eq_mod _ 6
  have h2 : b2.toNat &&& 0x3F = b2.toNat % 64 := Nat.and_two_pow_sub_one_eq_mod _ 6
  change (b0.toNat &&& 0x0F) <<< 12 ||| (b1.toNat &&& 0x3F) <<< 6 ||| (b2.toNat &&& 0x3F) = _
  rw [h0, h1, h2, Nat.shiftLeft_eq, Nat.shiftLeft_eq]
  have h01 : b0.toNat % 16 * 2 ^ 12 ||| b1.toNat % 64 * 2 ^ 6 =
      b0.toNat % 16 * 2 ^ 12 + b1.toNat % 64 * 2 ^ 6 :=
    or_eq_add 12 (Nat.dvd_mul_left _ _) (by omega)
  rw [h01]
  exact or_eq_add 6 (by omega) (Nat.mod_lt _ (by decide))

theorem sequenceValue_four (b0 b1 b2 b3 : UInt8) (r : Bytes) :
    sequenceValue (b0 :: b1 :: b2 :: b3 :: r) 4 =
      b0.toNat % 8 * 262144 + b1.toNat % 64 * 4096 + b2.toNat % 64 * 64 + b3.toNat % 64 := by
  have h0 : b0.toNat &&& 0x07 = b0.toNat % 8 := Nat.and_two_pow_sub_one_eq_mod _ 3
  have h1 : b1.toNat &&& 0x3F = b1.toNat % 64 := Nat.and_two_pow_sub_one_eq_mod _ 6
  have h2 : b2.toNat &&& 0x3F = b2.toNat % 64 := Nat.and_two_pow_sub_one_eq_mod _ 6
  have h3 : b3.toNat &&& 0x3F = b3.toNat % 64 := Nat.and_two_pow_sub_one_eq_mod _ 6
  change (b0.toNat &&& 0x07) <<< 18 ||| (b1.toNat &&& 0x3F) <<< 12 ||| (b2.toNat &&& 0x3F) <<< 6 |||
    (b3.toNat &&& 0x3F) = _
  rw [h0, h1, h2, h3, Nat.shiftLeft_eq, Nat.shiftLeft_eq, Nat.shiftLeft_eq]
  have h01 : b0.toNat % 8 * 2 ^ 18 ||| b1.toNat % 64 * 2 ^ 12 =
      b0.toNat % 8 * 2 ^ 18 + b1.toNat % 64 * 2 ^ 12 :=
    or_eq_add 18 (Nat.dvd_mul_left _ _) (by omega)
  have h012 : b0.toNat % 8 * 2 ^ 18 + b1.toNat % 64 * 2 ^ 12 ||| b2.toNat % 64 * 2 ^ 6 =
      b0.toNat % 8 * 2 ^ 18 + b1.toNat % 64 * 2 ^ 12 + b2.toNat % 64 * 2 ^ 6 :=
    or_eq_add 12 (by omega) (by omega)
  rw [h01, h012]
  exact or_eq_add 6 (by omega) (Nat.mod_lt _ (by decide))

theorem toNat_ofNat_byte (h : n < 256) : (UInt8.ofNat n).toNat = n := by
  rw [UInt8.toNat_ofNat', Nat.mod_eq_of_lt h]

/-! ## The validity check -/

variable {data : Bytes}

/-- What the check of one sequence accepts, by the range of its first byte. -/
theorem sequenceLength_eq_some {len : Nat} :
    sequenceLength data = some len ↔ data ≠ [] ∧ len = codePointBytes data.headI ∧ len ≠ 0 ∧
      len ≤ data.length ∧
      (∀ b ∈ data.tail.take (len - 1), 0x80 ≤ b.toNat ∧ b.toNat < 0xC0) ∧
      sequenceValid (sequenceValue data len) len = true := by
  cases data with
  | nil => simp [sequenceLength]
  | cons b rest =>
    unfold sequenceLength
    simp only [List.headI_cons, List.tail_cons]
    split_ifs with hlen hcont hvalid
    · simp only [false_iff, not_and]
      rintro - rfl h0 hle
      omega
    · simp only [false_iff, not_and]
      rintro - rfl - - hall
      obtain ⟨d, hd, hdc⟩ := List.any_eq_true.mp hcont
      rw [(continuation_iff d).mpr (hall d hd)] at hdc
      cases hdc
    · simp only [false_iff, not_and]
      rintro - rfl - - -
      simpa using hvalid
    · constructor
      · intro h
        cases h
        refine ⟨List.cons_ne_nil _ _, rfl, by omega, by omega, fun d hd =>
          ?_, by simpa using hvalid⟩
        have hany : ¬ (d &&& 0xC0 != 0x80) = true := fun hdc =>
          hcont (List.any_eq_true.mpr ⟨d, hd, hdc⟩)
        exact (continuation_iff d).mp (Bool.eq_false_iff.mpr hany)
      · rintro ⟨-, rfl, -⟩
        rfl

/-- A character is one valid sequence. -/
theorem sequenceLength_utf8EncodeChar (c : Char) (rest : Bytes) :
    sequenceLength (String.utf8EncodeChar c ++ rest) =
      some (String.utf8EncodeChar c).length := by
  have hc := toNat_scalar c
  have hlow := toNat_ofNat_byte (n := c.toNat % 64 + 128) (by omega)
  have hmid := toNat_ofNat_byte (n := c.toNat / 64 % 64 + 128) (by omega)
  have htop := toNat_ofNat_byte (n := c.toNat / 4096 % 64 + 128) (by omega)
  rw [sequenceLength_eq_some]
  obtain h | ⟨h, h'⟩ | ⟨h, h'⟩ | h := toNat_cases c
  · rw [utf8EncodeChar_one h]
    have h0 := toNat_ofNat_byte (n := c.toNat) (by omega)
    simp [codePointBytes_eq, h0, h, sequenceValid]
  · rw [utf8EncodeChar_two h h']
    have h0 := toNat_ofNat_byte (n := c.toNat / 64 + 192) (by omega)
    refine ⟨List.cons_ne_nil _ _, ?_, Nat.succ_ne_zero _, by simp, ?_, ?_⟩
    · rw [List.cons_append, List.headI_cons, codePointBytes_eq, h0, if_neg (by omega),
        if_neg (by omega), if_pos (by omega)]
      rfl
    · simp only [List.cons_append, List.nil_append, List.tail_cons, List.length_cons,
        List.length_nil, List.take_succ_cons, List.take_zero, List.mem_cons, List.not_mem_nil,
        or_false, Nat.add_one_sub_one, Nat.zero_add]
      rintro b rfl
      omega
    · simp only [List.cons_append, List.length_cons, List.length_nil, Nat.zero_add,
        Nat.reduceAdd]
      rw [sequenceValue_two, h0, hlow, sequenceValid, if_neg (by omega), if_neg (by omega),
        if_neg (by omega), if_neg (by omega)]
  · rw [utf8EncodeChar_three h h']
    have h0 := toNat_ofNat_byte (n := c.toNat / 4096 + 224) (by omega)
    refine ⟨List.cons_ne_nil _ _, ?_, Nat.succ_ne_zero _, by simp, ?_, ?_⟩
    · rw [List.cons_append, List.headI_cons, codePointBytes_eq, h0, if_neg (by omega),
        if_neg (by omega), if_neg (by omega), if_pos (by omega)]
      rfl
    · simp only [List.cons_append, List.nil_append, List.tail_cons, List.length_cons,
        List.length_nil, List.take_succ_cons, List.take_zero, List.mem_cons, List.not_mem_nil,
        or_false, Nat.add_one_sub_one, Nat.zero_add, Nat.reduceAdd]
      rintro b (rfl | rfl) <;> omega
    · simp only [List.cons_append, List.length_cons, List.length_nil, Nat.zero_add,
        Nat.reduceAdd]
      rw [sequenceValue_three, h0, hmid, hlow, sequenceValid, if_neg (by omega), if_neg (by omega),
        if_neg (by omega), if_neg (by omega)]
  · rw [utf8EncodeChar_four h]
    have h0 := toNat_ofNat_byte (n := c.toNat / 262144 + 240) (by omega)
    refine ⟨List.cons_ne_nil _ _, ?_, Nat.succ_ne_zero _, by simp, ?_, ?_⟩
    · rw [List.cons_append, List.headI_cons, codePointBytes_eq, h0, if_neg (by omega),
        if_neg (by omega), if_neg (by omega), if_neg (by omega), if_pos (by omega)]
      rfl
    · simp only [List.cons_append, List.nil_append, List.tail_cons, List.length_cons,
        List.length_nil, List.take_succ_cons, List.take_zero, List.mem_cons, List.not_mem_nil,
        or_false, Nat.add_one_sub_one, Nat.zero_add, Nat.reduceAdd]
      rintro b (rfl | rfl | rfl) <;> omega
    · simp only [List.cons_append, List.length_cons, List.length_nil, Nat.zero_add,
        Nat.reduceAdd]
      rw [sequenceValue_four, h0, htop, hmid, hlow, sequenceValid, if_neg (by omega),
        if_neg (by omega), if_neg (by omega), if_neg (by omega)]

theorem ofNat_eq_of_toNat {b : UInt8} (h : n = b.toNat) : UInt8.ofNat n = b := by
  rw [h, UInt8.ofNat_toNat]

/-- One valid sequence is a character. -/
theorem utf8EncodeChar_of_sequenceLength {len : Nat}
    (h : sequenceLength data = some len) : ∃ c, data.take len = String.utf8EncodeChar c := by
  obtain ⟨hne, hlen, h0, hle, hcont, hvalid⟩ := sequenceLength_eq_some.mp h
  obtain ⟨b0, data, rfl⟩ := List.exists_cons_of_ne_nil hne
  rw [List.headI_cons, codePointBytes_eq] at hlen
  rw [List.tail_cons] at hcont
  split_ifs at hlen with h80 hC0 hE0 hF0 hF8
  · subst hlen
    have hc := toNat_ofNat (n := b0.toNat) (by omega)
    refine ⟨Char.ofNat b0.toNat, ?_⟩
    rw [utf8EncodeChar_one (by omega), hc, UInt8.ofNat_toNat]
    rfl
  · exact absurd hlen h0
  · subst hlen
    obtain ⟨b1, data, rfl⟩ := List.exists_cons_of_ne_nil (l := data) (by rintro rfl; simp at hle)
    have h1 := hcont b1 (by simp)
    rw [sequenceValue_two, sequenceValid] at hvalid
    split_ifs at hvalid with hlow
    have hc := toNat_ofNat (n := b0.toNat % 32 * 64 + b1.toNat % 64) (by omega)
    refine ⟨Char.ofNat (b0.toNat % 32 * 64 + b1.toNat % 64), ?_⟩
    rw [utf8EncodeChar_two (by omega) (by omega), hc, ofNat_eq_of_toNat (b := b0) (by omega),
      ofNat_eq_of_toNat (b := b1) (by omega)]
    rfl
  · subst hlen
    obtain ⟨b1, data, rfl⟩ := List.exists_cons_of_ne_nil (l := data) (by rintro rfl; simp at hle)
    obtain ⟨b2, data, rfl⟩ := List.exists_cons_of_ne_nil (l := data) (by rintro rfl; simp at hle)
    have h1 := hcont b1 (by simp)
    have h2 := hcont b2 (by simp)
    rw [sequenceValue_three, sequenceValid] at hvalid
    split_ifs at hvalid with _ hlow hsur
    have hc := toNat_ofNat
      (n := b0.toNat % 16 * 4096 + b1.toNat % 64 * 64 + b2.toNat % 64) (by omega)
    refine ⟨Char.ofNat (b0.toNat % 16 * 4096 + b1.toNat % 64 * 64 + b2.toNat % 64), ?_⟩
    rw [utf8EncodeChar_three (by omega) (by omega), hc, ofNat_eq_of_toNat (b := b0) (by omega),
      ofNat_eq_of_toNat (b := b1) (by omega), ofNat_eq_of_toNat (b := b2) (by omega)]
    rfl
  · subst hlen
    obtain ⟨b1, data, rfl⟩ := List.exists_cons_of_ne_nil (l := data) (by rintro rfl; simp at hle)
    obtain ⟨b2, data, rfl⟩ := List.exists_cons_of_ne_nil (l := data) (by rintro rfl; simp at hle)
    obtain ⟨b3, data, rfl⟩ := List.exists_cons_of_ne_nil (l := data) (by rintro rfl; simp at hle)
    have h1 := hcont b1 (by simp)
    have h2 := hcont b2 (by simp)
    have h3 := hcont b3 (by simp)
    rw [sequenceValue_four, sequenceValid] at hvalid
    split_ifs at hvalid with _ _ _ hrange
    have hc := toNat_ofNat (n := b0.toNat % 8 * 262144 + b1.toNat % 64 * 4096 +
      b2.toNat % 64 * 64 + b3.toNat % 64) (by omega)
    refine ⟨Char.ofNat (b0.toNat % 8 * 262144 + b1.toNat % 64 * 4096 + b2.toNat % 64 * 64 +
      b3.toNat % 64), ?_⟩
    rw [utf8EncodeChar_four (by omega), hc, ofNat_eq_of_toNat (b := b0) (by omega),
      ofNat_eq_of_toNat (b := b1) (by omega), ofNat_eq_of_toNat (b := b2) (by omega),
      ofNat_eq_of_toNat (b := b3) (by omega)]
    rfl
  · exact absurd hlen h0

/-- The rest of a sequence is passed over. -/
theorem countLoop_append (as rest : Bytes) : countLoop as.length (as ++ rest) =
    countLoop 0 rest := by
  induction as with
  | nil => rfl
  | cons a as ih => exact ih

theorem countLoop_utf8EncodeChar (c : Char) (rest : Bytes) :
    countLoop 0 (String.utf8EncodeChar c ++ rest) = (countLoop 0 rest).map (· + 1) := by
  have hlen := sequenceLength_utf8EncodeChar c rest
  cases hc : String.utf8EncodeChar c with
  | nil => exact absurd hc (utf8EncodeChar_ne_nil c)
  | cons b bs =>
    rw [hc, List.cons_append, List.length_cons] at hlen
    rw [List.cons_append, countLoop, hlen]
    simp only [Nat.add_one_sub_one]
    rw [countLoop_append]

theorem countLoop_encode (cs : List Char) : countLoop 0 (encode cs) = some cs.length := by
  induction cs with
  | nil => rfl
  | cons c cs ih => rw [encode_cons, countLoop_utf8EncodeChar, ih, List.length_cons,
    Option.map_some]

theorem isUtf8_of_countLoop (h : countLoop 0 data = some n) : IsUtf8 data := by
  induction hl : data.length using Nat.strong_induction_on generalizing data n with
  | _ l ih =>
    cases data with
    | nil => exact isUtf8_nil
    | cons b rest =>
      rw [countLoop] at h
      cases hseq : sequenceLength (b :: rest) with
      | none =>
        rw [hseq] at h
        cases h
      | some len =>
        rw [hseq] at h
        obtain ⟨c, hc⟩ := utf8EncodeChar_of_sequenceLength hseq
        obtain ⟨m, hm, -⟩ := Option.map_eq_some_iff.mp h
        have hne := (sequenceLength_eq_some.mp hseq).2.2.1
        obtain ⟨k, rfl⟩ := Nat.exists_eq_succ_of_ne_zero hne
        have hle := (sequenceLength_eq_some.mp hseq).2.2.2.1
        rw [List.length_cons] at hle hl
        -- what follows the character is counted from its own start
        have hsplit : rest = rest.take k ++ rest.drop k := (List.take_append_drop k rest).symm
        have htake : (rest.take k).length = k := List.length_take_of_le (by omega)
        have hrest : countLoop 0 (rest.drop k) = some m := by
          have happ := countLoop_append (rest.take k) (rest.drop k)
          rw [htake, ← hsplit] at happ
          rw [← happ]
          exact hm
        have hdrop : IsUtf8 (rest.drop k) :=
          ih (rest.drop k).length (by rw [List.length_drop]; omega) hrest rfl
        rw [List.take_succ_cons] at hc
        rw [hsplit, ← List.cons_append, hc]
        exact (show IsUtf8 (String.utf8EncodeChar c) from ⟨[c], by simp⟩).append hdrop

/-- The two scanners agree. -/
theorem validLoop_eq (skip : Nat) (data : Bytes) :
    validLoop skip data = (countLoop skip data).isSome := by
  fun_induction validLoop skip data with
  | case1 => simp [countLoop]
  | case2 skip b rest ih => simpa [countLoop] using ih
  | case3 b rest hnone => simp [countLoop, hnone]
  | case4 b rest len hsome ih => simp [countLoop, hsome, ih]

/-- **The validity check accepts the encodings of characters and nothing else.** -/
theorem isValid_iff : isValid data = true ↔ IsUtf8 data := by
  unfold isValid
  rw [validLoop_eq]
  constructor
  · intro h
    obtain ⟨n, hn⟩ := Option.isSome_iff_exists.mp h
    exact isUtf8_of_countLoop hn
  · rintro ⟨cs, rfl⟩
    rw [countLoop_encode]
    rfl

/-- A buffer that is not empty counts no code points when it is invalid, and only then. -/
theorem countCodePoints_eq_zero (h : data ≠ []) : countCodePoints data = 0 ↔ ¬ IsUtf8 data := by
  unfold countCodePoints
  constructor
  · rintro h0 ⟨cs, rfl⟩
    rw [countLoop_encode, Option.getD_some] at h0
    exact h (by rw [List.length_eq_zero_iff.mp h0, encode_nil])
  · intro hinvalid
    cases hloop : countLoop 0 data with
    | none => rfl
    | some n => exact absurd (isUtf8_of_countLoop hloop) hinvalid

/-! ## What is kept of a byte string -/

@[simp] theorem buildOrEmpty_eq_intern (buffer : Bytes) : buildOrEmpty buffer = intern buffer := rfl

theorem intern_of_isUtf8 (h : IsUtf8 data) : intern data = data := by
  unfold intern
  split_ifs with hlen hcount
  · exact (List.length_eq_zero_iff.mp hlen).symm
  · exact absurd h ((countCodePoints_eq_zero fun hnil => hlen (by rw [hnil]; rfl)).mp hcount)
  · rfl

theorem intern_of_not_isUtf8 (h : ¬ IsUtf8 data) : intern data = [] := by
  unfold intern
  split_ifs with hlen hcount
  · rfl
  · rfl
  · exact absurd ((countCodePoints_eq_zero fun hnil => hlen (by rw [hnil]; rfl)).mpr h) hcount

@[simp] theorem intern_encode (cs : List Char) : intern (encode cs) = encode cs :=
  intern_of_isUtf8 (isUtf8_encode cs)

theorem isUtf8_intern (data : Bytes) : IsUtf8 (intern data) := by
  by_cases h : IsUtf8 data
  · rw [intern_of_isUtf8 h]
    exact h
  · rw [intern_of_not_isUtf8 h]
    exact isUtf8_nil

end Libca.Str
