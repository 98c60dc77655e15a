import Libca.Str.Charset

/-!
# Windows-1252 (`str/detail/charset_builtin.cpp` 98-316)

The single-byte part of `CharsetConverter`: a byte from `0x80` to `0x9F` is decoded by a table,
every other byte as itself; a code point up to `0xFF` is encoded as itself, every other one by a
second table.

* `Representable`, `Remapped`: the code points that are encoded, and those among them whose byte
  stands for another code point.
* `utf8ToSingleByte_encode`: on valid UTF-8 the conversion is the one of its code points.
* `cp1252_lossless`: bytes come back in every case; **a text comes back exactly when it is refused,
  or has no remapped code point**.
-/

namespace Libca.Str

open Common

/-! ## The tables -/

/-- `CP1252_HIGH_TABLE`. -/
def cp1252HighTable : List Nat :=
  [0x20AC, 0x0081, 0x201A, 0x0192, 0x201E, 0x2026, 0x2020, 0x2021,
   0x02C6, 0x2030, 0x0160, 0x2039, 0x0152, 0x008D, 0x017D, 0x008F,
   0x0090, 0x2018, 0x2019, 0x201C, 0x201D, 0x2022, 0x2013, 0x2014,
   0x02DC, 0x2122, 0x0161, 0x203A, 0x0153, 0x009D, 0x017E, 0x0178]

/-- `CP1252_ENCODE_CP`. -/
def cp1252EncodeCp : List Nat :=
  [0x0152, 0x0153, 0x0160, 0x0161, 0x0178, 0x017D, 0x017E, 0x0192, 0x02C6,
   0x02DC, 0x2013, 0x2014, 0x2018, 0x2019, 0x201A, 0x201C, 0x201D, 0x201E,
   0x2020, 0x2021, 0x2022, 0x2026, 0x2030, 0x2039, 0x203A, 0x20AC, 0x2122]

/-- `CP1252_ENCODE_BYTE`. -/
def cp1252EncodeByte : List UInt8 :=
  [0x8C, 0x9C, 0x8A, 0x9A, 0x9F, 0x8E, 0x9E, 0x83, 0x88,
   0x98, 0x96, 0x97, 0x91, 0x92, 0x82, 0x93, 0x94, 0x84,
   0x86, 0x87, 0x95, 0x85, 0x89, 0x8B, 0x9B, 0x80, 0x99]

/-- `cp1252_encode_high`. -/
def cp1252EncodeHigh (cp : Nat) : UInt8 := ((cp1252EncodeCp.zip cp1252EncodeByte).lookup cp).getD 0

/-! ## The conversions -/

/-- The code point of a byte. -/
def cp1252CodePoint (b : UInt8) : Nat :=
  if 0x80 ≤ b ∧ b ≤ 0x9F then cp1252HighTable.getD (b - 0x80).toNat 0 else b.toNat

/-- The byte of a code point. -/
def singleByteOf (charset : Bytes) (allowCp1252High : Bool) (cp : Nat) : Except Status UInt8 :=
  if cp ≤ 0xFF then .ok (UInt8.ofNat cp)
  else if allowCp1252High then
    let b := cp1252EncodeHigh cp
    if b = 0 then .error (charsetUnrepresentable charset cp) else .ok b
  else .error (charsetUnrepresentable charset cp)

/-- `single_byte_to_utf8`. -/
def singleByteToUtf8 (input : Bytes) : Except Status Bytes :=
  .ok (input.flatMap fun b => encoded (cp1252CodePoint b))

/-- The loop of `utf8_to_single_byte`, at a position where `skip` bytes are still ahead. -/
def singleByteLoop (charset : Bytes) (allowCp1252High : Bool) :
    Nat → Nat → Bytes → Except Status Bytes
  | _, _, [] => .ok []
  | skip + 1, pos, _ :: rest => singleByteLoop charset allowCp1252High skip (pos + 1) rest
  | 0, pos, b :: rest =>
    match utf8NextCodePoint (b :: rest) with
    | none => .error (charsetInvalidSequence charset pos)
    | some (cp, clen) =>
      match singleByteOf charset allowCp1252High cp with
      | .error err => .error err
      | .ok byte =>
        match singleByteLoop charset allowCp1252High (clen - 1) (pos + 1) rest with
        | .error err => .error err
        | .ok out => .ok (byte :: out)

/-- `utf8_to_single_byte`. -/
def utf8ToSingleByte (charset : Bytes) (utf8 : Bytes) (allowCp1252High : Bool) :
    Except Status Bytes :=
  singleByteLoop charset allowCp1252High 0 0 utf8

/-- The loop over the code points of a wide string. -/
def wideToSingleByte (charset : Bytes) (allowCp1252High : Bool) : List Nat → Except Status Bytes
  | [] => .ok []
  | cp :: rest =>
    match singleByteOf charset allowCp1252High cp with
    | .error err => .error err
    | .ok byte =>
      match wideToSingleByte charset allowCp1252High rest with
      | .error err => .error err
      | .ok out => .ok (byte :: out)

/-- `cp1252_to_utf8`. -/
def cp1252ToUtf8 (cp1252 : Bytes) : Except Status Bytes := singleByteToUtf8 cp1252

/-- `utf8_to_cp1252`. -/
def utf8ToCp1252 (utf8 : Bytes) : Except Status Bytes :=
  utf8ToSingleByte (ascii "windows-1252") utf8 true

/-- `cp1252_to_wide`. -/
def cp1252ToWide (cp1252 : Bytes) : Except Status (List Nat) := .ok (cp1252.map cp1252CodePoint)

/-- `wide_to_cp1252`. -/
def wideToCp1252 (wide : List Nat) : Except Status Bytes :=
  wideToSingleByte (ascii "windows-1252") true wide

/-! ## Code points -/

/-- A code point that is encoded. -/
def Representable (cp : Nat) : Prop := cp ≤ 0xFF ∨ cp1252EncodeHigh cp ≠ 0

/-- A code point up to `0xFF` whose byte is decoded as another one. -/
def Remapped (cp : Nat) : Prop := cp ≤ 0xFF ∧ cp1252CodePoint (UInt8.ofNat cp) ≠ cp

instance (cp : Nat) : Decidable (Representable cp) := inferInstanceAs (Decidable (_ ∨ _))

instance (cp : Nat) : Decidable (Remapped cp) := inferInstanceAs (Decidable (_ ∧ _))

/-- What a byte is decoded as is encoded as it, and is no surrogate. -/
def Inverse (b : UInt8) : Prop :=
  (cp1252CodePoint b ≤ 0xFF → UInt8.ofNat (cp1252CodePoint b) = b) ∧
    (¬ cp1252CodePoint b ≤ 0xFF → cp1252EncodeHigh (cp1252CodePoint b) ≠ 0 ∧
      cp1252EncodeHigh (cp1252CodePoint b) = b) ∧
    cp1252CodePoint b < 0xD800

instance (b : UInt8) : Decidable (Inverse b) := inferInstanceAs (Decidable (_ ∧ _))

/-- The two tables, on each of the 256 bytes and code points. -/
theorem tables : ∀ n < 256, Inverse (UInt8.ofNat n) ∧
    (Remapped n ↔ (0x80 ≤ n ∧ n ≤ 0x9F) ∧ n ∉ [0x81, 0x8D, 0x8F, 0x90, 0x9D]) := by
  decide +kernel

theorem inverse (b : UInt8) : Inverse b := forall_byte (fun n hn => (tables n hn).1) b

/-- **Every byte comes back.** -/
theorem singleByteOf_codePoint (charset : Bytes) (b : UInt8) :
    singleByteOf charset true (cp1252CodePoint b) = .ok b := by
  have hb := inverse b
  unfold singleByteOf
  by_cases hle : cp1252CodePoint b ≤ 0xFF
  · rw [if_pos hle, hb.1 hle]
  · obtain ⟨hne, heq⟩ := hb.2.1 hle
    rw [if_neg hle, if_pos rfl]
    dsimp only
    rw [if_neg hne, heq]

/-- The second table is inverse to the first. -/
theorem codePoint_encodeHigh {cp : Nat} (h : cp1252EncodeHigh cp ≠ 0) :
    cp1252CodePoint (cp1252EncodeHigh cp) = cp := by
  have hall : ∀ cp ∈ cp1252EncodeCp, cp1252CodePoint (cp1252EncodeHigh cp) = cp := by decide
  refine hall cp ?_
  unfold cp1252EncodeHigh at h
  cases hlookup : (cp1252EncodeCp.zip cp1252EncodeByte).lookup cp with
  | none =>
    rw [hlookup] at h
    exact absurd rfl h
  | some b =>
    obtain ⟨l₁, l₂, hsplit, -⟩ := List.lookup_eq_some_iff.mp hlookup
    have hmem : (cp, b) ∈ cp1252EncodeCp.zip cp1252EncodeByte := by
      rw [hsplit]
      exact List.mem_append_right _ (.head _)
    exact (List.of_mem_zip hmem).1

/-- **When a code point is encoded, and when it comes back.** -/
theorem singleByteOf_spec (charset : Bytes) (cp : Nat) :
    (Representable cp → ∃ b, singleByteOf charset true cp = .ok b ∧
      (cp1252CodePoint b = cp ↔ ¬ Remapped cp)) ∧
    (¬ Representable cp → singleByteOf charset true cp =
      .error (charsetUnrepresentable charset cp)) := by
  unfold Representable Remapped singleByteOf
  by_cases hle : cp ≤ 0xFF
  · rw [if_pos hle]
    refine ⟨fun _ => ⟨_, rfl, ?_⟩, fun h => absurd (.inl hle) h⟩
    constructor
    · exact fun h hremapped => hremapped.2 h
    · intro h
      by_contra hne
      exact h ⟨hle, hne⟩
  · rw [if_neg hle, if_pos rfl]
    dsimp only
    by_cases hzero : cp1252EncodeHigh cp = 0
    · rw [if_pos hzero]
      refine ⟨fun h => ?_, fun _ => rfl⟩
      rcases h with h | h
      · exact absurd h hle
      · exact absurd hzero h
    · rw [if_neg hzero]
      refine ⟨fun _ => ⟨_, rfl, ?_⟩, fun h => absurd (.inr hzero) h⟩
      exact ⟨fun _ h => hle h.1, fun _ => codePoint_encodeHigh hzero⟩

/-! ## Sequences of code points -/

theorem wideToSingleByte_map (charset : Bytes) (bs : Bytes) :
    wideToSingleByte charset true (bs.map cp1252CodePoint) = .ok bs := by
  induction bs with
  | nil => rfl
  | cons b bs ih => rw [List.map_cons, wideToSingleByte, singleByteOf_codePoint, ih]

/-- **When code points are encoded, and when they come back.** -/
theorem wideToSingleByte_spec (charset : Bytes) (wide : List Nat) :
    ((∀ cp ∈ wide, Representable cp) → ∃ bs, wideToSingleByte charset true wide = .ok bs ∧
      (bs.map cp1252CodePoint = wide ↔ ∀ cp ∈ wide, ¬ Remapped cp)) ∧
    ((∃ cp ∈ wide, ¬ Representable cp) → ∃ err, wideToSingleByte charset true wide =
      .error err) := by
  induction wide with
  | nil =>
    refine ⟨fun _ => ⟨[], rfl, ?_⟩, ?_⟩
    · exact ⟨fun _ cp hcp => absurd hcp List.not_mem_nil, fun _ => rfl⟩
    · rintro ⟨cp, hcp, -⟩
      cases hcp
  | cons cp wide ih =>
    rw [wideToSingleByte]
    by_cases hcp : Representable cp
    · obtain ⟨b, hb, hback⟩ := (singleByteOf_spec charset cp).1 hcp
      rw [hb]
      constructor
      · intro hall
        obtain ⟨bs, hbs, hbacks⟩ := ih.1 fun x hx => hall x (.tail _ hx)
        refine ⟨b :: bs, by dsimp only; rw [hbs], ?_⟩
        rw [List.map_cons, List.cons.injEq, List.forall_mem_cons, hback, hbacks]
      · rintro ⟨x, hx, hbad⟩
        rcases List.mem_cons.mp hx with rfl | hx
        · exact absurd hcp hbad
        · obtain ⟨err, herr⟩ := ih.2 ⟨x, hx, hbad⟩
          exact ⟨err, by dsimp only; rw [herr]⟩
    · rw [(singleByteOf_spec charset cp).2 hcp]
      exact ⟨fun hall => absurd (hall cp (.head _)) hcp, fun _ => ⟨_, rfl⟩⟩

/-- What has to hold for code points to come back: they are refused, or none is remapped. -/
def Kept (cps : List Nat) : Prop := (∃ cp ∈ cps, ¬ Representable cp) ∨ ∀ cp ∈ cps, ¬ Remapped cp

/-- **Code points come back exactly when they are `Kept`.** -/
theorem kept_iff (charset : Bytes) (wide : List Nat) :
    (∀ bs, wideToSingleByte charset true wide = .ok bs → bs.map cp1252CodePoint = wide) ↔
      Kept wide := by
  obtain ⟨haccepted, hrefused⟩ := wideToSingleByte_spec charset wide
  by_cases hall : ∀ cp ∈ wide, Representable cp
  · obtain ⟨bs, hbs, hback⟩ := haccepted hall
    constructor
    · exact fun h => .inr (hback.mp (h bs hbs))
    · rintro (⟨cp, hcp, hbad⟩ | hkept) bs' hbs'
      · exact absurd (hall cp hcp) hbad
      · rw [hbs] at hbs'
        cases hbs'
        exact hback.mpr hkept
  · obtain ⟨cp, hcp⟩ := not_forall.mp hall
    obtain ⟨hmem, hbad⟩ := Classical.not_imp.mp hcp
    obtain ⟨err, herr⟩ := hrefused ⟨cp, hmem, hbad⟩
    constructor
    · exact fun _ => .inl ⟨cp, hmem, hbad⟩
    · intro _ bs hbs
      rw [herr] at hbs
      cases hbs

/-! ## UTF-8 -/

theorem singleByteLoop_skip (charset : Bytes) (allow : Bool) (as rest : Bytes) (pos : Nat) :
    singleByteLoop charset allow as.length pos (as ++ rest) =
      singleByteLoop charset allow 0 (pos + as.length) rest := by
  induction as generalizing pos with
  | nil => rfl
  | cons a as ih =>
    rw [List.length_cons, List.cons_append, singleByteLoop, ih]
    congr 1
    omega

/-- **On valid UTF-8 the conversion is the one of its code points.** -/
theorem utf8ToSingleByte_encode (charset : Bytes) (allow : Bool) (cs : List Char) :
    utf8ToSingleByte charset (encode cs) allow = wideToSingleByte charset allow
      (cs.map Char.toNat) := by
  suffices h : ∀ pos, singleByteLoop charset allow 0 pos (encode cs) =
      wideToSingleByte charset allow (cs.map Char.toNat) from h 0
  induction cs with
  | nil => exact fun pos => rfl
  | cons c cs ih =>
    intro pos
    have hp := isSequence_utf8EncodeChar c
    have hnext := nextSequence_append hp (encode cs)
    have hdecode := decodeCodePoint_utf8EncodeChar c (encode cs)
    rw [encode_cons, List.map_cons, wideToSingleByte]
    obtain ⟨b, bs, hbs⟩ := List.exists_cons_of_ne_nil hp.1
    rw [hbs, List.cons_append] at hnext hdecode ⊢
    rw [singleByteLoop, utf8NextCodePoint, hnext]
    dsimp only
    rw [hdecode, isSurrogate_toNat, if_neg Bool.false_ne_true]
    dsimp only
    rw [List.length_cons, Nat.add_one_sub_one, singleByteLoop_skip, ih]

/-- Every byte stands for a character. -/
theorem exists_char (b : UInt8) : ∃ c : Char, c.toNat = cp1252CodePoint b :=
  ⟨Char.ofNat (cp1252CodePoint b), toNat_ofNat (.inl (inverse b).2.2)⟩

theorem exists_chars_of_bytes (bs : Bytes) :
    ∃ cs : List Char, cs.map Char.toNat = bs.map cp1252CodePoint := by
  induction bs with
  | nil => exact ⟨[], rfl⟩
  | cons b bs ih =>
    obtain ⟨c, hc⟩ := exists_char b
    obtain ⟨cs, hcs⟩ := ih
    exact ⟨c :: cs, by rw [List.map_cons, hc, hcs, List.map_cons]⟩

/-- A byte string is decoded to the text whose code points it stands for. -/
theorem cp1252ToUtf8_eq_iff (bs : Bytes) (cs : List Char) :
    cp1252ToUtf8 bs = .ok (encode cs) ↔ bs.map cp1252CodePoint = cs.map Char.toNat := by
  obtain ⟨ds, hds⟩ := exists_chars_of_bytes bs
  have hdecode : cp1252ToUtf8 bs = .ok (encode ds) := by
    rw [← flatMap_encoded, hds, List.flatMap_map]
    rfl
  rw [hdecode, ← hds, Except.ok.injEq]
  constructor
  · intro h
    rw [encode_injective h]
  · intro h
    rw [List.map_injective_iff.mpr (fun c d => Char.toNat_inj.mp) h]

/-- **Windows-1252 is lossless** for byte strings; a text, and a wide string, comes back exactly
when it is refused, or has no remapped code point. -/
theorem cp1252_lossless (s : Bytes) (hs : IsUtf8 s) (wide : List Nat) :
    (∀ bs, ∃ text, cp1252ToUtf8 bs = .ok text ∧ utf8ToCp1252 text = .ok bs) ∧
      (∀ bs, ∃ text, cp1252ToWide bs = .ok text ∧ wideToCp1252 text = .ok bs) ∧
        ((∀ bs, utf8ToCp1252 s = .ok bs → cp1252ToUtf8 bs = .ok s) ↔ Kept (utf8ToUtf32 s)) ∧
          ((∀ bs, wideToCp1252 wide = .ok bs → cp1252ToWide bs = .ok wide) ↔ Kept wide) := by
  refine ⟨fun bs => ?_, fun bs => ⟨_, rfl, wideToSingleByte_map _ bs⟩, ?_, ?_⟩
  · obtain ⟨cs, hcs⟩ := exists_chars_of_bytes bs
    refine ⟨encode cs, (cp1252ToUtf8_eq_iff bs cs).mpr hcs.symm, ?_⟩
    rw [utf8ToCp1252, utf8ToSingleByte_encode, hcs, wideToSingleByte_map]
  · obtain ⟨cs, rfl⟩ := hs
    rw [utf8ToUtf32_encode, ← kept_iff (ascii "windows-1252"), utf8ToCp1252,
      utf8ToSingleByte_encode]
    exact forall_congr' fun bs => imp_congr_right fun _ => cp1252ToUtf8_eq_iff bs cs
  · rw [← kept_iff (ascii "windows-1252")]
    exact forall_congr' fun bs => imp_congr_right fun _ => by rw [cp1252ToWide, Except.ok.injEq]

theorem cp1252_lossless_euro :
    (∀ bs, utf8ToCp1252 [0xE2, 0x82, 0xAC] = .ok bs → cp1252ToUtf8 bs = .ok [0xE2, 0x82, 0xAC]) ∧
      ∀ bs, wideToCp1252 [0x20AC] = .ok bs → cp1252ToWide bs = .ok [0x20AC] := by
  obtain ⟨-, -, htext, hwide⟩ := cp1252_lossless [0xE2, 0x82, 0xAC] ⟨['€'], by decide⟩ [0x20AC]
  exact ⟨htext.mpr (.inr (by decide)), hwide.mpr (.inr (by decide))⟩

/-- **The control character `U+0080`** is turned into the euro sign. -/
theorem not_cp1252_lossless :
    ¬ ∀ s, IsUtf8 s → ∀ bs, utf8ToCp1252 s = .ok bs → cp1252ToUtf8 bs = .ok s := by
  intro hclaim
  have hback := hclaim [0xC2, 0x80] ⟨[Char.ofNat 0x80], by decide⟩ [0x80] (by decide)
  revert hback
  decide

end Libca.Str
