import Libca.Common.Search
import Libca.Str.Conversion

/-!
# The charset facade (`str/charset.cpp`, `str/detail/charset_builtin.cpp` 19-92)

`CharsetConverter`: UTF-8 to wide strings and to GB18030, and back. The tables of GB18030 are
generated data, taken as a parameter; `Gb18030Tables.Consistent` is what the generator checks of
them.

* `codePointLoop`: the loops on `utf8_next_code_point`, which refuses surrogates only.
* `utf8ToWide`, `wideToUtf8`: on POSIX through code points, on Windows through UTF-16.
* `utf8ToGb18030`, `gb18030ToUtf8`: by the tables of two-byte codes and of ranges of four-byte
  codes.
* `Agrees`: the conversions succeed exactly on valid UTF-8, and are undone by the ones back.
* `agrees_iff`: **the decoders agree with `utf8_is_valid` except on overlong forms** (and, on POSIX,
  values above `0x10FFFF`) in an otherwise well-formed string, which they accept.
-/

namespace Libca.Str

open Common

/-- The platforms that the facade is compiled for. -/
inductive Platform where
  | posix
  | windows

/-! ## Code points -/

/-- `charset_invalid_sequence`. -/
def charsetInvalidSequence (charset : Bytes) (pos : Nat) : Status :=
  ⟨.invalidArgument, charset ++ ascii ": invalid sequence at byte " ++ toChars 10 pos⟩

/-- The format `\x7b:04X\x7d`. -/
def upperHex (n : Nat) : Bytes :=
  let digits := (toChars 16 n).map fun b => if 97 ≤ b then b - 32 else b
  List.replicate (4 - digits.length) 48 ++ digits

/-- `charset_unrepresentable`. -/
def charsetUnrepresentable (charset : Bytes) (cp : Nat) : Status :=
  ⟨.invalidArgument,
    charset ++ ascii ": code point U+" ++ upperHex cp ++ ascii " is not representable"⟩

/-- A surrogate. -/
def isSurrogate (cp : Nat) : Bool := 0xD800 ≤ cp ∧ cp ≤ 0xDFFF

/-- `utf8_next_code_point`: the code point at the front and its length. -/
def utf8NextCodePoint (data : Bytes) : Option (Nat × Nat) :=
  match nextSequence data with
  | none => none
  | some clen =>
    let cp := decodeCodePoint data
    if isSurrogate cp then none else some (cp, clen)

/-- The loops on `utf8_next_code_point`, at a position where `skip` bytes are still ahead. -/
def codePointLoop {α : Type} (push : α → Nat → Except Status α) :
    Nat → Nat → α → Bytes → Except Status α
  | _, _, out, [] => .ok out
  | skip + 1, pos, out, _ :: rest => codePointLoop push skip (pos + 1) out rest
  | 0, pos, out, b :: rest =>
    match utf8NextCodePoint (b :: rest) with
    | none => .error (charsetInvalidSequence (ascii "utf-8") pos)
    | some (cp, clen) =>
      match push out cp with
      | .error err => .error err
      | .ok out => codePointLoop push (clen - 1) (pos + 1) out rest

theorem codePointLoop_zero {α : Type} (push : α → Nat → Except Status α) (pos : Nat) (out : α)
    (b : UInt8) (rest : Bytes) : codePointLoop push 0 pos out (b :: rest) =
      match utf8NextCodePoint (b :: rest) with
      | none => .error (charsetInvalidSequence (ascii "utf-8") pos)
      | some (cp, clen) =>
        match push out cp with
        | .error err => .error err
        | .ok out => codePointLoop push (clen - 1) (pos + 1) out rest := rfl

/-! ## Wide strings -/

/-- `wide_push_code_point`. -/
def widePushCodePoint (platform : Platform) (out : List Nat) (cp : Nat) : List Nat :=
  match platform with
  | .windows => out ++ utf16Units cp
  | .posix => out ++ [cp]

/-- `utf8_to_wide_via_utf16`. -/
def utf8ToWideViaUtf16 (utf8 : Bytes) : Except Status (List Nat) :=
  if utf8ToUtf16Length utf8 = 0 ∧ ¬ utf8.isEmpty then
    .error (charsetInvalidSequence (ascii "utf-8") 0)
  else if utf8ToUtf16 utf8 = [] then .error (charsetInvalidSequence (ascii "utf-8") 0)
  else .ok (utf8ToUtf16 utf8)

/-- `wide_to_utf8_via_utf16`. -/
def wideToUtf8ViaUtf16 (wide : List Nat) : Except Status Bytes :=
  if utf16ToUtf8Length wide = 0 ∧ ¬ wide.isEmpty then
    .error (charsetInvalidSequence (ascii "utf-16") 0)
  else if utf16ToUtf8 wide = [] then .error (charsetInvalidSequence (ascii "utf-16") 0)
  else .ok (utf16ToUtf8 wide)

/-- `utf8_to_wide_via_ucs4`. -/
def utf8ToWideViaUcs4 (utf8 : Bytes) : Except Status (List Nat) :=
  codePointLoop (fun out cp => .ok (widePushCodePoint .posix out cp)) 0 0 [] utf8

/-- `wide_to_code_points` on POSIX. -/
def wideToCodePoints : List Nat → Except Status (List Nat)
  | [] => .ok []
  | cp :: rest =>
    if notScalar cp then .error (charsetUnrepresentable (ascii "wchar") cp)
    else
      match wideToCodePoints rest with
      | .error err => .error err
      | .ok cps => .ok (cp :: cps)

/-- `wide_to_utf8_via_ucs4`. -/
def wideToUtf8ViaUcs4 (wide : List Nat) : Except Status Bytes :=
  match wideToCodePoints wide with
  | .error err => .error err
  | .ok cps => .ok (cps.flatMap encoded)

/-- `utf8_to_wide`. -/
def utf8ToWide (platform : Platform) (utf8 : Bytes) : Except Status (List Nat) :=
  if utf8.isEmpty then .ok []
  else
    match platform with
    | .windows => utf8ToWideViaUtf16 utf8
    | .posix => utf8ToWideViaUcs4 utf8

/-- `wide_to_utf8`. -/
def wideToUtf8 (platform : Platform) (wide : List Nat) : Except Status Bytes :=
  if wide.isEmpty then .ok []
  else
    match platform with
    | .windows => wideToUtf8ViaUtf16 wide
    | .posix => wideToUtf8ViaUcs4 wide

/-! ## GB18030 -/

/-- The generated tables. -/
structure Gb18030Tables where
  doubleDecode : Array Nat
  encodeCp : Array Nat
  encodeSeq : Array Nat
  rangeCp : Array Nat
  rangePtr : Array Nat

/-- `GB18030_MAX_POINTER`. -/
def gb18030MaxPointer : Nat := 0x0012E247

/-- The index of the second byte of a two-byte code. -/
def trailIndex (b1 : Nat) : Nat := if b1 ≤ 0x7E then b1 - 0x40 else b1 - 0x41

namespace Gb18030Tables

/-- `gb18030_pointer_to_cp`. -/
def pointerToCp (t : Gb18030Tables) (pointer : Nat) : Option Nat :=
  if gb18030MaxPointer < pointer then none
  else
    let ans := lastTrue (fun mid => t.rangePtr.getD mid 0 ≤ pointer) 0 (t.rangeCp.size - 1)
      (t.rangeCp.size - 1)
    let cp := t.rangeCp.getD ans 0 + (pointer - t.rangePtr.getD ans 0)
    if ans + 1 < t.rangeCp.size ∧ t.rangeCp.getD (ans + 1) 0 ≤ cp then none else some cp

/-- `gb18030_next_code_point`, at the front of what is left at a position. -/
def nextCodePoint (t : Gb18030Tables) (data : Bytes) (pos : Nat) : Except Status (Nat × Nat) :=
  let err : Except Status (Nat × Nat) := .error (charsetInvalidSequence (ascii "gb18030") pos)
  let b0 := (data.getD 0 0).toNat
  if b0 < 0x80 then .ok (b0, 1)
  else if b0 = 0x80 ∨ b0 = 0xFF then err
  else if data.length ≤ 1 then err
  else
    let b1 := (data.getD 1 0).toNat
    if 0x30 ≤ b1 ∧ b1 ≤ 0x39 then
      if data.length ≤ 3 then err
      else
        let b2 := (data.getD 2 0).toNat
        let b3 := (data.getD 3 0).toNat
        if b2 < 0x81 ∨ 0xFE < b2 ∨ b3 < 0x30 ∨ 0x39 < b3 then err
        else
          match t.pointerToCp (((b0 - 0x81) * 10 + (b1 - 0x30)) * 1260 + (b2 - 0x81) * 10 +
              (b3 - 0x30)) with
          | none => err
          | some cp => .ok (cp, 4)
    else if (0x40 ≤ b1 ∧ b1 ≤ 0x7E) ∨ (0x80 ≤ b1 ∧ b1 ≤ 0xFE) then
      .ok (t.doubleDecode.getD ((b0 - 0x81) * 190 + trailIndex b1) 0, 2)
    else err

/-- The loop of `gb18030_to_code_points`, with the bytes of the current code still ahead. -/
def codePointsLoop (t : Gb18030Tables) :
    Nat → Nat → List Nat → Bytes → Except Status (List Nat)
  | _, _, cps, [] => .ok cps
  | skip + 1, pos, cps, _ :: rest => codePointsLoop t skip (pos + 1) cps rest
  | 0, pos, cps, b :: rest =>
    match t.nextCodePoint (b :: rest) pos with
    | .error err => .error err
    | .ok (cp, len) => codePointsLoop t (len - 1) (pos + 1) (cps ++ [cp]) rest

/-- `gb18030_encode_lookup`. -/
def encodeLookup (t : Gb18030Tables) (cp : Nat) : Option Nat :=
  let lo := firstFalse (fun mid => t.encodeCp.getD mid 0 < cp) 0 t.encodeCp.size
  if lo < t.encodeCp.size ∧ t.encodeCp.getD lo 0 = cp then some lo else none

/-- The bytes of a four-byte code. -/
def pointerBytes (pointer : Nat) : Bytes :=
  [(0x81 + pointer / 12600).toUInt8, (0x30 + pointer % 12600 / 1260).toUInt8,
    (0x81 + pointer % 1260 / 10).toUInt8, (0x30 + pointer % 10).toUInt8]

/-- `gb18030_cp_to_bytes`. -/
def cpToBytes (t : Gb18030Tables) (cp : Nat) : Option Bytes :=
  if cp < 0x80 then some [cp.toUInt8]
  else if notScalar cp then none
  else
    match t.encodeLookup cp with
    | some idx =>
      let seq := t.encodeSeq.getD idx 0
      some [(seq >>> 8).toUInt8, (seq &&& 0xFF).toUInt8]
    | none =>
      let ans := lastTrue (fun mid => t.rangeCp.getD mid 0 ≤ cp) 0 (t.rangeCp.size - 1)
        (t.rangeCp.size - 1)
      let pointer := t.rangePtr.getD ans 0 + (cp - t.rangeCp.getD ans 0)
      if gb18030MaxPointer < pointer then none else some (pointerBytes pointer)

/-- What the generator checks of the tables: both directions of the two-byte codes agree, the ranges
are in order, and the pointers of the code points of a range that have no two-byte code stay in
it. -/
structure Consistent (t : Gb18030Tables) : Prop where
  encodeSorted : ∀ i j, i < j → j < t.encodeCp.size → t.encodeCp.getD i 0 < t.encodeCp.getD j 0
  double : ∀ i < t.encodeCp.size,
    let lead := t.encodeSeq.getD i 0 >>> 8
    let trail := t.encodeSeq.getD i 0 &&& 0xFF
    0x81 ≤ lead ∧ lead ≤ 0xFE ∧ (0x40 ≤ trail ∧ trail ≤ 0x7E ∨ 0x80 ≤ trail ∧ trail ≤ 0xFE) ∧
      t.doubleDecode.getD ((lead - 0x81) * 190 + trailIndex trail) 0 = t.encodeCp.getD i 0
  rangeStart : 0 < t.rangeCp.size ∧ t.rangeCp.getD 0 0 = 0x80
  rangeCpSorted : ∀ i j, i < j → j < t.rangeCp.size → t.rangeCp.getD i 0 < t.rangeCp.getD j 0
  rangePtrSorted : ∀ i j, i < j → j < t.rangeCp.size → t.rangePtr.getD i 0 < t.rangePtr.getD j 0
  pointer : ∀ cp k, IsScalar cp → (∀ i < t.encodeCp.size, t.encodeCp.getD i 0 ≠ cp) →
    k < t.rangeCp.size → t.rangeCp.getD k 0 ≤ cp →
    (k + 1 < t.rangeCp.size → cp < t.rangeCp.getD (k + 1) 0) →
    t.rangePtr.getD k 0 + (cp - t.rangeCp.getD k 0) ≤ gb18030MaxPointer ∧
      (k + 1 < t.rangeCp.size →
        t.rangePtr.getD k 0 + (cp - t.rangeCp.getD k 0) < t.rangePtr.getD (k + 1) 0)

end Gb18030Tables

/-- What `utf8_to_gb18030` adds for one code point. -/
def pushGb18030 (t : Gb18030Tables) (out : Bytes) (cp : Nat) : Except Status Bytes :=
  match t.cpToBytes cp with
  | none => .error (charsetUnrepresentable (ascii "gb18030") cp)
  | some bytes => .ok (out ++ bytes)

/-- `utf8_to_gb18030`. -/
def utf8ToGb18030 (t : Gb18030Tables) (utf8 : Bytes) : Except Status Bytes :=
  codePointLoop (pushGb18030 t) 0 0 [] utf8

/-- `gb18030_to_utf8`. -/
def gb18030ToUtf8 (t : Gb18030Tables) (gb18030 : Bytes) : Except Status Bytes :=
  match t.codePointsLoop 0 0 [] gb18030 with
  | .error err => .error err
  | .ok cps => .ok (cps.flatMap encoded)

/-! ## What the loops on code points accept -/

section CodePointLoop

variable {α : Type} {push : α → Nat → Except Status α}

/-- What is pushed for some sequences. -/
def pushAll (push : α → Nat → Except Status α) : α → List Bytes → Except Status α
  | out, [] => .ok out
  | out, p :: ps =>
    match push out (decodeCodePoint p) with
    | .error err => .error err
    | .ok out => pushAll push out ps

theorem codePointLoop_skip (as rest : Bytes) (pos : Nat) (out : α) :
    codePointLoop push as.length pos out (as ++ rest) =
      codePointLoop push 0 (pos + as.length) out rest := by
  induction as generalizing pos with
  | nil => rfl
  | cons a as ih =>
    change codePointLoop push as.length (pos + 1) out (as ++ rest) = _
    rw [ih, List.length_cons]
    congr 1
    omega

theorem codePointLoop_append {p : Bytes} (hp : IsSequence p)
    (hvalue : isSurrogate (decodeCodePoint p) = false) (rest : Bytes) (pos : Nat) (out : α) :
    codePointLoop push 0 pos out (p ++ rest) =
      match push out (decodeCodePoint p) with
      | .error err => .error err
      | .ok out => codePointLoop push 0 (pos + p.length) out rest := by
  have hnext := nextSequence_append hp rest
  have hdecode := decodeCodePoint_append hp rest
  obtain ⟨b, bs, rfl⟩ := List.exists_cons_of_ne_nil hp.1
  rw [List.cons_append] at hnext hdecode ⊢
  rw [codePointLoop_zero, utf8NextCodePoint, hnext, hdecode]
  simp only [hvalue, Bool.false_eq_true, if_false, List.length_cons, Nat.add_one_sub_one]
  cases push out (decodeCodePoint (b :: bs)) with
  | error err => rfl
  | ok out =>
    simp only [codePointLoop_skip]
    congr 1
    omega

/-- Over sequences the loop does what is pushed for them. -/
theorem codePointLoop_flatten {ps : List Bytes} (hps : Sequences isSurrogate ps) (pos : Nat)
    (out : α) : codePointLoop push 0 pos out ps.flatten = pushAll push out ps := by
  induction ps generalizing pos out with
  | nil => rfl
  | cons p ps ih =>
    have hp := hps p (.head _)
    rw [List.flatten_cons, codePointLoop_append hp.1 hp.2, pushAll]
    cases push out (decodeCodePoint p) with
    | error err => rfl
    | ok out => exact ih (fun q hq => hps q (.tail _ hq)) _ _

/-- Only sequences without surrogates take the loop to the end. -/
theorem exists_sequences_codePointLoop {data : Bytes} {pos : Nat} {out out' : α}
    (h : codePointLoop push 0 pos out data = .ok out') :
    ∃ ps, data = ps.flatten ∧ Sequences isSurrogate ps := by
  induction hl : data.length using Nat.strong_induction_on generalizing data pos out with
  | _ l ih =>
    cases data with
    | nil => exact ⟨[], rfl, by rintro p ⟨⟩⟩
    | cons b data =>
      cases hnext : nextSequence (b :: data) with
      | none =>
        rw [codePointLoop_zero, utf8NextCodePoint, hnext] at h
        cases h
      | some clen =>
        obtain ⟨p, rest, hsplit, hlen, hp⟩ := exists_sequence hnext
        cases hvalue : isSurrogate (decodeCodePoint p) with
        | true =>
          rw [codePointLoop_zero, utf8NextCodePoint, hnext, hsplit, decodeCodePoint_append hp] at h
          simp [hvalue] at h
        | false =>
          rw [hsplit, codePointLoop_append hp hvalue] at h
          cases hpush : push out (decodeCodePoint p) with
          | error err => simp [hpush] at h
          | ok out =>
            rw [hpush] at h
            have hpos := List.length_pos_iff.mpr hp.1
            have hshort : rest.length < l := by
              rw [← hl, hsplit, List.length_append]
              omega
            obtain ⟨ps, rfl, hps⟩ := ih rest.length hshort h rfl
            refine ⟨p :: ps, by rw [hsplit, List.flatten_cons], fun q hq => ?_⟩
            rcases List.mem_cons.mp hq with rfl | hq
            · exact ⟨hp, hvalue⟩
            · exact hps q hq

end CodePointLoop

theorem isSurrogate_toNat (c : Char) : isSurrogate c.toNat = false := by
  have hc := toNat_scalar c
  unfold isSurrogate
  simp only [decide_eq_false_iff_not]
  omega

variable {s : Bytes}

/-- A loop that refuses less scans more. -/
theorem ScansTo.mono {refuse refuse' : Nat → Bool}
    (h : ∀ cp, refuse cp = false → refuse' cp = false) (hs : ScansTo refuse s) :
    ScansTo refuse' s := by
  obtain ⟨ps, rfl, hps⟩ := hs
  exact ⟨ps, rfl, fun p hp => ⟨(hps p hp).1, h _ (hps p hp).2⟩⟩

theorem isSurrogate_of_notScalar {cp : Nat} (h : notScalar cp = false) : isSurrogate cp =
    false := by
  unfold notScalar at h
  unfold isSurrogate
  simp only [decide_eq_false_iff_not] at h ⊢
  omega

/-! ## Wide strings and back -/

/-- The code points that the conversion to a wide string refuses. -/
def wideRefuses : Platform → Nat → Bool
  | .posix => isSurrogate
  | .windows => notScalar

theorem pushAll_posix (ps : List Bytes) (out : List Nat) :
    pushAll (fun out cp => .ok (widePushCodePoint .posix out cp)) out ps =
      .ok (out ++ ps.map decodeCodePoint) := by
  induction ps generalizing out with
  | nil => simp [pushAll]
  | cons p ps ih =>
    rw [pushAll]
    simp only [ih]
    simp [widePushCodePoint]

theorem utf8ToWideViaUtf16_flatten {ps : List Bytes} (hps : Sequences notScalar ps)
    (hne : ps ≠ []) :
    utf8ToWideViaUtf16 ps.flatten = .ok (utf16OfSequences ps) := by
  have hout := utf16OfSequences_ne_nil hne
  unfold utf8ToWideViaUtf16
  rw [utf8ToUtf16_flatten hps, utf8ToUtf16Length_flatten hps, if_neg, if_neg hout]
  rintro ⟨h0, -⟩
  exact hout (List.length_eq_zero_iff.mp h0)

/-- **What `utf8_to_wide` accepts.** -/
theorem succeeds_utf8ToWide (platform : Platform) (hs : s ≠ []) :
    Succeeds (utf8ToWide platform s) ↔ ScansTo (wideRefuses platform) s := by
  have hempty : ¬ s.isEmpty = true := by simpa using hs
  unfold utf8ToWide
  rw [if_neg hempty]
  cases platform with
  | posix =>
    constructor
    · rintro ⟨out, hout⟩
      exact exists_sequences_codePointLoop hout
    · rintro ⟨ps, rfl, hps⟩
      exact ⟨_, (codePointLoop_flatten hps 0 []).trans (pushAll_posix ps [])⟩
  | windows =>
    constructor
    · rintro ⟨out, hout⟩
      refine (utf8ToUtf16_ne_nil hs).mp fun hnil => ?_
      simp only [utf8ToWideViaUtf16, hnil, if_true] at hout
      split_ifs at hout
    · rintro ⟨ps, rfl, hps⟩
      exact ⟨_, utf8ToWideViaUtf16_flatten hps (ne_nil_of_flatten hs)⟩

theorem wideToCodePoints_toNat (cs : List Char) :
    wideToCodePoints (cs.map Char.toNat) = .ok (cs.map Char.toNat) := by
  induction cs with
  | nil => rfl
  | cons c cs ih => simp [wideToCodePoints, notScalar_toNat, ih]

theorem flatMap_encoded (cs : List Char) : (cs.map Char.toNat).flatMap encoded = encode cs := by
  rw [List.flatMap_map]
  simp [encode]

/-- **Valid UTF-8 comes back from a wide string.** -/
theorem wideToUtf8_utf8ToWide (platform : Platform) (cs : List Char) :
    ∃ wide, utf8ToWide platform (encode cs) = .ok wide ∧ wideToUtf8 platform wide =
      .ok (encode cs) := by
  cases cs with
  | nil => exact ⟨[], rfl, rfl⟩
  | cons c cs =>
    have hne := encode_ne_nil (List.cons_ne_nil c cs)
    have hempty : ¬ (encode (c :: cs)).isEmpty = true := by
      rwa [List.isEmpty_iff]
    have hmap : (c :: cs).map String.utf8EncodeChar ≠ [] := List.cons_ne_nil _ _
    unfold utf8ToWide wideToUtf8
    rw [if_neg hempty]
    cases platform with
    | posix =>
      refine ⟨(c :: cs).map Char.toNat, ?_, ?_⟩
      · have hps := sequences_encode isSurrogate_toNat (c :: cs)
        have hloop := (codePointLoop_flatten hps 0 []).trans (pushAll_posix _ [])
        rw [flatten_utf8EncodeChar, List.nil_append, List.map_eq_flatMap,
          flatMap_utf8EncodeChar fun cp => [cp], ← List.map_eq_flatMap] at hloop
        exact hloop
      · rw [if_neg (by simp)]
        simp only [wideToUtf8ViaUcs4, wideToCodePoints_toNat, flatMap_encoded]
    | windows =>
      refine ⟨utf16OfChars (c :: cs), ?_, ?_⟩
      · have hps := sequences_encode notScalar_toNat (c :: cs)
        have hloop := utf8ToWideViaUtf16_flatten hps hmap
        rwa [flatten_utf8EncodeChar, utf16OfSequences_utf8EncodeChar] at hloop
      · have hout : utf16OfChars (c :: cs) ≠ [] := by
          rw [← utf16OfSequences_utf8EncodeChar]
          exact utf16OfSequences_ne_nil hmap
        have hlen : (encode (c :: cs)).length ≠ 0 := fun h => hne (List.length_eq_zero_iff.mp h)
        rw [if_neg (by simpa using hout)]
        unfold wideToUtf8ViaUtf16
        rw [utf16ToUtf8_utf16OfChars, utf16ToUtf8Length_utf16OfChars, if_neg fun h => hlen h.1,
          if_neg hne]

/-! ## GB18030 and back -/

namespace Gb18030Tables

variable {t : Gb18030Tables}

variable {cp : Nat}

theorem encodeLookup_eq_some {idx : Nat} (h : t.encodeLookup cp = some idx) :
    idx < t.encodeCp.size ∧ t.encodeCp.getD idx 0 = cp := by
  unfold encodeLookup at h
  simp only at h
  split_ifs at h with hfound
  rwa [← Option.some.inj h]

theorem encodeLookup_eq_none (ht : t.Consistent) (h : t.encodeLookup cp = none) :
    ∀ i < t.encodeCp.size, t.encodeCp.getD i 0 ≠ cp := by
  unfold encodeLookup at h
  simp only at h
  split_ifs at h with hfound
  have hmono : ∀ i j, i ≤ j → j < t.encodeCp.size → t.encodeCp.getD i 0 ≤ t.encodeCp.getD j 0 := by
    intro i j hij hj
    rcases Nat.eq_or_lt_of_le hij with rfl | hij
    · exact le_rfl
    · exact (ht.encodeSorted i j hij hj).le
  have hdown : ∀ i j, i ≤ j → j < t.encodeCp.size →
      decide (t.encodeCp.getD j 0 < cp) = true → decide (t.encodeCp.getD i 0 < cp) = true := by
    intro i j hij hj hp
    have hle := hmono i j hij hj
    simp only [decide_eq_true_eq] at hp ⊢
    omega
  obtain ⟨hbelow, habove⟩ := firstFalse_spec hdown 0 t.encodeCp.size (Nat.zero_le _) le_rfl
    (fun i hi => absurd hi (Nat.not_lt_zero i)) (fun i hi hi' => by omega)
  generalize firstFalse _ 0 t.encodeCp.size = lo at hbelow habove hfound
  rintro i hi rfl
  have hlo : lo ≤ i := by
    by_contra hlt
    have hp := hbelow i (by omega)
    simp at hp
  have hle := hmono lo i hlo hi
  have hlo' := habove lo le_rfl (by omega)
  simp only [decide_eq_false_iff_not, not_lt] at hlo'
  exact hfound ⟨by omega, by omega⟩

/-- The range of a code point is found by bisection. -/
theorem exists_range (ht : t.Consistent) (cp : Nat) (hcp : 0x80 ≤ cp) : ∃ k < t.rangeCp.size,
    lastTrue (fun mid => t.rangeCp.getD mid 0 ≤ cp) 0 (t.rangeCp.size - 1) (t.rangeCp.size - 1) =
      k ∧ t.rangeCp.getD k 0 ≤ cp ∧ (k + 1 < t.rangeCp.size → cp < t.rangeCp.getD (k + 1) 0) := by
  obtain ⟨hsize, hstart⟩ := ht.rangeStart
  exact exists_lastTrue ht.rangeCpSorted hsize (hstart.trans_le hcp)

/-- The pointer of a range is mapped back. -/
theorem pointerToCp_eq (ht : t.Consistent) {k : Nat} (hk : k < t.rangeCp.size)
    (hle : t.rangeCp.getD k 0 ≤ cp) (hlt : k + 1 < t.rangeCp.size → cp < t.rangeCp.getD (k + 1) 0)
    (hmax : t.rangePtr.getD k 0 + (cp - t.rangeCp.getD k 0) ≤ gb18030MaxPointer)
    (hnext : k + 1 < t.rangeCp.size →
      t.rangePtr.getD k 0 + (cp - t.rangeCp.getD k 0) < t.rangePtr.getD (k + 1) 0) :
    t.pointerToCp (t.rangePtr.getD k 0 + (cp - t.rangeCp.getD k 0)) = some cp := by
  generalize hpointer : t.rangePtr.getD k 0 + (cp - t.rangeCp.getD k 0) = pointer at *
  have hans : lastTrue (fun mid => t.rangePtr.getD mid 0 ≤ pointer) 0 (t.rangeCp.size - 1)
      (t.rangeCp.size - 1) = k := by
    refine lastTrue_eq (n := t.rangeCp.size) (fun i hi => ?_) (by omega) (by omega) (by omega)
      (by omega)
    rw [decide_eq_true_eq]
    constructor
    · intro hi'
      by_contra hik
      rcases Nat.eq_or_lt_of_le (show k + 1 ≤ i by omega) with rfl | hik'
      · have := hnext hi
        omega
      · have := hnext (by omega)
        have := ht.rangePtrSorted (k + 1) i hik' hi
        omega
    · intro hik
      rcases Nat.eq_or_lt_of_le hik with rfl | hik
      · omega
      · have := ht.rangePtrSorted i k hik hk
        omega
  unfold pointerToCp
  rw [if_neg (by omega), hans]
  have hcp : t.rangeCp.getD k 0 + (pointer - t.rangePtr.getD k 0) = cp := by omega
  simp only [hcp]
  rw [if_neg]
  rintro ⟨hk', hge⟩
  have := hlt hk'
  omega

theorem nextCodePoint_ascii {b : UInt8} (hb : b.toNat < 0x80) (rest : Bytes) (pos : Nat) :
    t.nextCodePoint (b :: rest) pos = .ok (b.toNat, 1) := by
  unfold nextCodePoint
  simp only [List.getD_cons_zero, if_pos hb]

theorem nextCodePoint_double (lead trail : UInt8) (hlead : 0x81 ≤ lead.toNat ∧ lead.toNat ≤ 0xFE)
    (htrail : 0x40 ≤ trail.toNat ∧ trail.toNat ≤ 0x7E ∨ 0x80 ≤ trail.toNat ∧ trail.toNat ≤ 0xFE)
    (rest : Bytes) (pos : Nat) : t.nextCodePoint (lead :: trail :: rest) pos =
      .ok (t.doubleDecode.getD ((lead.toNat - 0x81) * 190 + trailIndex trail.toNat) 0, 2) := by
  unfold nextCodePoint
  simp only [List.getD_cons_zero, List.getD_cons_succ, List.length_cons]
  rw [if_neg (by omega), if_neg (by omega), if_neg (by omega), if_neg (by omega), if_pos htrail]

theorem nextCodePoint_pointer {pointer : Nat} (hmax : pointer ≤ gb18030MaxPointer)
    (hcp : t.pointerToCp pointer = some cp) (rest : Bytes) (pos : Nat) :
    t.nextCodePoint (pointerBytes pointer ++ rest) pos = .ok (cp, 4) := by
  have hbyte : ∀ n < 256, (Nat.toUInt8 n).toNat = n := fun n hn => toNat_ofNat_byte hn
  have hmax' : pointer ≤ 1237575 := hmax
  have hle3 : pointer / 12600 ≤ 98 := by omega
  have hle2 : pointer % 12600 / 1260 ≤ 9 := by omega
  have hle1 : pointer % 1260 / 10 ≤ 125 := by omega
  have hle0 : pointer % 10 ≤ 9 := by omega
  have hpointer : ((0x81 + pointer / 12600 - 0x81) * 10 + (0x30 + pointer % 12600 / 1260 - 0x30)) *
      1260 + (0x81 + pointer % 1260 / 10 - 0x81) * 10 + (0x30 + pointer % 10 - 0x30) = pointer := by
    simp only [Nat.add_sub_cancel_left]
    omega
  unfold nextCodePoint pointerBytes
  clear hmax hmax'
  generalize pointer / 12600 = d3 at *
  generalize pointer % 12600 / 1260 = d2 at *
  generalize pointer % 1260 / 10 = d1 at *
  generalize pointer % 10 = d0 at *
  have h0 := hbyte (0x81 + d3) (by omega)
  have h1 := hbyte (0x30 + d2) (by omega)
  have h2 := hbyte (0x81 + d1) (by omega)
  have h3 := hbyte (0x30 + d0) (by omega)
  simp only [List.cons_append, List.nil_append, List.getD_cons_zero, List.getD_cons_succ,
    List.length_cons, h0, h1, h2, h3, hpointer, hcp]
  clear hpointer
  rw [if_neg (by omega), if_neg (by omega), if_neg (by omega), if_pos (by omega),
    if_neg (by omega), if_neg (by omega)]

/-- **Every character has a code**, which is decoded to it whatever follows. -/
theorem exists_code (ht : t.Consistent) (c : Char) : ∃ bytes, t.cpToBytes c.toNat = some bytes ∧
    bytes ≠ [] ∧ ∀ rest pos, t.nextCodePoint (bytes ++ rest) pos = .ok (c.toNat, bytes.length) := by
  have hc := toNat_scalar c
  have hbyte : ∀ n < 256, (Nat.toUInt8 n).toNat = n := fun n hn => toNat_ofNat_byte hn
  unfold cpToBytes
  by_cases hascii : c.toNat < 0x80
  · rw [if_pos hascii]
    refine ⟨_, rfl, List.cons_ne_nil _ _, fun rest pos => ?_⟩
    have hb := hbyte c.toNat (by omega)
    rw [List.cons_append, List.nil_append, nextCodePoint_ascii (by omega), hb]
    rfl
  rw [if_neg hascii, notScalar_toNat, if_neg Bool.false_ne_true]
  cases hlookup : t.encodeLookup c.toNat with
  | some idx =>
    obtain ⟨hidx, hcp⟩ := encodeLookup_eq_some hlookup
    obtain ⟨hlow, hhigh, htrail, hdecode⟩ := ht.double idx hidx
    refine ⟨_, rfl, List.cons_ne_nil _ _, fun rest pos => ?_⟩
    have hlead := hbyte (t.encodeSeq.getD idx 0 >>> 8) (by omega)
    have htrail' := hbyte (t.encodeSeq.getD idx 0 &&& 0xFF) (by omega)
    have hnext := nextCodePoint_double (t := t) (t.encodeSeq.getD idx 0 >>> 8).toUInt8
      (t.encodeSeq.getD idx 0 &&& 0xFF).toUInt8 (by omega) (by rw [htrail']; exact htrail) rest pos
    rw [hlead, htrail', hdecode, hcp] at hnext
    exact hnext
  | none =>
    obtain ⟨k, hk, hans, hle, hlt⟩ := exists_range ht c.toNat (by omega)
    have hscalar : IsScalar c.toNat := hc.imp_right fun h => ⟨h.1, by omega⟩
    obtain ⟨hmax, hnext⟩ :=
      ht.pointer c.toNat k hscalar (encodeLookup_eq_none ht hlookup) hk hle hlt
    simp only [hans]
    rw [if_neg (by omega)]
    refine ⟨_, rfl, List.cons_ne_nil _ _, fun rest pos => ?_⟩
    exact nextCodePoint_pointer hmax (pointerToCp_eq ht hk hle hlt hmax hnext) rest pos

theorem codePointsLoop_skip (as rest : Bytes) (pos : Nat) (cps : List Nat) :
    t.codePointsLoop as.length pos cps (as ++ rest) =
      t.codePointsLoop 0 (pos + as.length) cps rest := by
  induction as generalizing pos with
  | nil => rfl
  | cons a as ih =>
    rw [List.length_cons, List.cons_append, codePointsLoop, ih]
    congr 1
    omega

/-- A code is decoded by one turn of the loop. -/
theorem codePointsLoop_append {bytes : Bytes} (hne : bytes ≠ [])
    (hnext : ∀ rest pos, t.nextCodePoint (bytes ++ rest) pos = .ok (cp, bytes.length))
    (rest : Bytes) (pos : Nat) (cps : List Nat) :
    t.codePointsLoop 0 pos cps (bytes ++ rest) =
      t.codePointsLoop 0 (pos + bytes.length) (cps ++ [cp]) rest := by
  have hnext' := hnext rest pos
  obtain ⟨b, bs, rfl⟩ := List.exists_cons_of_ne_nil hne
  rw [List.cons_append] at hnext' ⊢
  rw [codePointsLoop, hnext']
  simp only [List.length_cons, Nat.add_one_sub_one]
  rw [codePointsLoop_skip]
  congr 1
  omega

end Gb18030Tables

variable {t : Gb18030Tables}

namespace Gb18030Tables

/-- The code of a character. -/
def code (t : Gb18030Tables) (c : Char) : Bytes := (t.cpToBytes c.toNat).getD []

/-- The codes of a string. -/
def codes (t : Gb18030Tables) (cs : List Char) : Bytes := cs.flatMap t.code

theorem cpToBytes_toNat (ht : t.Consistent) (c : Char) :
    t.cpToBytes c.toNat = some (t.code c) ∧ t.code c ≠ [] ∧
    ∀ rest pos, t.nextCodePoint (t.code c ++ rest) pos = .ok (c.toNat, (t.code c).length) := by
  obtain ⟨bytes, hbytes, hne, hnext⟩ := exists_code ht c
  have hcode : t.code c = bytes := by rw [code, hbytes, Option.getD_some]
  rw [hcode]
  exact ⟨hbytes, hne, hnext⟩

theorem codes_cons (c : Char) (cs : List Char) : t.codes (c :: cs) = t.code c ++ t.codes cs :=
  List.flatMap_cons

/-- The codes of a string are decoded to its code points. -/
theorem codePointsLoop_codes (ht : t.Consistent) (cs : List Char) (pos : Nat) (cps : List Nat) :
    t.codePointsLoop 0 pos cps (t.codes cs) = .ok (cps ++ cs.map Char.toNat) := by
  induction cs generalizing pos cps with
  | nil => simp [codes, codePointsLoop]
  | cons c cs ih =>
    obtain ⟨-, hne, hnext⟩ := cpToBytes_toNat ht c
    rw [codes_cons, codePointsLoop_append hne hnext, ih, List.append_assoc]
    rfl

end Gb18030Tables

theorem pushGb18030_toNat (ht : t.Consistent) (out : Bytes) (c : Char) :
    pushGb18030 t out c.toNat = .ok (out ++ t.code c) := by
  rw [pushGb18030, (Gb18030Tables.cpToBytes_toNat ht c).1]

/-- **Valid UTF-8 is converted to the codes of its characters.** -/
theorem utf8ToGb18030_encode (ht : t.Consistent) (cs : List Char) :
    utf8ToGb18030 t (encode cs) = .ok (t.codes cs) := by
  have hpush (cs : List Char) (out : Bytes) :
      pushAll (pushGb18030 t) out (cs.map String.utf8EncodeChar) = .ok (out ++ t.codes cs) := by
    induction cs generalizing out with
    | nil => simp [pushAll, Gb18030Tables.codes]
    | cons c cs ih =>
      have hdecode := decodeCodePoint_utf8EncodeChar c []
      rw [List.append_nil] at hdecode
      rw [List.map_cons, pushAll, hdecode, pushGb18030_toNat ht]
      dsimp only
      rw [ih, Gb18030Tables.codes_cons, List.append_assoc]
  rw [← flatten_utf8EncodeChar]
  exact (codePointLoop_flatten (sequences_encode isSurrogate_toNat cs) 0 []).trans (hpush cs [])

/-- **The codes of a string are converted to its UTF-8.** -/
theorem gb18030ToUtf8_codes (ht : t.Consistent) (cs : List Char) :
    gb18030ToUtf8 t (t.codes cs) = .ok (encode cs) := by
  rw [gb18030ToUtf8, Gb18030Tables.codePointsLoop_codes ht, List.nil_append]
  exact congrArg _ (flatMap_encoded cs)

/-- What is converted to GB18030 has scalar values only. -/
theorem scansTo_of_utf8ToGb18030 (h : Succeeds (utf8ToGb18030 t s)) : ScansTo notScalar s := by
  obtain ⟨out, hout⟩ := h
  obtain ⟨ps, rfl, hps⟩ := exists_sequences_codePointLoop hout
  refine ⟨ps, rfl, fun p hp => ⟨(hps p hp).1, ?_⟩⟩
  have hall : pushAll (pushGb18030 t) [] ps = .ok out :=
    (codePointLoop_flatten hps 0 []).symm.trans hout
  clear hout hps
  generalize ([] : Bytes) = out₀ at hall
  induction ps generalizing out₀ with
  | nil => cases hp
  | cons q ps ih =>
    rw [pushAll] at hall
    cases hpush : pushGb18030 t out₀ (decodeCodePoint q) with
    | error err => simp [hpush] at hall
    | ok out₁ =>
      rw [hpush] at hall
      rcases List.mem_cons.mp hp with rfl | hp
      · by_contra hbad
        simp only [Bool.not_eq_false] at hbad
        have hbig : ¬ decodeCodePoint p < 0x80 := by
          intro hsmall
          simp only [notScalar, decide_eq_true_eq] at hbad
          omega
        simp [pushGb18030, Gb18030Tables.cpToBytes, hbig, hbad] at hpush
      · exact ih hp out₁ hall

/-! ## Agreement -/

/-- Each conversion succeeds on a string exactly when it is valid, and then the conversion back
yields the string. -/
structure Agrees (platform : Platform) (t : Gb18030Tables) (s : Bytes) : Prop where
  utf16 : utf8ToUtf16 s ≠ [] ↔ isValid s = true
  utf16Owned : Succeeds (utf8ToUtf16Owned s) ↔ isValid s = true
  utf32 : utf8ToUtf32 s ≠ [] ↔ isValid s = true
  wide : Succeeds (utf8ToWide platform s) ↔ isValid s = true
  gb18030 : Succeeds (utf8ToGb18030 t s) ↔ isValid s = true
  utf16Back : utf8ToUtf16 s ≠ [] → utf16ToUtf8 (utf8ToUtf16 s) = s
  utf16OwnedBack : ∀ out, utf8ToUtf16Owned s = .ok out → utf16ToUtf8Owned out = .ok s
  utf32Back : utf8ToUtf32 s ≠ [] → utf32ToUtf8 (utf8ToUtf32 s) = s
  wideBack : ∀ out, utf8ToWide platform s = .ok out → wideToUtf8 platform out = .ok s
  gb18030Back : ∀ out, utf8ToGb18030 t s = .ok out → gb18030ToUtf8 t out = .ok s

theorem notScalar_scansTo_wide (platform : Platform) (h : ScansTo notScalar s) :
    ScansTo (wideRefuses platform) s := by
  cases platform with
  | posix => exact h.mono fun cp => isSurrogate_of_notScalar
  | windows => exact h

/-- Valid UTF-8 is converted and comes back. -/
theorem agrees_encode (platform : Platform) (ht : t.Consistent) {cs : List Char}
    (hcs : encode cs ≠ []) :
    Agrees platform t (encode cs) := by
  have hvalid : isValid (encode cs) = true := isValid_iff.mpr (isUtf8_encode cs)
  have hscan : ScansTo notScalar (encode cs) :=
    ⟨_, (flatten_utf8EncodeChar cs).symm, sequences_encode notScalar_toNat cs⟩
  obtain ⟨wide, hwide, hwideBack⟩ := wideToUtf8_utf8ToWide platform cs
  have hgb := utf8ToGb18030_encode ht cs
  refine
    { utf16 := iff_of_true ((utf8ToUtf16_ne_nil hcs).mpr hscan) hvalid
      utf16Owned := iff_of_true ((succeeds_utf8ToUtf16Owned hcs).mpr hscan) hvalid
      utf32 := iff_of_true ((utf8ToUtf32_ne_nil hcs).mpr hscan) hvalid
      wide := iff_of_true ⟨wide, hwide⟩ hvalid
      gb18030 := iff_of_true ⟨_, hgb⟩ hvalid
      utf16Back := fun _ => ?_, utf16OwnedBack := fun out hout => ?_, utf32Back := fun _ => ?_,
      wideBack := fun out hout => ?_, gb18030Back := fun out hout => ?_ }
  · rw [utf8ToUtf16_encode, utf16ToUtf8_utf16OfChars]
  · rw [utf8ToUtf16Owned_encode] at hout
    rw [← Except.ok.inj hout, utf16ToUtf8Owned_utf16OfChars]
  · rw [utf8ToUtf32_encode, utf32ToUtf8_toNat]
  · rw [hwide] at hout
    rw [← Except.ok.inj hout, hwideBack]
  · rw [hgb] at hout
    rw [← Except.ok.inj hout, gb18030ToUtf8_codes ht]

/-- A string that not even the conversion to a wide string takes is refused by all. -/
theorem agrees_of_not_scansTo {platform : Platform} (hs : s ≠ [])
    (h : ¬ ScansTo (wideRefuses platform) s) : Agrees platform t s := by
  have h16 : ¬ ScansTo notScalar s := fun h' => h (notScalar_scansTo_wide platform h')
  have hinvalid : ¬ isValid s = true := by
    intro hvalid
    obtain ⟨cs, rfl⟩ := isValid_iff.mp hvalid
    exact h16 ⟨_, (flatten_utf8EncodeChar cs).symm, sequences_encode notScalar_toNat cs⟩
  have hutf16 : ¬ utf8ToUtf16 s ≠ [] := fun h' => h16 ((utf8ToUtf16_ne_nil hs).mp h')
  have howned : ¬ Succeeds (utf8ToUtf16Owned s) := fun h' =>
    h16 ((succeeds_utf8ToUtf16Owned hs).mp h')
  have hutf32 : ¬ utf8ToUtf32 s ≠ [] := fun h' => h16 ((utf8ToUtf32_ne_nil hs).mp h')
  have hwide : ¬ Succeeds (utf8ToWide platform s) := fun h' =>
    h ((succeeds_utf8ToWide platform hs).mp h')
  have hgb : ¬ Succeeds (utf8ToGb18030 t s) := fun h' => h16 (scansTo_of_utf8ToGb18030 h')
  exact
    { utf16 := iff_of_false hutf16 hinvalid
      utf16Owned := iff_of_false howned hinvalid
      utf32 := iff_of_false hutf32 hinvalid
      wide := iff_of_false hwide hinvalid
      gb18030 := iff_of_false hgb hinvalid
      utf16Back := fun h' => absurd h' hutf16
      utf16OwnedBack := fun out hout => absurd ⟨out, hout⟩ howned
      utf32Back := fun h' => absurd h' hutf32
      wideBack := fun out hout => absurd ⟨out, hout⟩ hwide
      gb18030Back := fun out hout => absurd ⟨out, hout⟩ hgb }

/-- **The decoders agree with the validity check** on a string exactly when it is valid, or is no
concatenation of first bytes with their continuation bytes whose values avoid the surrogates (and,
on Windows, exceed no `0x10FFFF`). -/
theorem agrees_iff (platform : Platform) (ht : t.Consistent) {s : Bytes} (hs : s ≠ []) :
    Agrees platform t s ↔ isValid s = true ∨ ¬ ScansTo (wideRefuses platform) s := by
  constructor
  · intro h
    by_cases hscan : ScansTo (wideRefuses platform) s
    · exact .inl (h.wide.mp ((succeeds_utf8ToWide platform hs).mpr hscan))
    · exact .inr hscan
  · rintro (hvalid | hscan)
    · obtain ⟨cs, rfl⟩ := isValid_iff.mp hvalid
      exact agrees_encode platform ht hs
    · exact agrees_of_not_scansTo hs hscan

/-! ## An excerpt of the tables -/

/-- The codes of the euro sign and of the code points above `0xFFFF` as they are in GB18030, and
four-byte codes for all others. -/
def sampleTables : Gb18030Tables where
  doubleDecode := Array.replicate 6433 0x20AC
  encodeCp := #[0x20AC]
  encodeSeq := #[0xA2E3]
  rangeCp := #[0x80, 0x20AD, 0xE000, 0x10000]
  rangePtr := #[0, 8236, 55167, 189000]

theorem consistent_sampleTables : sampleTables.Consistent where
  encodeSorted i j hij hj := by
    have hj' : j < 1 := hj
    omega
  double i hi := by
    have hi' : i < 1 := hi
    obtain rfl : i = 0 := by omega
    refine ⟨by decide, by decide, by decide, ?_⟩
    simp [sampleTables, trailIndex]
  rangeStart := ⟨by decide, by decide⟩
  rangeCpSorted i j hij hj := by
    have hj' : j < 4 := hj
    interval_cases j <;> interval_cases i <;> decide
  rangePtrSorted i j hij hj := by
    have hj' : j < 4 := hj
    interval_cases j <;> interval_cases i <;> decide
  pointer cp k hscalar hdouble hk hle hlt := by
    have hk' : k < 4 := hk
    have heuro : cp ≠ 0x20AC := fun h => hdouble 0 (by decide) h.symm
    unfold IsScalar at hscalar
    interval_cases k <;>
      simp [sampleTables, gb18030MaxPointer] at hle hlt ⊢ <;> omega

theorem agrees_iff_sampleTables :
    Agrees .posix sampleTables (encode ['A', '€', '😀']) ↔ isValid (encode ['A', '€', '😀']) = true ∨
      ¬ ScansTo (wideRefuses .posix) (encode ['A', '€', '😀']) :=
  agrees_iff .posix consistent_sampleTables (by decide)

/-- The overlong form of NUL is converted to UTF-16, and it is not valid. -/
theorem not_agrees_overlong : ¬ ∀ (platform : Platform) (t : Gb18030Tables) (s : Bytes),
    t.Consistent → s ≠ [] → Agrees platform t s := by
  intro h
  have hagrees := h .posix sampleTables [0xC0, 0x80] consistent_sampleTables (by decide)
  have hvalid := hagrees.utf16.mp (by decide)
  cases hvalid

end Libca.Str
