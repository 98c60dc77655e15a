import Libca.Str.Scalars

/-!
# Conversions between UTF-8, UTF-16 and UTF-32 (`str/conversion.cpp` 183-408)

* `scanLoop`: the loop that the conversions from UTF-8 share; each has its own result and its own
  code points that it refuses.
* `utf8ToUtf16`, `utf8ToUtf32`, `utf16ToUtf8`, `utf32ToUtf8`: the conversions into a buffer, whose
  result is empty where the source returns `0`, with the functions that measure the buffer.
* `utf8ToUtf16Owned`, `utf16ToUtf8Owned`: the conversions with a status.
* `Sequences`: what the loops accept, a concatenation of sequences with a first byte, its number of
  continuation bytes and a value that is not refused. `scanLoop_flatten`, `exists_sequences`: a
  buffer is scanned to the end exactly when it is one.
* `utf8ToUtf16_encode`, `utf16ToUtf8_utf16OfChars`, `utf8ToUtf32_encode`, `utf32ToUtf8_toNat`: valid
  UTF-8 is converted to the code units and code points of its characters, and these back to it.
-/

namespace Libca.Str

open Common

/-! ## Statuses -/

/-- `StatusCode`, as far as the conversions use it. -/
inductive StatusCode where
  | invalidArgument
  | internal
  deriving DecidableEq

/-- `Status`. -/
structure Status where
  code : StatusCode
  message : Bytes
  deriving DecidableEq

/-- The answer of a conversion is a success. -/
def Succeeds {α : Type} (result : Except Status α) : Prop := ∃ out, result = .ok out

/-! ## From UTF-8 -/

/-- The length of the sequence at the front: the check that opens each turn of the loops. -/
def nextSequence (data : Bytes) : Option Nat :=
  let clen := codePointBytes (data.getD 0 0)
  if clen = 0 ∨ data.length < clen ∨ ¬ validContinuation data clen then none else some clen

/-- The loops over a buffer, where `skip` bytes of the current sequence are still ahead. -/
def scanLoop {α : Type} (refuse : Nat → Bool) (emit : α → Nat → α) : Nat → α → Bytes → Option α
  | _, out, [] => some out
  | skip + 1, out, _ :: rest => scanLoop refuse emit skip out rest
  | 0, out, b :: rest =>
    match nextSequence (b :: rest) with
    | none => none
    | some clen =>
      let cp := decodeCodePoint (b :: rest)
      if refuse cp then none else scanLoop refuse emit (clen - 1) (emit out cp) rest

/-- The code points that the conversions to UTF-16 and UTF-32 refuse. -/
def notScalar (cp : Nat) : Bool := 0x10FFFF < cp ∨ (0xD800 ≤ cp ∧ cp ≤ 0xDFFF)

/-- `Utf16Char::encode_pair`. -/
def encodePair (cp : Nat) : Nat × Nat :=
  let cp := cp - 0x10000
  (0xD800 + cp >>> 10, 0xDC00 + (cp &&& 0x03FF))

/-- The code units of a code point. -/
def utf16Units (cp : Nat) : List Nat :=
  if 0x10000 ≤ cp then [(encodePair cp).1, (encodePair cp).2] else [cp]

/-- `utf8_to_utf16_length`. -/
def utf8ToUtf16Length (utf8 : Bytes) : Nat :=
  (scanLoop notScalar (fun count cp => count + if 0x10000 ≤ cp then 2 else 1) 0 0 utf8).getD 0

/-- `utf8_to_utf16`, into a buffer. -/
def utf8ToUtf16 (utf8 : Bytes) : List Nat :=
  (scanLoop notScalar (fun out cp => out ++ utf16Units cp) 0 [] utf8).getD []

/-- `utf8_to_utf32_length`. -/
def utf8ToUtf32Length (utf8 : Bytes) : Nat :=
  (scanLoop notScalar (fun count _ => count + 1) 0 0 utf8).getD 0

/-- `utf8_to_utf32`, into a buffer. -/
def utf8ToUtf32 (utf8 : Bytes) : List Nat :=
  (scanLoop notScalar (fun out cp => out ++ [cp]) 0 [] utf8).getD []

/-- `invalid_sequence`. -/
def invalidSequence (message : Bytes) : Status := ⟨.invalidArgument, message⟩

/-- `utf8_to_utf16` of a `std::string_view`. -/
def utf8ToUtf16Owned (utf8 : Bytes) : Except Status (List Nat) :=
  if utf8.isEmpty then .ok []
  else if utf8ToUtf16Length utf8 = 0 then
    .error (invalidSequence (ascii "utf8_to_utf16: invalid UTF-8 sequence"))
  else if (utf8ToUtf16 utf8).length ≠ utf8ToUtf16Length utf8 then
    .error ⟨.internal, ascii "utf8_to_utf16: length and conversion disagree"⟩
  else .ok (utf8ToUtf16 utf8)

/-! ## To UTF-8 -/

/-- `Utf16Char::is_lead_surrogate`. -/
def isLeadSurrogate (unit : Nat) : Bool := 0xD800 ≤ unit ∧ unit ≤ 0xDBFF

/-- `Utf16Char::is_trail_surrogate`. -/
def isTrailSurrogate (unit : Nat) : Bool := 0xDC00 ≤ unit ∧ unit ≤ 0xDFFF

/-- `Utf16Char::decode_pair`. -/
def decodePair (high low : Nat) : Nat := 0x10000 + (high - 0xD800) <<< 10 + (low - 0xDC00)

/-- The number of bytes that a code point takes. -/
def utf8Bytes (cp : Nat) : Nat :=
  if cp ≤ 0x7F then 1 else if cp ≤ 0x7FF then 2 else if cp ≤ 0xFFFF then 3 else 4

/-- The bytes that `utf8_encode_code_point` adds to a buffer. -/
def encoded (cp : Nat) : Bytes := (encodeCodePoint cp).getD []

/-- The loops over code units: a lead surrogate goes with the trail surrogate after it. -/
def utf16Loop {α : Type} (emit : α → Nat → α) : α → List Nat → Option α
  | out, [] => some out
  | out, [unit] =>
    if isLeadSurrogate unit then none
    else if isTrailSurrogate unit then none
    else some (emit out unit)
  | out, unit :: next :: rest =>
    if isLeadSurrogate unit then
      if isTrailSurrogate next then utf16Loop emit (emit out (decodePair unit next)) rest else none
    else if isTrailSurrogate unit then none
    else utf16Loop emit (emit out unit) (next :: rest)

/-- `utf16_to_utf8_length`. -/
def utf16ToUtf8Length (utf16 : List Nat) : Nat :=
  (utf16Loop (fun count cp => count + utf8Bytes cp) 0 utf16).getD 0

/-- `utf16_to_utf8`, into a buffer. -/
def utf16ToUtf8 (utf16 : List Nat) : Bytes :=
  (utf16Loop (fun out cp => out ++ encoded cp) [] utf16).getD []

/-- `utf16_to_utf8` of a `std::u16string_view`. -/
def utf16ToUtf8Owned (utf16 : List Nat) : Except Status Bytes :=
  if utf16.isEmpty then .ok []
  else if utf16ToUtf8Length utf16 = 0 then
    .error (invalidSequence (ascii "utf16_to_utf8: unpaired surrogate"))
  else if (utf16ToUtf8 utf16).length ≠ utf16ToUtf8Length utf16 then
    .error ⟨.internal, ascii "utf16_to_utf8: length and conversion disagree"⟩
  else .ok (utf16ToUtf8 utf16)

/-- The loop of `utf32_to_utf8`. -/
def utf32Loop : Bytes → List Nat → Option Bytes
  | out, [] => some out
  | out, cp :: rest =>
    match encodeCodePoint cp with
    | none => none
    | some bytes => utf32Loop (out ++ bytes) rest

/-- `utf32_to_utf8`, into a buffer. -/
def utf32ToUtf8 (utf32 : List Nat) : Bytes := (utf32Loop [] utf32).getD []

/-! ## What the loops accept -/

/-- A first byte with its number of continuation bytes. -/
def IsSequence (p : Bytes) : Prop :=
  p ≠ [] ∧ codePointBytes (p.getD 0 0) = p.length ∧
    ∀ b ∈ p.tail, 0x80 ≤ b.toNat ∧ b.toNat < 0xC0

/-- Sequences whose values are not refused. -/
def Sequences (refuse : Nat → Bool) (ps : List Bytes) : Prop :=
  ∀ p ∈ ps, IsSequence p ∧ refuse (decodeCodePoint p) = false

theorem validContinuation_append (p rest : Bytes) :
    validContinuation (p ++ rest) p.length = true ↔
      ∀ b ∈ p.tail, 0x80 ≤ b.toNat ∧ b.toNat < 0xC0 := by
  unfold validContinuation
  rw [List.take_left, List.drop_one, List.all_eq_true]
  refine forall₂_congr fun b _ => ?_
  rw [← continuation_iff b, bne_eq_false_iff_eq, beq_iff_eq]

/-- A sequence at the front is found. -/
theorem nextSequence_append {p : Bytes} (hp : IsSequence p) (rest : Bytes) :
    nextSequence (p ++ rest) = some p.length := by
  obtain ⟨hne, hlen, hcont⟩ := hp
  have hpos := List.length_pos_iff.mpr hne
  obtain ⟨b, bs, rfl⟩ := List.exists_cons_of_ne_nil hne
  have hcp : codePointBytes (((b :: bs) ++ rest).getD 0 0) = (b :: bs).length := hlen
  unfold nextSequence
  simp only [hcp]
  rw [if_neg]
  rintro (h | h | h)
  · omega
  · rw [List.length_append] at h
    omega
  · exact h ((validContinuation_append _ _).mpr hcont)

/-- Only a sequence is found. -/
theorem exists_sequence {data : Bytes} {clen : Nat} (h : nextSequence data = some clen) :
    ∃ p rest, data = p ++ rest ∧ p.length = clen ∧ IsSequence p := by
  unfold nextSequence at h
  simp only at h
  split_ifs at h with hbad
  cases h
  simp only [not_or, not_lt, not_not] at hbad
  obtain ⟨h0, hle, hcont⟩ := hbad
  have hlen : (data.take (codePointBytes (data.getD 0 0))).length =
      codePointBytes (data.getD 0 0) := List.length_take_of_le hle
  have hsplit := List.take_append_drop (codePointBytes (data.getD 0 0)) data
  refine ⟨_, _, hsplit.symm, hlen, List.ne_nil_of_length_pos (by omega), ?_, ?_⟩
  · rw [hlen, List.getD_eq_getElem?_getD, List.getElem?_take_of_lt (by omega),
      ← List.getD_eq_getElem?_getD]
  · rw [← validContinuation_append _ (data.drop (codePointBytes (data.getD 0 0))), hsplit, hlen]
    exact hcont

/-- A sequence is decoded without what follows it. -/
theorem decodeCodePoint_append {p : Bytes} (hp : IsSequence p) (rest : Bytes) :
    decodeCodePoint (p ++ rest) = decodeCodePoint p := by
  obtain ⟨hne, hlen, -⟩ := hp
  obtain ⟨b, bs, rfl⟩ := List.exists_cons_of_ne_nil hne
  rw [List.getD_cons_zero] at hlen
  have hle : (b :: bs).length ≤ bs.length + 1 := le_rfl
  rw [List.cons_append, decodeCodePoint_eq hlen (Nat.succ_ne_zero _)
    (hle.trans (by simp)), decodeCodePoint_eq hlen (Nat.succ_ne_zero _) hle]
  match bs with
  | [] => rfl
  | [_] => rfl
  | [_, _] => rfl
  | _ :: _ :: _ :: _ => rfl

section ScanLoop

variable {α : Type} {refuse : Nat → Bool} {emit : α → Nat → α}

theorem scanLoop_skip (as rest : Bytes) (out : α) :
    scanLoop refuse emit as.length out (as ++ rest) = scanLoop refuse emit 0 out rest := by
  induction as with
  | nil => rfl
  | cons a as ih => exact ih

theorem scanLoop_append {p : Bytes} (hp : IsSequence p)
    (hvalue : refuse (decodeCodePoint p) = false) (rest : Bytes) (out : α) :
    scanLoop refuse emit 0 out (p ++ rest) =
      scanLoop refuse emit 0 (emit out (decodeCodePoint p)) rest := by
  have hnext := nextSequence_append hp rest
  have hdecode := decodeCodePoint_append hp rest
  obtain ⟨b, bs, rfl⟩ := List.exists_cons_of_ne_nil hp.1
  rw [List.cons_append] at hnext hdecode ⊢
  rw [scanLoop, hnext, hdecode]
  simp only [hvalue, Bool.false_eq_true, if_false, List.length_cons, Nat.add_one_sub_one]
  exact scanLoop_skip bs rest _

/-- Sequences are scanned to the end. -/
theorem scanLoop_flatten {ps : List Bytes} (hps : Sequences refuse ps) (out : α) :
    scanLoop refuse emit 0 out ps.flatten =
      some (ps.foldl (fun out p => emit out (decodeCodePoint p)) out) := by
  induction ps generalizing out with
  | nil => rfl
  | cons p ps ih =>
    have hp := hps p (.head _)
    rw [List.flatten_cons, scanLoop_append hp.1 hp.2, List.foldl_cons]
    exact ih (fun q hq => hps q (.tail _ hq)) _

/-- Only sequences are scanned to the end. -/
theorem exists_sequences {data : Bytes} {out out' : α}
    (h : scanLoop refuse emit 0 out data = some out') :
    ∃ ps, data = ps.flatten ∧ Sequences refuse ps := by
  induction hl : data.length using Nat.strong_induction_on generalizing data out with
  | _ l ih =>
    cases data with
    | nil => exact ⟨[], rfl, by rintro p ⟨⟩⟩
    | cons b data =>
      rw [scanLoop] at h
      cases hnext : nextSequence (b :: data) with
      | none =>
        rw [hnext] at h
        cases h
      | some clen =>
        obtain ⟨p, rest, hsplit, hlen, hp⟩ := exists_sequence hnext
        rw [hnext, hsplit, decodeCodePoint_append hp] at h
        simp only at h
        split_ifs at h with hvalue
        obtain ⟨c, cs, rfl⟩ := List.exists_cons_of_ne_nil hp.1
        obtain ⟨rfl, rfl⟩ := List.cons.inj (hsplit.trans (List.cons_append ..))
        rw [← hlen, List.length_cons, Nat.add_one_sub_one, scanLoop_skip] at h
        obtain ⟨ps, rfl, hps⟩ := ih rest.length (by rw [← hl]; simp) h rfl
        refine ⟨(b :: cs) :: ps, by rw [hsplit, List.flatten_cons], fun q hq => ?_⟩
        rcases List.mem_cons.mp hq with rfl | hq
        · exact ⟨hp, by simpa using hvalue⟩
        · exact hps q hq

end ScanLoop

/-! ## Valid UTF-8 -/

/-- An encoded character is a sequence. -/
theorem isSequence_utf8EncodeChar (c : Char) : IsSequence (String.utf8EncodeChar c) := by
  have hseq := sequenceLength_eq_some.mp (sequenceLength_utf8EncodeChar c [])
  rw [List.append_nil] at hseq
  obtain ⟨hne, hlen, -, -, hcont, -⟩ := hseq
  refine ⟨hne, ?_, ?_⟩
  · obtain ⟨b, bs, hc⟩ := List.exists_cons_of_ne_nil hne
    rw [hc] at hlen ⊢
    exact hlen.symm
  · rwa [← List.length_tail, List.take_length] at hcont

theorem notScalar_toNat (c : Char) : notScalar c.toNat = false := by
  have hc := toNat_scalar c
  unfold notScalar
  simp only [decide_eq_false_iff_not]
  omega

/-- The encodings of characters are sequences, for loops that refuse no scalar value. -/
theorem sequences_encode {refuse : Nat → Bool} (hrefuse : ∀ c : Char, refuse c.toNat = false)
    (cs : List Char) : Sequences refuse (cs.map String.utf8EncodeChar) := by
  rintro p hp
  obtain ⟨c, -, rfl⟩ := List.mem_map.mp hp
  refine ⟨isSequence_utf8EncodeChar c, ?_⟩
  have hdecode := decodeCodePoint_utf8EncodeChar c []
  rw [List.append_nil] at hdecode
  rw [hdecode]
  exact hrefuse c

theorem flatten_utf8EncodeChar (cs : List Char) :
    (cs.map String.utf8EncodeChar).flatten = encode cs :=
  (List.flatMap_def ..).symm

/-- What is made of the values of encoded characters is made of their code points. -/
theorem flatMap_utf8EncodeChar {α : Type} (f : Nat → List α) (cs : List Char) :
    (cs.map String.utf8EncodeChar).flatMap (fun p => f (decodeCodePoint p)) =
      cs.flatMap fun c => f c.toNat := by
  rw [List.flatMap_map]
  refine List.flatMap_congr fun c _ => ?_
  have hdecode := decodeCodePoint_utf8EncodeChar c []
  rw [List.append_nil] at hdecode
  rw [hdecode]

/-! ## The conversions from UTF-8 -/

theorem foldl_append_flatMap {α β : Type} (f : α → List β) (as : List α) (out : List β) :
    as.foldl (fun out a => out ++ f a) out = out ++ as.flatMap f := by
  induction as generalizing out with
  | nil => simp
  | cons a as ih => rw [List.foldl_cons, ih, List.flatMap_cons, List.append_assoc]

theorem foldl_add_length {α β : Type} (f : α → List β) (as : List α) (n : Nat) :
    as.foldl (fun n a => n + (f a).length) n = n + (as.flatMap f).length := by
  induction as generalizing n with
  | nil => simp
  | cons a as ih => rw [List.foldl_cons, ih, List.flatMap_cons, List.length_append, Nat.add_assoc]

/-- The code units of some sequences. -/
def utf16OfSequences (ps : List Bytes) : List Nat := ps.flatMap fun p =>
    utf16Units (decodeCodePoint p)

variable {ps : List Bytes}

theorem utf8ToUtf16_flatten (hps : Sequences notScalar ps) :
    utf8ToUtf16 ps.flatten = utf16OfSequences ps := by
  rw [utf8ToUtf16, scanLoop_flatten hps,
    foldl_append_flatMap fun p => utf16Units (decodeCodePoint p)]
  rfl

theorem utf8ToUtf16Length_flatten (hps : Sequences notScalar ps) :
    utf8ToUtf16Length ps.flatten = (utf16OfSequences ps).length := by
  have hlen : ∀ cp, (if 0x10000 ≤ cp then 2 else 1) = (utf16Units cp).length := by
    intro cp
    unfold utf16Units
    split_ifs <;> rfl
  simp only [utf8ToUtf16Length, hlen]
  rw [scanLoop_flatten hps, foldl_add_length fun p => utf16Units (decodeCodePoint p), Nat.zero_add]
  rfl

theorem utf8ToUtf32_flatten (hps : Sequences notScalar ps) :
    utf8ToUtf32 ps.flatten = ps.map decodeCodePoint := by
  rw [utf8ToUtf32, scanLoop_flatten hps, foldl_append_flatMap fun p => [decodeCodePoint p],
    ← List.map_eq_flatMap]
  rfl

theorem ne_nil_of_flatten (h : ps.flatten ≠ []) : ps ≠ [] := by
  rintro rfl
  exact h rfl

theorem utf16OfSequences_ne_nil (h : ps ≠ []) : utf16OfSequences ps ≠ [] := by
  obtain ⟨p, ps, rfl⟩ := List.exists_cons_of_ne_nil h
  unfold utf16OfSequences utf16Units
  rw [List.flatMap_cons]
  split_ifs <;> simp

/-- A buffer is a concatenation of sequences whose values are not refused. -/
def ScansTo (refuse : Nat → Bool) (s : Bytes) : Prop := ∃ ps, s = ps.flatten ∧ Sequences refuse ps

variable {s : Bytes}

/-- **What `utf8_to_utf16` accepts**: the first bytes with their continuation bytes, overlong forms
among them, whose values are scalar values. -/
theorem utf8ToUtf16_ne_nil (hs : s ≠ []) : utf8ToUtf16 s ≠ [] ↔ ScansTo notScalar s := by
  constructor
  · intro h
    cases hscan : scanLoop notScalar (fun out cp => out ++ utf16Units cp) 0 [] s with
    | none => exact absurd (by rw [utf8ToUtf16, hscan, Option.getD_none]) h
    | some out => exact exists_sequences hscan
  · rintro ⟨ps, rfl, hps⟩
    rw [utf8ToUtf16_flatten hps]
    exact utf16OfSequences_ne_nil (ne_nil_of_flatten hs)

theorem utf8ToUtf32_ne_nil (hs : s ≠ []) : utf8ToUtf32 s ≠ [] ↔ ScansTo notScalar s := by
  constructor
  · intro h
    cases hscan : scanLoop notScalar (fun (out : List Nat) cp => out ++ [cp]) 0 [] s with
    | none => exact absurd (by rw [utf8ToUtf32, hscan, Option.getD_none]) h
    | some out => exact exists_sequences hscan
  · rintro ⟨ps, rfl, hps⟩
    rw [utf8ToUtf32_flatten hps]
    simpa using ne_nil_of_flatten hs

theorem utf8ToUtf16Owned_flatten (hps : Sequences notScalar ps) :
    utf8ToUtf16Owned ps.flatten = .ok (utf16OfSequences ps) := by
  unfold utf8ToUtf16Owned
  rw [utf8ToUtf16_flatten hps, utf8ToUtf16Length_flatten hps]
  split_ifs with hnil h0 hlen
  · have hps : ps = [] := by
      cases ps with
      | nil => rfl
      | cons p ps => simp [(hps p (.head _)).1.1] at hnil
    rw [hps]
    rfl
  · rw [List.length_eq_zero_iff] at h0
    exact absurd h0 (utf16OfSequences_ne_nil (ne_nil_of_flatten (by simpa using hnil)))
  · exact absurd rfl hlen
  · rfl

theorem succeeds_utf8ToUtf16Owned (hs : s ≠ []) :
    Succeeds (utf8ToUtf16Owned s) ↔ ScansTo notScalar s := by
  constructor
  · rintro ⟨out, hout⟩
    rw [← utf8ToUtf16_ne_nil hs]
    intro hnil
    unfold utf8ToUtf16Owned at hout
    rw [hnil] at hout
    split_ifs at hout with hempty h0 hlen
    · exact hs (by simpa using hempty)
    · exact h0 (not_not.mp hlen).symm
  · rintro ⟨ps, rfl, hps⟩
    exact ⟨_, utf8ToUtf16Owned_flatten hps⟩

/-! ## And back -/

/-- The code units of a string of characters. -/
def utf16OfChars (cs : List Char) : List Nat := cs.flatMap fun c => utf16Units c.toNat

theorem utf16OfSequences_utf8EncodeChar (cs : List Char) :
    utf16OfSequences (cs.map String.utf8EncodeChar) = utf16OfChars cs :=
  flatMap_utf8EncodeChar utf16Units cs

theorem utf8ToUtf16_encode (cs : List Char) : utf8ToUtf16 (encode cs) = utf16OfChars cs := by
  rw [← flatten_utf8EncodeChar, utf8ToUtf16_flatten (sequences_encode notScalar_toNat cs),
    utf16OfSequences_utf8EncodeChar]

theorem utf8ToUtf16Owned_encode (cs : List Char) :
    utf8ToUtf16Owned (encode cs) = .ok (utf16OfChars cs) := by
  rw [← flatten_utf8EncodeChar, utf8ToUtf16Owned_flatten (sequences_encode notScalar_toNat cs),
    utf16OfSequences_utf8EncodeChar]

theorem utf8ToUtf32_encode (cs : List Char) : utf8ToUtf32 (encode cs) = cs.map Char.toNat := by
  rw [← flatten_utf8EncodeChar, utf8ToUtf32_flatten (sequences_encode notScalar_toNat cs),
    List.map_eq_flatMap, flatMap_utf8EncodeChar fun cp => [cp], ← List.map_eq_flatMap]

/-- A pair of surrogates is decoded to the code point it was made of. -/
theorem decodePair_encodePair {cp : Nat} (h : 0x10000 ≤ cp) (h' : cp < 0x110000) :
    isLeadSurrogate (encodePair cp).1 = true ∧ isTrailSurrogate (encodePair cp).2 = true ∧
      decodePair (encodePair cp).1 (encodePair cp).2 = cp := by
  have hlow : (cp - 0x10000) &&& 0x03FF = (cp - 0x10000) % 1024 :=
    Nat.and_two_pow_sub_one_eq_mod _ 10
  have hhigh : (cp - 0x10000) >>> 10 = (cp - 0x10000) / 1024 := Nat.shiftRight_eq_div_pow _ 10
  unfold encodePair decodePair isLeadSurrogate isTrailSurrogate
  simp only [hlow, hhigh, Nat.shiftLeft_eq, decide_eq_true_eq]
  omega

/-- The code units of one character are read as its code point. -/
theorem utf16Loop_utf16Units {α : Type} (emit : α → Nat → α) (c : Char) (rest : List Nat)
    (out : α) : utf16Loop emit out (utf16Units c.toNat ++ rest) =
      utf16Loop emit (emit out c.toNat) rest := by
  have hc := toNat_scalar c
  unfold utf16Units
  split_ifs with h
  · obtain ⟨hlead, htrail, hpair⟩ := decodePair_encodePair h (by omega)
    simp only [List.cons_append, List.nil_append]
    rw [utf16Loop, if_pos hlead, if_pos htrail, hpair]
  · have hlead : ¬ isLeadSurrogate c.toNat = true := by
      simp only [isLeadSurrogate, decide_eq_true_eq]
      omega
    have htrail : ¬ isTrailSurrogate c.toNat = true := by
      simp only [isTrailSurrogate, decide_eq_true_eq]
      omega
    cases rest with
    | nil => simp [utf16Loop, hlead, htrail]
    | cons next rest =>
      rw [List.cons_append, List.nil_append, utf16Loop, if_neg hlead, if_neg htrail]

/-- **The code units of a string are read back**, one code point for each character. -/
theorem utf16Loop_utf16OfChars {α : Type} (emit : α → Nat → α) (cs : List Char) (out : α) :
    utf16Loop emit out (utf16OfChars cs) =
      some (cs.foldl (fun out c => emit out c.toNat) out) := by
  induction cs generalizing out with
  | nil => simp [utf16OfChars, utf16Loop]
  | cons c cs ih =>
    rw [utf16OfChars, List.flatMap_cons, utf16Loop_utf16Units, List.foldl_cons]
    exact ih _

@[simp] theorem encoded_toNat (c : Char) : encoded c.toNat = String.utf8EncodeChar c := by
  rw [encoded, encodeCodePoint_toNat, Option.getD_some]

theorem utf16ToUtf8_utf16OfChars (cs : List Char) : utf16ToUtf8 (utf16OfChars cs) = encode cs := by
  rw [utf16ToUtf8, utf16Loop_utf16OfChars, foldl_append_flatMap]
  simp [encode]

theorem utf8Bytes_toNat (c : Char) : utf8Bytes c.toNat = (String.utf8EncodeChar c).length := by
  unfold utf8Bytes
  obtain h | ⟨h, h'⟩ | ⟨h, h'⟩ | h := toNat_cases c
  · rw [if_pos (by omega), utf8EncodeChar_one h]
    rfl
  · rw [if_neg (by omega), if_pos (by omega), utf8EncodeChar_two h h']
    rfl
  · rw [if_neg (by omega), if_neg (by omega), if_pos (by omega), utf8EncodeChar_three h h']
    rfl
  · rw [if_neg (by omega), if_neg (by omega), if_neg (by omega), utf8EncodeChar_four h]
    rfl

theorem utf16ToUtf8Length_utf16OfChars (cs : List Char) :
    utf16ToUtf8Length (utf16OfChars cs) = (encode cs).length := by
  rw [utf16ToUtf8Length, utf16Loop_utf16OfChars, Option.getD_some]
  simp only [utf8Bytes_toNat]
  rw [foldl_add_length, Nat.zero_add]
  rfl

theorem utf16ToUtf8Owned_utf16OfChars (cs : List Char) :
    utf16ToUtf8Owned (utf16OfChars cs) = .ok (encode cs) := by
  unfold utf16ToUtf8Owned
  rw [utf16ToUtf8_utf16OfChars, utf16ToUtf8Length_utf16OfChars]
  cases cs with
  | nil => rfl
  | cons c cs =>
    have hne : (utf16OfChars (c :: cs)).isEmpty = false := by
      unfold utf16OfChars utf16Units
      rw [List.flatMap_cons]
      split_ifs <;> simp
    have hlen : (encode (c :: cs)).length ≠ 0 := fun h =>
      encode_ne_nil (List.cons_ne_nil c cs) (List.length_eq_zero_iff.mp h)
    rw [hne, if_neg Bool.false_ne_true, if_neg hlen, if_neg (not_not.mpr rfl)]

theorem utf32ToUtf8_toNat (cs : List Char) : utf32ToUtf8 (cs.map Char.toNat) = encode cs := by
  have hloop : ∀ out : Bytes, utf32Loop out (cs.map Char.toNat) = some (out ++ encode cs) := by
    induction cs with
    | nil => simp [utf32Loop]
    | cons c cs ih =>
      intro out
      rw [List.map_cons, utf32Loop, encodeCodePoint_toNat]
      simp only [ih, encode_cons, List.append_assoc]
  rw [utf32ToUtf8, hloop]
  rfl

end Libca.Str
