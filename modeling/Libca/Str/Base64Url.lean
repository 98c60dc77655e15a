import Libca.Common.BitString
import Libca.Common.Bytes

/-!
# base64url (`str/string_util.cpp` 467-548)

`StringUtil::base64_url_encode` and `base64_url_decode`: bits pass through a buffer of 32 bits,
eight at a time on one side and six at a time on the other.

* `encode_bits`, `decode_bits`: what a loop has written, with what waits in its buffer, is what it
  has read.
* `base64UrlDecode_iff`: the decoder accepts the unpadded and the padded spelling of a byte string,
  and nothing else.
* `base64Url_strict`: **the accepted spellings are the two that the encoder writes**; they are one
  exactly for the lengths that three divides.
-/

namespace Libca.Str

open Common

/-! ## The encoder -/

/-- `BASE64_URL_ALPHABET`. -/
def base64UrlAlphabet : Bytes :=
  ascii "ABCDEFGHIJKLMNOPQRSTUVWXYZabcdefghijklmnopqrstuvwxyz0123456789-_"

/-- The character of a value below 64. -/
def base64UrlChar (value : Nat) : UInt8 := base64UrlAlphabet.getD value 0

/-- The inner loop of `base64_url_encode`. -/
def emitSextets (buffer : UInt32) (bitCount : Nat) (output : Bytes) : Nat × Bytes :=
  if 6 ≤ bitCount then
    let bitCount := bitCount - 6
    emitSextets buffer bitCount
      (output ++ [base64UrlChar ((buffer >>> UInt32.ofNat bitCount) &&& 0x3F).toNat])
  else (bitCount, output)
termination_by bitCount

structure EncodeState where
  buffer : UInt32 := 0
  bitCount : Nat := 0
  output : Bytes := []

/-- One turn of the outer loop. -/
def encodeByte (s : EncodeState) (byte : UInt8) : EncodeState :=
  let buffer := (s.buffer <<< 8) ||| byte.toUInt32
  let (bitCount, output) := emitSextets buffer (s.bitCount + 8) s.output
  ⟨buffer, bitCount, output⟩

/-- The loop that pads to a multiple of four. -/
def padLoop (output : Bytes) : Bytes :=
  if output.length % 4 ≠ 0 then padLoop (output ++ [61]) else output
termination_by (4 - output.length % 4) % 4
decreasing_by
  rw [List.length_append, List.length_singleton]
  omega

/-- `base64_url_encode`. -/
def base64UrlEncode (input : Bytes) (padding : Bool) : Bytes :=
  let s := input.foldl encodeByte {}
  let output :=
    if 0 < s.bitCount then
      s.output ++ [base64UrlChar ((s.buffer <<< UInt32.ofNat (6 - s.bitCount)) &&& 0x3F).toNat]
    else s.output
  if padding then padLoop output else output

/-! ## The decoder -/

/-- `base64_url_value`. -/
def base64UrlValue (ch : UInt8) : Int :=
  if 65 ≤ ch ∧ ch ≤ 90 then ch.toNat - 65
  else if 97 ≤ ch ∧ ch ≤ 122 then ch.toNat - 97 + 26
  else if 48 ≤ ch ∧ ch ≤ 57 then ch.toNat - 48 + 52
  else if ch = 45 then 62
  else if ch = 95 then 63
  else -1

/-- `byte_position_error`. -/
def bytePositionError (message : Bytes) (pos : Nat) : Bytes := message ++ toChars 10 pos

structure DecodeState where
  output : Bytes := []
  buffer : UInt32 := 0
  bitCount : Nat := 0
  valueCount : Nat := 0
  paddingCount : Nat := 0
  seenPadding : Bool := false

/-- A value is shifted into the buffer, and a byte is taken from it when there is one. -/
def pushSextet (s : DecodeState) (value : Nat) : DecodeState :=
  let buffer := (s.buffer <<< 6) ||| UInt32.ofNat value
  let bitCount := s.bitCount + 6
  if 8 ≤ bitCount then
    { s with
      buffer := buffer
      bitCount := bitCount - 8
      valueCount := s.valueCount + 1
      output :=
        s.output ++ [UInt8.ofNat ((buffer >>> UInt32.ofNat (bitCount - 8)) &&& 0xFF).toNat] }
  else { s with buffer := buffer, bitCount := bitCount, valueCount := s.valueCount + 1 }

/-- The loop of `base64_url_decode`, from a position on. -/
def decodeLoop : Nat → DecodeState → Bytes → Except Bytes DecodeState
  | _, s, [] => .ok s
  | i, s, ch :: rest =>
    if ch = 61 then
      let s := { s with seenPadding := true, paddingCount := s.paddingCount + 1 }
      if 2 < s.paddingCount then
        .error (bytePositionError (ascii "too much base64url padding at byte ") i)
      else decodeLoop (i + 1) s rest
    else if s.seenPadding then
      .error (bytePositionError (ascii "base64url data after padding at byte ") i)
    else
      let value := base64UrlValue ch
      if value < 0 then .error (bytePositionError (ascii "invalid base64url character at byte ") i)
      else decodeLoop (i + 1) (pushSextet s value.toNat) rest

/-- The checks behind the loop. -/
def finishDecode (s : DecodeState) : Except Bytes Bytes :=
  if s.valueCount % 4 = 1 then .error (ascii "invalid base64url length")
  else
    let expectedPadding := (4 - s.valueCount % 4) % 4
    if 0 < s.paddingCount ∧ (expectedPadding = 0 ∨ s.paddingCount ≠ expectedPadding) then
      .error (ascii "invalid base64url padding")
    else if 0 < s.bitCount ∧ s.buffer &&& ((1 <<< UInt32.ofNat s.bitCount) - 1) ≠ 0 then
      .error (ascii "invalid base64url trailing bits")
    else .ok s.output

/-- `base64_url_decode`. -/
def base64UrlDecode (input : Bytes) : Except Bytes Bytes :=
  match decodeLoop 0 {} input with
  | .error message => .error message
  | .ok s => finishDecode s

/-! ## The alphabet -/

theorem alphabet : (∀ v < 64, base64UrlValue (base64UrlChar v) = v) ∧ ∀ n < 256,
    0 ≤ base64UrlValue (UInt8.ofNat n) → (base64UrlValue (UInt8.ofNat n)).toNat < 64 ∧
      base64UrlChar (base64UrlValue (UInt8.ofNat n)).toNat = UInt8.ofNat n := by
  decide +kernel

theorem base64UrlValue_char : ∀ v < 64, base64UrlValue (base64UrlChar v) = v := alphabet.1

theorem base64UrlChar_ne : ∀ v < 64, base64UrlChar v ≠ 61 := by decide

theorem base64UrlChar_value (ch : UInt8) :
    0 ≤ base64UrlValue ch → (base64UrlValue ch).toNat < 64 ∧
      base64UrlChar (base64UrlValue ch).toNat = ch :=
  forall_byte (p := fun ch => 0 ≤ base64UrlValue ch → (base64UrlValue ch).toNat < 64 ∧
    base64UrlChar (base64UrlValue ch).toNat = ch) alphabet.2 ch

/-! ## The bits of the encoder -/

/-- The bits of a byte string. -/
def byteBits (bs : Bytes) : List Bool := (bs.map UInt8.toNat).flatMap (bits 8)

/-- The bits of a string of values below 64. -/
def sextetBits (vs : List Nat) : List Bool := vs.flatMap (bits 6)

theorem byteBits_append (as bs : Bytes) : byteBits (as ++ bs) = byteBits as ++ byteBits bs := by
  rw [byteBits, List.map_append, List.flatMap_append, byteBits, byteBits]

theorem sextetBits_append (vs ws : List Nat) :
    sextetBits (vs ++ ws) = sextetBits vs ++ sextetBits ws :=
  List.flatMap_append ..

theorem length_byteBits (bs : Bytes) : (byteBits bs).length = 8 * bs.length := by
  rw [byteBits, length_flatMap_bits, List.length_map]

theorem length_sextetBits (vs : List Nat) : (sextetBits vs).length = 6 * vs.length :=
  length_flatMap_bits 6 vs

theorem byteBits_inj {as bs : Bytes} (hlength : as.length = bs.length)
    (h : byteBits as = byteBits bs) :
    as = bs := by
  have hbytes (cs : Bytes) : ∀ d ∈ cs.map UInt8.toNat, d < 2 ^ 8 := by
    intro d hd
    obtain ⟨b, -, rfl⟩ := List.mem_map.mp hd
    exact b.toNat_lt
  exact List.map_injective_iff.mpr (fun a b => UInt8.toNat_inj.mp)
    (flatMap_bits_inj (hbytes as) (hbytes bs) (by rw [List.length_map, List.length_map, hlength]) h)

/-- The inner loop writes the upper bits of the buffer, six at a time. -/
theorem emitSextets_spec (buffer : UInt32) (bitCount : Nat) (output : Bytes) (h : bitCount ≤ 32) :
    ∃ ws, (∀ w ∈ ws, w < 64) ∧
      emitSextets buffer bitCount output = (bitCount % 6, output ++ ws.map base64UrlChar) ∧
      sextetBits ws ++ bits (bitCount % 6) buffer.toNat = bits bitCount buffer.toNat := by
  induction bitCount using Nat.strong_induction_on generalizing output with
  | _ bitCount ih =>
    unfold emitSextets
    by_cases hsix : 6 ≤ bitCount
    · rw [if_pos hsix]
      dsimp only
      obtain ⟨v, hv⟩ : ∃ v, v = ((buffer >>> UInt32.ofNat (bitCount - 6)) &&& 0x3F).toNat :=
        ⟨_, rfl⟩
      have hshift : (UInt32.ofNat (bitCount - 6)).toNat % 32 = bitCount - 6 := by
        rw [UInt32.toNat_ofNat']
        omega
      have hbits : bits 6 v = bits 6 (buffer.toNat >>> (bitCount - 6)) := by
        rw [hv, UInt32.toNat_and, UInt32.toNat_shiftRight, hshift]
        exact bits_shiftRight_and 6 (bitCount - 6) buffer.toNat
      have hlt : v < 64 := by
        rw [hv, UInt32.toNat_and]
        exact Nat.and_lt_two_pow _ (show (0x3F : UInt32).toNat < 2 ^ 6 by decide)
      obtain ⟨ws, hws, hemit, hsplit⟩ := ih (bitCount - 6) (by omega) (output ++ [base64UrlChar v])
        (by omega)
      refine ⟨v :: ws, List.forall_mem_cons.mpr ⟨hlt, hws⟩, ?_, ?_⟩
      · rw [← hv, hemit, List.append_assoc, show (bitCount - 6) % 6 = bitCount % 6 by omega]
        rfl
      · have hcount : bitCount = 6 + (bitCount - 6) := by omega
        conv_rhs => rw [hcount, bits_add, ← hbits, ← hsplit]
        rw [show bitCount % 6 = (bitCount - 6) % 6 by omega]
        rfl
    · rw [if_neg hsix]
      refine ⟨[], List.forall_mem_nil _, ?_, ?_⟩
      · rw [Nat.mod_eq_of_lt (by omega), List.map_nil, List.append_nil]
      · rw [Nat.mod_eq_of_lt (by omega)]
        rfl

/-- **The encoder so far**: the values that are written, and the bits that wait in the buffer. -/
structure Encoded (s : EncodeState) (input : Bytes) (vs : List Nat) : Prop where
  output : s.output = vs.map base64UrlChar
  values : ∀ v ∈ vs, v < 64
  waiting : s.bitCount < 6
  total : sextetBits vs ++ bits s.bitCount s.buffer.toNat = byteBits input

variable {s : EncodeState} {input : Bytes} {vs : List Nat}

/-- What a turn of the loop does: the bits of the byte are appended. -/
theorem Encoded.encodeByte (h : Encoded s input vs) (byte : UInt8) :
    ∃ ws, Encoded (Str.encodeByte s byte) (input ++ [byte]) ws := by
  have hwaiting := h.waiting
  obtain ⟨buffer, hbuffer⟩ : ∃ buffer, buffer = (s.buffer <<< 8) ||| byte.toUInt32 := ⟨_, rfl⟩
  obtain ⟨ws, hws, hemit, hsplit⟩ := emitSextets_spec buffer (s.bitCount + 8) s.output (by omega)
  have hpush : bits (s.bitCount + 8) buffer.toNat = bits s.bitCount s.buffer.toNat ++
    bits 8 byte.toNat := by
    rw [hbuffer, UInt32.toNat_or, UInt32.toNat_shiftLeft, UInt8.toNat_toUInt32]
    exact bits_push 32 s.buffer.toNat (by omega) byte.toNat_lt
  have hstep : Str.encodeByte s byte = ⟨buffer, (s.bitCount + 8) % 6,
    s.output ++ ws.map base64UrlChar⟩ := by
    unfold Str.encodeByte
    dsimp only
    rw [← hbuffer, hemit]
  refine ⟨vs ++ ws, ?_, ?_, ?_, ?_⟩
  · rw [hstep, h.output, List.map_append]
  · exact List.forall_mem_append.mpr ⟨h.values, hws⟩
  · rw [hstep]
    exact Nat.mod_lt _ (by decide)
  · rw [hstep]
    dsimp only
    rw [sextetBits_append, List.append_assoc, hsplit, hpush, ← List.append_assoc, h.total,
      byteBits_append]
    rfl

/-- **What the encoder has written, with what waits in its buffer, is what it has read.** -/
theorem encode_bits (input : Bytes) : ∃ vs, Encoded (input.foldl encodeByte {}) input vs := by
  suffices h : ∀ (s : EncodeState) (done : Bytes) (vs : List Nat), Encoded s done vs →
      ∃ ws, Encoded (input.foldl Str.encodeByte s) (done ++ input) ws from
    h {} [] [] ⟨rfl, List.forall_mem_nil _, by decide, rfl⟩
  induction input with
  | nil =>
    intro s done vs h
    rw [List.append_nil]
    exact ⟨vs, h⟩
  | cons byte input ih =>
    intro s done vs h
    obtain ⟨ws, hws⟩ := h.encodeByte byte
    obtain ⟨us, hus⟩ := ih _ _ ws hws
    rw [List.append_assoc] at hus
    exact ⟨us, hus⟩

/-- The padding of a spelling without it. -/
def paddingOf (length : Nat) : Nat := (4 - length % 4) % 4

theorem padLoop_eq (output : Bytes) :
    padLoop output = output ++ List.replicate (paddingOf output.length) 61 := by
  unfold paddingOf
  fun_induction padLoop output with
  | case1 output hpad ih =>
    rw [List.length_append, List.length_singleton] at ih
    have hcount : (4 - output.length % 4) % 4 = (4 - (output.length + 1) % 4) % 4 + 1 := by omega
    rw [ih, hcount, List.append_assoc, List.replicate_succ]
    rfl
  | case2 output hpad =>
    have hcount : (4 - output.length % 4) % 4 = 0 := by omega
    rw [hcount, List.replicate_zero, List.append_nil]

/-- **What the encoder writes**: values whose bits are those of the input, filled up with zeros. -/
theorem exists_encode (input : Bytes) :
    ∃ vs z, (∀ v ∈ vs, v < 64) ∧ base64UrlEncode input false = vs.map base64UrlChar ∧ z < 6 ∧
      sextetBits vs = byteBits input ++ List.replicate z false := by
  obtain ⟨vs, h⟩ := encode_bits input
  obtain ⟨s, hs⟩ : ∃ s, s = input.foldl encodeByte {} := ⟨_, rfl⟩
  rw [← hs] at h
  have hwaiting := h.waiting
  by_cases hrest : 0 < s.bitCount
  · obtain ⟨v, hv⟩ : ∃ v, v = ((s.buffer <<< UInt32.ofNat (6 - s.bitCount)) &&& 0x3F).toNat :=
      ⟨_, rfl⟩
    have hshift : (UInt32.ofNat (6 - s.bitCount)).toNat % 32 = 6 - s.bitCount := by
      rw [UInt32.toNat_ofNat']
      omega
    have hlt : v < 64 := by
      rw [hv, UInt32.toNat_and]
      exact Nat.and_lt_two_pow _ (show (0x3F : UInt32).toNat < 2 ^ 6 by decide)
    have hbits : bits 6 v = bits s.bitCount s.buffer.toNat ++ List.replicate
      (6 - s.bitCount) false := by
      have hpush := bits_push 32 s.buffer.toNat (show s.bitCount + (6 - s.bitCount) ≤ 32 by omega)
        (Nat.two_pow_pos (6 - s.bitCount))
      rw [Nat.or_zero, bits_zero, show s.bitCount + (6 - s.bitCount) = 6 by omega] at hpush
      rw [← hpush, hv, UInt32.toNat_and, UInt32.toNat_shiftLeft, hshift]
      exact bits_shiftRight_and 6 0 _
    refine ⟨vs ++ [v], 6 - s.bitCount, List.forall_mem_append.mpr ⟨h.values, ?_⟩, ?_, by omega, ?_⟩
    · exact List.forall_mem_singleton.mpr hlt
    · unfold base64UrlEncode
      dsimp only
      rw [← hs, if_pos hrest, ← hv, h.output, List.map_append]
      rfl
    · rw [sextetBits_append, ← h.total, List.append_assoc, ← hbits]
      rfl
  · refine ⟨vs, 0, h.values, ?_, by decide, ?_⟩
    · unfold base64UrlEncode
      dsimp only
      rw [← hs, if_neg hrest, h.output]
      rfl
    · have hzero : s.bitCount = 0 := by omega
      rw [← h.total, hzero, bits, List.append_nil, List.replicate_zero, List.append_nil]

theorem encode_padded (input : Bytes) :
    base64UrlEncode input true = padLoop (base64UrlEncode input false) := rfl

/-! ## The bits of the decoder -/

/-- **The decoder so far**: the values that are read, and the bits that wait in the buffer. -/
structure Decoded (s : DecodeState) (vs : List Nat) : Prop where
  valueCount : s.valueCount = vs.length
  paddingCount : s.paddingCount = 0
  seenPadding : s.seenPadding = false
  waiting : s.bitCount < 8
  total : byteBits s.output ++ bits s.bitCount s.buffer.toNat = sextetBits vs

variable {d : DecodeState}

theorem Decoded.pushSextet (h : Decoded d vs) {value : Nat} (hlt : value < 64) :
    Decoded (Str.pushSextet d value) (vs ++ [value]) := by
  have hwaiting := h.waiting
  obtain ⟨buffer, hbuffer⟩ : ∃ buffer, buffer = (d.buffer <<< 6) ||| UInt32.ofNat value := ⟨_, rfl⟩
  have hpush : bits (d.bitCount + 6) buffer.toNat = bits d.bitCount d.buffer.toNat ++
    bits 6 value := by
    have hvalue : (UInt32.ofNat value).toNat = value := by
      rw [UInt32.toNat_ofNat']
      omega
    rw [hbuffer, UInt32.toNat_or, UInt32.toNat_shiftLeft, hvalue]
    exact bits_push 32 d.buffer.toNat (by omega) hlt
  have htotal : byteBits d.output ++ bits (d.bitCount + 6) buffer.toNat =
    sextetBits (vs ++ [value]) := by
    rw [hpush, ← List.append_assoc, h.total, sextetBits_append]
    rfl
  unfold Str.pushSextet
  dsimp only
  rw [← hbuffer]
  by_cases height : 8 ≤ d.bitCount + 6
  · rw [if_pos height]
    obtain ⟨count, hcount⟩ : ∃ count, d.bitCount + 6 = 8 + count := ⟨d.bitCount - 2, by omega⟩
    have hshift : (UInt32.ofNat count).toNat % 32 = count := by
      rw [UInt32.toNat_ofNat']
      omega
    obtain ⟨v, hv⟩ : ∃ v, v = ((buffer >>> UInt32.ofNat count) &&& 0xFF).toNat := ⟨_, rfl⟩
    have hbyte : (UInt8.ofNat v).toNat = v := by
      rw [UInt8.toNat_ofNat', hv, UInt32.toNat_and]
      exact Nat.mod_eq_of_lt (Nat.and_lt_two_pow _ (show (0xFF : UInt32).toNat < 2 ^ 8 by decide))
    have hbits : bits 8 v = bits 8 (buffer.toNat >>> count) := by
      rw [hv, UInt32.toNat_and, UInt32.toNat_shiftRight, hshift]
      exact bits_shiftRight_and 8 count buffer.toNat
    rw [hcount, Nat.add_sub_cancel_left, ← hv]
    refine ⟨?_, h.paddingCount, h.seenPadding, by dsimp only; omega, ?_⟩
    · rw [List.length_append, h.valueCount]
      rfl
    · rw [← htotal, hcount, bits_add, byteBits_append, List.append_assoc, ← hbits]
      show byteBits d.output ++ (bits 8 (UInt8.ofNat v).toNat ++ [] ++ _) = _
      rw [hbyte, List.append_nil]
  · rw [if_neg height]
    refine ⟨?_, h.paddingCount, h.seenPadding, by dsimp only; omega, htotal⟩
    rw [List.length_append, h.valueCount]
    rfl

/-- **What the decoder has written, with what waits in its buffer, is what it has read.** -/
theorem decode_bits {vs : List Nat} (hvs : ∀ v ∈ vs, v < 64) :
    Decoded (vs.foldl pushSextet {}) vs := by
  suffices h : ∀ (d : DecodeState) (done : List Nat), Decoded d done →
      Decoded (vs.foldl Str.pushSextet d) (done ++ vs) from
    h {} [] ⟨rfl, rfl, rfl, by decide, rfl⟩
  induction vs with
  | nil =>
    intro d done h
    rwa [List.append_nil]
  | cons v vs ih =>
    intro d done h
    have hstep := ih (fun w hw => hvs w (.tail _ hw)) _ _
      (h.pushSextet (hvs v (.head _)))
    rwa [List.append_assoc] at hstep

/-! ## The loop of the decoder -/

theorem decodeLoop_cons (i : Nat) (s : DecodeState) (ch : UInt8) (rest : Bytes) :
    decodeLoop i s (ch :: rest) =
      if ch = 61 then
        if 2 < s.paddingCount + 1 then
          .error (bytePositionError (ascii "too much base64url padding at byte ") i)
        else decodeLoop (i + 1) { s with seenPadding := true, paddingCount :=
          s.paddingCount + 1 } rest
      else if s.seenPadding then
        .error (bytePositionError (ascii "base64url data after padding at byte ") i)
      else if base64UrlValue ch < 0 then
        .error (bytePositionError (ascii "invalid base64url character at byte ") i)
      else decodeLoop (i + 1) (pushSextet s (base64UrlValue ch).toNat) rest := rfl

theorem pushSextet_padding (d : DecodeState) (value : Nat) :
    (pushSextet d value).paddingCount = d.paddingCount ∧ (pushSextet d value).seenPadding =
      d.seenPadding := by
  unfold pushSextet
  dsimp only
  split_ifs <;> exact ⟨rfl, rfl⟩

/-- The values in front are read. -/
theorem decodeLoop_values {vs : List Nat} (hvs : ∀ v ∈ vs, v < 64) (rest : Bytes) (i : Nat)
    (h : d.seenPadding = false) :
    decodeLoop i d (vs.map base64UrlChar ++ rest) = decodeLoop (i + vs.length)
      (vs.foldl pushSextet d) rest := by
  induction vs generalizing i d with
  | nil => rfl
  | cons v vs ih =>
    have hv := hvs v (.head _)
    have hpush : (pushSextet d v).seenPadding = false := (pushSextet_padding d v).2.trans h
    rw [List.map_cons, List.cons_append, decodeLoop_cons, if_neg (base64UrlChar_ne v hv), h,
      if_neg Bool.false_ne_true, base64UrlValue_char v hv]
    rw [if_neg (by omega), Int.toNat_natCast, ih (fun w hw => hvs w (.tail _ hw)) (i + 1) hpush,
      List.length_cons, Nat.add_right_comm, Nat.add_assoc]
    rfl

/-- The padding behind them is counted. -/
theorem decodeLoop_padding (n i : Nat) (h : d.paddingCount + n ≤ 2) :
    decodeLoop i d (List.replicate n 61) =
      .ok { d with paddingCount := d.paddingCount + n, seenPadding :=
        d.seenPadding || decide (0 < n) } := by
  induction n generalizing i d with
  | zero =>
    change Except.ok d = _
    rw [decide_eq_false (Nat.lt_irrefl 0), Bool.or_false]
    rfl
  | succ n ih =>
    rw [List.replicate_succ, decodeLoop_cons, if_pos rfl]
    rw [if_neg (by omega), ih (i + 1) (by dsimp only; omega)]
    dsimp only
    rw [decide_eq_true (Nat.succ_pos n), Bool.or_true, Bool.true_or, Nat.add_assoc,
      Nat.add_comm 1 n]

/-- Behind padding there is only padding. -/
theorem padding_of_decodeLoop {t : Bytes} {i : Nat} {d' : DecodeState}
    (hseen : d.seenPadding = true) (h : decodeLoop i d t = .ok d') (hcount : d.paddingCount ≤ 2) :
    ∃ n, t = List.replicate n 61 ∧ d.paddingCount + n ≤ 2 := by
  induction t generalizing i d with
  | nil => exact ⟨0, rfl, hcount⟩
  | cons ch rest ih =>
    rw [decodeLoop_cons] at h
    by_cases hpad : ch = 61
    · rw [if_pos hpad] at h
      split_ifs at h with hmany
      obtain ⟨n, rfl, hn⟩ := ih rfl h (by dsimp only; omega)
      exact ⟨n + 1, by rw [hpad, List.replicate_succ], by dsimp only at hn; omega⟩
    · rw [if_neg hpad, if_pos hseen] at h
      cases h

/-- **What passes the loop**: values, and at most two characters of padding. -/
theorem of_decodeLoop {t : Bytes} {i : Nat} {d' : DecodeState} (hseen : d.seenPadding = false)
    (hzero : d.paddingCount = 0) (h : decodeLoop i d t = .ok d') :
    ∃ (vs : List Nat) (n : Nat), (∀ v ∈ vs, v < 64) ∧ t = vs.map base64UrlChar ++
      List.replicate n 61 ∧ n ≤ 2 := by
  induction t generalizing i d with
  | nil => exact ⟨[], 0, fun _ hv => absurd hv List.not_mem_nil, rfl, by decide⟩
  | cons ch rest ih =>
    rw [decodeLoop_cons] at h
    by_cases hpad : ch = 61
    · rw [if_pos hpad] at h
      split_ifs at h with hmany
      obtain ⟨n, rfl, hn⟩ := padding_of_decodeLoop rfl h (by dsimp only; omega)
      refine ⟨[], n + 1, fun _ hv => absurd hv List.not_mem_nil, ?_, by dsimp only at hn; omega⟩
      rw [hpad, List.replicate_succ]
      rfl
    · rw [if_neg hpad, hseen, if_neg Bool.false_ne_true] at h
      split_ifs at h with hvalue
      obtain ⟨hlt, hchar⟩ := base64UrlChar_value ch (Int.not_lt.mp hvalue)
      obtain ⟨hcount, hpush⟩ := pushSextet_padding d (base64UrlValue ch).toNat
      obtain ⟨vs, n, hvs, rfl, hn⟩ := ih (hpush.trans hseen) (hcount.trans hzero) h
      refine ⟨(base64UrlValue ch).toNat :: vs, n, List.forall_mem_cons.mpr ⟨hlt, hvs⟩, ?_, hn⟩
      rw [List.map_cons, hchar]
      rfl

/-- The bits that the checks behind the loop ask to be zero. -/
theorem trailing_iff (h : d.bitCount < 8) :
    (¬ (0 < d.bitCount ∧ d.buffer &&& ((1 <<< UInt32.ofNat d.bitCount) - 1) ≠ 0)) ↔
      bits d.bitCount d.buffer.toNat = List.replicate d.bitCount false := by
  have hmask : ((1 <<< UInt32.ofNat d.bitCount) - 1 : UInt32).toNat = 2 ^ d.bitCount - 1 := by
    obtain ⟨n, hn⟩ : ∃ n, n = d.bitCount := ⟨_, rfl⟩
    rw [← hn] at h ⊢
    interval_cases n <;> rfl
  rw [bits_eq_replicate_iff, ← hmask, ← UInt32.toNat_and,
    show (0 : Nat) = (0 : UInt32).toNat from rfl, UInt32.toNat_inj]
  constructor
  · intro hchecks
    by_cases hpos : 0 < d.bitCount
    · by_contra hne
      exact hchecks ⟨hpos, hne⟩
    · rw [show d.bitCount = 0 by omega]
      exact UInt32.and_zero
  · rintro hzero ⟨-, hne⟩
    exact hne hzero

/-- The zeros behind a byte string are the bits that wait in the buffer. -/
theorem Decoded.zeros_iff (h : Decoded d vs) (x : Bytes) :
    (bits d.bitCount d.buffer.toNat = List.replicate d.bitCount false ∧ d.output = x) ↔
      ∃ k < 8, sextetBits vs = byteBits x ++ List.replicate k false := by
  constructor
  · rintro ⟨hzero, rfl⟩
    exact ⟨d.bitCount, h.waiting, by rw [← h.total, hzero]⟩
  · rintro ⟨k, hk, hbits⟩
    have hwaiting := h.waiting
    rw [← h.total] at hbits
    have hlength := congrArg List.length hbits
    rw [List.length_append, List.length_append, length_byteBits, length_byteBits, length_bits,
      List.length_replicate] at hlength
    have hcount : d.bitCount = k := by omega
    have houtput : d.output.length = x.length := by omega
    obtain ⟨hbytes, hzero⟩ :=
      List.append_inj hbits (by rw [length_byteBits, length_byteBits, houtput])
    exact ⟨by rw [hzero, hcount], byteBits_inj houtput hbytes⟩

/-- **When values and padding are accepted.** -/
theorem decode_spelling {vs : List Nat} (hvs : ∀ v ∈ vs, v < 64) {n : Nat} (hn : n ≤ 2) (x : Bytes) :
    base64UrlDecode (vs.map base64UrlChar ++ List.replicate n 61) = .ok x ↔
      vs.length % 4 ≠ 1 ∧ (n = 0 ∨ n = paddingOf vs.length) ∧
        ∃ k < 8, sextetBits vs = byteBits x ++ List.replicate k false := by
  obtain ⟨d, hd⟩ : ∃ d, d = vs.foldl pushSextet {} := ⟨_, rfl⟩
  have hdecoded := decode_bits hvs
  rw [← hd] at hdecoded
  rw [← hdecoded.zeros_iff]
  unfold base64UrlDecode
  rw [decodeLoop_values hvs _ 0 rfl, ← hd, decodeLoop_padding n _ (by rw [hdecoded.paddingCount]; omega)]
  unfold finishDecode paddingOf
  dsimp only
  rw [hdecoded.valueCount, hdecoded.paddingCount, Nat.zero_add]
  by_cases hone : vs.length % 4 = 1
  · rw [if_pos hone]
    constructor
    · intro h
      cases h
    · exact fun h => absurd hone h.1
  · rw [if_neg hone]
    by_cases hpadding : n = 0 ∨ n = (4 - vs.length % 4) % 4
    · rw [if_neg (by omega)]
      by_cases htrailing : bits d.bitCount d.buffer.toNat = List.replicate d.bitCount false
      · rw [if_neg ((trailing_iff hdecoded.waiting).mpr htrailing), Except.ok.injEq]
        exact ⟨fun h => ⟨hone, hpadding, htrailing, h⟩, fun h => h.2.2.2⟩
      · rw [if_pos (by_contra fun h => htrailing ((trailing_iff hdecoded.waiting).mp h))]
        constructor
        · intro h
          cases h
        · exact fun h => absurd h.2.2.1 htrailing
    · rw [if_pos (by omega)]
      constructor
      · intro h
        cases h
      · exact fun h => absurd h.2.1 hpadding

/-! ## The accepted spellings -/

/-- **The decoder accepts the two spellings of a byte string**, and nothing else. -/
theorem base64UrlDecode_iff (x t : Bytes) :
    base64UrlDecode t = .ok x ↔ t = base64UrlEncode x false ∨ t = base64UrlEncode x true := by
  obtain ⟨vs, z, hvs, hencode, hz, hbits⟩ := exists_encode x
  have hlength := congrArg List.length hbits
  rw [List.length_append, length_byteBits, length_sextetBits, List.length_replicate] at hlength
  have hpadded : base64UrlEncode x true = vs.map base64UrlChar ++ List.replicate
    (paddingOf vs.length) 61 := by
    rw [encode_padded, padLoop_eq, hencode, List.length_map]
  have hthree : vs.length % 4 ≠ 1 := by omega
  rw [hpadded, hencode]
  constructor
  · intro h
    obtain ⟨d, hd⟩ : ∃ d, decodeLoop 0 {} t = .ok d := by
      unfold base64UrlDecode at h
      split at h
      · cases h
      · exact ⟨_, ‹_›⟩
    obtain ⟨ws, n, hws, rfl, hn⟩ := of_decodeLoop rfl rfl hd
    obtain ⟨hone, hpadding, k, hk, hwords⟩ := (decode_spelling hws hn x).mp h
    have hlength' := congrArg List.length hwords
    rw [List.length_append, length_byteBits, length_sextetBits, List.length_replicate] at hlength'
    -- a value more would leave six bits waiting
    have hcount : ws.length ≠ vs.length + 1 := by
      intro hmore
      have hsix : k = z + 6 := by omega
      omega
    have hsame : k = z := by omega
    have hvalues : ws = vs :=
      flatMap_bits_inj hws hvs (by omega) (by rw [← sextetBits, hwords, hsame, ← hbits, sextetBits])
    rw [hvalues] at hpadding ⊢
    rcases hpadding with rfl | rfl
    · exact .inl (List.append_nil _)
    · exact .inr rfl
  · rintro (rfl | rfl)
    · have hspelling := (decode_spelling hvs (Nat.zero_le 2) x).mpr ⟨hthree, .inl rfl, z, by omega,
        hbits⟩
      rwa [List.replicate_zero, List.append_nil] at hspelling
    · exact (decode_spelling hvs (by unfold paddingOf; omega) x).mpr ⟨hthree, .inr rfl, z, by omega,
        hbits⟩

/-- **base64url decoding is strict**: what is accepted for a byte string are the two spellings of
the encoder, which are one exactly when three divides the length. -/
theorem base64Url_strict (x : Bytes) :
    (∀ padding, base64UrlDecode (base64UrlEncode x padding) = .ok x) ∧
      (∀ t, base64UrlDecode t = .ok x ↔ t = base64UrlEncode x false ∨ t = base64UrlEncode x true) ∧
        (base64UrlEncode x false = base64UrlEncode x true ↔ 3 ∣ x.length) := by
  refine ⟨fun padding => ?_, base64UrlDecode_iff x, ?_⟩
  · cases padding with
    | false => exact (base64UrlDecode_iff x _).mpr (.inl rfl)
    | true => exact (base64UrlDecode_iff x _).mpr (.inr rfl)
  · obtain ⟨vs, z, -, hencode, hz, hbits⟩ := exists_encode x
    have hlength := congrArg List.length hbits
    rw [List.length_append, length_byteBits, length_sextetBits, List.length_replicate] at hlength
    rw [encode_padded, padLoop_eq, hencode, List.length_map]
    have hzero : paddingOf vs.length = 0 ↔ 3 ∣ x.length := by
      unfold paddingOf
      omega
    rw [← hzero]
    constructor
    · intro h
      have hsame := congrArg List.length h
      rw [List.length_append, List.length_replicate] at hsame
      omega
    · intro h
      rw [h, List.replicate_zero, List.append_nil]

/-- **The empty byte string** has one spelling. -/
theorem not_two_spellings :
    ¬ ∀ x, ∃ s t, s ≠ t ∧ ∀ u, base64UrlDecode u = .ok x ↔ u = s ∨ u = t := by
  intro hclaim
  obtain ⟨s, t, hne, hspellings⟩ := hclaim []
  have hone : base64UrlEncode [] true = [] := by
    rw [encode_padded, padLoop_eq]
    rfl
  have hempty : ∀ u, base64UrlDecode u = .ok [] → u = [] := by
    intro u h
    rcases (base64UrlDecode_iff [] u).mp h with h | h
    · exact h
    · exact h.trans hone
  exact hne ((hempty s ((hspellings s).mpr (.inl rfl))).trans
    (hempty t ((hspellings t).mpr (.inr rfl))).symm)

end Libca.Str
