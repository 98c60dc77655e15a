import Libca.Common.Except
import Libca.Http.Headers
import Libca.Str.Percent

/-!
# Percent encoding and query strings

* `percentEncode`, `percentDecode`: the functions of `url.cpp`. `percentEncode_eq`, `percentDecode_eq_ok`:
  they are those of `StringUtil` without `+` for a space, the texts of errors apart.
* `parseQueryFrom`: the loop of `parse_query_params`, segment after segment.
* `parseQueryParams_queryOf`: **the list of pairs that a query was written from.**
* `percent_coding`: the laws together.
-/

namespace Libca.Http

open Common

/-! ## Percent encoding -/

def isUnreservedByte (byte : UInt8) : Bool :=
  (65 ≤ byte && byte ≤ 90) || (97 ≤ byte && byte ≤ 122) || (48 ≤ byte && byte ≤ 57) || byte == 45 ||
    byte == 46 || byte == 95 || byte == 126

/-- `hex_digit_value`: `-1` for a byte that is no digit. -/
def hexDigitValue (character : UInt8) : Int :=
  if 48 ≤ character ∧ character ≤ 57 then (character.toNat : Int) - 48
  else if 65 ≤ character ∧ character ≤ 70 then (character.toNat : Int) - 65 + 10
  else if 97 ≤ character ∧ character ≤ 102 then (character.toNat : Int) - 97 + 10
  else -1

/-- `HEX_UPPER`, the same table. -/
def hexUpper : Vector UInt8 16 := Str.hexDigits

def encodeByte (byte : UInt8) : Bytes :=
  if isUnreservedByte byte then [byte]
  else
    [37, hexUpper.get (Fin.ofNat 16 (byte.toNat / 16)), hexUpper.get (Fin.ofNat 16 byte.toNat)]

def percentEncode (value : Bytes) : Bytes := value.flatMap encodeByte

/-- An `InvalidUrl` error. -/
def invalidUrl (message : String) : HttpError := ⟨.invalidUrl, message⟩

def percentDecode : Bytes → Except HttpError Bytes
  | [] => .ok []
  | byte :: rest =>
    if byte ≠ 37 then (percentDecode rest).map (byte :: ·)
    else
      match rest with
      | high :: low :: rest =>
        if hexDigitValue high < 0 ∨ hexDigitValue low < 0 then
          .error (invalidUrl "percent-encoded sequence contains a non-hex byte")
        else
          (percentDecode rest).map (UInt8.ofNat (hexDigitValue high * 16 + hexDigitValue low).toNat :: ·)
      | _ => .error (invalidUrl "percent-encoded sequence is truncated")

/-! ## Query strings -/

/-- `HttpQueryParam`. -/
structure HttpQueryParam where
  key : Bytes
  value : Bytes := []
deriving DecidableEq

/-- A segment that is not empty. -/
def parseSegment (segment : Bytes) : Except HttpError HttpQueryParam :=
  match segment.findIdx? (· == 61) with
  | none => do
    let key ← percentDecode segment
    .ok { key := key }
  | some equals => do
    let key ← percentDecode (segment.take equals)
    let value ← percentDecode (segment.drop (equals + 1))
    .ok { key := key, value := value }

/-- The loop of `parse_query_params` on the rest of the query. -/
def parseQueryFrom (rest : Bytes) (params : List HttpQueryParam) :
    Except HttpError (List HttpQueryParam) :=
  if rest = [] then .ok params
  else
    let segment := rest.takeWhile (· != 38)
    if segment = [] then parseQueryFrom (rest.drop (segment.length + 1)) params
    else do
      let param ← parseSegment segment
      parseQueryFrom (rest.drop (segment.length + 1)) (params ++ [param])
termination_by rest.length
decreasing_by
  all_goals
    have hpos : 0 < rest.length := List.length_pos_iff.mpr ‹_›
    rw [List.length_drop]
    omega

def parseQueryParams (query : Bytes) : Except HttpError (List HttpQueryParam) :=
  parseQueryFrom query []

/-! ## The two encoders and the two decoders -/

theorem isUnreservedByte_eq (byte : UInt8) :
    isUnreservedByte byte = Str.isUnreservedUrlChar byte := by
  unfold isUnreservedByte Str.isUnreservedUrlChar Str.isAsciiAlnum Str.isAsciiAlpha Str.isAsciiLower
    Str.isAsciiUpper Str.isAsciiDigit
  rw [Bool.or_comm (decide (65 ≤ byte) && _)]

theorem percentEncode_eq (value : Bytes) : percentEncode value = Str.percentEncode value false := by
  unfold percentEncode Str.percentEncode
  refine congrArg (List.flatMap · value) (funext fun byte => ?_)
  have hhigh : Fin.ofNat 16 (byte.toNat / 16) = ⟨byte.toNat / 16, by have := byte.toNat_lt; omega⟩ :=
    Fin.ext (Nat.mod_eq_of_lt (by have := byte.toNat_lt; omega))
  unfold encodeByte Str.encodeChar
  rw [isUnreservedByte_eq, hhigh]
  rfl

/-- **The digits of both decoders have the same values.** -/
theorem hexDigitValue_eq (character : UInt8) :
    hexDigitValue character = if Str.isHexDigit character then (Str.hexValue character : Int)
      else -1 := by
  unfold hexDigitValue Str.isHexDigit Str.hexValue
  simp only [Bool.or_eq_true, Bool.and_eq_true, decide_eq_true_eq, UInt8.le_iff_toNat_le]
  split_ifs
  all_goals
    simp_all
    try omega

theorem hexDigitValue_neg_iff (character : UInt8) :
    hexDigitValue character < 0 ↔ Str.isHexDigit character = false := by
  rw [hexDigitValue_eq]
  cases Str.isHexDigit character with
  | false =>
    rw [if_neg (by simp)]
    decide
  | true =>
    rw [if_pos rfl]
    constructor
    · intro h
      omega
    · nofun

/-- The decoders on the same bytes, from any position. -/
theorem decode_agrees (i : Nat) (value : Bytes) :
    (percentDecode value).toOption = (Str.decodeFrom false i value).toOption := by
  fun_induction percentDecode value generalizing i with
  | case1 => rfl
  | case2 byte rest hne ih =>
    rw [Str.decodeFrom_plain rfl hne]
    have hrest := ih (i + 1)
    revert hrest
    cases percentDecode rest <;> cases Str.decodeFrom false (i + 1) rest <;>
      simp [Except.toOption, Except.map]
  | case3 byte hbyte high low rest hdigits =>
    rw [Str.decodeFrom, if_neg (by simp), if_neg hbyte]
    rw [hexDigitValue_neg_iff, hexDigitValue_neg_iff] at hdigits
    rw [if_pos hdigits]
    rfl
  | case4 byte hbyte high low rest hdigits ih =>
    rw [Str.decodeFrom, if_neg (by simp), if_neg hbyte]
    have hhex := hdigits
    rw [hexDigitValue_neg_iff, hexDigitValue_neg_iff, not_or, Bool.not_eq_false,
      Bool.not_eq_false] at hhex
    have hvalue : (hexDigitValue high * 16 + hexDigitValue low).toNat =
        Str.hexValue high <<< 4 ||| Str.hexValue low := by
      rw [hexDigitValue_eq, hexDigitValue_eq, if_pos hhex.1, if_pos hhex.2,
        Str.shiftLeft_or_eq (Str.hexValue_lt hhex.2)]
      omega
    rw [hvalue, if_neg (by simp [hhex])]
    have hrest := ih (i + 3)
    revert hrest
    cases percentDecode rest <;> cases Str.decodeFrom false (i + 3) rest <;>
      simp [Except.toOption, Except.map]
  | case5 byte rest hbyte htruncated =>
    have hstr : ∃ e, Str.decodeFrom false i (byte :: rest) = .error e := by
      rw [Str.decodeFrom.eq_def]
      dsimp only
      rw [if_neg (by simp), if_neg hbyte]
      rcases rest with _ | ⟨high, _ | ⟨low, rest⟩⟩
      · exact ⟨_, rfl⟩
      · exact ⟨_, rfl⟩
      · exact absurd rfl (htruncated high low rest)
    obtain ⟨e, he⟩ := hstr
    rw [he]
    rfl

/-- **The decoders succeed on the same inputs with the same bytes.** -/
theorem percentDecode_eq_ok {value bytes : Bytes} :
    percentDecode value = .ok bytes ↔ Str.percentDecode value false = .ok bytes := by
  have hagree := decode_agrees 0 value
  unfold Str.percentDecode
  revert hagree
  cases percentDecode value with
  | error e => cases Str.decodeFrom false 0 value <;> simp [Except.toOption]
  | ok decoded =>
    cases Str.decodeFrom false 0 value with
    | error e => simp [Except.toOption]
    | ok decoded' =>
      intro hagree
      rw [Option.some.inj hagree, Except.ok.injEq, Except.ok.injEq]

theorem percentDecode_percentEncode (value : Bytes) :
    percentDecode (percentEncode value) = .ok value := by
  rw [percentEncode_eq, percentDecode_eq_ok]
  exact Str.percentDecode_percentEncode value false

/-! ## Written queries -/

theorem percentEncode_ne {c byte : UInt8} {value : Bytes} (hc : isUnreservedByte c = false)
    (hpercent : c ≠ 37) (h : byte ∈ percentEncode value) : byte ≠ c := by
  rintro rfl
  rw [percentEncode_eq] at h
  rcases Str.mem_percentEncode h with hplain | hbyte
  · rw [← isUnreservedByte_eq, hc] at hplain
    cases hplain
  · exact hpercent hbyte

/-- A pair as `key=value`. -/
def pairOf (param : HttpQueryParam) : Bytes :=
  percentEncode param.key ++ 61 :: percentEncode param.value

/-- The pairs, joined by `&`. -/
def queryOf (params : List HttpQueryParam) : Bytes := [38].intercalate (params.map pairOf)

theorem pairOf_ne_nil (param : HttpQueryParam) : pairOf param ≠ [] :=
  List.append_ne_nil_of_right_ne_nil _ (List.cons_ne_nil _ _)

/-- No `&` stands in a pair. -/
theorem ne_of_mem_pairOf {param : HttpQueryParam} {byte : UInt8} (h : byte ∈ pairOf param) :
    byte ≠ 38 := by
  rcases List.mem_append.mp h with hkey | hvalue
  · exact percentEncode_ne (by decide) (by decide) hkey
  · rcases List.mem_cons.mp hvalue with rfl | hvalue
    · decide
    · exact percentEncode_ne (by decide) (by decide) hvalue

/-- The first `=` of a pair stands behind the key. -/
theorem parseSegment_pairOf (param : HttpQueryParam) : parseSegment (pairOf param) = .ok param := by
  have hfind : (pairOf param).findIdx? (· == 61) = some (percentEncode param.key).length := by
    unfold pairOf
    rw [List.findIdx?_append, List.findIdx?_eq_none_iff.mpr, List.findIdx?_cons]
    · simp
    · intro byte hbyte
      exact beq_eq_false_iff_ne.mpr (percentEncode_ne (by decide) (by decide) hbyte)
  unfold parseSegment
  rw [hfind]
  unfold pairOf
  dsimp only
  rw [List.take_left, ← List.drop_drop, List.drop_left, List.drop_one, List.tail_cons,
    percentDecode_percentEncode, percentDecode_percentEncode]
  rfl

theorem takeWhile_pairOf (param : HttpQueryParam) :
    (pairOf param).takeWhile (· != 38) = pairOf param :=
  List.takeWhile_eq_self_iff.mpr fun _ h => bne_iff_ne.mpr (ne_of_mem_pairOf h)

/-- **The segments of a written query are read one after the other.** -/
theorem parseQueryFrom_queryOf (params : List HttpQueryParam) (read : List HttpQueryParam) :
    parseQueryFrom (queryOf params) read = .ok (read ++ params) := by
  induction params generalizing read with
  | nil =>
    rw [queryOf, List.map_nil, List.intercalate_nil, parseQueryFrom, if_pos rfl, List.append_nil]
  | cons param params ih =>
    cases params with
    | nil =>
      rw [queryOf, List.map_cons, List.map_nil, List.intercalate_singleton, parseQueryFrom,
        if_neg (pairOf_ne_nil param)]
      dsimp only
      rw [takeWhile_pairOf, if_neg (pairOf_ne_nil param), parseSegment_pairOf, except_ok_bind,
        List.drop_eq_nil_of_le (Nat.le_succ _), parseQueryFrom, if_pos rfl]
    | cons next params =>
      have hquery : queryOf (param :: next :: params) = pairOf param ++ 38 ::
        queryOf (next :: params) := by
        unfold queryOf
        rw [List.map_cons, List.map_cons, List.intercalate_cons_cons]
        exact List.append_assoc _ _ _
      have hsegment : (pairOf param ++ 38 :: queryOf (next :: params)).takeWhile (· != 38) =
        pairOf param := by
        rw [List.takeWhile_append_of_pos fun _ h => bne_iff_ne.mpr (ne_of_mem_pairOf h),
          List.takeWhile_cons]
        simp
      rw [hquery, parseQueryFrom,
        if_neg (List.append_ne_nil_of_left_ne_nil (pairOf_ne_nil param) _)]
      dsimp only
      rw [hsegment, if_neg (pairOf_ne_nil param), parseSegment_pairOf, except_ok_bind,
        ← List.drop_drop, List.drop_left, List.drop_one, List.tail_cons, ih, List.append_assoc]
      rfl

/-- **The list of pairs that a query was written from.** -/
theorem parseQueryParams_queryOf (params : List HttpQueryParam) :
    parseQueryParams (queryOf params) = .ok params :=
  parseQueryFrom_queryOf params []

/-- **Percent coding agrees, and query strings are read back.** -/
theorem percent_coding :
    (∀ x, percentEncode x = Str.percentEncode x false) ∧
      (∀ x bytes, percentDecode x = .ok bytes ↔ Str.percentDecode x false = .ok bytes) ∧
      (∀ x, percentDecode (percentEncode x) = .ok x) ∧
      (∀ x plus, Str.percentDecode (Str.percentEncode x plus) plus = .ok x) ∧
      ∀ params, parseQueryParams (queryOf params) = .ok params :=
  ⟨percentEncode_eq, fun _ _ => percentDecode_eq_ok, percentDecode_percentEncode,
    Str.percentDecode_percentEncode,
    parseQueryParams_queryOf⟩

example : parseQueryParams (ascii "a=%3D&&=b&c") =
    .ok [⟨ascii "a", ascii "="⟩, ⟨[], ascii "b"⟩, ⟨ascii "c", []⟩] := by
  decide +kernel

end Libca.Http
