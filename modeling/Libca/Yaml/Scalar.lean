import Libca.Common.Strtoll
import Libca.Yaml.BlockScalar
import Libca.Yaml.Value
import Mathlib.Tactic.FinCases

/-!
# Plain scalars (`yaml/yaml_scalar.cpp` 25-171)

`resolve_plain_scalar`, and what `YamlParser` does with a plain scalar in a block and in a flow
collection. `strtod` of the C library is a parameter.

* `resolvePlainScalar`, `parsePlainScalar`, `parseFlowPlain`: the type of a text, and the node it
  becomes.
* `Typed`, `CoreSchema`: the types of the core schema of YAML 1.2, with the values of integers.
* `coreOf`: the type as it is computed. `coreSchema_iff`: **it is the only type of a text.**
* `resolves_core`: **the resolution follows the core schema**, but for the NaNs with a plus sign.
* `followsCore`: so does the parser; it reports a number that does not fit as an error.
-/

namespace Libca.Yaml

open Common
open Json (F64)

/-! ## The resolution -/

/-- `ResolvedScalar`: a kind, with the value of a boolean, an integer or a float. -/
inductive ResolvedScalar where
  | null
  | boolean (v : Bool)
  | integer (v : Int64)
  | float (v : F64)
  | string
  | intOverflow
  | floatOverflow
  deriving DecidableEq

/-- `is_decimal_int_shape`. -/
def isDecimalIntShape (data : Bytes) : Bool :=
  let digits := dropSign data
  !digits.isEmpty && digits.all decimalDigit

/-- What `is_float_shape` does from the letter of an exponent on. -/
def isFloatEnd (sawDot : Bool) (data : Bytes) : Bool :=
  match data with
  | c :: rest =>
    if c = 101 ∨ c = 69 then
      let rest := dropSign rest
      if rest.head?.any decimalDigit then (rest.dropWhile decimalDigit).isEmpty else false
    else false
  | [] => sawDot

/-- `is_float_shape`. -/
def isFloatShape (data : Bytes) : Bool :=
  let data := dropSign data
  let whole := data.takeWhile decimalDigit
  match data.dropWhile decimalDigit with
  | 46 :: rest =>
    if whole.isEmpty && (rest.takeWhile decimalDigit).isEmpty then false
    else isFloatEnd true (rest.dropWhile decimalDigit)
  | rest => if whole.isEmpty then false else isFloatEnd false rest

/-- `std::numeric_limits<f64>::infinity()`, with a sign. -/
def infinity (negative : Bool) : F64 := if negative then ⟨0xfff0000000000000⟩
else ⟨0x7ff0000000000000⟩

/-- `std::numeric_limits<f64>::quiet_NaN()`. -/
def quietNaN : F64 := ⟨0x7ff8000000000000⟩

/-- What is made of an integer that the C library converted. -/
def ofStrtoll (v : Converted Int) (length : Nat) : ResolvedScalar :=
  if v.rangeError then .intOverflow
  else if v.read = length then .integer (Int64.ofInt v.value)
  else .string

/-- What is made of a float that the C library converted. -/
def ofStrtod (v : Converted F64) (length : Nat) : ResolvedScalar :=
  if v.rangeError then .floatOverflow
  else if v.read = length then .float v.value
  else .string

/-- The numbers of `resolve_plain_scalar`. -/
def resolveNumber (strtod : Bytes → Converted F64) (data : Bytes) : ResolvedScalar :=
  let hex := decide (2 < data.length) && data[0]? == some 48 && data[1]? == some 120
  let oct := decide (2 < data.length) && data[0]? == some 48 && data[1]? == some 111
  if hex || oct then
    if (data.drop 2).all (isDigitOf (if hex then 16 else 8)) then
      let buf := if oct then data.drop 2 else data
      ofStrtoll (strtoll buf (if hex then 16 else 8)) buf.length
    else .string
  else if isDecimalIntShape data then ofStrtoll (strtoll data 10) data.length
  else if isFloatShape data then ofStrtod (strtod data) data.length
  else .string

/-- `resolve_plain_scalar`. -/
def resolvePlainScalar (strtod : Bytes → Converted F64) (data : Bytes) : ResolvedScalar :=
  if data.length = 0 ∨ data = ascii "~" ∨ data = ascii "null" ∨ data = ascii "Null" ∨
    data = ascii "NULL" then .null
  else if data = ascii "true" ∨ data = ascii "True" ∨ data = ascii "TRUE" then .boolean true
  else if data = ascii "false" ∨ data = ascii "False" ∨ data = ascii "FALSE" then .boolean false
  else
    let negative := data.head? == some 45
    let p := dropSign data
    if p = ascii ".inf" ∨ p = ascii ".Inf" ∨ p = ascii ".INF" then .float (infinity negative)
    else if !negative ∧ (p = ascii ".nan" ∨ p = ascii ".NaN" ∨ p = ascii ".NAN") then
      .float quietNaN
    else resolveNumber strtod data

/-! ## The parser -/

/-- The switch over the kinds: a node, or an error at a place. -/
def nodeOf (here : SourceLocation) (text : Bytes) : ResolvedScalar → Except ParseError YamlValue
  | .null => .ok .null
  | .boolean v => .ok (.boolean v)
  | .integer v => .ok (.integer v)
  | .float v => .ok (.float v)
  | .string => .ok (.string text)
  | .intOverflow => .error ⟨here, ascii "integer out of range (i64)"⟩
  | .floatOverflow => .error ⟨here, ascii "float out of range"⟩

/-- The column behind a plain scalar, or the column of a colon that is none of its characters.
`previous` is the character in front, inside of the scalar. -/
def plainLoop (col : Nat) (previous : Option UInt8) : Bytes → Except Nat Nat
  | [] => .ok col
  | c :: rest =>
    if c = 35 ∧ previous.any isInlineWs then .ok col
    else if c = 58 ∧ rest.head?.all isInlineWs then .error col
    else plainLoop (col + 1) (some c) rest

/-- The text of a plain scalar in a block, from a column on. -/
def plainText (L : Line) (col : Nat) : Except ParseError Bytes :=
  match plainLoop col none (L.text.drop col) with
  | .error colon =>
    .error ⟨L.locHere colon,
      ascii "mapping value not allowed here; quote the scalar if ':' is intended"⟩
  | .ok stop => .ok (((L.text.take stop).drop col).rdropWhile isInlineWs)

/-- `parse_plain_scalar`: the node, and the lines that are left. -/
def parsePlainScalar (strtod : Bytes → Converted F64) (L : Line) (col : Nat)
    (following : List Line) :
    Except ParseError (YamlValue × List Line) := do
  let text ← plainText L col
  let node ← nodeOf (L.locHere col) text (resolvePlainScalar strtod text)
  return (node, following)

/-- The column behind a plain scalar in a flow collection. -/
def flowLoop (L : Line) (col : Nat) (previous : Option UInt8) : Bytes → Except ParseError Nat
  | [] => .ok col
  | c :: rest =>
    if c = 44 ∨ c = 93 ∨ c = 125 then .ok col
    else if c = 35 ∧ previous.any isInlineWs then
      .error ⟨L.locHere col, ascii "comment not allowed inside a flow collection"⟩
    else if c = 58 ∧ rest.head?.all isInlineWs then
      .error ⟨L.locHere col,
      ascii "mapping entry not allowed here; quote the string or use \x7b \x7d"⟩
    else flowLoop L (col + 1) (some c) rest

/-- The text of a plain scalar in a flow collection, and the column behind it. -/
def flowText (L : Line) (col : Nat) : Except ParseError (Bytes × Nat) := do
  let stop ← flowLoop L col none (L.text.drop col)
  let text := ((L.text.take stop).drop col).rdropWhile isInlineWs
  if text = [] then .error ⟨L.locHere stop, ascii "empty flow scalar"⟩ else return (text, stop)

/-- The plain scalars of `parse_flow_value`: the node, and the column behind it. -/
def parseFlowPlain (strtod : Bytes → Converted F64) (L : Line) (col : Nat) :
    Except ParseError (YamlValue × Nat) := do
  let (text, stop) ← flowText L col
  let node ← nodeOf (L.locHere stop) text (resolvePlainScalar strtod text)
  return (node, stop)

/-! ## The core schema -/

/-- A type of the core schema, with the value of a boolean or an integer. The value of a decimal
float is what `strtod` makes of it. -/
inductive Core where
  | null
  | boolean (v : Bool)
  | integer (n : Int)
  | float
  | infinity (negative : Bool)
  | nan
  | string
  deriving DecidableEq

/-- An optional sign. -/
def OptSign (sign : Bytes) : Prop := sign = [] ∨ sign = [43] ∨ sign = [45]

/-- A digit and more digits. -/
def Digits (base : Nat) (digits : Bytes) : Prop := digits ≠ [] ∧ ∀ b ∈ digits, isDigitOf base b =
    true

/-- A decimal numeral without a sign that has a point or an exponent. -/
def FloatText (text : Bytes) : Prop :=
  ∃ whole fraction exponent, (∀ b ∈ whole, decimalDigit b = true) ∧
    (fraction = [] ∧ whole ≠ [] ∨
      ∃ digits, (∀ b ∈ digits, decimalDigit b = true) ∧ (whole ≠ [] ∨ digits ≠ []) ∧
        fraction = 46 :: digits) ∧
    (exponent = [] ∨ ExponentText exponent) ∧ (fraction ≠ [] ∨ exponent ≠ []) ∧
    text = whole ++ (fraction ++ exponent)

/-- The texts of the core schema that are no strings. -/
inductive Typed : Bytes → Core → Prop
  | null {t : Bytes} : t ∈ [ascii "~", ascii "null", ascii "Null", ascii "NULL"] → Typed t .null
  | boolTrue {t : Bytes} : t ∈ [ascii "true", ascii "True", ascii "TRUE"] → Typed t (.boolean true)
  | boolFalse {t : Bytes} :
    t ∈ [ascii "false", ascii "False", ascii "FALSE"] → Typed t (.boolean false)
  | decimal {sign digits : Bytes} : OptSign sign → Digits 10 digits →
      Typed (sign ++ digits) (.integer (behindSign 10 sign digits))
  | octal {digits : Bytes} :
    Digits 8 digits → Typed (ascii "0o" ++ digits) (.integer (ofChars 8 digits))
  | hex {digits : Bytes} :
    Digits 16 digits → Typed (ascii "0x" ++ digits) (.integer (ofChars 16 digits))
  | float {sign text : Bytes} : OptSign sign → FloatText text → Typed (sign ++ text) .float
  | infinity {sign word : Bytes} :
    OptSign sign → word ∈ [ascii ".inf", ascii ".Inf", ascii ".INF"] →
      Typed (sign ++ word) (.infinity (sign == [45]))
  | nan {t : Bytes} : t ∈ [ascii ".nan", ascii ".NaN", ascii ".NAN"] → Typed t .nan

/-- A type of a text: one that it has the form of, or else that of strings. -/
def CoreSchema (t : Bytes) (c : Core) : Prop := Typed t c ∨ c = .string ∧ ∀ c', ¬ Typed t c'

/-- What is documented of `strtod`: a decimal numeral is read to its end, and an infinite value that
a numeral overflows to is a range error. Whether a value that underflows is one depends on the
implementation. -/
structure Documented (strtod : Bytes → Converted F64) : Prop where
  read {sign t : Bytes} : OptSign sign → FloatText t → (strtod (sign ++ t)).read =
    (sign ++ t).length
  overflow {sign t : Bytes} : OptSign sign → FloatText t → (strtod (sign ++ t)).value.isInf = true →
    (strtod (sign ++ t)).rangeError = true

/-- What the resolution is to give for a text of a type. -/
def Resolves (strtod : Bytes → Converted F64) (t : Bytes) (r : ResolvedScalar) : Core → Prop
  | .null => r = .null
  | .boolean v => r = .boolean v
  | .integer n => (FitsLongLong n → r = .integer (Int64.ofInt n)) ∧
    (¬ FitsLongLong n → r = .intOverflow)
  | .float =>
    ((strtod t).rangeError = false → r = .float (strtod t).value) ∧
      ((strtod t).value.isInf = true → r = .floatOverflow)
  | .infinity negative => r = .float (Yaml.infinity negative)
  | .nan => r = .float quietNaN
  | .string => r = .string

/-- What a plain scalar of a type is to become, with the place of an error. -/
def Becomes (strtod : Bytes → Converted F64) (here : SourceLocation) (t : Bytes)
    (node : Except ParseError YamlValue) : Core → Prop
  | .null => node = .ok .null
  | .boolean v => node = .ok (.boolean v)
  | .integer n =>
    (FitsLongLong n → node = .ok (.integer (Int64.ofInt n))) ∧
      (¬ FitsLongLong n → node = .error ⟨here, ascii "integer out of range (i64)"⟩)
  | .float =>
    ((strtod t).rangeError = false → node = .ok (.float (strtod t).value)) ∧
      ((strtod t).value.isInf = true → node = .error ⟨here, ascii "float out of range"⟩)
  | .infinity negative => node = .ok (.float (Yaml.infinity negative))
  | .nan => node = .ok (.float quietNaN)
  | .string => node = .ok (.string t)

/-- The NaNs with a plus sign, which are no floats of the core schema. -/
def SignedNaN (t : Bytes) : Prop := t ∈ [ascii "+.nan", ascii "+.NaN", ascii "+.NAN"]

instance (t : Bytes) : Decidable (SignedNaN t) := inferInstanceAs (Decidable (_ ∈ _))

/-! ## Shapes -/

theorem exists_optSign (t : Bytes) : ∃ sign, OptSign sign ∧ t = sign ++ dropSign t := exists_sign t

theorem isDecimalIntShape_iff {t : Bytes} : isDecimalIntShape t = true ↔
    Digits 10 (dropSign t) := by
  unfold isDecimalIntShape Digits
  simp [isDigitOf_ten]

/-- The end of a float is that of the text, or an exponent. -/
theorem isFloatEnd_iff {sawDot : Bool} {t : Bytes} :
    isFloatEnd sawDot t = true ↔ t = [] ∧ sawDot = true ∨ ExponentText t := by
  unfold isFloatEnd
  constructor
  · intro h
    split at h
    · next c rest =>
      split_ifs at h with hc
      dsimp only at h
      split_ifs at h with hhead
      obtain ⟨sign, hsign, hrest⟩ := exists_sign rest
      refine .inr ⟨c, sign, dropSign rest, hc, hsign, ?_, ?_, by rw [← hrest]⟩
      · intro hnil
        rw [hnil] at hhead
        cases hhead
      · exact List.dropWhile_eq_nil_iff.mp (List.isEmpty_iff.mp h)
    · exact .inl ⟨rfl, h⟩
  · rintro (⟨rfl, h⟩ | ⟨e, sign, digits, he, hsign, hne, hdigits, rfl⟩)
    · exact h
    · obtain ⟨b, digits, rfl⟩ := List.exists_cons_of_ne_nil hne
      have hdrop := dropSign_append hsign hdigits
      have hb : decimalDigit b = true := hdigits b (.head _)
      have hrest : (b :: digits).dropWhile decimalDigit = [] :=
        List.dropWhile_eq_nil_iff.mpr hdigits
      simp only [if_pos he, hdrop, List.head?_cons, Option.any_some, hb, if_true, hrest,
        List.isEmpty_nil]

theorem isFloatShape_iff {t : Bytes} : isFloatShape t = true ↔ FloatText (dropSign t) := by
  unfold isFloatShape
  generalize dropSign t = u
  constructor
  · intro h
    have hsplit := (List.takeWhile_append_dropWhile (p := decimalDigit) (l := u)).symm
    have hwhole : ∀ b ∈ u.takeWhile decimalDigit, decimalDigit b = true :=
      fun b hb => List.mem_takeWhile_imp hb
    dsimp only at h
    split at h
    · next rest hrest =>
      split_ifs at h with hnone
      have hdigits : ∀ b ∈ rest.takeWhile decimalDigit, decimalDigit b = true := fun b hb =>
        List.mem_takeWhile_imp hb
      rw [Bool.and_eq_true, not_and_or, List.isEmpty_iff, List.isEmpty_iff] at hnone
      refine ⟨_, 46 :: rest.takeWhile decimalDigit, rest.dropWhile decimalDigit, hwhole,
        .inr ⟨_, hdigits, hnone, rfl⟩, (isFloatEnd_iff.mp h).imp_left And.left,
        .inl (List.cons_ne_nil _ _), ?_⟩
      rw [List.cons_append, List.takeWhile_append_dropWhile, ← hrest]
      exact hsplit
    · split_ifs at h with hnone
      rw [List.isEmpty_iff] at hnone
      rcases isFloatEnd_iff.mp h with ⟨-, hsaw⟩ | hexponent
      · cases hsaw
      · refine ⟨_, [], _, hwhole, .inl ⟨rfl, hnone⟩, .inr hexponent, .inr ?_, hsplit⟩
        obtain ⟨e, sign, digits, -, -, -, -, heq⟩ := hexponent
        rw [heq]
        exact List.cons_ne_nil _ _
  · rintro ⟨whole, fraction, exponent, hwhole, hfraction, hexponent, hmark, rfl⟩
    have hhead := head_exponent hexponent
    dsimp only
    rcases hfraction with ⟨rfl, hne⟩ | ⟨digits, hdigits, hne, rfl⟩
    · obtain ⟨htake, hdrop⟩ := takeWhile_digits hwhole fun b hb => (hhead b hb).1
      have hend : isFloatEnd false exponent = true :=
        isFloatEnd_iff.mpr (.inr (hexponent.resolve_left (hmark.resolve_left fun h => h rfl)))
      rw [List.nil_append, htake, hdrop]
      split
      · exact absurd rfl (hhead 46 rfl).2
      · rw [if_neg (fun h => hne (List.isEmpty_iff.mp h)), hend]
    · obtain ⟨htake, hdrop⟩ := @takeWhile_digits _ (46 :: (digits ++ exponent)) hwhole
        fun b hb => by rw [← Option.some.inj hb]; decide
      obtain ⟨htake', hdrop'⟩ := takeWhile_digits hdigits fun b hb => (hhead b hb).1
      have hend : isFloatEnd true exponent = true :=
        isFloatEnd_iff.mpr (hexponent.imp_left fun h => ⟨h, rfl⟩)
      rw [List.cons_append, htake, hdrop]
      simp only [htake', hdrop', Bool.and_eq_true, List.isEmpty_iff]
      rw [if_neg (not_and_or.mpr hne), hend]

/-- A float without its sign starts with a digit or a point. -/
theorem FloatText.head {t : Bytes} (h : FloatText t) :
    ∀ b ∈ t.head?, decimalDigit b = true ∨ b = 46 := by
  obtain ⟨whole, fraction, exponent, hwhole, hfraction, -, -, rfl⟩ := h
  intro b hb
  cases whole with
  | cons c whole =>
    obtain rfl := Option.some.inj hb
    exact .inl (hwhole c (List.mem_cons_self ..))
  | nil =>
    rcases hfraction with ⟨-, hne⟩ | ⟨digits, -, -, rfl⟩
    · exact absurd rfl hne
    · exact .inr (Option.some.inj hb).symm

theorem FloatText.dropSign_append {sign t : Bytes} (hsign : OptSign sign) (h : FloatText t) :
    dropSign (sign ++ t) = t := by
  refine dropSign_append_of_head hsign fun b hb => ?_
  rcases h.head b hb with hdigit | rfl
  · exact ⟨fun heq => absurd hdigit (heq ▸ by decide), fun heq => absurd hdigit (heq ▸ by decide)⟩
  · decide

/-- A float has a character that is no digit. -/
theorem FloatText.exists_mark {t : Bytes} (h : FloatText t) : ∃ b ∈ t, decimalDigit b = false := by
  obtain ⟨whole, fraction, exponent, -, hfraction, hexponent, hmark, rfl⟩ := h
  rcases hmark with hmark | hmark
  · rcases hfraction with ⟨hnil, -⟩ | ⟨digits, -, -, rfl⟩
    · exact absurd hnil hmark
    · exact ⟨46, by simp, by decide⟩
  · obtain ⟨e, sign, digits, he, -, -, -, rfl⟩ := hexponent.resolve_left hmark
    refine ⟨e, by simp, ?_⟩
    rcases he with rfl | rfl <;> decide

/-! ## The type as it is computed -/

/-- The texts that are neither strings nor numerals. -/
def words : List (Bytes × Core) :=
  [ascii "~", ascii "null", ascii "Null", ascii "NULL"].map (·, .null) ++
    [ascii "true", ascii "True", ascii "TRUE"].map (·, .boolean true) ++
    [ascii "false", ascii "False", ascii "FALSE"].map (·, .boolean false) ++
    [ascii ".nan", ascii ".NaN", ascii ".NAN"].map (·, .nan) ++
    [([] : Bytes), [43], [45]].flatMap fun sign =>
      [ascii ".inf", ascii ".Inf", ascii ".INF"].map fun word =>
        (sign ++ word, .infinity (sign == [45]))

/-- The sign of a text. -/
def signOf (t : Bytes) : Bytes :=
  match t with
  | 43 :: _ => [43]
  | 45 :: _ => [45]
  | _ => []

/-- The type of a text that is no word. -/
def numberOf (t : Bytes) : Core :=
  match t with
  | 48 :: 120 :: digits =>
    if !digits.isEmpty && digits.all (isDigitOf 16) then .integer (ofChars 16 digits) else .string
  | 48 :: 111 :: digits =>
    if !digits.isEmpty && digits.all (isDigitOf 8) then .integer (ofChars 8 digits) else .string
  | _ =>
    if isDecimalIntShape t then .integer (behindSign 10 (signOf t) (dropSign t))
    else if isFloatShape t then .float else .string

/-- The type of a text. -/
def coreOf (t : Bytes) : Core := (words.lookup t).getD (numberOf t)

variable {digits : Bytes}

theorem isDigits_iff {base : Nat} :
    (!digits.isEmpty && digits.all (isDigitOf base)) = true ↔ Digits base digits := by
  simp [Digits]

theorem signOf_append {sign t : Bytes} (hsign : OptSign sign)
    (hhead : ∀ b ∈ t.head?, b ≠ 43 ∧ b ≠ 45) :
    signOf (sign ++ t) = sign := by
  rcases hsign with rfl | rfl | rfl
  · rw [List.nil_append]
    unfold signOf
    split
    · exact absurd rfl (hhead 43 rfl).1
    · exact absurd rfl (hhead 45 rfl).2
    · rfl
  · rfl
  · rfl

theorem signOf_append_dropSign (t : Bytes) : OptSign (signOf t) ∧ signOf t ++ dropSign t = t := by
  unfold signOf
  split
  · exact ⟨.inr (.inl rfl), rfl⟩
  · exact ⟨.inr (.inr rfl), rfl⟩
  · next hplus hminus =>
    refine ⟨.inl rfl, ?_⟩
    unfold dropSign
    split
    · exact absurd rfl (hplus _)
    · exact absurd rfl (hminus _)
    · rfl

/-- A text whose second character is a letter behind `0` has no shape of a decimal numeral. -/
theorem not_decimal_of_letter {x : UInt8} (hx : x = 120 ∨ x = 111) :
    isDecimalIntShape (48 :: x :: digits) = false ∧ isFloatShape (48 :: x :: digits) = false := by
  rcases hx with rfl | rfl
  · exact ⟨rfl, rfl⟩
  · exact ⟨rfl, rfl⟩

/-- The digits of a decimal integer. -/
theorem head_digits (h : Digits 10 digits) : ∀ b ∈ digits.head?, b ≠ 43 ∧ b ≠ 45 :=
  fun b hb => (not_space_of_digit (h.2 b (List.mem_of_head? hb))).2

/-- The type of a numeral. -/
theorem numberOf_decimal {t : Bytes} (h : isDecimalIntShape t = true ∨ isFloatShape t = true) :
    numberOf t = if isDecimalIntShape t then .integer (behindSign 10 (signOf t) (dropSign t))
      else .float := by
  unfold numberOf
  split
  · obtain ⟨hint, hfloat⟩ := @not_decimal_of_letter _ 120 (.inl rfl)
    rw [hint, hfloat] at h
    exact absurd h (by decide)
  · obtain ⟨hint, hfloat⟩ := @not_decimal_of_letter _ 111 (.inr rfl)
    rw [hint, hfloat] at h
    exact absurd h (by decide)
  · by_cases hint : isDecimalIntShape t = true
    · rw [if_pos hint, if_pos hint]
    · rw [if_neg hint, if_neg hint, if_pos (h.resolve_left hint)]

variable {c : Core}

theorem mem_words {t : Bytes} (h : words.lookup t = some c) : (t, c) ∈ words := by
  obtain ⟨before, behind, hwords, -⟩ := List.lookup_eq_some_iff.mp h
  rw [hwords]
  exact List.mem_append_right _ (.head _)

/-- A word has no form of a number. -/
theorem numberOf_word : ∀ p ∈ words, numberOf p.1 = .string := by
  decide

/-- What is a number is no word. -/
theorem coreOf_number {t : Bytes} (h : numberOf t ≠ .string) : coreOf t = numberOf t := by
  unfold coreOf
  cases hlookup : words.lookup t with
  | none => rfl
  | some c =>
    exact absurd (numberOf_word _ (mem_words hlookup)) h

/-- **A text has the type that is computed.** -/
theorem Typed.coreOf_eq {t : Bytes} (h : Typed t c) : coreOf t = c ∧ c ≠ .string := by
  cases h with
  | null h =>
    refine ⟨?_, nofun⟩
    fin_cases h <;> rfl
  | boolTrue h =>
    refine ⟨?_, nofun⟩
    fin_cases h <;> rfl
  | boolFalse h =>
    refine ⟨?_, nofun⟩
    fin_cases h <;> rfl
  | nan h =>
    refine ⟨?_, nofun⟩
    fin_cases h <;> rfl
  | infinity hsign hword =>
    refine ⟨?_, nofun⟩
    rcases hsign with rfl | rfl | rfl <;> fin_cases hword <;> rfl
  | @octal digits hdigits =>
    have hnumber : numberOf (ascii "0o" ++ digits) = .integer (ofChars 8 digits) :=
      if_pos (isDigits_iff.mpr hdigits)
    exact ⟨(coreOf_number (hnumber ▸ nofun)).trans hnumber, nofun⟩
  | @hex digits hdigits =>
    have hnumber : numberOf (ascii "0x" ++ digits) = .integer (ofChars 16 digits) :=
      if_pos (isDigits_iff.mpr hdigits)
    exact ⟨(coreOf_number (hnumber ▸ nofun)).trans hnumber, nofun⟩
  | @decimal sign digits hsign hdigits =>
    have hdrop := dropSign_append_of_head hsign (head_digits hdigits)
    have hshape : isDecimalIntShape (sign ++ digits) = true :=
      isDecimalIntShape_iff.mpr (hdrop.symm ▸ hdigits)
    have hnumber := numberOf_decimal (.inl hshape)
    rw [if_pos hshape, hdrop, signOf_append hsign (head_digits hdigits)] at hnumber
    exact ⟨(coreOf_number (hnumber ▸ nofun)).trans hnumber, nofun⟩
  | @float sign text hsign htext =>
    have hdrop := htext.dropSign_append hsign
    have hshape : isFloatShape (sign ++ text) = true := isFloatShape_iff.mpr (hdrop.symm ▸ htext)
    have hint : ¬ isDecimalIntShape (sign ++ text) = true := by
      intro hint
      rw [isDecimalIntShape_iff, hdrop] at hint
      obtain ⟨b, hb, hmark⟩ := htext.exists_mark
      rw [← isDigitOf_ten, hint.2 b hb] at hmark
      cases hmark
    have hnumber := numberOf_decimal (.inr hshape)
    rw [if_neg hint] at hnumber
    exact ⟨(coreOf_number (hnumber ▸ nofun)).trans hnumber, nofun⟩

theorem typed_word : ∀ p ∈ words, Typed p.1 p.2 := by
  intro p hp
  fin_cases hp
  all_goals first
    | exact .null (by decide)
    | exact .boolTrue (by decide)
    | exact .boolFalse (by decide)
    | exact .nan (by decide)
    | exact .infinity (.inl rfl : OptSign []) (by decide)
    | exact .infinity (.inr (.inl rfl) : OptSign [43]) (by decide)
    | exact .infinity (.inr (.inr rfl) : OptSign [45]) (by decide)

/-- What is computed for a numeral is the type of one. -/
theorem typed_numberOf {t : Bytes} (h : numberOf t ≠ .string) : Typed t (numberOf t) := by
  unfold numberOf at h ⊢
  split at h
  · next digits =>
    split_ifs at h ⊢ with hdigits
    · exact .hex (isDigits_iff.mp hdigits)
    · exact absurd rfl h
  · next digits =>
    split_ifs at h ⊢ with hdigits
    · exact .octal (isDigits_iff.mp hdigits)
    · exact absurd rfl h
  · obtain ⟨hsign, hsplit⟩ := signOf_append_dropSign t
    split_ifs at h ⊢ with hint hfloat
    · have htyped := Typed.decimal hsign (isDecimalIntShape_iff.mp hint)
      rwa [hsplit] at htyped
    · have htyped := Typed.float hsign (isFloatShape_iff.mp hfloat)
      rwa [hsplit] at htyped
    · exact absurd rfl h

theorem typed_coreOf {t : Bytes} (h : coreOf t ≠ .string) : Typed t (coreOf t) := by
  unfold coreOf at h ⊢
  cases hlookup : words.lookup t with
  | some c => exact typed_word _ (mem_words hlookup)
  | none =>
    rw [hlookup] at h
    exact typed_numberOf h

/-- **Every text has one type of the core schema**, the one that is computed. -/
theorem coreSchema_iff {t : Bytes} : CoreSchema t c ↔ coreOf t = c := by
  constructor
  · rintro (htyped | ⟨rfl, hnone⟩)
    · exact htyped.coreOf_eq.1
    · by_contra hne
      exact hnone _ (typed_coreOf hne)
  · rintro rfl
    by_cases hstring : coreOf t = .string
    · refine .inr ⟨hstring, fun c' htyped => ?_⟩
      obtain ⟨heq, hne⟩ := htyped.coreOf_eq
      exact hne (heq.symm.trans hstring)
    · exact .inl (typed_coreOf hstring)

/-! ## The resolution of numbers -/

variable {strtod : Bytes → Converted F64} {t : Bytes}

/-- An integer that is converted to its end. -/
theorem resolves_integer {v : Converted Int} {length : Nat} {n : Int}
    (hv : v.rangeError = decide (¬ FitsLongLong n) ∧ v.read = length ∧
      (FitsLongLong n → v.value = n)) :
    Resolves strtod t (ofStrtoll v length) (.integer n) := by
  obtain ⟨hrange, hread, hvalue⟩ := hv
  unfold ofStrtoll
  constructor
  · intro hfits
    rw [hrange, decide_eq_false (not_not.mpr hfits), if_neg (by decide), if_pos hread, hvalue hfits]
  · intro hfits
    rw [hrange, decide_eq_true hfits, if_pos rfl]

/-- The letter behind `0`, when there is anything behind it. -/
theorem letter_iff {x : UInt8} :
    (decide (2 < t.length) && t[0]? == some 48 && t[1]? == some x) = true ↔
      ∃ digits, digits ≠ [] ∧ t = 48 :: x :: digits := by
  rcases t with - | ⟨a, - | ⟨b, digits⟩⟩
  · simp
  · simp
  · simp [List.length_pos_iff]
    tauto

theorem resolveNumber_hex (hne : digits ≠ []) :
    resolveNumber strtod (48 :: 120 :: digits) =
      if digits.all (isDigitOf 16) then
        ofStrtoll (strtoll (48 :: 120 :: digits) 16) (48 :: 120 :: digits).length
      else .string := by
  unfold resolveNumber
  simp [hne, List.length_pos_iff]

theorem resolveNumber_octal (hne : digits ≠ []) :
    resolveNumber strtod (48 :: 111 :: digits) =
      if digits.all (isDigitOf 8) then ofStrtoll (strtoll digits 8) digits.length else .string := by
  unfold resolveNumber
  simp [hne, List.length_pos_iff]

theorem resolveNumber_decimal (hhex : ∀ digits, t ≠ 48 :: 120 :: digits)
    (hoct : ∀ digits, t ≠ 48 :: 111 :: digits) :
    resolveNumber strtod t =
      if isDecimalIntShape t then ofStrtoll (strtoll t 10) t.length
      else if isFloatShape t then ofStrtod (strtod t) t.length
      else .string := by
  have hno {x : UInt8} (h : ∀ digits, t ≠ 48 :: x :: digits) :
      (decide (2 < t.length) && t[0]? == some 48 && t[1]? == some x) = false := by
    rw [Bool.eq_false_iff]
    intro hletter
    obtain ⟨digits, -, ht⟩ := letter_iff.mp hletter
    exact h digits ht
  unfold resolveNumber
  simp only [hno hhex, hno hoct]
  rfl

theorem resolves_numberOf (hstrtod : Documented strtod) (t : Bytes) :
    Resolves strtod t (resolveNumber strtod t) (numberOf t) := by
  unfold numberOf
  split
  · next digits =>
    by_cases hne : digits = []
    · subst hne
      rfl
    · rw [resolveNumber_hex hne]
      by_cases hdigits : digits.all (isDigitOf 16) = true
      · rw [if_pos hdigits, if_pos (by simp [hne, hdigits])]
        exact resolves_integer (strtoll_hex hne (List.all_eq_true.mp hdigits))
      · rw [if_neg hdigits, if_neg (by simp [hdigits])]
        rfl
  · next digits =>
    by_cases hne : digits = []
    · subst hne
      rfl
    · rw [resolveNumber_octal hne]
      by_cases hdigits : digits.all (isDigitOf 8) = true
      · rw [if_pos hdigits, if_pos (by simp [hne, hdigits])]
        exact resolves_integer (strtoll_digits (by decide) (.inl rfl) hne
          (List.all_eq_true.mp hdigits))
      · rw [if_neg hdigits, if_neg (by simp [hdigits])]
        rfl
  · next hhex hoct =>
    obtain ⟨hsign, hsplit⟩ := signOf_append_dropSign t
    rw [resolveNumber_decimal hhex hoct]
    split_ifs with hint hfloat
    · obtain ⟨hne, hdigits⟩ := isDecimalIntShape_iff.mp hint
      have hread := @strtoll_digits 10 _ _ (by decide) hsign hne hdigits
      rw [hsplit] at hread
      exact resolves_integer hread
    · have htext := isFloatShape_iff.mp hfloat
      have hread := hstrtod.read hsign htext
      have hoverflow := hstrtod.overflow hsign htext
      rw [hsplit] at hread hoverflow
      unfold ofStrtod
      constructor
      · intro hfits
        rw [hfits, if_neg (by decide), if_pos hread]
      · intro hinf
        rw [if_pos (hoverflow hinf)]
    · rfl

/-! ## The core schema -/

theorem resolves_word : ∀ p ∈ words, Resolves strtod p.1 (resolvePlainScalar strtod p.1) p.2 := by
  intro p hp
  fin_cases hp <;> rfl

/-- A text that is no word is resolved as a number. -/
theorem resolvePlainScalar_of_lookup (hne : t ≠ []) (hnan : ¬ SignedNaN t)
    (hlookup : words.lookup t = none) :
    resolvePlainScalar strtod t = resolveNumber strtod t := by
  have hword : ∀ p ∈ words, t ≠ p.1 :=
    fun p hp => bne_iff_ne.mp (List.lookup_eq_none_iff.mp hlookup p hp)
  obtain ⟨sign, hsign, hsplit⟩ := exists_optSign t
  have hinf : ¬ (dropSign t = ascii ".inf" ∨ dropSign t = ascii ".Inf" ∨
    dropSign t = ascii ".INF") := by
    intro hinf
    have hmem : (t, Core.infinity (sign == [45])) ∈ words := by
      rw [hsplit]
      rcases hsign with rfl | rfl | rfl <;> rcases hinf with h | h | h <;> rw [h] <;> decide
    exact hword _ hmem rfl
  have hnan' : ¬ ((!t.head? == some 45) ∧
      (dropSign t = ascii ".nan" ∨ dropSign t = ascii ".NaN" ∨ dropSign t = ascii ".NAN")) := by
    rintro ⟨hnegative, h⟩
    rcases hsign with rfl | rfl | rfl
    · have hmem : (t, Core.nan) ∈ words := by
        rw [hsplit]
        rcases h with h | h | h <;> rw [h] <;> decide
      exact hword _ hmem rfl
    · refine hnan ?_
      rw [hsplit]
      rcases h with h | h | h <;> rw [h] <;> decide
    · rw [hsplit] at hnegative
      cases hnegative
  unfold resolvePlainScalar
  rw [if_neg, if_neg, if_neg]
  · dsimp only
    rw [if_neg hinf, if_neg hnan']
  · rintro (h | h | h) <;> exact hword (t, .boolean false) (by rw [h]; decide) rfl
  · rintro (h | h | h) <;> exact hword (t, .boolean true) (by rw [h]; decide) rfl
  · rintro (h | h | h | h | h)
    · exact hne (List.length_eq_zero_iff.mp h)
    all_goals exact hword (t, .null) (by rw [h]; decide) rfl

/-- **The resolution follows the core schema.** -/
theorem resolves_core (hstrtod : Documented strtod) (hne : t ≠ []) (hnan : ¬ SignedNaN t) :
    Resolves strtod t (resolvePlainScalar strtod t) (coreOf t) := by
  unfold coreOf
  cases hlookup : words.lookup t with
  | some c => exact resolves_word _ (mem_words hlookup)
  | none =>
    rw [resolvePlainScalar_of_lookup hne hnan hlookup]
    exact resolves_numberOf hstrtod t

/-- The switch makes the node, or the error, of what is resolved. -/
theorem becomes_nodeOf {here : SourceLocation} {r : ResolvedScalar} (h : Resolves strtod t r c) :
    Becomes strtod here t (nodeOf here t r) c := by
  cases c with
  | null => exact congrArg (nodeOf here t) h
  | boolean v => exact congrArg (nodeOf here t) h
  | integer n =>
    exact ⟨fun hfits => congrArg (nodeOf here t) (h.1 hfits), fun hfits =>
      congrArg (nodeOf here t) (h.2 hfits)⟩
  | float => exact ⟨fun hfits => congrArg (nodeOf here t) (h.1 hfits), fun hinf =>
    congrArg (nodeOf here t) (h.2 hinf)⟩
  | infinity negative => exact congrArg (nodeOf here t) h
  | nan => exact congrArg (nodeOf here t) h
  | string => exact congrArg (nodeOf here t) h

/-- What reading plain scalars is for: a text of a type is resolved to it, and the parser makes its
node of it in a block and in a flow collection. -/
structure FollowsCore (strtod : Bytes → Converted F64) (t : Bytes) (c : Core) : Prop where
  resolve : Resolves strtod t (resolvePlainScalar strtod t) c
  block : ∀ L col following, plainText L col = .ok t → ∃ node,
    parsePlainScalar strtod L col following = node.map (·, following) ∧
      Becomes strtod (L.locHere col) t node c
  flow : ∀ L col stop, flowText L col = .ok (t, stop) → ∃ node,
    parseFlowPlain strtod L col = node.map (·, stop) ∧ Becomes strtod (L.locHere stop) t node c

/-- **Plain scalars follow the core schema**: a text has one type of it, and is read as that. A
number that does not fit is an error. -/
theorem followsCore (hstrtod : Documented strtod) (hne : t ≠ []) (hnan : ¬ SignedNaN t) :
    (∃! c, CoreSchema t c) ∧ ∀ c, CoreSchema t c → FollowsCore strtod t c := by
  refine ⟨⟨coreOf t, coreSchema_iff.mpr rfl, fun c hc => (coreSchema_iff.mp hc).symm⟩, fun c hc =>
    ?_⟩
  obtain rfl := coreSchema_iff.mp hc
  have hresolve := resolves_core hstrtod hne hnan
  refine ⟨hresolve, fun L col following htext => ?_, fun L col stop htext => ?_⟩
  · refine ⟨nodeOf (L.locHere col) t (resolvePlainScalar strtod t), ?_, becomes_nodeOf hresolve⟩
    unfold parsePlainScalar
    rw [htext]
    show (nodeOf (L.locHere col) t (resolvePlainScalar strtod t) >>= fun node =>
      pure (node, following)) = _
    cases nodeOf (L.locHere col) t (resolvePlainScalar strtod t) <;> rfl
  · refine ⟨nodeOf (L.locHere stop) t (resolvePlainScalar strtod t), ?_, becomes_nodeOf hresolve⟩
    unfold parseFlowPlain
    rw [htext]
    show (nodeOf (L.locHere stop) t (resolvePlainScalar strtod t) >>= fun node =>
      pure (node, stop)) = _
    cases nodeOf (L.locHere stop) t (resolvePlainScalar strtod t) <;> rfl

/-- `strtod` as it is on `"1.5"`. -/
def strtodHalf (text : Bytes) : Converted F64 := ⟨⟨0x3ff8000000000000⟩, text.length, false⟩

theorem documented_strtodHalf : Documented strtodHalf where
  read _ _ := rfl
  overflow _ _ hinf := absurd (show F64.isInf ⟨0x3ff8000000000000⟩ = true from hinf) (by decide)

/-- `"1.5"` is read as a float. -/
theorem followsCore_half : (∃! c, CoreSchema (ascii "1.5") c) ∧
    ∀ c, CoreSchema (ascii "1.5") c → FollowsCore strtodHalf (ascii "1.5") c :=
  followsCore documented_strtodHalf (by decide) (by decide)

/-- 2 ^ 63 is no string. -/
theorem not_degraded_to_string :
    ¬ ∀ (strtod : Bytes → Converted F64) (L : Line) (col : Nat) (following : List Line)
    (t : Bytes) (n : Int), Documented strtod → plainText L col = .ok t → CoreSchema t (.integer n) →
      ¬ FitsLongLong n → parsePlainScalar strtod L col following = .ok (.string t, following) := by
  intro h
  have hstring :=
    h strtodHalf ⟨0, 1, ascii "9223372036854775808"⟩ 0 [] (ascii "9223372036854775808")
    9223372036854775808 documented_strtodHalf rfl (coreSchema_iff.mpr (by decide)) (by decide)
  have herror : parsePlainScalar strtodHalf ⟨0, 1, ascii "9223372036854775808"⟩ 0 [] =
      .error ⟨⟨0, 1, 1⟩, ascii "integer out of range (i64)"⟩ := by rfl
  rw [herror] at hstring
  cases hstring

end Libca.Yaml
