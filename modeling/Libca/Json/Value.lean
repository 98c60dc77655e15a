import Libca.Str.Utf8

/-!
# JSON values, locations and errors (`json/json_value.hpp`)

* `JsonValue`: the tree. Strings and keys are the bytes their references refer to; members keep
  their order and may repeat a key, and `JsonValue.set` replaces the first of a key.
* `F64`: a double, by its bits, so that equal means the same sign of zero as well.
* `DoubleChars`: `std::to_chars` and `std::from_chars` for doubles, which are the standard
  library's. `DoubleChars.Inverse` is what their documentation promises of finite doubles.
* `fromCharsI64`: `std::from_chars` for `long long`.
-/

namespace Libca.Json

open Common Str

/-! ## Numbers -/

/-- A double, by its bits. -/
structure F64 where
  bits : UInt64
  deriving DecidableEq

namespace F64

/-- The exponent field. -/
def exponent (v : F64) : Nat := v.bits.toNat / 2 ^ 52 % 2 ^ 11

/-- The fraction field. -/
def fraction (v : F64) : Nat := v.bits.toNat % 2 ^ 52

/-- `std::isnan`. -/
def isNan (v : F64) : Bool := v.exponent == 2047 && v.fraction != 0

/-- `std::isinf`. -/
def isInf (v : F64) : Bool := v.exponent == 2047 && v.fraction == 0

/-- Neither a NaN nor an infinity. -/
def IsFinite (v : F64) : Prop := v.exponent ≠ 2047

instance (v : F64) : Decidable v.IsFinite := inferInstanceAs (Decidable (_ ≠ _))

theorem isFinite_iff (v : F64) : v.IsFinite ↔ (v.isNan || v.isInf) = false := by
  unfold IsFinite isNan isInf
  by_cases h : v.exponent = 2047
  · by_cases h' : v.fraction = 0 <;> simp [h, h']
  · simp [h]

end F64

/-- The errors of `std::to_chars` and `std::from_chars`. -/
inductive Errc where
  | invalidArgument
  | resultOutOfRange
  | valueTooLarge
  deriving DecidableEq

/-- `std::to_chars` and `std::from_chars` for doubles. -/
structure DoubleChars where
  /-- `std::to_chars(buf, buf + 64, v)`: the characters written. -/
  toChars : F64 → Except Errc Bytes
  /-- `std::from_chars(first, last, v)`: the value, and the number of characters consumed. -/
  fromChars : Bytes → Except Errc (F64 × Nat)

/-- A decimal digit. -/
def isDigit (c : UInt8) : Bool := 48 ≤ c && c ≤ 57

/-- `std::from_chars(first, last, v)` for `long long`, in base ten. -/
def fromCharsI64 (text : Bytes) : Except Errc Int64 :=
  let negative := text.head? = some 45
  let digits := (if negative then text.tail else text).takeWhile isDigit
  if digits = [] then .error .invalidArgument
  else
    let v : Int := if negative then -(ofChars 10 digits) else ofChars 10 digits
    if -2 ^ 63 ≤ v ∧ v < 2 ^ 63 then .ok (Int64.ofInt v) else .error .resultOutOfRange

/-! ## Values -/

/-- `JsonValue`. -/
inductive JsonValue where
  | null
  | bool (v : Bool)
  | int (v : Int64)
  | float (v : F64)
  | string (v : Bytes)
  | array (items : List JsonValue)
  | object (members : List (Bytes × JsonValue))

namespace JsonValue

/-- `JsonValue::set` on the members of an object. -/
def setMember : List (Bytes × JsonValue) → Bytes → JsonValue → List (Bytes × JsonValue)
  | [], key, v => [(key, v)]
  | m :: obj, key, v => if m.1 = key then (m.1, v) :: obj else m :: setMember obj key v

mutual

/-- The nesting of arrays and objects. -/
def depth : JsonValue → Nat
  | .null => 0
  | .bool _ => 0
  | .int _ => 0
  | .float _ => 0
  | .string _ => 0
  | .array items => itemsDepth items + 1
  | .object members => membersDepth members + 1

/-- The nesting inside the items of an array. -/
def itemsDepth : List JsonValue → Nat
  | [] => 0
  | v :: items => max v.depth (itemsDepth items)

/-- The nesting inside the members of an object. -/
def membersDepth : List (Bytes × JsonValue) → Nat
  | [] => 0
  | (_, v) :: members => max v.depth (membersDepth members)

end

mutual

/-- Strings and keys are valid UTF-8, and floats are finite. -/
def Valid : JsonValue → Prop
  | .null => True
  | .bool _ => True
  | .int _ => True
  | .float v => v.IsFinite
  | .string v => IsUtf8 v
  | .array items => ItemsValid items
  | .object members => MembersValid members

/-- The same of every item. -/
def ItemsValid : List JsonValue → Prop
  | [] => True
  | v :: items => v.Valid ∧ ItemsValid items

/-- The same of every member and its key. -/
def MembersValid : List (Bytes × JsonValue) → Prop
  | [] => True
  | (key, v) :: members => IsUtf8 key ∧ v.Valid ∧ MembersValid members

end

end JsonValue

/-! ## Locations and errors -/

/-- `SourceLocation`. -/
structure SourceLocation where
  offset : Nat
  line : Nat
  column : Nat
  deriving DecidableEq

namespace SourceLocation

/-- The start of a text. -/
def start : SourceLocation := ⟨0, 1, 1⟩

/-- The location after one more byte, as `JsonParser::advance` moves it. -/
def next (loc : SourceLocation) (c : UInt8) : SourceLocation :=
  if c = 10 then ⟨loc.offset + 1, loc.line + 1, 1⟩
  else ⟨loc.offset + 1, loc.line, loc.column + 1⟩

/-- The location after some more bytes. -/
def after (loc : SourceLocation) (bs : Bytes) : SourceLocation := bs.foldl next loc

@[simp] theorem after_nil (loc : SourceLocation) : loc.after [] = loc := rfl

@[simp] theorem after_cons (loc : SourceLocation) (c : UInt8) (bs : Bytes) :
    loc.after (c :: bs) = (loc.next c).after bs := rfl

@[simp] theorem after_append (loc : SourceLocation) (as bs : Bytes) :
    loc.after (as ++ bs) = (loc.after as).after bs :=
  List.foldl_append

end SourceLocation

/-- `ParseError`. -/
structure ParseError where
  location : SourceLocation
  message : Bytes
  deriving DecidableEq

end Libca.Json
