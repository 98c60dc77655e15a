import Libca.Json.Parser

/-!
# The grammar of JSON texts

The derivations of RFC 8259, as trees. A tree has the bytes it derives (`text`), and what it means:
the nesting (`depth`), the numbers `std::from_chars` makes of its literals (`Accepted`), and the
events a handler is to receive (`events`), each with its location. Nothing here mentions how a
parser proceeds.

Invalid parts cannot be built: whitespace, digits and hexadecimal digits carry proofs, an integer
part has no leading zero, an unescaped character is none that must be escaped, and surrogates come
in pairs. Whitespace around the structural characters stands where the rules `begin-array`,
`value-separator`, `name-separator` and `end-array` put it, inside the brackets.
-/

namespace Libca.Json

open Common Str

/-! ## Tokens -/

/-- `ws = *( %x20 / %x09 / %x0A / %x0D )` -/
structure Ws where
  bytes : Bytes
  space : ∀ b ∈ bytes, b = 0x20 ∨ b = 0x09 ∨ b = 0x0A ∨ b = 0x0D

/-- `1*DIGIT` -/
structure Digits where
  bytes : Bytes
  ne_nil : bytes ≠ []
  digit : ∀ b ∈ bytes, isDigit b = true

/-- `e [ minus / plus ] 1*DIGIT` -/
structure Exponent where
  upper : Bool
  sign : Option Bool
  digits : Digits

/-- `[ minus ] int [ frac ] [ exp ]` -/
structure Number where
  minus : Bool
  int : Digits
  /-- `int = zero / ( digit1-9 *DIGIT )` -/
  lead : int.bytes.head? = some 48 → int.bytes = [48]
  frac : Option Digits
  exp : Option Exponent

namespace Exponent

/-- The sign, if there is one. -/
def signText : Option Bool → Bytes
  | none => []
  | some minus => [if minus then 45 else 43]

/-- The bytes of an exponent. -/
def text (e : Exponent) : Bytes :=
  (if e.upper then 69 else 101) :: (signText e.sign ++ e.digits.bytes)

end Exponent

namespace Number

/-- The sign, if there is one. -/
def minusText (minus : Bool) : Bytes := if minus then [45] else []

/-- The fraction, if there is one. -/
def fracText : Option Digits → Bytes
  | none => []
  | some d => 46 :: d.bytes

/-- The exponent, if there is one. -/
def expText : Option Exponent → Bytes
  | none => []
  | some e => e.text

/-- The bytes of a number. -/
def text (n : Number) : Bytes :=
  minusText n.minus ++ (n.int.bytes ++ (fracText n.frac ++ expText n.exp))

/-- Neither a fraction nor an exponent. -/
def isInteger (n : Number) : Bool := n.frac.isNone && n.exp.isNone

/-- The value of the integer part. -/
def intValue (n : Number) : Int :=
  if n.minus then -(ofChars 10 n.int.bytes) else ofChars 10 n.int.bytes

end Number

/-- What a number literal stands for. -/
inductive NumberValue where
  | int (v : Int64)
  | float (v : F64)

namespace NumberValue

/-- The event of a number. -/
def event (loc : SourceLocation) : NumberValue → Event
  | int v => .onInt v loc
  | float v => .onFloat v loc

end NumberValue

/-- The number a literal stands for: an integer in the range of `i64`, or else the double that
`std::from_chars` makes of the whole literal. -/
def Number.value (std : DoubleChars) (n : Number) : Option NumberValue :=
  if n.isInteger ∧ -2 ^ 63 ≤ n.intValue ∧ n.intValue < 2 ^ 63 then
    some (.int (Int64.ofInt n.intValue))
  else
    match std.fromChars n.text with
    | .error _ => none
    | .ok (d, consumed) => if consumed = n.text.length then some (.float d) else none

/-! ## Strings -/

/-- `%x22 / %x5C / %x2F / %x62 / %x66 / %x6E / %x72 / %x74` after the backslash. -/
inductive ShortEscape where
  | quote
  | backslash
  | slash
  | b
  | f
  | n
  | r
  | t
  deriving DecidableEq

namespace ShortEscape

/-- The byte after the backslash. -/
def letter : ShortEscape → UInt8
  | quote => 0x22
  | backslash => 0x5C
  | slash => 0x2F
  | b => 0x62
  | f => 0x66
  | n => 0x6E
  | r => 0x72
  | t => 0x74

/-- The character it stands for. -/
def char : ShortEscape → Char
  | quote => '"'
  | backslash => '\\'
  | slash => '/'
  | b => '\x08'
  | f => '\x0C'
  | n => '\n'
  | r => '\r'
  | t => '\t'

end ShortEscape

/-- `HEXDIG`, of both cases. -/
def IsHexDigit (b : UInt8) : Prop := (48 ≤ b ∧ b ≤ 57) ∨ (65 ≤ b ∧ b ≤ 70) ∨ (97 ≤ b ∧ b ≤ 102)

instance (b : UInt8) : Decidable (IsHexDigit b) := inferInstanceAs (Decidable (_ ∨ _))

/-- `4HEXDIG` -/
structure HexQuad where
  bytes : Bytes
  length_eq : bytes.length = 4
  hex : ∀ b ∈ bytes, IsHexDigit b

/-- The number of four hexadecimal digits. -/
def HexQuad.value (q : HexQuad) : Nat := ofChars 16 q.bytes

/-- One character of a string: unescaped, a short escape, a code point outside the surrogates, or
a pair of surrogates. -/
inductive Item where
  | plain (c : Char) (h : 0x20 ≤ c.toNat ∧ c ≠ '"' ∧ c ≠ '\\')
  | short (e : ShortEscape)
  | unicode (q : HexQuad) (h : ¬ (0xD800 ≤ q.value ∧ q.value ≤ 0xDFFF))
  | pair (high low : HexQuad) (hhigh : 0xD800 ≤ high.value ∧ high.value ≤ 0xDBFF)
      (hlow : 0xDC00 ≤ low.value ∧ low.value ≤ 0xDFFF)

namespace Item

/-- The bytes of a character. -/
def text : Item → Bytes
  | plain c _ => String.utf8EncodeChar c
  | short e => [92, e.letter]
  | unicode q _ => [92, 117] ++ q.bytes
  | pair high low _ _ => [92, 117] ++ (high.bytes ++ ([92, 117] ++ low.bytes))

/-- The character it stands for. -/
def char : Item → Char
  | plain c _ => c
  | short e => e.char
  | unicode q _ => Char.ofNat q.value
  | pair high low _ _ =>
    Char.ofNat (0x10000 + (high.value - 0xD800) * 0x400 + (low.value - 0xDC00))

end Item

/-- `quotation-mark *char quotation-mark` -/
structure StringLit where
  items : List Item

namespace StringLit

/-- The bytes between the quotation marks. -/
def body (s : StringLit) : Bytes := s.items.flatMap Item.text

/-- The bytes of a string. -/
def text (s : StringLit) : Bytes := 34 :: (s.body ++ [34])

/-- The string it stands for. -/
def value (s : StringLit) : Bytes := encode (s.items.map Item.char)

end StringLit

/-! ## Values -/

mutual

/-- `value = false / null / true / object / array / number / string` -/
inductive Value where
  | null
  | bool (v : Bool)
  | number (n : Number)
  | string (s : StringLit)
  | emptyArray (w : Ws)
  | array (before : Ws) (elements : Elements)
  | emptyObject (w : Ws)
  | object (before : Ws) (members : Members)

/-- `value *( value-separator value )`, with the whitespace after it. -/
inductive Elements where
  | one (v : Value) (after : Ws)
  | cons (v : Value) (after before : Ws) (rest : Elements)

/-- `member *( value-separator member )`, with the whitespace after it. -/
inductive Members where
  | one (key : StringLit) (w₁ w₂ : Ws) (v : Value) (after : Ws)
  | cons (key : StringLit) (w₁ w₂ : Ws) (v : Value) (after before : Ws) (rest : Members)

end

mutual

/-- The bytes of a value. -/
def Value.text : Value → Bytes
  | .null => ascii "null"
  | .bool v => if v then ascii "true" else ascii "false"
  | .number n => n.text
  | .string s => s.text
  | .emptyArray w => 91 :: (w.bytes ++ [93])
  | .array before elements => 91 :: (before.bytes ++ (elements.text ++ [93]))
  | .emptyObject w => 123 :: (w.bytes ++ [125])
  | .object before members => 123 :: (before.bytes ++ (members.text ++ [125]))

/-- The bytes of the elements of an array. -/
def Elements.text : Elements → Bytes
  | .one v after => v.text ++ after.bytes
  | .cons v after before rest => v.text ++ (after.bytes ++ 44 :: (before.bytes ++ rest.text))

/-- The bytes of the members of an object. -/
def Members.text : Members → Bytes
  | .one key w₁ w₂ v after => key.text ++ (w₁.bytes ++ 58 :: (w₂.bytes ++ (v.text ++ after.bytes)))
  | .cons key w₁ w₂ v after before rest =>
    key.text ++ (w₁.bytes ++ 58 :: (w₂.bytes ++ (v.text ++ (after.bytes ++
      44 :: (before.bytes ++ rest.text)))))

end

mutual

/-- How deep arrays and objects are nested. -/
def Value.depth : Value → Nat
  | .null => 0
  | .bool _ => 0
  | .number _ => 0
  | .string _ => 0
  | .emptyArray _ => 1
  | .array _ elements => elements.depth + 1
  | .emptyObject _ => 1
  | .object _ members => members.depth + 1

/-- The nesting inside the elements of an array. -/
def Elements.depth : Elements → Nat
  | .one v _ => v.depth
  | .cons v _ _ rest => max v.depth rest.depth

/-- The nesting inside the members of an object. -/
def Members.depth : Members → Nat
  | .one _ _ _ v _ => v.depth
  | .cons _ _ _ v _ _ rest => max v.depth rest.depth

end

mutual

/-- `std::from_chars` accepts every number literal, for `i64` or for `double`. -/
def Value.Accepted (std : DoubleChars) : Value → Prop
  | .null => True
  | .bool _ => True
  | .number n => (n.value std).isSome = true
  | .string _ => True
  | .emptyArray _ => True
  | .array _ elements => elements.Accepted std
  | .emptyObject _ => True
  | .object _ members => members.Accepted std

/-- The same of every element. -/
def Elements.Accepted (std : DoubleChars) : Elements → Prop
  | .one v _ => v.Accepted std
  | .cons v _ _ rest => v.Accepted std ∧ rest.Accepted std

/-- The same of every member. -/
def Members.Accepted (std : DoubleChars) : Members → Prop
  | .one _ _ _ v _ => v.Accepted std
  | .cons _ _ _ v _ _ rest => v.Accepted std ∧ rest.Accepted std

end

mutual

/-- The events of a value whose first byte is at `loc`. -/
def Value.events (std : DoubleChars) (loc : SourceLocation) : Value → List Event
  | .null => [.onNull loc]
  | .bool v => [.onBool v loc]
  | .number n => (n.value std).toList.map (NumberValue.event loc)
  | .string s => [.onString s.value loc]
  | .emptyArray w => [.onArrayStart loc, .onArrayEnd (loc.after (91 :: (w.bytes ++ [93])))]
  | .array before elements =>
    .onArrayStart loc :: (elements.events std (loc.after (91 :: before.bytes)) ++
      [.onArrayEnd (loc.after (91 :: (before.bytes ++ (elements.text ++ [93]))))])
  | .emptyObject w => [.onObjectStart loc, .onObjectEnd (loc.after (123 :: (w.bytes ++ [125])))]
  | .object before members =>
    .onObjectStart loc :: (members.events std (loc.after (123 :: before.bytes)) ++
      [.onObjectEnd (loc.after (123 :: (before.bytes ++ (members.text ++ [125]))))])

/-- The events of the elements of an array. -/
def Elements.events (std : DoubleChars) (loc : SourceLocation) : Elements → List Event
  | .one v _ => v.events std loc
  | .cons v after before rest =>
    v.events std loc ++ rest.events std (loc.after (v.text ++ (after.bytes ++ 44 :: before.bytes)))

/-- The events of the members of an object. -/
def Members.events (std : DoubleChars) (loc : SourceLocation) : Members → List Event
  | .one key w₁ w₂ v _ =>
    .onObjectKey key.value loc ::
      v.events std (loc.after (key.text ++ (w₁.bytes ++ 58 :: w₂.bytes)))
  | .cons key w₁ w₂ v after before rest =>
    .onObjectKey key.value loc ::
      (v.events std (loc.after (key.text ++ (w₁.bytes ++ 58 :: w₂.bytes))) ++
        rest.events std (loc.after (key.text ++ (w₁.bytes ++ 58 :: (w₂.bytes ++ (v.text ++
          (after.bytes ++ 44 :: before.bytes)))))))

end

mutual

/-- The tree that a value stands for. -/
def Value.tree (std : DoubleChars) : Value → JsonValue
  | .null => .null
  | .bool v => .bool v
  | .number n =>
    match n.value std with
    | some (.int v) => .int v
    | some (.float v) => .float v
    | none => .null
  | .string s => .string s.value
  | .emptyArray _ => .array []
  | .array _ elements => .array (elements.trees std)
  | .emptyObject _ => .object []
  | .object _ members => .object (members.trees std)

/-- The items that the elements of an array stand for. -/
def Elements.trees (std : DoubleChars) : Elements → List JsonValue
  | .one v _ => [v.tree std]
  | .cons v _ _ rest => v.tree std :: rest.trees std

/-- The members that the members of an object stand for. -/
def Members.trees (std : DoubleChars) : Members → List (Bytes × JsonValue)
  | .one key _ _ v _ => [(key.value, v.tree std)]
  | .cons key _ _ v _ _ rest => (key.value, v.tree std) :: rest.trees std

end

/-- `JSON-text = ws value ws` -/
structure JsonText where
  before : Ws
  value : Value
  after : Ws

namespace JsonText

/-- The bytes of a JSON text. -/
def text (d : JsonText) : Bytes := d.before.bytes ++ (d.value.text ++ d.after.bytes)

/-- The events of a JSON text. -/
def events (std : DoubleChars) (d : JsonText) : List Event :=
  d.value.events std (SourceLocation.start.after d.before.bytes)

end JsonText

/-! ## Facts about derivations -/

theorem Ws.isWs (w : Ws) : ∀ b ∈ w.bytes, JsonParser.isWs b = true := by
  intro b hb
  unfold JsonParser.isWs
  rcases w.space b hb with rfl | rfl | rfl | rfl <;> rfl

end Libca.Json
