import Libca.Common.Fallible
import Libca.Json.Value

/-!
# The parser (`json/json_parser.cpp` 37-582)

`JsonParser`, on the bytes that are left of its input. A handler only receives events, so the
parser's calls of its handler are the list of the events of the state. `fail` reports the error and
ends the run: in the source it sets `failed_`, on which every function returns at once.

* `parseValue` recurses on the nesting that is left, `maxDepth + 1` in all; the depth check of
  `parseArray` and `parseObject` fails before the recursion runs out.
* The loops run on the bytes that are left; `Stop.outOfFuel` marks a loop that goes on longer.
-/

namespace Libca.Json

open Common Fallible Str

/-- `JsonParserOptions`. -/
structure JsonParserOptions where
  allowTrailingComma : Bool := false
  allowComments : Bool := false
  maxDepth : Nat := 1000

/-- A call of the handler. -/
inductive Event where
  | onNull (loc : SourceLocation)
  | onBool (v : Bool) (loc : SourceLocation)
  | onInt (v : Int64) (loc : SourceLocation)
  | onFloat (v : F64) (loc : SourceLocation)
  | onString (v : Bytes) (loc : SourceLocation)
  | onArrayStart (loc : SourceLocation)
  | onArrayEnd (loc : SourceLocation)
  | onObjectStart (loc : SourceLocation)
  | onObjectEnd (loc : SourceLocation)
  | onObjectKey (key : Bytes) (loc : SourceLocation)
  | onError (err : ParseError)
  deriving DecidableEq

/-- `JsonParser`: what is left of the input, the location, the depth, and the events so far. -/
structure State where
  rest : Bytes
  loc : SourceLocation
  depth : Nat
  events : List Event

/-- Why a run of the parser ended early. -/
inductive Stop where
  | failed (err : ParseError)
  | outOfFuel

/-- A function of the parser. -/
abbrev Parser := Fallible State Stop

namespace JsonParser

/-! ## The cursor -/

/-- `peek`: the current byte, `0` at the end. -/
def peek : Parser UInt8 := gets fun s => s.rest.headD 0

/-- `peek_next`. -/
def peekNext : Parser UInt8 := gets fun s => s.rest.tail.headD 0

/-- `at_end`. -/
def atEnd : Parser Bool := gets fun s => s.rest.isEmpty

/-- The current location. -/
def location : Parser SourceLocation := gets State.loc

/-- What is left of the input. -/
def remaining : Parser Bytes := gets State.rest

/-- `advance`, `n` times. -/
def advance (n : Nat) : Parser Unit :=
  modify fun s => { s with rest := s.rest.drop n, loc := s.loc.after (s.rest.take n) }

/-- `advance` as long as there is a byte with `p`; the bytes passed. -/
def advanceWhile (p : UInt8 → Bool) : Parser Bytes := do
  let run ← gets fun s => s.rest.takeWhile p
  advance run.length
  return run

/-- A call of the handler. -/
def emit (e : Event) : Parser Unit := modify fun s => { s with events := s.events ++ [e] }

/-- `fail`. -/
def fail {α : Type} (loc : SourceLocation) (message : Bytes) : Parser α := do
  emit (.onError ⟨loc, message⟩)
  Fallible.fail (.failed ⟨loc, message⟩)

/-! ## Whitespace and comments -/

/-- `' '`, `'\t'`, `'\n'` and `'\r'`. -/
def isWs (c : UInt8) : Bool := c == 32 || c == 9 || c == 10 || c == 13

/-- The bytes to the end of a block comment, and whether it ends. -/
def blockComment : Bytes → Nat × Bool
  | [] => (0, false)
  | 42 :: 47 :: _ => (2, true)
  | _ :: rest => ((blockComment rest).1 + 1, (blockComment rest).2)

/-- The loop of `skip_ws_and_comments`. -/
def skipLoop (options : JsonParserOptions) : Nat → Parser Unit
  | 0 => Fallible.fail .outOfFuel
  | fuel + 1 => do
    if ← atEnd then return
    let c ← peek
    if isWs c then
      advance 1
      skipLoop options fuel
    else if options.allowComments && c == 47 then
      let d ← peekNext
      if d = 47 then
        advance 2
        let _ ← advanceWhile (· != 10)
        skipLoop options fuel
      else if d = 42 then
        let start ← location
        advance 2
        let comment ← gets fun s => blockComment s.rest
        advance comment.1
        if comment.2 then skipLoop options fuel
        else fail start (ascii "unterminated block comment")
      else return
    else return

/-- `skip_ws_and_comments`. -/
def skipWsAndComments (options : JsonParserOptions) : Parser Unit := do
  let rest ← remaining
  skipLoop options (rest.length + 1)

/-! ## Literals -/

/-- `parse_literal`. -/
def parseLiteral (text : Bytes) (boolValue : Bool) (kind : Bytes) : Parser Unit := do
  let start ← location
  let rest ← remaining
  if text.isPrefixOf rest then
    advance text.length
    if kind.head? = some 116 ∨ kind.head? = some 102 then emit (.onBool boolValue start)
    else emit (.onNull start)
  else fail start (ascii "invalid literal, expected '" ++ kind ++ ascii "'")

/-! ## Numbers -/

/-- The integer part of `parse_number`. -/
def integerPart (start : SourceLocation) : Parser Unit := do
  let c ← peek
  if c = 48 then
    advance 1
    let d ← peek
    if isDigit d then fail start (ascii "leading zeros not allowed in number")
    else return
  else if 49 ≤ c ∧ c ≤ 57 then
    let _ ← advanceWhile isDigit
    return
  else fail start (ascii "invalid number: digit expected")

/-- The fraction of `parse_number`: whether there is one. -/
def fractionPart (start : SourceLocation) : Parser Bool := do
  let c ← peek
  if c = 46 then
    advance 1
    let d ← peek
    if !isDigit d then fail start (ascii "invalid number: digit expected after decimal point")
    else
      let _ ← advanceWhile isDigit
      return true
  else return false

/-- The sign of an exponent. -/
def exponentSign : Parser Unit := do
  let c ← peek
  if c = 43 ∨ c = 45 then advance 1 else return

/-- The exponent of `parse_number`: whether there is one. -/
def exponentPart (start : SourceLocation) : Parser Bool := do
  let c ← peek
  if c = 101 ∨ c = 69 then
    advance 1
    exponentSign
    let d ← peek
    if !isDigit d then fail start (ascii "invalid number: digit expected in exponent")
    else
      let _ ← advanceWhile isDigit
      return true
  else return false

/-- The sign of a number. -/
def minusSign : Parser Unit := do
  let c ← peek
  if c = 45 then advance 1 else return

/-- The conversion of a number to a double, by `std::from_chars`: the event, or the message of the
error. -/
def doubleEvent (std : DoubleChars) (text : Bytes) (start : SourceLocation) : Except Bytes Event :=
  match std.fromChars text with
  | .error .resultOutOfRange => .error (ascii "number out of range")
  | .error _ => .error (ascii "invalid number")
  | .ok (v, consumed) =>
    if consumed = text.length then .ok (.onFloat v start) else .error (ascii "invalid number")

/-- The conversion at the end of `parse_number`: an integer out of range becomes a double. -/
def numberEvent (std : DoubleChars) (isFloat : Bool) (text : Bytes) (start : SourceLocation) :
    Except Bytes Event :=
  if isFloat then doubleEvent std text start
  else
    match fromCharsI64 text with
    | .ok v => .ok (.onInt v start)
    | .error .resultOutOfRange => doubleEvent std text start
    | .error _ => .error (ascii "invalid number")

/-- `parse_number`. -/
def parseNumber (std : DoubleChars) : Parser Unit := do
  let start ← location
  let before ← remaining
  minusSign
  integerPart start
  let isFraction ← fractionPart start
  let isExponent ← exponentPart start
  let behind ← remaining
  match numberEvent std (isFraction || isExponent)
      (before.take (before.length - behind.length)) start with
  | .ok event => emit event
  | .error message => fail start message

/-! ## Strings -/

/-- The value of a hexadecimal digit of `parse_hex4`. -/
def hexDigit (c : UInt8) : Option Nat :=
  if 48 ≤ c ∧ c ≤ 57 then some (c.toNat - 48)
  else if 97 ≤ c ∧ c ≤ 102 then some (c.toNat - 97 + 10)
  else if 65 ≤ c ∧ c ≤ 70 then some (c.toNat - 65 + 10)
  else none

/-- `parse_hex4`, on the bytes from `p` on. -/
def parseHex4 (p : Bytes) : Option Nat :=
  (p.take 4).foldlM (fun v c => (hexDigit c).map fun d => v <<< 4 ||| d) 0

/-- The four hexadecimal digits of an escape. -/
def hex4 (start : SourceLocation) (incomplete invalid : Bytes) : Parser Nat := do
  let rest ← remaining
  if rest.length < 4 then fail start incomplete
  else
    match parseHex4 rest with
    | none => fail start invalid
    | some cp => do
      advance 4
      return cp

/-- `sb.append_code_point(cp)`: the bytes appended. -/
def appendCodePoint (start : SourceLocation) (cp : Nat) (message : Bytes) : Parser Bytes :=
  match encodeCodePoint cp with
  | some bytes => pure bytes
  | none => fail start message

/-- The low surrogate that follows the high surrogate `cp`. -/
def lowSurrogate (start : SourceLocation) (cp : Nat) : Parser Bytes := do
  let c ← peek
  let d ← peekNext
  if c = 92 ∧ d = 117 then
    advance 2
    let low ← hex4 start (ascii "incomplete low surrogate \\u escape")
      (ascii "invalid low surrogate \\u escape")
    if 0xDC00 ≤ low ∧ low ≤ 0xDFFF then
      appendCodePoint start (0x10000 + (cp - 0xD800) <<< 10 + (low - 0xDC00))
        (ascii "invalid code point from surrogate pair")
    else fail start (ascii "expected low surrogate after high surrogate")
  else fail start (ascii "dangling high surrogate")

/-- The escape of a code point. -/
def unicodeEscape (start : SourceLocation) : Parser Bytes := do
  let cp ← hex4 start (ascii "incomplete \\u escape") (ascii "invalid \\u escape")
  if 0xD800 ≤ cp ∧ cp ≤ 0xDBFF then lowSurrogate start cp
  else if 0xDC00 ≤ cp ∧ cp ≤ 0xDFFF then
    fail start (ascii "unexpected low surrogate without high surrogate")
  else appendCodePoint start cp (ascii "invalid code point")

/-- The byte that a short escape stands for. -/
def shortEscape (esc : UInt8) : Option UInt8 :=
  if esc = 34 then some 34
  else if esc = 92 then some 92
  else if esc = 47 then some 47
  else if esc = 98 then some 8
  else if esc = 102 then some 12
  else if esc = 110 then some 10
  else if esc = 114 then some 13
  else if esc = 116 then some 9
  else none

/-- The escapes of `parse_string_into`: the bytes appended. -/
def escape (start : SourceLocation) (esc : UInt8) : Parser Bytes :=
  match shortEscape esc with
  | some c => pure [c]
  | none =>
    if esc = 117 then unicodeEscape start else fail start (ascii "invalid escape character")

/-- A byte that a string holds as it is: no `'"'`, no `'\\'`, no control character. -/
def isPlain (c : UInt8) : Bool := c != 34 && c != 92 && 32 ≤ c

/-- The slow path of `parse_string_into`, with what the builder holds. -/
def stringLoop (start : SourceLocation) : Nat → Bytes → Parser Bytes
  | 0, _ => Fallible.fail .outOfFuel
  | fuel + 1, sb => do
    if ← atEnd then fail start (ascii "unterminated string")
    else
      let c ← peek
      if c = 34 then
        advance 1
        return sb
      else if c = 92 then
        advance 1
        if ← atEnd then fail start (ascii "unterminated escape")
        else
          let esc ← peek
          advance 1
          let bytes ← escape start esc
          stringLoop start fuel (sb ++ bytes)
      else if c < 32 then fail start (ascii "unescaped control character in string")
      else
        let run ← advanceWhile isPlain
        stringLoop start fuel (sb ++ run)

/-- `parse_string_into`: the interned string. -/
def parseStringInto : Parser Bytes := do
  let start ← location
  advance 1
  -- fast path: a string without escapes is interned from the input
  let run ← advanceWhile isPlain
  if ← atEnd then fail start (ascii "unterminated string")
  else
    let c ← peek
    if c = 34 then
      advance 1
      return intern run
    else if c = 92 then
      let rest ← remaining
      let sb ← stringLoop start (rest.length + 1) run
      return intern (buildOrEmpty sb)
    else fail start (ascii "unescaped control character in string")

/-- `parse_string_value`. -/
def parseStringValue : Parser Unit := do
  let start ← location
  let value ← parseStringInto
  emit (.onString value start)

/-! ## Arrays and objects -/

/-- `++depth_` and the check of it. -/
def enter (options : JsonParserOptions) (start : SourceLocation) : Parser Unit := do
  modify fun s => { s with depth := s.depth + 1 }
  let depth ← gets State.depth
  if options.maxDepth < depth then fail start (ascii "nesting too deep")
  else return

/-- `--depth_`. -/
def leave : Parser Unit := modify fun s => { s with depth := s.depth - 1 }

/-- What follows a `,` when the closing bracket comes at once. -/
def trailingComma (options : JsonParserOptions) (close : SourceLocation → Event)
    (message : Bytes) : Parser Unit := do
  if options.allowTrailingComma then
    advance 1
    let loc ← location
    emit (close loc)
  else
    let loc ← location
    fail loc message

/-- The loop of `parse_array`; `value` is `parse_value`. -/
def arrayLoop (options : JsonParserOptions) (value : Parser Unit) : Nat → Parser Unit
  | 0 => Fallible.fail .outOfFuel
  | fuel + 1 => do
    value
    skipWsAndComments options
    let c ← peek
    if c = 44 then
      advance 1
      skipWsAndComments options
      let d ← peek
      if d = 93 then
        trailingComma options .onArrayEnd (ascii "trailing comma in array (not allowed)")
      else arrayLoop options value fuel
    else if c = 93 then
      advance 1
      let loc ← location
      emit (.onArrayEnd loc)
    else
      let loc ← location
      fail loc (ascii "expected ',' or ']' in array")

/-- `parse_array`. -/
def parseArray (options : JsonParserOptions) (value : Parser Unit) : Parser Unit := do
  let start ← location
  advance 1
  enter options start
  emit (.onArrayStart start)
  skipWsAndComments options
  let c ← peek
  if c = 93 then
    advance 1
    let loc ← location
    emit (.onArrayEnd loc)
    leave
  else
    let rest ← remaining
    arrayLoop options value (rest.length + 1)
    leave

/-- The key of a member and the `:` after it. -/
def memberKey (options : JsonParserOptions) : Parser Unit := do
  let c ← peek
  if c = 34 then
    let keyLoc ← location
    let key ← parseStringInto
    emit (.onObjectKey key keyLoc)
    skipWsAndComments options
    let d ← peek
    if d = 58 then advance 1
    else
      let loc ← location
      fail loc (ascii "expected ':' after object key")
  else
    let loc ← location
    fail loc (ascii "object key must be a string")

/-- The loop of `parse_object`. -/
def objectLoop (options : JsonParserOptions) (value : Parser Unit) : Nat → Parser Unit
  | 0 => Fallible.fail .outOfFuel
  | fuel + 1 => do
    skipWsAndComments options
    memberKey options
    value
    skipWsAndComments options
    let c ← peek
    if c = 44 then
      advance 1
      skipWsAndComments options
      let d ← peek
      if d = 125 then
        trailingComma options .onObjectEnd (ascii "trailing comma in object (not allowed)")
      else objectLoop options value fuel
    else if c = 125 then
      advance 1
      let loc ← location
      emit (.onObjectEnd loc)
    else
      let loc ← location
      fail loc (ascii "expected ',' or '\x7d' in object")

/-- `parse_object`. -/
def parseObject (options : JsonParserOptions) (value : Parser Unit) : Parser Unit := do
  let start ← location
  advance 1
  enter options start
  emit (.onObjectStart start)
  skipWsAndComments options
  let c ← peek
  if c = 125 then
    advance 1
    let loc ← location
    emit (.onObjectEnd loc)
    leave
  else
    let rest ← remaining
    objectLoop options value (rest.length + 1)
    leave

/-! ## Values and texts -/

/-- The `switch` of `parse_value`; `value` is `parse_value` one level deeper. -/
def dispatch (std : DoubleChars) (options : JsonParserOptions) (value : Parser Unit) (c : UInt8) :
    Parser Unit :=
  if c = 123 then parseObject options value
  else if c = 91 then parseArray options value
  else if c = 34 then parseStringValue
  else if c = 116 then parseLiteral (ascii "true") true (ascii "true")
  else if c = 102 then parseLiteral (ascii "false") false (ascii "false")
  else if c = 110 then parseLiteral (ascii "null") false (ascii "null")
  else if c = 45 ∨ isDigit c then parseNumber std
  else do
    let loc ← location
    fail loc (ascii "unexpected character")

/-- `parse_value`, for the nesting that is left. -/
def parseValue (std : DoubleChars) (options : JsonParserOptions) : Nat → Parser Unit
  | 0 => Fallible.fail .outOfFuel
  | nesting + 1 => do
    skipWsAndComments options
    if ← atEnd then
      let loc ← location
      fail loc (ascii "unexpected end of input")
    else
      let c ← peek
      dispatch std options (parseValue std options nesting) c

/-- `parse`, on the whole input. -/
def parseText (std : DoubleChars) (options : JsonParserOptions) (data : Bytes) : Parser Unit := do
  if !isValid data then fail .start (ascii "invalid UTF-8 in JSON text")
  else
    skipWsAndComments options
    if ← atEnd then
      let loc ← location
      fail loc (ascii "empty input")
    else if data.take 3 = [0xEF, 0xBB, 0xBF] then fail .start (ascii "unexpected BOM")
    else
      parseValue std options (options.maxDepth + 1)
      skipWsAndComments options
      if ← atEnd then return
      else
        let loc ← location
        fail loc (ascii "trailing characters after JSON value")

/-- The state of a parser constructed on `data`. -/
def init (data : Bytes) : State := ⟨data, .start, 0, []⟩

/-- What `parse` does on `data`: how it ends, and the state it leaves. -/
def run (std : DoubleChars) (options : JsonParserOptions) (data : Bytes) :
    Except Stop Unit × State :=
  parseText std options data (init data)

/-- What `parse` returns. -/
def parse (std : DoubleChars) (options : JsonParserOptions) (data : Bytes) : Bool :=
  match (run std options data).1 with
  | .ok _ => true
  | .error _ => false

/-- The calls of the handler that `parse` makes. -/
def events (std : DoubleChars) (options : JsonParserOptions) (data : Bytes) : List Event :=
  (run std options data).2.events

end JsonParser

end Libca.Json
