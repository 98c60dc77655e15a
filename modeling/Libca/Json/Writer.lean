import Libca.Json.Value

/-!
# The writer (`json/json_writer.cpp` 27-247)

`JsonWriter`: the bytes that its buffer receives. `writeValue` and its loops take the depth that
`push_depth` and `pop_depth` count.
-/

namespace Libca.Json

open Common Str

/-- `JsonWriterOptions`. -/
structure JsonWriterOptions where
  pretty : Bool := false
  indent : Nat := 2
  ensureAscii : Bool := false

namespace JsonWriter

/-- `snprintf` with `"\\u%04x"`. -/
def unicodeText (n : Nat) : Bytes :=
  [92, 117] ++ (List.replicate (4 - (toChars 16 n).length) 48 ++ toChars 16 n)

/-- The first byte of a sequence in `write_escaped_utf8`: its part of the code point, and how many
bytes follow. -/
def leadByte (c : UInt8) : Option (Nat × Nat) :=
  if c &&& 0x80 = 0 then some (c.toNat, 0)
  else if c &&& 0xE0 = 0xC0 then some (c.toNat &&& 0x1F, 1)
  else if c &&& 0xF0 = 0xE0 then some (c.toNat &&& 0x0F, 2)
  else if c &&& 0xF8 = 0xF0 then some (c.toNat &&& 0x07, 3)
  else none

/-- The continuation bytes of a sequence, shifted into the code point. -/
def continuation : Nat → Bytes → Option Nat
  | cp, [] => some cp
  | cp, cc :: rest =>
    if cc &&& 0xC0 != 0x80 then none else continuation (cp <<< 6 ||| (cc.toNat &&& 0x3F)) rest

/-- The escape of a code point: one escape, or a pair of surrogates. -/
def codePointText (cp : Nat) : Bytes :=
  if cp ≤ 0xFFFF then unicodeText cp
  else
    let v := cp - 0x10000
    unicodeText (0xD800 + v >>> 10) ++ unicodeText (0xDC00 + (v &&& 0x3FF))

/-- `write_escaped_utf8` on `c :: rest`: the bytes written, and by how much it advances `i`. -/
def writeEscapedUtf8 (c : UInt8) (rest : Bytes) : Bytes × Nat :=
  match leadByte c with
  | none => (unicodeText c.toNat, 0)
  | some (cp, extra) =>
    if rest.length + 1 ≤ extra then (unicodeText c.toNat, 0)
    else
      match continuation cp (rest.take extra) with
      | none => (unicodeText c.toNat, 0)
      | some cp => (codePointText cp, extra)

/-- The loop of `write_string`, which skips the bytes that an escape has taken. -/
def stringText (options : JsonWriterOptions) : Nat → Bytes → Bytes
  | _, [] => []
  | skip + 1, _ :: rest => stringText options skip rest
  | 0, c :: rest =>
    if c = 34 then ascii "\\\"" ++ stringText options 0 rest
    else if c = 92 then ascii "\\\\" ++ stringText options 0 rest
    else if c = 8 then ascii "\\b" ++ stringText options 0 rest
    else if c = 12 then ascii "\\f" ++ stringText options 0 rest
    else if c = 10 then ascii "\\n" ++ stringText options 0 rest
    else if c = 13 then ascii "\\r" ++ stringText options 0 rest
    else if c = 9 then ascii "\\t" ++ stringText options 0 rest
    else if c < 0x20 then unicodeText c.toNat ++ stringText options 0 rest
    else if options.ensureAscii && 0x80 ≤ c then
      (writeEscapedUtf8 c rest).1 ++ stringText options (writeEscapedUtf8 c rest).2 rest
    else c :: stringText options 0 rest

/-- `write_string`. -/
def writeString (options : JsonWriterOptions) (s : Bytes) : Bytes :=
  ascii "\"" ++ stringText options 0 s ++ ascii "\""

/-- `write_int`: `snprintf` with `"%lld"`. -/
def writeInt (v : Int64) : Bytes :=
  if v.toInt < 0 then 45 :: toChars 10 v.toInt.natAbs else toChars 10 v.toInt.natAbs

/-- `write_float`. -/
def writeFloat (std : DoubleChars) (v : F64) : Bytes :=
  if v.isNan || v.isInf then ascii "null"
  else
    match std.toChars v with
    | .error _ => ascii "0.0"
    | .ok buf =>
      let hasDotOrExp := buf.any fun c => c == 46 || c == 101 || c == 69
      if !hasDotOrExp && buf.length + 2 < 64 then buf ++ ascii ".0" else buf

/-- `newline_and_indent`. -/
def newlineAndIndent (options : JsonWriterOptions) (depth : Nat) : Bytes :=
  if options.pretty then 10 :: List.replicate (depth * options.indent) 32 else []

/-- `space`. -/
def space (options : JsonWriterOptions) : Bytes := if options.pretty then [32] else []

mutual

/-- `write_value`, with `write_array` and `write_object`. -/
def writeValue (std : DoubleChars) (options : JsonWriterOptions) (depth : Nat) : JsonValue → Bytes
  | .null => ascii "null"
  | .bool v => if v then ascii "true" else ascii "false"
  | .int v => writeInt v
  | .float v => writeFloat std v
  | .string v => writeString options v
  | .array [] => ascii "[]"
  | .array (v :: items) =>
    ascii "[" ++ (newlineAndIndent options (depth + 1) ++ writeValue std options (depth + 1) v) ++
      writeItems std options (depth + 1) items ++ newlineAndIndent options depth ++ ascii "]"
  | .object [] => ascii "\x7b\x7d"
  | .object ((key, v) :: members) =>
    ascii "\x7b" ++ (newlineAndIndent options (depth + 1) ++ writeString options key ++ ascii ":" ++
      space options ++ writeValue std options (depth + 1) v) ++
      writeMembers std options (depth + 1) members ++ newlineAndIndent options depth ++ ascii "\x7d"

/-- The items of an array after the first. -/
def writeItems (std : DoubleChars) (options : JsonWriterOptions) (depth : Nat) :
    List JsonValue → Bytes
  | [] => []
  | v :: items =>
    ascii "," ++ newlineAndIndent options depth ++ writeValue std options depth v ++
      writeItems std options depth items

/-- The members of an object after the first. -/
def writeMembers (std : DoubleChars) (options : JsonWriterOptions) (depth : Nat) :
    List (Bytes × JsonValue) → Bytes
  | [] => []
  | (key, v) :: members =>
    ascii "," ++ newlineAndIndent options depth ++ writeString options key ++ ascii ":" ++
      space options ++ writeValue std options depth v ++ writeMembers std options depth members

end

/-- `JsonWriter::write`, on the root of a document. -/
def write (std : DoubleChars) (options : JsonWriterOptions) (root : JsonValue) : Bytes :=
  buildOrEmpty (writeValue std options 0 root)

end JsonWriter

end Libca.Json
