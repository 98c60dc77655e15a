import Libca.Common.SortedMap
import Libca.Str.Utf8

/-!
# The INI document (`ini/ini_document.cpp`, `ini/ini_writer.cpp`)

`IniDocument`: the lines of a file with their text, and the two indexes over them. Strings are the
bytes that the references of the source refer to; the arena that owns them is not modelled.

* `IniLine`, `LineRecord`, `IniDocument`: the data of the source.
* `rebuildIndex`, `get`, `set`: the operations, with the helpers of the source.
* `IniWriter.write`: the lines one after the other.

`Utf8String`'s constructor throws when its bytes are not UTF-8; the computations that build one end
in `Except Failure`.
-/

namespace Libca.Ini

open Common

/-- `SourceLocation`. -/
structure SourceLocation where
  line : Nat := 1
  column : Nat := 1
  deriving DecidableEq

/-- `ParseError`. -/
structure ParseError where
  location : SourceLocation
  message : Bytes
  deriving DecidableEq

/-- How a call ends without a value: an error that is returned, or the exception of `Utf8String`. -/
inductive Failure where
  | parse (error : ParseError)
  | thrown
  deriving DecidableEq

/-- `Utf8String(data, size)`. -/
def utf8String (s : Bytes) : Except Failure Bytes := if Str.isValid s then .ok s else .error .thrown

/-- `Utf8String::from_cstr`: the text ends at a NUL, and is empty if it is not UTF-8. -/
def fromCstr (s : Bytes) : Bytes :=
  let text := s.takeWhile (· ≠ 0)
  if Str.isValid text then text else []

/-- `intern_std`. -/
def internStd (s : Bytes) : Except Failure Bytes := do
  let s ← utf8String s
  return Str.intern s

theorem utf8String_ok {s : Bytes} (h : Str.IsUtf8 s) : utf8String s = .ok s :=
  if_pos (Str.isValid_iff.mpr h)

theorem internStd_ok {s : Bytes} (h : Str.IsUtf8 s) : internStd s = .ok s := by
  unfold internStd
  rw [utf8String_ok h]
  exact congrArg Except.ok (Str.intern_of_isUtf8 h)

/-! ## Lines -/

/-- `IniLineKind`. -/
inductive IniLineKind where
  | blank
  | comment
  | sectionHeader
  | keyValue
  deriving DecidableEq

/-- `IniLine`. -/
structure IniLine where
  kind : IniLineKind := .blank
  sectionName : Bytes := []
  key : Bytes := []
  value : Bytes := []
  deriving DecidableEq

/-- `LineRecord`: the text of a line and, for a key, the pieces around the key and the value. -/
structure LineRecord where
  line : IniLine := {}
  raw : Bytes := []
  lineEnding : Bytes := []
  keyPrefix : Bytes := []
  keySuffix : Bytes := []
  separator : Bytes := []
  valuePrefix : Bytes := []
  commentSuffix : Bytes := []
  valueQuoted : Bool := false
  valueQuoteChar : UInt8 := 34
  deriving DecidableEq

/-- `IniDocument`. -/
structure IniDocument where
  records : List LineRecord := []
  publicLines : List IniLine := []
  sectionIndex : SortedMap Bytes Nat := .empty
  keyIndex : SortedMap Bytes (SortedMap Bytes Nat) := .empty
  defaultLineEnding : Bytes := [10]

namespace IniDocument

/-! ## The indexes -/

/-- `add_record`. -/
def addRecord (d : IniDocument) (record : LineRecord) : IniDocument :=
  { d with
    records := d.records ++ [record]
    defaultLineEnding :=
      if d.defaultLineEnding = [10] ∧ record.lineEnding ≠ [] then record.lineEnding
      else d.defaultLineEnding }

/-- `key_index_[section][key] = i`. -/
def assignKey (index : SortedMap Bytes (SortedMap Bytes Nat)) (sectionName key : Bytes) (i : Nat) :
    SortedMap Bytes (SortedMap Bytes Nat) :=
  index.insertOrAssign sectionName (((index.find sectionName).getD .empty).insertOrAssign key i)

/-- A turn of the loop of `rebuild_index`. -/
def indexLine (d : IniDocument) (i : Nat) (line : IniLine) : IniDocument :=
  let d := { d with publicLines := d.publicLines ++ [line] }
  match line.kind with
  | .sectionHeader => { d with sectionIndex := d.sectionIndex.insertOrAssign line.sectionName i }
  | .keyValue => { d with keyIndex := assignKey d.keyIndex line.sectionName line.key i }
  | _ => d

/-- The loop of `rebuild_index`. -/
def indexLines (d : IniDocument) (i : Nat) : List LineRecord → IniDocument
  | [] => d
  | r :: rs => indexLines (indexLine d i r.line) (i + 1) rs

/-- `rebuild_index`. -/
def rebuildIndex (d : IniDocument) : IniDocument :=
  indexLines { d with publicLines := [], sectionIndex := .empty, keyIndex := .empty } 0 d.records

/-- The line under a section and a key. -/
def findKey (d : IniDocument) (sectionName key : Bytes) : Option Nat :=
  (d.keyIndex.find sectionName).bind fun keys => keys.find key

/-- The value of a line. -/
def valueAt (d : IniDocument) (i : Nat) : Bytes :=
  ((d.records[i]?).map fun r => r.line.value).getD []

/-- `get`. -/
def get (d : IniDocument) (sectionName key : Bytes) : Except Bytes Bytes :=
  match d.keyIndex.find sectionName with
  | none => .error (fromCstr (ascii "INI section not found: " ++ sectionName))
  | some keys =>
    match keys.find key with
    | none => .error (fromCstr (ascii "INI key not found: " ++ key))
    | some i => .ok (d.valueAt i)

/-! ## Editing -/

/-- The text that `rebuild_key_raw` makes of the pieces. -/
def rebuiltRaw (r : LineRecord) : Bytes :=
  let value :=
    if r.valueQuoted then [r.valueQuoteChar] ++ r.line.value ++ [r.valueQuoteChar] else r.line.value
  r.keyPrefix ++ r.line.key ++ r.keySuffix ++ r.separator ++ r.valuePrefix ++ value ++
    r.commentSuffix

/-- `line_ending_for_new_line`. -/
def lineEndingForNewLine (d : IniDocument) : Bytes :=
  if d.defaultLineEnding = [] then [10] else d.defaultLineEnding

/-- The lines from a position on that come before the next section. -/
def sectionEnd (records : List LineRecord) (pos : Nat) : Nat :=
  pos + ((records.drop pos).takeWhile fun r => r.line.kind ≠ .sectionHeader).length

/-- `find_insert_position`. -/
def findInsertPosition (d : IniDocument) (sectionName : Bytes) : Nat :=
  if sectionName = [] then sectionEnd d.records 0
  else
    match d.sectionIndex.find sectionName with
    | none => d.records.length
    | some i => sectionEnd d.records (i + 1)

/-- Changes the value of the line at `i`. -/
def setValueAt (d : IniDocument) (i : Nat) (r : LineRecord) (value : Bytes) :
    Except Failure IniDocument := do
  let r := { r with line := { r.line with value := Str.intern value } }
  let raw ← internStd (rebuiltRaw r)
  return { d with
    records := d.records.set i { r with raw := raw }
    publicLines := d.publicLines.set i r.line }

/-- The section header that `set` adds for a section that is new, behind an empty line. -/
def addSection (d : IniDocument) (sectionName : Bytes) : Except Failure IniDocument := do
  let newline ← internStd d.lineEndingForNewLine
  let raw ← internStd (ascii "[" ++ sectionName ++ ascii "]")
  let blank : List LineRecord :=
    match d.records.getLast? with
    | none => []
    | some last => if last.raw = [] then [] else [{ lineEnding := newline }]
  let header : LineRecord := {
    line := { kind := .sectionHeader, sectionName := Str.intern sectionName }
    raw := raw
    lineEnding := newline }
  return { d with records := d.records ++ blank ++ [header] }.rebuildIndex

/-- The line that `set` adds for a key that is new. -/
def newKeyRecord (newline sectionName key value : Bytes) : Except Failure LineRecord := do
  let newline ← internStd newline
  let raw ← internStd (key ++ ascii " = " ++ value)
  return {
    line := {
      kind := .keyValue
      sectionName := Str.intern sectionName
      key := Str.intern key
      value := Str.intern value }
    raw := raw
    lineEnding := newline
    keySuffix := ascii " "
    separator := ascii "="
    valuePrefix := ascii " " }

/-- A new key of a section that is there, behind the last line of the section. -/
def addKey (d : IniDocument) (newline sectionName key value : Bytes) :
    Except Failure IniDocument := do
  let record ← newKeyRecord newline sectionName key value
  let pos := d.findInsertPosition sectionName
  return { d with records := d.records.take pos ++ [record] ++ d.records.drop pos }.rebuildIndex

/-- A section that a new key needs a header for. -/
def isNewSection (d : IniDocument) (sectionName : Bytes) : Bool :=
  sectionName ≠ [] ∧ d.sectionIndex.find sectionName = none

/-- `set`. -/
def set (d : IniDocument) (sectionName key value : Bytes) : Except Failure IniDocument :=
  match d.findKey sectionName key with
  | some i =>
    match d.records[i]? with
    | some r => d.setValueAt i r value
    | none => .ok d
  | none => do
    let newline := d.lineEndingForNewLine
    let d ← if d.isNewSection sectionName then d.addSection sectionName else pure d
    d.addKey newline sectionName key value

end IniDocument

/-! ## The writer -/

namespace IniWriter

/-- `IniWriterOptions`. -/
structure IniWriterOptions where
  lineEnding : Bytes := []

/-- What the loop of `write` appends for a line. -/
def lineText (o : IniWriterOptions) (r : LineRecord) : Bytes :=
  r.raw ++ if o.lineEnding = [] then r.lineEnding else o.lineEnding

/-- `IniWriter::write`. -/
def write (o : IniWriterOptions) (d : IniDocument) : Except Failure Bytes :=
  utf8String (d.records.flatMap (lineText o))

end IniWriter

end Libca.Ini
