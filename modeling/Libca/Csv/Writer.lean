import Libca.Csv.Reader
import Libca.Str.Conversion

/-!
# The CSV writer (`csv/csv_writer.cpp` 18-116)

`CsvWriter::write`: the text that its stream receives, and the check of it.

Left out: `write_file`.
-/

namespace Libca.Csv

open Common Str

/-- `CsvWriterOptions`. -/
structure CsvWriterOptions where
  writeHeader : Bool := true
  delimiter : UInt8 := 44
  quote : UInt8 := 34
  lineEnding : Bytes := [10]
  alwaysQuote : Bool := false
  validateUtf8 : Bool := true

namespace CsvWriter

/-- A blank that is not written at an end of a field without quotes. -/
def isBlank (b : UInt8) : Bool := b == 32 || b == 9

/-- `needs_quote`. -/
def needsQuote (o : CsvWriterOptions) (field : Bytes) : Bool :=
  if o.alwaysQuote then true
  else if field.length = 0 then false
  else if isBlank (field.getD 0 0) || isBlank (field.getD (field.length - 1) 0) then true
  else field.any fun ch => ch == o.delimiter || ch == o.quote || ch == 13 || ch == 10

/-- The bytes of a field between its quotes, where quotes are doubled. -/
def escaped (o : CsvWriterOptions) (field : Bytes) : Bytes :=
  field.flatMap fun ch => if ch = o.quote then [o.quote, ch] else [ch]

/-- `write_field`. -/
def fieldText (o : CsvWriterOptions) (field : Bytes) : Bytes :=
  if !needsQuote o field then field else o.quote :: (escaped o field ++ [o.quote])

/-- `write_row`. -/
def rowText (o : CsvWriterOptions) : CsvRow → Bytes
  | [] => []
  | field :: fields => fieldText o field ++ fields.flatMap fun field =>
    o.delimiter :: fieldText o field

/-- The rows that `write_to_stream` writes. -/
def records (o : CsvWriterOptions) (document : CsvDocument) : List CsvRow :=
  match document.header with
  | some header => if o.writeHeader then header :: document.rows else document.rows
  | none => document.rows

/-- Rows with line endings between them. -/
def recordsText (o : CsvWriterOptions) : List CsvRow → Bytes
  | [] => []
  | row :: rows => rowText o row ++ rows.flatMap fun row => o.lineEnding ++ rowText o row

/-- `write_to_stream`. -/
def writeToStream (o : CsvWriterOptions) (document : CsvDocument) : Bytes :=
  recordsText o (records o document)

/-- How `CsvWriter::write` fails: with a message, or with the exception of the constructor of
`Utf8String`, which checks its bytes by itself. -/
inductive WriteError where
  | message (text : Bytes)
  | exception
  deriving DecidableEq

/-- `CsvWriter::write`. -/
def write (o : CsvWriterOptions) (document : CsvDocument) : Except WriteError Bytes :=
  let text := writeToStream o document
  if o.validateUtf8 then
    if text ≠ [] ∧ utf8ToUtf32Length text = 0 then
      .error (.message (ascii ("CSV output contains invalid UTF-8 bytes; " ++
        "set validate_utf8=false to write raw bytes")))
    else if text ≠ [] ∧ countCodePoints text = 0 then .error .exception
    else .ok text
  else .ok text

end CsvWriter

end Libca.Csv
