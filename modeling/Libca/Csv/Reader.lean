import Libca.Common.Bytes

/-!
# The CSV reader (`csv/csv_reader.cpp` 15-175)

`CsvReader::read`, over what is left of the input. A step of the loop looks one byte ahead, and may
take that byte as well (`skip`).

* `CsvDocument`: an optional header and rows; fields are byte strings.
* `State`, `step`, `scan`: the scanner; `finishField`, `finishRow` as in the source.
* `CsvReader.read`: the checks of the options, the scan, and the last row.
-/

namespace Libca.Csv

open Common

/-- The fields of a `CsvRow`. -/
abbrev CsvRow := List Bytes

/-- `CsvDocument`: a header that is not enabled is empty. -/
structure CsvDocument where
  header : Option CsvRow
  rows : List CsvRow
  deriving DecidableEq

/-- `SourceLocation`. -/
structure SourceLocation where
  line : Nat := 1
  column : Nat := 1
  deriving DecidableEq

/-- `ParseError`. -/
structure ParseError where
  location : SourceLocation
  message : Bytes
  deriving DecidableEq

/-- `CsvReaderOptions`. -/
structure CsvReaderOptions where
  firstRowIsHeader : Bool := false
  delimiter : UInt8 := 44
  quote : UInt8 := 34
  trimUnquotedSpace : Bool := false

/-- Space, tab, CR and LF. -/
def isAsciiSpace (b : UInt8) : Bool := b == 32 || b == 9 || b == 13 || b == 10

/-- `trim_ascii_space`. -/
def trimAsciiSpace (value : Bytes) : Bytes :=
  ((value.dropWhile isAsciiSpace).reverse.dropWhile isAsciiSpace).reverse

namespace CsvReader

/-- The variables of the loop of `read`; the position is kept apart. -/
structure State where
  parsedRows : List CsvRow := []
  currentRow : CsvRow := []
  currentField : Bytes := []
  inQuotes : Bool := false
  fieldWasQuoted : Bool := false

/-- What `finish_field` puts into the row. -/
def fieldValue (o : CsvReaderOptions) (s : State) : Bytes :=
  if !s.fieldWasQuoted && o.trimUnquotedSpace then trimAsciiSpace s.currentField else s.currentField

/-- `finish_field`. -/
def finishField (o : CsvReaderOptions) (s : State) : State :=
  { s with
    currentRow := s.currentRow ++ [fieldValue o s]
    currentField := []
    fieldWasQuoted := false }

/-- `finish_row`. -/
def finishRow (o : CsvReaderOptions) (s : State) : State :=
  let s := finishField o s
  { s with parsedRows := s.parsedRows ++ [s.currentRow], currentRow := [] }

/-- A turn of the loop inside quotes; the last component tells whether the next byte is taken too.
-/
def quotedStep (o : CsvReaderOptions) (s : State) (loc : SourceLocation) (ch : UInt8)
    (next : Option UInt8) : State × SourceLocation × Bool :=
  if ch = o.quote then
    if next = some o.quote then
      ({ s with currentField := s.currentField ++ [o.quote] }, ⟨loc.line, loc.column + 2⟩, true)
    else ({ s with inQuotes := false }, ⟨loc.line, loc.column + 1⟩, false)
  else
    ({ s with currentField := s.currentField ++ [ch] },
      if ch = 10 then ⟨loc.line + 1, 1⟩ else ⟨loc.line, loc.column + 1⟩, false)

/-- A turn of the loop. -/
def step (o : CsvReaderOptions) (s : State) (loc : SourceLocation) (ch : UInt8)
    (next : Option UInt8) : Except ParseError (State × SourceLocation × Bool) :=
  if s.inQuotes then .ok (quotedStep o s loc ch next)
  else if ch = o.quote ∧ s.currentField = [] then
    .ok ({ s with inQuotes := true, fieldWasQuoted := true }, ⟨loc.line, loc.column + 1⟩, false)
  else if ch = o.delimiter then .ok (finishField o s, ⟨loc.line, loc.column + 1⟩, false)
  else if ch = 13 ∨ ch = 10 then
    .ok (finishRow o s, ⟨loc.line + 1, 1⟩, ch = 13 ∧ next = some 10)
  else if s.fieldWasQuoted then .error ⟨loc, ascii "unexpected character after closing quote"⟩
  else .ok ({ s with currentField := s.currentField ++ [ch] }, ⟨loc.line, loc.column + 1⟩, false)

/-- The loop over what is left. -/
def scan (o : CsvReaderOptions) :
    Bool → State → SourceLocation → Bytes → Except ParseError (State × SourceLocation)
  | _, s, loc, [] => .ok (s, loc)
  | true, s, loc, _ :: rest => scan o false s loc rest
  | false, s, loc, ch :: rest =>
    match step o s loc ch rest.head? with
    | .error err => .error err
    | .ok (s, loc, skip) => scan o skip s loc rest

/-- What follows the loop: a last row that no line break ended. -/
def finish (o : CsvReaderOptions) (s : State) (loc : SourceLocation) (data : Bytes) :
    Except ParseError (List CsvRow) :=
  if s.inQuotes then .error ⟨loc, ascii "unterminated quoted field"⟩
  else if data ≠ [] ∧ (s.currentField ≠ [] ∨ s.currentRow ≠ [] ∨
      data.getLast? = some o.delimiter ∨ s.fieldWasQuoted = true) then
    .ok (finishRow o s).parsedRows
  else .ok s.parsedRows

/-- The rows of an input whose byte order mark is passed. -/
def readRows (o : CsvReaderOptions) (data : Bytes) : Except ParseError (List CsvRow) :=
  match scan o false {} {} data with
  | .error err => .error err
  | .ok (s, loc) => finish o s loc data

/-- The UTF-8 byte order mark. -/
def bom : Bytes := [0xEF, 0xBB, 0xBF]

/-- The input from `begin` on. -/
def skipBom (input : Bytes) : Bytes := if bom.isPrefixOf input then input.drop 3 else input

/-- CR, LF and NUL are no delimiter and no quote. -/
def isReservedChar (c : UInt8) : Bool := c == 13 || c == 10 || c == 0

/-- `CsvReader::read`. -/
def read (o : CsvReaderOptions) (input : Bytes) : Except ParseError CsvDocument :=
  if o.delimiter = o.quote then
    .error ⟨{}, ascii "CSV delimiter and quote must be different"⟩
  else if isReservedChar o.delimiter then
    .error ⟨{}, ascii "CSV delimiter must not be CR, LF or NUL"⟩
  else if isReservedChar o.quote then
    .error ⟨{}, ascii "CSV quote must not be CR, LF or NUL"⟩
  else
    match readRows o (skipBom input) with
    | .error err => .error err
    | .ok parsedRows =>
      match parsedRows with
      | header :: rows =>
        .ok (if o.firstRowIsHeader then ⟨some header, rows⟩ else ⟨none, header :: rows⟩)
      | [] => .ok ⟨none, []⟩

end CsvReader

end Libca.Csv
