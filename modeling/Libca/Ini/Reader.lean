import Libca.Ini.Document
import Mathlib.Data.List.DropRight

/-!
# The INI reader (`ini/ini_reader.cpp` 35-313)

`IniReader::read`: the text is cut into lines, and each line into the pieces of its record.

* `splitLines`: the lines with their ends; CR LF, CR and LF end a line.
* `findInlineComment`: where a comment starts in a line or in a value, outside quotes.
* `parseLine`, `readLine`, `IniReader.read`: the functions of the source.
-/

namespace Libca.Ini

open Common

/-- Space, tab, CR and LF. -/
def isSpace (ch : UInt8) : Bool := ch == 32 || ch == 9 || ch == 13 || ch == 10

/-- `trim_ascii`. -/
def trimAscii (value : Bytes) : Bytes := (value.dropWhile isSpace).rdropWhile isSpace

/-- `DuplicatePolicy`. -/
inductive DuplicatePolicy where
  | keepLast
  | error
  deriving DecidableEq

namespace IniReader

/-- `IniReaderOptions`. -/
structure IniReaderOptions where
  allowGlobalKeys : Bool := true
  hashComment : Bool := true
  semicolonComment : Bool := true
  onDuplicateSection : DuplicatePolicy := .keepLast
  onDuplicateKey : DuplicatePolicy := .keepLast
  inlineCommentStrictWhitespace : Bool := true

variable (o : IniReaderOptions)

/-- `is_comment_marker`. -/
def isCommentMarker (ch : UInt8) : Bool :=
  (o.hashComment && ch == 35) || (o.semicolonComment && ch == 59)

/-! ## Comments and quotes -/

/-- The flags of the loop of `find_inline_comment`. -/
structure QuoteState where
  inSingleQuote : Bool := false
  inDoubleQuote : Bool := false
  escaped : Bool := false
  deriving DecidableEq

/-- A turn of the loop behind the byte `prev`, or `none` where a comment starts. -/
def scanStep (q : QuoteState) (prev : Option UInt8) (ch : UInt8) : Option QuoteState :=
  if ch = 92 ∧ q.escaped = false then some { q with escaped := true }
  else if ch = 39 ∧ q.inDoubleQuote = false ∧ q.escaped = false then
    some { q with inSingleQuote := !q.inSingleQuote, escaped := false }
  else if ch = 34 ∧ q.inSingleQuote = false ∧ q.escaped = false then
    some { q with inDoubleQuote := !q.inDoubleQuote, escaped := false }
  else if q.inSingleQuote = false ∧ q.inDoubleQuote = false ∧ q.escaped = false ∧
      isCommentMarker o ch = true ∧
      (o.inlineCommentStrictWhitespace = false ∨ prev.all isSpace = true) then none
  else some { q with escaped := false }

/-- The loop of `find_inline_comment`. -/
def scanComment : QuoteState → Option UInt8 → Bytes → Nat
  | _, _, [] => 0
  | q, prev, ch :: rest =>
    match scanStep o q prev ch with
    | none => 0
    | some q => scanComment q (some ch) rest + 1

theorem scanComment_cons (q : QuoteState) (prev : Option UInt8) (ch : UInt8) (rest : Bytes) :
    scanComment o q prev (ch :: rest) =
      match scanStep o q prev ch with
      | none => 0
      | some q => scanComment o q (some ch) rest + 1 := rfl

/-- `find_inline_comment`. -/
def findInlineComment (value : Bytes) : Nat := scanComment o {} none value

/-- `trailing_quote_escaped`: the backslashes before the last byte. -/
def trailingQuoteEscaped (value : Bytes) : Bool :=
  (value.dropLast.rtakeWhile (· == 92)).length % 2 ≠ 0

/-- `detect_quotes`: the quote that encloses a value. -/
def detectQuotes (value : Bytes) : Option UInt8 :=
  match value.head?, value.getLast? with
  | some first, some last =>
    if 2 ≤ value.length ∧ (first = 34 ∨ first = 39) ∧ first = last ∧
        trailingQuoteEscaped value = false then some first
    else none
  | _, _ => none

/-! ## A line -/

/-- `LineParse`: a section line has a next section. -/
structure LineParse where
  record : LineRecord
  nextSection : Option Bytes := none
  deriving DecidableEq

/-- A `ParseError` at a line. -/
def lineError {α : Type} (lineNumber : Nat) (message : Bytes) : Except Failure α :=
  .error (.parse ⟨⟨lineNumber, 1⟩, message⟩)

/-- Where the first `=` or `:` is. -/
def separatorPos (region : Bytes) : Option Nat :=
  match region.findIdx? (· == 61), region.findIdx? (· == 58) with
  | none, colonPos => colonPos
  | some equalPos, none => some equalPos
  | some equalPos, some colonPos => some (if equalPos < colonPos then equalPos else colonPos)

/-- The bytes of a value, from `value_begin` to `value_end`. -/
def valueText (valuePart : Bytes) : Bytes :=
  let valueBegin := (valuePart.takeWhile isSpace).length
  let commentPos := findInlineComment o valuePart
  ((valuePart.take commentPos).drop valueBegin).rdropWhile isSpace

/-- The record of a key line, cut at its separator. -/
def keyValueRecord (record : LineRecord) (raw currentSection : Bytes) (separatorPos : Nat) :
    Except Failure LineRecord := do
  let keyPart := raw.take separatorPos
  let valuePart := raw.drop (separatorPos + 1)
  let valueBegin := (valuePart.takeWhile isSpace).length
  let valueEnd := valueBegin + (valueText o valuePart).length
  let sectionName ← internStd currentSection
  let key ← internStd (trimAscii keyPart)
  let value ← internStd (valueText o valuePart)
  let keyPrefix ← internStd (keyPart.takeWhile isSpace)
  let keySuffix ← internStd ((keyPart.dropWhile isSpace).rtakeWhile isSpace)
  let separator ← internStd ((raw.drop separatorPos).take 1)
  let valuePrefix ← internStd (valuePart.take valueBegin)
  let commentSuffix ← internStd (valuePart.drop valueEnd)
  return { record with
    line := { kind := .keyValue, sectionName := sectionName, key := key, value := value }
    keyPrefix := keyPrefix
    keySuffix := keySuffix
    separator := separator
    valuePrefix := valuePrefix
    commentSuffix := commentSuffix
    valueQuoted := (detectQuotes (valueText o valuePart)).isSome
    valueQuoteChar := (detectQuotes (valueText o valuePart)).getD 34 }

/-- What `parse_line` does with a line that is not blank and no comment. -/
def parseContent (record : LineRecord) (raw currentSection : Bytes) (lineNumber : Nat) :
    Except Failure LineParse :=
  let trimmed := trimAscii raw
  if trimmed.head? = some 91 then
    match trimmed.findIdx? (· == 93) with
    | none => lineError lineNumber (ascii "section header misses closing ']'")
    | some close => do
      let name := trimAscii ((trimmed.drop 1).take (close - 1))
      let sectionName ← internStd name
      let line := { record.line with kind := .sectionHeader, sectionName := sectionName }
      return ⟨{ record with line := line }, some name⟩
  else
    match separatorPos (raw.take (findInlineComment o raw)) with
    | none => lineError lineNumber (ascii "key/value line misses '=' or ':'")
    | some pos =>
      if currentSection = [] ∧ o.allowGlobalKeys = false then
        lineError lineNumber (ascii "global key/value is disabled")
      else do
        let record ← keyValueRecord o record raw currentSection pos
        return ⟨record, none⟩

/-- What `parse_line` does with a line whose text is checked. -/
def parseRecord (record : LineRecord) (raw currentSection : Bytes) (lineNumber : Nat) :
    Except Failure LineParse :=
  match (trimAscii raw).head? with
  | none => .ok ⟨record, none⟩
  | some first =>
    if isCommentMarker o first then
      .ok ⟨{ record with line := { record.line with kind := .comment } }, none⟩
    else parseContent o record raw currentSection lineNumber

/-- `parse_line`. -/
def parseLine (raw lineEnding currentSection : Bytes) (lineNumber : Nat) :
    Except Failure LineParse :=
  if Str.isValid raw = false then lineError lineNumber (ascii "invalid UTF-8 in line")
  else do
    let rawRef ← internStd raw
    let endingRef ← internStd lineEnding
    let sectionName ← internStd currentSection
    let record : LineRecord :=
      { line := { sectionName := sectionName }, raw := rawRef, lineEnding := endingRef }
    parseRecord o record raw currentSection lineNumber

/-! ## The loop over the lines -/

/-- The lines of a text: each is the bytes before its end, and the bytes that end it. -/
def splitLines : Bytes → Bytes → List (Bytes × Bytes)
  | raw, [] => if raw = [] then [] else [(raw, [])]
  | raw, 13 :: 10 :: rest => (raw, [13, 10]) :: splitLines [] rest
  | raw, ch :: rest =>
    if ch = 13 ∨ ch = 10 then (raw, [ch]) :: splitLines [] rest else splitLines (raw ++ [ch]) rest

/-- The variables of the loop of `read`. -/
structure ReadState where
  document : IniDocument := {}
  currentSection : Bytes := []
  lineNumber : Nat := 1
  seenSections : List Bytes := []
  seenKeys : List (Bytes × Bytes) := []

/-- A section line, with its check for a duplicate. -/
def enterSection (s : ReadState) : Option Bytes → Except Failure ReadState
  | none => .ok s
  | some name =>
    if o.onDuplicateSection = .error ∧ name ∈ s.seenSections then
      lineError s.lineNumber (fromCstr (ascii "duplicate section: " ++ name))
    else .ok { s with currentSection := name, seenSections := name :: s.seenSections }

/-- A key line, with its check for a duplicate. -/
def noteKey (s : ReadState) (line : IniLine) : Except Failure ReadState :=
  if line.kind = .keyValue then
    if o.onDuplicateKey = .error ∧ (s.currentSection, line.key) ∈ s.seenKeys then
      lineError s.lineNumber (fromCstr
        (ascii "duplicate key '" ++ line.key ++ ascii "' in section: " ++ s.currentSection))
    else .ok { s with seenKeys := (s.currentSection, line.key) :: s.seenKeys }
  else .ok s

/-- A turn of the loop of `read`. -/
def readLine (s : ReadState) (line : Bytes × Bytes) : Except Failure ReadState := do
  let parsed ← parseLine o line.1 line.2 s.currentSection s.lineNumber
  let s ← enterSection o s parsed.nextSection
  let s ← noteKey o s parsed.record.line
  return { s with document := s.document.addRecord parsed.record, lineNumber := s.lineNumber + 1 }

/-- The UTF-8 byte order mark. -/
def bom : Bytes := [0xEF, 0xBB, 0xBF]

/-- The text without a byte order mark at its start. -/
def skipBom (input : Bytes) : Bytes := if bom.isPrefixOf input then input.drop 3 else input

/-- `IniReader::read`. -/
def read (input : Bytes) : Except Failure IniDocument := do
  let s ← (splitLines [] (skipBom input)).foldlM (readLine o) {}
  return s.document.rebuildIndex

end IniReader

end Libca.Ini
