import Libca.Zip.OutputStream

/-!
# Reading archives (`zip/file.cpp` 21-588)

`ZipFile` finds the end record, the directory and from its records the entries. Offsets are those of
the source: `usize` and `u64` are natural numbers below `2 ^ 64`, `ptrdiff_t` is an integer. A read
outside of the data ends with `outOfRange`.

Left out: `get_entry_at`, the opening by a path.
-/

namespace Libca.Zip

open Common

/-- A result of the reader. -/
abbrev Reading := Except ZipStop

/-- The number of `w` bytes at an offset. -/
def readNumber (w : Nat) (data : Bytes) (p : Nat) : Reading Nat :=
  match readLe w data p with
  | some v => .ok v
  | none => .error .outOfRange

def readU16 : Bytes → Nat → Reading Nat := readNumber 2
def readU32 : Bytes → Nat → Reading Nat := readNumber 4
def readU64 : Bytes → Nat → Reading Nat := readNumber 8

/-- The bytes from `p` on. -/
def readBytes (data : Bytes) (p count : Nat) : Reading Bytes :=
  if p + count ≤ data.length then .ok ((data.drop p).take count) else .error .outOfRange

/-- Fail with an error when a condition holds. -/
def rejectIf (c : Prop) [Decidable c] (code : ZipError) (message : String) : Reading Unit :=
  if c then .error (zipError code message) else .ok ()

/-- A condition that is computed last and only when `c` holds. -/
def whenTrue (c : Prop) [Decidable c] (x : Reading Bool) : Reading Bool :=
  if c then x else .ok false

def minEndSize : Nat := 22
def maxCommentSize : Nat := 0xFFFF
def zip64LocatorSize : Nat := 20
def zip64EndMinSize : Nat := 56
def zip64EndSig : Nat := 0x06064b50
def zip64LocatorSig : Nat := 0x07064b50

/-- `checked_cast_u32`. -/
def checkedCastU32 (value : Nat) (what : String) : Reading Nat :=
  if 0xFFFFFFFF < value then .error (zipError .unsupported (what ++ " exceeds 32-bit limit"))
  else .ok value

/-- The cast of a `u64` to `ptrdiff_t`. -/
def toPtrdiff (n : Nat) : Int := if n < 2 ^ 63 then n else (n : Int) - 2 ^ 64

/-! ## The ZIP64 extra field -/

/-- Whether field `i` of a ZIP64 extra field is there. -/
def zip64Present (hasUncompressedSize hasCompressedSize hasLocalHeaderOffset : Bool) (i : Nat) :
    Bool :=
  (i == 0 && hasUncompressedSize) || (i == 1 && hasCompressedSize) ||
    (i == 2 && hasLocalHeaderOffset)

/-- The loop over the fields: `left` are still to come after the field `current`. -/
def zip64Field (extra : Bytes) (present : Nat → Bool) (dataEnd : Nat) :
    Nat → Nat → Nat → Reading (Option Nat)
  | left, current, cursor =>
    if present current = false then
      match left with
      | 0 => .ok none
      | left + 1 => zip64Field extra present dataEnd left (current + 1) cursor
    else if dataEnd < cursor + 8 then .ok none
    else
      match left with
      | 0 => do
        let value ← readU64 extra cursor
        .ok (some value)
      | left + 1 => zip64Field extra present dataEnd left (current + 1) (cursor + 8)

/-- The loop over the extra fields; every round takes four bytes at least. -/
def zip64Extra (extra : Bytes) (present : Nat → Bool) (fieldIndex : Nat) :
    Nat → Nat → Reading (Option Nat)
  | 0, _ => .ok none
  | fuel + 1, offset =>
    if offset + 4 ≤ extra.length then do
      let tag ← readU16 extra offset
      let size ← readU16 extra (offset + 2)
      if extra.length < offset + 4 + size then .ok none
      else if tag = 0x0001 then
        zip64Field extra present (offset + 4 + size) fieldIndex 0 (offset + 4)
      else zip64Extra extra present fieldIndex fuel (offset + 4 + size)
    else .ok none

/-- `read_zip64_extra_field_value`. -/
def readZip64ExtraFieldValue (extra : Bytes)
    (hasUncompressedSize hasCompressedSize hasLocalHeaderOffset : Bool) (fieldIndex : Nat) :
    Reading (Option Nat) :=
  zip64Extra extra (zip64Present hasUncompressedSize hasCompressedSize hasLocalHeaderOffset)
    fieldIndex
    (extra.length + 1) 0

/-! ## The end record -/

/-- `is_valid_end_candidate`. -/
def isValidEndCandidate (data : Bytes) (eocdPos : Nat) : Reading Bool :=
  if data.length < eocdPos + minEndSize then .ok false
  else do
    let commentLen ← readU16 data (eocdPos + 20)
    .ok (eocdPos + minEndSize + commentLen == data.length)

/-- The loop of `find_jvm_style_end` downwards from `i`. -/
def findEndFrom (data : Bytes) (searchStart : Nat) : Nat → Reading Nat
  | 0 => .error (zipError .invalidFormat "EOCD signature not found")
  | i + 1 =>
    if searchStart < i + 1 then do
      let signature ← readU32 data i
      let valid ← whenTrue (signature = endSig) (isValidEndCandidate data i)
      if valid then .ok i
      else if i = 0 then .error (zipError .invalidFormat "EOCD signature not found")
      else findEndFrom data searchStart i
    else .error (zipError .invalidFormat "EOCD signature not found")

/-- `find_jvm_style_end`. -/
def findJvmStyleEnd (data : Bytes) : Reading Nat :=
  if data.length < minEndSize then .error (zipError .invalidFormat "ZIP file too small")
  else
    findEndFrom data
      (if minEndSize + maxCommentSize < data.length then data.length - minEndSize - maxCommentSize
        else 0)
      (data.length - minEndSize + 1)

/-- Whether a ZIP64 end record can be at an offset. -/
def isValidZip64EndOffset (data : Bytes) (locatorOffset offset : Nat) : Reading Bool :=
  if locatorOffset < offset ∨ locatorOffset - offset < zip64EndMinSize then .ok false
  else if data.length < offset + 12 then .ok false
  else do
    let signature ← readU32 data offset
    if signature ≠ zip64EndSig then .ok false
    else do
      let recordSize ← readU64 data (offset + 4)
      if recordSize < 44 ∨ 2 ^ 64 - 1 - 12 < recordSize then .ok false
      else .ok (decide (12 + recordSize ≤ locatorOffset - offset))

/-- The search for a ZIP64 end record downwards from `candidate`. -/
def findZip64EndFrom (data : Bytes) (locatorOffset : Nat) : Nat → Reading Nat
  | 0 => .error (zipError .invalidFormat "ZIP64 EOCD signature not found")
  | candidate + 1 => do
    let signature ← readU32 data candidate
    let valid ← whenTrue (signature = zip64EndSig)
      (isValidZip64EndOffset data locatorOffset candidate)
    if valid then .ok candidate
    else if candidate = 0 then .error (zipError .invalidFormat "ZIP64 EOCD signature not found")
    else findZip64EndFrom data locatorOffset candidate

/-- `resolve_zip64_end_offset`. -/
def resolveZip64EndOffset (data : Bytes) (locatorOffset rawZip64EndOffset : Nat) : Reading Nat := do
  let valid ← isValidZip64EndOffset data locatorOffset rawZip64EndOffset
  if valid then .ok rawZip64EndOffset
  else if locatorOffset < zip64EndMinSize then
    .error (zipError .invalidFormat "ZIP64 EOCD signature not found")
  else findZip64EndFrom data locatorOffset (locatorOffset - zip64EndMinSize + 1)

/-- What the end records say of the directory. -/
structure ResolvedEnd where
  entryCount : Nat
  centralDirectorySize : Nat
  centralDirectoryOffset : Nat
  centralDirectoryEnd : Nat

/-- The directory by the ZIP64 records. -/
def resolveZip64End (data : Bytes) (eocdPos : Nat) : Reading ResolvedEnd := do
  rejectIf (eocdPos < zip64LocatorSize) .invalidFormat "ZIP64 locator not found"
  let locatorOffset := eocdPos - zip64LocatorSize
  let signature ← readU32 data locatorOffset
  rejectIf (signature ≠ zip64LocatorSig) .invalidFormat "ZIP64 locator not found"
  let locatorDisk ← readU32 data (locatorOffset + 4)
  let rawZip64EndOffset ← readU64 data (locatorOffset + 8)
  let totalDisks ← readU32 data (locatorOffset + 16)
  rejectIf (locatorDisk ≠ 0 ∨ totalDisks ≠ 1) .unsupported "Split or multi-disk ZIP not supported"
  let zip64EndOffset ← resolveZip64EndOffset data locatorOffset rawZip64EndOffset
  let recordSize ← readU64 data (zip64EndOffset + 4)
  rejectIf (recordSize < 44 ∨ 2 ^ 64 - 1 - 12 < recordSize) .invalidFormat "Invalid ZIP64 EOCD size"
  rejectIf (locatorOffset - zip64EndOffset < 12 + recordSize) .invalidFormat
    "ZIP64 EOCD overlaps locator"
  let diskNumber ← readU32 data (zip64EndOffset + 16)
  let startDisk ← readU32 data (zip64EndOffset + 20)
  rejectIf (diskNumber ≠ 0 ∨ startDisk ≠ 0) .unsupported "Split or multi-disk ZIP not supported"
  let entryCount ← readU64 data (zip64EndOffset + 32)
  let size ← readU64 data (zip64EndOffset + 40)
  let offset ← readU64 data (zip64EndOffset + 48)
  .ok
    { entryCount := entryCount
      centralDirectorySize := size
      centralDirectoryOffset := offset
      centralDirectoryEnd := zip64EndOffset }

/-- `resolve_end_record`. -/
def resolveEndRecord (data : Bytes) (eocdPos : Nat) : Reading ResolvedEnd := do
  let entryCount ← readU16 data (eocdPos + 10)
  let size ← readU32 data (eocdPos + 12)
  let offset ← readU32 data (eocdPos + 16)
  if entryCount = 0xFFFF ∨ size = 0xFFFFFFFF ∨ offset = 0xFFFFFFFF then resolveZip64End data eocdPos
  else
    .ok
      { entryCount := entryCount
        centralDirectorySize := size
        centralDirectoryOffset := offset
        centralDirectoryEnd := eocdPos }

/-! ## The directory -/

/-- `ZipEntry`. -/
structure ZipEntry where
  name : Bytes
  compressedSize : Nat
  uncompressedSize : Nat
  compressionMethod : Nat
  crc32 : Nat
  relativeOffset : Nat
  extraField : Bytes

/-- A size or an offset that may be in the ZIP64 extra field. -/
def resolveField (extra : Bytes) (usize csize relOffset fieldIndex raw : Nat) (message : String) :
    Reading Nat :=
  if raw = 0xFFFFFFFF then do
    let value ← readZip64ExtraFieldValue extra (usize == 0xFFFFFFFF) (csize == 0xFFFFFFFF)
      (relOffset == 0xFFFFFFFF) fieldIndex
    match value with
    | some value => .ok value
    | none => .error (zipError .invalidFormat message)
  else .ok raw

/-- The offset of a local header in the data. -/
def absoluteOffset (baseOffset : Int) (relOffset : Nat) : Reading Nat :=
  if toPtrdiff relOffset + baseOffset < 0 then
    .error (zipError .invalidFormat "LOC offset before file start")
  else .ok (toPtrdiff relOffset + baseOffset).toNat

/-- One record of the directory at `cen`, and how long it is. -/
def readCenEntry (data : Bytes) (baseOffset : Int) (cen remaining : Nat) :
    Reading (ZipEntry × Nat) := do
  rejectIf (remaining < 46) .invalidFormat "CEN entry exceeds central directory"
  let signature ← readU32 data cen
  rejectIf (signature ≠ cenSig) .invalidFormat "Invalid CEN signature"
  let nameLen ← readU16 data (cen + 28)
  let extraLen ← readU16 data (cen + 30)
  let commentLen ← readU16 data (cen + 32)
  rejectIf (remaining < 46 + nameLen + extraLen + commentLen) .invalidFormat
    "CEN entry variable fields exceed central directory"
  let method ← readU16 data (cen + 10)
  let crc ← readU32 data (cen + 16)
  let csize ← readU32 data (cen + 20)
  let usize ← readU32 data (cen + 24)
  let relOffset ← readU32 data (cen + 42)
  let _ ← absoluteOffset baseOffset relOffset
  let name ← readBytes data (cen + 46) nameLen
  let extra ← readBytes data (cen + 46 + nameLen) extraLen
  let realUsize ← resolveField extra usize csize relOffset 0 usize
    "Invalid ZIP64 extra field for uncompressed size"
  let realCsize ← resolveField extra usize csize relOffset 1 csize
    "Invalid ZIP64 extra field for compressed size"
  let realOffset ← resolveField extra usize csize relOffset 2 relOffset
    "Invalid ZIP64 extra field for local header offset"
  let absolute ← absoluteOffset baseOffset realOffset
  let checkedCsize ← checkedCastU32 realCsize "compressed size"
  let checkedUsize ← checkedCastU32 realUsize "uncompressed size"
  let checkedOffset ← checkedCastU32 absolute "local header offset"
  .ok
    ({ name := name
       compressedSize := checkedCsize
       uncompressedSize := checkedUsize
       compressionMethod := method
       crc32 := crc
       relativeOffset := checkedOffset
       extraField := extra },
      46 + nameLen + extraLen + commentLen)

/-- The loop over the directory from `cen` to `cenEnd`; every round takes 46 bytes at least, so fuel
above the size of the directory is never spent. -/
def readCen (data : Bytes) (entryCount : Nat) (baseOffset : Int) (cenEnd : Nat) :
    Nat → Nat → List ZipEntry → Reading (List ZipEntry)
  | 0, _, _ => .error .noReturn
  | fuel + 1, cen, entries =>
    if (entryCount = 0 ∧ cen < cenEnd) ∨ entries.length < entryCount then do
      let (entry, size) ← readCenEntry data baseOffset cen (cenEnd - cen)
      readCen data entryCount baseOffset cenEnd fuel (cen + size) (entries ++ [entry])
    else .ok entries

/-- Whether the directory begins with a record at `cenStart`. -/
def cenSigAt (data : Bytes) (cenStart : Nat) : Reading Bool :=
  whenTrue (4 ≤ data.length - cenStart) do
    let signature ← readU32 data cenStart
    .ok (signature == cenSig)

/-- The start of the directory: the recorded one, or the one that ends at the end record. -/
def locateCen (data : Bytes) (resolved : ResolvedEnd) : Reading Nat := do
  let cenSize := resolved.centralDirectorySize
  let cenOffset := resolved.centralDirectoryOffset
  let cenEndAnchor := resolved.centralDirectoryEnd
  let cenStartInRange : Bool := decide (cenOffset ≤ data.length)
  let cenStart := if cenStartInRange then cenOffset else data.length
  let signed ← whenTrue (cenSize ≠ 0 ∧ cenStartInRange) (cenSigAt data cenStart)
  let originalCenValid := cenSize == 0 || signed
  let cenExceedsData := !cenStartInRange || decide (data.length - cenStart < cenSize)
  let cenExceedsAnchor :=
    decide (cenEndAnchor ≤ data.length) && decide (cenStart ≤ cenEndAnchor) &&
      decide (cenSize ≤ cenEndAnchor) && decide (cenEndAnchor - cenStart < cenSize)
  rejectIf (resolved.entryCount = 0 ∧ 0 < cenSize ∧ originalCenValid = false) .invalidFormat
    "Invalid CEN signature"
  .ok
    (if cenExceedsData || cenExceedsAnchor || !originalCenValid then
      if cenSize ≤ cenEndAnchor then cenEndAnchor - cenSize else data.length
    else cenStart)

/-- `parse`. -/
def parse (data : Bytes) : Reading (List ZipEntry) := do
  let eocdPos ← findJvmStyleEnd data
  let resolved ← resolveEndRecord data eocdPos
  let cenSize := resolved.centralDirectorySize
  let cenStart ← locateCen data resolved
  rejectIf (data.length < cenStart ∨ data.length - cenStart < cenSize) .invalidFormat
    "Central directory exceeds file bounds"
  let signed ← whenTrue (0 < cenSize) (cenSigAt data cenStart)
  rejectIf (0 < cenSize ∧ signed = false) .invalidFormat "Invalid CEN signature"
  readCen data resolved.entryCount ((cenStart : Int) - toPtrdiff resolved.centralDirectoryOffset)
    (cenStart + cenSize) (cenSize + 1) cenStart []

/-- An archive that is open. -/
structure ZipFile where
  data : Bytes
  entryList : List ZipEntry

/-- `open`. -/
def ZipFile.openData (data : Bytes) : Reading ZipFile := do
  let entries ← parse data
  .ok { data := data, entryList := entries }

/-- `entries`. -/
def ZipFile.entries (f : ZipFile) : List Bytes := f.entryList.map ZipEntry.name

/-- The entry that `index` has for a name: the last one. -/
def ZipFile.getEntry (f : ZipFile) (name : Bytes) : Option ZipEntry :=
  f.entryList.reverse.find? fun e => e.name == name

/-! ## Entries -/

variable (Z : Zlib)

/-- The loop of `inflate_raw`. -/
def inflateLoop : Nat → Z.InflateStream → Bytes → Bytes → Reading Bytes
  | 0, _, _, _ => .error .noReturn
  | fuel + 1, stream, input, out =>
    let step := Z.inflate stream input bufferSize
    match step.status with
    | .ok => inflateLoop fuel step.stream (input.drop step.consumed) (out ++ step.output)
    | .streamEnd => .ok (out ++ step.output)
    | .dataError => .error (zipError .invalidFormat
        "zlib raw inflate failed (-3): corrupted or incomplete deflate data")
    | .streamError => .error (zipError .zlibError "zlib raw inflate failed (-2)")
    | .other code =>
      .error (zipError .zlibError ("zlib raw inflate failed (" ++ toString code ++ ")"))

/-- `inflate_raw`; the hint is a capacity only. -/
def inflateRaw (fuel : Nat) (data : Bytes) : Reading Bytes :=
  match Z.inflateInit2 with
  | none => .error (zipError .zlibError "zlib inflateInit2 failed")
  | some stream => inflateLoop Z fuel stream (data.take (toU32 data.length)) []

/-- `Crc32` over data of less than 4 GiB. -/
def crcOf (data : Bytes) : Nat := (Z.crc32 Z.crcInit (data.take (toU32 data.length))).toNat

/-- `read_entry`. -/
def readEntry (fuel : Nat) (data : Bytes) (entry : ZipEntry) : Reading Bytes := do
  let locOffset := entry.relativeOffset
  rejectIf (data.length < locOffset ∨ data.length - locOffset < 30) .invalidFormat
    "LOC header exceeds file bounds"
  let signature ← readU32 data locOffset
  rejectIf (signature ≠ locSig) .invalidFormat "Invalid LOC signature"
  let nameLen ← readU16 data (locOffset + 26)
  let extraLen ← readU16 data (locOffset + 28)
  let headerSize := 30 + nameLen + extraLen
  rejectIf (data.length - locOffset < headerSize) .invalidFormat
    "LOC variable fields exceed file bounds"
  let dataOffset := locOffset + headerSize
  rejectIf (data.length - dataOffset < entry.compressedSize) .invalidFormat
    "Entry data exceeds file bounds"
  let compressed ← readBytes data dataOffset entry.compressedSize
  if entry.compressionMethod = 0 then do
    rejectIf (crcOf Z compressed ≠ entry.crc32) .crcMismatch "CRC32 mismatch on stored entry"
    .ok compressed
  else if entry.compressionMethod = 8 then do
    let result ← inflateRaw Z fuel compressed
    rejectIf (crcOf Z result ≠ entry.crc32) .crcMismatch "CRC32 mismatch on deflated entry"
    .ok result
  else
    .error (.error .unsupported
      (ascii "Unsupported compression method: " ++ toChars 10 entry.compressionMethod))

/-- `read`. -/
def ZipFile.read (fuel : Nat) (f : ZipFile) (name : Bytes) : Reading Bytes :=
  match f.getEntry name with
  | none => .error (.error .notFound (ascii "Entry not found: " ++ name))
  | some entry => readEntry Z fuel f.data entry

end Libca.Zip
