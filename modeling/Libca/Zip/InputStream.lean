import Libca.Zip.File

/-!
# Reading archives front to back (`zip/input_stream.cpp` 28-264)

`ZipInputStream` goes through the local headers. An entry with a data descriptor does not say how
long it is: the stream looks for the signature of the next header and takes the descriptor to be in
front of it. A loop over `inflate` runs on fuel.
-/

namespace Libca.Zip

open Common Fallible

/-- The state of a stream; `fed` is what `inflate` was given and has not taken. -/
structure ZipInputStream (Z : Zlib) where
  data : Bytes
  cursor : Nat := 0
  entryName : Bytes := []
  entryMethod : Nat := 0
  entryCrc32 : Nat := 0
  entryCompressedSize : Nat := 0
  entryUncompressedSize : Nat := 0
  entryDataStart : Nat := 0
  entryDataEnd : Nat := 0
  entryDataOffset : Nat := 0
  entryOpen : Bool := false
  zstream : Option Z.InflateStream := none
  fed : Bytes := []
  zstreamDone : Bool := false

variable {Z : Zlib}

abbrev Streaming (Z : Zlib) := Fallible (ZipInputStream Z) ZipStop

/-- The signature of a header of either kind or of the end record. -/
def isHeaderAt (data : Bytes) (i : Nat) : Bool :=
  readLe 4 data i == some locSig || readLe 4 data i == some cenSig || readLe 4 data i == some endSig

/-- The loop of `scan_next_header`, for at most so many positions. -/
def scanFrom (data : Bytes) : Nat → Nat → Nat
  | 0, _ => data.length
  | count + 1, i =>
    if i + 4 ≤ data.length then if isHeaderAt data i then i else scanFrom data count (i + 1)
    else data.length

/-- `scan_next_header`. -/
def scanNextHeader (data : Bytes) (pos : Nat) : Nat := scanFrom data (data.length + 1 - pos) pos

/-- The end of the data in front of a data descriptor, with its signature or in the old form. -/
def dataEndBefore (data : Bytes) (pos nextHdr : Nat) : Reading Nat := do
  let signed ← whenTrue (16 ≤ nextHdr ∧ pos ≤ nextHdr - 16) do
    let signature ← readU32 data (nextHdr - 16)
    .ok (signature == dataDescriptorSig)
  if signed then .ok (nextHdr - 16)
  else if 12 ≤ nextHdr ∧ pos ≤ nextHdr - 12 then .ok (nextHdr - 12)
  else .error (zipError .invalidFormat "Truncated data descriptor before next ZIP header")

/-- The size of an entry with a data descriptor. -/
def scanCompressedSize (data : Bytes) (pos : Nat) : Reading Nat := do
  let nextHdr := scanNextHeader data pos
  rejectIf (nextHdr = data.length) .invalidFormat
    "Data descriptor entry has no following ZIP header"
  let dataEnd ← dataEndBefore data pos nextHdr
  .ok (toU32 (dataEnd - pos))

/-- A cast to `int`. -/
def toInt (n : Nat) : Int := if n % 2 ^ 32 < 2 ^ 31 then (n % 2 ^ 32 : Nat)
else (n % 2 ^ 32 : Nat) - 2 ^ 32

/-- What a local header says. The source keeps the fields of a header that is cut off as well; no
function reads them while no entry is open. -/
structure LocalHeader where
  flags : Nat
  method : Nat
  crc32 : Nat
  compressedSize : Nat
  uncompressedSize : Nat
  name : Bytes
  size : Nat

/-- The local header at a position, if there is a whole one. -/
def readLocalHeader (data : Bytes) (pos : Nat) : Reading (Option LocalHeader) :=
  if data.length < pos + 30 then .ok none
  else do
    let signature ← readU32 data pos
    if signature ≠ locSig then .ok none
    else do
      let flags ← readU16 data (pos + 6)
      let method ← readU16 data (pos + 8)
      let crc32 ← readU32 data (pos + 14)
      let compressedSize ← readU32 data (pos + 18)
      let uncompressedSize ← readU32 data (pos + 22)
      let nameLen ← readU16 data (pos + 26)
      let extraLen ← readU16 data (pos + 28)
      if data.length < pos + 30 + nameLen + extraLen then .ok none
      else do
        let name ← readBytes data (pos + 30) nameLen
        .ok (some
          { flags := flags
            method := method
            crc32 := crc32
            compressedSize := compressedSize
            uncompressedSize := uncompressedSize
            name := name
            size := 30 + nameLen + extraLen })

namespace ZipInputStream

/-- The decompressor of a deflated entry; the old one is released. -/
def initInflate : Streaming Z Unit := fun s =>
  match Z.inflateInit2 with
  | none => (.error (zipError .zlibError "inflateInit2 failed"), { s with zstream := none })
  | some stream => (.ok (), { s with zstream := some stream, fed := [] })

/-- `close_entry`. -/
def closeEntry : Streaming Z Unit := fun s =>
  if s.entryOpen then
    let nextHdr := scanNextHeader s.data s.entryDataEnd
    (.ok (), { s with
      entryOpen := false
      zstream := none
      cursor :=
        if s.entryDataEnd < nextHdr ∧ nextHdr ≤ s.data.length then nextHdr else s.entryDataEnd })
  else (.ok (), s)

/-- The entry that a local header begins. -/
def openEntry (h : LocalHeader) : Streaming Z ZipEntry := do
  modify fun s =>
    { s with
      entryMethod := h.method
      entryCrc32 := h.crc32
      entryCompressedSize := h.compressedSize
      entryUncompressedSize := h.uncompressedSize
      entryName := h.name
      cursor := s.cursor + h.size
      entryDataStart := s.cursor + h.size
      entryDataOffset := 0
      entryOpen := true
      zstreamDone := false }
  let s ← getState
  let compressedSize ← lift
    (if h.flags &&& 0x0008 ≠ 0 then scanCompressedSize s.data s.cursor else .ok h.compressedSize)
  modify fun s => { s with entryCompressedSize := compressedSize }
  failIf (s.data.length < s.cursor + compressedSize)
    (zipError .invalidFormat "Entry compressed data exceeds file bounds")
  modify fun s => { s with entryDataEnd := s.cursor + compressedSize }
  if h.method = 8 then initInflate else pure ()
  pure
    { name := h.name
      compressedSize := compressedSize
      uncompressedSize := h.uncompressedSize
      compressionMethod := h.method
      crc32 := h.crc32
      relativeOffset := 0
      extraField := [] }

/-- `get_next_entry`; `close_entry` does nothing when no entry is open. -/
def getNextEntry : Streaming Z (Option ZipEntry) := do
  closeEntry
  let s ← getState
  let header ← lift (readLocalHeader s.data s.cursor)
  match header with
  | none => pure none
  | some h => do
    let entry ← openEntry h
    pure (some entry)

/-- What is left of the data of the entry. -/
def remaining (s : ZipInputStream Z) : Nat :=
  s.entryDataEnd - (s.entryDataStart + s.entryDataOffset)

/-- Feed `inflate` with the next bytes of the entry; whether there are any. -/
def feed : Streaming Z Bool := do
  let s ← getState
  if s.fed.isEmpty then
    if s.remaining = 0 then pure false
    else do
      let bytes ← lift (readBytes s.data (s.entryDataStart + s.entryDataOffset)
        (min s.remaining 8192))
      modify fun s => { s with fed := bytes, entryDataOffset := s.entryDataOffset + bytes.length }
      pure true
  else pure true

/-- A call of `inflate`. -/
def callInflate (room : Nat) : Streaming Z (ZStep Z.InflateStream) := fun s =>
  match s.zstream with
  | none => (.error .outOfRange, s)
  | some stream =>
    let step := Z.inflate stream s.fed room
    (.ok step, { s with zstream := some step.stream, fed := s.fed.drop step.consumed })

/-- What zlib returned. -/
def statusCode : ZStatus → Int
  | .ok => 0
  | .streamEnd => 1
  | .streamError => -2
  | .dataError => -3
  | .other code => code

/-- The loop of `read` over `inflate`. -/
def inflateLoop : Nat → Nat → Bytes → Streaming Z Bytes
  | 0, _, _ => fail .noReturn
  | fuel + 1, room, out =>
    if room = 0 then pure out
    else do
      let more ← feed
      if more then do
        let step ← callInflate room
        if step.status = .streamEnd then do
          modify fun s => { s with zstreamDone := true }
          pure (out ++ step.output)
        else do
          failIf (step.status ≠ .ok) (.error .invalidFormat (ascii "zlib raw inflate failed (" ++
            ascii (toString (statusCode step.status)) ++
            ascii "): corrupted or incomplete deflate data"))
          inflateLoop fuel (room - step.output.length) (out ++ step.output)
      else pure out

/-- `read`: the bytes that are put into the buffer, and the number returned. -/
def read (fuel size : Nat) : Streaming Z (Bytes × Int) := do
  let s ← getState
  if s.entryOpen = false ∨ size = 0 then pure ([], 0)
  else if s.entryMethod = 0 then
    if min size s.remaining = 0 then pure ([], 0)
    else do
      let bytes ← lift
        (readBytes s.data (s.entryDataStart + s.entryDataOffset) (min size s.remaining))
      modify fun s => { s with entryDataOffset := s.entryDataOffset + bytes.length }
      pure (bytes, toInt bytes.length)
  else if s.entryMethod = 8 then
    if s.zstreamDone then pure ([], 0)
    else do
      let bytes ← inflateLoop fuel (toU32 size) []
      pure (bytes, toInt (size - (toU32 size - bytes.length)))
  else
    fail (.error .unsupported (ascii "Unsupported compression method: " ++
      toChars 10 s.entryMethod))

/-- `read_all`. `resize` to a negative count throws, which ends the run as an access out of range
does. -/
def readAll (fuel : Nat) : Streaming Z Bytes := do
  let s ← getState
  if s.entryOpen = false then pure []
  else if s.entryMethod = 0 then do
    let (bytes, count) ← read fuel s.remaining
    failIf (count < 0) .outOfRange
    pure (bytes.take count.toNat)
  else if s.entryMethod = 8 then
    if s.zstream.isSome && s.zstreamDone && s.remaining == 0 then do
      modify fun s => { s with zstream := none }
      pure []
    else do
      let bytes ← lift
        (readBytes s.data s.entryDataStart (s.entryDataEnd - s.entryDataStart))
      lift (inflateRaw Z fuel bytes)
  else
    fail (.error .unsupported (ascii "Unsupported compression method: " ++
      toChars 10 s.entryMethod))

end ZipInputStream

end Libca.Zip
