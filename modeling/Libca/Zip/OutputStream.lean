import Libca.Common.Fallible
import Libca.Common.LittleEndian
import Libca.Zip.Zlib

/-!
# Writing archives (`zip/output_stream.cpp` 16-353)

`ZipOutputStream` writes the entries one after the other and keeps their directory records until
`close`. There is no ZIP64 path: sizes and offsets are cut to 32 bits, name lengths to 16.

Every call of the C library can fail; `outcomes` lists what the next ones do. A loop over `deflate`
runs on fuel, and does not return when it is spent.
-/

namespace Libca.Zip

open Common Fallible

/-- `ZipError`. -/
inductive ZipError
  | notFound
  | invalidFormat
  | crcMismatch
  | unsupported
  | ioFailed
  | zlibError
  | invalidArgument
  | invalidState
  deriving DecidableEq

/-- How a function ends other than with a value: an error with its message, an access outside of an
object, or not at all. -/
inductive ZipStop
  | error (code : ZipError) (message : Bytes)
  | outOfRange
  | noReturn
  deriving DecidableEq

/-- An error with a message. -/
def zipError (code : ZipError) (message : String) : ZipStop := .error code (ascii message)

/-- What a call of the C library does: it succeeds, or it fails, a write after some bytes. -/
inductive Outcome
  | success
  | failure (written : Nat)

/-- The state of a stream; `file` is what was written. -/
structure ZipOutputStream (Z : Zlib) where
  file : Bytes := []
  opened : Bool := false
  level : Int := -1
  entryOpen : Bool := false
  entryName : Bytes := []
  entryMethod : Nat := 0
  currentCrc32 : UInt32 := 0
  currentCompressedSize : Nat := 0
  currentUncompressedSize : Nat := 0
  currentLocOffset : Nat := 0
  entryFlags : Nat := 0
  zstream : Option Z.DeflateStream := none
  crc32 : UInt32 := Z.crcInit
  cenData : Bytes := []
  totalEntries : Nat := 0
  outcomes : List Outcome := []

variable {Z : Zlib}

abbrev Writing (Z : Zlib) := Fallible (ZipOutputStream Z) ZipStop

def locSig : Nat := 0x04034b50
def cenSig : Nat := 0x02014b50
def endSig : Nat := 0x06054b50
def dataDescriptorSig : Nat := 0x08074b50

/-- The size of the buffers that take what `deflate` and `inflate` give. -/
def bufferSize : Nat := 8192

/-- The cast of a size or an offset to `u32`. -/
def toU32 (n : Nat) : Nat := n % 2 ^ 32

/-- `fwrite`, with the error of a short write. -/
def fwrite (bytes : Bytes) (message : String) : Writing Z Unit := fun s =>
  match s.outcomes with
  | .failure written :: outcomes =>
    (.error (zipError .ioFailed message),
      { s with file := s.file ++ bytes.take written, outcomes := outcomes })
  | _ => (.ok (), { s with file := s.file ++ bytes, outcomes := s.outcomes.tail })

/-- `fwrite` of bytes that may be none. -/
def fwriteNonempty (bytes : Bytes) (message : String) : Writing Z Unit :=
  if bytes.isEmpty then pure () else fwrite bytes message

/-- `deflate` into a buffer; a failed call leaves the stream as it is. -/
def callDeflate (flush : Flush) (input : Bytes) : Writing Z (ZStep Z.DeflateStream) := fun s =>
  match s.zstream with
  | none => (.error .outOfRange, s)
  | some stream =>
    match s.outcomes with
    | .failure _ :: outcomes =>
      (.ok { status := .streamError, stream := stream, consumed := 0, output := [] },
        { s with outcomes := outcomes })
    | _ =>
      let step := Z.deflate stream flush input bufferSize
      (.ok step, { s with zstream := some step.stream, outcomes := s.outcomes.tail })

/-- Write what `deflate` gave and count it. -/
def writeDeflated (output : Bytes) (message : String) : Writing Z Unit :=
  if output.isEmpty then pure ()
  else do
    fwrite output message
    modify fun s =>
      { s with currentCompressedSize := toU32 (s.currentCompressedSize + toU32 output.length) }

/-- The loop of `write` over `deflate`. -/
def deflateLoop : Nat → Bytes → Writing Z Unit
  | 0, _ => fail .noReturn
  | fuel + 1, input => do
    let step ← callDeflate .noFlush input
    failIf (step.status = .streamError) (zipError .zlibError "deflate stream error")
    writeDeflated step.output "Failed to write deflated data"
    if step.output.length = bufferSize then deflateLoop fuel (input.drop step.consumed) else pure ()

/-- The loop of `finish_and_release_zstream`. -/
def finishLoop : Nat → Writing Z Unit
  | 0 => fail .noReturn
  | fuel + 1 => do
    let step ← callDeflate .finish []
    failIf (step.status = .streamError) (zipError .zlibError "deflate stream error on finish")
    writeDeflated step.output "Failed to write final deflated data"
    if step.status = .streamEnd then pure () else finishLoop fuel

/-- `finish_and_release_zstream`: the stream is released in any case. -/
def finishAndReleaseZstream (fuel : Nat) : Writing Z Unit := do
  onError (fun s => { s with zstream := none }) (finishLoop fuel)
  modify fun s => { s with zstream := none }

/-- The data descriptor of an entry. -/
def dataDescriptor (crc compressed uncompressed : Nat) : Bytes :=
  toLe 4 dataDescriptorSig ++ (toLe 4 crc ++ (toLe 4 compressed ++ toLe 4 uncompressed))

/-- The 46 bytes of a directory record in front of the name. -/
def cenHeader (flags method crc compressed uncompressed nameLength offset : Nat) : Bytes :=
  toLe 4 cenSig ++ (toLe 2 20 ++ (toLe 2 20 ++ (toLe 2 flags ++ (toLe 2 method ++ (toLe 2 0 ++
    (toLe 2 0 ++ (toLe 4 crc ++ (toLe 4 compressed ++ (toLe 4 uncompressed ++ (toLe 2 nameLength ++
      (toLe 2 0 ++ (toLe 2 0 ++ (toLe 2 0 ++ (toLe 2 0 ++ (toLe 4 0 ++ toLe 4 offset)))))))))))))))

/-- The 30 bytes of a local header in front of the name. -/
def locHeader (flags method nameLength : Nat) : Bytes :=
  toLe 4 locSig ++ (toLe 2 20 ++ (toLe 2 flags ++ (toLe 2 method ++ (toLe 2 0 ++ (toLe 2 0 ++
    (toLe 4 0 ++ (toLe 4 0 ++ (toLe 4 0 ++ (toLe 2 nameLength ++ toLe 2 0)))))))))

/-- The end record. -/
def endRecord (entries size offset : Nat) : Bytes :=
  toLe 4 endSig ++ (toLe 2 0 ++ (toLe 2 0 ++ (toLe 2 entries ++ (toLe 2 entries ++ (toLe 4 size ++
    (toLe 4 offset ++ toLe 2 0))))))

/-- The end of `close_entry`, when the data is complete. -/
def recordEntry : Writing Z Unit := do
  modify fun s => { s with currentCrc32 := s.crc32 }
  let s ← getState
  fwrite (dataDescriptor s.currentCrc32.toNat s.currentCompressedSize s.currentUncompressedSize)
    "Failed to write data descriptor"
  modify fun s =>
    { s with
      cenData := s.cenData ++
        (cenHeader s.entryFlags s.entryMethod s.currentCrc32.toNat s.currentCompressedSize
          s.currentUncompressedSize s.entryName.length s.currentLocOffset ++ s.entryName) }
  failIf (s.totalEntries = 0xFFFF)
    (zipError .unsupported "ZipOutputStream: too many entries (max 65535 without ZIP64)")
  modify fun s =>
    { s with
      totalEntries := s.totalEntries + 1
      entryOpen := false
      entryName := []
      entryMethod := 0
      currentCrc32 := 0
      currentCompressedSize := 0
      currentUncompressedSize := 0
      currentLocOffset := 0
      entryFlags := 0 }

/-- `close_entry`. -/
def closeEntry (fuel : Nat) : Writing Z Unit := do
  let s ← getState
  if s.entryOpen then
    (if s.entryMethod = 8 then finishAndReleaseZstream fuel else pure ()) >>= fun _ => recordEntry
  else pure ()

/-- The compressor of a deflated entry. -/
def initDeflate : Writing Z Unit := fun s =>
  match s.outcomes, Z.deflateInit2 s.level with
  | .failure _ :: outcomes, _ =>
    (.error (zipError .zlibError "deflateInit2 failed"), { s with outcomes := outcomes })
  | _, none =>
    (.error (zipError .zlibError "deflateInit2 failed"), { s with outcomes := s.outcomes.tail })
  | _, some stream => (.ok (), { s with zstream := some stream, outcomes := s.outcomes.tail })

/-- `put_next_entry`. -/
def putNextEntry (fuel : Nat) (name : Bytes) (method : Nat) : Writing Z Unit := do
  let s ← getState
  failIf (s.opened = false) (zipError .invalidState "ZipOutputStream is not open")
  closeEntry fuel
  modify fun s =>
    { s with
      entryName := name
      entryMethod := method
      currentCrc32 := 0
      crc32 := Z.crcInit
      currentCompressedSize := 0
      currentUncompressedSize := 0
      entryFlags := 0x0808
      currentLocOffset := toU32 s.file.length }
  fwrite (locHeader 0x0808 method name.length) "Failed to write LOC header"
  fwriteNonempty name "Failed to write entry name"
  if method = 8 then initDeflate else pure ()
  modify fun s => { s with entryOpen := true }

/-- `write`; zlib takes the size of the data as a 32-bit number. -/
def write (fuel : Nat) (data : Bytes) : Writing Z Unit := do
  let s ← getState
  failIf (s.entryOpen = false) (zipError .invalidState "No entry to write to")
  if data.length = 0 then pure ()
  else do
    modify fun s =>
      { s with
        crc32 := Z.crc32 s.crc32 (data.take (toU32 data.length))
        currentUncompressedSize := toU32 (s.currentUncompressedSize + toU32 data.length) }
    if s.entryMethod = 0 then do
      fwrite data "Failed to write stored data"
      modify fun s =>
        { s with currentCompressedSize := toU32 (s.currentCompressedSize + toU32 data.length) }
    else deflateLoop fuel (data.take (toU32 data.length))

/-- `fopen` with `"wb"`. -/
def createFile (path : Bytes) : Writing Z Unit := fun s =>
  match s.outcomes with
  | .failure _ :: outcomes =>
    (.error (.error .ioFailed (ascii "Failed to open file for writing: " ++ path)),
      { s with outcomes := outcomes })
  | _ => (.ok (), { s with file := [], outcomes := s.outcomes.tail })

/-- `open`. -/
def openFile (path : Bytes) : Writing Z Unit := do
  let s ← getState
  failIf (s.opened = true) (zipError .invalidState "ZipOutputStream already open")
  createFile path
  modify fun s => { s with opened := true }

/-- `close`. -/
def close (fuel : Nat) : Writing Z Unit := do
  let s ← getState
  if s.opened then do
    closeEntry fuel
    let s ← getState
    fwriteNonempty s.cenData "Failed to write CEN entries"
    fwrite (endRecord s.totalEntries (toU32 s.cenData.length) (toU32 s.file.length))
      "Failed to write EOCD"
    modify fun s => { s with opened := false, cenData := [], totalEntries := 0 }
  else pure ()

end Libca.Zip
