import Libca.Str.Utf8

/-!
# Reading text files (`fs/file_util.cpp` 278-307, `str/bom.cpp`)

* `FsError`: the errors of file operations, with their texts.
* `detectBom`, `bomByteLength`: the byte order marks; the four-byte ones are tried first.
* `readAllText`: `FileUtil::read_all_text` on the content of a file.
-/

namespace Libca.Fs

open Common Str

/-- `FsError`. -/
inductive FsError where
  | ok
  | fileNotFound
  | notARegularFile
  | notADirectory
  | openFailed
  | readFailed
  | writeFailed
  | permissionDenied
  | alreadyExists
  | diskFull
  | isADirectory
  | directoryNotEmpty
  | nameTooLong
  | tooManyOpenFiles
  | invalidUtf8
  | unknown
  | pathOutsideBase
  deriving DecidableEq

/-- `to_string(FsError)`. -/
def FsError.toString : FsError → Bytes
  | .ok => ascii "ok"
  | .fileNotFound => ascii "file not found"
  | .notARegularFile => ascii "not a regular file"
  | .notADirectory => ascii "not a directory"
  | .openFailed => ascii "failed to open file"
  | .readFailed => ascii "read failed"
  | .writeFailed => ascii "write failed"
  | .permissionDenied => ascii "permission denied"
  | .alreadyExists => ascii "file already exists"
  | .diskFull => ascii "disk full"
  | .isADirectory => ascii "is a directory"
  | .directoryNotEmpty => ascii "directory not empty"
  | .nameTooLong => ascii "name too long"
  | .tooManyOpenFiles => ascii "too many open files"
  | .invalidUtf8 => ascii "path is not valid UTF-8"
  | .unknown => ascii "unknown error"
  | .pathOutsideBase => ascii "path outside base"

/-! ## Byte order marks -/

/-- `BomType`. -/
inductive BomType where
  | none
  | utf8
  | utf16Le
  | utf16Be
  | utf32Le
  | utf32Be
  deriving DecidableEq

/-- `detect_bom`. -/
def detectBom (bytes : Bytes) : BomType :=
  if [0xFF, 0xFE, 0x00, 0x00].isPrefixOf bytes then .utf32Le
  else if [0x00, 0x00, 0xFE, 0xFF].isPrefixOf bytes then .utf32Be
  else if [0xEF, 0xBB, 0xBF].isPrefixOf bytes then .utf8
  else if [0xFF, 0xFE].isPrefixOf bytes then .utf16Le
  else if [0xFE, 0xFF].isPrefixOf bytes then .utf16Be
  else .none

/-- `bom_byte_length`. -/
def bomByteLength : BomType → Nat
  | .utf16Le => 2
  | .utf16Be => 2
  | .utf8 => 3
  | .utf32Le => 4
  | .utf32Be => 4
  | .none => 0

/-- `FileUtil::read_all_text`, on the outcome of reading the file. -/
def readAllText (file : Except FsError Bytes) (stripBom : Bool) : Except FsError Bytes :=
  match file with
  | .error err => .error err
  | .ok buffer =>
    if stripBom && !buffer.isEmpty then .ok (buffer.drop (bomByteLength (detectBom buffer)))
    else .ok buffer

/-- A text that starts with an ASCII character other than NUL has no byte order mark. -/
theorem detectBom_ascii {b : UInt8} (h : 0 < b ∧ b < 0x80) (bytes : Bytes) :
    detectBom (b :: bytes) = .none := by
  have hne : b ≠ 0xFF ∧ b ≠ 0x00 ∧ b ≠ 0xEF ∧ b ≠ 0xFE := by grind
  obtain ⟨h1, h2, h3, h4⟩ := hne
  simp [detectBom, List.isPrefixOf, h1.symm, h2.symm, h3.symm, h4.symm]

theorem readAllText_ascii {b : UInt8} (h : 0 < b ∧ b < 0x80) (bytes : Bytes) (stripBom : Bool) :
    readAllText (.ok (b :: bytes)) stripBom = .ok (b :: bytes) := by
  simp [readAllText, detectBom_ascii h, bomByteLength]

end Libca.Fs
