import Libca.Common.Except
import Libca.Zip.File

/-!
# The layout of an archive (`zip/file.cpp`)

* `archive rs`: the local parts of the records `rs`, the directory and the end record.
* `parse_archive`: the reader finds the directory and in it the records, as long as nothing was cut
  (`Fits`).
* `readEntry_record`: it finds the data of a record, and the content in it.
-/

namespace Libca.Zip

open Common

/-- An entry as it is written: `data` is what is stored for `content`. -/
structure Record where
  name : Bytes
  method : Nat
  content : Bytes
  data : Bytes
  crc : UInt32

namespace Record

/-- The local header with the name. -/
def header (r : Record) : Bytes := locHeader 0x0808 r.method r.name.length ++ r.name

/-- The local part of a record. -/
def localPart (r : Record) : Bytes :=
  r.header ++ (r.data ++
    dataDescriptor r.crc.toNat (toU32 r.data.length) (toU32 r.content.length))

/-- The directory record. -/
def cenPart (r : Record) (offset : Nat) : Bytes :=
  cenHeader 0x0808 r.method r.crc.toNat (toU32 r.data.length) (toU32 r.content.length) r.name.length
    (toU32 offset) ++ r.name

/-- The entry that the reader makes of a record. -/
def entry (r : Record) (offset : Nat) : ZipEntry :=
  { name := r.name
    compressedSize := r.data.length
    uncompressedSize := r.content.length
    compressionMethod := r.method
    crc32 := r.crc.toNat
    relativeOffset := offset
    extraField := [] }

end Record

/-- The local parts, one after the other. -/
def localParts (rs : List Record) : Bytes := rs.flatMap Record.localPart

/-- The directory of records whose local parts begin at an offset. -/
def directory : Nat → List Record → Bytes
  | _, [] => []
  | offset, r :: rs => r.cenPart offset ++ directory (offset + r.localPart.length) rs

/-- The entries of records whose local parts begin at an offset. -/
def entriesAt : Nat → List Record → List ZipEntry
  | _, [] => []
  | offset, r :: rs => r.entry offset :: entriesAt (offset + r.localPart.length) rs

/-- A complete archive. -/
def archive (rs : List Record) : Bytes :=
  localParts rs ++ (directory 0 rs ++
    endRecord rs.length (toU32 (directory 0 rs).length) (toU32 (localParts rs).length))

/-- Nothing of a record is cut. -/
structure Record.Fits (r : Record) : Prop where
  name : r.name.length < 2 ^ 16
  method : r.method < 2 ^ 16
  content : r.content.length < 2 ^ 32 - 1

/-- Nothing of an archive is cut, and no field has a value that stands for a ZIP64 one. -/
structure Fits (rs : List Record) : Prop where
  record : ∀ r ∈ rs, r.Fits
  count : rs.length < 2 ^ 16 - 1
  locals : (localParts rs).length < 2 ^ 32 - 1
  directory : (directory 0 rs).length < 2 ^ 32 - 1

variable {data rest : Bytes} {rs : List Record} {r : Record}

/-! ## Reading numbers and bytes -/

theorem toU32_of_lt {n : Nat} (h : n < 2 ^ 32) : toU32 n = n := Nat.mod_eq_of_lt h

theorem readNumber_field {w n p k : Nat} {record : Bytes} (h : record <+: data.drop p)
    (hfield : record.drop k = toLe w n ++ rest) (hw : 0 < w) (hn : n < 256 ^ w) :
    readNumber w data (p + k) = .ok n := by
  unfold readNumber
  rw [readLe_field h hfield hw, Nat.mod_eq_of_lt hn]

theorem readBytes_of_prefix {p : Nat} {bytes : Bytes} (h : bytes <+: data.drop p)
    (hp : p ≤ data.length) : readBytes data p bytes.length = .ok bytes := by
  have hlength := h.length_le
  rw [List.length_drop] at hlength
  obtain ⟨after, hafter⟩ := h
  unfold readBytes
  rw [if_pos (by omega), ← hafter, List.take_left' rfl]

theorem rejectIf_of_not {c : Prop} [Decidable c] (h : ¬ c) (code : ZipError) (message : String) :
    rejectIf c code message = .ok () :=
  if_neg h

@[simp] theorem length_locHeader (flags method nameLength : Nat) :
    (locHeader flags method nameLength).length = 30 := rfl

@[simp] theorem length_cenHeader
    (flags method crc compressed uncompressed nameLength offset : Nat) :
    (cenHeader flags method crc compressed uncompressed nameLength offset).length = 46 := rfl

@[simp] theorem length_dataDescriptor (crc compressed uncompressed : Nat) :
    (dataDescriptor crc compressed uncompressed).length = 16 := rfl

@[simp] theorem length_endRecord (entries size offset : Nat) :
    (endRecord entries size offset).length = 22 := rfl

theorem length_cenPart (r : Record) (offset : Nat) :
    (r.cenPart offset).length = 46 + r.name.length := by
  rw [Record.cenPart, List.length_append, length_cenHeader]

theorem length_localPart (r : Record) :
    r.localPart.length = 46 + r.name.length + r.data.length := by
  rw [Record.localPart, Record.header, List.length_append, List.length_append, List.length_append,
    length_locHeader, length_dataDescriptor]
  omega

/-! ## One directory record -/

variable {offset : Nat}

theorem absoluteOffset_zero (h : offset < 2 ^ 32) : absoluteOffset 0 offset = .ok offset := by
  have hcast : toPtrdiff offset = (offset : Int) := if_pos (h.trans (by decide))
  unfold absoluteOffset
  rw [hcast, Int.add_zero, if_neg (Int.not_lt.mpr (Int.natCast_nonneg offset)), Int.toNat_natCast]

theorem resolveField_of_lt {raw : Nat} (h : raw < 2 ^ 32 - 1) (extra : Bytes)
    (usize csize relOffset fieldIndex : Nat) (message : String) :
    resolveField extra usize csize relOffset fieldIndex raw message = .ok raw :=
  if_neg (Nat.ne_of_lt h)

theorem checkedCastU32_of_lt {value : Nat} (h : value < 2 ^ 32) (what : String) :
    checkedCastU32 value what = .ok value :=
  if_neg (by omega)

/-- **A directory record is read back.** -/
theorem readCenEntry_cenPart {cen remaining : Nat} (hr : r.Fits)
    (hdata : r.data.length < 2 ^ 32 - 1) (hoffset : offset < 2 ^ 32 - 1)
    (h : r.cenPart offset <+: data.drop cen) (hremaining : (r.cenPart offset).length ≤ remaining)
    (hcen : cen ≤ data.length) :
    readCenEntry data 0 cen remaining = .ok (r.entry offset, (r.cenPart offset).length) := by
  have hcrc : r.crc.toNat < 256 ^ 4 := r.crc.toNat_lt
  have hcontent := hr.content
  have hdata32 := toU32_of_lt (n := r.data.length) (by omega)
  have hcontent32 := toU32_of_lt (n := r.content.length) (by omega)
  have hoffset32 := toU32_of_lt (n := offset) (by omega)
  rw [length_cenPart] at hremaining ⊢
  have hfield : ∀ {w n k : Nat} {rest : Bytes}, (r.cenPart offset).drop k = toLe w n ++ rest →
    0 < w → n < 256 ^ w → readNumber w data (cen + k) = .ok n := fun hk hw hn =>
    readNumber_field h hk hw hn
  have hsig : readU32 data cen = .ok cenSig := hfield (k := 0) rfl (by decide) (by decide)
  have hname : readU16 data (cen + 28) = .ok r.name.length := hfield rfl (by decide) hr.name
  have hextra : readU16 data (cen + 30) = .ok 0 := hfield rfl (by decide) (by decide)
  have hcomment : readU16 data (cen + 32) = .ok 0 := hfield rfl (by decide) (by decide)
  have hmethod : readU16 data (cen + 10) = .ok r.method := hfield rfl (by decide) hr.method
  have hcrc' : readU32 data (cen + 16) = .ok r.crc.toNat := hfield rfl (by decide) hcrc
  have hcsize : readU32 data (cen + 20) = .ok r.data.length := by
    have hcut : readU32 data (cen + 20) = .ok (toU32 r.data.length) :=
      hfield rfl (by decide) (Nat.mod_lt _ (by decide))
    rw [hcut, hdata32]
  have husize : readU32 data (cen + 24) = .ok r.content.length := by
    have hcut : readU32 data (cen + 24) = .ok (toU32 r.content.length) :=
      hfield rfl (by decide) (Nat.mod_lt _ (by decide))
    rw [hcut, hcontent32]
  have hrel : readU32 data (cen + 42) = .ok offset := by
    have hcut : readU32 data (cen + 42) = .ok (toU32 offset) :=
      hfield rfl (by decide) (Nat.mod_lt _ (by decide))
    rw [hcut, hoffset32]
  have hlength := h.length_le
  rw [length_cenPart, List.length_drop] at hlength
  have hnameBytes : readBytes data (cen + 46) r.name.length = .ok r.name := by
    refine readBytes_of_prefix ?_ (by omega)
    rw [← List.drop_drop]
    exact h.drop 46
  have hnone : readBytes data (cen + 46 + r.name.length) 0 = .ok [] :=
    readBytes_of_prefix (List.nil_prefix) (by omega)
  unfold readCenEntry
  rw [rejectIf_of_not (by omega), except_ok_bind, hsig, except_ok_bind,
    rejectIf_of_not (not_not.mpr rfl), except_ok_bind, hname, except_ok_bind, hextra,
      except_ok_bind,
    hcomment, except_ok_bind, rejectIf_of_not (by omega), except_ok_bind, hmethod, except_ok_bind,
    hcrc', except_ok_bind, hcsize, except_ok_bind, husize, except_ok_bind, hrel, except_ok_bind,
    absoluteOffset_zero (by omega), except_ok_bind, hnameBytes, except_ok_bind, hnone,
      except_ok_bind,
    resolveField_of_lt hcontent, except_ok_bind, resolveField_of_lt hdata, except_ok_bind,
    resolveField_of_lt hoffset, except_ok_bind, absoluteOffset_zero (by omega), except_ok_bind,
    checkedCastU32_of_lt (by omega), except_ok_bind, checkedCastU32_of_lt (by omega),
      except_ok_bind,
    checkedCastU32_of_lt (by omega), except_ok_bind]
  rfl

/-! ## The directory -/

theorem length_directory_cons (offset : Nat) (r : Record) (rs : List Record) :
    (directory offset (r :: rs)).length =
      46 + r.name.length + (directory (offset + r.localPart.length) rs).length := by
  rw [directory, List.length_append, length_cenPart]

/-- **The directory is read back**, after the entries that were read before. -/
theorem readCen_directory {entryCount cenEnd fuel cen : Nat} {entries : List ZipEntry}
    (hfits : ∀ r ∈ rs, r.Fits) (hlocals : offset + (localParts rs).length < 2 ^ 32 - 1)
    (hcount : entries.length + rs.length = entryCount)
    (h : directory offset rs <+: data.drop cen) (hcen : cen ≤ data.length)
    (hend : cenEnd = cen + (directory offset rs).length)
    (hfuel : (directory offset rs).length < fuel) :
    readCen data entryCount 0 cenEnd fuel cen entries = .ok (entries ++ entriesAt offset rs) := by
  induction rs generalizing fuel cen offset entries with
  | nil =>
    obtain ⟨fuel, rfl⟩ := Nat.exists_eq_succ_of_ne_zero (Nat.ne_of_gt hfuel)
    rw [directory, List.length_nil, Nat.add_zero] at hend
    rw [List.length_nil, Nat.add_zero] at hcount
    unfold readCen
    rw [if_neg (by omega), entriesAt, List.append_nil]
  | cons r rs ih =>
    obtain ⟨fuel, rfl⟩ := Nat.exists_eq_succ_of_ne_zero (Nat.ne_of_gt (Nat.zero_lt_of_lt hfuel))
    have hlength := length_directory_cons offset r rs
    rw [localParts, List.flatMap_cons, List.length_append] at hlocals
    have hsize := length_localPart r
    have hpart : r.cenPart offset <+: data.drop cen := (List.prefix_append _ _).trans h
    have hentry : readCenEntry data 0 cen (cenEnd - cen) =
        .ok (r.entry offset, (r.cenPart offset).length) := by
      refine readCenEntry_cenPart (hfits r List.mem_cons_self) (by omega) (by omega) hpart ?_ hcen
      rw [length_cenPart]
      omega
    have hrest : directory (offset + r.localPart.length) rs <+:
        data.drop (cen + (r.cenPart offset).length) := by
      rw [← List.drop_drop]
      have hdrop := h.drop (r.cenPart offset).length
      rwa [directory, List.drop_left' rfl] at hdrop
    have hbound := h.length_le
    rw [hlength, List.length_drop] at hbound
    rw [List.length_cons] at hcount
    unfold readCen
    rw [if_pos (.inr (by omega)), hentry, except_ok_bind]
    dsimp only
    rw [length_cenPart] at hrest ⊢
    rw [ih (fun q hq => hfits q (.tail _ hq)) (by rw [localParts]; omega)
      (by rw [List.length_append, List.length_singleton]; omega) hrest (by omega) (by omega)
        (by omega)]
    rw [List.append_assoc, entriesAt]
    rfl

/-- The directory begins with a signature unless it is empty. -/
theorem cenSigAt_directory {cen : Nat} (hne : rs ≠ [])
    (h : directory offset rs <+: data.drop cen) : cenSigAt data cen = .ok true := by
  cases rs with
  | nil => exact absurd rfl hne
  | cons r rs =>
    have hlength := h.length_le
    rw [length_directory_cons, List.length_drop] at hlength
    have hsig : readU32 data (cen + 0) = .ok cenSig :=
      readNumber_field h (k := 0) rfl (by decide) (by decide)
    unfold cenSigAt whenTrue
    rw [if_pos (by omega), ← Nat.add_zero cen, hsig, except_ok_bind]
    rfl

/-! ## The whole archive -/

/-- Where the parts of an archive are. -/
structure Parts (rs : List Record) (data : Bytes) : Prop where
  locals : localParts rs <+: data
  directory : directory 0 rs <+: data.drop (localParts rs).length
  ending : endRecord rs.length (toU32 (Zip.directory 0 rs).length)
    (toU32 (localParts rs).length) <+:
    data.drop ((localParts rs).length + (Zip.directory 0 rs).length)
  length : data.length = (localParts rs).length + (Zip.directory 0 rs).length + 22

theorem parts_archive (rs : List Record) : Parts rs (archive rs) where
  locals := List.prefix_append _ _
  directory := by
    rw [archive, List.drop_left' rfl]
    exact List.prefix_append _ _
  ending := by
    rw [archive, ← List.drop_drop, List.drop_left' rfl, List.drop_left' rfl]
  length := by
    rw [archive, List.length_append, List.length_append, length_endRecord, Nat.add_assoc]

theorem findJvmStyleEnd_archive (h : Parts rs data) :
    findJvmStyleEnd data = .ok ((localParts rs).length + (directory 0 rs).length) := by
  have hlength := h.length
  have hsig : readU32 data ((localParts rs).length + (directory 0 rs).length + 0) = .ok endSig :=
    readNumber_field h.ending (k := 0) rfl (by decide) (by decide)
  have hcomment : readU16 data ((localParts rs).length + (directory 0 rs).length + 20) = .ok 0 :=
    readNumber_field h.ending rfl (by decide) (by decide)
  have hvalid : isValidEndCandidate data ((localParts rs).length + (directory 0 rs).length) =
    .ok true := by
    unfold isValidEndCandidate minEndSize
    rw [if_neg (by omega), hcomment, except_ok_bind, hlength, Nat.add_zero, beq_self_eq_true]
  have hstart : data.length - 22 + 1 = (localParts rs).length + (directory 0 rs).length + 1 := by
    omega
  unfold findJvmStyleEnd minEndSize maxCommentSize
  rw [if_neg (by omega), hstart]
  unfold findEndFrom
  rw [if_pos (by split_ifs <;> omega), ← Nat.add_zero (_ + _), hsig, except_ok_bind, Nat.add_zero,
    whenTrue, if_pos rfl, hvalid, except_ok_bind, if_pos rfl]

theorem resolveEndRecord_archive (h : Parts rs data) (hfits : Fits rs) :
    resolveEndRecord data ((localParts rs).length + (directory 0 rs).length) =
      .ok
        { entryCount := rs.length
          centralDirectorySize := (directory 0 rs).length
          centralDirectoryOffset := (localParts rs).length
          centralDirectoryEnd := (localParts rs).length + (directory 0 rs).length } := by
  have hcount := hfits.count
  have hlocals := hfits.locals
  have hdirectory := hfits.directory
  have hlocals32 := toU32_of_lt (n := (localParts rs).length) (by omega)
  have hdirectory32 := toU32_of_lt (n := (directory 0 rs).length) (by omega)
  have hentries : readU16 data ((localParts rs).length + (directory 0 rs).length + 10) =
      .ok rs.length :=
    readNumber_field h.ending rfl (by decide) (by omega)
  have hsize : readU32 data ((localParts rs).length + (directory 0 rs).length + 12) =
      .ok (toU32 (directory 0 rs).length) :=
    readNumber_field h.ending rfl (by decide) (Nat.mod_lt _ (by decide))
  have hoffset : readU32 data ((localParts rs).length + (directory 0 rs).length + 16) =
      .ok (toU32 (localParts rs).length) :=
    readNumber_field h.ending rfl (by decide) (Nat.mod_lt _ (by decide))
  unfold resolveEndRecord
  rw [hentries, except_ok_bind, hsize, except_ok_bind, hoffset, except_ok_bind, hdirectory32,
    hlocals32, if_neg (by omega)]

theorem locateCen_archive (h : Parts rs data) :
    locateCen data
      { entryCount := rs.length
        centralDirectorySize := (directory 0 rs).length
        centralDirectoryOffset := (localParts rs).length
        centralDirectoryEnd := (localParts rs).length + (directory 0 rs).length } =
      .ok (localParts rs).length := by
  have hlength := h.length
  have hin : decide ((localParts rs).length ≤ data.length) = true := decide_eq_true (by omega)
  have hroom : decide (data.length - (localParts rs).length < (directory 0 rs).length) = false :=
    decide_eq_false (by omega)
  have hanchor : decide ((localParts rs).length + (directory 0 rs).length - (localParts rs).length <
      (directory 0 rs).length) = false :=
    decide_eq_false (by omega)
  have hsigned : ∃ signed, whenTrue ((directory 0 rs).length ≠ 0 ∧ (true : Bool) = true)
      (cenSigAt data (localParts rs).length) = .ok signed ∧
        ((directory 0 rs).length == 0 || signed) = true := by
    by_cases hne : rs = []
    · subst hne
      exact ⟨false, rfl, rfl⟩
    · by_cases hzero : (directory 0 rs).length = 0
      · exact ⟨false, if_neg fun h => h.1 hzero, by rw [hzero]; rfl⟩
      · refine ⟨true, ?_, Bool.or_true _⟩
        rw [whenTrue, if_pos ⟨hzero, rfl⟩]
        exact cenSigAt_directory hne h.directory
  obtain ⟨signed, hsigned, hvalid⟩ := hsigned
  unfold locateCen
  dsimp only
  rw [hin, if_pos rfl, hsigned, except_ok_bind, hvalid, hroom, hanchor,
    rejectIf_of_not (by simp), except_ok_bind]
  simp

/-- **An archive is read back.** -/
theorem parse_archive (h : Parts rs data) (hfits : Fits rs) : parse data =
    .ok (entriesAt 0 rs) := by
  have hlength := h.length
  have hlocals := hfits.locals
  have hbase : ((localParts rs).length : Int) - toPtrdiff (localParts rs).length = 0 := by
    rw [toPtrdiff, if_pos (hlocals.trans (by decide)), Int.sub_self]
  have hsigned : ∃ signed, whenTrue (0 < (directory 0 rs).length)
      (cenSigAt data (localParts rs).length) = .ok signed ∧
        ¬ (0 < (directory 0 rs).length ∧ signed = false) := by
    by_cases hne : rs = []
    · subst hne
      exact ⟨false, rfl, fun h => absurd h.1 (Nat.lt_irrefl 0)⟩
    · by_cases hzero : 0 < (directory 0 rs).length
      · refine ⟨true, ?_, fun h => absurd h.2 (by decide)⟩
        rw [whenTrue, if_pos hzero]
        exact cenSigAt_directory hne h.directory
      · exact ⟨false, if_neg hzero, fun h => hzero h.1⟩
  obtain ⟨signed, hsigned, hvalid⟩ := hsigned
  unfold parse
  rw [findJvmStyleEnd_archive h, except_ok_bind, resolveEndRecord_archive h hfits, except_ok_bind]
  dsimp only
  rw [locateCen_archive h, except_ok_bind, rejectIf_of_not (by omega), except_ok_bind, hsigned,
    except_ok_bind, rejectIf_of_not hvalid, except_ok_bind, hbase,
    readCen_directory hfits.record (by omega) (by simp) h.directory (by omega) rfl
      (Nat.lt_succ_self _),
    List.nil_append]

/-! ## The data of an entry -/

section

variable {Z : Zlib} {Compressed : Bytes → Bytes → Prop} {I : Z.InflateStream → Bytes → Bytes → Prop}

/-- **The loop over `inflate`** gives all that the stream has to give, with fuel for each round. -/
theorem inflateLoop_eq (hI : Z.Inflates Compressed I) {fuel : Nat} {stream : Z.InflateStream}
    {input rest : Bytes} (out : Bytes) (h : I stream input rest)
    (hfuel : input.length + rest.length < fuel) :
    inflateLoop Z fuel stream input out = .ok (out ++ rest) := by
  induction fuel generalizing stream input rest out with
  | zero => exact absurd hfuel (Nat.not_lt_zero _)
  | succ fuel ih =>
    have houtput := hI.output stream input rest bufferSize h
    unfold inflateLoop
    dsimp only
    obtain ⟨hstatus, hroom⟩ | ⟨hstatus, hnext, hprogress⟩ :=
      hI.status stream input rest bufferSize (by decide) h <;> rw [hstatus]
    · dsimp only
      rw [houtput, List.take_of_length_le hroom]
    · dsimp only
      rw [ih _ hnext (by omega), houtput, List.append_assoc, List.take_append_drop]

theorem inflateRaw_eq (hI : Z.Inflates Compressed I) {fuel : Nat} {z c : Bytes} (h : Compressed z c)
    (hlength : z.length < 2 ^ 32) (hfuel : z.length + c.length < fuel) :
    inflateRaw Z fuel z = .ok c := by
  obtain ⟨stream, hinit, hI'⟩ := hI.init
  unfold inflateRaw
  rw [hinit, toU32_of_lt hlength, List.take_length]
  dsimp only
  rw [inflateLoop_eq hI [] (hI' z c h) hfuel, List.nil_append]

/-- The data of a record stands for its content. -/
structure Record.Encodes (Z : Zlib) (Compressed : Bytes → Bytes → Prop) (r : Record) : Prop where
  method : r.method = 0 ∧ r.data = r.content ∨
    r.method = 8 ∧ (r.content.length < 2 ^ 32 → Compressed r.data r.content)
  crc : r.content.length < 2 ^ 32 → r.crc = Z.crc32 Z.crcInit r.content

/-- An entry leads to a record at an offset. -/
structure Record.EntryOf (r : Record) (offset : Nat) (e : ZipEntry) : Prop where
  offset : e.relativeOffset = offset
  size : e.compressedSize = r.data.length
  method : e.compressionMethod = r.method
  crc : e.crc32 = r.crc.toNat

/-- **The content of a record is read back.** -/
theorem readEntry_record (hI : Z.Inflates Compressed I) {offset fuel : Nat} {e : ZipEntry}
    (he : r.EntryOf offset e) (hr : r.Fits) (hencodes : r.Encodes Z Compressed)
    (hdata : r.data.length < 2 ^ 32)
    (h : r.localPart <+: data.drop offset) (hoffset : offset ≤ data.length)
    (hfuel : r.data.length + r.content.length < fuel) :
    readEntry Z fuel data e = .ok r.content := by
  have hcontent := hr.content
  have hlength := h.length_le
  rw [length_localPart, List.length_drop] at hlength
  have hheader : r.header <+: data.drop offset := (List.prefix_append _ _).trans h
  have hsig : readU32 data offset = .ok locSig :=
    readNumber_field hheader (k := 0) rfl (by decide) (by decide)
  have hname : readU16 data (offset + 26) = .ok r.name.length :=
    readNumber_field hheader rfl (by decide) hr.name
  have hextra : readU16 data (offset + 28) = .ok 0 :=
    readNumber_field hheader rfl (by decide) (by decide)
  have hbytes : readBytes data (offset + (30 + r.name.length + 0)) r.data.length = .ok r.data := by
    refine readBytes_of_prefix ?_ (by omega)
    have hdrop := h.drop (30 + r.name.length)
    have hheaderLength : r.header.length = 30 + r.name.length := by
      rw [Record.header, List.length_append, length_locHeader]
    rw [Record.localPart, ← hheaderLength, List.drop_left' rfl, List.drop_drop] at hdrop
    rw [Nat.add_zero, ← hheaderLength]
    exact (List.prefix_append _ _).trans hdrop
  have hcrc : crcOf Z r.content = r.crc.toNat := by
    rw [crcOf, toU32_of_lt (by omega), List.take_length, hencodes.crc (by omega)]
  unfold readEntry
  rw [he.offset, he.size, he.method, he.crc]
  dsimp only
  rw [rejectIf_of_not (by omega), except_ok_bind, hsig, except_ok_bind,
    rejectIf_of_not (not_not.mpr rfl), except_ok_bind, hname, except_ok_bind, hextra,
      except_ok_bind,
    rejectIf_of_not (by omega), except_ok_bind, rejectIf_of_not (by omega),
    except_ok_bind, hbytes, except_ok_bind]
  obtain ⟨hmethod, hstored⟩ | ⟨hmethod, hdeflated⟩ := hencodes.method
  · rw [if_pos hmethod, hstored, rejectIf_of_not (not_not.mpr hcrc), except_ok_bind]
  · rw [if_neg (by omega), if_pos hmethod, inflateRaw_eq hI (hdeflated (by omega)) hdata hfuel,
      except_ok_bind, rejectIf_of_not (not_not.mpr hcrc), except_ok_bind]

end

/-- The last record with a name is the one that its entry leads to. -/
theorem find_entriesAt {name pre : Bytes} (hpre : pre.length = offset) :
    (rs.reverse.find? (fun r => r.name == name) = none →
      (entriesAt offset rs).reverse.find? (fun e => e.name == name) = none) ∧
    ∀ r, rs.reverse.find? (fun r => r.name == name) = some r →
      ∃ o, (entriesAt offset rs).reverse.find? (fun e => e.name == name) = some (r.entry o) ∧
        r.localPart <+: (pre ++ localParts rs).drop o ∧ o ≤ (pre ++ localParts rs).length := by
  induction rs generalizing offset pre with
  | nil =>
    refine ⟨fun _ => rfl, fun r hr => ?_⟩
    cases hr
  | cons q rs ih =>
    have hpre' : (pre ++ q.localPart).length = offset + q.localPart.length := by
      rw [List.length_append, hpre]
    obtain ⟨hnone, hsome⟩ := ih hpre'
    have hlocals : pre ++ localParts (q :: rs) = pre ++ q.localPart ++ localParts rs := by
      rw [localParts, List.flatMap_cons, List.append_assoc]
      rfl
    rw [hlocals, List.reverse_cons, List.find?_append, entriesAt, List.reverse_cons,
      List.find?_append, List.find?_singleton, List.find?_singleton]
    cases hfind : rs.reverse.find? (fun r => r.name == name) with
    | some r' =>
      refine ⟨fun h => (by cases h), fun r hr => ?_⟩
      cases hr
      obtain ⟨o, ho, hstands, hle⟩ := hsome r' hfind
      exact ⟨o, by rw [ho]; rfl, hstands, hle⟩
    | none =>
      rw [hnone hfind, Option.none_or, Option.none_or]
      change ((if (q.name == name) = true then some q else none) = none →
        (if (q.name == name) = true then some (q.entry offset) else none) = none) ∧ _
      by_cases hname : (q.name == name) = true
      · rw [if_pos hname, if_pos hname]
        refine ⟨fun h => (by cases h), fun r hr => ?_⟩
        cases hr
        refine ⟨offset, if_pos hname, ?_, ?_⟩
        · rw [← hpre, List.append_assoc, List.drop_left' rfl]
          exact List.prefix_append _ _
        · rw [List.length_append, List.length_append]
          omega
      · rw [if_neg hname, if_neg hname]
        exact ⟨fun _ => rfl, fun r hr => (by cases hr)⟩

end Libca.Zip
