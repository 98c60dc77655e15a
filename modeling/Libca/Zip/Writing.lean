import Libca.Zip.Archive

/-!
# What a stream has written (`zip/output_stream.cpp`)

* `Between rs w`: the entries `rs` are written; `Within rs r w`: the entry `r` is open after them;
  `Finished rs w`: the archive is complete.
* `deflateLoop_ok`, `finishLoop_ok`: the loops over `deflate` add to the file what the compressor
  gives, and the compressor then stands for what it took.
* `beginEntry_ok`, `write_ok`, `closeEntry_ok`, `close_ok`: what the file, the directory and the
  open entry are after a call that succeeds; after `close` the file is `archive rs`.
-/

namespace Libca.Zip

open Common Fallible

variable {Z : Zlib} {Compressed : Bytes → Bytes → Prop} {D : Z.DeflateStream → Bytes → Bytes → Prop}
  {w w' : ZipOutputStream Z} {rs : List Record} {r : Record}

/-- Between two entries: `rs` are written. -/
structure Between (Compressed : Bytes → Bytes → Prop) (rs : List Record) (w : ZipOutputStream Z) :
    Prop where
  opened : w.opened = true
  entryOpen : w.entryOpen = false
  file : w.file = localParts rs
  cenData : w.cenData = directory 0 rs
  totalEntries : w.totalEntries = rs.length
  encodes : ∀ r ∈ rs, r.Encodes Z Compressed

/-- In an entry: `r` is what is written of it so far. The checksum follows the content as long as no
size was cut. -/
structure Inside (Compressed : Bytes → Bytes → Prop) (rs : List Record) (r : Record)
    (w : ZipOutputStream Z) : Prop where
  opened : w.opened = true
  entryOpen : w.entryOpen = true
  entryName : w.entryName = r.name
  entryMethod : w.entryMethod = r.method
  entryFlags : w.entryFlags = 0x0808
  file : w.file = localParts rs ++ (r.header ++ r.data)
  locOffset : w.currentLocOffset = toU32 (localParts rs).length
  compressedSize : w.currentCompressedSize = toU32 r.data.length
  uncompressedSize : w.currentUncompressedSize = toU32 r.content.length
  cenData : w.cenData = directory 0 rs
  totalEntries : w.totalEntries = rs.length
  crc32 : w.crc32 = r.crc
  crc : r.content.length < 2 ^ 32 → r.crc = Z.crc32 Z.crcInit r.content
  encodes : ∀ r ∈ rs, r.Encodes Z Compressed

/-- In an entry, and what is stored so far stands for the content. -/
structure Within (Compressed : Bytes → Bytes → Prop) (D : Z.DeflateStream → Bytes → Bytes → Prop)
    (rs : List Record) (r : Record) (w : ZipOutputStream Z) : Prop
    extends Inside Compressed rs r w where
  data : r.method = 0 ∧ r.data = r.content ∨
    r.method = 8 ∧ ∃ stream, w.zstream = some stream ∧
      (r.content.length < 2 ^ 32 → D stream r.content r.data)

/-- After `close`. -/
structure Finished (Compressed : Bytes → Bytes → Prop) (rs : List Record) (w : ZipOutputStream Z) :
    Prop where
  opened : w.opened = false
  entryOpen : w.entryOpen = false
  file : w.file = archive rs
  encodes : ∀ r ∈ rs, r.Encodes Z Compressed

/-! ## Writing to the file -/

variable {message : String} {u : Unit}

theorem fwrite_ok {bytes : Bytes} (h : fwrite bytes message w = (.ok u, w')) :
    ∃ outcomes, w' = { w with file := w.file ++ bytes, outcomes := outcomes } := by
  unfold fwrite at h
  split at h
  · cases h
  · cases h
    exact ⟨_, rfl⟩

theorem fwriteNonempty_ok {bytes : Bytes} (h : fwriteNonempty bytes message w = (.ok u, w')) :
    ∃ outcomes, w' = { w with file := w.file ++ bytes, outcomes := outcomes } := by
  unfold fwriteNonempty at h
  split_ifs at h with hempty
  · cases h
    rw [List.isEmpty_iff.mp hempty]
    exact ⟨w.outcomes, by rw [List.append_nil]⟩
  · exact fwrite_ok h

/-! ## The loops over deflate -/

theorem toU32_add_toU32 (a b : Nat) : toU32 (a + toU32 b) = toU32 (a + b) := Nat.add_mod_mod a b _

theorem toU32_toU32_add (a b : Nat) : toU32 (toU32 a + b) = toU32 (a + b) := Nat.mod_add_mod a _ b

/-- A stream that wrote and counted `out`. -/
def ZipOutputStream.emitted (w : ZipOutputStream Z) (out : Bytes) (stream : Option Z.DeflateStream)
    (outcomes : List Outcome) : ZipOutputStream Z :=
  { w with
    file := w.file ++ out
    zstream := stream
    currentCompressedSize := toU32 (w.currentCompressedSize + out.length)
    outcomes := outcomes }

theorem emitted_emitted (out out' : Bytes) (stream stream' : Option Z.DeflateStream)
    (outcomes outcomes' : List Outcome) :
    (w.emitted out stream outcomes).emitted out' stream' outcomes' =
      w.emitted (out ++ out') stream' outcomes' := by
  have hsize : toU32 (toU32 (w.currentCompressedSize + out.length) + out'.length) =
      toU32 (w.currentCompressedSize + (out ++ out').length) := by
    rw [List.length_append, ← Nat.add_assoc, toU32_toU32_add]
  unfold ZipOutputStream.emitted
  dsimp only
  rw [hsize, List.append_assoc]

variable {input : Bytes}

/-- One call of `deflate` whose output is written. -/
theorem callDeflate_ok {flush : Flush} {step : ZStep Z.DeflateStream}
    (h : callDeflate flush input w = (.ok step, w')) (hstatus : step.status ≠ .streamError) :
    ∃ stream outcomes, w.zstream = some stream ∧ step = Z.deflate stream flush input bufferSize ∧
      w' = { w with zstream := some step.stream, outcomes := outcomes } := by
  unfold callDeflate at h
  cases hstream : w.zstream with
  | none =>
    rw [hstream] at h
    cases h
  | some stream =>
    rw [hstream] at h
    dsimp only at h
    split at h
    · cases h
      exact absurd rfl hstatus
    · cases h
      exact ⟨stream, _, rfl, rfl, rfl⟩

theorem writeDeflated_ok {output : Bytes}
    (hsize : w.currentCompressedSize < 2 ^ 32) (h : writeDeflated output message w = (.ok u, w')) :
    ∃ outcomes, w' = w.emitted output w.zstream outcomes := by
  unfold writeDeflated at h
  split_ifs at h with hempty
  · cases h
    rw [List.isEmpty_iff.mp hempty]
    refine ⟨w.outcomes, ?_⟩
    unfold ZipOutputStream.emitted
    rw [List.append_nil, List.length_nil, Nat.add_zero, toU32_of_lt hsize]
  · obtain ⟨_, t, hwrite, hmodify⟩ := bind_eq_ok.mp h
    obtain ⟨outcomes, rfl⟩ := fwrite_ok hwrite
    cases hmodify
    refine ⟨outcomes, ?_⟩
    unfold ZipOutputStream.emitted
    dsimp only
    rw [toU32_add_toU32]

/-- What a round of either loop did. -/
theorem deflateRound_ok {flush : Flush} {errorMessage : String}
    {next : ZStep Z.DeflateStream → Writing Z Unit} (hsize : w.currentCompressedSize < 2 ^ 32)
    (h : (do
      let step ← callDeflate flush input
      failIf (step.status = .streamError) (zipError .zlibError errorMessage)
      writeDeflated step.output message
      next step : Writing Z Unit) w = (.ok u, w')) :
    ∃ stream outcomes, w.zstream = some stream ∧
      next (Z.deflate stream flush input bufferSize)
        (w.emitted (Z.deflate stream flush input bufferSize).output
          (some (Z.deflate stream flush input bufferSize).stream) outcomes) = (.ok u, w') := by
  obtain ⟨step, t, hcall, h⟩ := bind_eq_ok.mp h
  obtain ⟨_, t', hfail, h⟩ := bind_eq_ok.mp h
  obtain ⟨hstatus, rfl⟩ := failIf_eq_ok.mp hfail
  obtain ⟨stream, outcomes, hstream, rfl, rfl⟩ := callDeflate_ok hcall hstatus
  obtain ⟨_, t', hwrite, h⟩ := bind_eq_ok.mp h
  obtain ⟨outcomes', rfl⟩ := writeDeflated_ok (by exact hsize) hwrite
  exact ⟨stream, outcomes', hstream, h⟩

variable {fuel : Nat}

/-- **The loop of `write`** gives the compressor all of the input. -/
theorem deflateLoop_ok (hD : Z.Deflates Compressed D)
    (hsize : w.currentCompressedSize < 2 ^ 32) (h : deflateLoop fuel input w = (.ok u, w')) :
    ∃ stream stream' out outcomes, w.zstream = some stream ∧
      w' = w.emitted out (some stream') outcomes ∧
      ∀ i o, D stream i o → D stream' (i ++ input) (o ++ out) := by
  induction fuel generalizing w input with
  | zero => cases h
  | succ fuel ih =>
    obtain ⟨stream, outcomes, hstream, h⟩ := deflateRound_ok hsize h
    split_ifs at h with hfull
    · obtain ⟨_, stream', out, outcomes', hstream', rfl, hgives⟩ := ih (Nat.mod_lt _ (by decide)) h
      cases hstream'
      refine ⟨stream, stream', _, outcomes', hstream, emitted_emitted _ _ _ _ _ _, fun i o hio =>
        ?_⟩
      have hstep := hgives _ _ (hD.step stream i o input bufferSize hio)
      rwa [List.append_assoc, List.append_assoc, List.take_append_drop] at hstep
    · cases h
      refine ⟨stream, _, _, outcomes, hstream, rfl, fun i o hio => ?_⟩
      have hroom := hD.room stream .noFlush input bufferSize
      have hall := hD.drained stream i o input bufferSize hio (by omega)
      have hstep := hD.step stream i o input bufferSize hio
      rwa [List.take_of_length_le hall] at hstep

/-- **The loop of `finish_and_release_zstream`** completes the compressed data. -/
theorem finishLoop_ok {F : Z.DeflateStream → Bytes → Bytes → Prop} (hF : Z.Finishes Compressed F)
    (hsize : w.currentCompressedSize < 2 ^ 32) (h : finishLoop fuel w = (.ok u, w')) :
    ∃ stream stream' out outcomes, w.zstream = some stream ∧
      w' = w.emitted out (some stream') outcomes ∧
      ∀ i o, F stream i o → Compressed (o ++ out) i := by
  induction fuel generalizing w with
  | zero => cases h
  | succ fuel ih =>
    obtain ⟨stream, outcomes, hstream, h⟩ := deflateRound_ok hsize h
    split_ifs at h with hend
    · cases h
      exact ⟨stream, _, _, outcomes, hstream, rfl, fun i o hio =>
        hF.finished stream i o bufferSize hio hend⟩
    · obtain ⟨_, stream', out, outcomes', hstream', rfl, hgives⟩ := ih (Nat.mod_lt _ (by decide)) h
      cases hstream'
      refine ⟨stream, stream', _, outcomes', hstream, emitted_emitted _ _ _ _ _ _, fun i o hio =>
        ?_⟩
      have hstep := hgives _ _ (hF.step stream i o bufferSize hio hend)
      rwa [List.append_assoc] at hstep

/-! ## The calls -/

theorem directory_append (offset : Nat) (rs : List Record) (r : Record) :
    directory offset (rs ++ [r]) = directory offset rs ++
      r.cenPart (offset + (localParts rs).length) := by
  induction rs generalizing offset with
  | nil =>
    change r.cenPart offset ++ [] = [] ++ r.cenPart (offset + 0)
    rw [List.append_nil, List.nil_append, Nat.add_zero]
  | cons q rs ih =>
    have hlocals : (localParts (q :: rs)).length = q.localPart.length + (localParts rs).length := by
      rw [localParts, List.flatMap_cons, List.length_append, localParts]
    rw [List.cons_append, directory, directory, ih, List.append_assoc, hlocals, Nat.add_assoc]

theorem localParts_append (rs : List Record) (r : Record) :
    localParts (rs ++ [r]) = localParts rs ++ r.localPart := by
  rw [localParts, List.flatMap_append, List.flatMap_singleton, localParts]

theorem Inside.emitted (h : Inside Compressed rs r w) (out : Bytes)
    (stream : Option Z.DeflateStream) (outcomes : List Outcome) :
    Inside Compressed rs { r with data := r.data ++ out } (w.emitted out stream outcomes) :=
  { h with
    file := by
      change w.file ++ out = localParts rs ++ (r.header ++ (r.data ++ out))
      rw [h.file, List.append_assoc, List.append_assoc]
    compressedSize := by
      change toU32 (w.currentCompressedSize + out.length) = toU32 (r.data ++ out).length
      rw [h.compressedSize, toU32_toU32_add, List.length_append] }

/-- **The record of a complete entry.** -/
theorem recordEntry_ok (hw : Inside Compressed rs r w) (hr : r.Encodes Z Compressed)
    (h : recordEntry w = (.ok u, w')) : Between Compressed (rs ++ [r]) w' := by
  unfold recordEntry at h
  rw [modify_bind_apply, getState_bind_apply] at h
  obtain ⟨_, t, hwrite, h⟩ := bind_eq_ok.mp h
  obtain ⟨outcomes, rfl⟩ := fwrite_ok hwrite
  rw [modify_bind_apply] at h
  obtain ⟨_, t, hfail, h⟩ := bind_eq_ok.mp h
  obtain ⟨-, rfl⟩ := failIf_eq_ok.mp hfail
  cases h
  refine ⟨hw.opened, rfl, ?_, ?_, ?_, ?_⟩
  · dsimp only
    rw [hw.file, hw.crc32, hw.compressedSize, hw.uncompressedSize, localParts_append,
      Record.localPart, List.append_assoc, List.append_assoc]
  · dsimp only
    rw [hw.cenData, hw.crc32, hw.compressedSize, hw.uncompressedSize, hw.entryFlags, hw.entryMethod,
      hw.entryName, hw.locOffset, directory_append, Nat.zero_add, Record.cenPart]
  · dsimp only
    rw [hw.totalEntries, List.length_append, List.length_singleton]
  · intro q hq
    obtain hq | hq := List.mem_append.mp hq
    · exact hw.encodes q hq
    · obtain rfl := List.mem_singleton.mp hq
      exact hr

theorem closeEntry_between (hw : Between Compressed rs w) : closeEntry fuel w = (.ok (), w) := by
  unfold closeEntry
  rw [getState_bind_apply, hw.entryOpen]
  rfl

/-- **`close_entry` of an open entry.** -/
theorem closeEntry_ok (hD : Z.Deflates Compressed D)
    (hw : Within Compressed D rs r w) (h : closeEntry fuel w = (.ok u, w')) :
    ∃ data, Between Compressed (rs ++ [{ r with data := data }]) w' := by
  unfold closeEntry at h
  rw [getState_bind_apply, hw.entryOpen, if_pos rfl] at h
  obtain ⟨_, t, hfinish, h⟩ := bind_eq_ok.mp h
  rw [hw.entryMethod] at hfinish
  obtain ⟨hmethod, hstored⟩ | ⟨hmethod, stream, hstream, hgave⟩ := hw.data
  · rw [hmethod, if_neg (by decide)] at hfinish
    cases hfinish
    exact ⟨r.data, recordEntry_ok hw.toInside ⟨.inl ⟨hmethod, hstored⟩, hw.crc⟩ h⟩
  · rw [hmethod, if_pos rfl] at hfinish
    have hsize : w.currentCompressedSize < 2 ^ 32 := by
      rw [hw.compressedSize]
      exact Nat.mod_lt _ (by decide)
    obtain ⟨_, t', hloop, hmodify⟩ := bind_eq_ok.mp hfinish
    obtain ⟨F, hF, hfinishes⟩ := hD.finishes
    obtain ⟨stream₁, stream', out, outcomes, hstream₁, rfl, hgives⟩ :=
      finishLoop_ok hF hsize (onError_eq_ok.mp hloop)
    obtain rfl := Option.some.inj (hstream.symm.trans hstream₁)
    cases hmodify
    have hemitted := hw.toInside.emitted out (some stream') outcomes
    have hreleased : Inside Compressed rs { r with data := r.data ++ out }
        { w.emitted out (some stream') outcomes with zstream := none } := { hemitted with }
    refine ⟨r.data ++ out, recordEntry_ok hreleased ⟨.inr ⟨hmethod, ?_⟩, hw.crc⟩ h⟩
    exact fun hcontent => hgives _ _ (hfinishes _ _ _ (hgave hcontent))

theorem initDeflate_ok (h : initDeflate w = (.ok u, w')) :
    ∃ stream outcomes, Z.deflateInit2 w.level = some stream ∧
      w' = { w with zstream := some stream, outcomes := outcomes } := by
  unfold initDeflate at h
  split at h
  · cases h
  · cases h
  · cases h
    exact ⟨_, _, ‹_›, rfl⟩

/-- **`put_next_entry`** begins an entry after the ones that are written. -/
theorem beginEntry_ok (hD : Z.Deflates Compressed D) (hnil : ∀ crc, Z.crc32 crc [] = crc)
    {method : Nat} {name : Bytes} (hmethod : method = 0 ∨ method = 8) (hw : Between Compressed rs w)
    (h : putNextEntry fuel name method w = (.ok u, w')) :
    Within Compressed D rs { name, method, content := [], data := [], crc := Z.crcInit } w' := by
  unfold putNextEntry at h
  rw [getState_bind_apply, hw.opened, failIf_neg (by decide), pure_bind_apply,
    bind_ok (closeEntry_between hw), modify_bind_apply] at h
  obtain ⟨_, t, hheader, h⟩ := bind_eq_ok.mp h
  obtain ⟨outcomes, rfl⟩ := fwrite_ok hheader
  obtain ⟨_, t, hname, h⟩ := bind_eq_ok.mp h
  obtain ⟨outcomes', rfl⟩ := fwriteNonempty_ok hname
  have hfile : w.file ++ locHeader 0x0808 method name.length ++ name =
      localParts rs ++ (locHeader 0x0808 method name.length ++ name ++ []) := by
    rw [hw.file, List.append_nil, List.append_assoc]
  have hoffset : toU32 w.file.length = toU32 (localParts rs).length := by rw [hw.file]
  obtain rfl | rfl := hmethod
  · rw [if_neg (by decide)] at h
    cases h
    exact ⟨⟨hw.opened, rfl, rfl, rfl, rfl, hfile, hoffset, rfl, rfl, hw.cenData, hw.totalEntries,
      rfl, fun _ => (hnil Z.crcInit).symm, hw.encodes⟩, .inl ⟨rfl, rfl⟩⟩
  · rw [if_pos rfl] at h
    obtain ⟨_, t, hinit, h⟩ := bind_eq_ok.mp h
    obtain ⟨stream, outcomes'', hstream, rfl⟩ := initDeflate_ok hinit
    cases h
    exact ⟨⟨hw.opened, rfl, rfl, rfl, rfl, hfile, hoffset, rfl, rfl, hw.cenData, hw.totalEntries,
      rfl, fun _ => (hnil Z.crcInit).symm, hw.encodes⟩,
      .inr ⟨rfl, stream, rfl, fun _ => hD.init w.level stream hstream⟩⟩

/-- `put_next_entry` first closes the entry that is open. -/
theorem putNextEntry_closes (Compressed : Bytes → Bytes → Prop) {method : Nat} {name : Bytes}
    (h : putNextEntry fuel name method w = (.ok u, w')) :
    w.opened = true ∧ ∃ t, closeEntry fuel w = (.ok (), t) ∧
      ∀ rs, Between Compressed rs t → putNextEntry fuel name method t = (.ok u, w') := by
  unfold putNextEntry at h
  rw [getState_bind_apply] at h
  obtain ⟨_, t, hfail, h⟩ := bind_eq_ok.mp h
  obtain ⟨hopened, rfl⟩ := failIf_eq_ok.mp hfail
  obtain ⟨_, t, hclose, h⟩ := bind_eq_ok.mp h
  refine ⟨Bool.not_eq_false _ ▸ hopened, t, hclose, fun rs ht => ?_⟩
  unfold putNextEntry
  rw [getState_bind_apply, ht.opened, failIf_neg (by decide), pure_bind_apply,
    bind_ok (closeEntry_between ht), h]

theorem write_open {data : Bytes} (h : write fuel data w = (.ok u, w')) : w.entryOpen = true := by
  unfold write at h
  rw [getState_bind_apply] at h
  obtain ⟨_, t, hfail, -⟩ := bind_eq_ok.mp h
  exact Bool.not_eq_false _ ▸ (failIf_eq_ok.mp hfail).1

/-- More content is counted, and the checksum follows it. -/
theorem Inside.extend (hcrc : ∀ crc a b, Z.crc32 (Z.crc32 crc a) b = Z.crc32 crc (a ++ b))
    (h : Inside Compressed rs r w) (data : Bytes) :
    Inside Compressed rs
      { r with
        content := r.content ++ data
        crc := Z.crc32 r.crc (data.take (toU32 data.length)) }
      { w with
        crc32 := Z.crc32 w.crc32 (data.take (toU32 data.length))
        currentUncompressedSize := toU32 (w.currentUncompressedSize + toU32 data.length) } :=
  { h with
    crc32 := by rw [h.crc32]
    crc := by
      intro hlength
      dsimp only at hlength ⊢
      rw [List.length_append] at hlength
      rw [h.crc (by omega), toU32_of_lt (by omega), List.take_length, hcrc]
    uncompressedSize := by
      rw [h.uncompressedSize, toU32_add_toU32, toU32_toU32_add, List.length_append] }

/-- **`write`** extends the content of the entry. -/
theorem write_ok (hD : Z.Deflates Compressed D) (hnil : ∀ crc, Z.crc32 crc [] = crc)
    (hcrc : ∀ crc a b, Z.crc32 (Z.crc32 crc a) b = Z.crc32 crc (a ++ b)) {data : Bytes}
    (hw : Within Compressed D rs r w) (h : write fuel data w = (.ok u, w')) :
    ∃ out, Within Compressed D rs
      { r with
        content := r.content ++ data
        data := r.data ++ out
        crc := Z.crc32 r.crc (data.take (toU32 data.length)) } w' := by
  unfold write at h
  rw [getState_bind_apply, hw.entryOpen, failIf_neg (by decide), pure_bind_apply] at h
  by_cases hempty : data.length = 0
  · rw [if_pos hempty] at h
    cases h
    obtain rfl := List.length_eq_zero_iff.mp hempty
    refine ⟨[], ?_⟩
    rwa [List.append_nil, List.append_nil, List.take_nil, hnil]
  rw [if_neg hempty, modify_bind_apply] at h
  have hextend := hw.toInside.extend hcrc data
  obtain ⟨hmethod, hstored⟩ | ⟨hmethod, stream, hstream, hgave⟩ := hw.data
  · rw [if_pos (hw.entryMethod.trans hmethod)] at h
    obtain ⟨_, t, hwrite, h⟩ := bind_eq_ok.mp h
    obtain ⟨outcomes, rfl⟩ := fwrite_ok hwrite
    cases h
    have hemitted := hextend.emitted data w.zstream outcomes
    unfold ZipOutputStream.emitted at hemitted
    refine ⟨data, ⟨?_, .inl ⟨hmethod, ?_⟩⟩⟩
    · dsimp only at hemitted ⊢
      rwa [toU32_add_toU32 w.currentCompressedSize]
    · rw [hstored]
  · rw [if_neg (by rw [hw.entryMethod, hmethod]; decide)] at h
    have hsize : w.currentCompressedSize < 2 ^ 32 := by
      rw [hw.compressedSize]
      exact Nat.mod_lt _ (by decide)
    obtain ⟨stream₁, stream', out, outcomes, hstream₁, rfl, hgives⟩ :=
      deflateLoop_ok hD (by exact hsize) h
    obtain rfl := Option.some.inj (hstream.symm.trans hstream₁)
    refine ⟨out, ⟨hextend.emitted out (some stream') outcomes,
      .inr ⟨hmethod, stream', rfl, fun hlength => ?_⟩⟩⟩
    dsimp only at hlength
    rw [List.length_append] at hlength
    have hall : data.take (toU32 data.length) = data := by
      rw [toU32_of_lt (by omega), List.take_length]
    rw [hall] at hgives
    exact hgives _ _ (hgave (by omega))

/-- **`close`** completes the archive. -/
theorem close_ok (hw : Between Compressed rs w)
    (h : close fuel w = (.ok u, w')) : Finished Compressed rs w' := by
  unfold close at h
  rw [getState_bind_apply, hw.opened, if_pos rfl, bind_ok (closeEntry_between hw),
    getState_bind_apply] at h
  obtain ⟨_, t, hcen, h⟩ := bind_eq_ok.mp h
  obtain ⟨outcomes, rfl⟩ := fwriteNonempty_ok hcen
  obtain ⟨_, t, hend, h⟩ := bind_eq_ok.mp h
  obtain ⟨outcomes', rfl⟩ := fwrite_ok hend
  cases h
  refine ⟨rfl, hw.entryOpen, ?_, hw.encodes⟩
  dsimp only
  rw [hw.file, hw.cenData, hw.totalEntries, archive, List.append_assoc]

/-- `close` first closes the entry that is open. -/
theorem close_closes (Compressed : Bytes → Bytes → Prop) (hw : w.opened = true)
    (h : close fuel w = (.ok u, w')) :
    ∃ t, closeEntry fuel w = (.ok (), t) ∧
      ∀ rs, Between Compressed rs t → close fuel t = (.ok u, w') := by
  unfold close at h
  rw [getState_bind_apply, hw, if_pos rfl] at h
  obtain ⟨_, t, hclose, h⟩ := bind_eq_ok.mp h
  refine ⟨t, hclose, fun rs ht => ?_⟩
  unfold close
  rw [getState_bind_apply, ht.opened, if_pos rfl, bind_ok (closeEntry_between ht), h]

end Libca.Zip
