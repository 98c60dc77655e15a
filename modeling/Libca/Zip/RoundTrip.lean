import Libca.Common.Run
import Libca.Zip.Writing

/-!
# The round trip of archives (`zip/output_stream.cpp`, `zip/file.cpp`)

A session is a stream together with what its calls asked it to write. In every run of calls that all
succeed, the archive that `close` leaves is opened again, lists the names in order and gives back
the content of the last entry of each name, as long as no size, count, length or offset was cut
(`Session.Fits`): `zip_roundTrip`. The writer does not see to that: `not_zip_roundTrip`.
-/

namespace Libca.Zip

open Common Fallible

/-- An entry as the calls describe it. -/
structure Written where
  name : Bytes
  content : Bytes
  deriving DecidableEq

/-- A stream and the entries it was asked to write, the last one first. -/
structure Session (Z : Zlib) where
  writer : ZipOutputStream Z
  log : List Written := []

/-- The calls. -/
inductive Call
  | putNextEntry (name : Bytes) (deflated : Bool)
  | write (data : Bytes)
  | closeEntry
  | close

/-- A call, with fuel for its loops and what the C library does in it. -/
structure Action where
  call : Call
  fuel : Nat := 0
  outcomes : List Outcome := []

variable {Z : Zlib}

def Call.run (fuel : Nat) : Call → Writing Z Unit
  | .putNextEntry name deflated => Zip.putNextEntry fuel name (if deflated then 8 else 0)
  | .write data => Zip.write fuel data
  | .closeEntry => Zip.closeEntry fuel
  | .close => Zip.close fuel

/-- What a call adds to the log. -/
def Call.log : Call → List Written → List Written
  | .putNextEntry name _, log => { name := name, content := [] } :: log
  | .write data, e :: log => { e with content := e.content ++ data } :: log
  | .write _, [] => []
  | .closeEntry, log => log
  | .close, log => log

namespace Session

/-- A stream that was opened. -/
def init (Z : Zlib) (level : Int) : Session Z := { writer := { opened := true, level := level } }

/-- A call that succeeds. -/
def step (s : Session Z) (a : Action) : Option (Session Z) :=
  match a.call.run a.fuel { s.writer with outcomes := a.outcomes } with
  | (.ok _, w) => some { writer := w, log := a.call.log s.log }
  | (.error _, _) => none

/-- The directory of the entries in bytes. -/
def directorySize (s : Session Z) : Nat := (s.log.map fun e => 46 + e.name.length).sum

/-- Nothing is cut, and no field gets a value that stands for a ZIP64 one. -/
structure Fits (s : Session Z) : Prop where
  name : ∀ e ∈ s.log, e.name.length < 2 ^ 16
  content : ∀ e ∈ s.log, e.content.length < 2 ^ 32 - 1
  count : s.log.length < 2 ^ 16 - 1
  directory : s.directorySize < 2 ^ 32 - 1
  locals : s.writer.file.length - (s.directorySize + 22) < 2 ^ 32 - 1

/-- The archive is opened, lists the names and gives the contents back, `inflate` being called often
enough. -/
def ReadBack (s : Session Z) : Prop :=
  ∃ f, ZipFile.openData s.writer.file = .ok f ∧ f.entries = s.log.reverse.map Written.name ∧
    ∀ name e, s.log.find? (fun e => e.name == name) = some e →
      ∃ bound, ∀ fuel, bound ≤ fuel → f.read Z fuel name = .ok e.content

end Session

variable {Compressed : Bytes → Bytes → Prop} {D : Z.DeflateStream → Bytes → Bytes → Prop}
  {I : Z.InflateStream → Bytes → Bytes → Prop} {s s' : Session Z} {rs : List Record} {r : Record}

/-- What the calls asked for a record. -/
def Record.written (r : Record) : Written := { name := r.name, content := r.content }

/-- The log of a list of records. -/
def logOf (rs : List Record) : List Written := (rs.map Record.written).reverse

theorem logOf_append (rs : List Record) (r : Record) : logOf (rs ++ [r]) = r.written ::
    logOf rs := by
  rw [logOf, List.map_append, List.reverse_append]
  rfl

/-- What a stream has written is what its calls asked it to. -/
def Session.Sound (Compressed : Bytes → Bytes → Prop) (D : Z.DeflateStream → Bytes → Bytes → Prop)
    (s : Session Z) : Prop :=
  ∃ rs, (Between Compressed rs s.writer ∧ s.log = logOf rs) ∨
    (∃ r, Within Compressed D rs r s.writer ∧ s.log = r.written :: logOf rs) ∨
    (Finished Compressed rs s.writer ∧ s.log = logOf rs)

/-! ## Runs of calls -/

theorem Session.step_eq_some {a : Action} (h : s.step a = some s') :
    a.call.run a.fuel { s.writer with outcomes := a.outcomes } = (.ok (), s'.writer) ∧
      s'.log = a.call.log s.log := by
  unfold Session.step at h
  split at h
  · cases h
    exact ⟨‹_›, rfl⟩
  · cases h

/-- What the C library will do is not yet done. -/
theorem Session.Sound.outcomes (h : s.Sound Compressed D) (outcomes : List Outcome) :
    Session.Sound Compressed D { s with writer := { s.writer with outcomes := outcomes } } := by
  obtain ⟨rs, ⟨hw, hlog⟩ | ⟨r, hw, hlog⟩ | ⟨hw, hlog⟩⟩ := h
  · exact ⟨rs, .inl ⟨{ hw with }, hlog⟩⟩
  · exact ⟨rs, .inr (.inl ⟨r, { hw with }, hlog⟩)⟩
  · exact ⟨rs, .inr (.inr ⟨{ hw with }, hlog⟩)⟩

/-- `close_entry` keeps the log. -/
theorem closeEntry_sound (hD : Z.Deflates Compressed D) {fuel : Nat} {w : ZipOutputStream Z}
    (hs : s.Sound Compressed D) (h : closeEntry fuel s.writer = (.ok (), w)) :
    (∃ rs, Between Compressed rs w ∧ s.log = logOf rs) ∨
      w = s.writer ∧ ∃ rs, Finished Compressed rs w ∧ s.log = logOf rs := by
  obtain ⟨rs, ⟨hw, hlog⟩ | ⟨r, hw, hlog⟩ | ⟨hw, hlog⟩⟩ := hs
  · rw [closeEntry_between hw] at h
    cases h
    exact .inl ⟨rs, hw, hlog⟩
  · obtain ⟨data, hbetween⟩ := closeEntry_ok hD hw h
    refine .inl ⟨_, hbetween, ?_⟩
    rw [hlog, logOf_append]
    rfl
  · unfold closeEntry at h
    rw [getState_bind_apply, hw.entryOpen, if_neg (by decide)] at h
    cases h
    exact .inr ⟨rfl, rs, hw, hlog⟩

/-- **One call.** -/
theorem call_sound (hZ : Z.Documented) (hD : Z.Deflates Compressed D) {call : Call} {fuel : Nat}
    (hs : s.Sound Compressed D) (hrun : call.run fuel s.writer = (.ok (), s'.writer))
    (hlog' : s'.log = call.log s.log) : s'.Sound Compressed D := by
  cases call with
  | putNextEntry name deflated =>
    obtain ⟨hopened, t, hclose, hput⟩ := putNextEntry_closes Compressed hrun
    obtain ⟨rs, ht, hlog⟩ | ⟨rfl, rs, ht, -⟩ := closeEntry_sound hD hs hclose
    · have hmethod : (if deflated then 8 else 0) = 0 ∨ (if deflated then 8 else 0) = 8 := by
        cases deflated
        · exact .inl rfl
        · exact .inr rfl
      refine ⟨rs, .inr (.inl ⟨_, beginEntry_ok hD hZ.crc_nil hmethod ht (hput rs ht), ?_⟩)⟩
      rw [hlog', ← hlog]
      rfl
    · rw [ht.opened] at hopened
      cases hopened
  | write data =>
    have hopen := write_open hrun
    obtain ⟨rs, ⟨hw, -⟩ | ⟨r, hw, hlog⟩ | ⟨hw, -⟩⟩ := hs
    · rw [hw.entryOpen] at hopen
      cases hopen
    · obtain ⟨out, hwithin⟩ := write_ok hD hZ.crc_nil hZ.crc_append hw hrun
      refine ⟨rs, .inr (.inl ⟨_, hwithin, ?_⟩)⟩
      rw [hlog', hlog]
      rfl
    · rw [hw.entryOpen] at hopen
      cases hopen
  | closeEntry =>
    obtain ⟨rs, hw, hlog⟩ | ⟨-, rs, hw, hlog⟩ := closeEntry_sound hD hs hrun
    · exact ⟨rs, .inl ⟨hw, hlog'.trans hlog⟩⟩
    · exact ⟨rs, .inr (.inr ⟨hw, hlog'.trans hlog⟩)⟩
  | close =>
    by_cases hopened : s.writer.opened = true
    · obtain ⟨t, hclose, hclosed⟩ := close_closes Compressed hopened hrun
      obtain ⟨rs, ht, hlog⟩ | ⟨rfl, rs, ht, -⟩ := closeEntry_sound hD hs hclose
      · exact ⟨rs, .inr (.inr ⟨close_ok ht (hclosed rs ht), hlog'.trans hlog⟩)⟩
      · exact absurd (hopened.symm.trans ht.opened) (by decide)
    · change Zip.close _ _ = _ at hrun
      unfold Zip.close at hrun
      rw [getState_bind_apply, if_neg hopened] at hrun
      have hwriter : s'.writer = s.writer := (congrArg Prod.snd hrun).symm
      unfold Session.Sound
      rw [hwriter, hlog']
      exact hs

theorem step_sound (hZ : Z.Documented) (hD : Z.Deflates Compressed D) {a : Action}
    (hs : s.Sound Compressed D) (h : s.step a = some s') : s'.Sound Compressed D := by
  obtain ⟨hrun, hlog⟩ := Session.step_eq_some h
  exact call_sound hZ hD (hs.outcomes a.outcomes) hrun hlog

/-- **What every run writes** is what its calls asked for. -/
theorem reach_sound (hZ : Z.Documented) (hD : Z.Deflates Compressed D) {level : Int}
    (hs : Reach Session.step (fun _ _ => True) (Session.init Z level) s) : s.Sound Compressed D :=
  hs.invariant _ ⟨[], .inl ⟨⟨rfl, rfl, rfl, rfl, rfl, fun _ h => absurd h (by simp)⟩, rfl⟩⟩
    fun _ _ _ hsound _ hstep => step_sound hZ hD hsound hstep

/-! ## Reading the archive -/

theorem length_directory (offset : Nat) (rs : List Record) :
    (directory offset rs).length = ((logOf rs).map fun e => 46 + e.name.length).sum := by
  induction rs generalizing offset with
  | nil => rfl
  | cons r rs ih =>
    rw [length_directory_cons, ih, logOf, logOf, List.map_cons, List.reverse_cons, List.map_append,
      List.sum_append]
    change 46 + r.name.length + _ = _ + (46 + r.name.length + 0)
    omega

theorem names_entriesAt (offset : Nat) (rs : List Record) :
    (entriesAt offset rs).map ZipEntry.name = (logOf rs).reverse.map Written.name := by
  rw [logOf, List.reverse_reverse, List.map_map]
  induction rs generalizing offset with
  | nil => rfl
  | cons r rs ih =>
    rw [entriesAt, List.map_cons, ih, List.map_cons]
    rfl

theorem length_localPart_le (h : r ∈ rs) : r.localPart.length ≤ (localParts rs).length := by
  induction rs with
  | nil => cases h
  | cons q rs ih =>
    rw [localParts, List.flatMap_cons, List.length_append]
    obtain rfl | h := List.mem_cons.mp h
    · omega
    · have hle := ih h
      rw [localParts] at hle
      omega

/-- A session that fits has records that fit. -/
theorem Session.Fits.records (hfits : s.Fits) (hw : Finished Compressed rs s.writer)
    (hlog : s.log = logOf rs) : Zip.Fits rs := by
  have hlength := (parts_archive rs).length
  have hdirectory : s.directorySize = (Zip.directory 0 rs).length := by
    rw [length_directory, ← hlog, Session.directorySize]
  have hlocals := hfits.locals
  rw [hw.file] at hlocals
  have hcount : s.log.length = rs.length := by
    rw [hlog, logOf, List.length_reverse, List.length_map]
  refine ⟨fun r hr => ?_, hcount ▸ hfits.count, by omega, hdirectory ▸ hfits.directory⟩
  have hmem : r.written ∈ s.log := by
    rw [hlog, logOf]
    exact List.mem_reverse.mpr (List.mem_map_of_mem hr)
  refine ⟨hfits.name _ hmem, ?_, hfits.content _ hmem⟩
  obtain ⟨hmethod, -⟩ | ⟨hmethod, -⟩ := (hw.encodes r hr).method <;> omega

/-- **A finished session is read back.** -/
theorem readBack_finished (hI : Z.Inflates Compressed I) (hfits : s.Fits)
    (hw : Finished Compressed rs s.writer) (hlog : s.log = logOf rs) : s.ReadBack := by
  have hrecords := hfits.records hw hlog
  have hparts := parts_archive rs
  have hlength := hparts.length
  have hlocals := hrecords.locals
  refine ⟨{ data := archive rs, entryList := entriesAt 0 rs }, ?_, ?_, fun name e he => ?_⟩
  · rw [hw.file, ZipFile.openData, parse_archive hparts hrecords, except_ok_bind]
  · rw [hlog]
    exact names_entriesAt 0 rs
  · rw [hlog, logOf, ← List.map_reverse, List.find?_map] at he
    obtain ⟨r, hr, rfl⟩ := Option.map_eq_some_iff.mp he
    have hnil : ([] : Bytes).length = 0 := rfl
    have hmem : r ∈ rs := List.mem_reverse.mp (List.mem_of_find?_eq_some hr)
    obtain ⟨o, ho, hstands, hle⟩ := (find_entriesAt hnil).2 r hr
    have hsize := length_localPart_le hmem
    rw [length_localPart] at hsize
    rw [List.nil_append] at hstands hle
    refine ⟨r.data.length + r.content.length + 1, fun fuel hfuel => ?_⟩
    unfold ZipFile.read ZipFile.getEntry
    rw [ho]
    have hoffset : o ≤ (archive rs).length := by omega
    exact readEntry_record hI ⟨rfl, rfl, rfl, rfl⟩ (hrecords.record r hmem) (hw.encodes r hmem)
      (by omega) (hstands.trans (hparts.locals.drop o)) hoffset (by omega)

/-- **The round trip**: in every run that ends with a closed stream and in which nothing was cut,
the archive is opened, lists the names and gives the contents back. -/
theorem zip_roundTrip (hZ : Z.Documented) (level : Int)
    (hs : Reach Session.step (fun _ _ => True) (Session.init Z level) s)
    (hclosed : s.writer.opened = false) (hfits : s.Fits) : s.ReadBack := by
  obtain ⟨Compressed, ⟨D, hD⟩, I, hI⟩ := hZ.streams
  obtain ⟨rs, ⟨hw, -⟩ | ⟨r, hw, -⟩ | ⟨hw, hlog⟩⟩ := reach_sound hZ hD hs
  · exact absurd (hw.opened.symm.trans hclosed) (by decide)
  · exact absurd (hw.opened.symm.trans hclosed) (by decide)
  · exact readBack_finished hI hfits hw hlog

/-! ## A library -/

/-- One bit of the checksum. -/
def crcBit (crc : UInt32) : UInt32 :=
  if crc &&& 1 = 1 then (crc >>> 1) ^^^ 0xedb88320 else crc >>> 1

/-- One byte of the checksum. -/
def crcByte (crc : UInt32) (b : UInt8) : UInt32 :=
  (List.range 8).foldl (fun crc _ => crcBit crc) (crc ^^^ b.toUInt32)

/-- A library that stores what it is given, with the checksum of zlib. -/
def storing : Zlib where
  DeflateStream := Bytes
  deflateInit2 _ := some []
  deflate pending flush input room :=
    { status := if flush = .finish ∧ (pending ++ input).length ≤ room then .streamEnd else .ok
      stream := (pending ++ input).drop room
      consumed := input.length
      output := (pending ++ input).take room }
  InflateStream := Unit
  inflateInit2 := some ()
  inflate _ input room :=
    { status := if input.length ≤ room then .streamEnd else .ok
      stream := ()
      consumed := room
      output := input.take room }
  crcInit := 0
  crc32 crc data := ~~~(data.foldl crcByte (~~~crc))

theorem storing_documented : storing.Documented where
  crc_nil crc := UInt32.not_not
  crc_append crc a b := by
    change ~~~(b.foldl crcByte (~~~(~~~(a.foldl crcByte (~~~crc))))) = _
    rw [UInt32.not_not, ← List.foldl_append]
    rfl
  streams := by
    refine ⟨fun z c => z = c, ⟨fun (pending : Bytes) i o => i = o ++ pending, ?_⟩,
      fun _ z rest => z = rest, ?_⟩
    · refine ⟨fun level s hs => ?_, fun (s : Bytes) i o input room hio => ?_,
        fun s flush input room => ?_, fun s i o input room _ _ => le_rfl,
        fun (pending : Bytes) i o => i = o ++ pending,
        ⟨fun (s : Bytes) i o room hio _ => ?_, fun (s : Bytes) i o room hio hend => ?_⟩,
        fun _ _ _ h => h⟩
      · obtain rfl := Option.some.inj hs
        rfl
      · change i ++ input.take input.length = o ++ (s ++ input).take room ++ (s ++ input).drop room
        rw [List.take_length, List.append_assoc, List.take_append_drop, hio, List.append_assoc]
      · exact List.length_take_le _ _
      · change i = o ++ (s ++ []).take room ++ (s ++ []).drop room
        rw [List.append_assoc, List.take_append_drop, hio, List.append_nil]
      · change (if Flush.finish = .finish ∧ (s ++ []).length ≤ room then
          ZStatus.streamEnd else .ok) = _
          at hend
        change o ++ (s ++ []).take room = i
        split_ifs at hend with hroom
        rw [List.take_of_length_le hroom.2, List.append_nil, hio]
    · refine ⟨⟨(), rfl, fun z c h => h⟩, fun s z rest room h => ?_, fun s z rest room hroom h => ?_⟩
      · subst h
        rfl
      · subst h
        change (if z.length ≤ room then ZStatus.streamEnd else .ok) = _ ∧ _ ∨
          (if z.length ≤ room then ZStatus.streamEnd else .ok) = _ ∧ z.drop room = z.drop room ∧ _
        by_cases hfits : z.length ≤ room
        · exact .inl ⟨if_pos hfits, hfits⟩
        · refine .inr ⟨if_neg hfits, rfl, ?_⟩
          change (z.drop room).length + (z.drop room).length < _
          rw [List.length_drop]
          omega

/-- An archive with a stored entry. -/
theorem zip_roundTrip_stored :
    ∃ s, Reach Session.step (fun _ _ => True) (Session.init storing (-1)) s ∧
      s.log = [{ name := ascii "a", content := ascii "hi" }] ∧ s.ReadBack := by
  have hrun : (run Session.step (fun _ _ => true)
      [{ call := .putNextEntry (ascii "a") false }, { call := .write (ascii "hi") },
        { call := .close }]
      (Session.init storing (-1))).any (fun s => s.writer.opened == false &&
        (s.log == [{ name := ascii "a", content := ascii "hi" }] &&
          decide (s.writer.file.length < 1000))) = true := by decide
  obtain ⟨s, hs, hp⟩ := Reach.exists_of_run (fun _ _ _ => trivial) hrun
  obtain ⟨hclosed, hlog, hlength⟩ : s.writer.opened = false ∧
      s.log = [{ name := ascii "a", content := ascii "hi" }] ∧ s.writer.file.length < 1000 := by
    simpa using hp
  refine ⟨s, hs, hlog, zip_roundTrip storing_documented (-1) hs hclosed ⟨?_, ?_, ?_, ?_, by omega⟩⟩
  · rw [hlog]
    decide
  · rw [hlog]
    decide
  · rw [hlog]
    decide
  · rw [Session.directorySize, hlog]
    decide

/-! ## Names that are too long -/

variable {data : Bytes}

/-- A name is as long as a field of two bytes says. -/
theorem readCenEntry_name {baseOffset : Int} {cen remaining size : Nat} {e : ZipEntry}
    (h : readCenEntry data baseOffset cen remaining = .ok (e, size)) : e.name.length < 2 ^ 16 := by
  unfold readCenEntry at h
  simp only [except_bind_eq_ok] at h
  obtain ⟨_, -, _, -, _, -, nameLen, hlength, _, -, _, -, _, -, _, -, _, -, _, -, _, -, _, -, _, -,
    name, hname, _, -, _, -, _, -, _, -, _, -, _, -, _, -, _, -, h⟩ := h
  cases h
  unfold readU16 readNumber at hlength
  cases hread : readLe 2 data (cen + 28) with
  | none =>
    rw [hread] at hlength
    cases hlength
  | some v =>
    rw [hread] at hlength
    cases hlength
    unfold readBytes at hname
    split_ifs at hname
    cases hname
    exact (List.length_take_le _ _).trans_lt (readLe_lt hread)

theorem readCen_name {entryCount cenEnd fuel cen : Nat} {baseOffset : Int}
    {entries entries' : List ZipEntry} (hentries : ∀ e ∈ entries, e.name.length < 2 ^ 16)
    (h : readCen data entryCount baseOffset cenEnd fuel cen entries = .ok entries') :
    ∀ e ∈ entries', e.name.length < 2 ^ 16 := by
  induction fuel generalizing cen entries with
  | zero => cases h
  | succ fuel ih =>
    unfold readCen at h
    split_ifs at h
    · obtain ⟨⟨e, size⟩, hentry, h⟩ := except_bind_eq_ok.mp h
      refine ih (fun e' he' => ?_) h
      obtain he' | he' := List.mem_append.mp he'
      · exact hentries e' he'
      · obtain rfl := List.mem_singleton.mp he'
        exact readCenEntry_name hentry
    · cases h
      exact hentries

/-- **No name that the reader lists has more than 65535 bytes.** -/
theorem entries_name {f : ZipFile} (h : ZipFile.openData data = .ok f) :
    ∀ name ∈ f.entries, name.length < 2 ^ 16 := by
  obtain ⟨entries, hparse, h⟩ := except_bind_eq_ok.mp h
  cases h
  unfold parse at hparse
  simp only [except_bind_eq_ok] at hparse
  obtain ⟨_, -, _, -, _, -, _, -, _, -, _, -, hread⟩ := hparse
  intro name hname
  obtain ⟨e, he, rfl⟩ := List.mem_map.mp hname
  exact readCen_name (fun e he => absurd he (by simp)) hread e he

/-- Any name is written. -/
theorem exists_session_named (Z : Zlib) (b : UInt8) (bs : Bytes) :
    ∃ s, Reach Session.step (fun _ _ => True) (Session.init Z (-1)) s ∧ s.writer.opened = false ∧
      s.log = [{ name := b :: bs, content := [] }] :=
  ⟨_, .step { call := .close }
    (.step { call := .putNextEntry (b :: bs) false } .init trivial rfl) trivial rfl, rfl, rfl⟩

/-- The length of a name is cut to 16 bits. -/
theorem not_zip_roundTrip : ¬ ∀ (Z : Zlib) (level : Int) (s : Session Z), Z.Documented →
    Reach Session.step (fun _ _ => True) (Session.init Z level) s → s.writer.opened = false →
      s.ReadBack := by
  intro hall
  obtain ⟨s, hs, hclosed, hlog⟩ := exists_session_named storing 97 (List.replicate 65535 97)
  obtain ⟨f, hopen, hnames, -⟩ := hall storing (-1) s storing_documented hs hclosed
  have hmem : 97 :: List.replicate 65535 97 ∈ f.entries := by
    rw [hnames, hlog]
    exact .head _
  have hlt := entries_name hopen _ hmem
  rw [List.length_cons, List.length_replicate] at hlt
  exact absurd hlt (by decide)

end Libca.Zip
