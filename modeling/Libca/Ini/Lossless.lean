import Libca.Common.Except
import Libca.Common.Trim
import Libca.Ini.Index
import Libca.Ini.Reader

/-!
# Reading loses nothing (`ini/ini_reader.cpp`, `ini/ini_writer.cpp`)

* `splitLines_flatten`: the lines of a text with their ends are the text.
* `Tiled`, `keyValueRecord_spec`: the pieces of a key line are the line.
* `Lines`: the records of the lines of a text, section by section; `read_eq_ok`.
* `write_read`: what is written of a text that is read is the text; a value set to itself leaves
  what is written unchanged.
-/

namespace Libca.Ini

open Common Str

theorem trimAscii_eq (s : Bytes) : trimAscii s = trim isSpace s := rfl

theorem internStd_eq_ok {s t : Bytes} (h : internStd s = .ok t) : t = s ∧ IsUtf8 s := by
  by_cases hs : IsUtf8 s
  · rw [internStd_ok hs] at h
    exact ⟨(Except.ok.inj h).symm, hs⟩
  · unfold internStd utf8String at h
    rw [if_neg fun hvalid => hs (isValid_iff.mp hvalid)] at h
    cases h

/-- The pieces of a record, one after the other. -/
def LineRecord.pieces (r : LineRecord) : Bytes :=
  r.keyPrefix ++ r.line.key ++ r.keySuffix ++ r.separator ++ r.valuePrefix ++ r.line.value ++
    r.commentSuffix

/-- The pieces of a key line are its text. -/
def Tiled (r : LineRecord) : Prop := r.line.kind = .keyValue → r.pieces = r.raw

namespace IniReader

variable (o : IniReaderOptions)

/-! ## The lines of a text -/

theorem splitLines_flatten (raw text : Bytes) :
    (splitLines raw text).flatMap (fun line => line.1 ++ line.2) = raw ++ text := by
  fun_induction splitLines raw text with
  | case1 => simp
  | case2 raw hraw => simp
  | case3 raw rest ih => simp [ih]
  | case4 raw ch rest hnot hch ih => simp [ih]
  | case5 raw ch rest hnot hch ih => rw [ih, List.append_assoc, List.singleton_append]

/-- No byte of a line ends it. -/
def NoBreak (s : Bytes) : Prop := ∀ b ∈ s, b ≠ 13 ∧ b ≠ 10

/-- What ends a line. -/
def IsLineEnding (ending : Bytes) : Prop := ending = [10] ∨ ending = [13] ∨ ending = [13, 10]

/-- A line has no break inside, and is empty only where it has an end. -/
structure LineShape (s e : Bytes) : Prop where
  noBreak : NoBreak s
  ending : IsLineEnding e ∨ e = []
  nonempty : s = [] → e ≠ []

theorem NoBreak.append {as bs : Bytes} (has : NoBreak as) (hbs : NoBreak bs) : NoBreak (as ++ bs) :=
  List.forall_mem_append.mpr ⟨has, hbs⟩

variable {raw : Bytes}

theorem splitLines_shape {text : Bytes} (hraw : NoBreak raw) :
    ∀ line ∈ splitLines raw text, LineShape line.1 line.2 := by
  fun_induction splitLines raw text with
  | case1 => exact fun _ h => (nomatch h)
  | case2 raw hne =>
    refine List.forall_mem_singleton.mpr ⟨hraw, .inr rfl, fun h => absurd h hne⟩
  | case3 raw rest ih =>
    refine List.forall_mem_cons.mpr ⟨⟨hraw, .inl (.inr (.inr rfl)), nofun⟩, ?_⟩
    exact ih fun _ h => (nomatch h)
  | case4 raw ch rest hnot hch ih =>
    refine List.forall_mem_cons.mpr ⟨⟨hraw, .inl ?_, nofun⟩, ih fun _ h => (nomatch h)⟩
    rcases hch with rfl | rfl
    · exact .inr (.inl rfl)
    · exact .inl rfl
  | case5 raw ch rest hnot hch ih =>
    refine ih (hraw.append (List.forall_mem_singleton.mpr ?_))
    exact ⟨fun h => hch (.inl h), fun h => hch (.inr h)⟩

theorem LineShape.isUtf8_ending {ending : Bytes} (h : LineShape raw ending) : IsUtf8 ending := by
  rcases h.ending with (rfl | rfl | rfl) | rfl <;> exact isUtf8_of_ascii (by decide)

/-! ## The pieces of a key line -/

theorem key_pieces (keyPart : Bytes) :
    keyPart.takeWhile isSpace ++ trimAscii keyPart ++
      (keyPart.dropWhile isSpace).rtakeWhile isSpace = keyPart :=
  takeWhile_trim_rtakeWhile isSpace keyPart

/-- A value is what is left of the text before the comment when it is trimmed. -/
theorem valueText_eq (valuePart : Bytes) : valueText o valuePart =
    trimAscii (valuePart.take (findInlineComment o valuePart)) := by
  have hdrop := drop_takeWhile_append (p := isSpace)
    (valuePart.take (findInlineComment o valuePart))
      (valuePart.drop (findInlineComment o valuePart))
  rw [List.take_append_drop] at hdrop
  unfold valueText
  dsimp only
  rw [hdrop]
  rfl

/-- A value follows the spaces that it is behind. -/
theorem valueText_prefix (valuePart : Bytes) :
    valueText o valuePart <+: valuePart.drop (valuePart.takeWhile isSpace).length := by
  refine (List.rdropWhile_prefix _ _).trans ?_
  rw [List.drop_take]
  exact List.take_prefix _ _

theorem value_pieces (valuePart : Bytes) :
    valuePart.take (valuePart.takeWhile isSpace).length ++ valueText o valuePart ++
        valuePart.drop ((valuePart.takeWhile isSpace).length + (valueText o valuePart).length) =
      valuePart := by
  obtain ⟨rest, hrest⟩ := valueText_prefix o valuePart
  have hdrop : valuePart.drop
      ((valuePart.takeWhile isSpace).length + (valueText o valuePart).length) = rest := by
    rw [← List.drop_drop, ← hrest, List.drop_left]
  rw [hdrop, List.append_assoc, hrest, List.take_append_drop]

/-- A line is what is before, at and behind its separator. -/
theorem separator_pieces (raw : Bytes) (pos : Nat) :
    raw.take pos ++ (raw.drop pos).take 1 ++ raw.drop (pos + 1) = raw := by
  rw [List.append_assoc, ← List.drop_drop, List.take_append_drop, List.take_append_drop]

/-- What a record of a key line holds. -/
structure KeyValueSpec (r : LineRecord) (raw currentSection : Bytes) (pos : Nat) : Prop where
  line : r.line = ⟨.keyValue, currentSection, trimAscii (raw.take pos),
    valueText o (raw.drop (pos + 1))⟩
  keyPrefix : r.keyPrefix = (raw.take pos).takeWhile isSpace
  keySuffix : r.keySuffix = ((raw.take pos).dropWhile isSpace).rtakeWhile isSpace
  separator : r.separator = (raw.drop pos).take 1
  valuePrefix : r.valuePrefix =
    (raw.drop (pos + 1)).take ((raw.drop (pos + 1)).takeWhile isSpace).length
  commentSuffix : r.commentSuffix = (raw.drop (pos + 1)).drop
    (((raw.drop (pos + 1)).takeWhile isSpace).length + (valueText o (raw.drop (pos + 1))).length)
  valueQuoted : r.valueQuoted = (detectQuotes (valueText o (raw.drop (pos + 1)))).isSome
  utf8 : IsUtf8 r.line.key ∧ IsUtf8 r.line.value ∧ IsUtf8 r.keyPrefix ∧ IsUtf8 r.keySuffix ∧
    IsUtf8 r.separator ∧ IsUtf8 r.valuePrefix ∧ IsUtf8 r.commentSuffix

variable {record : LineRecord} {currentSection : Bytes}

theorem keyValueRecord_spec {r : LineRecord} {pos : Nat}
    (h : keyValueRecord o record raw currentSection pos = .ok r) :
    KeyValueSpec o r raw currentSection pos ∧ r.raw = record.raw ∧
      r.lineEnding = record.lineEnding := by
  unfold keyValueRecord at h
  obtain ⟨_, h1, h⟩ := except_bind_eq_ok.mp h
  obtain ⟨_, h2, h⟩ := except_bind_eq_ok.mp h
  obtain ⟨_, h3, h⟩ := except_bind_eq_ok.mp h
  obtain ⟨_, h4, h⟩ := except_bind_eq_ok.mp h
  obtain ⟨_, h5, h⟩ := except_bind_eq_ok.mp h
  obtain ⟨_, h6, h⟩ := except_bind_eq_ok.mp h
  obtain ⟨_, h7, h⟩ := except_bind_eq_ok.mp h
  obtain ⟨_, h8, h⟩ := except_bind_eq_ok.mp h
  obtain ⟨rfl, -⟩ := internStd_eq_ok h1
  obtain ⟨rfl, hkey⟩ := internStd_eq_ok h2
  obtain ⟨rfl, hvalue⟩ := internStd_eq_ok h3
  obtain ⟨rfl, hkeyPrefix⟩ := internStd_eq_ok h4
  obtain ⟨rfl, hkeySuffix⟩ := internStd_eq_ok h5
  obtain ⟨rfl, hseparator⟩ := internStd_eq_ok h6
  obtain ⟨rfl, hvaluePrefix⟩ := internStd_eq_ok h7
  obtain ⟨rfl, hcommentSuffix⟩ := internStd_eq_ok h8
  cases h
  exact ⟨⟨rfl, rfl, rfl, rfl, rfl, rfl, rfl, hkey, hvalue, hkeyPrefix, hkeySuffix, hseparator,
    hvaluePrefix, hcommentSuffix⟩, rfl, rfl⟩

/-- **The pieces of a key line are the line.** -/
theorem KeyValueSpec.pieces_eq {r : LineRecord} {pos : Nat}
    (h : KeyValueSpec o r raw currentSection pos) : r.pieces = raw := by
  unfold LineRecord.pieces
  rw [h.line, h.keyPrefix, h.keySuffix, h.separator, h.valuePrefix, h.commentSuffix]
  have hkey := key_pieces (raw.take pos)
  have hvalue := value_pieces o (raw.drop (pos + 1))
  calc _ = ((raw.take pos).takeWhile isSpace ++ trimAscii (raw.take pos) ++
          ((raw.take pos).dropWhile isSpace).rtakeWhile isSpace) ++ (raw.drop pos).take 1 ++
        ((raw.drop (pos + 1)).take ((raw.drop (pos + 1)).takeWhile isSpace).length ++
          valueText o (raw.drop (pos + 1)) ++ (raw.drop (pos + 1)).drop
            (((raw.drop (pos + 1)).takeWhile isSpace).length +
              (valueText o (raw.drop (pos + 1))).length)) := by
        simp only [List.append_assoc]
    _ = raw := by rw [hkey, hvalue, separator_pieces]

/-! ## A line -/

/-- What a line that is read gives. -/
structure LineSpec (r : LineRecord) (raw lineEnding : Bytes) : Prop where
  raw_eq : r.raw = raw
  lineEnding_eq : r.lineEnding = lineEnding
  utf8 : IsUtf8 r.raw
  tiled : Tiled r
  value : IsUtf8 r.line.value

variable {lineNumber : Nat}

theorem lineError_ne_ok {α : Type} {message : Bytes} {a : α} :
    (lineError lineNumber message : Except Failure α) ≠ .ok a :=
  nofun

variable {parsed : LineParse}

variable {lineEnding : Bytes}

theorem parseContent_spec (hrecord : LineSpec record raw lineEnding)
    (h : parseContent o record raw currentSection lineNumber = .ok parsed) :
    LineSpec parsed.record raw lineEnding := by
  unfold parseContent at h
  by_cases hhead : (trimAscii raw).head? = some 91
  · rw [if_pos hhead] at h
    cases hclose : (trimAscii raw).findIdx? (· == 93) with
    | none =>
      rw [hclose] at h
      exact absurd h lineError_ne_ok
    | some close =>
      rw [hclose] at h
      obtain ⟨_, hname, h⟩ := except_bind_eq_ok.mp h
      cases h
      exact ⟨hrecord.raw_eq, hrecord.lineEnding_eq, hrecord.utf8, nofun, hrecord.value⟩
  · rw [if_neg hhead] at h
    cases hpos : separatorPos (raw.take (findInlineComment o raw)) with
    | none =>
      rw [hpos] at h
      exact absurd h lineError_ne_ok
    | some pos =>
      rw [hpos] at h
      dsimp only at h
      split_ifs at h with hglobal
      · exact absurd h lineError_ne_ok
      · obtain ⟨r, hr, h⟩ := except_bind_eq_ok.mp h
        cases h
        obtain ⟨hspec, hraw, hending⟩ := keyValueRecord_spec o hr
        refine ⟨by rw [hraw, hrecord.raw_eq], by rw [hending, hrecord.lineEnding_eq],
          by rw [hraw]; exact hrecord.utf8, fun _ => ?_, hspec.utf8.2.1⟩
        rw [hspec.pieces_eq o, hraw, hrecord.raw_eq]

theorem parseRecord_spec (hrecord : LineSpec record raw lineEnding)
    (h : parseRecord o record raw currentSection lineNumber = .ok parsed) :
    LineSpec parsed.record raw lineEnding := by
  unfold parseRecord at h
  cases hhead : (trimAscii raw).head? with
  | none =>
    rw [hhead] at h
    cases h
    exact hrecord
  | some first =>
    rw [hhead] at h
    dsimp only at h
    split_ifs at h with hcomment
    · obtain rfl := Except.ok.inj h
      exact ⟨hrecord.raw_eq, hrecord.lineEnding_eq, hrecord.utf8, nofun, hrecord.value⟩
    · exact parseContent_spec o hrecord h

/-- The record that `parse_line` starts with. -/
theorem parseLine_eq_ok (h : parseLine o raw lineEnding currentSection lineNumber = .ok parsed) :
    IsUtf8 raw ∧ parseRecord o
      { line := { sectionName := currentSection }, raw := raw, lineEnding := lineEnding } raw
      currentSection lineNumber = .ok parsed := by
  unfold parseLine at h
  split_ifs at h with hvalid
  · exact absurd h lineError_ne_ok
  · obtain ⟨_, hraw, h1⟩ := except_bind_eq_ok.mp h
    obtain ⟨_, hending, h2⟩ := except_bind_eq_ok.mp h1
    obtain ⟨_, hsection, h3⟩ := except_bind_eq_ok.mp h2
    obtain ⟨hraw', hutf8⟩ := internStd_eq_ok hraw
    obtain ⟨hending', -⟩ := internStd_eq_ok hending
    obtain ⟨hsection', -⟩ := internStd_eq_ok hsection
    rw [hraw', hending', hsection'] at h3
    exact ⟨hutf8, h3⟩

/-- **A line that is read keeps its text.** -/
theorem parseLine_spec (h : parseLine o raw lineEnding currentSection lineNumber = .ok parsed) :
    LineSpec parsed.record raw lineEnding := by
  obtain ⟨hutf8, h⟩ := parseLine_eq_ok o h
  have hrecord : LineSpec
      { line := { sectionName := currentSection }, raw := raw, lineEnding := lineEnding } raw
      lineEnding :=
    ⟨rfl, rfl, hutf8, fun hkind => (by cases hkind), isUtf8_nil⟩
  exact parseRecord_spec o hrecord h

/-! ## The records of a text -/

/-- The records that the lines of a text are read to, from a current section on. -/
def Lines : Bytes → List (Bytes × Bytes) → List LineRecord → Prop
  | _, [], [] => True
  | currentSection, line :: lines, r :: rs => ∃ lineNumber parsed,
      parseLine o line.1 line.2 currentSection lineNumber = .ok parsed ∧ parsed.record = r ∧
        Lines (parsed.nextSection.getD currentSection) lines rs
  | _, _, _ => False

theorem enterSection_eq_ok {s t : ReadState} {next : Option Bytes}
    (h : enterSection o s next = .ok t) :
    t.document = s.document ∧ t.currentSection = next.getD s.currentSection := by
  cases next with
  | none =>
    cases h
    exact ⟨rfl, rfl⟩
  | some name =>
    unfold enterSection at h
    dsimp only at h
    split_ifs at h
    · exact absurd h lineError_ne_ok
    · obtain rfl := Except.ok.inj h
      exact ⟨rfl, rfl⟩

theorem noteKey_eq_ok {s t : ReadState} {line : IniLine} (h : noteKey o s line = .ok t) :
    t.document = s.document ∧ t.currentSection = s.currentSection := by
  unfold noteKey at h
  split_ifs at h
  · exact absurd h lineError_ne_ok
  · obtain rfl := Except.ok.inj h
    exact ⟨rfl, rfl⟩
  · obtain rfl := Except.ok.inj h
    exact ⟨rfl, rfl⟩

/-- A turn of the loop reads a line and adds its record. -/
theorem readLine_eq_ok {s t : ReadState} {line : Bytes × Bytes} (h : readLine o s line = .ok t) :
    ∃ parsed, parseLine o line.1 line.2 s.currentSection s.lineNumber = .ok parsed ∧
      t.document = s.document.addRecord parsed.record ∧
      t.currentSection = parsed.nextSection.getD s.currentSection := by
  unfold readLine at h
  obtain ⟨parsed, hparsed, h⟩ := except_bind_eq_ok.mp h
  obtain ⟨s1, hs1, h⟩ := except_bind_eq_ok.mp h
  obtain ⟨s2, hs2, h⟩ := except_bind_eq_ok.mp h
  cases h
  obtain ⟨hdocument1, hsection1⟩ := enterSection_eq_ok o hs1
  obtain ⟨hdocument2, hsection2⟩ := noteKey_eq_ok o hs2
  refine ⟨parsed, hparsed, ?_, ?_⟩
  · change s2.document.addRecord _ = _
    rw [hdocument2, hdocument1]
  · change s2.currentSection = _
    rw [hsection2, hsection1]

theorem addRecord_records (d : IniDocument) (r : LineRecord) :
    (d.addRecord r).records = d.records ++ [r] := rfl

variable {lines : List (Bytes × Bytes)}

theorem lines_of_foldlM {s t : ReadState} (h : lines.foldlM (readLine o) s = .ok t) :
    ∃ rs, Lines o s.currentSection lines rs ∧
      t.document = rs.foldl IniDocument.addRecord s.document := by
  induction lines generalizing s with
  | nil =>
    cases h
    exact ⟨[], trivial, rfl⟩
  | cons line lines ih =>
    obtain ⟨s', hstep, h⟩ := foldlM_cons_eq_ok.mp h
    obtain ⟨parsed, hparsed, hdocument, hsection⟩ := readLine_eq_ok o hstep
    obtain ⟨rs, hrs, hfold⟩ := ih h
    refine ⟨parsed.record :: rs, ⟨_, parsed, hparsed, rfl, hsection ▸ hrs⟩, ?_⟩
    rw [hfold, hdocument, List.foldl_cons]

theorem foldl_addRecord (d : IniDocument) (rs : List LineRecord) :
    (rs.foldl IniDocument.addRecord d).records = d.records ++ rs := by
  induction rs generalizing d with
  | nil => simp
  | cons r rs ih => rw [List.foldl_cons, ih, addRecord_records, List.append_assoc,
      List.singleton_append]

variable {input : Bytes} {d : IniDocument}

/-- **What a text that is read gives**: the records of its lines, with their indexes. -/
theorem read_eq_ok (h : read o input = .ok d) :
    ∃ rs, Lines o [] (splitLines [] (skipBom input)) rs ∧
      d = (rs.foldl IniDocument.addRecord {}).rebuildIndex ∧ d.records = rs := by
  unfold read at h
  obtain ⟨s, hs, h⟩ := except_bind_eq_ok.mp h
  cases h
  obtain ⟨rs, hrs, hdocument⟩ := lines_of_foldlM o hs
  refine ⟨rs, hrs, by rw [hdocument], ?_⟩
  rw [IniDocument.rebuildIndex_records, hdocument, foldl_addRecord]
  rfl

variable {rs : List LineRecord}

/-- Each record is that of a line. -/
theorem Lines.forall₂ (h : Lines o currentSection lines rs) :
    List.Forall₂ (fun line r => LineSpec r line.1 line.2) lines rs := by
  induction lines generalizing currentSection rs with
  | nil =>
    cases rs with
    | nil => exact List.Forall₂.nil
    | cons r rs => exact h.elim
  | cons line lines ih =>
    cases rs with
    | nil => exact h.elim
    | cons r rs =>
      obtain ⟨_, parsed, hparsed, rfl, hrest⟩ := h
      exact List.Forall₂.cons (parseLine_spec o hparsed) (ih hrest)

theorem flatMap_lineText (h : List.Forall₂ (fun line r => LineSpec r line.1 line.2) lines rs) :
    rs.flatMap (IniWriter.lineText {}) = lines.flatMap fun line => line.1 ++ line.2 := by
  induction h with
  | nil => rfl
  | cons hline _ ih =>
    rw [List.flatMap_cons, List.flatMap_cons, ih]
    unfold IniWriter.lineText
    rw [if_pos rfl, hline.raw_eq, hline.lineEnding_eq]

theorem isUtf8_flatMap_lineText (h : ∀ r ∈ rs, IsUtf8 r.raw ∧ IsUtf8 r.lineEnding) :
    IsUtf8 (rs.flatMap (IniWriter.lineText {})) := by
  induction rs with
  | nil => exact isUtf8_nil
  | cons r rs ih =>
    obtain ⟨hr, hrs⟩ := List.forall_mem_cons.mp h
    rw [List.flatMap_cons]
    unfold IniWriter.lineText
    rw [if_pos rfl]
    exact IsUtf8.append (hr.1.append hr.2) (ih hrs)

/-- What holds of the record of a document that is read. -/
structure RecordSpec (r : LineRecord) : Prop where
  shape : LineShape r.raw r.lineEnding
  utf8 : IsUtf8 r.raw
  tiled : Tiled r
  value : IsUtf8 r.line.value

theorem recordSpec_of_forall₂ (h : List.Forall₂ (fun line r => LineSpec r line.1 line.2) lines rs)
    (hlines : ∀ line ∈ lines, LineShape line.1 line.2) : ∀ r ∈ rs, RecordSpec r := by
  induction h with
  | nil => exact fun _ hr => (nomatch hr)
  | cons hline _ ih =>
    obtain ⟨hshape, hlines⟩ := List.forall_mem_cons.mp hlines
    refine List.forall_mem_cons.mpr ⟨?_, ih hlines⟩
    rw [← hline.raw_eq, ← hline.lineEnding_eq] at hshape
    exact ⟨hshape, hline.utf8, hline.tiled, hline.value⟩

theorem read_recordSpec (h : read o input = .ok d) : ∀ r ∈ d.records, RecordSpec r := by
  obtain ⟨rs, hrs, -, hrecords⟩ := read_eq_ok o h
  rw [hrecords]
  exact recordSpec_of_forall₂ (hrs.forall₂ o) (splitLines_shape fun _ hb => (nomatch hb))

/-- **What is read is written back.** -/
theorem write_read_text (h : read o input = .ok d) :
    IniWriter.write {} d = .ok (skipBom input) := by
  have hspec := read_recordSpec o h
  obtain ⟨rs, hrs, -, hrecords⟩ := read_eq_ok o h
  have htext : d.records.flatMap (IniWriter.lineText {}) = skipBom input := by
    rw [hrecords, flatMap_lineText (hrs.forall₂ o), splitLines_flatten]
    rfl
  unfold IniWriter.write
  rw [utf8String_ok (isUtf8_flatMap_lineText fun r hr =>
    ⟨(hspec r hr).utf8, (hspec r hr).shape.isUtf8_ending⟩), htext]

theorem read_indexed (h : read o input = .ok d) : d.Indexed := by
  obtain ⟨rs, -, hd, -⟩ := read_eq_ok o h
  rw [hd]
  exact IniDocument.indexed_rebuildIndex _

end IniReader

/-! ## A value set to itself -/

namespace IniDocument

open IniReader

/-- The line of a key. -/
def keyRecord (d : IniDocument) (sectionName key : Bytes) : Option LineRecord :=
  (d.findKey sectionName key).bind fun i => d.records[i]?

theorem Indexed.findKey_eq {d : IniDocument} (hd : d.Indexed) (s k : Bytes) :
    d.findKey s k = (index d.records).findKey s k := by
  unfold findKey
  rw [hd.keyIndex_eq]

variable {r : LineRecord}

/-- The line of a key is the one that is found. -/
theorem keyRecord_eq_some {d : IniDocument} (hd : d.Indexed) {s k : Bytes}
    (h : d.keyRecord s k = some r) : ∃ i, d.findKey s k = some i ∧ d.records[i]? = some r ∧
      IsKeyLine s k r ∧ LastAt (IsKeyLine s k) d.records i := by
  obtain ⟨i, hi, hr⟩ := Option.bind_eq_some_iff.mp h
  have hlast := (findKey_index d.records s k).1 i (hd.findKey_eq s k ▸ hi)
  obtain ⟨r', hr', hkey⟩ := hlast.1
  obtain rfl : r' = r := Option.some.inj (hr'.symm.trans hr)
  exact ⟨i, hi, hr, hkey, hlast⟩

theorem get_eq_value {d : IniDocument} (hd : d.Indexed) {s k : Bytes}
    (h : d.keyRecord s k = some r) : d.get s k = .ok r.line.value := by
  obtain ⟨i, hi, hr, -, -⟩ := keyRecord_eq_some hd h
  unfold findKey at hi
  obtain ⟨keys, hkeys, hi⟩ := Option.bind_eq_some_iff.mp hi
  unfold get
  rw [hkeys]
  dsimp only
  rw [hi]
  change Except.ok (d.valueAt i) = _
  unfold valueAt
  rw [hr]
  rfl

theorem set_of_keyRecord {d : IniDocument} (hd : d.Indexed) {s k : Bytes}
    (h : d.keyRecord s k = some r) (value : Bytes) : ∃ i, d.findKey s k = some i ∧
      d.records[i]? = some r ∧ d.set s k value = d.setValueAt i r value := by
  obtain ⟨i, hi, hr, -, -⟩ := keyRecord_eq_some hd h
  refine ⟨i, hi, hr, ?_⟩
  unfold set
  rw [hi]
  dsimp only
  rw [hr]

/-- The text that is made of the pieces of a line whose value has no quotes. -/
theorem rebuiltRaw_of_unquoted (h : r.valueQuoted = false) : rebuiltRaw r = r.pieces := by
  unfold rebuiltRaw LineRecord.pieces
  rw [h]
  rfl

/-- A line that is set to its own value stays as it is. -/
theorem set_same {d : IniDocument} (hd : d.Indexed) {s k : Bytes}
    (h : d.keyRecord s k = some r) (hspec : RecordSpec r) (hquoted : r.valueQuoted = false) :
    ∃ d', d.set s k r.line.value = .ok d' ∧ d'.records = d.records := by
  obtain ⟨i, -, hr, hset⟩ := set_of_keyRecord hd h r.line.value
  obtain ⟨-, -, -, hkey, -⟩ := keyRecord_eq_some hd h
  rw [hset]
  unfold setValueAt
  rw [intern_of_isUtf8 hspec.value]
  have hraw : rebuiltRaw r = r.raw := by
    rw [rebuiltRaw_of_unquoted hquoted, hspec.tiled hkey.1]
  change ∃ d', (do
    let raw ← internStd (rebuiltRaw r)
    .ok { d with
      records := d.records.set i { r with raw := raw }
      publicLines := d.publicLines.set i r.line }) = .ok d' ∧ d'.records = d.records
  rw [hraw, internStd_ok hspec.utf8]
  refine ⟨_, rfl, ?_⟩
  obtain ⟨hi, rfl⟩ := List.getElem?_eq_some_iff.mp hr
  exact List.set_getElem_self hi

end IniDocument

namespace IniReader

/-- **Reading is lossless.** The writer gives back the text without its byte order mark, the pieces
of a key line are the line, and a value without quotes that is set to itself changes nothing that is
written. -/
theorem write_read (o : IniReaderOptions) (input : Bytes) (d : IniDocument)
    (h : read o input = .ok d) :
    IniWriter.write { lineEnding := [] } d = .ok (skipBom input) ∧
      (∀ r ∈ d.records, r.line.kind = .keyValue →
        r.keyPrefix ++ r.line.key ++ r.keySuffix ++ r.separator ++ r.valuePrefix ++ r.line.value ++
          r.commentSuffix = r.raw) ∧
      ∀ sectionName key r, d.keyRecord sectionName key = some r → r.valueQuoted = false →
        d.get sectionName key = .ok r.line.value ∧
          ∃ d', d.set sectionName key r.line.value = .ok d' ∧
            ∀ wo, IniWriter.write wo d' = IniWriter.write wo d := by
  have hspec := read_recordSpec o h
  have hindexed := read_indexed o h
  refine ⟨write_read_text o h, fun r hr => (hspec r hr).tiled, fun s k r hkey hquoted => ?_⟩
  refine ⟨IniDocument.get_eq_value hindexed hkey, ?_⟩
  obtain ⟨_, _, hr, -, -⟩ := IniDocument.keyRecord_eq_some hindexed hkey
  obtain ⟨d', hset, hrecords⟩ :=
    IniDocument.set_same hindexed hkey (hspec r (List.mem_of_getElem? hr)) hquoted
  refine ⟨d', hset, fun wo => ?_⟩
  unfold IniWriter.write
  rw [hrecords]

/-- A text with a byte order mark, mixed line ends, a section, comments and quotes. -/
def sampleText : Bytes :=
  bom ++ ascii "top=1\r\n[net]\r port : 8080  # default = 80\n\nhost=\"a b\""

theorem write_read_sample : ∃ d, read {} sampleText = .ok d ∧
    IniWriter.write { lineEnding := [] } d = .ok (sampleText.drop 3) ∧
    (d.keyRecord (ascii "net") (ascii "port")).map (fun r => r.valueQuoted) = some false := by
  have hread : (read {} sampleText).toOption.isSome = true := by decide
  have hkey : ((read {} sampleText).toOption.bind fun d =>
      (d.keyRecord (ascii "net") (ascii "port")).map fun r => r.valueQuoted) = some false := by
    decide
  cases h : read {} sampleText with
  | error e =>
    rw [h] at hread
    cases hread
  | ok d =>
    rw [h] at hkey
    exact ⟨d, rfl, (write_read {} sampleText d h).1, hkey⟩

end IniReader

end Libca.Ini
