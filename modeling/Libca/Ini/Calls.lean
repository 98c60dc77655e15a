import Libca.Ini.Editing

/-!
# Calls that edit an INI document (`ini/ini_document.cpp` 99-344)

`set`, `remove` and `remove_section` in any order, on a document that was read with any options.

Left out: typed getters, `clear`.

* `Text`: what a `Utf8StringRef` refers to.
* `Placed`: each key is a line of the section above it; `Consistent`: what every call keeps.
* `set_spec`, `remove_spec`, `removeSection_spec`: what a call does to the lines.
* `editing`: the indexes are those of the lines after every run of calls, and `set` changes one
  value; **a key, or a section, is gone behind its removal exactly when it had one line**.
-/

namespace Libca.Ini

open Common Str

/-! ## The calls -/

namespace IniDocument

/-- `has_section`. -/
def hasSection (d : IniDocument) (sectionName : Bytes) : Bool :=
  if sectionName = [] then (d.keyIndex.find sectionName).isSome
  else (d.sectionIndex.find sectionName).isSome

/-- `has`. -/
def has (d : IniDocument) (sectionName key : Bytes) : Bool := (d.findKey sectionName key).isSome

/-- `remove`. -/
def remove (d : IniDocument) (sectionName key : Bytes) : Bool × IniDocument :=
  match d.findKey sectionName key with
  | none => (false, d)
  | some i => (true, { d with records := d.records.take i ++ d.records.drop (i + 1) }.rebuildIndex)

/-- The loop of `remove_section` that leaves the blank lines and comments at the end. -/
def reclaim (records : List LineRecord) (start : Nat) : Nat → Nat
  | 0 => 0
  | last + 1 =>
    if start < last ∧
        (records[last]?).any (fun r => r.line.kind = .blank ∨ r.line.kind = .comment) = true then
      reclaim records start last
    else last + 1

/-- A line of the global section. -/
def isGlobalKey (r : LineRecord) : Bool := r.line.kind = .keyValue ∧ r.line.sectionName = []

/-- `remove_section`. -/
def removeSection (d : IniDocument) (sectionName : Bytes) : Bool × IniDocument :=
  if sectionName = [] then
    let removed := d.records.any isGlobalKey
    let d := { d with records := d.records.filter fun r => !isGlobalKey r }
    if removed then (true, d.rebuildIndex) else (false, d)
  else
    match d.sectionIndex.find sectionName with
    | none => (false, d)
    | some start =>
      let last := sectionEnd d.records (start + 1)
      let last := if last < d.records.length then reclaim d.records start last else last
      (true, { d with records := d.records.take start ++ d.records.drop last }.rebuildIndex)

end IniDocument

/-- What a `Utf8StringRef` refers to. -/
structure Text where
  bytes : Bytes
  utf8 : IsUtf8 bytes

/-- The calls that edit. -/
inductive Call
  | set (sectionName key value : Text)
  | remove (sectionName key : Text)
  | removeSection (sectionName : Text)

/-- A call. -/
def call (d : IniDocument) : Call → Except Failure IniDocument
  | .set sectionName key value => d.set sectionName.bytes key.bytes value.bytes
  | .remove sectionName key => .ok (d.remove sectionName.bytes key.bytes).2
  | .removeSection sectionName => .ok (d.removeSection sectionName.bytes).2

/-! ## Where the keys are -/

/-- Each key is a line of the section that is current. -/
def Placed : Bytes → List LineRecord → Prop
  | _, [] => True
  | currentSection, r :: rs => (r.line.kind = .keyValue → r.line.sectionName = currentSection) ∧
      Placed (r.line.section?.getD currentSection) rs

variable {currentSection : Bytes}

theorem placed_append {as bs : List LineRecord} :
    Placed currentSection (as ++ bs) ↔
      Placed currentSection as ∧ Placed (sectionAfter currentSection as) bs := by
  induction as generalizing currentSection with
  | nil => simp [Placed, sectionAfter]
  | cons a as ih =>
    rw [List.cons_append, Placed, Placed, ih, and_assoc]
    rfl

variable {rs : List LineRecord}

/-- Only the kinds and the sections of the lines count. -/
theorem placed_congr {rs' : List LineRecord}
    (h : rs.map (fun r => (r.line.kind, r.line.sectionName, r.line.key)) =
      rs'.map fun r => (r.line.kind, r.line.sectionName, r.line.key))
    (hplaced : Placed currentSection rs) : Placed currentSection rs' := by
  induction rs generalizing currentSection rs' with
  | nil =>
    obtain rfl := List.map_eq_nil_iff.mp h.symm
    trivial
  | cons r rs ih =>
    obtain ⟨r', rs', rfl, hr, hrs⟩ := List.map_eq_cons_iff.mp h.symm
    obtain ⟨hkind, hrest⟩ := Prod.mk.inj hr
    obtain ⟨hsection, -⟩ := Prod.mk.inj hrest
    have hstart : r'.line.section? = r.line.section? := by
      unfold IniLine.section?
      rw [hkind, hsection]
    refine ⟨?_, ?_⟩
    · rw [hkind, hsection]
      exact hplaced.1
    · rw [hstart]
      exact ih hrs.symm hplaced.2

/-- A section without a header has no keys. -/
theorem Placed.not_key {s : Bytes} (h : Placed currentSection rs)
    (hs : s ≠ currentSection) (hheader : ∀ r ∈ rs, ¬ IsHeader s r) :
    ∀ r ∈ rs, ¬ (r.line.kind = .keyValue ∧ r.line.sectionName = s) := by
  induction rs generalizing currentSection with
  | nil => exact List.forall_mem_nil _
  | cons r rs ih =>
    obtain ⟨hr, hrs⟩ := List.forall_mem_cons.mp hheader
    refine List.forall_mem_cons.mpr ⟨?_, ih h.2 ?_ hrs⟩
    · rintro ⟨hkind, rfl⟩
      exact hs (h.1 hkind)
    · unfold IniLine.section?
      by_cases hkind : r.line.kind = .sectionHeader
      · rw [if_pos hkind]
        exact fun hname => hr ⟨hkind, hname.symm⟩
      · rw [if_neg hkind]
        exact hs

/-- Lines behind which a header starts can be put anywhere. -/
theorem Placed.move {other : Bytes}
    (hstart : ∀ r ∈ rs.head?, r.line.kind = .sectionHeader) (h : Placed currentSection rs) :
    Placed other rs := by
  cases rs with
  | nil => trivial
  | cons r rs =>
    have hkind : r.line.kind = .sectionHeader := hstart r rfl
    have hsection : r.line.section? = some r.line.sectionName := if_pos hkind
    refine ⟨fun hkey => ?_, ?_⟩
    · rw [hkind] at hkey
      cases hkey
    · have hrest := h.2
      rw [hsection] at hrest ⊢
      exact hrest

theorem placed_of_no_keys (h : ∀ r ∈ rs, r.line.kind ≠ .keyValue) : Placed currentSection rs := by
  induction rs generalizing currentSection with
  | nil => trivial
  | cons r rs ih =>
    obtain ⟨hr, hrs⟩ := List.forall_mem_cons.mp h
    exact ⟨fun hkey => absurd hkey hr, ih hrs⟩

theorem Placed.filter {p : LineRecord → Bool}
    (hp : ∀ r, p r = false → r.line.kind = .keyValue) (h : Placed currentSection rs) :
    Placed currentSection (rs.filter p) := by
  induction rs generalizing currentSection with
  | nil => trivial
  | cons r rs ih =>
    rw [List.filter_cons]
    by_cases hr : p r = true
    · rw [if_pos hr]
      exact ⟨h.1, ih h.2⟩
    · rw [if_neg hr]
      have hkind := hp r (Bool.not_eq_true _ ▸ hr)
      have hsection : r.line.section? = none := by
        unfold IniLine.section?
        rw [hkind]
        rfl
      have hrest := h.2
      rw [hsection] at hrest
      exact ih hrest

/-! ## What every call keeps -/

/-- The pieces of a line are UTF-8, whatever value is put between them. -/
structure Pieces (r : LineRecord) : Prop where
  front : IsUtf8 (r.keyPrefix ++ r.line.key ++ r.keySuffix ++ r.separator ++ r.valuePrefix)
  quote : r.valueQuoteChar < 0x80
  back : IsUtf8 r.commentSuffix

/-- **What holds of a document after every run of calls.** -/
structure Consistent (d : IniDocument) : Prop where
  indexed : d.Indexed
  placed : Placed [] d.records
  pieces : ∀ r ∈ d.records, r.line.kind = .keyValue → Pieces r
  ending : IsUtf8 d.defaultLineEnding

variable {d : IniDocument} {s k v : Bytes}

theorem Consistent.rebuild (hplaced : Placed [] d.records)
    (hpieces : ∀ r ∈ d.records, r.line.kind = .keyValue → Pieces r)
    (hending : IsUtf8 d.defaultLineEnding) :
    Consistent d.rebuildIndex := by
  refine ⟨IniDocument.indexed_rebuildIndex d, ?_, ?_, ?_⟩
  · rwa [IniDocument.rebuildIndex_records]
  · rwa [IniDocument.rebuildIndex_records]
  · rwa [IniDocument.rebuildIndex_defaultLineEnding]

/-! ## A document that is read -/

section Read

variable (o : IniReader.IniReaderOptions)

/-- What a line that is read gives. -/
structure ParsedSpec (parsed : IniReader.LineParse) (currentSection : Bytes) : Prop where
  nextSection : parsed.record.line.section? = parsed.nextSection
  placed : parsed.record.line.kind = .keyValue → parsed.record.line.sectionName = currentSection
  pieces : parsed.record.line.kind = .keyValue → Pieces parsed.record

theorem detectQuotes_ascii {value : Bytes} : (IniReader.detectQuotes value).getD 34 < 0x80 := by
  unfold IniReader.detectQuotes
  split
  · split_ifs with h
    · rcases h.2.1 with rfl | rfl <;> decide
    · decide
  · decide

theorem keyValueRecord_pieces {record r : LineRecord} {raw currentSection : Bytes} {pos : Nat}
    (h : IniReader.keyValueRecord o record raw currentSection pos = .ok r) : Pieces r := by
  have hquote : r.valueQuoteChar < 0x80 := by
    unfold IniReader.keyValueRecord at h
    obtain ⟨_, -, h⟩ := except_bind_eq_ok.mp h
    obtain ⟨_, -, h⟩ := except_bind_eq_ok.mp h
    obtain ⟨_, -, h⟩ := except_bind_eq_ok.mp h
    obtain ⟨_, -, h⟩ := except_bind_eq_ok.mp h
    obtain ⟨_, -, h⟩ := except_bind_eq_ok.mp h
    obtain ⟨_, -, h⟩ := except_bind_eq_ok.mp h
    obtain ⟨_, -, h⟩ := except_bind_eq_ok.mp h
    obtain ⟨_, -, h⟩ := except_bind_eq_ok.mp h
    cases h
    exact detectQuotes_ascii
  obtain ⟨hspec, -, -⟩ := IniReader.keyValueRecord_spec o h
  obtain ⟨hkey, -, hindent, hsuffix, hseparator, hvalue, hcomment⟩ := hspec.utf8
  exact ⟨(((hindent.append hkey).append hsuffix).append hseparator).append hvalue, hquote, hcomment⟩

theorem parseContent_parsed {record : LineRecord} {raw currentSection : Bytes} {lineNumber : Nat}
    {parsed : IniReader.LineParse}
    (h : IniReader.parseContent o record raw currentSection lineNumber = .ok parsed) :
    ParsedSpec parsed currentSection := by
  unfold IniReader.parseContent at h
  by_cases hhead : (trimAscii raw).head? = some 91
  · rw [if_pos hhead] at h
    cases hclose : (trimAscii raw).findIdx? (· == 93) with
    | none =>
      rw [hclose] at h
      exact absurd h IniReader.lineError_ne_ok
    | some close =>
      rw [hclose] at h
      obtain ⟨_, hname, h⟩ := except_bind_eq_ok.mp h
      obtain ⟨rfl, -⟩ := internStd_eq_ok hname
      cases h
      exact ⟨rfl, nofun, nofun⟩
  · rw [if_neg hhead] at h
    cases hpos : IniReader.separatorPos (raw.take (IniReader.findInlineComment o raw)) with
    | none =>
      rw [hpos] at h
      exact absurd h IniReader.lineError_ne_ok
    | some pos =>
      rw [hpos] at h
      dsimp only at h
      split_ifs at h with hglobal
      · exact absurd h IniReader.lineError_ne_ok
      · obtain ⟨r, hr, h⟩ := except_bind_eq_ok.mp h
        cases h
        obtain ⟨hspec, -, -⟩ := IniReader.keyValueRecord_spec o hr
        refine ⟨?_, fun _ => ?_, fun _ => keyValueRecord_pieces o hr⟩
        · unfold IniLine.section?
          rw [hspec.line]
          rfl
        · rw [hspec.line]

theorem parseLine_parsed {raw lineEnding currentSection : Bytes} {lineNumber : Nat}
    {parsed : IniReader.LineParse}
    (h : IniReader.parseLine o raw lineEnding currentSection lineNumber = .ok parsed) :
    ParsedSpec parsed currentSection := by
  obtain ⟨-, h⟩ := IniReader.parseLine_eq_ok o h
  unfold IniReader.parseRecord at h
  cases hhead : (trimAscii raw).head? with
  | none =>
    rw [hhead] at h
    cases h
    exact ⟨rfl, nofun, nofun⟩
  | some first =>
    rw [hhead] at h
    dsimp only at h
    split_ifs at h with hcomment
    · obtain rfl := Except.ok.inj h
      exact ⟨rfl, nofun, nofun⟩
    · exact parseContent_parsed o h

theorem lines_placed {currentSection : Bytes} {lines : List (Bytes × Bytes)} {rs : List LineRecord}
    (h : IniReader.Lines o currentSection lines rs) :
    Placed currentSection rs ∧ ∀ r ∈ rs, r.line.kind = .keyValue → Pieces r := by
  induction lines generalizing currentSection rs with
  | nil =>
    cases rs with
    | nil => exact ⟨trivial, List.forall_mem_nil _⟩
    | cons r rs => exact h.elim
  | cons line lines ih =>
    cases rs with
    | nil => exact h.elim
    | cons r rs =>
      obtain ⟨_, parsed, hparsed, rfl, hrest⟩ := h
      have hspec := parseLine_parsed o hparsed
      obtain ⟨hplaced, hpieces⟩ := ih hrest
      refine ⟨⟨hspec.placed, ?_⟩, List.forall_mem_cons.mpr ⟨hspec.pieces, hpieces⟩⟩
      rw [hspec.nextSection]
      exact hplaced

/-- **A document that is read is consistent**, whatever the options. -/
theorem consistent_of_read {input : Bytes} (h : IniReader.read o input = .ok d) : Consistent d := by
  obtain ⟨rs, hrs, hd, hrecords⟩ := IniReader.read_eq_ok o h
  have hspec := IniReader.read_recordSpec o h
  obtain ⟨hplaced, hpieces⟩ := lines_placed o hrs
  rw [hrecords] at hspec
  refine ⟨IniReader.read_indexed o h, by rwa [hrecords], by rwa [hrecords], ?_⟩
  have hending : IniReader.IsLineEnding d.defaultLineEnding := by
    rw [hd, IniDocument.rebuildIndex_defaultLineEnding]
    exact isLineEnding_foldl (fun r hr => (hspec r hr).shape) (.inl rfl)
  obtain hlf | hcr | hcrlf := hending
  · rw [hlf]
    exact isUtf8_of_ascii (by decide)
  · rw [hcr]
    exact isUtf8_of_ascii (by decide)
  · rw [hcrlf]
    exact isUtf8_of_ascii (by decide)

end Read

/-! ## Keys and sections -/

/-- A key is there if it has a line. -/
theorem Consistent.has_iff (h : Consistent d) :
    d.has s k = true ↔ ∃ r ∈ d.records, IsKeyLine s k r := by
  obtain ⟨hfound, hnone⟩ := IniDocument.findKey_index d.records s k
  rw [← h.indexed.findKey_eq] at hfound hnone
  unfold IniDocument.has
  constructor
  · intro hsome
    obtain ⟨i, hi⟩ := Option.isSome_iff_exists.mp hsome
    obtain ⟨⟨r, hr, hkey⟩, -⟩ := hfound i hi
    exact ⟨r, List.mem_of_getElem? hr, hkey⟩
  · rintro ⟨r, hr, hkey⟩
    by_contra hno
    rw [Option.not_isSome_iff_eq_none] at hno
    exact hnone hno r hr hkey

/-- A section with a name is there if it has a header. -/
theorem Consistent.hasSection_iff (h : Consistent d) (hs : s ≠ []) :
    d.hasSection s = true ↔ ∃ r ∈ d.records, IsHeader s r := by
  obtain ⟨hfound, hnone⟩ := IniDocument.find_sectionIndex d.records s
  rw [← h.indexed.sectionIndex_eq] at hfound hnone
  unfold IniDocument.hasSection
  rw [if_neg hs]
  constructor
  · intro hsome
    obtain ⟨i, hi⟩ := Option.isSome_iff_exists.mp hsome
    obtain ⟨⟨r, hr, hheader⟩, -⟩ := hfound i hi
    exact ⟨r, List.mem_of_getElem? hr, hheader⟩
  · rintro ⟨r, hr, hheader⟩
    by_contra hno
    rw [Option.not_isSome_iff_eq_none] at hno
    exact hnone hno r hr hheader

instance (s k : Bytes) (r : LineRecord) : Decidable (IsKeyLine s k r) :=
  inferInstanceAs (Decidable (_ ∧ _))

instance (s : Bytes) (r : LineRecord) : Decidable (IsHeader s r) :=
  inferInstanceAs (Decidable (_ ∧ _))

/-- The number of lines of a key. -/
def keyLines (d : IniDocument) (s k : Bytes) : Nat := d.records.countP fun r => IsKeyLine s k r

/-- The number of headers of a section. -/
def headerLines (d : IniDocument) (s : Bytes) : Nat := d.records.countP fun r => IsHeader s r

theorem Consistent.has_eq_false (h : Consistent d) : d.has s k = false ↔ keyLines d s k = 0 := by
  unfold keyLines
  rw [← Bool.not_eq_true, h.has_iff, List.countP_eq_zero]
  simp only [decide_eq_true_eq, not_exists, not_and]

theorem Consistent.hasSection_eq_false (h : Consistent d) (hs : s ≠ []) :
    d.hasSection s = false ↔ headerLines d s = 0 := by
  unfold headerLines
  rw [← Bool.not_eq_true, h.hasSection_iff hs, List.countP_eq_zero]
  simp only [decide_eq_true_eq, not_exists, not_and]

/-- A section without a header has no keys. -/
theorem Consistent.has_of_no_header (h : Consistent d) (hs : s ≠ []) (hzero : headerLines d s = 0) :
    d.has s k = false := by
  have hnone : ∀ r ∈ d.records, ¬ IsHeader s r := by
    intro r hr hheader
    exact List.countP_eq_zero.mp hzero r hr (decide_eq_true hheader)
  rw [← Bool.not_eq_true, h.has_iff]
  rintro ⟨r, hr, hkind, hsection, -⟩
  exact h.placed.not_key hs hnone r hr ⟨hkind, hsection⟩

/-! ## Removing a key -/

/-- The lines around a position. -/
theorem records_split {i : Nat} {r : LineRecord} (h : rs[i]? = some r) :
    rs = rs.take i ++ r :: rs.drop (i + 1) := by
  obtain ⟨hi, hget⟩ := List.getElem?_eq_some_iff.mp h
  rw [← hget, List.getElem_cons_drop, List.take_append_drop]

/-- **`remove` takes one line of the key away.** -/
theorem Consistent.remove_spec (h : Consistent d) (s k : Bytes) :
    Consistent (d.remove s k).2 ∧ keyLines (d.remove s k).2 s k = keyLines d s k - 1 := by
  obtain ⟨hfound, -⟩ := IniDocument.findKey_index d.records s k
  rw [← h.indexed.findKey_eq] at hfound
  unfold IniDocument.remove
  cases hfind : d.findKey s k with
  | none =>
    have hzero : keyLines d s k = 0 := by
      rw [← h.has_eq_false, IniDocument.has, hfind]
      rfl
    dsimp only
    exact ⟨h, by rw [hzero]⟩
  | some i =>
    obtain ⟨⟨r, hr, hkey⟩, -⟩ := hfound i hfind
    have hsplit := records_split hr
    have hsection : r.line.section? = none := by
      unfold IniLine.section?
      rw [hkey.1]
      rfl
    constructor
    · refine Consistent.rebuild ?_ ?_ h.ending
      · have hplaced := h.placed
        rw [hsplit, placed_append, Placed, hsection] at hplaced
        exact placed_append.mpr ⟨hplaced.1, hplaced.2.2⟩
      · intro r' hr'
        refine h.pieces r' ?_
        rcases List.mem_append.mp hr' with hmem | hmem
        · exact List.mem_of_mem_take hmem
        · exact List.mem_of_mem_drop hmem
    · unfold keyLines
      rw [IniDocument.rebuildIndex_records]
      conv_rhs => rw [hsplit]
      rw [List.countP_append, List.countP_append, List.countP_cons, if_pos (decide_eq_true hkey)]
      omega

/-! ## Removing a section -/

/-- The loop leaves blank lines and comments only. -/
theorem reclaim_spec (records : List LineRecord) (start : Nat) {last : Nat} (h : start < last) :
    start < IniDocument.reclaim records start last ∧ IniDocument.reclaim records start last ≤ last ∧
      ∀ j, IniDocument.reclaim records start last ≤ j → j < last → ∀ r ∈ records[j]?,
        r.line.kind = .blank ∨ r.line.kind = .comment := by
  induction last with
  | zero => exact absurd h (Nat.not_lt_zero start)
  | succ last ih =>
    unfold IniDocument.reclaim
    by_cases hstep : start < last ∧
        (records[last]?).any (fun r => r.line.kind = .blank ∨ r.line.kind = .comment) = true
    · rw [if_pos hstep]
      obtain ⟨hlt, hle, hbetween⟩ := ih hstep.1
      refine ⟨hlt, Nat.le_succ_of_le hle, fun j hj hj' r hr => ?_⟩
      rcases Nat.lt_succ_iff_lt_or_eq.mp hj' with hj' | rfl
      · exact hbetween j hj hj' r hr
      · have hany := hstep.2
        rw [Option.mem_def.mp hr, Option.any_some] at hany
        exact of_decide_eq_true hany
    · rw [if_neg hstep]
      exact ⟨h, le_rfl, fun j hj hj' => absurd hj' (Nat.not_lt.mpr hj)⟩

/-- **What `remove_section` takes away**: a header and the lines up to the next one, without the
blank lines and comments in front of that. -/
structure Removal (d : IniDocument) (s : Bytes) (front mid tail rest : List LineRecord)
    (header : LineRecord) : Prop where
  before : d.records = front ++ header :: mid ++ tail ++ rest
  header_eq : IsHeader s header
  mid_plain : ∀ r ∈ mid, r.line.kind ≠ .sectionHeader
  tail_plain : ∀ r ∈ tail, r.line.kind = .blank ∨ r.line.kind = .comment
  rest_start : ∀ r ∈ rest.head?, r.line.kind = .sectionHeader
  after : (d.removeSection s).2 = { d with records := front ++ tail ++ rest }.rebuildIndex

/-- The lines that are taken from a position on end at a header. -/
theorem head?_drop_takeWhile {α : Type} (p : α → Bool) (as : List α) :
    ∀ a ∈ (as.drop (as.takeWhile p).length).head?, p a = false := by
  have hdrop : as.drop (as.takeWhile p).length = as.dropWhile p := by
    have hleft : (as.takeWhile p ++ as.dropWhile p).drop (as.takeWhile p).length = as.dropWhile p :=
      List.drop_left
    rwa [List.takeWhile_append_dropWhile] at hleft
  intro a ha
  have hnot := List.head?_dropWhile_not p as
  rw [hdrop] at ha
  rw [Option.mem_def.mp ha] at hnot
  exact hnot

/-- A section that is found is removed with the lines of its last header. -/
theorem exists_removal (hs : s ≠ []) {start : Nat} (hstart : d.sectionIndex.find s = some start)
    (hheader : LastAt (IsHeader s) d.records start) :
    ∃ front mid tail rest header, Removal d s front mid tail rest header := by
  obtain ⟨⟨r, hr, hname⟩, -⟩ := hheader
  obtain ⟨L, hL⟩ : ∃ L, L = d.records.drop (start + 1) := ⟨_, rfl⟩
  obtain ⟨plain, hplain⟩ : ∃ plain : LineRecord → Bool,
      plain = fun r : LineRecord => decide (r.line.kind ≠ .sectionHeader) :=
    ⟨_, rfl⟩
  obtain ⟨n, hn⟩ : ∃ n, n = (L.takeWhile plain).length := ⟨_, rfl⟩
  have hend : IniDocument.sectionEnd d.records (start + 1) = start + 1 + n := by
    unfold IniDocument.sectionEnd
    rw [hn, hL, hplain]
  have htake : L.take n = L.takeWhile plain := by
    rw [hn]
    exact (List.prefix_iff_eq_take.mp (List.takeWhile_prefix _)).symm
  -- where the removal ends
  obtain ⟨last, hlast⟩ : ∃ last, last = if start + 1 + n < d.records.length then
      IniDocument.reclaim d.records start (start + 1 + n) else start + 1 + n := ⟨_, rfl⟩
  have hbounds : start < last ∧ last ≤ start + 1 + n ∧ ∀ j, last ≤ j → j < start + 1 + n →
      ∀ r ∈ d.records[j]?, r.line.kind = .blank ∨ r.line.kind = .comment := by
    rw [hlast]
    split_ifs
    · exact reclaim_spec d.records start (by omega)
    · exact ⟨by omega, le_rfl, fun j hj hj' => absurd hj' (Nat.not_lt.mpr hj)⟩
  obtain ⟨hlt, hle, hbetween⟩ := hbounds
  obtain ⟨m, hm⟩ : ∃ m, last = start + 1 + m := ⟨last - (start + 1), by omega⟩
  have htail : L.drop m = (L.drop m).take (n - m) ++ L.drop n := by
    have hrest : L.drop n = (L.drop m).drop (n - m) := by
      rw [List.drop_drop, Nat.add_sub_cancel' (by omega)]
    rw [hrest, List.take_append_drop]
  have hlines : L = L.take m ++ (L.drop m).take (n - m) ++ L.drop n := by
    rw [List.append_assoc, ← htail, List.take_append_drop]
  refine ⟨d.records.take start, L.take m, (L.drop m).take (n - m), L.drop n, r, ?_, hname, ?_, ?_,
    ?_, ?_⟩
  · conv_lhs => rw [records_split hr, ← hL, hlines]
    simp only [List.append_assoc, List.cons_append]
  · intro x hx
    have hmem : x ∈ L.takeWhile plain := by
      rw [← htake]
      exact (List.take_subset_take_left L (by omega)) hx
    have hkind := List.mem_takeWhile_imp hmem
    rw [hplain] at hkind
    exact of_decide_eq_true hkind
  · intro x hx
    obtain ⟨j, hj⟩ := List.getElem?_of_mem hx
    have hjlt : j < n - m := by
      have hlen := (List.getElem?_eq_some_iff.mp hj).1
      rw [List.length_take] at hlen
      omega
    rw [List.getElem?_take_of_lt hjlt, List.getElem?_drop, hL, List.getElem?_drop] at hj
    exact hbetween (start + 1 + (m + j)) (by omega) (by omega) x hj
  · intro x hx
    rw [hn] at hx
    have hkind := head?_drop_takeWhile plain L x hx
    rw [hplain] at hkind
    exact Classical.not_not.mp (of_decide_eq_false hkind)
  · unfold IniDocument.removeSection
    rw [if_neg hs, hstart]
    dsimp only
    rw [hend, ← hlast, hm, ← List.drop_drop, ← hL, List.append_assoc]
    congr 3

/-- **`remove_section` takes one header away, with its keys.** -/
theorem Consistent.removeSection_spec (h : Consistent d) (hs : s ≠ []) :
    Consistent (d.removeSection s).2 ∧ headerLines (d.removeSection s).2 s =
      headerLines d s - 1 := by
  cases hfind : d.sectionIndex.find s with
  | none =>
    have hsame : (d.removeSection s).2 = d := by
      unfold IniDocument.removeSection
      rw [if_neg hs, hfind]
    have hzero : headerLines d s = 0 := by
      rw [← h.hasSection_eq_false hs, IniDocument.hasSection, if_neg hs, hfind]
      rfl
    rw [hsame]
    exact ⟨h, by rw [hzero]⟩
  | some start =>
    have hheader :=
      (IniDocument.find_sectionIndex d.records s).1 start (h.indexed.sectionIndex_eq ▸ hfind)
    obtain ⟨front, mid, tail, rest, header, hremoval⟩ := exists_removal hs hfind hheader
    have hbefore := hremoval.before
    have htailKeys : ∀ r ∈ tail, r.line.kind ≠ .keyValue := by
      intro r hr hkey
      rcases hremoval.tail_plain r hr with hkind | hkind <;> rw [hkind] at hkey <;> cases hkey
    rw [hremoval.after]
    constructor
    · refine Consistent.rebuild ?_ ?_ h.ending
      · have hplaced := h.placed
        rw [hbefore, List.append_assoc, List.append_assoc, placed_append, ← List.append_assoc,
          placed_append] at hplaced
        dsimp only
        rw [List.append_assoc, placed_append, placed_append]
        exact ⟨hplaced.1, placed_of_no_keys htailKeys, hplaced.2.2.move hremoval.rest_start⟩
      · intro r hr
        refine h.pieces r ?_
        rw [hbefore]
        simp only [List.mem_append, List.mem_cons] at hr ⊢
        tauto
    · have hmid : mid.countP (fun r => IsHeader s r) = 0 :=
        List.countP_eq_zero.mpr fun r hr hname =>
          hremoval.mid_plain r hr (of_decide_eq_true hname).1
      have htail : tail.countP (fun r => IsHeader s r) = 0 := by
        refine List.countP_eq_zero.mpr fun r hr hname => ?_
        have hkind := (of_decide_eq_true hname).1
        rcases hremoval.tail_plain r hr with hblank | hblank <;> rw [hkind] at hblank <;>
          cases hblank
      unfold headerLines
      rw [IniDocument.rebuildIndex_records, hbefore]
      dsimp only
      rw [List.countP_append, List.countP_append, List.countP_append, List.countP_append,
        List.countP_append, List.countP_cons, if_pos (decide_eq_true hremoval.header_eq), hmid,
          htail]
      omega

/-- The global section loses its keys. -/
theorem Consistent.removeSection_global (h : Consistent d) : Consistent (d.removeSection []).2 := by
  have hkeys : ∀ r, (!IniDocument.isGlobalKey r) = false → r.line.kind = .keyValue := by
    intro r hr
    rw [Bool.not_eq_false'] at hr
    exact (of_decide_eq_true hr).1
  unfold IniDocument.removeSection
  rw [if_pos rfl]
  dsimp only
  by_cases hremoved : d.records.any IniDocument.isGlobalKey = true
  · rw [if_pos hremoved]
    refine Consistent.rebuild (h.placed.filter hkeys) (fun r hr => ?_) h.ending
    exact h.pieces r (List.mem_of_mem_filter hr)
  · rw [if_neg hremoved]
    have hall : (d.records.filter fun r => !IniDocument.isGlobalKey r) = d.records := by
      rw [List.filter_eq_self]
      intro r hr
      rw [Bool.not_eq_true', ← Bool.not_eq_true]
      exact fun hglobal => hremoved (List.any_eq_true.mpr ⟨r, hr, hglobal⟩)
    dsimp only
    rw [hall]
    exact h

/-! ## Setting a value -/

/-- The entries behind a call of `set`: that of the key is put in the place of its last one, or
where there was none. -/
structure Assigned (d d' : IniDocument) (s k v : Bytes) (front old back : List Entry) : Prop where
  before : entries d.records = front ++ old ++ back
  after : entries d'.records = front ++ [⟨s, k, v⟩] ++ back
  old_key : ∀ e ∈ old, e.sectionName = s ∧ e.key = k
  back_key : ∀ e ∈ back, ¬ (e.sectionName = s ∧ e.key = k)

theorem isUtf8_rebuiltRaw {r : LineRecord} (h : Pieces r) (hvalue : IsUtf8 r.line.value) :
    IsUtf8 (IniDocument.rebuiltRaw r) := by
  have hquote : IsUtf8 [r.valueQuoteChar] := isUtf8_of_ascii (List.forall_mem_singleton.mpr h.quote)
  unfold IniDocument.rebuiltRaw
  dsimp only
  refine (h.front.append ?_).append h.back
  split_ifs
  · exact (hquote.append hvalue).append hquote
  · exact hvalue

/-- The value of a key that is there is changed in its last line. -/
theorem Consistent.set_existing (h : Consistent d) (hv : IsUtf8 v) {i : Nat}
    (hfind : d.findKey s k = some i) :
    ∃ d', d.set s k v = .ok d' ∧ Consistent d' ∧ ∃ front old back,
      Assigned d d' s k v front old back := by
  have hlast := (IniDocument.findKey_index d.records s k).1 i (h.indexed.findKey_eq s k ▸ hfind)
  obtain ⟨⟨r, hr, hkey⟩, hbehind⟩ := hlast
  have hsplit := records_split hr
  obtain ⟨hkind, rfl, rfl⟩ := hkey
  have hmem : r ∈ d.records := List.mem_of_getElem? hr
  have hi := (List.getElem?_eq_some_iff.mp hr).1
  obtain ⟨r₁, hr₁⟩ : ∃ r₁, r₁ = { r with line := { r.line with value := v } } := ⟨_, rfl⟩
  have hpieces : Pieces r₁ := by
    have hp := h.pieces r hmem hkind
    rw [hr₁]
    exact ⟨hp.front, hp.quote, hp.back⟩
  have hraw : internStd (IniDocument.rebuiltRaw r₁) = .ok (IniDocument.rebuiltRaw r₁) :=
    internStd_ok (isUtf8_rebuiltRaw hpieces (by rw [hr₁]; exact hv))
  obtain ⟨r₂, hr₂⟩ : ∃ r₂, r₂ = { r₁ with raw := IniDocument.rebuiltRaw r₁ } := ⟨_, rfl⟩
  have hline : r₂.line = ⟨.keyValue, r.line.sectionName, r.line.key, v⟩ := by
    rw [hr₂, hr₁, ← hkind]
  obtain ⟨d', hd'⟩ : ∃ d', d' = { d with
      records := d.records.set i r₂, publicLines := d.publicLines.set i r₂.line } := ⟨_, rfl⟩
  have hset : d.set r.line.sectionName r.line.key v = .ok d' := by
    unfold IniDocument.set
    rw [hfind]
    dsimp only
    rw [hr]
    dsimp only
    unfold IniDocument.setValueAt
    dsimp only
    rw [intern_of_isUtf8 hv, ← hr₁, hraw, hd', hr₂, hr₁]
    rfl
  have hrecords : d'.records = d.records.take i ++ r₂ :: d.records.drop (i + 1) := by
    rw [hd']
    dsimp only
    rw [List.set_eq_take_append_cons_drop, if_pos hi]
  have hnames : d.records.map (fun r => (r.line.kind, r.line.sectionName, r.line.key)) =
      d'.records.map fun r => (r.line.kind, r.line.sectionName, r.line.key) := by
    rw [hrecords]
    conv_lhs => rw [hsplit]
    rw [List.map_append, List.map_cons, List.map_append, List.map_cons, hline, hkind]
  obtain ⟨hkeys, hsections⟩ := IniDocument.index_congr hnames
  refine ⟨d', hset, ⟨?_, placed_congr hnames h.placed, ?_, ?_⟩, ?_⟩
  · refine IniDocument.indexed_of_index ?_ ?_ ?_
    · rw [← hkeys, ← h.indexed.keyIndex_eq, hd']
    · rw [← hsections, ← h.indexed.sectionIndex_eq, hd']
    · have hpublic : d.publicLines = d.records.map fun r => r.line := by
        rw [← IniDocument.index_publicLines, ← congrArg IniDocument.publicLines h.indexed,
          IniDocument.rebuildIndex_eq]
      rw [IniDocument.index_publicLines, hd']
      dsimp only
      rw [hpublic, List.map_set]
  · intro x hx hxkind
    rw [hrecords] at hx
    rcases List.mem_append.mp hx with hx | hx
    · exact h.pieces x (List.mem_of_mem_take hx) hxkind
    · rcases List.mem_cons.mp hx with rfl | hx
      · rw [hr₂]
        exact ⟨hpieces.front, hpieces.quote, hpieces.back⟩
      · exact h.pieces x (List.mem_of_mem_drop hx) hxkind
  · rw [hd']
    exact h.ending
  · have hentry : r.line.entry? = some ⟨r.line.sectionName, r.line.key, r.line.value⟩ :=
      if_pos hkind
    have hentry₂ : r₂.line.entry? = some ⟨r.line.sectionName, r.line.key, v⟩ := by
      rw [hline]
      rfl
    refine ⟨entries (d.records.take i), [⟨r.line.sectionName, r.line.key, r.line.value⟩],
      entries (d.records.drop (i + 1)), ?_, ?_, ?_, ?_⟩
    · conv_lhs => rw [hsplit]
      rw [entries_append, entries_cons, hentry, List.append_assoc]
      rfl
    · rw [hrecords, entries_append, entries_cons, hentry₂, List.append_assoc]
      rfl
    · exact List.forall_mem_singleton.mpr ⟨rfl, rfl⟩
    · rintro e he ⟨hsection, hkeyName⟩
      obtain ⟨x, hx, hxkind, rfl⟩ := IniDocument.mem_entries.mp he
      obtain ⟨j, hj⟩ := List.getElem?_of_mem hx
      rw [List.getElem?_drop] at hj
      exact hbehind (i + 1 + j) x (by omega) hj ⟨hxkind, hsection, hkeyName⟩

theorem isUtf8_lineEnding (h : Consistent d) : IsUtf8 d.lineEndingForNewLine := by
  unfold IniDocument.lineEndingForNewLine
  split_ifs
  · exact isUtf8_of_ascii (by decide)
  · exact h.ending

/-- The line of a new key. -/
def newKeyLine (newline s k v : Bytes) : LineRecord where
  line := { kind := .keyValue, sectionName := s, key := k, value := v }
  raw := k ++ ascii " = " ++ v
  lineEnding := newline
  keySuffix := ascii " "
  separator := ascii "="
  valuePrefix := ascii " "

theorem newKeyRecord_ok {newline : Bytes} (hnewline : IsUtf8 newline) (hs : IsUtf8 s)
    (hk : IsUtf8 k)
    (hv : IsUtf8 v) : IniDocument.newKeyRecord newline s k v = .ok (newKeyLine newline s k v) := by
  unfold IniDocument.newKeyRecord
  rw [internStd_ok hnewline, internStd_ok ((hk.append (isUtf8_of_ascii (by decide))).append hv),
    intern_of_isUtf8 hs, intern_of_isUtf8 hk, intern_of_isUtf8 hv]
  rfl

/-- A key that is new becomes the last line of its section. -/
theorem Consistent.addKey (h : Consistent d) {newline : Bytes} (hnewline : IsUtf8 newline)
    (hs : IsUtf8 s) (hk : IsUtf8 k) (hv : IsUtf8 v) (hold : d.isNewSection s = false)
    (hnone : ∀ r ∈ d.records, ¬ IsKeyLine s k r) :
    ∃ d', d.addKey newline s k v = .ok d' ∧ Consistent d' ∧
      ∃ front back, Assigned d d' s k v front [] back := by
  obtain ⟨pos, hpos⟩ : ∃ pos, pos = d.findInsertPosition s := ⟨_, rfl⟩
  have hafter := sectionAfter_findInsertPosition h.indexed hold
  rw [← hpos] at hafter
  obtain ⟨d₁, hd₁⟩ : ∃ d₁ : IniDocument, d₁ = { d with
      records := d.records.take pos ++ [newKeyLine newline s k v] ++ d.records.drop pos } :=
        ⟨_, rfl⟩
  have hrecords : d₁.records = d.records.take pos ++ [newKeyLine newline s k v] ++
    d.records.drop pos := by
    rw [hd₁]
  have hending : IsUtf8 d₁.defaultLineEnding := by
    rw [hd₁]
    exact h.ending
  refine ⟨d₁.rebuildIndex, ?_, Consistent.rebuild ?_ ?_ hending, entries (d.records.take pos),
    entries (d.records.drop pos), ?_⟩
  · unfold IniDocument.addKey
    rw [newKeyRecord_ok hnewline hs hk hv, hd₁, hpos]
    rfl
  · have hplaced := h.placed
    rw [← List.take_append_drop pos d.records, placed_append, hafter] at hplaced
    rw [hrecords, List.append_assoc, placed_append, hafter]
    exact ⟨hplaced.1, fun _ => rfl, hplaced.2⟩
  · intro r hr hkind
    rw [hrecords, List.append_assoc, List.mem_append, List.mem_append, List.mem_singleton] at hr
    rcases hr with hr | rfl | hr
    · exact h.pieces r (List.mem_of_mem_take hr) hkind
    · have hfront : IsUtf8 ([] ++ k ++ ascii " " ++ ascii "=" ++ ascii " ") :=
        ((((isUtf8_nil).append hk).append (isUtf8_of_ascii (by decide))).append
          (isUtf8_of_ascii (by decide))).append (isUtf8_of_ascii (by decide))
      exact ⟨hfront, show (34 : UInt8) < 0x80 by decide, isUtf8_nil⟩
    · exact h.pieces r (List.mem_of_mem_drop hr) hkind
  · refine ⟨?_, ?_, List.forall_mem_nil _, ?_⟩
    · rw [List.append_nil, ← entries_append, List.take_append_drop]
    · rw [IniDocument.rebuildIndex_records, hrecords, entries_append, entries_append]
      rfl
    · rintro e he ⟨hsection, hkey⟩
      obtain ⟨x, hx, hxkind, rfl⟩ := IniDocument.mem_entries.mp he
      exact hnone x (List.mem_of_mem_drop hx) ⟨hxkind, hsection, hkey⟩

/-- The header of a new section. -/
theorem Consistent.addSection (h : Consistent d) (hs : IsUtf8 s) (hne : s ≠ []) :
    ∃ d', d.addSection s = .ok d' ∧ Consistent d' ∧ entries d'.records = entries d.records ∧
      d'.isNewSection s = false ∧ ∀ r ∈ d'.records, r.line.kind = .keyValue → r ∈ d.records := by
  obtain ⟨header, hheader⟩ : ∃ header : LineRecord, header = {
      line := { kind := .sectionHeader, sectionName := s }
      raw := ascii "[" ++ s ++ ascii "]"
      lineEnding := d.lineEndingForNewLine } := ⟨_, rfl⟩
  obtain ⟨blank, hblank⟩ : ∃ blank, blank = blankLine d.lineEndingForNewLine d.records := ⟨_, rfl⟩
  have hplain : ∀ r ∈ blank, r.line.kind = .blank := by
    rw [hblank]
    unfold blankLine
    intro r hr
    split at hr
    · cases hr
    · split_ifs at hr
      · cases hr
      · rw [List.mem_singleton.mp hr]
  have hname : IsHeader s header := by
    rw [hheader]
    exact ⟨rfl, rfl⟩
  obtain ⟨d₁, hd₁⟩ : ∃ d₁ : IniDocument,
    d₁ = { d with records := d.records ++ blank ++ [header] } := ⟨_, rfl⟩
  have hrecords : d₁.rebuildIndex.records = d.records ++ blank ++ [header] := by
    rw [IniDocument.rebuildIndex_records, hd₁]
  have hkeys : ∀ r ∈ d₁.records, r.line.kind = .keyValue → r ∈ d.records := by
    intro r hr hkind
    rw [hd₁] at hr
    rw [List.mem_append, List.mem_append, List.mem_singleton] at hr
    rcases hr with (hr | hr) | rfl
    · exact hr
    · rw [hplain r hr] at hkind
      cases hkind
    · rw [hname.1] at hkind
      cases hkind
  have hconsistent : Consistent d₁.rebuildIndex := by
    refine Consistent.rebuild ?_ (fun r hr hkind => h.pieces r (hkeys r hr hkind) hkind) ?_
    · rw [hd₁]
      dsimp only
      rw [List.append_assoc, placed_append]
      refine ⟨h.placed, placed_of_no_keys fun r hr hkind => ?_⟩
      rcases List.mem_append.mp hr with hr | hr
      · rw [hplain r hr] at hkind
        cases hkind
      · rw [List.mem_singleton.mp hr, hname.1] at hkind
        cases hkind
    · rw [hd₁]
      exact h.ending
  refine ⟨d₁.rebuildIndex, ?_, hconsistent, ?_, ?_, ?_⟩
  · unfold IniDocument.addSection
    rw [internStd_ok (isUtf8_lineEnding h),
      internStd_ok (((isUtf8_of_ascii (by decide)).append hs).append
      (isUtf8_of_ascii (by decide))), intern_of_isUtf8 hs, hd₁, hblank, hheader]
    rfl
  · have hentries : entries blank = [] := by
      refine List.filterMap_eq_nil_iff.mpr fun r hr => ?_
      unfold IniLine.entry?
      rw [hplain r hr]
      rfl
    have hentry : entries [header] = [] := by
      rw [hheader]
      rfl
    rw [hrecords, entries_append, entries_append, hentries, hentry, List.append_nil,
      List.append_nil]
  · have hfound : d₁.rebuildIndex.hasSection s = true := by
      rw [hconsistent.hasSection_iff hne, hrecords]
      exact ⟨header, List.mem_append_right _ (List.mem_singleton.mpr rfl), hname⟩
    unfold IniDocument.hasSection at hfound
    rw [if_neg hne] at hfound
    unfold IniDocument.isNewSection
    rw [decide_eq_false_iff_not]
    rintro ⟨-, hnone⟩
    rw [hnone] at hfound
    cases hfound
  · rw [IniDocument.rebuildIndex_records]
    exact hkeys

/-- **What `set` does to the entries**; it never fails. -/
theorem Consistent.set_spec (h : Consistent d) (hs : IsUtf8 s) (hk : IsUtf8 k) (hv : IsUtf8 v) :
    ∃ d', d.set s k v = .ok d' ∧ Consistent d' ∧ ∃ front old back,
      Assigned d d' s k v front old back := by
  cases hfind : d.findKey s k with
  | some i => exact h.set_existing hv hfind
  | none =>
    have hnone := (IniDocument.findKey_index d.records s k).2 (h.indexed.findKey_eq s k ▸ hfind)
    have hnewline := isUtf8_lineEnding h
    unfold IniDocument.set
    rw [hfind]
    dsimp only
    by_cases hnew : d.isNewSection s = true
    · have hne : s ≠ [] := (of_decide_eq_true hnew).1
      obtain ⟨d₁, hadd, hconsistent, hentries, hold, hkeys⟩ := h.addSection hs hne
      obtain ⟨d', hd', hconsistent', front, back, hassigned⟩ :=
        hconsistent.addKey hnewline hs hk hv hold
        fun r hr hkey => hnone r (hkeys r hr hkey.1) hkey
      refine ⟨d', ?_, hconsistent', front, [], back, ?_⟩
      · rw [if_pos hnew, hadd]
        exact hd'
      · exact ⟨hentries ▸ hassigned.before, hassigned.after, hassigned.old_key, hassigned.back_key⟩
    · rw [Bool.not_eq_true] at hnew
      obtain ⟨d', hd', hconsistent', front, back, hassigned⟩ :=
        h.addKey hnewline hs hk hv hnew hnone
      refine ⟨d', ?_, hconsistent', front, [], back, hassigned⟩
      rw [hnew, if_neg Bool.false_ne_true]
      exact hd'

/-! ## Runs -/

/-- The value of a key, if it has one: that of its last entry. -/
theorem Consistent.get_eq (h : Consistent d) (s k : Bytes) : (d.get s k).toOption =
    ((entries d.records).reverse.find? fun e => e.sectionName = s ∧ e.key = k).map Entry.value := by
  rw [IniDocument.get_eq_lookup h.indexed]
  unfold IniDocument.lookup
  split_ifs with hnone
  · have hfind : ((entries d.records).reverse.find? fun e => e.sectionName = s ∧ e.key = k) =
      none := by
      rw [List.find?_eq_none]
      intro e he hkey
      exact hnone e (List.mem_reverse.mp he) (of_decide_eq_true hkey).1
    rw [hfind]
    rfl
  · cases (entries d.records).reverse.find? fun e => e.sectionName = s ∧ e.key = k <;> rfl

/-- **The key has its new value, and no other key has changed.** -/
theorem Assigned.get {d' : IniDocument} {front old back : List Entry}
    (h : Assigned d d' s k v front old back) (hd : Consistent d) (hd' : Consistent d') :
    d'.get s k = .ok v ∧
      ∀ s' k', ¬ (s' = s ∧ k' = k) → (d'.get s' k').toOption = (d.get s' k').toOption := by
  constructor
  · have hnone : (back.reverse.find? fun e => decide (e.sectionName = s ∧ e.key = k)) = none := by
      rw [List.find?_eq_none]
      intro e he hkey
      exact h.back_key e (List.mem_reverse.mp he) (of_decide_eq_true hkey)
    have hfirst : ((⟨s, k, v⟩ :: front.reverse).find? fun e : Entry =>
        decide (e.sectionName = s ∧ e.key = k)) = some ⟨s, k, v⟩ :=
      List.find?_cons_of_pos (decide_eq_true ⟨rfl, rfl⟩)
    have hvalue := hd'.get_eq s k
    rw [h.after, List.reverse_append, List.reverse_append, List.find?_append, hnone, Option.none_or,
      List.reverse_singleton, List.singleton_append, hfirst] at hvalue
    cases hget : d'.get s k with
    | error e =>
      rw [hget] at hvalue
      cases hvalue
    | ok value =>
      rw [hget] at hvalue
      exact congrArg Except.ok (Option.some.inj hvalue)
  · intro s' k' hother
    have hskip (es : List Entry) (hes : ∀ e ∈ es, e.sectionName = s ∧ e.key = k) :
        (es.reverse.find? fun e => decide (e.sectionName = s' ∧ e.key = k')) = none := by
      rw [List.find?_eq_none]
      intro e he hkey
      obtain ⟨hsection, hname⟩ := hes e (List.mem_reverse.mp he)
      obtain ⟨hsection', hname'⟩ := of_decide_eq_true hkey
      exact hother ⟨hsection'.symm.trans hsection, hname'.symm.trans hname⟩
    rw [hd.get_eq, hd'.get_eq, h.before, h.after, List.reverse_append, List.reverse_append,
      List.reverse_append, List.reverse_append, List.find?_append, List.find?_append,
        List.find?_append,
      List.find?_append, hskip old h.old_key, hskip _ (List.forall_mem_singleton.mpr ⟨rfl, rfl⟩)]

theorem Consistent.call (h : Consistent d) (c : Call) : ∃ d', call d c = .ok d' ∧
    Consistent d' := by
  cases c with
  | set s k v =>
    obtain ⟨d', hset, hconsistent, -⟩ := h.set_spec s.utf8 k.utf8 v.utf8
    exact ⟨d', hset, hconsistent⟩
  | remove s k => exact ⟨_, rfl, (h.remove_spec s.bytes k.bytes).1⟩
  | removeSection s =>
    refine ⟨_, rfl, ?_⟩
    by_cases hs : s.bytes = []
    · rw [hs]
      exact h.removeSection_global
    · exact (h.removeSection_spec hs).1

theorem Consistent.calls (h : Consistent d) (cs : List Call) :
    ∃ d', cs.foldlM Ini.call d = .ok d' ∧ Consistent d' := by
  induction cs generalizing d with
  | nil => exact ⟨d, rfl, h⟩
  | cons c cs ih =>
    obtain ⟨d₁, hcall, hd₁⟩ := h.call c
    obtain ⟨d', hrun, hd'⟩ := ih hd₁
    exact ⟨d', foldlM_cons_eq_ok.mpr ⟨d₁, hcall, hrun⟩, hd'⟩

/-- **Editing an INI document.** After every run of calls on a document that was read, the indexes
and the public lines are those of the lines; `set` changes the value of its key and of no other;
`remove`, and `remove_section`, leaves nothing of the key, or of the section, exactly when there was
one line of it. -/
theorem editing (o : IniReader.IniReaderOptions) (input : Bytes) (start : IniDocument)
    (hread : IniReader.read o input = .ok start) (cs : List Call) :
    ∃ d, cs.foldlM call start = .ok d ∧ d.rebuildIndex = d ∧
      (d.publicLines = d.records.map fun r => r.line) ∧
      (∀ s k v : Text, ∃ d', d.set s.bytes k.bytes v.bytes = .ok d' ∧ d'.get s.bytes k.bytes =
      .ok v.bytes ∧
        ∀ s' k', ¬ (s' = s.bytes ∧ k' = k.bytes) → (d'.get s' k').toOption =
          (d.get s' k').toOption) ∧
      (∀ s k, (d.remove s k).2.has s k = false ↔ keyLines d s k ≤ 1) ∧
      ∀ s, s ≠ [] → (((d.removeSection s).2.hasSection s = false ∧
        ∀ k, (d.removeSection s).2.has s k = false) ↔ headerLines d s ≤ 1) := by
  obtain ⟨d, hrun, hd⟩ := (consistent_of_read o hread).calls cs
  refine ⟨d, hrun, hd.indexed, ?_, fun s k v => ?_, fun s k => ?_, fun s hs => ?_⟩
  · rw [← IniDocument.index_publicLines, ← congrArg IniDocument.publicLines hd.indexed,
      IniDocument.rebuildIndex_eq]
  · obtain ⟨d', hset, hd', front, old, back, hassigned⟩ := hd.set_spec s.utf8 k.utf8 v.utf8
    obtain ⟨hvalue, hothers⟩ := hassigned.get hd hd'
    exact ⟨d', hset, hvalue, hothers⟩
  · obtain ⟨hconsistent, hlines⟩ := hd.remove_spec s k
    rw [hconsistent.has_eq_false, hlines]
    omega
  · obtain ⟨hconsistent, hlines⟩ := hd.removeSection_spec hs
    constructor
    · rintro ⟨hsection, -⟩
      rw [hconsistent.hasSection_eq_false hs, hlines] at hsection
      omega
    · intro hone
      have hzero : headerLines (d.removeSection s).2 s = 0 := by omega
      exact ⟨(hconsistent.hasSection_eq_false hs).mpr hzero, fun k =>
        hconsistent.has_of_no_header hs hzero⟩

/-- A section with a key, and the same key again. -/
def repeatedKey : Bytes := ascii "[a]\nx=1\nx=2\n"

theorem editing_repeatedKey : ∃ start d, IniReader.read {} repeatedKey = .ok start ∧
    [Call.remove ⟨ascii "a", isUtf8_of_ascii (by decide)⟩ ⟨ascii "x",
      isUtf8_of_ascii (by decide)⟩].foldlM
      call start = .ok d ∧ d.rebuildIndex = d := by
  cases hread : IniReader.read {} repeatedKey with
  | error e =>
    have hok : (IniReader.read {} repeatedKey).toOption.isSome = true := by decide
    rw [hread] at hok
    cases hok
  | ok start =>
    obtain ⟨d, hrun, hindexed, -⟩ := editing {} repeatedKey start hread
      [.remove ⟨ascii "a", isUtf8_of_ascii (by decide)⟩ ⟨ascii "x", isUtf8_of_ascii (by decide)⟩]
    exact ⟨start, d, rfl, hrun, hindexed⟩

/-- **A key with two lines is still there** behind its removal. -/
theorem not_editing : ¬ ∀ (input : Bytes) (d : IniDocument), IniReader.read {} input = .ok d →
    ∀ s k : Text, (d.remove s.bytes k.bytes).2.has s.bytes k.bytes = false := by
  intro hclaim
  have hleft : (IniReader.read {} repeatedKey).toOption.any (fun d =>
      (d.remove (ascii "a") (ascii "x")).2.has (ascii "a") (ascii "x")) = true := by decide
  cases hread : IniReader.read {} repeatedKey with
  | error e =>
    rw [hread] at hleft
    cases hleft
  | ok d =>
    rw [hread] at hleft
    have hgone := hclaim repeatedKey d hread ⟨ascii "a", isUtf8_of_ascii (by decide)⟩
      ⟨ascii "x", isUtf8_of_ascii (by decide)⟩
    exact Bool.false_ne_true (hgone.symm.trans hleft)

end Libca.Ini
