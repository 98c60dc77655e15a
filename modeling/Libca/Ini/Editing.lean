import Libca.Ini.Joined

/-!
# INI edits survive saving (`ini/ini_document.cpp`)

* `Assignment`: a call of `set`; `Assignment.Clean`: what its arguments are.
* `WellFormed`, `Inv`: a document whose text is read as its lines are.
* `WellFormed.replace`, `WellFormed.insert`: a line is changed, or added.
* `Assignment.Safe`: the calls that keep the document readable; `Inv.set`.
* `get_read_write`: over a run of such calls, what is read back is what is in the document.
-/

namespace Libca.Ini

open Common Str IniReader

/-! ## The lines of a document -/

/-- Each line is read as its record says, behind the lines before it. -/
def Tracks : Bytes → List LineRecord → Prop
  | _, [] => True
  | currentSection, r :: rs => LineForm currentSection r.raw r.line.section? r.line.entry? ∧
      Tracks (r.line.section?.getD currentSection) rs

/-- The section that is current behind a list of lines. -/
def sectionAfter (currentSection : Bytes) (rs : List LineRecord) : Bytes :=
  rs.foldl (fun current r => r.line.section?.getD current) currentSection

variable {currentSection : Bytes}

theorem tracks_append {as bs : List LineRecord} :
    Tracks currentSection (as ++ bs) ↔
      Tracks currentSection as ∧ Tracks (sectionAfter currentSection as) bs := by
  induction as generalizing currentSection with
  | nil => simp [Tracks, sectionAfter]
  | cons a as ih =>
    rw [List.cons_append, Tracks, Tracks, ih, and_assoc]
    rfl

theorem sectionAfter_append (currentSection : Bytes) (as bs : List LineRecord) :
    sectionAfter currentSection (as ++ bs) = sectionAfter (sectionAfter currentSection as) bs :=
  List.foldl_append

variable {rs : List LineRecord}

theorem sectionAfter_of_no_header (currentSection : Bytes)
    (h : ∀ r ∈ rs, r.line.kind ≠ .sectionHeader) :
    sectionAfter currentSection rs = currentSection := by
  induction rs with
  | nil => rfl
  | cons r rs ih =>
    obtain ⟨hr, hrs⟩ := List.forall_mem_cons.mp h
    have hsection : r.line.section? = none := if_neg hr
    have hih := ih hrs
    unfold sectionAfter at hih ⊢
    rw [List.foldl_cons, hsection]
    exact hih

theorem forms_of_tracks (h : Tracks currentSection rs) :
    Forms currentSection (rs.map fun r => r.raw) (entries rs) := by
  induction rs generalizing currentSection with
  | nil => exact Forms.nil
  | cons r rs ih =>
    rw [entries_cons]
    exact Forms.cons h.1 (ih h.2)

variable {lines : List (Bytes × Bytes)}

theorem tracks_of_lines (h : Lines {} currentSection lines rs) : Tracks currentSection rs := by
  induction lines generalizing currentSection rs with
  | nil =>
    cases rs with
    | nil => trivial
    | cons r rs => exact h.elim
  | cons line lines ih =>
    cases rs with
    | nil => exact h.elim
    | cons r rs =>
      obtain ⟨_, parsed, hparsed, rfl, hrest⟩ := h
      have hform := parsedForm_of_parseLine hparsed
      rw [(parseLine_spec {} hparsed).raw_eq.symm] at hform
      refine ⟨?_, ?_⟩
      · rw [← hform.section_eq]
        exact hform.form
      · rw [← hform.section_eq]
        exact ih hrest

theorem editable_of_lines (h : Lines {} currentSection lines rs) :
    ∀ r ∈ rs, r.line.kind = .keyValue → Editable r := by
  induction lines generalizing currentSection rs with
  | nil =>
    cases rs with
    | nil => exact fun _ hr => (nomatch hr)
    | cons r rs => exact h.elim
  | cons line lines ih =>
    cases rs with
    | nil => exact h.elim
    | cons r rs =>
      obtain ⟨_, parsed, hparsed, rfl, hrest⟩ := h
      exact List.forall_mem_cons.mpr ⟨(parsedForm_of_parseLine hparsed).editable, ih hrest⟩

/-- The text and the end of a record. -/
def lineOf (r : LineRecord) : Bytes × Bytes := (r.raw, r.lineEnding)

/-- A record that is written and read again. -/
structure Sound (r : LineRecord) : Prop where
  shape : LineShape r.raw r.lineEnding
  utf8 : IsUtf8 r.raw
  tiled : Tiled r
  editable : r.line.kind = .keyValue → Editable r

/-- Lines whose text is read as the lines are. -/
structure WellFormed (rs : List LineRecord) : Prop where
  sound : ∀ r ∈ rs, Sound r
  follows : (rs.map lineOf).IsChain Follows
  tracks : Tracks [] rs
  bom : ∀ r, rs.head? = some r → ¬ bom <+: r.raw

/-- A document that is read again as it is. -/
structure Inv (d : IniDocument) : Prop where
  indexed : d.Indexed
  ending : IsLineEnding d.defaultLineEnding
  lines : WellFormed d.records

/-! ## Saving -/

theorem joined_lineOf (rs : List LineRecord) :
    rs.flatMap (IniWriter.lineText {}) = joined (rs.map lineOf) := by
  unfold joined
  rw [List.flatMap_map]
  rfl

variable {d : IniDocument}

/-- **A document that keeps the invariant is read back as it is.** -/
theorem Inv.reread (h : Inv d) : ∃ text d', IniWriter.write {} d = .ok text ∧
    read {} text = .ok d' ∧ ∀ s k, d'.get s k = d.get s k := by
  have hshape : ∀ line ∈ d.records.map lineOf, LineShape line.1 line.2 := by
    intro line hline
    obtain ⟨r, hr, rfl⟩ := List.mem_map.mp hline
    exact (h.lines.sound r hr).shape
  have htext : IsUtf8 (d.records.flatMap (IniWriter.lineText {})) :=
    isUtf8_flatMap_lineText fun r hr =>
      ⟨(h.lines.sound r hr).utf8, (h.lines.sound r hr).shape.isUtf8_ending⟩
  have hbom : ¬ IniReader.bom <+: joined (d.records.map lineOf) := by
    refine not_bom_joined hshape h.lines.follows fun line hline => ?_
    rw [List.head?_map] at hline
    obtain ⟨r, hr, rfl⟩ := Option.map_eq_some_iff.mp hline
    exact h.lines.bom r hr
  have hforms : Forms [] ((d.records.map lineOf).map Prod.fst) (entries d.records) := by
    rw [List.map_map]
    exact forms_of_tracks h.lines.tracks
  have hread := forms_splitLines hshape h.lines.follows hforms
  rw [joined_lineOf] at htext
  obtain ⟨d', hd', hindexed, hentries⟩ := read_of_forms htext hbom hread
  refine ⟨_, d', ?_, hd', fun s k => ?_⟩
  · unfold IniWriter.write
    rw [joined_lineOf, utf8String_ok htext]
  · rw [IniDocument.get_eq_lookup hindexed, IniDocument.get_eq_lookup h.indexed, hentries]

/-! ## A document that is read -/

theorem splitLines_follows (raw text : Bytes) : (splitLines raw text).IsChain Follows := by
  fun_induction splitLines raw text with
  | case1 => exact List.isChain_nil
  | case2 raw hne => exact List.isChain_singleton _
  | case3 raw rest ih => exact List.isChain_cons.mpr ⟨fun _ _ => .inl (by simp), ih⟩
  | case4 raw ch rest hnot hch ih => exact List.isChain_cons.mpr ⟨fun _ _ => .inl (by simp), ih⟩
  | case5 raw ch rest hnot hch ih => exact ih

theorem map_lineOf
    (h : List.Forall₂ (fun line r => LineSpec r line.1 line.2) lines rs) : rs.map lineOf =
      lines := by
  induction h with
  | nil => rfl
  | cons hline _ ih =>
    rw [List.map_cons, ih]
    unfold lineOf
    rw [hline.raw_eq, hline.lineEnding_eq]

theorem isLineEnding_foldl (hrs : ∀ r ∈ rs, LineShape r.raw r.lineEnding)
    (hd : IsLineEnding d.defaultLineEnding) :
    IsLineEnding (rs.foldl IniDocument.addRecord d).defaultLineEnding := by
  induction rs generalizing d with
  | nil => exact hd
  | cons r rs ih =>
    obtain ⟨hr, hrs⟩ := List.forall_mem_cons.mp hrs
    refine ih hrs ?_
    unfold IniDocument.addRecord
    dsimp only
    split_ifs with hending
    · exact hr.ending.resolve_right hending.2
    · exact hd

/-- **A document that is read keeps the invariant**, unless its text starts with two marks. -/
theorem inv_of_read {input : Bytes} (h : read {} input = .ok d)
    (hbom : ¬ IniReader.bom ++ IniReader.bom <+: input) : Inv d := by
  obtain ⟨rs, hrs, hd, hrecords⟩ := read_eq_ok {} h
  have hspec := read_recordSpec {} h
  rw [hrecords] at hspec
  have hmap := map_lineOf (hrs.forall₂ {})
  refine ⟨read_indexed {} h, ?_, ?_⟩
  · rw [hd, IniDocument.rebuildIndex_defaultLineEnding]
    exact isLineEnding_foldl (fun r hr => (hspec r hr).shape) (.inl rfl)
  · rw [hrecords]
    refine ⟨fun r hr => ⟨(hspec r hr).shape, (hspec r hr).utf8, (hspec r hr).tiled,
      editable_of_lines hrs r hr⟩, ?_, tracks_of_lines hrs, fun r hr hraw => ?_⟩
    · rw [hmap]
      exact splitLines_follows [] _
    · -- the text behind the mark that is skipped starts with the first line
      have htext : IniReader.bom <+: skipBom input := by
        have hflat := splitLines_flatten [] (skipBom input)
        rw [← hmap] at hflat
        obtain ⟨rest, rfl⟩ := List.head?_eq_some_iff.mp hr
        rw [List.nil_append, List.map_cons, List.flatMap_cons] at hflat
        rw [← hflat]
        exact (hraw.trans (List.prefix_append _ _)).trans (List.prefix_append _ _)
      unfold skipBom at htext
      split_ifs at htext with hfirst
      · rw [List.isPrefixOf_iff_prefix] at hfirst
        obtain ⟨t, rfl⟩ := hfirst
        refine hbom ((List.prefix_append_right_inj _).mpr ?_)
        exact htext
      · exact hfirst (List.isPrefixOf_iff_prefix.mpr htext)

/-! ## Changing and adding a line -/

section Chain

variable {α : Type} {R : α → α → Prop} {as bs : List α} {x x' : α}

theorem isChain_replace (h : (as ++ x :: bs).IsChain R) (hl : ∀ y, R y x → R y x')
    (hr : ∀ y, R x y → R x' y) : (as ++ x' :: bs).IsChain R := by
  obtain ⟨has, hbs, hjoin⟩ := List.isChain_append.mp h
  obtain ⟨hhead, hbs⟩ := List.isChain_cons.mp hbs
  have htail := List.isChain_cons.mpr ⟨fun y hy => hr y (hhead y hy), hbs⟩
  refine List.isChain_append.mpr ⟨has, htail, ?_⟩
  intro y hy z hz
  obtain rfl : x' = z := Option.some.inj hz
  exact hl y (hjoin y hy x rfl)

theorem isChain_insert (h : (as ++ bs).IsChain R) (hl : ∀ y ∈ as.getLast?, R y x)
    (hr : ∀ y ∈ bs.head?, R x y) : (as ++ x :: bs).IsChain R := by
  obtain ⟨has, hbs, -⟩ := List.isChain_append.mp h
  refine List.isChain_append.mpr ⟨has, List.isChain_cons.mpr ⟨hr, hbs⟩, ?_⟩
  intro y hy z hz
  obtain rfl : x = z := Option.some.inj hz
  exact hl y hy

end Chain

variable {e : Entry}

/-- A line of a key is not blank. -/
theorem not_blank_of_entry {raw : Bytes} {next : Option Bytes}
    (h : LineForm currentSection raw next (some e)) : trimAscii raw ≠ [] := fun hblank =>
  nomatch (h.of_blank hblank).2

/-- A key belongs to the current section. -/
theorem sectionName_of_entry {raw : Bytes} {next : Option Bytes}
    {entry : Option Entry} (h : LineForm currentSection raw next entry)
    (he : entry = some e) : e.sectionName = currentSection := by
  cases h with
  | blank h => cases he
  | comment h hfirst => cases he
  | header h hclose => cases he
  | key hkey =>
    cases he
    rfl

variable {r : LineRecord}

/-- **A key line may be changed**, keeping its end. -/
theorem WellFormed.replace {as bs : List LineRecord} {r' : LineRecord} {e' : Entry}
    (h : WellFormed (as ++ r :: bs)) (hentry : r.line.entry? = some e)
    (hentry' : r'.line.entry? = some e') (hsection : r'.line.section? = r.line.section?)
    (hending : r'.lineEnding = r.lineEnding) (hsound : Sound r')
    (hform : LineForm (sectionAfter [] as) r'.raw r.line.section? (some e'))
    (hbom : IniReader.bom <+: r'.raw → IniReader.bom <+: r.raw) : WellFormed (as ++ r' :: bs) := by
  obtain ⟨hsoundAll, hfollows, htracks, hbomAll⟩ := h
  obtain ⟨htracksAs, htracksR⟩ := tracks_append.mp htracks
  have hblank : trimAscii r.raw ≠ [] := by
    have hform := htracksR.1
    rw [hentry] at hform
    exact not_blank_of_entry hform
  have hblank' : trimAscii r'.raw ≠ [] := not_blank_of_entry hform
  refine ⟨?_, ?_, ?_, ?_⟩
  · obtain ⟨has, hbs⟩ := List.forall_mem_append.mp hsoundAll
    exact List.forall_mem_append.mpr ⟨has, List.forall_mem_cons.mpr
      ⟨hsound, (List.forall_mem_cons.mp hbs).2⟩⟩
  · rw [List.map_append, List.map_cons] at hfollows ⊢
    refine isChain_replace hfollows (fun y hy => ?_) fun y hy => ?_
    · refine hy.imp_right fun hy => hy.imp_left fun hempty => ?_
      have hraw : r.raw = [] := hempty
      rw [hraw] at hblank
      exact absurd rfl hblank
    · unfold Follows lineOf at hy ⊢
      rw [hending]
      exact hy.imp_right fun hy => hy.imp_right fun hb => absurd hb hblank
  · refine tracks_append.mpr ⟨htracksAs, ?_, ?_⟩
    · rw [hentry', hsection]
      exact hform
    · rw [hsection]
      exact htracksR.2
  · intro first hfirst
    cases as with
    | nil =>
      obtain rfl : r' = first := Option.some.inj hfirst
      exact fun hb => hbomAll r rfl (hbom hb)
    | cons a as => exact hbomAll first hfirst

/-- **A line may be added** behind a line that has an end or is blank. -/
theorem WellFormed.insert {as bs : List LineRecord} (h : WellFormed (as ++ bs))
    (hsound : Sound r) (hlast : ∀ last ∈ as.getLast?, Follows (lineOf last) (lineOf r))
    (hending : r.lineEnding ≠ [])
    (hform : LineForm (sectionAfter [] as) r.raw r.line.section? r.line.entry?)
    (hbs : bs = [] ∨ r.line.section? = none)
    (hbom : as = [] → ¬ IniReader.bom <+: r.raw) : WellFormed (as ++ r :: bs) := by
  obtain ⟨hsoundAll, hfollows, htracks, hbomAll⟩ := h
  obtain ⟨htracksAs, htracksBs⟩ := tracks_append.mp htracks
  refine ⟨?_, ?_, ?_, ?_⟩
  · obtain ⟨has, hbs⟩ := List.forall_mem_append.mp hsoundAll
    exact List.forall_mem_append.mpr ⟨has, List.forall_mem_cons.mpr ⟨hsound, hbs⟩⟩
  · rw [List.map_append] at hfollows
    rw [List.map_append, List.map_cons]
    refine isChain_insert hfollows (fun y hy => ?_) fun y _ => .inl hending
    rw [List.getLast?_map] at hy
    obtain ⟨last, hlastMem, rfl⟩ := Option.map_eq_some_iff.mp hy
    exact hlast last hlastMem
  · refine tracks_append.mpr ⟨htracksAs, hform, ?_⟩
    rcases hbs with rfl | hnone
    · trivial
    · rw [hnone]
      exact htracksBs
  · intro first hfirst
    cases as with
    | nil =>
      obtain rfl : r = first := Option.some.inj hfirst
      exact hbom rfl
    | cons a as => exact hbomAll first hfirst

/-! ## Calls of `set` -/

/-- A call `set(section, key, value)`. -/
structure Assignment where
  sectionName : Bytes
  key : Bytes
  value : Bytes

/-- What the arguments of a call are. A `Utf8StringRef` refers to valid UTF-8. -/
structure Assignment.Clean (a : Assignment) : Prop where
  sectionName : ∀ b ∈ a.sectionName, b ≠ 93 ∧ b ≠ 13 ∧ b ≠ 10
  key_ne_nil : a.key ≠ []
  key_trimmed : trimAscii a.key = a.key
  key_start : ∀ b, a.key.head? = some b → b ≠ 91 ∧ b ≠ 35 ∧ b ≠ 59
  key : ∀ b ∈ a.key, b ≠ 61 ∧ b ≠ 58 ∧ IsPlain b
  key_noBreak : NoBreak a.key
  value : IsPlainValue a.value
  utf8 : IsUtf8 a.sectionName ∧ IsUtf8 a.key

/-- A new key that keeps a document readable: the name of a section that is new is trimmed; in a
section that is there, the line before has an end or is blank, and a first line does not start with
a byte order mark. -/
def Assignment.SafeNew (d : IniDocument) (a : Assignment) : Prop :=
  let before := d.records.take (d.findInsertPosition a.sectionName)
  if d.isNewSection a.sectionName then trimAscii a.sectionName = a.sectionName
  else
    (∀ last ∈ before.getLast?, last.lineEnding ≠ [] ∨ trimAscii last.raw = []) ∧
      (before = [] → ¬ IniReader.bom <+: a.key)

instance (d : IniDocument) (a : Assignment) : Decidable (a.SafeNew d) := by
  unfold Assignment.SafeNew
  infer_instance

/-- The calls that keep a document readable. The value of a key that is there has no quotes, and the
new one is not put right before a comment. -/
def Assignment.Safe (d : IniDocument) (a : Assignment) : Prop :=
  match d.keyRecord a.sectionName a.key with
  | some r => r.valueQuoted = false ∧ Apart r a.value
  | none => a.SafeNew d

instance (d : IniDocument) (a : Assignment) : Decidable (a.Safe d) := by
  unfold Assignment.Safe
  exact match d.keyRecord a.sectionName a.key with
  | some _ => instDecidableAnd
  | none => inferInstance

/-- The document after a run of calls. -/
def run (d : IniDocument) (as : List Assignment) : Except Failure IniDocument :=
  as.foldlM (fun d a => d.set a.sectionName a.key a.value) d

/-- A run all of whose calls are safe in the document they find. -/
def SafeRun (d : IniDocument) : List Assignment → Prop
  | [] => True
  | a :: as => a.Safe d ∧
    match d.set a.sectionName a.key a.value with
    | .ok d' => SafeRun d' as
    | .error _ => True

/-- Whether a run is safe is computed call by call. -/
def decideSafeRun (d : IniDocument) : (as : List Assignment) → Decidable (SafeRun d as)
  | [] => isTrue trivial
  | a :: as =>
    haveI : Decidable (match d.set a.sectionName a.key a.value with
        | .ok d' => SafeRun d' as
        | .error _ => True) :=
      match d.set a.sectionName a.key a.value with
      | .ok d' => decideSafeRun d' as
      | .error _ => isTrue trivial
    instDecidableAnd

instance (d : IniDocument) (as : List Assignment) : Decidable (SafeRun d as) := decideSafeRun d as

/-- The document after a run, and the document that is read from what is written of it. -/
def saveAndRead (d : IniDocument) (as : List Assignment) :
    Except Failure (IniDocument × IniDocument) := do
  let d' ← run d as
  let text ← IniWriter.write {} d'
  let d'' ← read {} text
  return (d', d'')

/-! ## A key that is there -/

variable {value : Bytes}

theorem Sound.noBreak_withValue (h : Sound r) (hkey : r.line.kind = .keyValue)
    (hvalue : NoBreak value) : NoBreak (LineRecord.withValue r value) := by
  have hpieces := h.shape.noBreak
  rw [← h.tiled hkey] at hpieces
  unfold LineRecord.pieces at hpieces
  obtain ⟨hrest, hcomment⟩ := List.forall_mem_append.mp hpieces
  obtain ⟨hrest, -⟩ := List.forall_mem_append.mp hrest
  exact (NoBreak.append hrest hvalue).append hcomment

/-- The record of a key whose value is changed. -/
def LineRecord.revalued (r : LineRecord) (value : Bytes) : LineRecord :=
  { r with line := { r.line with value := value }, raw := LineRecord.withValue r value }

theorem Sound.revalued (h : Sound r) (hkey : r.line.kind = .keyValue)
    (hvalue : IsPlainValue value) : Sound (LineRecord.revalued r value) := by
  have heditable := h.editable hkey
  refine ⟨⟨h.noBreak_withValue hkey hvalue.noBreak, h.shape.ending, fun hnil => ?_⟩,
    heditable.isUtf8_withValue hvalue.utf8, fun _ => rfl,
    fun _ => ⟨heditable.head, heditable.key, heditable.valuePrefix, heditable.comment,
      heditable.utf8⟩⟩
  obtain ⟨c, hseparator, -⟩ := heditable.head
  have hmem : c ∈ LineRecord.withValue r value := by
    unfold LineRecord.withValue LineRecord.pieces
    simp [hseparator]
  have hraw : LineRecord.withValue r value = [] := hnil
  rw [hraw] at hmem
  cases hmem

/-- A byte order mark at the start of a key line is in its key. -/
theorem Sound.bom_revalued (h : Sound r) (hkey : r.line.kind = .keyValue)
    (hbom : IniReader.bom <+: LineRecord.withValue r value) : IniReader.bom <+: r.raw := by
  obtain ⟨c, hseparator, hhead⟩ := (h.editable hkey).head
  have hc := ascii_of_isSeparator hhead.isSeparator
  rw [← h.tiled hkey]
  unfold LineRecord.withValue at hbom
  unfold LineRecord.pieces at hbom ⊢
  simp only [hseparator, List.append_assoc, List.cons_append] at hbom ⊢
  rw [← List.append_assoc, ← List.append_assoc, bom_prefix_append hc] at hbom ⊢
  exact hbom

theorem set_append_length {α : Type} (as bs : List α) (x y : α) :
    (as ++ x :: bs).set as.length y = as ++ y :: bs := by
  rw [List.set_append_right _ _ (le_rfl), Nat.sub_self, List.set_cons_zero]

/-- The call changes the value of a key that is there. -/
theorem Inv.set_key (h : Inv d) {a : Assignment} (ha : a.Clean)
    (hr : d.keyRecord a.sectionName a.key = some r) (hquoted : r.valueQuoted = false)
    (hapart : Apart r a.value) : ∃ d', d.set a.sectionName a.key a.value = .ok d' ∧ Inv d' := by
  obtain ⟨_, -, -, hkeyLine, -⟩ := IniDocument.keyRecord_eq_some h.indexed hr
  obtain ⟨i, -, hi, hset⟩ := IniDocument.set_of_keyRecord h.indexed hr a.value
  obtain ⟨hlt, hget⟩ := List.getElem?_eq_some_iff.mp hi
  have hkind := hkeyLine.1
  have hsound := h.lines.sound r (List.mem_of_getElem? hi)
  have heditable := hsound.editable hkind
  -- the record at `i` is taken out of the list
  obtain ⟨as, bs, hrecords, rfl⟩ : ∃ as bs, d.records = as ++ r :: bs ∧ as.length = i := by
    refine ⟨d.records.take i, d.records.drop (i + 1), ?_, List.length_take_of_le hlt.le⟩
    rw [← hget, List.getElem_cons_drop, List.take_append_drop]
  have hlines := h.lines
  rw [hrecords] at hlines
  have hentry : r.line.entry? = some ⟨r.line.sectionName, r.line.key, r.line.value⟩ := if_pos hkind
  have hnoSection : r.line.section? = none := if_neg (by rw [hkind]; exact nofun)
  have hsectionName : r.line.sectionName = sectionAfter [] as := by
    have hform := (tracks_append.mp hlines.tracks).2.1
    exact sectionName_of_entry hform hentry
  have hraw : internStd (IniDocument.rebuiltRaw
      { r with line := { r.line with value := intern a.value } }) =
      .ok (LineRecord.withValue r a.value) := by
    rw [intern_of_isUtf8 ha.value.utf8, IniDocument.rebuiltRaw_of_unquoted (by exact hquoted)]
    exact internStd_ok (heditable.isUtf8_withValue ha.value.utf8)
  have hvalueAt : d.setValueAt as.length r a.value = .ok { d with
      records := d.records.set as.length (LineRecord.revalued r a.value)
      publicLines := d.publicLines.set as.length (LineRecord.revalued r a.value).line } := by
    unfold IniDocument.setValueAt
    dsimp only
    rw [hraw, except_ok_bind, intern_of_isUtf8 ha.value.utf8]
    rfl
  have hrecords' : d.records.set as.length (LineRecord.revalued r a.value) =
      as ++ LineRecord.revalued r a.value :: bs := by
    rw [hrecords, set_append_length]
  refine ⟨_, hset.trans hvalueAt, ?_, h.ending, ?_⟩
  · -- the kinds, sections and keys stay as they are
    have hnames : d.records.map (fun r => (r.line.kind, r.line.sectionName, r.line.key)) =
        (d.records.set as.length (LineRecord.revalued r a.value)).map fun r =>
          (r.line.kind, r.line.sectionName, r.line.key) := by
      rw [hrecords', hrecords, List.map_append, List.map_append, List.map_cons, List.map_cons]
      rfl
    have hcongr := IniDocument.index_congr hnames
    refine IniDocument.indexed_of_index ?_ ?_ ?_
    · exact h.indexed.keyIndex_eq.trans hcongr.1
    · exact h.indexed.sectionIndex_eq.trans hcongr.2
    · have hpublic : d.publicLines = d.records.map fun r => r.line := by
        have hpub := congrArg IniDocument.publicLines h.indexed
        rw [IniDocument.rebuildIndex_eq] at hpub
        rw [← hpub]
        exact IniDocument.index_publicLines d.records
      rw [IniDocument.index_publicLines, List.map_set, ← hpublic]
  · change WellFormed (d.records.set as.length (LineRecord.revalued r a.value))
    rw [hrecords']
    have hentry' : (LineRecord.revalued r a.value).line.entry? =
        some ⟨r.line.sectionName, r.line.key, a.value⟩ := if_pos hkind
    refine hlines.replace hentry hentry' rfl rfl (hsound.revalued hkind ha.value) ?_
      (hsound.bom_revalued hkind)
    rw [hnoSection, hsectionName]
    exact heditable.lineForm ha.value hapart (sectionAfter [] as)

/-! ## A key that is new -/

/-- The line that is added for a new key. -/
def Assignment.record (a : Assignment) (newline : Bytes) : LineRecord where
  line := { kind := .keyValue, sectionName := a.sectionName, key := a.key, value := a.value }
  raw := a.key ++ ascii " = " ++ a.value
  lineEnding := newline
  keySuffix := ascii " "
  separator := ascii "="
  valuePrefix := ascii " "

theorem ascii_space : ascii " " = [32] := rfl

theorem ascii_equals : ascii "=" = [61] := rfl

theorem ascii_spaced_equals : ascii " = " = [32, 61, 32] := rfl

theorem Assignment.withValue_record (a : Assignment) (newline : Bytes) :
    LineRecord.withValue (a.record newline) a.value = a.key ++ ascii " = " ++ a.value := by
  unfold LineRecord.withValue LineRecord.pieces Assignment.record
  simp only [ascii_space, ascii_equals, ascii_spaced_equals]
  simp

section NewKey

variable {a : Assignment} {newline : Bytes}

theorem Assignment.Clean.keyHead (ha : a.Clean) : KeyHead (a.key ++ [32]) 61 := by
  have hplain : ∀ b ∈ a.key ++ [32] ++ [61], IsPlain b := by
    refine List.forall_mem_append.mpr ⟨List.forall_mem_append.mpr ⟨?_, ?_⟩, ?_⟩
    · exact fun b hb => (ha.key b hb).2.2
    · exact List.forall_mem_singleton.mpr (isPlain_of_isSpace rfl)
    · exact List.forall_mem_singleton.mpr (by unfold IsPlain; decide)
  refine ⟨⟨{}, fun rest => ?_⟩, ?_, rfl, fun b hb => ?_⟩
  · have hscan := scanComment_plain (q := {}) rfl none hplain rest
    unfold findInlineComment
    have hcut : a.key ++ [32] ++ 61 :: rest = a.key ++ [32] ++ [61] ++ rest := by simp
    rw [hcut, hscan]
    simp
  · refine List.forall_mem_append.mpr ⟨fun b hb => ?_, List.forall_mem_singleton.mpr rfl⟩
    obtain ⟨hequal, hcolon, -⟩ := ha.key b hb
    simp [isSeparator, hequal, hcolon]
  · obtain ⟨first, rest, hkey⟩ := List.exists_cons_of_ne_nil ha.key_ne_nil
    have hfirst : a.key.head? = some first := by rw [hkey]; rfl
    have hspace : isSpace first = false := (trim_eq_self_iff.mp ha.key_trimmed).1 first hfirst
    rw [hkey, List.cons_append, List.cons_append,
      List.dropWhile_cons_of_neg (by simp [hspace])] at hb
    obtain rfl : first = b := Option.some.inj hb
    obtain ⟨hbracket, hhash, hsemicolon⟩ := ha.key_start first hfirst
    refine ⟨hbracket, ?_⟩
    simp [isCommentMarker, hhash, hsemicolon]

theorem Assignment.Clean.editable (ha : a.Clean) : Editable (a.record newline) := by
  refine ⟨⟨61, rfl, ?_⟩, ?_, ?_, ⟨[], [], rfl, nofun, .inl rfl⟩, ?_, isUtf8_nil⟩
  · exact ha.keyHead
  · change trimAscii (a.key ++ [32]) = a.key
    rw [trimAscii_eq, trim_append_right (by decide)]
    exact ha.key_trimmed
  · exact fun b hb => by
      obtain rfl : b = 32 := List.mem_singleton.mp hb
      rfl
  · change IsUtf8 (a.key ++ ascii " " ++ ascii "=" ++ ascii " ")
    refine ((ha.utf8.2.append ?_).append ?_).append ?_ <;> exact isUtf8_of_ascii (by decide)

theorem Assignment.Clean.isUtf8_raw (ha : a.Clean) : IsUtf8 (a.key ++ ascii " = " ++ a.value) :=
  (ha.utf8.2.append (isUtf8_of_ascii (by decide))).append ha.value.utf8

theorem Assignment.Clean.lineForm (ha : a.Clean) (currentSection : Bytes) :
    LineForm currentSection (a.record newline).raw none
      (some ⟨currentSection, a.key, a.value⟩) := by
  have heditable : Editable (a.record newline) := ha.editable
  have hform := heditable.lineForm ha.value (.inr fun b hb => nomatch hb) currentSection
  rw [a.withValue_record] at hform
  exact hform

theorem Assignment.Clean.sound (ha : a.Clean) (hnewline : IsLineEnding newline) :
    Sound (a.record newline) := by
  refine ⟨⟨?_, .inl hnewline, fun hnil => ?_⟩, ha.isUtf8_raw,
    fun _ => a.withValue_record newline, fun _ => ha.editable⟩
  · have hequals : NoBreak (ascii " = ") := by unfold NoBreak; decide
    exact (NoBreak.append ha.key_noBreak hequals).append ha.value.noBreak
  · have hraw : a.key ++ ascii " = " ++ a.value = [] := hnil
    simp [ha.key_ne_nil] at hraw

theorem Assignment.Clean.newKeyRecord (ha : a.Clean) (hnewline : IsLineEnding newline) :
    IniDocument.newKeyRecord newline a.sectionName a.key a.value = .ok (a.record newline) := by
  have hutf8 : IsUtf8 newline := by
    rcases hnewline with rfl | rfl | rfl <;> exact isUtf8_of_ascii (by decide)
  unfold IniDocument.newKeyRecord
  rw [internStd_ok hutf8, except_ok_bind, internStd_ok ha.isUtf8_raw, except_ok_bind,
    intern_of_isUtf8 ha.utf8.1, intern_of_isUtf8 ha.utf8.2, intern_of_isUtf8 ha.value.utf8]
  rfl

/-- A new key is added to a section that is current where its line is put. -/
theorem Inv.addKey {d : IniDocument} (h : Inv d) (ha : a.Clean) (hnewline : IsLineEnding newline)
    (hsection : sectionAfter [] (d.records.take (d.findInsertPosition a.sectionName)) =
      a.sectionName)
    (hlast : ∀ last, (d.records.take (d.findInsertPosition a.sectionName)).getLast? = some last →
      last.lineEnding ≠ [] ∨ trimAscii last.raw = [])
    (hbom : d.records.take (d.findInsertPosition a.sectionName) = [] →
      ¬ IniReader.bom <+: a.key) :
    ∃ d', d.addKey newline a.sectionName a.key a.value = .ok d' ∧ Inv d' := by
  unfold IniDocument.addKey
  rw [ha.newKeyRecord hnewline, except_ok_bind]
  refine ⟨_, rfl, IniDocument.indexed_rebuildIndex _, ?_, ?_⟩
  · rw [IniDocument.rebuildIndex_defaultLineEnding]
    exact h.ending
  · rw [IniDocument.rebuildIndex_records]
    have hlines := h.lines
    rw [← List.take_append_drop (d.findInsertPosition a.sectionName) d.records] at hlines
    dsimp only
    rw [List.append_assoc, List.singleton_append]
    have hform : LineForm a.sectionName (a.record newline).raw none
        (some ⟨a.sectionName, a.key, a.value⟩) := ha.lineForm a.sectionName
    refine hlines.insert (ha.sound hnewline) (fun last hmem => ?_) ?_ ?_ (.inr rfl) fun hnil => ?_
    · exact (hlast last hmem).imp_right .inr
    · obtain ⟨c, t, hcons, -⟩ := hnewline.exists_cons
      intro hnil
      have hempty : newline = [] := hnil
      rw [hcons] at hempty
      cases hempty
    · rw [hsection]
      exact hform
    · intro hraw
      have hkey : IniReader.bom <+: a.key ++ [32, 61, 32] ++ a.value := hraw
      rw [List.append_assoc, List.cons_append, bom_prefix_append (by decide)] at hkey
      exact hbom hnil hkey

end NewKey

/-! ## Where a new key is put -/

theorem sectionAfter_sectionEnd (rs : List LineRecord) (pos : Nat) :
    sectionAfter [] (rs.take (IniDocument.sectionEnd rs pos)) = sectionAfter [] (rs.take pos) := by
  unfold IniDocument.sectionEnd
  rw [List.take_add, sectionAfter_append]
  refine sectionAfter_of_no_header _ fun r hr => ?_
  rw [← List.prefix_iff_eq_take.mp (List.takeWhile_prefix _)] at hr
  simpa using List.mem_takeWhile_imp hr

/-- The section is current behind its last header. -/
theorem sectionAfter_header {i : Nat} {s : Bytes}
    (h : LastAt (IsHeader s) rs i) : sectionAfter [] (rs.take (i + 1)) = s := by
  obtain ⟨⟨r, hr, hkind, rfl⟩, -⟩ := h
  obtain ⟨hi, rfl⟩ := List.getElem?_eq_some_iff.mp hr
  rw [List.take_succ_eq_append_getElem hi, sectionAfter_append]
  change (rs[i].line.section?).getD _ = _
  rw [show rs[i].line.section? = some rs[i].line.sectionName from if_pos hkind]
  rfl

/-- **The section of a new key is current where its line is put.** -/
theorem sectionAfter_findInsertPosition (h : d.Indexed) {s : Bytes}
    (hs : d.isNewSection s = false) :
    sectionAfter [] (d.records.take (d.findInsertPosition s)) = s := by
  unfold IniDocument.findInsertPosition
  split_ifs with hglobal
  · rw [sectionAfter_sectionEnd, hglobal]
    rfl
  · cases hfind : d.sectionIndex.find s with
    | none =>
      unfold IniDocument.isNewSection at hs
      simp [hglobal, hfind] at hs
    | some i =>
      dsimp only
      rw [sectionAfter_sectionEnd]
      rw [h.sectionIndex_eq] at hfind
      exact sectionAfter_header ((IniDocument.find_sectionIndex d.records s).1 i hfind)

/-! ## A section that is new -/

section NewSection

variable {s : Bytes}

/-- The header of a section is read as the name in it. -/
theorem lineForm_header (hname : ∀ b ∈ s, b ≠ 93) (htrim : trimAscii s = s)
    (currentSection : Bytes) :
    LineForm currentSection (ascii "[" ++ s ++ ascii "]") (some s) none := by
  have hraw : ascii "[" ++ s ++ ascii "]" = 91 :: s ++ 93 :: [] := rfl
  have htrimmed : trimAscii (91 :: s ++ 93 :: []) = 91 :: s ++ 93 :: [] := by
    refine trim_eq_self_iff.mpr ⟨fun b hb => ?_, fun b hb => ?_⟩
    · obtain rfl := Option.some.inj hb
      rfl
    · rw [List.getLast?_append] at hb
      cases hb
      rfl
  have hclose : (91 :: s ++ 93 :: []).findIdx? (· == 93) = some (91 :: s).length := by
    refine findIdx?_append_cons _ (List.forall_mem_cons.mpr ⟨rfl, fun b hb => ?_⟩) rfl
    simpa using hname b hb
  have hhead : (trimAscii (91 :: s ++ 93 :: [])).head? = some 91 := by rw [htrimmed]; rfl
  have hform : LineForm currentSection (91 :: s ++ 93 :: []) _ none :=
    LineForm.header hhead (by rw [htrimmed]; exact hclose)
  rw [htrimmed] at hform
  have hmiddle : ((91 :: s ++ 93 :: []).drop 1).take ((91 :: s).length - 1) = s := by
    change (s ++ 93 :: []).take (s.length + 1 - 1) = s
    rw [Nat.add_sub_cancel, List.take_left]
  rw [hmiddle, htrim] at hform
  rw [hraw]
  exact hform

/-- The empty line and the header that are added for a section that is new. -/
def headerRecord (newline s : Bytes) : LineRecord where
  line := { kind := .sectionHeader, sectionName := s }
  raw := ascii "[" ++ s ++ ascii "]"
  lineEnding := newline

theorem sound_blank {newline : Bytes} (hnewline : IsLineEnding newline) :
    Sound { lineEnding := newline } := by
  refine ⟨⟨fun _ hb => (nomatch hb), .inl hnewline, fun _ => ?_⟩, isUtf8_nil,
    fun hkind => (by cases hkind), fun hkind => (by cases hkind)⟩
  obtain ⟨c, t, hcons, -⟩ := hnewline.exists_cons
  rw [hcons]
  exact List.cons_ne_nil _ _

theorem isUtf8_headerRecord (hutf8 : IsUtf8 s) : IsUtf8 (ascii "[" ++ s ++ ascii "]") :=
  ((isUtf8_of_ascii (by decide)).append hutf8).append (isUtf8_of_ascii (by decide))

theorem sound_headerRecord {newline : Bytes} (hnewline : IsLineEnding newline)
    (hname : ∀ b ∈ s, b ≠ 93 ∧ b ≠ 13 ∧ b ≠ 10) (hutf8 : IsUtf8 s) :
    Sound (headerRecord newline s) := by
  refine ⟨⟨?_, .inl hnewline, fun hnil => (by cases hnil)⟩, isUtf8_headerRecord hutf8,
    fun hkind => (by cases hkind), fun hkind => (by cases hkind)⟩
  have hopen : NoBreak (ascii "[") := by unfold NoBreak; decide
  have hclose : NoBreak (ascii "]") := by unfold NoBreak; decide
  exact (NoBreak.append hopen fun b hb => (hname b hb).2).append hclose

/-- The lines with the empty line that `set` puts before a new section. -/
def blankLine (newline : Bytes) (rs : List LineRecord) : List LineRecord :=
  match rs.getLast? with
  | none => []
  | some last => if last.raw = [] then [] else [{ lineEnding := newline }]

theorem WellFormed.blankLine {rs : List LineRecord} (h : WellFormed rs) {newline : Bytes}
    (hnewline : IsLineEnding newline) : WellFormed (rs ++ blankLine newline rs) ∧
      ∀ last ∈ (rs ++ Ini.blankLine newline rs).getLast?, last.lineEnding ≠ [] := by
  have hne : newline ≠ [] := by
    obtain ⟨c, t, hcons, -⟩ := hnewline.exists_cons
    rw [hcons]
    exact List.cons_ne_nil _ _
  unfold Ini.blankLine
  cases hlast : rs.getLast? with
  | none =>
    obtain rfl := List.getLast?_eq_none_iff.mp hlast
    exact ⟨h, fun _ hmem => nomatch hmem⟩
  | some last =>
    have hmem := List.mem_of_getLast? hlast
    dsimp only
    split_ifs with hempty
    · rw [List.append_nil]
      refine ⟨h, fun last' hlast' => ?_⟩
      obtain rfl : last' = last := Option.some.inj (hlast'.symm.trans hlast)
      exact (h.sound last' hmem).shape.nonempty hempty
    · refine ⟨?_, fun last' hlast' => ?_⟩
      · rw [← List.append_nil rs] at h
        refine h.insert (sound_blank hnewline) (fun _ _ => .inr (.inl rfl)) hne
          (LineForm.blank rfl) (.inl rfl) fun hnil => ?_
        rw [hnil] at hlast
        cases hlast
      · rw [List.getLast?_append] at hlast'
        cases hlast'
        exact hne

/-- **A section that is new is added at the end.** -/
theorem Inv.addSection {d : IniDocument} (h : Inv d)
    (hname : ∀ b ∈ s, b ≠ 93 ∧ b ≠ 13 ∧ b ≠ 10) (hutf8 : IsUtf8 s) (htrim : trimAscii s = s) :
    ∃ d', d.addSection s = .ok d' ∧ Inv d' ∧
      ∃ rs newline, newline ≠ [] ∧ d'.records = rs ++ [headerRecord newline s] := by
  have hnewline : d.lineEndingForNewLine = d.defaultLineEnding := by
    obtain ⟨c, t, hcons, -⟩ := h.ending.exists_cons
    unfold IniDocument.lineEndingForNewLine
    rw [if_neg (by rw [hcons]; exact List.cons_ne_nil _ _)]
  have hnewlineUtf8 : IsUtf8 d.defaultLineEnding := by
    rcases h.ending with hend | hend | hend <;> rw [hend] <;> exact isUtf8_of_ascii (by decide)
  have hne : d.defaultLineEnding ≠ [] := by
    obtain ⟨c, t, hcons, -⟩ := h.ending.exists_cons
    rw [hcons]
    exact List.cons_ne_nil _ _
  have hadd : d.addSection s = .ok { d with
      records := (d.records ++ blankLine d.defaultLineEnding d.records ++
        [headerRecord d.defaultLineEnding s]) }.rebuildIndex := by
    unfold IniDocument.addSection
    rw [hnewline, internStd_ok hnewlineUtf8, except_ok_bind,
      internStd_ok (isUtf8_headerRecord hutf8), except_ok_bind, intern_of_isUtf8 hutf8]
    rfl
  obtain ⟨hblank, hlast⟩ := h.lines.blankLine h.ending
  refine ⟨_, hadd, ⟨IniDocument.indexed_rebuildIndex _, ?_, ?_⟩,
    d.records ++ Ini.blankLine d.defaultLineEnding d.records, d.defaultLineEnding, hne, ?_⟩
  · rw [IniDocument.rebuildIndex_defaultLineEnding]
    exact h.ending
  · rw [IniDocument.rebuildIndex_records]
    rw [← List.append_nil (d.records ++ _)] at hblank
    refine hblank.insert (sound_headerRecord h.ending hname hutf8)
      (fun last hmem => .inl (hlast last hmem)) hne ?_ (.inl rfl) fun _ hbom => ?_
    · exact lineForm_header (fun b hb => (hname b hb).1) htrim _
    · have hcons : IniReader.bom <+: 91 :: (s ++ [93]) := hbom
      exact absurd (List.cons_prefix_cons.mp hcons).1 (by decide)
  · rw [IniDocument.rebuildIndex_records]

/-- A new key of a section that was just added is put behind its header. -/
theorem findInsertPosition_header {d : IniDocument} (h : d.Indexed) {rs : List LineRecord}
    {newline : Bytes} (hrecords : d.records = rs ++ [headerRecord newline s]) (hs : s ≠ []) :
    d.records.take (d.findInsertPosition s) = d.records ∧ d.isNewSection s = false := by
  have hheader : IsHeader s (headerRecord newline s) := ⟨rfl, rfl⟩
  have hmem : headerRecord newline s ∈ d.records := by rw [hrecords]; simp
  have hspec := IniDocument.find_sectionIndex d.records s
  rw [← h.sectionIndex_eq] at hspec
  cases hfind : d.sectionIndex.find s with
  | none => exact absurd hheader (hspec.2 hfind _ hmem)
  | some i =>
    obtain ⟨⟨r, hr, -⟩, hlast⟩ := hspec.1 i hfind
    have hlt := (List.getElem?_eq_some_iff.mp hr).1
    have hlength : d.records.length = rs.length + 1 := by rw [hrecords]; simp
    have hi : ¬ i < rs.length := fun hi =>
      hlast rs.length _ hi (by rw [hrecords]; simp) hheader
    constructor
    · unfold IniDocument.findInsertPosition IniDocument.sectionEnd
      rw [if_neg hs, hfind]
      exact List.take_of_length_le (by dsimp only; omega)
    · unfold IniDocument.isNewSection
      simp [hfind]

end NewSection

/-! ## Runs -/

theorem keyRecord_eq_none (h : d.Indexed) {s k : Bytes}
    (hnone : d.keyRecord s k = none) : d.findKey s k = none := by
  cases hfind : d.findKey s k with
  | none => rfl
  | some i =>
    obtain ⟨⟨r, hr, -⟩, -⟩ :=
      (IniDocument.findKey_index d.records s k).1 i (h.findKey_eq s k ▸ hfind)
    unfold IniDocument.keyRecord at hnone
    rw [hfind, Option.bind_some, hr] at hnone
    cases hnone

/-- **A safe call succeeds and keeps the invariant.** -/
theorem Inv.set (h : Inv d) {a : Assignment} (ha : a.Clean) (hsafe : a.Safe d) :
    ∃ d', d.set a.sectionName a.key a.value = .ok d' ∧ Inv d' := by
  unfold Assignment.Safe at hsafe
  cases hrecord : d.keyRecord a.sectionName a.key with
  | some r =>
    rw [hrecord] at hsafe
    exact h.set_key ha hrecord hsafe.1 hsafe.2
  | none =>
    rw [hrecord] at hsafe
    change a.SafeNew d at hsafe
    unfold Assignment.SafeNew at hsafe
    dsimp only at hsafe
    have hnewline : IsLineEnding d.lineEndingForNewLine := by
      unfold IniDocument.lineEndingForNewLine
      split_ifs
      · exact .inl rfl
      · exact h.ending
    unfold IniDocument.set
    rw [keyRecord_eq_none h.indexed hrecord]
    dsimp only
    by_cases hnew : d.isNewSection a.sectionName = true
    · rw [if_pos hnew] at hsafe ⊢
      obtain ⟨d1, hd1, hinv, rs, newline, hne, hrecords⟩ :=
        h.addSection ha.sectionName ha.utf8.1 hsafe
      rw [hd1, except_ok_bind]
      have hname : a.sectionName ≠ [] := by
        unfold IniDocument.isNewSection at hnew
        simp only [decide_eq_true_eq] at hnew
        exact hnew.1
      obtain ⟨htake, hold⟩ := findInsertPosition_header hinv.indexed hrecords hname
      refine hinv.addKey ha hnewline (sectionAfter_findInsertPosition hinv.indexed hold) ?_ ?_
      · rw [htake, hrecords]
        intro last hlast
        rw [List.getLast?_append] at hlast
        cases hlast
        exact .inl hne
      · rw [htake, hrecords]
        intro hnil
        simp at hnil
    · rw [if_neg hnew] at hsafe ⊢
      have hold : d.isNewSection a.sectionName = false := by simpa using hnew
      exact h.addKey ha hnewline (sectionAfter_findInsertPosition h.indexed hold) hsafe.1 hsafe.2

theorem Inv.run (h : Inv d) {as : List Assignment} (has : ∀ a ∈ as, a.Clean)
    (hsafe : SafeRun d as) : ∃ d', run d as = .ok d' ∧ Inv d' := by
  induction as generalizing d with
  | nil => exact ⟨d, rfl, h⟩
  | cons a as ih =>
    obtain ⟨ha, has⟩ := List.forall_mem_cons.mp has
    obtain ⟨d1, hset, hinv⟩ := h.set ha hsafe.1
    have hrest := hsafe.2
    rw [hset] at hrest
    obtain ⟨d', hrun, hinv'⟩ := ih hinv has hrest
    exact ⟨d', foldlM_cons_eq_ok.mpr ⟨d1, hset, hrun⟩, hinv'⟩

/-- **INI edits survive saving.** In every run of safe calls on a document that was read, what is
written is read back, and every key has the value that it has in the document. -/
theorem get_read_write {input : Bytes} {d : IniDocument} (h : read {} input = .ok d)
    (hbom : ¬ IniReader.bom ++ IniReader.bom <+: input) {as : List Assignment}
    (has : ∀ a ∈ as, a.Clean) (hsafe : SafeRun d as) :
    ∃ d' d'', saveAndRead d as = .ok (d', d'') ∧ ∀ s k, d''.get s k = d'.get s k := by
  obtain ⟨d', hrun, hinv⟩ := (inv_of_read h hbom).run has hsafe
  obtain ⟨text, d'', hwrite, hread, hget⟩ := hinv.reread
  refine ⟨d', d'', ?_, hget⟩
  unfold saveAndRead
  rw [hrun, except_ok_bind, hwrite, except_ok_bind, hread, except_ok_bind]
  rfl

/-- A text with a global key, and a section whose last line has no end. -/
def sampleIni : Bytes := ascii "top=1\r\n[net]\r\nport = 80  # http\r\n\r\n[log]\r\nlevel: 2"

/-- A changed value, a new global key, a new key in the middle and a new section. -/
def sampleCalls : List Assignment :=
  [⟨ascii "net", ascii "port", ascii "8080"⟩, ⟨[], ascii "user", ascii "me"⟩,
    ⟨ascii "net", ascii "host", ascii "a=b"⟩, ⟨ascii "new", ascii "key", []⟩]

theorem get_read_write_sample : ∃ d d' d'', read {} sampleIni = .ok d ∧
    saveAndRead d sampleCalls = .ok (d', d'') ∧ ∀ s k, d''.get s k = d'.get s k := by
  have hsafe : (match read {} sampleIni with
      | .ok d => decide (SafeRun d sampleCalls)
      | .error _ => false) = true := by decide +kernel
  have hclean : ∀ a ∈ sampleCalls, a.Clean := by
    have hascii : ∀ a ∈ sampleCalls, (∀ b ∈ a.sectionName, b < 0x80) ∧ (∀ b ∈ a.key, b < 0x80) ∧
        ∀ b ∈ a.value, b < 0x80 := by decide
    have hsection : ∀ a ∈ sampleCalls, ∀ b ∈ a.sectionName, b ≠ 93 ∧ b ≠ 13 ∧ b ≠ 10 := by decide
    have hkey : ∀ a ∈ sampleCalls, a.key ≠ [] ∧ trimAscii a.key = a.key ∧
        (∀ b ∈ a.key.head?, b ≠ 91 ∧ b ≠ 35 ∧ b ≠ 59) ∧
        (∀ b ∈ a.key, b ≠ 61 ∧ b ≠ 58 ∧ b ≠ 34 ∧ b ≠ 39 ∧ b ≠ 92 ∧ b ≠ 35 ∧ b ≠ 59) ∧
        ∀ b ∈ a.key, b ≠ 13 ∧ b ≠ 10 := by decide +kernel
    have hvalue : ∀ a ∈ sampleCalls, trimAscii a.value = a.value ∧
        (∀ b ∈ a.value, b ≠ 34 ∧ b ≠ 39 ∧ b ≠ 92 ∧ b ≠ 35 ∧ b ≠ 59) ∧
        ∀ b ∈ a.value, b ≠ 13 ∧ b ≠ 10 := by decide
    intro a ha
    obtain ⟨hne, htrim, hstart, hplain, hbreak⟩ := hkey a ha
    obtain ⟨hvtrim, hvplain, hvbreak⟩ := hvalue a ha
    obtain ⟨hs, hk, hv⟩ := hascii a ha
    exact ⟨hsection a ha, hne, htrim, hstart, hplain, hbreak,
      ⟨hvplain, hvbreak, hvtrim, isUtf8_of_ascii hv⟩, isUtf8_of_ascii hs, isUtf8_of_ascii hk⟩
  cases hread : read {} sampleIni with
  | error e =>
    rw [hread] at hsafe
    cases hsafe
  | ok d =>
    rw [hread] at hsafe
    obtain ⟨d', d'', hsave, hget⟩ :=
      get_read_write hread (by decide) hclean (of_decide_eq_true hsafe)
    exact ⟨d, d', d'', rfl, hsave, hget⟩

/-- A key that is added behind a line that has no end is written into that line. -/
theorem not_get_read_write : ¬ ∀ (input : Bytes) (d : IniDocument) (as : List Assignment),
    read {} input = .ok d → (∀ a ∈ as, a.Clean) →
      ∃ d' d'', saveAndRead d as = .ok (d', d'') ∧ ∀ s k, d''.get s k = d'.get s k := by
  intro h
  have hlost : (match read {} (ascii "a=1") with
      | .ok d =>
        match saveAndRead d [⟨[], ascii "b", ascii "2"⟩] with
        | .ok (d', d'') => decide (d''.get [] (ascii "b") = d'.get [] (ascii "b"))
        | .error _ => true
      | .error _ => true) = false := by decide
  cases hread : read {} (ascii "a=1") with
  | error e =>
    rw [hread] at hlost
    cases hlost
  | ok d =>
    have hclean : ∀ a ∈ [Assignment.mk [] (ascii "b") (ascii "2")], a.Clean := by
      refine List.forall_mem_singleton.mpr ⟨by decide, by decide, by decide, ?_, ?_, ?_, ?_, ?_⟩
      · intro b hb
        cases hb
        decide
      · exact List.forall_mem_singleton.mpr (by unfold IsPlain; decide)
      · unfold NoBreak
        decide
      · exact ⟨List.forall_mem_singleton.mpr (by unfold IsPlain; decide),
          by unfold NoBreak; decide, by decide, isUtf8_of_ascii (by decide)⟩
      · exact ⟨isUtf8_nil, isUtf8_of_ascii (by decide)⟩
    obtain ⟨d', d'', hsave, hget⟩ := h _ d _ hread hclean
    rw [hread] at hlost
    dsimp only at hlost
    rw [hsave] at hlost
    simp [hget] at hlost

end Libca.Ini
