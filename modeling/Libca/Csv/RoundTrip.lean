import Libca.Csv.Writer

/-!
# Written rows are read back (`csv/csv_reader.cpp`, `csv/csv_writer.cpp`)

* `Scans`: the scanner passes over some bytes from one state to another.
* `scans_fieldText`, `scans_fields`, `scans_rows`: over a written field, the other fields of its
  row, and the other rows.
* `readRows_recordsText`: what is read from written rows, all of them unless the last one is a
  single empty field without quotes.
* `rowsWeight_readRows`, `others_recordsText`: rows that are read weigh no more than their text,
  where quotes and line breaks weigh nothing; rows that are written weigh as much as theirs.
* `prefix_rowText`: which fields are written with a byte order mark in front.
* `read_write_iff`: **a written document is read back** unless its last row is a single empty field
  without quotes, or its text begins with what the reader takes for a byte order mark.
-/

namespace Libca.Csv

open Common CsvReader CsvWriter

/-- The options of a writer and a reader that accepts and matches them. -/
structure Compatible (o : CsvReaderOptions) (w : CsvWriterOptions) : Prop where
  delimiter : w.delimiter = o.delimiter
  quote : w.quote = o.quote
  different : o.delimiter ≠ o.quote
  delimiterAllowed : isReservedChar o.delimiter = false
  quoteAllowed : isReservedChar o.quote = false
  lineEnding : w.lineEnding = [10] ∨ w.lineEnding = [13, 10] ∨ w.lineEnding = [13]

variable {o : CsvReaderOptions} {w : CsvWriterOptions}

theorem not_isReservedChar {c : UInt8} (h : isReservedChar c = false) : c ≠ 13 ∧ c ≠ 10 ∧
    c ≠ 0 := by
  simpa [isReservedChar, not_or, and_assoc] using h

/-! ## Scanning -/

/-- From one state the scanner passes over some bytes, in front of others, to another state. -/
def Scans (o : CsvReaderOptions) (s : State) (as : Bytes) (s' : State) (rest : Bytes) : Prop :=
  ∀ loc, ∃ loc', scan o false s loc (as ++ rest) = scan o false s' loc' rest

theorem Scans.nil (s : State) (rest : Bytes) : Scans o s [] s rest := fun loc => ⟨loc, rfl⟩

variable {s : State} {rest : Bytes}

variable {s' : State}

theorem Scans.trans {s'' : State} {as bs : Bytes} (h : Scans o s as s' (bs ++ rest))
    (h' : Scans o s' bs s'' rest) : Scans o s (as ++ bs) s'' rest := by
  intro loc
  obtain ⟨loc', hloc'⟩ := h loc
  obtain ⟨loc'', hloc''⟩ := h' loc'
  exact ⟨loc'', by rw [List.append_assoc, hloc', hloc'']⟩

variable {ch : UInt8}

/-- A turn of the loop that takes one byte. -/
theorem Scans.one (h : ∀ loc, ∃ loc', step o s loc ch rest.head? = .ok (s', loc', false)) :
    Scans o s [ch] s' rest := by
  intro loc
  obtain ⟨loc', hloc'⟩ := h loc
  exact ⟨loc', by rw [List.singleton_append, scan, hloc']⟩

/-- A turn of the loop that takes two bytes. -/
theorem Scans.two {next : UInt8}
    (h : ∀ loc, ∃ loc', step o s loc ch (some next) = .ok (s', loc', true)) :
    Scans o s [ch, next] s' rest := by
  intro loc
  obtain ⟨loc', hloc'⟩ := h loc
  refine ⟨loc', ?_⟩
  rw [List.cons_append, List.singleton_append, scan, List.head?_cons, hloc']
  rfl

section Scans

variable (rows : List CsvRow) (row : CsvRow) (field : Bytes) {quoted : Bool}

/-- Bytes that mean nothing are added to the field. -/
theorem scans_plain (bs rest : Bytes)
    (hbs : ∀ b ∈ bs, b ≠ o.delimiter ∧ b ≠ o.quote ∧ b ≠ 13 ∧ b ≠ 10) :
    Scans o ⟨rows, row, field, false, false⟩ bs ⟨rows, row, field ++ bs, false, false⟩ rest := by
  induction bs generalizing field with
  | nil => simpa using Scans.nil _ _
  | cons b bs ih =>
    obtain ⟨hd, hq, hcr, hlf⟩ := hbs b (.head _)
    have hone : Scans o ⟨rows, row, field, false, false⟩ [b] ⟨rows, row, field ++ [b], false, false⟩
        (bs ++ rest) :=
      Scans.one fun loc => ⟨_, by simp [step, hd, hq, hcr, hlf]; rfl⟩
    have hrest := ih (field ++ [b]) fun b' hb' => hbs b' (.tail _ hb')
    rw [List.append_assoc, List.singleton_append] at hrest
    exact hone.trans hrest

/-- The bytes between the quotes are added to the field, each double quote as one. -/
theorem scans_escaped (hw : w.quote = o.quote) (bs rest : Bytes) :
    Scans o ⟨rows, row, field, true, true⟩ (escaped w bs) ⟨rows, row, field ++ bs, true, true⟩
      rest := by
  induction bs generalizing field with
  | nil => simpa [escaped] using Scans.nil _ _
  | cons b bs ih =>
    have hrest := ih (field ++ [b])
    rw [List.append_assoc, List.singleton_append] at hrest
    unfold escaped at hrest ⊢
    rw [List.flatMap_cons, hw]
    rw [hw] at hrest
    split_ifs with hb
    · subst hb
      exact (Scans.two fun loc => ⟨_, by simp [step, quotedStep]; rfl⟩).trans hrest
    · exact (Scans.one fun loc => ⟨_, by simp [step, quotedStep, hb]; rfl⟩).trans hrest

/-- A quote opens a field. -/
theorem scans_open (rest : Bytes) :
    Scans o ⟨rows, row, [], false, false⟩ [o.quote] ⟨rows, row, [], true, true⟩ rest :=
  Scans.one fun loc => ⟨_, by simp [step]; rfl⟩

/-- A quote before no other quote closes the field. -/
theorem scans_close (rest : Bytes) (hrest : rest.head? ≠ some o.quote) :
    Scans o ⟨rows, row, field, true, true⟩ [o.quote] ⟨rows, row, field, false, true⟩ rest :=
  Scans.one fun loc => ⟨_, by simp [step, quotedStep, hrest]; rfl⟩

/-- A delimiter finishes the field. -/
theorem scans_delimiter (h : o.delimiter ≠ o.quote) (rest : Bytes) :
    Scans o ⟨rows, row, field, false, quoted⟩ [o.delimiter]
      (finishField o ⟨rows, row, field, false, quoted⟩) rest :=
  Scans.one fun loc => ⟨_, by simp [step, h]; rfl⟩

/-- A line ending finishes the row. -/
theorem scans_lineEnding (h : Compatible o w) (rest : Bytes)
    (hrest : w.lineEnding = [13] → rest.head? ≠ some 10) :
    Scans o ⟨rows, row, field, false, quoted⟩ w.lineEnding
      (finishRow o ⟨rows, row, field, false, quoted⟩) rest := by
  obtain ⟨hd13, hd10, -⟩ := not_isReservedChar h.delimiterAllowed
  obtain ⟨hq13, hq10, -⟩ := not_isReservedChar h.quoteAllowed
  rcases h.lineEnding with hle | hle | hle
  · rw [hle]
    exact Scans.one fun loc => ⟨_, by simp [step, hd10.symm, hq10.symm]; rfl⟩
  · rw [hle]
    exact Scans.two fun loc => ⟨_, by simp [step, hd13.symm, hq13.symm]; rfl⟩
  · have hlf := hrest hle
    rw [hle]
    exact Scans.one fun loc => ⟨_, by simp [step, hd13.symm, hq13.symm, hlf]; rfl⟩

end Scans

/-! ## Written fields and rows -/

/-- What is written without quotes: bytes that mean nothing, and no blank at either end. -/
theorem of_not_needsQuote {field : Bytes} (h : needsQuote w field = false) :
    w.alwaysQuote = false ∧
      (∀ b ∈ field, b ≠ w.delimiter ∧ b ≠ w.quote ∧ b ≠ 13 ∧ b ≠ 10) ∧
      (field ≠ [] → isBlank (field.getD 0 0) = false ∧
        isBlank (field.getD (field.length - 1) 0) = false) := by
  unfold needsQuote at h
  split_ifs at h with halways hempty hblank
  · refine ⟨by simpa using halways, ?_, fun hne => absurd (List.length_eq_zero_iff.mp hempty) hne⟩
    rw [List.length_eq_zero_iff.mp hempty]
    rintro b ⟨⟩
  · refine ⟨by simpa using halways, fun b hb => ?_, fun _ => by simpa using hblank⟩
    have hall := List.any_eq_false.mp h b hb
    simpa [not_or, and_assoc] using hall

/-- Nothing is trimmed from a field that is written without quotes. -/
theorem trimAsciiSpace_of_not_needsQuote {field : Bytes} (h : needsQuote w field = false) :
    trimAsciiSpace field = field := by
  obtain ⟨-, hplain, hends⟩ := of_not_needsQuote h
  have hspace : ∀ b ∈ field, isBlank b = false → isAsciiSpace b = false := by
    intro b hb hblank
    obtain ⟨-, -, hcr, hlf⟩ := hplain b hb
    have hb : b ≠ 32 ∧ b ≠ 9 := by simpa [isBlank, not_or] using hblank
    simp [isAsciiSpace, hb.1, hb.2, hcr, hlf]
  rcases List.eq_nil_or_concat field with rfl | ⟨init, last, rfl⟩
  · rfl
  obtain ⟨hfirst, hlast⟩ := hends (by simp)
  have hlast' : isAsciiSpace last = false := by
    refine hspace last (by simp) ?_
    simpa using hlast
  have hhead : (init.concat last).dropWhile isAsciiSpace = init.concat last := by
    cases init with
    | nil => simp [hlast']
    | cons b bs =>
      have hb : isAsciiSpace b = false := hspace b (by simp) (by simpa using hfirst)
      simp [hb]
  unfold trimAsciiSpace
  rw [hhead]
  simp [hlast']

/-- The value of a written field is the field. -/
theorem fieldValue_of_written (rows : List CsvRow) (row : CsvRow) (field : Bytes) :
    fieldValue o ⟨rows, row, field, false, needsQuote w field⟩ = field := by
  unfold fieldValue
  by_cases h : needsQuote w field = true
  · simp [h]
  · have h' : needsQuote w field = false := by simpa using h
    simp [h', trimAsciiSpace_of_not_needsQuote h']

/-- **A written field is read back**, in front of what does not begin with a quote. -/
theorem scans_fieldText (h : Compatible o w) (rows : List CsvRow) (row : CsvRow)
    (field rest : Bytes) (hrest : rest.head? ≠ some o.quote) :
    Scans o ⟨rows, row, [], false, false⟩ (fieldText w field)
      ⟨rows, row, field, false, needsQuote w field⟩ rest := by
  unfold fieldText
  by_cases hneeds : needsQuote w field = true
  · rw [hneeds, h.quote]
    simp only [Bool.not_true, Bool.false_eq_true, if_false]
    have hclose := scans_close rows row field rest hrest
    have hcontent := scans_escaped rows row [] h.quote field ([o.quote] ++ rest)
    have hopen := scans_open rows row ((escaped w field ++ [o.quote]) ++ rest) (o := o)
    exact hopen.trans (hcontent.trans hclose)
  · have hneeds' : needsQuote w field = false := by simpa using hneeds
    rw [hneeds']
    have hplain := (of_not_needsQuote hneeds').2.1
    rw [h.delimiter, h.quote] at hplain
    simpa using scans_plain rows row [] field rest hplain

/-- The state after the last field of a row: no quote is open, and the row, with the value of the
field, is given. -/
structure AtFieldEnd (o : CsvReaderOptions) (s : State) (rows : List CsvRow) (row : CsvRow) :
    Prop where
  rows : s.parsedRows = rows
  row : s.currentRow ++ [fieldValue o s] = row
  closed : s.inQuotes = false

/-- A state that the reader takes for the end of the text after a line break. -/
def Fresh (s : State) : Prop :=
  s.currentRow = [] ∧ s.currentField = [] ∧ s.fieldWasQuoted = false

/-- A row that is written as nothing at all. -/
def Lone (w : CsvWriterOptions) (row : CsvRow) : Prop := row = [[]] ∧ w.alwaysQuote = false

instance (w : CsvWriterOptions) (row : CsvRow) : Decidable (Lone w row) :=
  inferInstanceAs (Decidable (_ ∧ _))

theorem AtFieldEnd.finishField {rows : List CsvRow} {row : CsvRow}
    (hs : AtFieldEnd o s rows row) : finishField o s = ⟨rows, row, [], false, false⟩ := by
  obtain ⟨rfl, rfl, hclosed⟩ := hs
  unfold CsvReader.finishField
  rw [hclosed]

theorem AtFieldEnd.finishRow {rows : List CsvRow} {row : CsvRow}
    (hs : AtFieldEnd o s rows row) : finishRow o s = ⟨rows ++ [row], [], [], false, false⟩ := by
  unfold CsvReader.finishRow
  rw [hs.finishField]

theorem AtFieldEnd.scans_delimiter {rows : List CsvRow} {row : CsvRow}
    (h : Compatible o w) (hs : AtFieldEnd o s rows row) (rest : Bytes) :
    Scans o s [o.delimiter] ⟨rows, row, [], false, false⟩ rest := by
  rw [← hs.finishField]
  obtain ⟨-, -, hclosed⟩ := hs
  cases s
  subst hclosed
  exact Csv.scans_delimiter _ _ _ h.different rest

theorem AtFieldEnd.scans_lineEnding {rows : List CsvRow} {row : CsvRow}
    (h : Compatible o w) (hs : AtFieldEnd o s rows row) (rest : Bytes)
    (hrest : w.lineEnding = [13] → rest.head? ≠ some 10) :
    Scans o s w.lineEnding ⟨rows ++ [row], [], [], false, false⟩ rest := by
  rw [← hs.finishRow]
  obtain ⟨-, -, hclosed⟩ := hs
  cases s
  subst hclosed
  exact Csv.scans_lineEnding _ _ _ h rest hrest

theorem AtFieldEnd.row_ne_nil {rows : List CsvRow} {row : CsvRow}
    (hs : AtFieldEnd o s rows row) : row ≠ [] := by
  rw [← hs.row]
  simp

/-- What may follow a row: nothing, or a line ending. -/
def RowEnd (w : CsvWriterOptions) (rest : Bytes) : Prop :=
  rest = [] ∨ ∃ more, rest = w.lineEnding ++ more

theorem RowEnd.head_ne_quote (h : Compatible o w) (hrest : RowEnd w rest) :
    rest.head? ≠ some o.quote := by
  obtain ⟨hq13, hq10, -⟩ := not_isReservedChar h.quoteAllowed
  rcases hrest with rfl | ⟨more, rfl⟩
  · simp
  · rcases h.lineEnding with hle | hle | hle <;> simp [hle, hq13.symm, hq10.symm]

theorem fields_head_ne_quote (h : Compatible o w) (hrest : RowEnd w rest)
    (fields : CsvRow) : ((fields.flatMap fun f => w.delimiter :: fieldText w f) ++ rest).head? ≠
      some o.quote := by
  cases fields with
  | nil => simpa using hrest.head_ne_quote h
  | cons f fields =>
    rw [List.flatMap_cons, List.cons_append, List.cons_append, List.head?_cons, h.delimiter]
    exact fun heq => h.different (Option.some.inj heq)

/-- **The other fields of a written row are read back.** -/
theorem scans_fields (h : Compatible o w) (hrest : RowEnd w rest) (fields : CsvRow)
    {rows : List CsvRow} {row : CsvRow} (hs : AtFieldEnd o s rows row) :
    ∃ s', Scans o s (fields.flatMap fun f => w.delimiter :: fieldText w f) s' rest ∧
      AtFieldEnd o s' rows (row ++ fields) ∧ (Fresh s' ↔ Fresh s ∧ fields = []) := by
  induction fields generalizing s row with
  | nil => exact ⟨s, Scans.nil s rest, by simpa using hs, by simp⟩
  | cons f fields ih =>
    have hfield : AtFieldEnd o ⟨rows, row, f, false, needsQuote w f⟩ rows (row ++ [f]) :=
      ⟨rfl, by rw [fieldValue_of_written], rfl⟩
    obtain ⟨s', hscan, hend, hfresh⟩ := ih hfield
    refine ⟨s', ?_, by simpa using hend, ?_⟩
    · rw [List.flatMap_cons, ← List.singleton_append, h.delimiter]
      rw [h.delimiter] at hscan
      have hhead := fields_head_ne_quote h hrest fields
      rw [h.delimiter] at hhead
      have htext := scans_fieldText h rows row f _ hhead
      exact ((hs.scans_delimiter h _).trans htext).trans hscan
    · rw [hfresh]
      simp [Fresh, hs.row_ne_nil]

/-- A written row is read back. -/
theorem scans_rowText (h : Compatible o w) (hrest : RowEnd w rest)
    (rows : List CsvRow) {row : CsvRow} (hrow : row ≠ []) :
    ∃ s', Scans o ⟨rows, [], [], false, false⟩ (rowText w row) s' rest ∧
      AtFieldEnd o s' rows row ∧ (Fresh s' ↔ Lone w row) := by
  obtain ⟨f, fields, rfl⟩ := List.exists_cons_of_ne_nil hrow
  have hfield : AtFieldEnd o ⟨rows, [], f, false, needsQuote w f⟩ rows [f] :=
    ⟨rfl, by rw [fieldValue_of_written]; rfl, rfl⟩
  obtain ⟨s', hscan, hend, hfresh⟩ := scans_fields h hrest fields hfield
  have htext := scans_fieldText h rows [] f _ (fields_head_ne_quote h hrest fields)
  refine ⟨s', htext.trans hscan, hend, ?_⟩
  rw [hfresh]
  constructor
  · rintro ⟨⟨-, hf, hquoted⟩, rfl⟩
    exact ⟨by simpa using hf, (of_not_needsQuote hquoted).1⟩
  · rintro ⟨hlone, halways⟩
    obtain ⟨rfl, rfl⟩ := List.cons.inj hlone
    exact ⟨⟨rfl, rfl, by simp [needsQuote, halways]⟩, rfl⟩

/-- A written row, or what follows it, does not begin with a line feed behind a carriage return. -/
theorem rowText_head_ne_lf (h : Compatible o w) (hrest : RowEnd w rest)
    {row : CsvRow} (hle : w.lineEnding = [13]) : (rowText w row ++ rest).head? ≠ some 10 := by
  obtain ⟨-, hd10, -⟩ := not_isReservedChar h.delimiterAllowed
  obtain ⟨-, hq10, -⟩ := not_isReservedChar h.quoteAllowed
  have hend : rest.head? ≠ some 10 := by
    rcases hrest with rfl | ⟨more, rfl⟩
    · simp
    · simp [hle]
  have hfields : ∀ fields : CsvRow,
      ((fields.flatMap fun f => w.delimiter :: fieldText w f) ++ rest).head? ≠ some 10 := by
    intro fields
    cases fields with
    | nil => simpa using hend
    | cons g fields => simpa [h.delimiter] using hd10
  cases row with
  | nil => simpa [rowText] using hend
  | cons f fields =>
    rw [rowText, List.append_assoc]
    unfold fieldText
    split_ifs with hneeds
    · cases f with
      | nil => exact hfields fields
      | cons b bs =>
        have hb := (of_not_needsQuote (by simpa using hneeds)).2.1 b (.head _)
        simpa using hb.2.2.2
    · simpa [h.quote] using hq10

/-- What follows a row is the end, or the line ending before the next row. -/
theorem rowEnd_rows (w : CsvWriterOptions) (rows : List CsvRow) :
    RowEnd w (rows.flatMap fun row => w.lineEnding ++ rowText w row) := by
  cases rows with
  | nil => exact .inl rfl
  | cons row rows =>
    exact .inr ⟨_, by rw [List.flatMap_cons, List.append_assoc]⟩

/-- **The other written rows are read back.** -/
theorem scans_rows (h : Compatible o w) (more : List CsvRow) (hmore : ∀ row ∈ more, row ≠ [])
    {rows : List CsvRow} {row : CsvRow} (hs : AtFieldEnd o s rows row)
    (hfresh : Fresh s ↔ Lone w row) :
    ∃ s' rows' row', Scans o s (more.flatMap fun row => w.lineEnding ++ rowText w row) s' [] ∧
      AtFieldEnd o s' rows' row' ∧ rows' ++ [row'] = rows ++ row :: more ∧
      (Fresh s' ↔ Lone w row') := by
  induction more generalizing s rows row with
  | nil => exact ⟨s, rows, row, Scans.nil s [], hs, rfl, hfresh⟩
  | cons next more ih =>
    have hend := rowEnd_rows w more
    obtain ⟨s₁, hscan, hs₁, hfresh₁⟩ :=
      scans_rowText h hend (rows ++ [row]) (hmore next (.head _))
    obtain ⟨s', rows', row', hscan', hs', hall, hfresh'⟩ :=
      ih (fun r hr => hmore r (.tail _ hr)) hs₁ hfresh₁
    refine ⟨s', rows', row', ?_, hs', by simpa using hall, hfresh'⟩
    rw [List.flatMap_cons]
    have hline := hs.scans_lineEnding h
      (rowText w next ++ more.flatMap fun row => w.lineEnding ++ rowText w row)
      fun hle => rowText_head_ne_lf h hend hle
    have hnext := hline.trans hscan
    rw [← List.append_nil (more.flatMap fun row => w.lineEnding ++ rowText w row)] at hnext
    simpa using hnext.trans hscan'

/-! ## What is read of written rows -/

theorem recordsText_concat (w : CsvWriterOptions) {rows : List CsvRow} (hrows : rows ≠ [])
    (row : CsvRow) :
    recordsText w (rows ++ [row]) = recordsText w rows ++ (w.lineEnding ++ rowText w row) := by
  obtain ⟨first, rows, rfl⟩ := List.exists_cons_of_ne_nil hrows
  simp [recordsText]

/-- A text whose last row is lone is empty or ends with a line break. -/
theorem getLast_recordsText_lone (h : Compatible o w) {rows : List CsvRow} {row : CsvRow}
    (hlone : Lone w row) : recordsText w (rows ++ [row]) = [] ∨
      (recordsText w (rows ++ [row])).getLast? ≠ some o.delimiter := by
  obtain ⟨hd13, hd10, -⟩ := not_isReservedChar h.delimiterAllowed
  have hempty : rowText w row = [] := by
    rw [hlone.1]
    simp [rowText, fieldText, needsQuote, hlone.2]
  by_cases hrows : rows = []
  · left
    rw [hrows]
    simp [recordsText, hempty]
  · right
    rw [recordsText_concat w hrows, hempty]
    rcases h.lineEnding with hle | hle | hle <;>
      simp [hle, List.getLast?_append, hd13.symm, hd10.symm]

/-- **What is read of written rows**: all of them, but not a last row that is written as nothing. -/
theorem readRows_recordsText (h : Compatible o w) {rows : List CsvRow} {row : CsvRow}
    (hrows : ∀ row' ∈ rows ++ [row], row' ≠ []) :
    readRows o (recordsText w (rows ++ [row])) =
      .ok (if Lone w row then rows else rows ++ [row]) := by
  obtain ⟨first, more, hall⟩ : ∃ first more, rows ++ [row] = first :: more :=
    List.exists_cons_of_ne_nil (by simp)
  rw [hall] at hrows
  obtain ⟨s₁, hscan₁, hs₁, hfresh₁⟩ :=
    scans_rowText h (rowEnd_rows w more) [] (hrows first (.head _))
  obtain ⟨s', rows', row', hscan, hs', hall', hfresh⟩ :=
    scans_rows h more (fun r hr => hrows r (.tail _ hr)) hs₁ hfresh₁
  obtain ⟨rfl, rfl⟩ : rows' = rows ∧ row' = row := by
    rw [List.nil_append, ← hall] at hall'
    exact List.append_singleton_inj.mp hall'
  have hscans : Scans o ⟨[], [], [], false, false⟩ (recordsText w (rows' ++ [row'])) s' [] := by
    rw [hall, recordsText]
    rw [← List.append_nil (more.flatMap fun row => w.lineEnding ++ rowText w row)] at hscan₁
    exact hscan₁.trans hscan
  obtain ⟨loc, hloc⟩ := hscans {}
  rw [List.append_nil] at hloc
  have hread : readRows o (recordsText w (rows' ++ [row'])) =
      finish o s' loc (recordsText w (rows' ++ [row'])) := by
    unfold readRows
    rw [show ({} : State) = ⟨[], [], [], false, false⟩ from rfl, hloc]
    rfl
  rw [hread]
  unfold finish
  rw [hs'.closed, if_neg Bool.false_ne_true]
  by_cases hlone : Lone w row'
  · obtain ⟨hrow, hfield, hquoted⟩ := hfresh.mpr hlone
    rw [if_pos hlone, if_neg, hs'.rows]
    rintro ⟨hne, h' | h' | h' | h'⟩
    · exact h' hfield
    · exact h' hrow
    · exact (getLast_recordsText_lone h hlone).elim hne fun hlast => hlast h'
    · simp [hquoted] at h'
  · have hnot : ¬ Fresh s' := fun h' => hlone (hfresh.mp h')
    have hne : recordsText w (rows' ++ [row']) ≠ [] := by
      intro hnil
      rw [hnil] at hloc
      obtain ⟨rfl, -⟩ := Prod.mk.inj (Except.ok.inj hloc)
      exact hnot ⟨rfl, rfl, rfl⟩
    rw [if_neg hlone, if_pos, hs'.finishRow]
    refine ⟨hne, ?_⟩
    by_contra hcon
    simp only [not_or, not_not] at hcon
    exact hnot ⟨hcon.2.1, hcon.1, by simpa using hcon.2.2.2⟩

/-! ## The weight of a text -/

/-- A byte that is no quote and no line break. -/
def isOther (o : CsvReaderOptions) (b : UInt8) : Bool := b != o.quote && b != 13 && b != 10

/-- The number of bytes that are no quotes and no line breaks. -/
def others (o : CsvReaderOptions) (bs : Bytes) : Nat := bs.countP (isOther o)

@[simp] theorem others_nil : others o [] = 0 := rfl

@[simp] theorem others_append (as bs : Bytes) : others o (as ++ bs) = others o as + others o bs :=
  List.countP_append

/-- The other bytes of the fields of a row, and the delimiters behind some of its fields. -/
def fieldsWeight (o : CsvReaderOptions) (fields : CsvRow) : Nat :=
  (fields.map fun f => others o f + 1).sum

/-- The same for a whole row, whose last field has no delimiter behind it. -/
def rowWeight (o : CsvReaderOptions) (row : CsvRow) : Nat := fieldsWeight o row - 1

/-- The weight of rows. -/
def rowsWeight (o : CsvReaderOptions) (rows : List CsvRow) : Nat := (rows.map (rowWeight o)).sum

/-- The weight of what a state has taken. -/
def stateWeight (o : CsvReaderOptions) (s : State) : Nat :=
  rowsWeight o s.parsedRows + fieldsWeight o s.currentRow + others o s.currentField

theorem fieldsWeight_concat (fields : CsvRow) (f : Bytes) :
    fieldsWeight o (fields ++ [f]) = fieldsWeight o fields + (others o f + 1) := by
  simp [fieldsWeight]

theorem rowsWeight_concat (rows : List CsvRow) (row : CsvRow) :
    rowsWeight o (rows ++ [row]) = rowsWeight o rows + rowWeight o row := by
  simp [rowsWeight]

/-- Trimming takes no weight in. -/
theorem others_fieldValue (s : State) : others o (fieldValue o s) ≤ others o s.currentField := by
  unfold fieldValue
  split_ifs
  · unfold trimAsciiSpace others
    rw [List.countP_reverse]
    refine ((List.dropWhile_sublist _).countP_le).trans ?_
    rw [List.countP_reverse]
    exact (List.dropWhile_sublist _).countP_le
  · exact le_rfl

theorem stateWeight_finishField (s : State) :
    stateWeight o (finishField o s) ≤ stateWeight o s + 1 := by
  have hvalue := others_fieldValue (o := o) s
  unfold stateWeight finishField
  simp only [fieldsWeight_concat, others_nil]
  omega

theorem stateWeight_finishRow (s : State) : stateWeight o (finishRow o s) ≤ stateWeight o s := by
  have hvalue := others_fieldValue (o := o) s
  have hnil : fieldsWeight o [] = 0 := rfl
  unfold stateWeight finishRow finishField
  simp only [rowsWeight_concat, rowWeight, fieldsWeight_concat, others_nil, hnil]
  omega

/-- **A turn of the loop takes in no more than the byte weighs**, and the byte that it passes over
weighs nothing. -/
theorem stateWeight_step (h : Compatible o w) {loc loc' : SourceLocation}
    {next : Option UInt8} {skip : Bool} (hstep : step o s loc ch next = .ok (s', loc', skip)) :
    stateWeight o s' ≤ stateWeight o s + others o [ch] ∧
      (skip = true → next = some o.quote ∨ next = some 10) := by
  obtain ⟨hd13, hd10, -⟩ := not_isReservedChar h.delimiterAllowed
  have hpush : ∀ f : Bytes, others o (f ++ [ch]) = others o f + others o [ch] := fun f =>
    others_append f [ch]
  unfold step quotedStep at hstep
  split_ifs at hstep with hin hquote hnext hnl hopen hdelim hbreak hbad <;>
    simp only [Except.ok.injEq, Prod.mk.injEq] at hstep <;> obtain ⟨rfl, -, rfl⟩ := hstep
  · refine ⟨?_, fun _ => .inl hnext⟩
    simp [stateWeight, others, isOther]
  · refine ⟨?_, by simp⟩
    simp [stateWeight]
  · refine ⟨?_, by simp⟩
    simp only [stateWeight, hpush]
    omega
  · refine ⟨?_, by simp⟩
    simp only [stateWeight, hpush]
    omega
  · refine ⟨?_, by simp⟩
    simp [stateWeight]
  · refine ⟨?_, by simp⟩
    have hone : others o [ch] = 1 := by
      simp [others, isOther, hdelim, h.different, hd13, hd10]
    rw [hone]
    exact stateWeight_finishField s
  · refine ⟨(stateWeight_finishRow s).trans (Nat.le_add_right _ _), fun hskip => ?_⟩
    exact .inr (by simpa using (of_decide_eq_true hskip).2)
  · refine ⟨?_, by simp⟩
    simp only [stateWeight, hpush]
    omega

/-- The loop takes in no more than the text weighs. -/
theorem stateWeight_scan (h : Compatible o w) {skip : Bool}
    {loc loc' : SourceLocation} {data : Bytes} (hscan : scan o skip s loc data = .ok (s', loc')) :
    stateWeight o s' ≤ stateWeight o s + others o data := by
  induction data generalizing skip s loc with
  | nil =>
    cases skip <;> simp only [scan, Except.ok.injEq, Prod.mk.injEq] at hscan <;>
      obtain ⟨rfl, -⟩ := hscan <;> simp
  | cons ch data ih =>
    have hcons : others o (ch :: data) = others o [ch] + others o data := others_append [ch] data
    cases skip with
    | true =>
      have := ih hscan
      omega
    | false =>
      rw [scan] at hscan
      cases hstep : step o s loc ch data.head? with
      | error err => simp [hstep] at hscan
      | ok next =>
        obtain ⟨s₁, loc₁, skip₁⟩ := next
        rw [hstep] at hscan
        have hweight := (stateWeight_step h hstep).1
        have := ih hscan
        omega

/-- **Rows that are read weigh no more than their text.** -/
theorem rowsWeight_readRows (h : Compatible o w) {data : Bytes} {rows : List CsvRow}
    (hread : readRows o data = .ok rows) : rowsWeight o rows ≤ others o data := by
  unfold readRows at hread
  cases hscan : scan o false {} {} data with
  | error err => simp [hscan] at hread
  | ok next =>
    obtain ⟨s, loc⟩ := next
    rw [hscan] at hread
    have hstate : stateWeight o s ≤ others o data := by
      have hweight := stateWeight_scan h hscan
      have hinit : stateWeight o {} = 0 := rfl
      omega
    have hrow := stateWeight_finishRow (o := o) s
    simp only [finish] at hread
    split_ifs at hread <;> obtain rfl := Except.ok.inj hread <;>
      simp only [stateWeight] at hstate hrow <;> omega

/-! ## The weight of what is written -/

theorem others_escaped (hquote : w.quote = o.quote) (field : Bytes) :
    others o (escaped w field) = others o field := by
  induction field with
  | nil => rfl
  | cons b bs ih =>
    have hcons : others o (b :: bs) = others o [b] + others o bs := others_append [b] bs
    unfold escaped at ih ⊢
    rw [List.flatMap_cons, others_append, ih, hcons, hquote]
    split_ifs with hb
    · subst hb
      simp [others, isOther]
    · rfl

theorem others_fieldText (hquote : w.quote = o.quote) (field : Bytes) :
    others o (fieldText w field) = others o field := by
  unfold fieldText
  split_ifs
  · rfl
  · have hq : ∀ bs : Bytes, others o (o.quote :: bs) = others o bs := fun bs => by
      simp [others, isOther]
    rw [hquote, hq, others_append, others_escaped hquote, hq]
    simp

theorem others_fields (h : Compatible o w) (fields : CsvRow) :
    others o (fields.flatMap fun f => w.delimiter :: fieldText w f) = fieldsWeight o fields := by
  obtain ⟨hd13, hd10, -⟩ := not_isReservedChar h.delimiterAllowed
  have hother : isOther o o.delimiter = true := by
    simp [isOther, h.different, hd13, hd10]
  have hdelim : ∀ bs : Bytes, others o (o.delimiter :: bs) = others o bs + 1 := fun bs =>
    List.countP_cons_of_pos hother
  induction fields with
  | nil => rfl
  | cons f fields ih =>
    rw [List.flatMap_cons, others_append, ih, h.delimiter, hdelim, others_fieldText h.quote]
    simp [fieldsWeight]

theorem others_rowText (h : Compatible o w) {row : CsvRow} (hrow : row ≠ []) :
    others o (rowText w row) = rowWeight o row := by
  obtain ⟨f, fields, rfl⟩ := List.exists_cons_of_ne_nil hrow
  rw [rowText, others_append, others_fieldText h.quote, others_fields h]
  simp only [rowWeight, fieldsWeight, List.map_cons, List.sum_cons]
  omega

theorem others_lineEnding (h : Compatible o w) : others o w.lineEnding = 0 := by
  rcases h.lineEnding with hle | hle | hle <;> simp [hle, others, isOther]

/-- **Written rows weigh as much as their text.** -/
theorem others_recordsText (h : Compatible o w) {rows : List CsvRow}
    (hrows : ∀ row ∈ rows, row ≠ []) :
    others o (recordsText w rows) = rowsWeight o rows := by
  cases rows with
  | nil => rfl
  | cons row rows =>
    rw [recordsText, others_append, others_rowText h (hrows row (.head _))]
    have hrest : others o (rows.flatMap fun row => w.lineEnding ++ rowText w row) =
        rowsWeight o rows := by
      have hrows' : ∀ r ∈ rows, r ≠ [] := fun r hr => hrows r (.tail _ hr)
      clear hrows
      induction rows with
      | nil => rfl
      | cons next rows ih =>
        rw [List.flatMap_cons, others_append, others_append, others_lineEnding h,
          others_rowText h (hrows' next (.head _)),
          ih fun r hr => hrows' r (.tail _ hr)]
        simp [rowsWeight]
    rw [hrest]
    simp [rowsWeight]

/-- A byte order mark that is passed over is missing in the rows. -/
theorem readRows_of_bom (h : Compatible o w) {rows : List CsvRow} (hrows : ∀ row ∈ rows, row ≠ [])
    {text : Bytes} (htext : recordsText w rows = bom ++ text) : readRows o text ≠ .ok rows := by
  intro hread
  have hle := rowsWeight_readRows h hread
  have heq := others_recordsText h hrows
  rw [htext, others_append] at heq
  have hbom : 0 < others o bom := by
    by_cases hq : o.quote = 0xEF
    · simp [others, isOther, bom, hq]
    · simp [others, isOther, bom, Ne.symm hq]
  omega

/-! ## A text with a byte order mark -/

/-- The bytes that are written first for the fields of a row. -/
def WrittenFirst (w : CsvWriterOptions) : Bytes → CsvRow → Prop
  | _, [] => False
  | bs, f :: fields =>
    if needsQuote w f then bs.head? = some w.quote ∧ bs.tail <+: f
    else bs <+: f ∨ ∃ more, bs = f ++ w.delimiter :: more ∧ fields ≠ [] ∧
      (more = [] ∨ WrittenFirst w more fields)

theorem prefix_escaped {bs field : Bytes} (hbs : w.quote ∉ bs) :
    bs <+: escaped w field ++ (w.quote :: rest) ↔ bs <+: field := by
  induction field generalizing bs with
  | nil =>
    cases bs with
    | nil => simp
    | cons b bs =>
      have hb : b ≠ w.quote := fun hb => hbs (hb ▸ .head _)
      simp [escaped, List.cons_prefix_cons, hb]
  | cons c field ih =>
    cases bs with
    | nil => simp
    | cons b bs =>
      have hb : b ≠ w.quote := fun hb => hbs (hb ▸ .head _)
      have hrest := ih fun hmem => hbs (.tail _ hmem)
      unfold escaped at hrest ⊢
      rw [List.flatMap_cons]
      split_ifs with hc
      · subst hc
        simp [List.cons_prefix_cons, hb]
      · rw [List.append_assoc, List.singleton_append, List.cons_prefix_cons, List.cons_prefix_cons,
          hrest]

theorem prefix_append_iff {bs as cs : Bytes} :
    bs <+: as ++ cs ↔ bs <+: as ∨ ∃ more, more ≠ [] ∧ bs = as ++ more ∧ more <+: cs := by
  constructor
  · intro hpre
    rcases List.prefix_or_prefix_of_prefix hpre (List.prefix_append as cs) with hle | ⟨more, rfl⟩
    · exact .inl hle
    · by_cases hmore : more = []
      · exact .inl (by simp [hmore])
      · exact .inr ⟨more, hmore, rfl, (List.prefix_append_right_inj as).mp hpre⟩
  · rintro (hpre | ⟨more, -, rfl, hpre⟩)
    · exact hpre.trans (List.prefix_append as cs)
    · exact (List.prefix_append_right_inj as).mpr hpre

/-- **The text of a row begins with some bytes** exactly when its fields are written so. -/
theorem prefix_rowText (h : Compatible o w) (hrest : RowEnd w rest) (row : CsvRow)
    {bs : Bytes} (hne : bs ≠ []) (hnodup : bs.Nodup) (hbreak : ∀ b ∈ bs, b ≠ 13 ∧ b ≠ 10) :
    bs <+: rowText w row ++ rest ↔ WrittenFirst w bs row := by
  have hend : ∀ more : Bytes, more ≠ [] → (∀ b ∈ more, b ≠ 13 ∧ b ≠ 10) → ¬ more <+: rest := by
    intro more hmore hall hpre
    obtain ⟨b, bs, rfl⟩ := List.exists_cons_of_ne_nil hmore
    have hb := hall b (.head _)
    rcases hrest with rfl | ⟨tail, rfl⟩
    · simp at hpre
    · rcases h.lineEnding with hle | hle | hle <;>
        simp [hle, List.cons_prefix_cons, hb.1, hb.2] at hpre
  induction row generalizing bs with
  | nil => simpa [rowText, WrittenFirst] using hend bs hne hbreak
  | cons f fields ih =>
    rw [rowText, List.append_assoc, WrittenFirst]
    unfold fieldText
    by_cases hneeds : needsQuote w f = true
    · obtain ⟨b, bs, rfl⟩ := List.exists_cons_of_ne_nil hne
      have hb := List.nodup_cons.mp hnodup
      rw [if_pos hneeds, hneeds, Bool.not_true, if_neg Bool.false_ne_true, List.cons_append,
        List.cons_prefix_cons, List.append_assoc, List.singleton_append, List.head?_cons,
        List.tail_cons, Option.some.injEq]
      refine and_congr_right fun hquote => ?_
      exact prefix_escaped (hquote ▸ hb.1)
    · rw [if_neg hneeds, if_pos (by simpa using hneeds), prefix_append_iff]
      refine or_congr_right ⟨?_, ?_⟩
      · rintro ⟨more, hmore, rfl, hpre⟩
        have hbreak' : ∀ b ∈ more, b ≠ 13 ∧ b ≠ 10 := fun b hb =>
          hbreak b (List.mem_append_right f hb)
        cases fields with
        | nil => exact absurd (by simpa using hpre) (hend more hmore hbreak')
        | cons g fields =>
          obtain ⟨d, more, rfl⟩ := List.exists_cons_of_ne_nil hmore
          rw [List.flatMap_cons, List.cons_append, List.cons_append, List.cons_prefix_cons] at hpre
          obtain ⟨rfl, hpre⟩ := hpre
          refine ⟨more, rfl, List.cons_ne_nil _ _, ?_⟩
          by_cases hmore' : more = []
          · exact .inl hmore'
          · right
            have hnodup' := (List.nodup_cons.mp (List.nodup_append.mp hnodup).2.1).2
            refine (ih hmore' hnodup' fun b hb => hbreak' b (.tail _ hb)).mp ?_
            rw [rowText]
            exact hpre
      · rintro ⟨more, rfl, hfields, hmore⟩
        obtain ⟨g, fields, rfl⟩ := List.exists_cons_of_ne_nil hfields
        refine ⟨w.delimiter :: more, List.cons_ne_nil _ _, rfl, ?_⟩
        rw [List.flatMap_cons, List.cons_append, List.cons_append, List.cons_prefix_cons]
        refine ⟨rfl, ?_⟩
        by_cases hmore' : more = []
        · simp [hmore']
        · have hnodup' := (List.nodup_cons.mp (List.nodup_append.mp hnodup).2.1).2
          have hpre := (ih hmore' hnodup' fun b hb => hbreak b
            (List.mem_append_right f (.tail _ hb))).mpr (hmore.resolve_left hmore')
          rw [rowText] at hpre
          exact hpre

/-! ## Documents -/

/-- The last row that is written is a single empty field without quotes. -/
def LosesLastRow (w : CsvWriterOptions) (document : CsvDocument) : Prop :=
  ∃ rows row, records w document = rows ++ [row] ∧ Lone w row

/-- The first fields are written so that the text begins with a byte order mark. -/
def LosesBom (w : CsvWriterOptions) (document : CsvDocument) : Prop :=
  ∃ row rows, records w document = row :: rows ∧ WrittenFirst w bom row

/-- A document is read when its rows are. -/
theorem read_eq_ok (h : Compatible o w) {document : CsvDocument}
    (hheader : document.header.isSome = true → w.writeHeader = true)
    (hfirst : o.firstRowIsHeader = document.header.isSome) (text : Bytes) :
    read o text = .ok document ↔ readRows o (skipBom text) = .ok (records w document) := by
  obtain ⟨header, rows⟩ := document
  have hallowed : ∀ c, isReservedChar c = false → ¬ isReservedChar c = true := fun c hc => by
    simp [hc]
  unfold CsvReader.read
  rw [if_neg h.different, if_neg (hallowed _ h.delimiterAllowed),
    if_neg (hallowed _ h.quoteAllowed)]
  cases readRows o (skipBom text) with
  | error err => simp
  | ok parsedRows =>
    cases header with
    | none =>
      have hfirst' : o.firstRowIsHeader = false := hfirst
      cases parsedRows <;> simp [records, hfirst']
    | some header =>
      have hfirst' : o.firstRowIsHeader = true := hfirst
      have hwrite : w.writeHeader = true := hheader rfl
      cases parsedRows <;> simp [records, hfirst', hwrite]

/-- **A written document is read back** exactly when its last row is not written as nothing, and its
text does not begin with what the reader takes for a byte order mark. -/
theorem read_write_iff (h : Compatible o w) (hvalidate : w.validateUtf8 = false)
    (document : CsvDocument) (hrows : ∀ row ∈ records w document, row ≠ [])
    (hheader : document.header.isSome = true → w.writeHeader = true)
    (hfirst : o.firstRowIsHeader = document.header.isSome) :
    ∃ text, write w document = .ok text ∧
      (read o text = .ok document ↔ ¬ LosesLastRow w document ∧ ¬ LosesBom w document) := by
  refine ⟨recordsText w (records w document), by simp [write, writeToStream, hvalidate], ?_⟩
  rw [read_eq_ok h hheader hfirst]
  unfold LosesLastRow LosesBom
  generalize records w document = recs at hrows
  by_cases hbom : bom <+: recordsText w recs
  · have hloses : ∃ row rows, recs = row :: rows ∧ WrittenFirst w bom row := by
      cases recs with
      | nil => simp [recordsText, bom] at hbom
      | cons row rows =>
        exact ⟨row, rows, rfl,
          (prefix_rowText h (rowEnd_rows w rows) row (by decide) (by decide) (by decide)).mp hbom⟩
    obtain ⟨text, htext⟩ := hbom
    have hskip : skipBom (recordsText w recs) = text := by
      simp [skipBom, ← htext, bom]
    rw [hskip]
    exact iff_of_false (readRows_of_bom h hrows htext.symm) fun hnot => hnot.2 hloses
  · have hkeeps : ¬ ∃ row rows, recs = row :: rows ∧ WrittenFirst w bom row := by
      rintro ⟨row, rows, rfl, hfirst'⟩
      exact hbom ((prefix_rowText h (rowEnd_rows w rows) row (by decide) (by decide)
        (by decide)).mpr hfirst')
    have hskip : skipBom (recordsText w recs) = recordsText w recs := by
      unfold skipBom
      rw [if_neg]
      simpa using hbom
    rw [hskip, and_iff_left hkeeps]
    rcases List.eq_nil_or_concat' recs with rfl | ⟨rows, row, rfl⟩
    · exact iff_of_true rfl (by simp)
    · rw [readRows_recordsText h hrows, Except.ok.injEq]
      constructor
      · rintro hall ⟨rows', row', heq, hlone⟩
        obtain ⟨rfl, rfl⟩ := List.append_singleton_inj.mp heq
        rw [if_pos hlone] at hall
        exact absurd hall (by simp)
      · intro hnot
        rw [if_neg fun hlone => hnot ⟨rows, row, rfl, hlone⟩]

/-- A table with a header, an empty field, quotes and line breaks. -/
def sampleDocument : CsvDocument where
  header := some [ascii "id", ascii "note"]
  rows := [[ascii "1", ascii "a,\"b\"\n"], [[], ascii " x"], [[]], [ascii "2"]]

theorem read_write_iff_sampleDocument : ∃ text,
    write { lineEnding := [13, 10], validateUtf8 := false } sampleDocument = .ok text ∧
      (read { firstRowIsHeader := true } text = .ok sampleDocument ↔
        ¬ LosesLastRow { lineEnding := [13, 10], validateUtf8 := false } sampleDocument ∧
          ¬ LosesBom { lineEnding := [13, 10], validateUtf8 := false } sampleDocument) :=
  read_write_iff
    { delimiter := rfl, quote := rfl, different := by decide, delimiterAllowed := rfl,
      quoteAllowed := rfl, lineEnding := .inr (.inl rfl) }
    rfl sampleDocument (by decide) (fun _ => rfl) rfl

/-- A last row that is a single empty field is lost. -/
theorem not_read_write : ¬ ∀ (o : CsvReaderOptions) (w : CsvWriterOptions) (document : CsvDocument),
    Compatible o w → w.validateUtf8 = false → (∀ row ∈ records w document, row ≠ []) →
      (document.header.isSome = true → w.writeHeader = true) →
      o.firstRowIsHeader = document.header.isSome →
      ∃ text, write w document = .ok text ∧ read o text = .ok document := by
  intro hall
  obtain ⟨text, hwrite, hread⟩ := hall {} { validateUtf8 := false } ⟨none, [[[97]], [[]]]⟩
    { delimiter := rfl, quote := rfl, different := by decide, delimiterAllowed := rfl,
      quoteAllowed := rfl, lineEnding := .inl rfl }
    rfl (by decide) (fun h => by simp at h) rfl
  obtain rfl : [97, 10] = text := Except.ok.inj hwrite
  cases hread

end Libca.Csv
