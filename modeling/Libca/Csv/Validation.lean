import Libca.Csv.Writer
import Libca.Str.Overlong

/-!
# The writer's check of UTF-8 (`csv/csv_writer.cpp` 97-116)

`CsvWriter::write` checks its text with `utf8_to_utf32_length`, then a constructor checks it again
with `utf8_count_code_points`. The first check does not see overlong sequences, so they are thrown
by the second one.

* `write_refused`, `write_accepted`: the two checks, by what the text is.
* `reportsInvalid_iff`: **the writer reports invalid text unless it is a text with an overlong
  sequence**; `not_reportsInvalid`: on such a text the constructor throws.
-/

namespace Libca.Csv

open Common Str

namespace CsvWriter

variable {o : CsvWriterOptions} {document : CsvDocument}

/-- Invalid text is reported with a message, valid text is returned, and nothing is thrown. -/
def ReportsInvalid (o : CsvWriterOptions) (document : CsvDocument) : Prop :=
  ((∃ message, write o document = .error (.message message)) ↔
      isValid (writeToStream o document) = false) ∧
    (isValid (writeToStream o document) = true → write o document =
      .ok (writeToStream o document)) ∧
    write o document ≠ .error .exception

/-- A text that the first check refuses is reported. -/
theorem write_refused (hvalidate : o.validateUtf8 = true)
    (hscans : ¬ ScansTo notScalar (writeToStream o document)) :
    (∃ message, write o document = .error (.message message)) ∧
      isValid (writeToStream o document) = false := by
  have hne : writeToStream o document ≠ [] := by
    intro hnil
    exact hscans (hnil ▸ ⟨[], rfl, by rintro p ⟨⟩⟩)
  have hzero : utf8ToUtf32Length (writeToStream o document) = 0 := by
    by_contra hcount
    exact hscans ((utf8ToUtf32Length_ne_zero hne).mp hcount)
  constructor
  · unfold write
    dsimp only
    rw [if_pos hvalidate, if_pos ⟨hne, hzero⟩]
    exact ⟨_, rfl⟩
  · rw [Bool.eq_false_iff, ne_eq, isValid_iff, isUtf8_iff]
    exact fun hvalid => hscans hvalid.1

/-- A text that the first check accepts is returned when it is valid, and thrown otherwise. -/
theorem write_accepted (hvalidate : o.validateUtf8 = true)
    (hscans : ScansTo notScalar (writeToStream o document)) :
    (IsUtf8 (writeToStream o document) → write o document = .ok (writeToStream o document)) ∧
      (¬ IsUtf8 (writeToStream o document) → write o document = .error .exception) := by
  have hcheck : ¬ (writeToStream o document ≠ [] ∧ utf8ToUtf32Length (writeToStream o document) =
    0) :=
    fun ⟨hne, hzero⟩ => (utf8ToUtf32Length_ne_zero hne).mpr hscans hzero
  unfold write
  dsimp only
  rw [if_pos hvalidate, if_neg hcheck]
  constructor
  · intro hvalid
    rw [if_neg fun ⟨hne, hzero⟩ => (countCodePoints_eq_zero hne).mp hzero hvalid]
  · intro hinvalid
    have hne : writeToStream o document ≠ [] := fun hnil => hinvalid (hnil ▸ isUtf8_nil)
    rw [if_pos ⟨hne, (countCodePoints_eq_zero hne).mpr hinvalid⟩]

/-- **The writer reports invalid text, returns valid text and throws nothing unless the text has an
overlong sequence among sequences with scalar values.** -/
theorem reportsInvalid_iff (o : CsvWriterOptions) (document : CsvDocument)
    (hvalidate : o.validateUtf8 = true) :
    ReportsInvalid o document ↔ ¬ OverlongText (writeToStream o document) := by
  constructor
  · rintro ⟨-, -, hthrows⟩ hlong
    have hscans : ScansTo notScalar (writeToStream o document) := by
      obtain ⟨ps, htext, hps, -⟩ := hlong
      exact ⟨ps, htext, hps⟩
    refine hthrows ((write_accepted hvalidate hscans).2 fun hvalid => ?_)
    exact (isUtf8_iff.mp hvalid).2 hlong
  · intro hshort
    by_cases hscans : ScansTo notScalar (writeToStream o document)
    · have hvalid := isUtf8_iff.mpr ⟨hscans, hshort⟩
      have hwrite := (write_accepted hvalidate hscans).1 hvalid
      unfold ReportsInvalid
      rw [hwrite, isValid_iff.mpr hvalid]
      exact ⟨⟨nofun, nofun⟩, fun _ => rfl, nofun⟩
    · obtain ⟨⟨message, hwrite⟩, hinvalid⟩ := write_refused hvalidate hscans
      unfold ReportsInvalid
      rw [hwrite, hinvalid]
      exact ⟨⟨fun _ => rfl, fun _ => ⟨message, rfl⟩⟩, nofun, nofun⟩

/-- A field with a byte that begins no sequence. -/
theorem reportsInvalid_iff_single :
    ReportsInvalid {} ⟨none, [[[0xFF]]]⟩ ↔ ¬ OverlongText (writeToStream {} ⟨none, [[[0xFF]]]⟩) :=
  reportsInvalid_iff {} ⟨none, [[[0xFF]]]⟩ rfl

/-- **An overlong sequence throws**: the two bytes `C0 80` for the code point zero. -/
theorem not_reportsInvalid : ¬ ∀ o document, o.validateUtf8 = true → ReportsInvalid o document := by
  intro h
  obtain ⟨-, -, hthrows⟩ := h {} ⟨none, [[[0xC0, 0x80]]]⟩ rfl
  exact hthrows (by decide)

end CsvWriter

end Libca.Csv
