import Libca.Json.Completeness
import Libca.Json.DomBuilder
import Libca.Json.WrittenText

/-!
# What is written is read back (`json/json_writer.cpp`, `json/json_reader.cpp`)

* `read_text`: reading a JSON text gives the tree it stands for.
* `read_write`: **reading what was written gives the tree that was written**, under every option of
  the writer, for trees of valid strings and finite floats; with `ensureAscii` the text is ASCII.
-/

namespace Libca.Json

open Common Str

variable {std : DoubleChars}

/-- Reading a JSON text gives the tree it stands for. -/
theorem read_text (t : JsonText) (hacc : t.value.Accepted std) (hdepth : t.value.depth ≤ 1000) :
    JsonReader.read std {} t.text = .ok (t.value.tree std) := by
  have hrun : JsonParser.run std (JsonReader.toParserOptions {}) t.text =
      (.ok (), ⟨[], SourceLocation.start.after t.text, 0, t.events std⟩) :=
    JsonParser.run_text rfl t hacc hdepth
  unfold JsonReader.read
  rw [hrun]
  simp only [JsonText.events, JsonDomBuilder.foldl_root t.value hacc]
  rfl

/-- What is written is kept whole by the buffer, and derives from the grammar. -/
theorem exists_written (hstd : ∀ v : F64, v.IsFinite → std.Inverse v)
    (options : JsonWriterOptions) (v : JsonValue) (hv : v.Valid) : ∃ d : Value,
    d.text = JsonWriter.write std options v ∧ d.tree std = v ∧ d.Accepted std ∧
      d.depth = v.depth ∧
      (options.ensureAscii = true → ∀ b ∈ JsonWriter.write std options v, b < 0x80) := by
  obtain ⟨d, hd⟩ : ∃ d, JsonWriter.Writes std options (JsonWriter.writeValue std options 0 v) v d :=
    JsonWriter.exists_value hstd v hv 0
  have hwrite : JsonWriter.write std options v = JsonWriter.writeValue std options 0 v := by
    unfold JsonWriter.write
    rw [buildOrEmpty_eq_intern, ← hd.derives, intern_of_isUtf8 d.isUtf8]
  rw [hwrite]
  exact ⟨d, hd.derives, hd.tree, hd.accepted, hd.depth, hd.ascii⟩

/-- Reading what was written gives the tree that was written. -/
theorem read_written (hstd : ∀ v : F64, v.IsFinite → std.Inverse v) (options : JsonWriterOptions)
    (v : JsonValue) (hv : v.Valid) (hdepth : v.depth ≤ 1000) :
    JsonReader.read std {} (JsonWriter.write std options v) = .ok v := by
  obtain ⟨d, htext, htree, hacc, hdepth', -⟩ := exists_written hstd options v hv
  have hread := read_text ⟨JsonWriter.noWs, d, JsonWriter.noWs⟩ hacc (by rw [hdepth']; exact hdepth)
  have hall : (JsonText.mk JsonWriter.noWs d JsonWriter.noWs).text =
    JsonWriter.write std options v := by
    rw [← htext]
    simp [JsonText.text, JsonWriter.noWs]
  rw [hall, htree] at hread
  exact hread

/-- **Reading what was written gives the tree that was written.** -/
theorem read_write (hstd : ∀ v : F64, v.IsFinite → std.Inverse v) (options : JsonWriterOptions)
    (v : JsonValue) (hv : v.Valid) (hdepth : v.depth ≤ 1000) :
    JsonReader.read std {} (JsonWriter.write std options v) = .ok v ∧
      (options.ensureAscii = true → ∀ b ∈ JsonWriter.write std options v, b < 0x80) := by
  obtain ⟨d, -, -, -, -, hascii⟩ := exists_written hstd options v hv
  exact ⟨read_written hstd options v hv hdepth, hascii⟩

/-! ## A conversion of doubles -/

/-- `1.5` and `2.0` as they are converted by the standard library; every other double is written as
its bits. -/
def sampleChars : DoubleChars where
  toChars v :=
    if v = ⟨0x3FF8000000000000⟩ then .ok (ascii "1.5")
    else if v = ⟨0x4000000000000000⟩ then .ok (ascii "2")
    else .ok (toChars 10 v.bits.toNat ++ ascii "e+00")
  fromChars text :=
    if text = ascii "1.5" then .ok (⟨0x3FF8000000000000⟩, 3)
    else if text = ascii "2" then .ok (⟨0x4000000000000000⟩, 1)
    else if text = ascii "2.0" then .ok (⟨0x4000000000000000⟩, 3)
    else .ok (⟨UInt64.ofNat (ofChars 10 (text.takeWhile isDigit))⟩, text.length)

theorem inverse_sampleChars (v : F64) : sampleChars.Inverse v := by
  by_cases h15 : v = ⟨0x3FF8000000000000⟩
  · subst h15
    refine ⟨⟨false, ⟨[49], by decide, by decide⟩, by decide, some ⟨[53], by decide, by decide⟩,
      none⟩, rfl, by decide, rfl, by decide⟩
  by_cases h2 : v = ⟨0x4000000000000000⟩
  · subst h2
    exact ⟨⟨false, ⟨[50], by decide, by decide⟩, by decide, none, none⟩, rfl, by decide, rfl,
      fun _ => rfl⟩
  let n : Number := ⟨false, JsonWriter.decimal v.bits.toNat, JsonWriter.decimal_lead _, none,
    some ⟨false, some false, ⟨[48, 48], by decide, by decide⟩⟩⟩
  have htext : n.text = toChars 10 v.bits.toNat ++ ascii "e+00" := rfl
  have hne := toChars_ne_nil 10 v.bits.toNat
  have hpos : 0 < (toChars 10 v.bits.toNat).length := List.length_pos_iff.mpr hne
  have hlen : (toChars 10 v.bits.toNat).length ≤ 20 := by
    have hlt := v.bits.toNat_lt
    unfold toChars
    split_ifs with h0
    · simp
    · rw [List.length_reverse, List.length_map]
      exact (Nat.digits_length_le_iff (by decide) v.bits.toNat).mpr (by omega)
  have hlong : ∀ s : Bytes, s.length ≤ 4 → n.text ≠ s := by
    rintro s hs rfl
    rw [htext, List.length_append] at hs
    have h4 : (ascii "e+00").length = 4 := rfl
    omega
  have htake : n.text.takeWhile isDigit = toChars 10 v.bits.toNat :=
    JsonParser.takeWhile_append_stop (JsonWriter.decimal v.bits.toNat).digit rfl
  refine ⟨n, ?_, ?_, ?_, fun h => absurd h Bool.false_ne_true⟩
  · unfold sampleChars
    simp only [h15, h2, if_false, htext]
  · rw [htext, List.length_append]
    have h4 : (ascii "e+00").length = 4 := rfl
    omega
  · unfold sampleChars
    simp only [hlong (ascii "1.5") (by decide), hlong (ascii "2") (by decide),
      hlong (ascii "2.0") (by decide), if_false, htake]
    rw [ofChars_toChars (by decide) (by decide), UInt64.ofNat_toNat]

/-- An object with a repeated key, an array of every kind of value, and characters of one, two and
four bytes. -/
def sampleTree : JsonValue :=
  .object [(ascii "k", .array [.null, .bool true, .int (-7), .float ⟨0x3FF8000000000000⟩,
    .float ⟨0x4000000000000000⟩, .object [], .string (encode ['"', '\x01', 'é', '😀'])]),
    (ascii "k", .string [])]

theorem read_write_sampleTree :
    JsonReader.read sampleChars {} (JsonWriter.write sampleChars
        { pretty := true, indent := 4, ensureAscii := true } sampleTree) = .ok sampleTree ∧
      (true = true → ∀ b ∈ JsonWriter.write sampleChars
        { pretty := true, indent := 4, ensureAscii := true } sampleTree, b < 0x80) :=
  read_write (fun v _ => inverse_sampleChars v)
    { pretty := true, indent := 4, ensureAscii := true } sampleTree
    ⟨isUtf8_of_ascii (by decide), ⟨trivial, trivial, trivial, show F64.IsFinite _ by decide,
      show F64.IsFinite _ by decide, trivial,
      isUtf8_encode _, trivial⟩, isUtf8_of_ascii (by decide), isUtf8_nil, trivial⟩ (by decide)

end Libca.Json
