import Libca.Json.Equality
import Libca.Json.RoundTrip
import Libca.Json.Soundness

/-!
# The trees that are read (`json/json_reader.cpp`)

* `Produced`: a tree that `JsonReader::read` returns. `ReadableFloat`: a double that a number
  literal stands for.
* `produced_iff`: **the trees that are read** have valid strings and keys, doubles of literals, and
  no more than 1000 levels; an object may repeat a key.
* `jsonEqual_laws_iff`: **`json_equal` is an equivalence around a tree that was read if and only if
  no object of the tree repeats a key.**
-/

namespace Libca.Json

open Common Str JsonValue

variable {std : DoubleChars}

/-- `JsonReader::read` returns a tree for some text. -/
def Produced (std : DoubleChars) (options : JsonReaderOptions) (v : JsonValue) : Prop :=
  ∃ text, JsonReader.read std options text = .ok v

/-- A number literal stands for a double. -/
def ReadableFloat (std : DoubleChars) (v : F64) : Prop :=
  ∃ n : Number, n.value std = some (.float v)

/-! ## What is read -/

mutual

/-- The leaves of the tree of a value. -/
theorem leavesIn_tree (d : Value) (hacc : d.Accepted std) :
    (d.tree std).LeavesIn (ReadableFloat std) := by
  cases d with
  | null => exact trivial
  | bool v => exact trivial
  | number n =>
    obtain ⟨x, hx⟩ := Option.isSome_iff_exists.mp hacc
    rw [Value.tree, hx]
    cases x with
    | int v => exact trivial
    | float v => exact ⟨n, hx⟩
  | string s => exact isUtf8_encode _
  | emptyArray w => exact leavesIn_array.mpr nofun
  | array before elements => exact leavesIn_array.mpr (leavesIn_trees elements hacc)
  | emptyObject w => exact leavesIn_object.mpr ⟨nofun, nofun⟩
  | object before members =>
    have hmembers := leavesIn_memberTrees members hacc
    exact leavesIn_object.mpr ⟨fun m hm => (hmembers m hm).1, fun m hm => (hmembers m hm).2⟩

theorem leavesIn_trees (es : Elements) (hacc : es.Accepted std) :
    ∀ v ∈ es.trees std, v.LeavesIn (ReadableFloat std) := by
  cases es with
  | one v after =>
    rw [Elements.trees, List.forall_mem_singleton]
    exact leavesIn_tree v hacc
  | cons v after before rest =>
    rw [Elements.trees, List.forall_mem_cons]
    exact ⟨leavesIn_tree v hacc.1, leavesIn_trees rest hacc.2⟩

theorem leavesIn_memberTrees (ms : Members) (hacc : ms.Accepted std) :
    ∀ m ∈ ms.trees std, IsUtf8 m.1 ∧ m.2.LeavesIn (ReadableFloat std) := by
  cases ms with
  | one key w₁ w₂ v after =>
    rw [Members.trees, List.forall_mem_singleton]
    exact ⟨isUtf8_encode _, leavesIn_tree v hacc⟩
  | cons key w₁ w₂ v after before rest =>
    rw [Members.trees, List.forall_mem_cons]
    exact ⟨⟨isUtf8_encode _, leavesIn_tree v hacc.1⟩, leavesIn_memberTrees rest hacc.2⟩

end

mutual

theorem depth_tree (d : Value) : (d.tree std).depth = d.depth := by
  cases d with
  | null => rfl
  | bool v => rfl
  | number n =>
    rw [Value.tree]
    cases n.value std with
    | none => rfl
    | some x => cases x <;> rfl
  | string s => rfl
  | emptyArray w => rfl
  | array before elements => rw [Value.tree, Value.depth, depth, depth_trees elements]
  | emptyObject w => rfl
  | object before members => rw [Value.tree, Value.depth, depth, depth_memberTrees members]

theorem depth_trees (es : Elements) : itemsDepth (es.trees std) = es.depth := by
  cases es with
  | one v after => rw [Elements.trees, itemsDepth, itemsDepth, Nat.max_zero, depth_tree v,
    Elements.depth]
  | cons v after before rest => rw [Elements.trees, itemsDepth, depth_tree v, depth_trees rest,
    Elements.depth]

theorem depth_memberTrees (ms : Members) : membersDepth (ms.trees std) = ms.depth := by
  cases ms with
  | one key w₁ w₂ v after =>
    rw [Members.trees, membersDepth, membersDepth, Nat.max_zero, depth_tree v, Members.depth]
  | cons key w₁ w₂ v after before rest =>
    rw [Members.trees, membersDepth, depth_tree v, depth_memberTrees rest, Members.depth]

end

/-! ## What can be read -/

/-- A value of the grammar that stands for a tree. -/
def Derives (std : DoubleChars) (v : JsonValue) : Prop :=
  ∃ d : Value, d.Accepted std ∧ d.tree std = v

variable {v : JsonValue}

theorem exists_elements {items : List JsonValue} (h : ∀ w ∈ v :: items, Derives std w) :
    ∃ es : Elements, es.Accepted std ∧ es.trees std = v :: items := by
  induction items generalizing v with
  | nil =>
    obtain ⟨d, hacc, rfl⟩ := h v (by simp)
    exact ⟨.one d JsonWriter.noWs, hacc, rfl⟩
  | cons w items ih =>
    obtain ⟨d, hacc, rfl⟩ := h v (by simp)
    obtain ⟨es, hes, htrees⟩ := ih fun x hx => h x (.tail _ hx)
    exact ⟨.cons d JsonWriter.noWs JsonWriter.noWs es, ⟨hacc, hes⟩, by rw [Elements.trees, htrees]⟩

theorem exists_members {m : Bytes × JsonValue} {members : List (Bytes × JsonValue)}
    (h : ∀ m' ∈ m :: members, IsUtf8 m'.1 ∧ Derives std m'.2) :
    ∃ ms : Members, ms.Accepted std ∧ ms.trees std = m :: members := by
  obtain ⟨hkey, d, hacc, hd⟩ := h m (by simp)
  obtain ⟨lit, -, hlit, -⟩ := JsonWriter.exists_stringLit {} hkey
  induction members generalizing m d lit with
  | nil => exact ⟨.one lit JsonWriter.noWs JsonWriter.noWs d JsonWriter.noWs,
    hacc, by rw [Members.trees, hlit, hd]⟩
  | cons m' members ih =>
    have hrest : ∀ x ∈ m' :: members, IsUtf8 x.1 ∧ Derives std x.2 := fun x hx => h x (.tail _ hx)
    obtain ⟨hkey', d', hacc', hd'⟩ := hrest m' (by simp)
    obtain ⟨lit', -, hlit', -⟩ := JsonWriter.exists_stringLit {} hkey'
    obtain ⟨ms, hms, htrees⟩ := ih hrest hkey' d' hacc' hd' lit' hlit'
    exact ⟨.cons lit JsonWriter.noWs JsonWriter.noWs d JsonWriter.noWs JsonWriter.noWs ms,
      ⟨hacc, hms⟩, by rw [Members.trees, htrees, hlit, hd]⟩

/-- A tree of readable leaves is the tree of a value. -/
theorem derives_of_leavesIn (h : v.LeavesIn (ReadableFloat std)) : Derives std v := by
  induction v using JsonValue.induct with
  | null => exact ⟨.null, trivial, rfl⟩
  | bool v => exact ⟨.bool v, trivial, rfl⟩
  | int v =>
    obtain ⟨n, -, hn⟩ := JsonWriter.exists_number_int std v
    exact ⟨.number n, by rw [Value.Accepted, hn]; rfl, by rw [Value.tree, hn]⟩
  | float v =>
    obtain ⟨n, hn⟩ : ReadableFloat std v := h
    exact ⟨.number n, by rw [Value.Accepted, hn]; rfl, by rw [Value.tree, hn]⟩
  | string v =>
    obtain ⟨lit, -, hlit, -⟩ := JsonWriter.exists_stringLit {} (show IsUtf8 v from h)
    exact ⟨.string lit, trivial, by rw [Value.tree, hlit]⟩
  | array items ih =>
    rw [leavesIn_array] at h
    cases items with
    | nil => exact ⟨.emptyArray JsonWriter.noWs, trivial, rfl⟩
    | cons v items =>
      obtain ⟨es, hes, htrees⟩ := exists_elements fun w hw => ih w hw (h w hw)
      exact ⟨.array JsonWriter.noWs es, hes, by rw [Value.tree, htrees]⟩
  | object members ih =>
    obtain ⟨hkeys, hvalues⟩ := leavesIn_object.mp h
    cases members with
    | nil => exact ⟨.emptyObject JsonWriter.noWs, trivial, rfl⟩
    | cons m members =>
      obtain ⟨ms, hms, htrees⟩ := exists_members fun w hw => ⟨hkeys w hw, ih w hw (hvalues w hw)⟩
      exact ⟨.object JsonWriter.noWs ms, hms, by rw [Value.tree, htrees]⟩

/-- What is read is a JSON text. -/
theorem exists_text_of_read {text : Bytes} (h : JsonReader.read std {} text = .ok v) :
    ∃ t : JsonText, text = t.text ∧ t.value.Accepted std ∧ t.value.depth ≤ 1000 := by
  have hsound := @JsonParser.run_sound std (JsonReader.toParserOptions {}) rfl rfl text
  unfold JsonReader.read at h
  cases hrun : JsonParser.run std (JsonReader.toParserOptions {}) text with
  | mk res s =>
    rw [hrun] at hsound h
    cases res with
    | error stop => cases h
    | ok u => exact hsound

/-- **The trees that are read.** -/
theorem produced_iff : Produced std {} v ↔ v.LeavesIn (ReadableFloat std) ∧ v.depth ≤ 1000 := by
  constructor
  · rintro ⟨text, hread⟩
    obtain ⟨t, rfl, hacc, hdepth⟩ := exists_text_of_read hread
    obtain rfl : t.value.tree std = v := Except.ok.inj ((read_text t hacc hdepth).symm.trans hread)
    exact ⟨leavesIn_tree t.value hacc, by rwa [depth_tree]⟩
  · rintro ⟨hleaves, hdepth⟩
    obtain ⟨d, hacc, rfl⟩ := derives_of_leavesIn hleaves
    rw [depth_tree] at hdepth
    exact ⟨_, read_text ⟨JsonWriter.noWs, d, JsonWriter.noWs⟩ hacc hdepth⟩

/-! ## The laws -/

/-- **`json_equal` is an equivalence around a tree that was read if and only if no object of the
tree repeats a key.** A tree with a NaN is equal to nothing. -/
theorem jsonEqual_laws_iff {a : JsonValue} (ha : Produced std {} a) :
    ((a.NoNan → Eqv a a) ∧
        ∀ options b, Produced std options b → Eqv a b →
          Eqv b a ∧ ∀ options' c, Produced std options' c → Eqv b c → Eqv a c) ↔
      (a.NoNan → a.Distinct) := by
  constructor
  · rintro ⟨hrefl, hlaws⟩ hnan
    by_contra hrepeated
    obtain ⟨hleaves, hdepth⟩ := produced_iff.mp ha
    obtain ⟨b, hab, hba, hb, hb'⟩ := exists_not_symm hrepeated (hrefl hnan) hleaves
    exact hba (hlaws {} b (produced_iff.mpr ⟨hb, by rwa [hb']⟩) hab).1
  · intro hdistinct
    refine ⟨fun hnan => jsonEqual_refl (hdistinct hnan) hnan, fun _ b _ hab => ?_⟩
    have hnan : a.NoNan := noNan_of_eqv hab
    exact ⟨jsonEqual_symm (hdistinct hnan) hab, fun _ c _ hbc => jsonEqual_trans hab hbc⟩

/-- An object of integers. -/
theorem produced_ints (members : List (Bytes × Int64)) (hkeys : ∀ m ∈ members, IsUtf8 m.1) :
    Produced std {} (.object (members.map fun m => (m.1, .int m.2))) := by
  refine produced_iff.mpr ⟨leavesIn_object.mpr ⟨?_, ?_⟩, ?_⟩
  · rw [List.forall_mem_map]
    exact hkeys
  · rw [List.forall_mem_map]
    exact fun m _ => trivial
  · have hflat : membersDepth (members.map fun m => (m.1, .int m.2)) = 0 := by
      induction members with
      | nil => rfl
      | cons m members ih =>
        rw [List.map_cons, membersDepth, ih fun x hx => hkeys x (.tail _ hx)]
        rfl
    rw [depth, hflat]
    decide

/-- An array of two objects, of which the second one repeats a key. -/
def twoObjects : JsonValue :=
  .array [.object [(ascii "x", .int 1), (ascii "y", .int 2)],
    .object [(ascii "x", .int 1), (ascii "x", .int 2)]]

theorem produced_twoObjects : Produced std {} twoObjects := by
  have hx : IsUtf8 (ascii "x") := isUtf8_of_ascii (by decide)
  have hleaves {key : Bytes} (hkey : IsUtf8 key) :
      (object [(ascii "x", .int 1), (key, .int 2)]).LeavesIn (ReadableFloat std) :=
    (produced_iff.mp (produced_ints [(ascii "x", 1), (key, 2)]
      (List.forall_mem_cons.mpr ⟨hx, List.forall_mem_singleton.mpr hkey⟩))).1
  refine produced_iff.mpr ⟨leavesIn_array.mpr ?_, by decide⟩
  rw [List.forall_mem_cons, List.forall_mem_singleton]
  exact ⟨hleaves (isUtf8_of_ascii (by decide)), hleaves hx⟩

/-- Two objects in an array. -/
theorem jsonEqual_laws_iff_member :
    ((twoObjects.NoNan → Eqv twoObjects twoObjects) ∧
        ∀ options b, Produced sampleChars options b → Eqv twoObjects b →
          Eqv b twoObjects ∧
            ∀ options' c, Produced sampleChars options' c → Eqv b c → Eqv twoObjects c) ↔
      (twoObjects.NoNan → twoObjects.Distinct) :=
  jsonEqual_laws_iff produced_twoObjects

/-- **A repeated key: a tree that is equal to another, but not the other way, and one that is not
equal to itself.** -/
theorem not_jsonEqual_laws :
    (Produced sampleChars {} (.object [(ascii "x", .int 1), (ascii "x", .int 1)]) ∧
        Produced sampleChars {} (.object [(ascii "x", .int 1), (ascii "y", .int 1)]) ∧
        Eqv (.object [(ascii "x", .int 1), (ascii "x", .int 1)])
          (.object [(ascii "x", .int 1), (ascii "y", .int 1)]) ∧
        ¬ Eqv (.object [(ascii "x", .int 1), (ascii "y", .int 1)])
          (.object [(ascii "x", .int 1), (ascii "x", .int 1)])) ∧
      Produced sampleChars {} (.object [(ascii "x", .int 1), (ascii "x", .int 2)]) ∧
        (object [(ascii "x", .int 1), (ascii "x", .int 2)]).NoNan ∧
        ¬ Eqv (.object [(ascii "x", .int 1), (ascii "x", .int 2)])
          (.object [(ascii "x", .int 1), (ascii "x", .int 2)]) := by
  have hx : IsUtf8 (ascii "x") := isUtf8_of_ascii (by decide)
  have hy : IsUtf8 (ascii "y") := isUtf8_of_ascii (by decide)
  have hkeys {key : Bytes} (v w : Int64) (hkey : IsUtf8 key) : ∀ m ∈ [(ascii "x", v), (key, w)],
    IsUtf8 m.1 := by
    rw [List.forall_mem_cons, List.forall_mem_singleton]
    exact ⟨hx, hkey⟩
  have hnan : (object [(ascii "x", .int 1), (ascii "x", .int 2)]).NoNan := by
    rw [noNan_object, List.forall_mem_cons, List.forall_mem_singleton]
    exact ⟨trivial, trivial⟩
  exact ⟨⟨produced_ints _ (hkeys 1 1 hx), produced_ints _ (hkeys 1 1 hy), by decide, by decide⟩,
    produced_ints _ (hkeys 1 2 hx), hnan, by decide⟩

/-! ## Reading again -/

/-- Valid leaves. -/
theorem valid_of_leavesIn {F : F64 → Prop} (hF : ∀ d, F d → d.IsFinite) (h : v.LeavesIn F) :
    v.Valid := by
  induction v using JsonValue.induct with
  | null => exact trivial
  | bool v => exact trivial
  | int v => exact trivial
  | float v => exact hF v h
  | string v => exact h
  | array items ih =>
    have hitems : ∀ v ∈ items, v.Valid := fun v hv => ih v hv (leavesIn_array.mp h v hv)
    clear ih h
    induction items with
    | nil => exact trivial
    | cons v items ih =>
      obtain ⟨hv, hrest⟩ := List.forall_mem_cons.mp hitems
      exact ⟨hv, ih hrest⟩
  | object members ih =>
    obtain ⟨hkeys, hvalues⟩ := leavesIn_object.mp h
    have hmembers : ∀ m ∈ members, IsUtf8 m.1 ∧ m.2.Valid :=
      fun m hm => ⟨hkeys m hm, ih m hm (hvalues m hm)⟩
    clear ih h hkeys hvalues
    induction members with
    | nil => exact trivial
    | cons m members ih =>
      obtain ⟨hm, hrest⟩ := List.forall_mem_cons.mp hmembers
      exact ⟨hm.1, hm.2, ih hrest⟩

/-- **What was read is read again when it is written**, under every option of the writer, where no
literal is converted to an infinity. -/
theorem read_write_read (hstd : ∀ d : F64, d.IsFinite → std.Inverse d)
    (hfinite : ∀ d, ReadableFloat std d → d.IsFinite) {text : Bytes} {v : JsonValue}
    (h : JsonReader.read std {} text = .ok v) (options : JsonWriterOptions) :
    JsonReader.read std {} (JsonWriter.write std options v) = .ok v := by
  obtain ⟨hleaves, hdepth⟩ := produced_iff.mp ⟨text, h⟩
  exact read_written hstd options v (valid_of_leavesIn hfinite hleaves) hdepth

/-- The sample conversion, which refuses what is not finite. -/
def finiteChars : DoubleChars where
  toChars := sampleChars.toChars
  fromChars text := (sampleChars.fromChars text).bind fun r =>
    if r.1.IsFinite then .ok r else .error .resultOutOfRange

theorem inverse_finiteChars {d : F64} (h : d.IsFinite) : finiteChars.Inverse d := by
  obtain ⟨n, hto, hlength, hfrom, hzero⟩ := inverse_sampleChars d
  refine ⟨n, hto, hlength, ?_, fun hint => ?_⟩
  · show (sampleChars.fromChars _).bind _ = _
    rw [hfrom]
    exact if_pos h
  · show (sampleChars.fromChars _).bind _ = _
    rw [hzero hint]
    exact if_pos h

theorem isFinite_of_readable {d : F64} (h : ReadableFloat finiteChars d) : d.IsFinite := by
  obtain ⟨n, hn⟩ := h
  unfold Number.value finiteChars at hn
  cases hfrom : sampleChars.fromChars n.text with
  | error e => simp [hfrom, Except.bind] at hn
  | ok r =>
    obtain ⟨d', consumed⟩ := r
    by_cases hr : d'.IsFinite
    · simp only [hfrom, Except.bind, if_pos hr] at hn
      split_ifs at hn
      · cases hn
      · cases hn
        exact hr
    · simp [hfrom, Except.bind, hr] at hn

/-- An object with spaces and a repeated key, written with indentation. -/
theorem read_write_read_pretty :
    JsonReader.read finiteChars {} (JsonWriter.write finiteChars { pretty := true }
      (.object [(ascii "k", .float ⟨0x3FF8000000000000⟩), (ascii "k", .array [])])) =
        .ok (.object [(ascii "k", .float ⟨0x3FF8000000000000⟩), (ascii "k", .array [])]) :=
  read_write_read (fun _ => inverse_finiteChars) (fun _ => isFinite_of_readable)
    (show JsonReader.read finiteChars {} (ascii "\x7b\"k\": 1.5, \"k\": [ ]\x7d") =
      _ from rfl) { pretty := true }

end Libca.Json
