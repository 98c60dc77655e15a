import Libca.Common.SortedMap
import Libca.Fs.FileUtil
import Libca.Json.RoundTrip

/-!
# The key-value store (`json/kv_store.cpp` 15-262)

`KvStore`: a map from keys to scalars, kept in a file as one JSON object.

A file that cannot be read counts as absent.

* `Op`, `run`: the calls that change a store.
* `save`, `load`: the text given to the file, and what is made of the content of a file.
* `Storable`: keys and strings are valid UTF-8, and floats are finite.
* `load_save_iff`: **a saved store is loaded as it was exactly when it is storable**; strings that
  are not valid are saved as the empty string and floats that are not finite as `null`, and no call
  reports it.
-/

namespace Libca.Json

open Common Str Fs

/-! ## The store and the calls that change it -/

/-- `KvStore::KvValue`. -/
inductive KvValue where
  | bool (v : Bool)
  | int (v : Int64)
  | float (v : F64)
  | string (v : Bytes)
  deriving DecidableEq

/-- `KvStore`: the path and the map of its state. -/
@[ext] structure KvStore where
  path : Bytes
  values : SortedMap Bytes KvValue

namespace KvStore

/-- The empty store at a path. -/
def new (path : Bytes) : KvStore := ⟨path, .empty⟩

/-- `set_string`. -/
def setString (s : KvStore) (key value : Bytes) : KvStore :=
  { s with values := s.values.insertOrAssign key (.string value) }

/-- `set_int`. -/
def setInt (s : KvStore) (key : Bytes) (value : Int64) : KvStore :=
  { s with values := s.values.insertOrAssign key (.int value) }

/-- `set_bool`. -/
def setBool (s : KvStore) (key : Bytes) (value : Bool) : KvStore :=
  { s with values := s.values.insertOrAssign key (.bool value) }

/-- `set_double`. -/
def setDouble (s : KvStore) (key : Bytes) (value : F64) : KvStore :=
  { s with values := s.values.insertOrAssign key (.float value) }

/-- `remove`. -/
def remove (s : KvStore) (key : Bytes) : KvStore := { s with values := s.values.erase key }

/-- A call that changes a store. -/
inductive Op where
  | setString (key value : Bytes)
  | setInt (key : Bytes) (value : Int64)
  | setBool (key : Bytes) (value : Bool)
  | setDouble (key : Bytes) (value : F64)
  | remove (key : Bytes)

/-- One call. -/
def step (s : KvStore) : Op → KvStore
  | .setString key value => s.setString key value
  | .setInt key value => s.setInt key value
  | .setBool key value => s.setBool key value
  | .setDouble key value => s.setDouble key value
  | .remove key => s.remove key

/-- The store after some calls. -/
def run (path : Bytes) (ops : List Op) : KvStore := ops.foldl step (new path)

/-! ## Saving and loading -/

/-- The JSON value that `save` makes of a value, whose string goes through the arena. -/
def toJson : KvValue → JsonValue
  | .string v => .string (intern v)
  | .bool v => .bool v
  | .int v => .int v
  | .float v => .float v

/-- The members of the object that `save` builds. -/
def members (s : KvStore) : List (Bytes × JsonValue) :=
  s.values.entries.foldl (fun ms e => JsonValue.setMember ms (intern e.1) (toJson e.2)) []

/-- `save`: the text given to `atomic_write_text`. -/
def save (std : DoubleChars) (s : KvStore) : Bytes := JsonWriter.write std {} (.object s.members)

/-- `make_kv_error`. -/
def kvError (message : Bytes) : Stop := .failed ⟨.start, message⟩

/-- The value that `load` makes of a member, which has to be a scalar. -/
def ofJson : JsonValue → Option KvValue
  | .bool v => some (.bool v)
  | .int v => some (.int v)
  | .float v => some (.float v)
  | .string v => some (.string v)
  | .null => none
  | .array _ => none
  | .object _ => none

/-- The loop of `load`: the first member of a key counts. -/
def loadMembers (store : KvStore) : List (Bytes × JsonValue) → Except Stop KvStore
  | [] => .ok store
  | (key, v) :: rest =>
    match ofJson v with
    | some value => loadMembers { store with values := store.values.emplace key value } rest
    | none => .error (kvError (encode "键 \"".toList ++ key ++
        encode "\" 的值类型不受支持（null/array/object）".toList))

/-- `load`, on the outcome of reading the file. -/
def load (std : DoubleChars) (path : Bytes) (file : Except FsError Bytes) : Except Stop KvStore :=
  match readAllText file true with
  | .error .fileNotFound => .ok (new path)
  | .error err =>
    .error (kvError (encode "读取存储文件失败: ".toList ++ err.toString ++ ascii ": " ++ path))
  | .ok text =>
    match JsonReader.read std {} text with
    | .error stop => .error stop
    | .ok (.object ms) => loadMembers (new path) ms
    | .ok _ => .error (kvError (encode "存储根必须是 JSON 对象: ".toList ++ path))

end KvStore

/-! ## What can be stored -/

/-- A value that the file can hold. -/
def KvValue.Storable : KvValue → Prop
  | .bool _ => True
  | .int _ => True
  | .float v => v.IsFinite
  | .string v => IsUtf8 v

namespace KvStore

/-- Every key and every value can be held by the file. -/
def Storable (s : KvStore) : Prop := ∀ e ∈ s.values.entries, IsUtf8 e.1 ∧ e.2.Storable

/-- A call that only adds what the file can hold. -/
def Op.Storable : Op → Prop
  | .setString key value => IsUtf8 key ∧ IsUtf8 value
  | .setInt key _ => IsUtf8 key
  | .setBool key _ => IsUtf8 key
  | .setDouble key value => IsUtf8 key ∧ value.IsFinite
  | .remove _ => True

theorem storable_new (path : Bytes) : (new path).Storable := by
  rintro e ⟨⟩

variable {s : KvStore} {key : Bytes} {v : KvValue}

theorem Storable.insertOrAssign (hs : s.Storable) (hkey : IsUtf8 key) (hv : v.Storable) :
    Storable { s with values := s.values.insertOrAssign key v } := by
  intro e he
  rcases SortedMap.mem_insertOrAssign he with rfl | he
  · exact ⟨hkey, hv⟩
  · exact hs e he

theorem Storable.emplace (hs : s.Storable) (hkey : IsUtf8 key) (hv : v.Storable) :
    Storable { s with values := s.values.emplace key v } := by
  intro e he
  rcases SortedMap.mem_emplace he with rfl | he
  · exact ⟨hkey, hv⟩
  · exact hs e he

theorem Storable.step (hs : s.Storable) {op : Op} (hop : op.Storable) : (s.step op).Storable := by
  cases op with
  | setString key value => exact hs.insertOrAssign hop.1 hop.2
  | setInt key value => exact hs.insertOrAssign hop trivial
  | setBool key value => exact hs.insertOrAssign hop trivial
  | setDouble key value => exact hs.insertOrAssign hop.1 hop.2
  | remove key => exact fun e he => hs e (SortedMap.mem_erase he)

/-- Calls that only add what the file can hold lead to a store it can hold. -/
theorem storable_run (path : Bytes) (ops : List Op) (hops : ∀ op ∈ ops, op.Storable) :
    (run path ops).Storable := by
  suffices h : ∀ s : KvStore, s.Storable → (ops.foldl KvStore.step s).Storable from
    h _ (storable_new path)
  induction ops with
  | nil => exact fun s hs => hs
  | cons op ops ih =>
    intro s hs
    have hop := hops op (.head _)
    exact ih (fun op' hop' => hops op' (.tail _ hop')) _ (hs.step hop)

/-! ## The text that is saved -/

variable {std : DoubleChars}

/-- The value that is read back from what is written for a scalar. -/
def readBack : JsonValue → JsonValue
  | .float v => if v.isNan || v.isInf then .null else .float v
  | v => v

theorem writeValue_readBack (options : JsonWriterOptions) (depth : Nat) (v : JsonValue) :
    JsonWriter.writeValue std options depth (readBack v) =
      JsonWriter.writeValue std options depth v := by
  cases v with
  | float v =>
    unfold readBack
    by_cases h : (v.isNan || v.isInf) = true
    · simp [h, JsonWriter.writeValue, JsonWriter.writeFloat]
    · simp [h]
  | _ => rfl

theorem writeMembers_readBack (options : JsonWriterOptions) (depth : Nat)
    (ms : List (Bytes × JsonValue)) :
    JsonWriter.writeMembers std options depth (ms.map fun m => (m.1, readBack m.2)) =
      JsonWriter.writeMembers std options depth ms := by
  induction ms with
  | nil => rfl
  | cons m ms ih =>
    obtain ⟨key, v⟩ := m
    rw [List.map_cons, JsonWriter.writeMembers, JsonWriter.writeMembers, ih, writeValue_readBack]

/-- The text of an object does not show which of its floats are not finite. -/
theorem write_readBack (options : JsonWriterOptions) (ms : List (Bytes × JsonValue)) :
    JsonWriter.write std options (.object (ms.map fun m => (m.1, readBack m.2))) =
      JsonWriter.write std options (.object ms) := by
  unfold JsonWriter.write
  cases ms with
  | nil => rfl
  | cons m ms =>
    obtain ⟨key, v⟩ := m
    rw [List.map_cons, JsonWriter.writeValue, JsonWriter.writeValue, writeMembers_readBack,
      writeValue_readBack]

/-- Members of an object that are scalars. -/
def Scalars (ms : List (Bytes × JsonValue)) : Prop :=
  ∀ m ∈ ms, ∃ key v, m = (intern key, toJson v)

variable {ms : List (Bytes × JsonValue)}

theorem scalars_setMember (hms : Scalars ms) (key : Bytes)
    (v : KvValue) : Scalars (JsonValue.setMember ms (intern key) (toJson v)) := by
  induction ms with
  | nil =>
    intro m hm
    exact ⟨key, v, by simpa [JsonValue.setMember] using hm⟩
  | cons m ms ih =>
    have hm := hms m (.head _)
    have hrest : Scalars ms := fun m' hm' => hms m' (.tail _ hm')
    unfold JsonValue.setMember
    split_ifs with heq
    · intro m' hm'
      rcases List.mem_cons.mp hm' with rfl | hm'
      · exact ⟨key, v, by rw [heq]⟩
      · exact hrest m' hm'
    · intro m' hm'
      rcases List.mem_cons.mp hm' with rfl | hm'
      · exact hm
      · exact ih hrest m' hm'

theorem scalars_members (s : KvStore) : Scalars s.members := by
  unfold members
  suffices h : ∀ (es : List (Bytes × KvValue)) (ms : List (Bytes × JsonValue)), Scalars ms →
      Scalars (es.foldl (fun ms e => JsonValue.setMember ms (intern e.1) (toJson e.2)) ms) from
    h _ [] (by rintro m ⟨⟩)
  intro es
  induction es with
  | nil => exact fun ms hms => hms
  | cons e es ih => exact fun ms hms => ih _ (scalars_setMember hms e.1 e.2)

theorem valid_readBack (v : KvValue) : (readBack (toJson v)).Valid := by
  cases v with
  | bool v => trivial
  | int v => trivial
  | float v =>
    show (if v.isNan || v.isInf then JsonValue.null else .float v).Valid
    by_cases h : (v.isNan || v.isInf) = true
    · rw [if_pos h]
      trivial
    · rw [if_neg h]
      exact v.isFinite_iff.mpr (Bool.eq_false_iff.mpr h)
  | string v => exact isUtf8_intern v

theorem depth_readBack (v : KvValue) : (readBack (toJson v)).depth = 0 := by
  cases v with
  | float v =>
    show (if v.isNan || v.isInf then JsonValue.null else .float v).depth = 0
    split_ifs <;> rfl
  | _ => rfl

theorem membersValid_readBack (hms : Scalars ms) :
    JsonValue.MembersValid (ms.map fun m => (m.1, readBack m.2)) ∧
      JsonValue.membersDepth (ms.map fun m => (m.1, readBack m.2)) = 0 := by
  induction ms with
  | nil => exact ⟨trivial, rfl⟩
  | cons m ms ih =>
    obtain ⟨key, v, rfl⟩ := hms m (.head _)
    obtain ⟨hvalid, hdepth⟩ := ih fun m' hm' => hms m' (.tail _ hm')
    refine ⟨⟨isUtf8_intern key, valid_readBack v, hvalid⟩, ?_⟩
    rw [List.map_cons, JsonValue.membersDepth, hdepth, depth_readBack]
    rfl

/-- **What is read from a saved store** is the object whose floats that are not finite are null. -/
theorem read_save (hstd : ∀ v : F64, v.IsFinite → std.Inverse v) (s : KvStore) :
    JsonReader.read std {} (save std s) =
      .ok (.object (s.members.map fun m => (m.1, readBack m.2))) := by
  obtain ⟨hvalid, hdepth⟩ := membersValid_readBack (scalars_members s)
  unfold save
  rw [← write_readBack]
  refine read_written hstd {} _ hvalid ?_
  rw [JsonValue.depth, hdepth]
  decide

/-! ## Loading what was saved -/

/-- A saved store has no byte order mark: its first byte is a brace. -/
theorem readAllText_save (s : KvStore) : readAllText (.ok (save std s)) true =
    .ok (save std s) := by
  obtain ⟨rest, hrest⟩ : ∃ rest, JsonWriter.writeValue std {} 0 (.object s.members) =
    123 :: rest := by
    cases s.members with
    | nil => exact ⟨_, rfl⟩
    | cons m ms => exact ⟨_, rfl⟩
  unfold save JsonWriter.write
  rw [hrest, buildOrEmpty_eq_intern]
  by_cases h : IsUtf8 (123 :: rest)
  · rw [intern_of_isUtf8 h, readAllText_ascii (by decide)]
  · rw [intern_of_not_isUtf8 h]
    rfl

theorem setMember_of_ne (h : ∀ m ∈ ms, m.1 ≠ key)
    (v : JsonValue) : JsonValue.setMember ms key v = ms ++ [(key, v)] := by
  induction ms with
  | nil => rfl
  | cons m ms ih =>
    rw [JsonValue.setMember, if_neg (h m (.head _)),
      ih fun m' hm' => h m' (.tail _ hm')]
    rfl

theorem foldl_setMember {es : List (Bytes × KvValue)} (hutf8 : ∀ e ∈ es, IsUtf8 e.1)
    (hsorted : es.Pairwise fun a b => a.1 < b.1) (ms : List (Bytes × JsonValue))
    (hne : ∀ m ∈ ms, ∀ e ∈ es, m.1 ≠ e.1) :
    es.foldl (fun ms e => JsonValue.setMember ms (intern e.1) (toJson e.2)) ms =
      ms ++ es.map fun e => (e.1, toJson e.2) := by
  induction es generalizing ms with
  | nil => simp
  | cons e es ih =>
    have hcons := List.pairwise_cons.mp hsorted
    have hkey : intern e.1 = e.1 := intern_of_isUtf8 (hutf8 e (.head _))
    have hadd : JsonValue.setMember ms e.1 (toJson e.2) = ms ++ [(e.1, toJson e.2)] :=
      setMember_of_ne (fun m hm => hne m hm e (.head _)) _
    rw [List.foldl_cons, hkey, hadd, ih (fun e' he' => hutf8 e' (.tail _ he')) hcons.2]
    · simp
    · intro m hm e' he'
      rcases List.mem_append.mp hm with hm | hm
      · exact hne m hm e' (.tail _ he')
      · rw [List.mem_singleton.mp hm]
        exact fun heq => List.lt_irrefl _ (heq ▸ hcons.1 e' he')

/-- The members of a storable store are its entries. -/
theorem members_of_storable (hs : s.Storable) :
    s.members = s.values.entries.map fun e => (e.1, toJson e.2) :=
  foldl_setMember (fun e he => (hs e he).1) s.values.sorted [] (by rintro m ⟨⟩)

theorem ofJson_readBack (hv : v.Storable) : ofJson (readBack (toJson v)) = some v := by
  cases v with
  | bool v => rfl
  | int v => rfl
  | float v =>
    have h : (v.isNan || v.isInf) = false := v.isFinite_iff.mp hv
    show ofJson (if v.isNan || v.isInf then JsonValue.null else .float v) = _
    rw [if_neg (by simp [h])]
    rfl
  | string v =>
    show some (KvValue.string (intern v)) = _
    rw [intern_of_isUtf8 hv]

theorem loadMembers_map (es : List (Bytes × KvValue)) (hes : ∀ e ∈ es, e.2.Storable)
    (store : KvStore) :
    loadMembers store (es.map fun e => (e.1, readBack (toJson e.2))) =
      .ok { store with values := es.foldl (fun m e => m.emplace e.1 e.2) store.values } := by
  induction es generalizing store with
  | nil => rfl
  | cons e es ih =>
    rw [List.map_cons, loadMembers, ofJson_readBack (hes e (.head _))]
    exact ih (fun e' he' => hes e' (.tail _ he')) _

/-- A scalar that is read back can be stored. -/
theorem storable_of_ofJson {w : KvValue} (h : ofJson (readBack (toJson v)) = some w) :
    w.Storable := by
  have hvalid := valid_readBack v
  generalize readBack (toJson v) = j at h hvalid
  cases j <;> cases h <;> trivial

theorem storable_of_loadMembers (hms : Scalars ms) {store : KvStore} (hstore : store.Storable)
    (h : loadMembers store (ms.map fun m => (m.1, readBack m.2)) = .ok s) : s.Storable := by
  induction ms generalizing store with
  | nil =>
    cases h
    exact hstore
  | cons m ms ih =>
    obtain ⟨key, v, rfl⟩ := hms m (.head _)
    rw [List.map_cons, loadMembers] at h
    cases hv : ofJson (readBack (toJson v)) with
    | none => simp [hv] at h
    | some w =>
      rw [hv] at h
      exact ih (fun m' hm' => hms m' (.tail _ hm'))
        (hstore.emplace (isUtf8_intern key) (storable_of_ofJson hv)) h

/-- Loading a saved store is the loop over its members. -/
theorem load_save (hstd : ∀ v : F64, v.IsFinite → std.Inverse v) (s : KvStore) (path : Bytes) :
    load std path (.ok (save std s)) =
      loadMembers (new path) (s.members.map fun m => (m.1, readBack m.2)) := by
  unfold load
  simp only [readAllText_save, read_save hstd]

/-- What is loaded of a saved store can be stored. -/
theorem storable_of_load (hstd : ∀ v : F64, v.IsFinite → std.Inverse v) {s' : KvStore}
    {path : Bytes} (h : load std path (.ok (save std s)) = .ok s') : s'.Storable := by
  rw [load_save hstd] at h
  exact storable_of_loadMembers (scalars_members s) (storable_new path) h

/-- A store whose values can be stored is loaded as it was saved. -/
theorem load_save_of_storable (hstd : ∀ v : F64, v.IsFinite → std.Inverse v)
    (hs : s.Storable) : load std s.path (.ok (save std s)) = .ok s := by
  rw [load_save hstd, members_of_storable hs, List.map_map]
  have hloop := loadMembers_map s.values.entries (fun e he => (hs e he).2) (new s.path)
  have hall := SortedMap.foldl_emplace s.values.entries (.empty : SortedMap Bytes KvValue)
    s.values.sorted
  refine hloop.trans (congrArg Except.ok ?_)
  exact KvStore.ext rfl (SortedMap.ext hall)

@[simp] theorem path_run (path : Bytes) (ops : List Op) : (run path ops).path = path := by
  suffices h : ∀ s : KvStore, (ops.foldl KvStore.step s).path = s.path from h _
  induction ops with
  | nil => exact fun s => rfl
  | cons op ops ih =>
    intro s
    rw [List.foldl_cons, ih]
    cases op <;> rfl

/-- **A saved store is loaded as it was exactly when it is storable**, whatever calls it went
through; calls that only add what can be stored lead to such a store. -/
theorem load_save_iff (hstd : ∀ v : F64, v.IsFinite → std.Inverse v) (path : Bytes)
    (ops : List Op) :
    (load std path (.ok (save std (run path ops))) = .ok (run path ops) ↔
        (run path ops).Storable) ∧
      ((∀ op ∈ ops, op.Storable) →
        load std path (.ok (save std (run path ops))) = .ok (run path ops)) := by
  have hiff : load std path (.ok (save std (run path ops))) = .ok (run path ops) ↔
      (run path ops).Storable := by
    refine ⟨storable_of_load hstd, fun hs => ?_⟩
    have hload := load_save_of_storable hstd hs
    rwa [path_run] at hload
  exact ⟨hiff, fun hops => hiff.mpr (storable_run path ops hops)⟩

/-- Settings that are added and removed. -/
def settings : List Op :=
  [.setString (ascii "name") (encode "名".toList), .setDouble (ascii "scale") ⟨0x3FF8000000000000⟩,
    .setInt (ascii "level") (-3), .remove (ascii "name")]

theorem load_save_iff_settings :
    (load sampleChars (ascii "kv.json") (.ok (save sampleChars (run (ascii "kv.json") settings))) =
        .ok (run (ascii "kv.json") settings) ↔ (run (ascii "kv.json") settings).Storable) ∧
      ((∀ op ∈ settings, op.Storable) →
        load sampleChars (ascii "kv.json")
          (.ok (save sampleChars (run (ascii "kv.json") settings))) =
            .ok (run (ascii "kv.json") settings)) :=
  load_save_iff (fun v _ => inverse_sampleChars v) (ascii "kv.json") settings

/-- A NaN that was set is saved as `null`, and the file is not loaded again. -/
theorem load_save_nan : ¬ ∀ std : DoubleChars, (∀ v : F64, v.IsFinite → std.Inverse v) →
    ∀ (path : Bytes) (ops : List Op),
      load std path (.ok (save std (run path ops))) = .ok (run path ops) := by
  intro h
  have hload := h sampleChars (fun v _ => inverse_sampleChars v) (ascii "kv.json")
    [.setDouble (ascii "k") ⟨0x7FF8000000000000⟩]
  have hstorable := storable_of_load (fun v _ => inverse_sampleChars v) hload
  have hfinite :=
    (hstorable (ascii "k", .float ⟨0x7FF8000000000000⟩) (List.mem_singleton.mpr rfl)).2
  exact hfinite (by decide)

end KvStore

end Libca.Json
