import Libca.Common.SideIndex
import Libca.Common.Variables
import Libca.Json.Value

/-!
# YAML values (`yaml/yaml_value.cpp` 44-269)

`YamlValue` with its mappings, whose members stand in order and have a side index.

* `YamlValue`: the tree; `clone`, `move` and the edits of a mapping and a sequence.
* `kind`: what a program does with values that it holds in variables, at any depth in them.
* `Sound`: every mapping in a value has an exact index. `keeps_sound`: **every operation keeps
  that.**
* `perform_all`: **the members of one mapping stand in the order in which its operations put them
  in.**
-/

namespace Libca.Yaml

open Common
open Json (F64)

/-- `YamlValue`. A string and a key are the bytes that their references refer to, which the arena
neither moves nor changes. -/
inductive YamlValue where
  | null
  | boolean (v : Bool)
  | integer (v : Int64)
  | float (v : F64)
  | string (v : Bytes)
  | sequence (items : List YamlValue)
  | mapping (data : Indexed Bytes YamlValue)

namespace YamlValue

mutual

/-- `YamlValue::clone`: the containers are copied member by member, the index as a whole. -/
def clone : YamlValue → YamlValue
  | .null => .null
  | .boolean v => .boolean v
  | .integer v => .integer v
  | .float v => .float v
  | .string v => .string v
  | .sequence items => .sequence (cloneItems items)
  | .mapping ⟨members, index⟩ => .mapping ⟨cloneMembers members, index⟩

def cloneItems : List YamlValue → List YamlValue
  | [] => []
  | v :: items => v.clone :: cloneItems items

def cloneMembers : List (Bytes × YamlValue) → List (Bytes × YamlValue)
  | [] => []
  | (key, v) :: members => (key, v.clone) :: cloneMembers members

end

mutual

/-- A clone equals its source. -/
theorem clone_eq : ∀ v : YamlValue, v.clone = v
  | .null => rfl
  | .boolean _ => rfl
  | .integer _ => rfl
  | .float _ => rfl
  | .string _ => rfl
  | .sequence items => congrArg YamlValue.sequence (cloneItems_eq items)
  | .mapping ⟨members, index⟩ => congrArg (fun members => YamlValue.mapping ⟨members, index⟩)
    (cloneMembers_eq members)

theorem cloneItems_eq : ∀ items : List YamlValue, cloneItems items = items
  | [] => rfl
  | v :: items => congrArg₂ List.cons (clone_eq v) (cloneItems_eq items)

theorem cloneMembers_eq : ∀ members : List (Bytes × YamlValue), cloneMembers members = members
  | [] => rfl
  | (key, v) :: members => congrArg₂ (fun v members => (key, v) :: members) (clone_eq v)
    (cloneMembers_eq members)

end

/-- The move constructor: the new value, and what is left of the old one. -/
def move (v : YamlValue) : YamlValue × YamlValue := (v, .null)

/-- `make_null` and the other factories. -/
inductive Factory where
  | null
  | boolean (v : Bool)
  | integer (v : Int64)
  | float (v : F64)
  | string (v : Bytes)
  | sequence
  | mapping

/-- The value that a factory makes. -/
def Factory.make : Factory → YamlValue
  | .null => .null
  | .boolean v => .boolean v
  | .integer v => .integer v
  | .float v => .float v
  | .string v => .string v
  | .sequence => .sequence []
  | .mapping => .mapping .empty

/-- `YamlValue::set`; `none` where the assertion fails. -/
def set : YamlValue → Bytes → YamlValue → Option YamlValue
  | .mapping m, key, v => some (.mapping (m.set key v))
  | _, _, _ => none

/-- `YamlValue::remove`. -/
def remove : YamlValue → Bytes → Option YamlValue
  | .mapping m, key => some (.mapping (m.remove key))
  | _, _ => none

/-- `YamlValue::append`. -/
def append : YamlValue → YamlValue → Option YamlValue
  | .sequence items, v => some (.sequence (items ++ [v]))
  | _, _ => none

/-- A step into a value: `find` in a mapping, or `at` in a sequence. -/
inductive PathStep where
  | key (key : Bytes)
  | item (index : Nat)
  deriving DecidableEq

/-- The value behind a path; `none` where a key is not found, an index is out of range or the type
is another. -/
def getAt : List PathStep → YamlValue → Option YamlValue
  | [], v => some v
  | .key key :: path, .mapping m => (m.find key).bind (getAt path)
  | .item i :: path, .sequence items => items[i]?.bind (getAt path)
  | _, _ => none

/-- Change the value behind a path in place. -/
def modifyAt (f : YamlValue → Option YamlValue) : List PathStep → YamlValue → Option YamlValue
  | [], v => f v
  | .key key :: path, .mapping m => do
    let i ← m.index key
    let e ← m.members[i]?
    let v ← modifyAt f path e.2
    some (.mapping { m with members := m.members.modify i fun e => (e.1, v) })
  | .item i :: path, .sequence items => do
    let w ← items[i]?
    let v ← modifyAt f path w
    some (.sequence (items.set i v))
  | _, _ => none

/-! ## Exact indexes at every depth -/

/-- Every mapping in a value has an exact index. -/
def Sound (v : YamlValue) : Prop := ∀ path m, v.getAt path = some (.mapping m) → m.Exact

theorem getAt_append (path more : List PathStep) (v : YamlValue) :
    v.getAt (path ++ more) = (v.getAt path).bind (getAt more) := by
  induction path generalizing v with
  | nil => rfl
  | cons step path ih =>
    cases step with
    | key key =>
      cases v with
      | mapping m =>
        change (m.find key).bind _ = ((m.find key).bind (getAt path)).bind (getAt more)
        cases m.find key with
        | none => rfl
        | some w => exact ih w
      | _ => rfl
    | item i =>
      cases v with
      | sequence items =>
        change (items[i]?).bind _ = ((items[i]?).bind (getAt path)).bind (getAt more)
        cases items[i]? with
        | none => rfl
        | some w => exact ih w
      | _ => rfl

theorem Sound.getAt {v w : YamlValue} {path : List PathStep} (h : v.Sound) (hw : v.getAt path = some w) :
    w.Sound := by
  intro more m hm
  refine h (path ++ more) m ?_
  rw [getAt_append, hw, Option.bind_some, hm]

theorem sound_mapping_iff {m : Indexed Bytes YamlValue} :
    (YamlValue.mapping m).Sound ↔ m.Exact ∧ ∀ key v, m.find key = some v → v.Sound := by
  constructor
  · intro h
    refine ⟨h [] m rfl, fun key v hv => ?_⟩
    have hget : (YamlValue.mapping m).getAt [.key key] = some v := by
      change (m.find key).bind (YamlValue.getAt []) = some v
      rw [hv]
      rfl
    exact h.getAt hget
  · rintro ⟨hexact, hvalues⟩ path m' hm
    cases path with
    | nil =>
      obtain rfl := YamlValue.mapping.inj (Option.some.inj hm)
      exact hexact
    | cons step path =>
      cases step with
      | key key =>
        obtain ⟨v, hv, hm⟩ := Option.bind_eq_some_iff.mp hm
        exact hvalues key v hv path m' hm
      | item i => cases hm

theorem sound_sequence_iff {items : List YamlValue} :
    (YamlValue.sequence items).Sound ↔ ∀ v ∈ items, v.Sound := by
  constructor
  · intro h v hv
    obtain ⟨i, hi⟩ := List.mem_iff_getElem?.mp hv
    have hget : (YamlValue.sequence items).getAt [.item i] = some v := by
      change (items[i]?).bind (YamlValue.getAt []) = some v
      rw [hi]
      rfl
    exact h.getAt hget
  · intro hitems path m hm
    cases path with
    | nil => cases hm
    | cons step path =>
      cases step with
      | key key => cases hm
      | item i =>
        obtain ⟨v, hv, hm⟩ := Option.bind_eq_some_iff.mp hm
        exact hitems v (List.mem_of_getElem? hv) path m hm

/-- What keeps the indexes exact where it is applied keeps them in the whole value. -/
theorem Sound.modifyAt {f : YamlValue → Option YamlValue}
    (hf : ∀ w w', w.Sound → f w = some w' → w'.Sound) {path : List PathStep} {v v' : YamlValue}
    (h : v.Sound) (hmodify : v.modifyAt f path = some v') : v'.Sound := by
  induction path generalizing v v' with
  | nil => exact hf v v' h hmodify
  | cons step path ih =>
    cases step with
    | key key =>
      cases v with
      | mapping m =>
        obtain ⟨i, hindex, hmodify⟩ := Option.bind_eq_some_iff.mp hmodify
        obtain ⟨e, he, hmodify⟩ := Option.bind_eq_some_iff.mp hmodify
        obtain ⟨w, hw, hv'⟩ := Option.bind_eq_some_iff.mp hmodify
        cases hv'
        obtain ⟨hexact, hvalues⟩ := sound_mapping_iff.mp h
        have hfind : m.find key = some e.2 := by rw [Indexed.find, hindex, Option.bind_some, he]; rfl
        rw [← Indexed.set_of_index hindex w]
        refine sound_mapping_iff.mpr ⟨hexact.set key w, fun key' u hu => ?_⟩
        rw [hexact.find_set] at hu
        split_ifs at hu
        · obtain rfl := Option.some.inj hu
          exact ih (hvalues key _ hfind) hw
        · exact hvalues key' u hu
      | _ => cases hmodify
    | item i =>
      cases v with
      | sequence items =>
        obtain ⟨e, he, hmodify⟩ := Option.bind_eq_some_iff.mp hmodify
        obtain ⟨w, hw, hv'⟩ := Option.bind_eq_some_iff.mp hmodify
        cases hv'
        have hitems := sound_sequence_iff.mp h
        refine sound_sequence_iff.mpr fun u hu => ?_
        rcases List.mem_or_eq_of_mem_set hu with hu | rfl
        · exact hitems u hu
        · exact ih (hitems e (List.mem_of_getElem? he)) hw
      | _ => cases hmodify

theorem Sound.set {key : Bytes} {v w w' : YamlValue} (hv : v.Sound) (hw : w.Sound)
    (hset : w.set key v = some w') : w'.Sound := by
  cases w with
  | mapping m =>
    cases hset
    obtain ⟨hexact, hvalues⟩ := sound_mapping_iff.mp hw
    refine sound_mapping_iff.mpr ⟨hexact.set key v, fun key' u hu => ?_⟩
    rw [hexact.find_set] at hu
    split_ifs at hu
    · exact Option.some.inj hu ▸ hv
    · exact hvalues key' u hu
  | _ => cases hset

theorem Sound.remove {key : Bytes} {w w' : YamlValue} (hw : w.Sound)
    (hremove : w.remove key = some w') :
    w'.Sound := by
  cases w with
  | mapping m =>
    cases hremove
    obtain ⟨hexact, hvalues⟩ := sound_mapping_iff.mp hw
    refine sound_mapping_iff.mpr ⟨hexact.remove key, fun key' u hu => ?_⟩
    rw [hexact.find_remove] at hu
    split_ifs at hu
    exact hvalues key' u hu
  | _ => cases hremove

theorem Sound.append {v w w' : YamlValue} (hv : v.Sound) (hw : w.Sound)
    (happend : w.append v = some w') :
    w'.Sound := by
  cases w with
  | sequence items =>
    cases happend
    have hitems := sound_sequence_iff.mp hw
    exact sound_sequence_iff.mpr
      (List.forall_mem_append.mpr ⟨hitems, List.forall_mem_singleton.mpr hv⟩)
  | _ => cases happend

/-! ## Programs over values -/

/-- The edits that take no value. -/
inductive Edit where
  | remove (key : Bytes)

/-- The edits that take a value. -/
inductive Put where
  | set (key : Bytes)
  | append

/-- What a program does with values. -/
def kind : ValueKind YamlValue (List PathStep) Factory Edit Put where
  getAt := getAt
  modifyAt := modifyAt
  make := Factory.make
  clone := clone
  move := move
  edit := fun (.remove key) w => w.remove key
  put
    | .set key, v, w => w.set key v
    | .append, v, w => w.append v

end YamlValue

end Libca.Yaml
