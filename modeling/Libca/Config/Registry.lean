import Libca.Config.JsonCast
import Libca.Json.DomBuilder

/-!
# The registry of `Config` (`config/config.hpp`, `config/config.cpp`)

The variables that were looked up, and the documents of the names that nothing has claimed yet. A
variable is its type and its value; `ConfigVar` has its listeners. A document stands for the members
of its root.

Left out: descriptions, `load_file`.

* `lookup`, `load`, `clear`: the functions of the interface, one step each.
* `Slot`, `slot`: what the registry has for one name.
* `slot_load`, `slot_lookup`: **a name is a machine of its own**: what a call does to it depends on
  nothing else in the registry.
* `Separate`: no name is both registered and pending; `Separate.lookup`, `Separate.load`.
-/

namespace Libca.Config

open Common Json Str

/-- The members of the root of a document. -/
abbrev Members := List (Bytes × JsonValue)

/-- `JsonValue::find`: the first member of a name. -/
def find (members : Members) (name : Bytes) : Option JsonValue :=
  (members.find? (·.1 = name)).map (·.2)

/-- `ConfigErrorInfo`. -/
structure ConfigErrorInfo where
  code : ConfigError
  message : Bytes
  keys : List Bytes

variable (floats : Floats) (std : DoubleChars)

/-- A variable without its listeners. -/
structure Var where
  ty : Ty
  value : ty.Val floats

/-- `ConfigState`. The last is not in the source: the names of the variables that changed, for each
change. -/
structure ConfigState where
  vars : Finmap fun _ : Bytes => Var floats := ∅
  pending : Dict Members := ∅
  changed : List Bytes := []

variable {floats}

/-- `ConfigVar::set_from_json`: the variable, and whether it has changed. -/
def Var.setFromJson (var : Var floats) (value : JsonValue) :
    Except ConfigError (Var floats × Bool) :=
  match JsonCast.fromJson floats var.ty value with
  | .error e => .error e
  | .ok converted =>
    if var.ty.equal floats var.value converted = true then .ok (var, false)
    else .ok ({ ty := var.ty, value := converted }, true)

namespace ConfigState

/-- What `lookup` starts a variable with. -/
def initValue (s : ConfigState floats) (t : Ty) (name : Bytes) (defaultValue : t.Val floats) :
    t.Val floats :=
  match (s.pending.lookup name).bind (find · name) with
  | none => defaultValue
  | some loaded =>
    match JsonCast.fromJson floats t loaded with
    | .ok converted => converted
    | .error _ => defaultValue

/-- `lookup`; the flag says that there is a variable of the type. -/
def lookup (s : ConfigState floats) (t : Ty) (name : Bytes) (defaultValue : t.Val floats) :
    Bool × ConfigState floats :=
  match s.vars.lookup name with
  | some var => (decide (var.ty = t), s)
  | none =>
    (true, { s with
      vars := s.vars.insert name { ty := t, value := s.initValue t name defaultValue }
      pending := s.pending.erase name })

/-- The members of names that are registered. -/
def applyList (s : ConfigState floats) (members : Members) : Members :=
  members.filter fun member => (s.vars.lookup member.1).isSome

/-- The names that are not registered are put off with the whole document. -/
def putOff (s : ConfigState floats) (members : Members) : ConfigState floats :=
  { s with
    pending := members.foldl (fun pending member =>
      if (s.vars.lookup member.1).isSome then pending else pending.insert member.1 members)
        s.pending }

/-- One entry of the apply list, and the names that failed before it. -/
def applyMember (r : ConfigState floats × List Bytes) (member : Bytes × JsonValue) :
    ConfigState floats × List Bytes :=
  match r.1.vars.lookup member.1 with
  | none => r
  | some var =>
    match var.setFromJson member.2 with
    | .error _ => (r.1, r.2 ++ [member.1])
    | .ok (var, changed) =>
      ({ r.1 with
          vars := r.1.vars.insert member.1 var
          changed := if changed then r.1.changed ++ [member.1] else r.1.changed }, r.2)

/-- The names in quotes. -/
def joinKeys (keys : List Bytes) : Bytes :=
  (ascii ", ").intercalate (keys.map fun key => [34] ++ key ++ [34])

/-- The message of the error that a document was refused with. -/
def stopMessage : Stop → Bytes
  | .failed err => err.message
  | .outOfFuel => []

/-- `load`. -/
def load (s : ConfigState floats) (text : Bytes) :
    Except ConfigErrorInfo Unit × ConfigState floats :=
  match JsonReader.read std {} text with
  | .error e =>
    (.error { code := .parseFailed
              message := encode "JSON 解析失败: ".toList ++ stopMessage e
              keys := [] }, s)
  | .ok (.object members) =>
    let (s, failed) := (s.applyList members).foldl applyMember (s.putOff members, [])
    if failed = [] then (.ok (), s)
    else
      (.error { code := .typeMismatch
                message := toChars 10 failed.length ++ encode " 个配置项应用失败: ".toList ++
                  joinKeys failed
                keys := failed }, s)
  | .ok _ =>
    (.error { code := .rootNotObject, message := encode "配置顶层必须是 JSON object".toList, keys := [] },
      s)

def clear (s : ConfigState floats) : ConfigState floats := { s with vars := ∅, pending := ∅ }

/-! ## One name -/

end ConfigState

/-- The values of the members of a name. -/
def valuesOf (name : Bytes) (members : Members) : List JsonValue :=
  (members.filter (·.1 = name)).map (·.2)

/-- The document that a load applies. -/
def documentOf (text : Bytes) : Option Members :=
  match JsonReader.read std {} text with
  | .ok (.object members) => some members
  | _ => none

/-- A variable after a value was applied, if it converts. -/
def Var.apply (var : Var floats) (value : JsonValue) : Var floats :=
  match var.setFromJson value with
  | .error _ => var
  | .ok (var, _) => var

/-- What a value converts to, if it does. -/
def convert (t : Ty) (value : JsonValue) : Option (t.Val floats) :=
  match JsonCast.fromJson floats t value with
  | .error _ => none
  | .ok converted => some converted

/-- What the registry has for a name. -/
inductive Slot (floats : Floats)
  | unclaimed
  | pending (document : Members)
  | registered (var : Var floats)

namespace Slot

/-- A document that has the name is applied, or put off. -/
def load (name : Bytes) (document : Members) : Slot floats → Slot floats
  | .registered var => .registered ((valuesOf name document).foldl Var.apply var)
  | slot => if valuesOf name document = [] then slot else .pending document

/-- The value a lookup starts with. -/
def materialize (t : Ty) (name : Bytes) (defaultValue : t.Val floats) (document : Option Members) :
    t.Val floats :=
  ((document.bind (find · name)).bind (convert t)).getD defaultValue

def lookup (t : Ty) (name : Bytes) (defaultValue : t.Val floats) : Slot floats → Slot floats
  | .registered var => .registered var
  | .pending document => .registered ⟨t, materialize t name defaultValue (some document)⟩
  | .unclaimed => .registered ⟨t, defaultValue⟩

end Slot

namespace ConfigState

/-- What the registry has for a name. -/
def slot (s : ConfigState floats) (name : Bytes) : Slot floats :=
  match s.vars.lookup name with
  | some var => .registered var
  | none =>
    match s.pending.lookup name with
    | some document => .pending document
    | none => .unclaimed

variable {s : ConfigState floats} {name : Bytes}

/-! ### Lookups -/

theorem initValue_eq (t : Ty) (defaultValue : t.Val floats) :
    s.initValue t name defaultValue = Slot.materialize t name defaultValue
      (s.pending.lookup name) := by
  unfold initValue Slot.materialize
  cases (s.pending.lookup name).bind (find · name) with
  | none => rfl
  | some loaded =>
    dsimp only [Option.bind_some, convert]
    cases JsonCast.fromJson floats t loaded <;> rfl

theorem slot_lookup (t : Ty) (defaultValue : t.Val floats) :
    (s.lookup t name defaultValue).2.slot name = (s.slot name).lookup t name defaultValue := by
  unfold lookup slot
  cases hvar : s.vars.lookup name with
  | some var =>
    dsimp only
    rw [hvar]
    rfl
  | none =>
    dsimp only
    rw [Finmap.lookup_insert, initValue_eq]
    cases s.pending.lookup name <;> rfl

/-- A lookup of another name. -/
theorem slot_lookup_of_ne {other : Bytes} (hne : name ≠ other) (t : Ty)
    (defaultValue : t.Val floats) :
    (s.lookup t other defaultValue).2.slot name = s.slot name := by
  unfold lookup
  cases s.vars.lookup other with
  | some var => rfl
  | none =>
    unfold slot
    dsimp only
    rw [Finmap.lookup_insert_of_ne _ hne, Finmap.lookup_erase_ne hne]

/-! ### Loads -/

theorem lookup_putOff (s : ConfigState floats) (name : Bytes) (members : Members) :
    (s.putOff members).pending.lookup name =
      if (s.vars.lookup name).isSome ∨ valuesOf name members = [] then s.pending.lookup name
      else some members := by
  have hfold (rest : Members) (pending : Dict Members) :
      (rest.foldl (fun (pending : Dict Members) member =>
        if (s.vars.lookup member.1).isSome then pending else pending.insert member.1 members)
          pending).lookup
          name =
        if (s.vars.lookup name).isSome ∨ valuesOf name rest = [] then pending.lookup name
        else some members := by
    induction rest generalizing pending with
    | nil => rw [if_pos (.inr rfl), List.foldl_nil]
    | cons member rest ih =>
      rw [List.foldl_cons, ih]
      by_cases hname : member.1 = name
      · by_cases hvar : (s.vars.lookup name).isSome = true
        · rw [hname, if_pos hvar, if_pos (.inl hvar), if_pos (.inl hvar)]
        · rw [hname, if_neg hvar, Finmap.lookup_insert,
            if_neg (c := _ ∨ valuesOf name (member :: rest) = [])]
          · split_ifs <;> rfl
          · rintro (hsome | hnil)
            · exact hvar hsome
            · simp [valuesOf, hname] at hnil
      · have hvalues : valuesOf name (member :: rest) = valuesOf name rest := by
          simp [valuesOf, hname]
        rw [hvalues]
        split_ifs
        all_goals first
          | rfl
          | rw [Finmap.lookup_insert_of_ne _ (Ne.symm hname)]
  exact hfold members s.pending

theorem valuesOf_applyList {members : Members} (h : (s.vars.lookup name).isSome = true) :
    valuesOf name (s.applyList members) = valuesOf name members := by
  unfold valuesOf applyList
  rw [List.filter_filter]
  refine congrArg _ (List.filter_congr fun member _ => ?_)
  by_cases hname : member.1 = name
  · rw [hname, h, Bool.and_true]
  · simp [hname]

/-- What one entry of the apply list does to a name. -/
theorem lookup_applyMember (r : ConfigState floats × List Bytes) (member : Bytes × JsonValue) :
    (applyMember r member).1.vars.lookup name =
        (if member.1 = name then (r.1.vars.lookup name).map (·.apply member.2)
          else r.1.vars.lookup name) ∧
      (applyMember r member).1.pending = r.1.pending := by
  unfold applyMember
  cases hvar : r.1.vars.lookup member.1 with
  | none =>
    refine ⟨?_, rfl⟩
    split_ifs with hname
    · rw [← hname, hvar]
      rfl
    · rfl
  | some var =>
    dsimp only
    cases hset : var.setFromJson member.2 with
    | error e =>
      refine ⟨?_, rfl⟩
      split_ifs with hname
      · rw [← hname, hvar, Option.map_some, Var.apply, hset]
      · rfl
    | ok result =>
      refine ⟨?_, rfl⟩
      dsimp only
      split_ifs with hname
      · rw [← hname, Finmap.lookup_insert, hvar, Option.map_some, Var.apply, hset]
      · rw [Finmap.lookup_insert_of_ne _ (Ne.symm hname)]

/-- **What the apply list does to a name**: the values of the name are applied one after the other.
-/
theorem lookup_applyMembers (r : ConfigState floats × List Bytes) (members : Members) :
    (members.foldl applyMember r).1.vars.lookup name =
        (r.1.vars.lookup name).map (fun var => (valuesOf name members).foldl Var.apply var) ∧
      (members.foldl applyMember r).1.pending = r.1.pending := by
  induction members generalizing r with
  | nil => exact ⟨Option.map_id'.symm, rfl⟩
  | cons member members ih =>
    obtain ⟨hvar, hpending⟩ := ih (applyMember r member)
    obtain ⟨hone, hsame⟩ := lookup_applyMember r member
    rw [List.foldl_cons]
    refine ⟨?_, hpending.trans hsame⟩
    rw [hvar, hone]
    by_cases hname : member.1 = name
    · have hvalues : valuesOf name (member :: members) = member.2 :: valuesOf name members := by
        simp [valuesOf, hname]
      rw [if_pos hname, hvalues, Option.map_map]
      rfl
    · have hvalues : valuesOf name (member :: members) = valuesOf name members := by
        simp [valuesOf, hname]
      rw [if_neg hname, hvalues]

variable {std} {text : Bytes} {members : Members}

theorem load_of_document (h : documentOf std text = some members) :
    (s.load std text).2 = ((s.applyList members).foldl applyMember (s.putOff members, [])).1 := by
  unfold documentOf at h
  unfold load
  split at h
  · next members' hread =>
    cases h
    rw [hread]
    dsimp only
    split_ifs <;> rfl
  · cases h

/-- A text that is refused changes nothing. -/
theorem load_of_refused (h : documentOf std text = none) : (s.load std text).2 = s := by
  unfold documentOf at h
  unfold load
  split at h
  · cases h
  · next hroot =>
    split
    · rfl
    · next members hread => exact absurd hread (hroot members)
    · rfl

/-- **What a load does to a name.** -/
theorem slot_load (h : documentOf std text = some members) :
    (s.load std text).2.slot name = (s.slot name).load name members := by
  obtain ⟨hvar, hpending⟩ := lookup_applyMembers (s.putOff members, [])
    (s.applyList members)
  rw [load_of_document h]
  unfold slot
  rw [hvar, hpending, lookup_putOff, show (s.putOff members).vars = s.vars from rfl]
  cases hlookup : s.vars.lookup name with
  | some var =>
    rw [valuesOf_applyList (by rw [hlookup]; rfl)]
    rfl
  | none =>
    by_cases hvalues : valuesOf name members = []
    · rw [if_pos (.inr hvalues)]
      cases s.pending.lookup name with
      | none => exact (if_pos hvalues).symm
      | some document => exact (if_pos hvalues).symm
    · rw [if_neg (by simp [hvalues])]
      cases s.pending.lookup name with
      | none => exact (if_neg hvalues).symm
      | some document => exact (if_neg hvalues).symm

/-! ### Registered or pending -/

/-- No name is both. -/
def Separate (s : ConfigState floats) : Prop := ∀ name ∈ s.vars, name ∉ s.pending

theorem Separate.lookup (h : s.Separate) (t : Ty) (other : Bytes) (defaultValue : t.Val floats) :
    (s.lookup t other defaultValue).2.Separate := by
  unfold ConfigState.lookup
  cases s.vars.lookup other with
  | some var => exact h
  | none =>
    intro name hvar hpending
    obtain ⟨hne, hpending⟩ := Finmap.mem_erase.mp hpending
    rcases Finmap.mem_insert.mp hvar with rfl | hvar
    · exact hne rfl
    · exact h name hvar hpending

theorem Separate.load (h : s.Separate) (text : Bytes) : (s.load std text).2.Separate := by
  cases hdocument : documentOf std text with
  | none =>
    rw [load_of_refused hdocument]
    exact h
  | some members =>
    intro name hvar hmem
    rw [load_of_document hdocument] at hvar hmem
    obtain ⟨hlookup, hpending⟩ := lookup_applyMembers (s.putOff members, [])
      (s.applyList members)
    obtain ⟨var, hvar⟩ := Finmap.mem_iff.mp hvar
    rw [hlookup] at hvar
    obtain ⟨old, hold, -⟩ := Option.map_eq_some_iff.mp hvar
    obtain ⟨document, hdocument⟩ := Finmap.mem_iff.mp hmem
    rw [hpending, lookup_putOff, if_pos (.inl (by rw [show s.vars.lookup name = _ from hold]; rfl))]
      at hdocument
    exact h name (Finmap.mem_of_lookup_eq_some hold) (Finmap.mem_of_lookup_eq_some hdocument)

end ConfigState

end Libca.Config
