import Libca.Json.Schema

/-!
# The positions of a document that a schema reaches (`json/json_schema.cpp`)

A member of a document is reached through `properties`, an element through `items`.

* `visits`: the positions, in depth-first order, with the steps to both values.
* `mem_visits_iff`: **they are those that steps lead to.**
-/

namespace Libca.Json

open Common JsonValue

/-! ## Steps -/

/-- A step to a member or an element. -/
inductive Segment where
  | key (name : Bytes)
  | index (i : Nat)
  deriving DecidableEq

/-- A step to a schema inside a schema. -/
inductive SchemaStep where
  | property (name : Bytes)
  | items
  deriving DecidableEq

/-- What is written for a step in a document. -/
def Segment.text : Segment → Bytes
  | .key name => name
  | .index i => toChars 10 i

/-- What is written for a step in a schema. -/
def SchemaStep.text : SchemaStep → Bytes
  | .property name => name
  | .items => ascii "items"

/-- Segments behind a slash each. -/
def pointer (segments : List Bytes) : Bytes := segments.flatMap (47 :: ·)

/-- A value of the document, the schema for it, and the steps to both. -/
structure Visit where
  place : List Segment
  steps : List SchemaStep
  doc : JsonValue
  schema : JsonValue

namespace Visit

/-- The path of the document that is written. -/
def instancePath (v : Visit) : Bytes := pointer (v.place.map Segment.text)

/-- The path of the schema that is written. -/
def schemaPath (v : Visit) : Bytes := pointer (v.steps.map SchemaStep.text)

end Visit

mutual

/-- The positions of a document that a schema reaches. -/
def visits (place : List Segment) (steps : List SchemaStep) (doc schema : JsonValue) : List Visit :=
  ⟨place, steps, doc, schema⟩ ::
    match schema with
    | .object keywords =>
      match doc with
      | .object fields =>
        match _hprops : find keywords (ascii "properties") with
        | some (.object props) => propertyVisits place steps fields props
        | _ => []
      | .array arr =>
        match _hitems : find keywords (ascii "items") with
        | some items => itemVisits place steps 0 arr items
        | none => []
      | _ => []
    | _ => []
  termination_by (sizeOf schema, 0)
  decreasing_by
    · have hlt := sizeOf_lt_of_find _hprops
      simp only [JsonValue.object.sizeOf_spec] at hlt ⊢
      exact Prod.Lex.left _ _ (by omega)
    · have hlt := sizeOf_lt_of_find _hitems
      simp only [JsonValue.object.sizeOf_spec]
      exact Prod.Lex.left _ _ (by omega)

/-- Those in the members that `properties` names. -/
def propertyVisits (place : List Segment) (steps : List SchemaStep) (fields props : ObjectStorage) :
    List Visit :=
  match props with
  | [] => []
  | (name, subSchema) :: props =>
    (match find fields name with
      | some field => visits (place ++ [.key name]) (steps ++ [.property name]) field subSchema
      | none => []) ++ propertyVisits place steps fields props
  termination_by (sizeOf props, 0)

/-- Those in the elements, from the position `i` on. -/
def itemVisits (place : List Segment) (steps : List SchemaStep) (i : Nat) (arr : List JsonValue)
    (items : JsonValue) : List Visit :=
  match arr with
  | [] => []
  | v :: arr => visits (place ++ [.index i]) (steps ++ [.items]) v items ++ itemVisits place steps
    (i + 1) arr items
  termination_by (sizeOf items, arr.length + 1)

end

/-- **A step from one position to the next**: to a member that `properties` names, or to an element.
-/
inductive Child : Visit → Visit → Prop
  | property {place : List Segment} {steps : List SchemaStep}
    {fields keywords props : ObjectStorage} {name : Bytes}
      {field subSchema : JsonValue} : find keywords (ascii "properties") = some (.object props) →
      (name, subSchema) ∈ props → find fields name = some field →
      Child ⟨place, steps, .object fields, .object keywords⟩
        ⟨place ++ [.key name], steps ++ [.property name], field, subSchema⟩
  | item {place : List Segment} {steps : List SchemaStep} {arr : List JsonValue}
    {keywords : ObjectStorage} {i : Nat}
      {v items : JsonValue} : find keywords (ascii "items") = some items → arr[i]? = some v →
      Child ⟨place, steps, .array arr, .object keywords⟩ ⟨place ++ [.index i], steps ++ [.items], v,
      items⟩

section Positions

variable {place : List Segment} {steps : List SchemaStep} {u : Visit}

theorem mem_propertyVisits {fields props : ObjectStorage} :
    u ∈ propertyVisits place steps fields props ↔
    ∃ name subSchema field, (name, subSchema) ∈ props ∧ find fields name = some field ∧
      u ∈ visits (place ++ [.key name]) (steps ++ [.property name]) field subSchema := by
  induction props with
  | nil => simp [propertyVisits]
  | cons m props ih =>
    rw [propertyVisits, List.mem_append, ih]
    constructor
    · rintro (h | ⟨name, subSchema, field, hmem, hfield, h⟩)
      · cases hfield : find fields m.1 with
        | none =>
          rw [hfield] at h
          cases h
        | some field =>
          rw [hfield] at h
          exact ⟨m.1, m.2, field, .head _, hfield, h⟩
      · exact ⟨name, subSchema, field, .tail _ hmem, hfield, h⟩
    · rintro ⟨name, subSchema, field, hmem, hfield, h⟩
      rcases List.mem_cons.mp hmem with rfl | hmem
      · rw [hfield]
        exact .inl h
      · exact .inr ⟨name, subSchema, field, hmem, hfield, h⟩

theorem mem_itemVisits {i : Nat} {arr : List JsonValue} {items : JsonValue} :
    u ∈ itemVisits place steps i arr items ↔
      ∃ j v, arr[j]? = some v ∧
        u ∈ visits (place ++ [.index (i + j)]) (steps ++ [.items]) v items := by
  induction arr generalizing i with
  | nil => simp [itemVisits]
  | cons w arr ih =>
    rw [itemVisits, List.mem_append, ih]
    constructor
    · rintro (h | ⟨j, v, hv, h⟩)
      · exact ⟨0, w, rfl, h⟩
      · refine ⟨j + 1, v, hv, ?_⟩
        rwa [Nat.add_right_comm] at h
    · rintro ⟨j, v, hv, h⟩
      cases j with
      | zero =>
        cases hv
        exact .inl h
      | succ j =>
        refine .inr ⟨j, v, hv, ?_⟩
        rwa [Nat.add_right_comm]

/-- The first position, or one behind a step. -/
theorem mem_visits {doc schema : JsonValue} : u ∈ visits place steps doc schema ↔
    u = ⟨place, steps, doc, schema⟩ ∨
      ∃ c, Child ⟨place, steps, doc, schema⟩ c ∧ u ∈ visits c.place c.steps c.doc c.schema := by
  rw [visits.eq_def, List.mem_cons]
  refine or_congr_right ?_
  constructor
  · intro h
    cases schema with
    | object keywords =>
      cases doc with
      | object fields =>
        dsimp only at h
        cases hprops : find keywords (ascii "properties") with
        | none =>
          rw [hprops] at h
          cases h
        | some p =>
          rw [hprops] at h
          cases p with
          | object props =>
            obtain ⟨name, subSchema, field, hmem, hfield, h⟩ := mem_propertyVisits.mp h
            exact ⟨_, .property hprops hmem hfield, h⟩
          | _ => cases h
      | array arr =>
        dsimp only at h
        cases hitems : find keywords (ascii "items") with
        | none =>
          rw [hitems] at h
          cases h
        | some items =>
          rw [hitems] at h
          obtain ⟨j, v, hv, h⟩ := mem_itemVisits.mp h
          rw [Nat.zero_add] at h
          exact ⟨_, .item hitems hv, h⟩
      | _ => cases h
    | _ => cases h
  · rintro ⟨c, hchild, h⟩
    cases hchild with
    | property hprops hmem hfield =>
      dsimp only
      rw [hprops]
      exact mem_propertyVisits.mpr ⟨_, _, _, hmem, hfield, h⟩
    | item hitems hv =>
      dsimp only
      rw [hitems]
      refine mem_itemVisits.mpr ⟨_, _, hv, ?_⟩
      rwa [Nat.zero_add]

theorem Child.sizeOf_lt {v c : Visit} (h : Child v c) : sizeOf c.schema < sizeOf v.schema := by
  cases h with
  | property hprops hmem _ =>
    have hlt := sizeOf_lt_of_find hprops
    have hmember := List.sizeOf_lt_of_mem hmem
    simp only [Prod.mk.sizeOf_spec, JsonValue.object.sizeOf_spec] at hlt hmember ⊢
    omega
  | item hitems _ =>
    have hlt := sizeOf_lt_of_find hitems
    simp only [JsonValue.object.sizeOf_spec]
    omega

/-- **The positions are those that steps lead to.** -/
theorem mem_visits_iff (n : Nat) : ∀ v : Visit, sizeOf v.schema < n →
    (u ∈ visits v.place v.steps v.doc v.schema ↔ Relation.ReflTransGen Child v u) := by
  induction n with
  | zero => exact fun v h => absurd h (Nat.not_lt_zero _)
  | succ n ih =>
    intro v hsize
    rw [mem_visits, Relation.ReflTransGen.cases_head_iff, eq_comm]
    refine or_congr_right (exists_congr fun c => and_congr_right fun hchild => ih c ?_)
    have hlt : sizeOf c.schema < sizeOf v.schema := hchild.sizeOf_lt
    omega

end Positions

end Libca.Json
