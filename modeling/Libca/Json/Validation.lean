import Libca.Json.Violations

/-!
# Validation is sound and complete (`json/json_schema.cpp`)

* `validateNode_eq`: **the walk over both trees is a walk along the positions.**
* `validate_eq_report`: `validate` reports the first flaw, or one error for each violation, as
  doubles compare.
* `Satisfies`: a document satisfies a schema. `validate_sound_complete`: **for integers that are
  doubles the errors are those of the numbers themselves**, and there is none if and only if the
  document satisfies the schema.
-/

namespace Libca.Json

open Common Str JsonValue

/-! ## The walk -/

/-- The checks at a position. -/
noncomputable def Visit.check (errors : List ValidationError) (v : Visit) :
    Except SchemaError (List ValidationError) :=
  report v.schemaErrors (errors ++ v.validationErrors .converted)

theorem pointer_append_singleton (segments : List Bytes) (s : Bytes) :
    pointer (segments ++ [s]) = joinPath (pointer segments) s := by
  simp [pointer, joinPath]

section Node

variable {place : List Segment} {steps : List SchemaStep} {doc : JsonValue}
    {fields keywords : ObjectStorage}
  {errors : List ValidationError}

/-- At a position of an object, `properties` is looked at last. -/
theorem check_object :
    Visit.check errors ⟨place, steps, .object fields, .object keywords⟩ =
      checkNode (.object fields) keywords (pointer (place.map Segment.text))
        (pointer (steps.map SchemaStep.text))
          errors >>= fun errors =>
        report ((propertiesFlaws keywords).map (Flaw.error (pointer (steps.map SchemaStep.text))))
          errors := by
  rw [checkNode_eq, report_bind _ _ _ fun errors => errors, ← List.map_append, List.append_assoc]
  rfl

theorem check_other (h : ∀ fields, doc ≠ .object fields) :
    Visit.check errors ⟨place, steps, doc, .object keywords⟩ =
      checkNode doc keywords (pointer (place.map Segment.text))
        (pointer (steps.map SchemaStep.text)) errors := by
  rw [checkNode_eq]
  cases doc with
  | object fields => exact absurd rfl (h fields)
  | _ => rfl

end Node

/-- The walk from one node on, for one schema. -/
def Walks (schema : JsonValue) : Prop :=
  ∀ (place : List Segment) (steps : List SchemaStep) (doc : JsonValue) (errors : List ValidationError),
    validateNode doc schema (pointer (place.map Segment.text)) (pointer (steps.map SchemaStep.text))
      errors = (visits place steps doc schema).foldlM Visit.check errors

section Loops

variable {place : List Segment} {steps : List SchemaStep} {fields props : ObjectStorage}
    {arr : List JsonValue}
  {items : JsonValue}

theorem validateProperties_eq (hwalks : ∀ m ∈ props, Walks m.2) (errors : List ValidationError) :
    validateProperties fields props (pointer (place.map Segment.text))
      (pointer (steps.map SchemaStep.text)) errors =
      (propertyVisits place steps fields props).foldlM Visit.check errors := by
  induction props generalizing errors with
  | nil =>
    rw [validateProperties, propertyVisits]
    rfl
  | cons m props ih =>
    have hrest := ih fun m hm => hwalks m (.tail _ hm)
    rw [validateProperties.eq_def, propertyVisits, List.foldlM_append]
    cases hfield : find fields m.1 with
    | none =>
      simp only [hfield]
      exact hrest errors
    | some field =>
      have hnode := hwalks m (.head _) (place ++ [Segment.key m.1])
        (steps ++ [SchemaStep.property m.1]) field errors
      rw [List.map_append, List.map_append, List.map_singleton, List.map_singleton,
        pointer_append_singleton, pointer_append_singleton] at hnode
      simp only [hfield]
      rw [← hnode]
      exact bind_congr hrest

theorem validateItems_eq (hwalks : Walks items) (i : Nat) (errors : List ValidationError) :
    validateItems i arr items (pointer (place.map Segment.text))
      (pointer (steps.map SchemaStep.text)) errors =
      (itemVisits place steps i arr items).foldlM Visit.check errors := by
  induction arr generalizing i errors with
  | nil =>
    rw [validateItems, itemVisits]
    rfl
  | cons v arr ih =>
    have hnode := hwalks (place ++ [Segment.index i]) (steps ++ [SchemaStep.items]) v errors
    rw [List.map_append, List.map_append, List.map_singleton, List.map_singleton,
      pointer_append_singleton, pointer_append_singleton] at hnode
    rw [validateItems, itemVisits, List.foldlM_append, ← hnode]
    exact bind_congr (ih (i + 1))

end Loops

/-- **The walk over both trees is a walk along the positions.** -/
theorem validateNode_eq (n : Nat) : ∀ schema : JsonValue, sizeOf schema < n → Walks schema := by
  induction n with
  | zero => exact fun schema h => absurd h (Nat.not_lt_zero _)
  | succ n ih =>
    intro schema hsize place steps doc errors
    rw [validateNode.eq_def, visits.eq_def, List.foldlM_cons]
    cases schema with
    | object keywords =>
      cases doc with
      | object fields =>
        rw [check_object, bind_assoc]
        refine bind_congr fun errors => ?_
        dsimp only
        cases hprops : find keywords (ascii "properties") with
        | none =>
          rw [propertiesFlaws, hprops]
          rfl
        | some p =>
          have hlt := sizeOf_lt_of_find hprops
          cases p with
          | object props =>
            have hwalks : ∀ m ∈ props, Walks m.2 := by
              intro m hm
              refine ih m.2 ?_
              have hmember := List.sizeOf_lt_of_mem hm
              have hpair : sizeOf m = 1 + sizeOf m.1 + sizeOf m.2 := by cases m; simp
              simp only [JsonValue.object.sizeOf_spec] at hsize hlt
              omega
            rw [propertiesFlaws, hprops]
            exact validateProperties_eq hwalks errors
          | _ =>
            rw [propertiesFlaws, hprops]
            rfl
      | array arr =>
        rw [check_other (by simp)]
        refine bind_congr fun errors => ?_
        dsimp only
        cases hitems : find keywords (ascii "items") with
        | none => rfl
        | some items =>
          have hlt := sizeOf_lt_of_find hitems
          simp only [JsonValue.object.sizeOf_spec] at hsize
          exact validateItems_eq (ih items (by omega)) 0 errors
      | _ =>
        rw [check_other (by simp)]
        rfl
    | _ => rfl

/-! ## The result -/

/-- **A document satisfies a schema**: there is no violation at any position, and no flaw. -/
def Satisfies (doc schema : JsonValue) : Prop :=
  ∀ v ∈ visits [] [] doc schema, ∃ keywords, v.schema = .object keywords ∧ flaws v.doc v.schema =
    [] ∧ ∀ k, ¬ Violated .exact v.doc keywords k

/-- Integers have less than 54 bits, so that they are doubles, and the length of a string is an
`i64`. -/
def JsonValue.Exact : JsonValue → Prop :=
  Everywhere fun v =>
    match v with
    | .int n => n.toInt.natAbs < 2 ^ 53
    | .string s => countCodePoints s < 2 ^ 63
    | _ => True

variable {document schema : JsonValue} {m : Measure}

/-- **`validate` reports the first flaw, or one error for each violation**, in depth-first order,
where numbers are compared as doubles. -/
theorem validate_eq_report (document schema : JsonValue) : validate document schema =
    report ((visits [] [] document schema).flatMap Visit.schemaErrors)
      ((visits [] [] document schema).flatMap (Visit.validationErrors .converted)) :=
  (validateNode_eq _ schema (Nat.lt_succ_self _) [] [] document []).trans
    (foldlM_report (fun _ _ _ => rfl) [])

/-! ### Measures -/

theorem measure_number {v : JsonValue} (h : v.Exact) :
    Measure.converted.number v = Measure.exact.number v := by
  cases v with
  | int n =>
    refine (number_converted rfl).trans ?_
    rw [F64.number, F64.isNan_ofInt64, F64.units_ofInt64 h]
    rfl
  | float d => exact number_converted rfl
  | _ => rfl

theorem measure_length {s : Bytes} (h : (JsonValue.string s).Exact) :
    Measure.converted.length s = Measure.exact.length s := by
  have hlt : countCodePoints s < 2 ^ 63 := h
  exact Int64.toInt_ofNat_of_lt hlt

theorem exact_of_find {members : ObjectStorage} {key : Bytes} {v : JsonValue}
    (hexact : (JsonValue.object members).Exact) (h : find members key = some v) : v.Exact :=
  (everywhere_object.mp hexact).2 _ (mem_of_firstOf h)

/-- For exact values the measures agree. -/
theorem violated_converted_iff {doc : JsonValue} {keywords : ObjectStorage} (hdoc : doc.Exact)
    (hkeywords : (JsonValue.object keywords).Exact) (k : Violation) :
    Violated .converted doc keywords k ↔ Violated .exact doc keywords k := by
  have hbelow {a b : JsonValue} (ha : a.Exact) (hb : b.Exact) :
      Below .converted a b ↔ Below .exact a b := by
    rw [Below, Below, measure_number ha, measure_number hb]
  cases k with
  | minimum =>
    exact exists_congr fun limit => and_congr_right fun h => hbelow hdoc (exact_of_find hkeywords h)
  | maximum =>
    exact exists_congr fun limit => and_congr_right fun h => hbelow (exact_of_find hkeywords h) hdoc
  | minLength =>
    refine exists_congr fun s => exists_congr fun limit => and_congr_right fun hs =>
      and_congr_right fun _ => ?_
    rw [measure_length (hs ▸ hdoc)]
  | maxLength =>
    refine exists_congr fun s => exists_congr fun limit => and_congr_right fun hs =>
      and_congr_right fun _ => ?_
    rw [measure_length (hs ▸ hdoc)]
  | _ => exact Iff.rfl

/-- What is violated is among what is looked at. -/
theorem mem_candidates {doc : JsonValue} {keywords : ObjectStorage} {k : Violation}
    (h : Violated m doc keywords k) :
    k ∈ candidates keywords := by
  unfold candidates
  rw [List.mem_append]
  cases k with
  | required name =>
    obtain ⟨fields, names, -, hrequired, hmem, -⟩ := h
    refine .inr (List.mem_map.mpr ⟨name, ?_, rfl⟩)
    rw [requiredNames, hrequired]
    exact mem_namesIn.mpr hmem
  | _ => exact .inl (by simp)

theorem violations_eq_nil {doc : JsonValue} {keywords : ObjectStorage} :
    violations m doc keywords = [] ↔ ∀ k, ¬ Violated m doc keywords k := by
  unfold violations
  rw [List.filter_eq_nil_iff]
  constructor
  · exact fun h k hk => h k (mem_candidates hk) (by simpa using hk)
  · exact fun h k _ hk => h k (by simpa using hk)

variable {v : Visit}

/-- There is nothing to report at a position. -/
theorem visit_clean_iff : v.schemaErrors = [] ∧ v.validationErrors m = [] ↔
    ∃ keywords, v.schema = .object keywords ∧ flaws v.doc v.schema = [] ∧ ∀ k,
      ¬ Violated m v.doc keywords k := by
  unfold Visit.schemaErrors Visit.validationErrors
  rw [List.map_eq_nil_iff]
  cases hschema : v.schema with
  | object keywords =>
    simp only [List.map_eq_nil_iff, violations_eq_nil]
    exact ⟨fun h => ⟨keywords, rfl, h⟩, fun ⟨_, heq, h⟩ => by rwa [← JsonValue.object.inj heq] at h⟩
  | _ =>
    refine iff_of_false (fun h => ?_) fun ⟨_, heq, _⟩ => ?_
    · cases h.1
    · cases heq

/-- Exact trees have exact values at all positions. -/
theorem exact_of_mem_visits (hdoc : document.Exact) (hschema : schema.Exact)
    (h : v ∈ visits [] [] document schema) : v.doc.Exact ∧ v.schema.Exact := by
  have hreach := (mem_visits_iff _ ⟨[], [], document, schema⟩ (Nat.lt_succ_self _)).mp h
  clear h
  induction hreach with
  | refl => exact ⟨hdoc, hschema⟩
  | tail _ hchild ih =>
    cases hchild with
    | property hprops hmem hfield =>
      exact ⟨exact_of_find ih.1 hfield, (everywhere_object.mp (exact_of_find ih.2 hprops)).2 _ hmem⟩
    | item hitems hv =>
      exact ⟨(everywhere_array.mp ih.1).2 _ (List.mem_of_getElem? hv), exact_of_find ih.2 hitems⟩

theorem validationErrors_converted (hdoc : v.doc.Exact) (hschema : v.schema.Exact) :
    v.validationErrors .converted = v.validationErrors .exact := by
  unfold Visit.validationErrors
  cases hkeywords : v.schema with
  | object keywords =>
    rw [hkeywords] at hschema
    have hviolated := violated_converted_iff hdoc hschema
    refine congrArg (List.map _) (List.filter_congr fun k _ => ?_)
    rw [decide_eq_decide]
    exact hviolated k
  | _ => rfl

/-- **`validate` is sound and complete**: it reports the first flaw of a schema that is reached, or
one error for each violation, and nothing exactly when the document satisfies the schema. -/
theorem validate_sound_complete (hdoc : document.Exact) (hschema : schema.Exact) :
    validate document schema =
        report ((visits [] [] document schema).flatMap Visit.schemaErrors)
          ((visits [] [] document schema).flatMap (Visit.validationErrors .exact)) ∧
      (validate document schema = .ok [] ↔ Satisfies document schema) := by
  have hreport : validate document schema =
      report ((visits [] [] document schema).flatMap Visit.schemaErrors)
        ((visits [] [] document schema).flatMap (Visit.validationErrors .exact)) := by
    rw [validate_eq_report]
    refine congrArg _ (List.flatMap_congr fun v hv => ?_)
    obtain ⟨hdoc', hschema'⟩ := exact_of_mem_visits hdoc hschema hv
    exact validationErrors_converted hdoc' hschema'
  refine ⟨hreport, ?_⟩
  rw [hreport, report_eq_ok, List.flatMap_eq_nil_iff, List.flatMap_eq_nil_iff, ← forall₂_and]
  exact forall₂_congr fun v _ => visit_clean_iff

/-- An object that misses a member, and another that is no integer. -/
theorem validate_sound_complete_object :
    let document := JsonValue.object [(ascii "a", .string (ascii "x"))]
    let schema := JsonValue.object [(ascii "required", .array [.string (ascii "b")]),
      (ascii "properties",
        .object [(ascii "a", .object [(ascii "type", .string (ascii "integer"))])])]
    validate document schema =
        report ((visits [] [] document schema).flatMap Visit.schemaErrors)
          ((visits [] [] document schema).flatMap (Visit.validationErrors .exact)) ∧
      (validate document schema = .ok [] ↔ Satisfies document schema) := by
  refine validate_sound_complete ?_ ?_
  · simp [JsonValue.Exact, JsonValue.Everywhere, MembersEverywhere]
    decide
  · simp [JsonValue.Exact, JsonValue.Everywhere, MembersEverywhere, ItemsEverywhere]
    decide

/-- `required` is not looked at for a document that is no object. -/
theorem not_every_schema_refused :
    ¬ ∀ (document : JsonValue) (keywords : ObjectStorage) (r : JsonValue),
    document.Distinct → (JsonValue.object keywords).Distinct → document.Exact →
      (JsonValue.object keywords).Exact →
      find keywords (ascii "required") = some r → (∀ names, r ≠ .array names) →
        ∃ e, validate document (.object keywords) = .error e := by
  intro h
  have hexact {n : Int64} (hn : n.toInt.natAbs < 2 ^ 53) : (JsonValue.int n).Exact := hn
  obtain ⟨e, he⟩ := h (.int 5) [(ascii "required", .int 3)] (.int 3) trivial ⟨by decide, trivial,
    trivial⟩
    (hexact (by decide)) ⟨trivial, hexact (by decide), trivial⟩ rfl nofun
  have hok : validate (.int 5) (.object [(ascii "required", .int 3)]) = .ok [] := by
    simp [validate, validateNode, checkNode, applyType, applyConst, applyEnum, checkNumericBounds,
      checkStringBounds, find, firstOf, toDouble]
    decide
  rw [hok] at he
  cases he

end Libca.Json
