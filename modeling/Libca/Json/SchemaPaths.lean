import Libca.Json.Validation

/-!
# The paths of validation errors (`json/json_schema.cpp`)

* `segmentsOf`, `follow`: a path is followed segment by segment, by member names and array indices.
* `follow_place`: **the path of the document leads to the value that failed.**
* `Placed.leadsTo_keyword_iff`: the path of the schema leads to the keyword only when no step to it
  went through `properties`, which the path does not mention.
* `pathsLead_iff`: **the paths of all errors lead to where they should exactly when the violations,
  or the first flaw, are in schemas that are reached through `items` alone.**
-/

namespace Libca.Json

open Common JsonValue

/-! ## Following a path -/

/-- The segments of a path. -/
def segmentsOf (path : Bytes) : List Bytes := (path.splitOn 47).tail

/-- A step to a member, or to the element with a decimal index. -/
def follow1 (v : JsonValue) (segment : Bytes) : Option JsonValue :=
  match v with
  | .object members => find members segment
  | .array items => if toChars 10 (ofChars 10 segment) = segment then items[ofChars 10 segment]?
  else none
  | _ => none

/-- The value that segments lead to. -/
def follow (v : JsonValue) (segments : List Bytes) : Option JsonValue := segments.foldlM follow1 v

/-- A path leads to a value by the given segments. -/
structure LeadsTo (root : JsonValue) (path : Bytes) (segments : List Bytes) (v : JsonValue) :
    Prop where
  segmentsOf_eq : segmentsOf path = segments
  follow_eq : follow root segments = some v

/-- The segments of a step to a schema in a schema. -/
def SchemaStep.segments : SchemaStep → List Bytes
  | .property name => [ascii "properties", name]
  | .items => [ascii "items"]

/-- Where a value is in the document. -/
def Visit.docPlace (v : Visit) : List Bytes := v.place.map Segment.text

/-- Where a schema is in the schema. -/
def Visit.schemaPlace (v : Visit) : List Bytes := v.steps.flatMap SchemaStep.segments

/-- A schema that is reached through `items` alone. -/
def Visit.ItemsOnly (v : Visit) : Prop := ∀ s ∈ v.steps, s = .items

/-- Keys contain neither `'/'` nor `'~'`. -/
def JsonValue.PlainKeys : JsonValue → Prop :=
  Everywhere fun v =>
    match v with
    | .object members => ∀ m ∈ members, 47 ∉ m.1 ∧ 126 ∉ m.1
    | _ => True

/-- An error of the document reports a violation at a position. -/
def Reports (document schema : JsonValue) (e : ValidationError) (v : Visit) (k : Violation) :
    Prop :=
  v ∈ visits [] [] document schema ∧ ∃ keywords, v.schema = .object keywords ∧
    Violated .converted v.doc keywords k ∧ e = k.error v.doc keywords v.instancePath v.schemaPath

/-- The first flaw, and where it is. -/
def firstFlaw (document schema : JsonValue) : Option (Visit × Flaw) :=
  ((visits [] [] document schema).flatMap fun v => (flaws v.doc v.schema).map fun flaw =>
    (v, flaw)).head?

/-- What paths are for: those of an error lead to the value that failed and to the keyword that it
violates, and the path of a schema error to what is wrong in the schema. -/
structure PathsLead (document schema : JsonValue) : Prop where
  validation : ∀ errors, validate document schema = .ok errors → ∀ e ∈ errors,
    (∃ v k, Reports document schema e v k) ∧ ∀ v k, Reports document schema e v k →
      LeadsTo document e.instancePath v.docPlace v.doc ∧
        ∃ value, follow1 v.schema k.keyword = some value ∧
          LeadsTo schema e.schemaPath (v.schemaPlace ++ [k.keyword]) value
  schemaError : ∀ e, validate document schema = .error e → ∃ v flaw, firstFlaw document schema =
    some (v, flaw) ∧
    e = flaw.error v.schemaPath ∧ ∃ value, follow v.schema flaw.keyword.toList = some value ∧
      LeadsTo schema e.schemaPath (v.schemaPlace ++ flaw.keyword.toList) value

variable {document schema : JsonValue} {v : Visit}

/-! ## Segments -/

theorem pointer_eq_intercalate (segments : List Bytes) :
    pointer segments = [47].intercalate ([] :: segments) := by
  have hjoin (s : Bytes) : s ++ pointer segments = [47].intercalate (s :: segments) := by
    induction segments generalizing s with
    | nil => simp [pointer, List.intercalate]
    | cons t segments ih =>
      rw [List.intercalate_cons_cons, ← ih t, pointer, List.flatMap_cons, ← pointer]
      simp
  exact hjoin []

theorem segmentsOf_pointer {segments : List Bytes} (h : ∀ s ∈ segments, 47 ∉ s) :
    segmentsOf (pointer segments) = segments := by
  rw [segmentsOf, pointer_eq_intercalate, List.splitOn_intercalate _ _ (List.cons_ne_nil _ _)]
  · rfl
  · intro s hs
    rcases List.mem_cons.mp hs with rfl | hs
    · exact List.not_mem_nil
    · exact h s hs

theorem slash_notMem_toChars (i : Nat) : 47 ∉ toChars 10 i := by
  intro hmem
  obtain ⟨d, hd, heq⟩ := mem_toChars (by decide) hmem
  revert heq
  interval_cases d <;> decide

theorem follow_append_singleton (root : JsonValue) (segments : List Bytes) (s : Bytes) :
    follow root (segments ++ [s]) = (follow root segments).bind fun v => follow1 v s := by
  rw [follow, List.foldlM_append]
  exact bind_congr fun v => by simp

theorem follow1_index {items : List JsonValue} {i : Nat} :
    follow1 (.array items) (toChars 10 i) = items[i]? := by
  rw [follow1, ofChars_toChars (by decide) (by decide), if_pos rfl]

/-- **The written steps are the place of the schema only when none went through `properties`.** -/
theorem map_text_eq_iff {steps : List SchemaStep} :
    steps.map SchemaStep.text = steps.flatMap SchemaStep.segments ↔ ∀ s ∈ steps, s = .items := by
  have hlength (steps : List SchemaStep) : steps.length ≤
    (steps.flatMap SchemaStep.segments).length := by
    induction steps with
    | nil => exact le_rfl
    | cons s steps ih =>
      rw [List.flatMap_cons, List.length_append, List.length_cons]
      cases s <;> simp only [SchemaStep.segments, List.length_cons, List.length_nil] <;> omega
  induction steps with
  | nil => simp
  | cons s steps ih =>
    rw [List.forall_mem_cons, List.map_cons, List.flatMap_cons]
    cases s with
    | items =>
      refine Iff.trans ?_ (ih.trans (and_iff_right rfl).symm)
      exact List.cons_inj_right _
    | property name =>
      refine iff_of_false (fun heq => ?_) fun h => absurd h.1 nofun
      have hlt := hlength steps
      have hcount := congrArg List.length heq
      rw [List.length_append, List.length_cons, List.length_map] at hcount
      simp only [SchemaStep.segments, List.length_cons, List.length_nil] at hcount
      omega

/-! ## Places -/

/-- A position is where its steps lead. -/
structure Placed (document schema : JsonValue) (v : Visit) : Prop where
  plain_doc : v.doc.PlainKeys
  plain_schema : v.schema.PlainKeys
  distinct : v.schema.Distinct
  place_plain : ∀ s ∈ v.docPlace, 47 ∉ s
  steps_plain : ∀ s ∈ v.steps.map SchemaStep.text, 47 ∉ s
  follow_place : follow document v.docPlace = some v.doc
  follow_schemaPlace : follow schema v.schemaPlace = some v.schema

theorem plain_append_singleton {segments : List Bytes} {s : Bytes} (h : ∀ t ∈ segments, 47 ∉ t)
    (hs : 47 ∉ s) :
    ∀ t ∈ segments ++ [s], 47 ∉ t :=
  List.forall_mem_append.mpr ⟨h, List.forall_mem_singleton.mpr hs⟩

/-- **Every position is where its steps lead.** -/
theorem placed_of_mem (hdoc : document.PlainKeys) (hschema : schema.PlainKeys)
    (hdistinct : schema.Distinct)
    (h : v ∈ visits [] [] document schema) : Placed document schema v := by
  have hreach := (mem_visits_iff _ ⟨[], [], document, schema⟩ (Nat.lt_succ_self _)).mp h
  clear h
  induction hreach with
  | refl => exact ⟨hdoc, hschema, hdistinct, by simp [Visit.docPlace], by simp, rfl, rfl⟩
  | tail _ hchild ih =>
    cases hchild with
    | @property place steps fields keywords props name field subSchema hprops hmem hfield =>
      have hprops' := mem_of_firstOf hprops
      have hdistinct' := (distinct_object.mp ih.distinct).2 _ hprops'
      have hplain' := (everywhere_object.mp ih.plain_schema).2 _ hprops'
      have hname : 47 ∉ name := ((everywhere_object.mp ih.plain_doc).1 _ (mem_of_firstOf hfield)).1
      refine ⟨(everywhere_object.mp ih.plain_doc).2 _ (mem_of_firstOf hfield),
        (everywhere_object.mp hplain').2 _ hmem, (distinct_object.mp hdistinct').2 _ hmem, ?_, ?_,
          ?_, ?_⟩
      · rw [Visit.docPlace, List.map_append]
        exact plain_append_singleton ih.place_plain hname
      · rw [List.map_append]
        exact plain_append_singleton ih.steps_plain hname
      · have hfollow := ih.follow_place
        rw [Visit.docPlace] at hfollow ⊢
        rw [List.map_append, List.map_singleton, follow_append_singleton, hfollow]
        exact hfield
      · have hfollow := ih.follow_schemaPlace
        rw [Visit.schemaPlace] at hfollow ⊢
        rw [List.flatMap_append, List.flatMap_singleton, SchemaStep.segments,
          show [ascii "properties", name] = [ascii "properties"] ++ [name] from rfl,
            ← List.append_assoc,
          follow_append_singleton, follow_append_singleton, hfollow]
        show (find keywords (ascii "properties")).bind (follow1 · name) = some subSchema
        rw [hprops]
        exact firstOf_of_mem (distinct_object.mp hdistinct').1 hmem
    | @item place steps arr keywords i v items hitems hv =>
      have hitems' := mem_of_firstOf hitems
      refine ⟨(everywhere_array.mp ih.plain_doc).2 _ (List.mem_of_getElem? hv),
        (everywhere_object.mp ih.plain_schema).2 _ hitems',
          (distinct_object.mp ih.distinct).2 _ hitems',
        ?_, ?_, ?_, ?_⟩
      · rw [Visit.docPlace, List.map_append]
        exact plain_append_singleton ih.place_plain (slash_notMem_toChars i)
      · rw [List.map_append]
        exact plain_append_singleton ih.steps_plain (by decide)
      · have hfollow := ih.follow_place
        rw [Visit.docPlace] at hfollow ⊢
        rw [List.map_append, List.map_singleton, follow_append_singleton, hfollow]
        exact follow1_index.trans hv
      · have hfollow := ih.follow_schemaPlace
        rw [Visit.schemaPlace] at hfollow ⊢
        rw [List.flatMap_append, List.flatMap_singleton, SchemaStep.segments,
          follow_append_singleton, hfollow]
        exact hitems

/-- **The path of the document leads to the value.** -/
theorem Placed.leadsTo_doc (h : Placed document schema v) :
    LeadsTo document v.instancePath v.docPlace v.doc :=
  ⟨segmentsOf_pointer h.place_plain, h.follow_place⟩

theorem slash_notMem_keyword (k : Violation) : 47 ∉ k.keyword := by
  cases k with
  | required name => exact (by decide : (47 : UInt8) ∉ ascii "required")
  | _ => decide

variable {flaw : Flaw} {keyword : Bytes}

theorem slash_notMem_flaw (h : flaw.keyword = some keyword) : 47 ∉ keyword := by
  cases flaw with
  | notObject => cases h
  | _ =>
    cases h
    decide

/-- The path with a keyword behind it, segment by segment. -/
theorem Placed.segmentsOf_joinPath (h : Placed document schema v) (hkeyword : 47 ∉ keyword) :
    segmentsOf (joinPath v.schemaPath keyword) = v.steps.map SchemaStep.text ++ [keyword] := by
  rw [Visit.schemaPath, ← pointer_append_singleton]
  exact segmentsOf_pointer (plain_append_singleton h.steps_plain hkeyword)

/-- **The path of the schema leads to a keyword only through `items`.** -/
theorem Placed.leadsTo_keyword_iff (h : Placed document schema v) {value : JsonValue}
    (hkeyword : 47 ∉ keyword) (hvalue : follow1 v.schema keyword = some value) :
    LeadsTo schema (joinPath v.schemaPath keyword) (v.schemaPlace ++ [keyword]) value ↔
      v.ItemsOnly := by
  have hfollow : follow schema (v.schemaPlace ++ [keyword]) = some value := by
    rw [follow_append_singleton, h.follow_schemaPlace]
    exact hvalue
  have hsegments := h.segmentsOf_joinPath hkeyword
  have hiff : segmentsOf (joinPath v.schemaPath keyword) = v.schemaPlace ++ [keyword] ↔
    v.ItemsOnly := by
    rw [hsegments, List.append_left_inj]
    exact map_text_eq_iff
  exact ⟨fun hleads => hiff.mp hleads.segmentsOf_eq, fun hitems => ⟨hiff.mpr hitems, hfollow⟩⟩

theorem Placed.leadsTo_schema_iff (h : Placed document schema v) :
    LeadsTo schema v.schemaPath v.schemaPlace v.schema ↔ v.ItemsOnly := by
  have hiff : segmentsOf v.schemaPath = v.schemaPlace ↔ v.ItemsOnly := by
    rw [Visit.schemaPath, segmentsOf_pointer h.steps_plain]
    exact map_text_eq_iff
  exact ⟨fun hleads => hiff.mp hleads.segmentsOf_eq, fun hitems =>
    ⟨hiff.mpr hitems, h.follow_schemaPlace⟩⟩

/-! ## Keywords that are reported are there -/

variable {keywords : ObjectStorage}

theorem exists_of_violated {m : Measure} {doc : JsonValue} {k : Violation}
    (h : Violated m doc keywords k) : ∃ value, find keywords k.keyword = some value := by
  cases k with
  | type => exact ⟨_, h.choose_spec.1⟩
  | const => exact ⟨_, h.choose_spec.1⟩
  | enum => exact ⟨_, h.choose_spec.1⟩
  | minimum => exact ⟨_, h.choose_spec.1⟩
  | maximum => exact ⟨_, h.choose_spec.1⟩
  | minLength =>
    obtain ⟨s, limit, -, hkey, -⟩ := h
    exact ⟨_, hkey⟩
  | maxLength =>
    obtain ⟨s, limit, -, hkey, -⟩ := h
    exact ⟨_, hkey⟩
  | required name =>
    obtain ⟨fields, names, -, hkey, -⟩ := h
    exact ⟨_, hkey⟩

theorem follow_singleton (v : JsonValue) (s : Bytes) : follow v [s] = follow1 v s := by
  simp [follow]

/-- A flaw of one keyword is reported when the keyword is there. -/
theorem exists_of_keyword
    (hflaw : flaw.keyword = some keyword) (hkey : find keywords keyword ≠ none) :
    ∃ value, follow (.object keywords) flaw.keyword.toList = some value := by
  obtain ⟨value, hvalue⟩ := Option.ne_none_iff_exists'.mp hkey
  refine ⟨value, ?_⟩
  rw [hflaw, Option.toList_some, follow_singleton]
  exact hvalue

theorem mem_typeFlaws (h : flaw ∈ typeFlaws keywords) :
    flaw.keyword = some (ascii "type") ∧ find keywords (ascii "type") ≠ none := by
  unfold typeFlaws at h
  split at h
  · cases h
  all_goals
    rename_i hkey
    rw [Option.mem_toList, Option.map_eq_some_iff] at h
    obtain ⟨bad, -, rfl⟩ := h
    exact ⟨rfl, by simp [hkey]⟩

theorem exists_of_flaw {doc schema : JsonValue} (h : flaw ∈ flaws doc schema) :
    ∃ value, follow schema flaw.keyword.toList = some value := by
  unfold flaws at h
  cases schema with
  | object keywords =>
    dsimp only at h
    rw [List.mem_append, List.mem_append] at h
    rcases h with (h | h) | h
    · obtain ⟨hflaw, hkey⟩ := mem_typeFlaws h
      exact exists_of_keyword hflaw hkey
    · unfold enumFlaws at h
      split at h
      · cases h
      · cases h
      · rename_i hkey
        obtain rfl := List.mem_singleton.mp h
        exact exists_of_keyword rfl (by simp [hkey])
    · cases doc with
      | object fields =>
        rcases List.mem_append.mp h with h | h
        · unfold requiredFlaws at h
          split at h
          · cases h
          · rename_i hkey
            split_ifs at h
            · cases h
            · obtain rfl := List.mem_singleton.mp h
              exact exists_of_keyword rfl (by simp [hkey])
          · rename_i hkey
            obtain rfl := List.mem_singleton.mp h
            exact exists_of_keyword rfl (by simp [hkey])
        · unfold propertiesFlaws at h
          split at h
          · cases h
          · cases h
          · rename_i hkey
            obtain rfl := List.mem_singleton.mp h
            exact exists_of_keyword rfl (by simp [hkey])
      | _ => cases h
  | _ =>
    obtain rfl := List.mem_singleton.mp h
    exact ⟨_, rfl⟩

/-! ## The result -/

theorem schemaErrors_eq : (visits [] [] document schema).flatMap Visit.schemaErrors =
    ((visits [] [] document schema).flatMap fun v => (flaws v.doc v.schema).map fun flaw =>
      (v, flaw)).map
      fun f => f.2.error f.1.schemaPath := by
  rw [List.map_flatMap]
  refine List.flatMap_congr fun v _ => ?_
  rw [List.map_map]
  rfl

/-- A schema with a flaw is refused for the first one. -/
theorem validate_of_flaw (h : firstFlaw document schema = some (v, flaw)) :
    validate document schema = .error (flaw.error v.schemaPath) := by
  rw [validate_eq_report, schemaErrors_eq]
  obtain ⟨rest, hrest⟩ := List.head?_eq_some_iff.mp h
  rw [hrest]
  rfl

theorem validate_of_no_flaw (h : firstFlaw document schema = none) : validate document schema =
    .ok ((visits [] [] document schema).flatMap (Visit.validationErrors .converted)) := by
  rw [validate_eq_report, schemaErrors_eq, List.head?_eq_none_iff.mp h]
  rfl

/-- Every error reports a violation, and every violation is reported. -/
theorem mem_errors_iff {e : ValidationError} :
    e ∈ (visits [] [] document schema).flatMap (Visit.validationErrors .converted) ↔
      ∃ v k, Reports document schema e v k := by
  rw [List.mem_flatMap]
  refine exists_congr fun v => ?_
  constructor
  · rintro ⟨hv, he⟩
    unfold Visit.validationErrors at he
    split at he
    · next keywords hkeywords =>
      obtain ⟨k, hk, rfl⟩ := List.mem_map.mp he
      exact ⟨k, hv, keywords, hkeywords, by simpa using (List.mem_filter.mp hk).2, rfl⟩
    · cases he
  · rintro ⟨k, hv, keywords, hkeywords, hviolated, rfl⟩
    refine ⟨hv, ?_⟩
    unfold Visit.validationErrors
    rw [hkeywords]
    exact List.mem_map_of_mem
      (List.mem_filter.mpr ⟨mem_candidates hviolated, by simpa using hviolated⟩)

theorem mem_of_firstFlaw (h : firstFlaw document schema = some (v, flaw)) :
    v ∈ visits [] [] document schema ∧ flaw ∈ flaws v.doc v.schema := by
  obtain ⟨w, hw, hmem⟩ := List.mem_flatMap.mp (List.mem_of_head? h)
  obtain ⟨flaw', hflaw, heq⟩ := List.mem_map.mp hmem
  obtain ⟨rfl, rfl⟩ := Prod.mk.inj heq
  exact ⟨hw, hflaw⟩

theorem Placed.leadsTo_flaw_iff (h : Placed document schema v) {value : JsonValue}
    (hvalue : follow v.schema flaw.keyword.toList = some value) :
    LeadsTo schema (flaw.error v.schemaPath).schemaPath (v.schemaPlace ++ flaw.keyword.toList)
      value ↔ v.ItemsOnly := by
  unfold Flaw.error
  cases hkeyword : flaw.keyword with
  | none =>
    rw [hkeyword] at hvalue
    obtain rfl : v.schema = value := Option.some.inj hvalue
    rw [Option.toList_none, List.append_nil]
    exact h.leadsTo_schema_iff
  | some keyword =>
    rw [hkeyword, Option.toList_some, follow_singleton] at hvalue
    exact h.leadsTo_keyword_iff (slash_notMem_flaw hkeyword) hvalue

/-- **The paths lead to what they are about exactly when the violations, or the first flaw, are in
schemas that are reached through `items` alone.** -/
theorem pathsLead_iff (hdoc : document.PlainKeys) (hschema : schema.PlainKeys)
    (hdistinct : schema.Distinct) :
    PathsLead document schema ↔
      (∀ v flaw, firstFlaw document schema = some (v, flaw) → v.ItemsOnly) ∧
        (firstFlaw document schema = none → ∀ v ∈ visits [] [] document schema, ∀ keywords,
          v.schema = .object keywords → ∀ k, Violated .converted v.doc keywords k →
            v.ItemsOnly) := by
  have hplaced {v : Visit} (hv : v ∈ visits [] [] document schema) :=
    placed_of_mem hdoc hschema hdistinct hv
  constructor
  · intro hleads
    refine ⟨fun v flaw hflaw => ?_, fun hnone v hv keywords hkeywords k hviolated => ?_⟩
    · obtain ⟨v', flaw', hflaw', -, value, hvalue, hpath⟩ :=
        hleads.schemaError _ (validate_of_flaw hflaw)
      obtain ⟨rfl, rfl⟩ := Prod.mk.inj (Option.some.inj (hflaw.symm.trans hflaw'))
      exact ((hplaced (mem_of_firstFlaw hflaw).1).leadsTo_flaw_iff hvalue).mp hpath
    · have hreports : Reports document schema (k.error v.doc keywords v.instancePath v.schemaPath) v
        k :=
        ⟨hv, keywords, hkeywords, hviolated, rfl⟩
      have hmem := mem_errors_iff.mpr ⟨v, k, hreports⟩
      obtain ⟨-, value, hvalue, hpath⟩ :=
        (hleads.validation _ (validate_of_no_flaw hnone) _ hmem).2 v k hreports
      exact ((hplaced hv).leadsTo_keyword_iff (slash_notMem_keyword k) hvalue).mp hpath
  · rintro ⟨hfirst, hall⟩
    refine ⟨fun errors herrors e he => ?_, fun e he => ?_⟩
    · cases hflaw : firstFlaw document schema with
      | some f =>
        rw [validate_of_flaw hflaw] at herrors
        cases herrors
      | none =>
        rw [validate_of_no_flaw hflaw] at herrors
        cases herrors
        refine ⟨mem_errors_iff.mp he, ?_⟩
        rintro v k ⟨hv, keywords, hkeywords, hviolated, rfl⟩
        obtain ⟨value, hvalue⟩ := exists_of_violated hviolated
        have hvalue' : follow1 v.schema k.keyword = some value := by
          rw [hkeywords]
          exact hvalue
        exact ⟨(hplaced hv).leadsTo_doc, value, hvalue',
          ((hplaced hv).leadsTo_keyword_iff (slash_notMem_keyword k) hvalue').mpr
            (hall hflaw v hv keywords hkeywords k hviolated)⟩
    · cases hflaw : firstFlaw document schema with
      | none =>
        rw [validate_of_no_flaw hflaw] at he
        cases he
      | some f =>
        obtain ⟨v, flaw⟩ := f
        rw [validate_of_flaw hflaw] at he
        obtain rfl := Except.error.inj he
        obtain ⟨hv, hmem⟩ := mem_of_firstFlaw hflaw
        obtain ⟨value, hvalue⟩ := exists_of_flaw hmem
        exact ⟨v, flaw, rfl, rfl, value, hvalue,
          ((hplaced hv).leadsTo_flaw_iff hvalue).mpr (hfirst v flaw hflaw)⟩

/-- A document whose member is an integer. -/
def integerMember : JsonValue := .object [(ascii "a", .int 5)]

/-- A schema whose property is a string. -/
def stringProperty : JsonValue :=
  .object [(ascii "properties",
    .object [(ascii "a", .object [(ascii "type", .string (ascii "string"))])])]

/-- The position of the member. -/
def memberVisit : Visit :=
  ⟨[.key (ascii "a")], [.property (ascii "a")], .int 5,
    .object [(ascii "type", .string (ascii "string"))]⟩

theorem visits_integerMember :
    visits [] [] integerMember stringProperty = [⟨[], [], integerMember, stringProperty⟩,
      memberVisit] := by
  have hmember : visits [.key (ascii "a")] [.property (ascii "a")] (.int 5)
      (.object [(ascii "type", .string (ascii "string"))]) = [memberVisit] := visits.eq_def ..
  have hmembers : propertyVisits [] [] [(ascii "a", .int 5)]
      [(ascii "a", .object [(ascii "type", .string (ascii "string"))])] = [memberVisit] := by
    rw [propertyVisits, propertyVisits]
    exact (List.append_nil _).trans hmember
  rw [integerMember, stringProperty, visits.eq_def]
  exact congrArg (List.cons _) hmembers

theorem plainKeys_integerMember : integerMember.PlainKeys := by
  simp [integerMember, JsonValue.PlainKeys, JsonValue.Everywhere, MembersEverywhere]
  decide

theorem plainKeys_stringProperty : stringProperty.PlainKeys := by
  simp [stringProperty, JsonValue.PlainKeys, JsonValue.Everywhere, MembersEverywhere]
  decide

theorem distinct_stringProperty : stringProperty.Distinct := by
  simp [stringProperty, JsonValue.Distinct, JsonValue.Everywhere, MembersEverywhere]

/-- The member is reached through `properties`. -/
theorem pathsLead_iff_member : PathsLead integerMember stringProperty ↔
    (∀ v flaw, firstFlaw integerMember stringProperty = some (v, flaw) → v.ItemsOnly) ∧
      (firstFlaw integerMember stringProperty = none →
      ∀ v ∈ visits [] [] integerMember stringProperty,
        ∀ keywords, v.schema = .object keywords → ∀ k, Violated .converted v.doc keywords k →
          v.ItemsOnly) :=
  pathsLead_iff plainKeys_integerMember plainKeys_stringProperty distinct_stringProperty

/-- The path `"/a/type"` does not lead to `"/properties/a/type"`. -/
theorem not_pathsLead : ¬ ∀ document schema : JsonValue, document.PlainKeys → document.Distinct →
    schema.PlainKeys → schema.Distinct → PathsLead document schema := by
  intro h
  have hdistinct : integerMember.Distinct := by
    simp [integerMember, JsonValue.Distinct, JsonValue.Everywhere, MembersEverywhere]
  have hleads :=
    h integerMember stringProperty plainKeys_integerMember hdistinct plainKeys_stringProperty
    distinct_stringProperty
  have hnone : firstFlaw integerMember stringProperty = none := by
    rw [firstFlaw, visits_integerMember]
    decide
  have hviolated : Violated .converted (.int 5) [(ascii "type", .string (ascii "string"))]
    .type := by
    refine ⟨_, rfl, ?_⟩
    simp only [Allows, HasType]
    decide
  have hmem : memberVisit ∈ visits [] [] integerMember stringProperty := by
    rw [visits_integerMember]
    exact .tail _ (.head _)
  have hreports : Reports integerMember stringProperty _ _ .type := ⟨hmem, _, rfl, hviolated, rfl⟩
  obtain ⟨-, value, hvalue, hpath⟩ :=
    (hleads.validation _ (validate_of_no_flaw hnone) _ (mem_errors_iff.mpr ⟨_, _, hreports⟩)).2 _ _
      hreports
  have hplaced :=
    placed_of_mem plainKeys_integerMember plainKeys_stringProperty distinct_stringProperty hmem
  have hitems := (hplaced.leadsTo_keyword_iff (slash_notMem_keyword .type) hvalue).mp hpath
  exact absurd (hitems _ (.head _)) (by simp)

end Libca.Json
