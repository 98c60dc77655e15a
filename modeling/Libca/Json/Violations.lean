import Libca.Common.Collect
import Libca.Json.Positions

/-!
# What a value violates (`json/json_schema.cpp`)

What is violated at one position, and what is wrong with a schema there.

* `Violated`: the keywords that a value violates; `flaws`: what makes a schema no schema.
* `Violation.error`, `Flaw.error`: the errors for them.
* `checkNode_eq`: **the checks at one node** report the flaws, or one error for each violation,
  where numbers are compared as doubles.
-/

namespace Libca.Json

open Common Str JsonValue

/-! ## What is wrong with a schema -/

/-- The types. -/
def typeNames : List Bytes :=
  [ascii "null", ascii "boolean", ascii "integer", ascii "number", ascii "string", ascii "array",
    ascii "object"]

/-- A value that is no type, by its text. -/
def notType : JsonValue → Option Bytes
  | .string s => if s ∈ typeNames then none else some s
  | _ => some (ascii "<non-string>")

/-- What is wrong with a schema. -/
inductive Flaw where
  | notObject
  | type (bad : Bytes)
  | enum
  | required
  | requiredEntry
  | properties
  deriving DecidableEq

/-- `type` is neither a type nor a list of types. -/
def typeFlaws (keywords : ObjectStorage) : List Flaw :=
  match find keywords (ascii "type") with
  | none => []
  | some (.array entries) => ((entries.findSome? notType).map Flaw.type).toList
  | some t => ((notType t).map Flaw.type).toList

/-- `enum` is no list. -/
def enumFlaws (keywords : ObjectStorage) : List Flaw :=
  match find keywords (ascii "enum") with
  | none => []
  | some (.array _) => []
  | some _ => [.enum]

/-- `required` is no list of strings. -/
def requiredFlaws (keywords : ObjectStorage) : List Flaw :=
  match find keywords (ascii "required") with
  | none => []
  | some (.array names) => if ∀ name ∈ names, name matches .string _ then [] else [.requiredEntry]
  | some _ => [.required]

/-- `properties` is no object. -/
def propertiesFlaws (keywords : ObjectStorage) : List Flaw :=
  match find keywords (ascii "properties") with
  | none => []
  | some (.object _) => []
  | some _ => [.properties]

/-- What is wrong with a schema for a value: `required` and `properties` are looked at for objects.
-/
def flaws (doc schema : JsonValue) : List Flaw :=
  match schema with
  | .object keywords =>
    typeFlaws keywords ++ enumFlaws keywords ++
      match doc with
      | .object _ => requiredFlaws keywords ++ propertiesFlaws keywords
      | _ => []
  | _ => [.notObject]

/-! ## What is violated -/

/-- A value is of a type. -/
def HasType : JsonValue → Bytes → Prop
  | .null, name => name = ascii "null"
  | .bool _, name => name = ascii "boolean"
  | .int _, name => name = ascii "integer" ∨ name = ascii "number"
  | .float _, name => name = ascii "number"
  | .string _, name => name = ascii "string"
  | .array _, name => name = ascii "array"
  | .object _, name => name = ascii "object"

/-- A value is of the type, or of one of the types. -/
def Allows (doc : JsonValue) : JsonValue → Prop
  | .string name => HasType doc name
  | .array entries => ∃ name, JsonValue.string name ∈ entries ∧ HasType doc name
  | _ => False

/-- How numbers and strings are measured. Numbers are multiples of the smallest positive double; a
NaN is none. -/
structure Measure where
  number : JsonValue → Option Int
  length : Bytes → Int

/-- A double as a number. -/
def F64.number (d : F64) : Option Int := if d.isNan then none else some d.units

/-- Numbers and lengths as they are. -/
def Measure.exact : Measure where
  number
    | .int n => some (n.toInt * F64.one)
    | .float d => d.number
    | _ => none
  length s := countCodePoints s

/-- Integers are converted to doubles, and lengths to `i64`. -/
def Measure.converted : Measure where
  number v := (toDouble v).bind F64.number
  length s := (Int64.ofNat (countCodePoints s)).toInt

/-- One number is less than another. -/
def Below (m : Measure) (a b : JsonValue) : Prop := ∃ x y, m.number a = some x ∧
    m.number b = some y ∧ x < y

/-- A keyword that is violated, or a member that is missing. -/
inductive Violation where
  | type
  | const
  | enum
  | minimum
  | maximum
  | minLength
  | maxLength
  | required (name : Bytes)
  deriving DecidableEq

/-- **A value violates a keyword.** -/
def Violated (m : Measure) (doc : JsonValue) (keywords : ObjectStorage) : Violation → Prop
  | .type => ∃ t, find keywords (ascii "type") = some t ∧ ¬ Allows doc t
  | .const => ∃ c, find keywords (ascii "const") = some c ∧ jsonEqual doc c = false
  | .enum => ∃ candidates, find keywords (ascii "enum") = some (.array candidates) ∧
      ∀ c ∈ candidates, jsonEqual doc c = false
  | .minimum => ∃ limit, find keywords (ascii "minimum") = some limit ∧ Below m doc limit
  | .maximum => ∃ limit, find keywords (ascii "maximum") = some limit ∧ Below m limit doc
  | .minLength => ∃ s limit, doc = .string s ∧ find keywords (ascii "minLength") =
    some (.int limit) ∧ m.length s < limit.toInt
  | .maxLength => ∃ s limit, doc = .string s ∧ find keywords (ascii "maxLength") =
    some (.int limit) ∧ limit.toInt < m.length s
  | .required name => ∃ fields names, doc = .object fields ∧
      find keywords (ascii "required") = some (.array names) ∧ JsonValue.string name ∈ names ∧
      find fields name = none

/-- The names in a list. -/
def namesIn : List JsonValue → List Bytes
  | [] => []
  | .string name :: names => name :: namesIn names
  | _ :: names => namesIn names

/-- The names of `required`. -/
def requiredNames (keywords : ObjectStorage) : List Bytes :=
  match find keywords (ascii "required") with
  | some (.array names) => namesIn names
  | _ => []

/-- What may be violated, in the order in which it is reported. -/
def candidates (keywords : ObjectStorage) : List Violation :=
  [.type, .const, .enum, .minimum, .maximum, .minLength, .maxLength] ++
    (requiredNames keywords).map .required

open Classical in
/-- What is violated, in the order in which it is reported: a missing member once for each entry of
`required`. -/
noncomputable def violations (m : Measure) (doc : JsonValue) (keywords : ObjectStorage) :
    List Violation :=
  (candidates keywords).filter (Violated m doc keywords)

/-! ## What is reported -/

/-- The keyword of a flaw. -/
def Flaw.keyword : Flaw → Option Bytes
  | .notObject => none
  | .type _ => some (ascii "type")
  | .enum => some (ascii "enum")
  | .required => some (ascii "required")
  | .requiredEntry => some (ascii "required")
  | .properties => some (ascii "properties")

/-- The text of a flaw. -/
def Flaw.message : Flaw → Bytes
  | .notObject => ascii "schema must be an object"
  | .type bad => ascii "unknown type value: " ++ bad
  | .enum => ascii "\"enum\" must be an array"
  | .required => ascii "\"required\" must be an array"
  | .requiredEntry => ascii "\"required\" entries must be strings"
  | .properties => ascii "\"properties\" must be an object"

/-- The error for a flaw of a schema at a path. -/
def Flaw.error (schemaPath : Bytes) (flaw : Flaw) : SchemaError :=
  ⟨match flaw.keyword with
    | none => schemaPath
    | some keyword => joinPath schemaPath keyword, owning flaw.message⟩

/-- The keyword of a violation. -/
def Violation.keyword : Violation → Bytes
  | .type => ascii "type"
  | .const => ascii "const"
  | .enum => ascii "enum"
  | .minimum => ascii "minimum"
  | .maximum => ascii "maximum"
  | .minLength => ascii "minLength"
  | .maxLength => ascii "maxLength"
  | .required _ => ascii "required"

/-- The text of a violation. -/
def Violation.message (doc : JsonValue) (keywords : ObjectStorage) : Violation → Bytes
  | .type =>
    match find keywords (ascii "type") with
    | some (.string expected) => ascii "expected " ++ expected ++ ascii ", got " ++ typeName doc
    | _ => ascii "type mismatch: got " ++ typeName doc
  | .const => ascii "value does not equal const"
  | .enum => ascii "value not in enum"
  | .minimum => ascii "value below minimum"
  | .maximum => ascii "value above maximum"
  | .minLength => ascii "string shorter than minLength"
  | .maxLength => ascii "string longer than maxLength"
  | .required name => ascii "missing required property: " ++ name

/-- The error for a violation. -/
def Violation.error (doc : JsonValue) (keywords : ObjectStorage) (instancePath schemaPath : Bytes)
    (k : Violation) :
    ValidationError :=
  ⟨instancePath, joinPath schemaPath k.keyword, owning (k.message doc keywords)⟩

namespace Visit

/-- What makes the schema no schema. -/
def schemaErrors (v : Visit) : List SchemaError :=
  (flaws v.doc v.schema).map (Flaw.error v.schemaPath)

/-- The errors of the value. -/
noncomputable def validationErrors (m : Measure) (v : Visit) : List ValidationError :=
  match v.schema with
  | .object keywords =>
    (violations m v.doc keywords).map (Violation.error v.doc keywords v.instancePath v.schemaPath)
  | _ => []

end Visit

/-! ## One keyword -/

section Keywords

variable {doc : JsonValue} {keywords : ObjectStorage} {instancePath schemaPath : Bytes}
  {errors : List ValidationError}

open Classical in
/-- The errors for those of some violations that occur. -/
noncomputable def noted (doc : JsonValue) (keywords : ObjectStorage)
    (instancePath schemaPath : Bytes) (ks : List Violation) : List ValidationError :=
  (ks.filter (Violated .converted doc keywords)).map
    (Violation.error doc keywords instancePath schemaPath)

theorem noted_append (ks ls : List Violation) :
    noted doc keywords instancePath schemaPath (ks ++ ls) =
      noted doc keywords instancePath schemaPath ks ++
        noted doc keywords instancePath schemaPath ls := by
  unfold noted
  rw [List.filter_append, List.map_append]

variable {k : Violation}

theorem noted_of (h : Violated .converted doc keywords k) :
    noted doc keywords instancePath schemaPath [k] =
      [⟨instancePath, joinPath schemaPath k.keyword, owning (k.message doc keywords)⟩] := by
  unfold noted
  rw [List.filter_cons_of_pos (by simpa using h)]
  rfl

theorem noted_of_not (h : ¬ Violated .converted doc keywords k) :
    noted doc keywords instancePath schemaPath [k] = [] := by
  unfold noted
  rw [List.filter_cons_of_neg (by simpa using h)]
  rfl

/-- A check that records an error when a keyword is violated. -/
theorem ite_record {p : Prop} [Decidable p] {path message : Bytes}
    (hp : p ↔ ¬ Violated .converted doc keywords k) (hpath : path = joinPath schemaPath k.keyword)
    (hmessage : ¬ p → message = k.message doc keywords) :
    (if p then errors else record errors instancePath path message) =
      errors ++ noted doc keywords instancePath schemaPath [k] := by
  by_cases h : p
  · rw [if_pos h, noted_of_not (hp.mp h), List.append_nil]
  · rw [if_neg h, noted_of (not_not.mp fun hnot => h (hp.mpr hnot)), record, hpath, hmessage h]

theorem knownType_iff {s : Bytes} : knownType s = true ↔ s ∈ typeNames := by
  simp [knownType, typeNames, or_assoc]

theorem badEntry_eq (entry : JsonValue) : badEntry entry = notType entry := by
  cases entry <;> simp [badEntry, notType, knownType_iff]

variable {t : JsonValue}

theorem typeFlaws_eq (ht : find keywords (ascii "type") = some t) :
    typeFlaws keywords = ((validateTypeKeywordShape t).map Flaw.type).toList := by
  unfold typeFlaws
  rw [ht]
  cases t <;> simp [validateTypeKeywordShape, notType, knownType_iff, funext badEntry_eq]

theorem typeNames_nodup : typeNames.Nodup := by decide

theorem matchOne_iff {name : Bytes} : matchOne doc name = true ↔ HasType doc name := by
  have hdistinct := typeNames_nodup
  simp only [typeNames, List.nodup_cons, List.mem_cons, List.not_mem_nil, or_false,
    not_or] at hdistinct
  cases doc <;> simp only [matchOne, HasType] <;> grind

theorem matchEntry_iff {entry : JsonValue} :
    matchEntry doc entry = true ↔ ∃ name, entry = .string name ∧ HasType doc name := by
  cases entry <;> simp [matchEntry, matchOne_iff]

theorem any_matchEntry_iff {entries : List JsonValue} :
    entries.any (matchEntry doc) = true ↔ Allows doc (.array entries) := by
  rw [List.any_eq_true]
  simp only [matchEntry_iff, Allows]
  constructor
  · rintro ⟨_, hmem, name, rfl, htype⟩
    exact ⟨name, hmem, htype⟩
  · rintro ⟨name, hmem, htype⟩
    exact ⟨_, hmem, name, rfl, htype⟩

theorem violated_type_iff (ht : find keywords (ascii "type") = some t) :
    Violated .converted doc keywords .type ↔ ¬ Allows doc t := by
  constructor
  · rintro ⟨t', ht', hnot⟩
    rwa [Option.some.inj (ht.symm.trans ht')]
  · exact fun hnot => ⟨t, ht, hnot⟩

/-- What `check_type` records. -/
theorem checkType_eq (ht : find keywords (ascii "type") = some t)
    (hshape : validateTypeKeywordShape t = none) :
    checkType doc t instancePath (joinPath schemaPath (ascii "type")) errors =
      .ok (errors ++ noted doc keywords instancePath schemaPath [.type]) := by
  have hviolated := @violated_type_iff doc _ _ ht
  cases t with
  | string expected =>
    rw [← ite_record (p := matchOne doc expected = true)
      (matchOne_iff.trans (hviolated.not.trans not_not).symm) rfl fun _ =>
        by rw [Violation.message, ht]]
    simp only [checkType]
    split_ifs <;> rfl
  | array entries =>
    rw [← ite_record (p := entries.any (matchEntry doc) = true)
      (any_matchEntry_iff.trans (hviolated.not.trans not_not).symm) rfl fun _ =>
        by rw [Violation.message, ht]]
    simp only [checkType]
    split_ifs <;> rfl
  | _ => cases hshape

theorem applyType_eq : applyType doc keywords instancePath schemaPath errors =
    report ((typeFlaws keywords).map (Flaw.error schemaPath))
      (errors ++ noted doc keywords instancePath schemaPath [.type]) := by
  unfold applyType
  cases ht : find keywords (ascii "type") with
  | none =>
    have hnot : ¬ Violated .converted doc keywords .type := by
      rintro ⟨t, hsome, -⟩
      rw [ht] at hsome
      cases hsome
    rw [noted_of_not hnot, typeFlaws, ht, List.append_nil]
    rfl
  | some t =>
    rw [typeFlaws_eq ht]
    cases hshape : validateTypeKeywordShape t with
    | none =>
      simp only [hshape]
      exact checkType_eq ht hshape
    | some bad =>
      simp only [hshape]
      rfl

theorem applyConst_eq : applyConst doc keywords instancePath schemaPath errors =
    errors ++ noted doc keywords instancePath schemaPath [.const] := by
  unfold applyConst
  cases hc : find keywords (ascii "const") with
  | none =>
    have hnot : ¬ Violated .converted doc keywords .const := by
      rintro ⟨c, hsome, -⟩
      rw [hc] at hsome
      cases hsome
    rw [noted_of_not hnot, List.append_nil]
  | some c =>
    refine ite_record ?_ rfl fun _ => rfl
    constructor
    · rintro hequal ⟨c', hc', hnot⟩
      rw [← Option.some.inj (hc.symm.trans hc'), hequal] at hnot
      cases hnot
    · intro hnot
      by_contra hunequal
      exact hnot ⟨c, hc, Bool.eq_false_iff.mpr hunequal⟩

theorem applyEnum_eq : applyEnum doc keywords instancePath schemaPath errors =
    report ((enumFlaws keywords).map (Flaw.error schemaPath))
      (errors ++ noted doc keywords instancePath schemaPath [.enum]) := by
  have hnot (h : ∀ candidates, find keywords (ascii "enum") ≠ some (.array candidates)) :
      ¬ Violated .converted doc keywords .enum := by
    rintro ⟨candidates, hsome, -⟩
    exact h candidates hsome
  unfold applyEnum enumFlaws
  cases he : find keywords (ascii "enum") with
  | none =>
    rw [noted_of_not (hnot fun candidates => by rw [he]; rintro ⟨⟩), List.append_nil]
    rfl
  | some e =>
    cases e with
    | array candidates =>
      refine congrArg Except.ok (ite_record ?_ rfl fun _ => rfl)
      rw [List.any_eq_true]
      constructor
      · rintro ⟨c, hmem, hequal⟩ ⟨candidates', hsome, hnone⟩
        obtain rfl : candidates = candidates' := by
          have heq := Option.some.inj (he.symm.trans hsome)
          exact JsonValue.array.inj heq
        rw [hnone c hmem] at hequal
        cases hequal
      · intro hnone
        by_contra hunequal
        refine hnone ⟨candidates, he, fun c hmem => Bool.eq_false_iff.mpr fun hequal =>
          hunequal ⟨c, hmem, hequal⟩⟩
    | _ => rfl

/-! ### Bounds -/

theorem number_converted {v : JsonValue} {d : F64} (hd : toDouble v = some d) :
    Measure.converted.number v = d.number := by
  show (toDouble v).bind F64.number = _
  rw [hd, Option.bind_some]

/-- Numbers are compared as doubles. -/
theorem lt_iff_below {a b : JsonValue} {x y : F64} (hx : toDouble a = some x)
    (hy : toDouble b = some y) :
    x.lt y = true ↔ Below .converted a b := by
  rw [F64.lt_iff_units, Below, number_converted hx, number_converted hy, F64.number, F64.number]
  cases x.isNan <;> cases y.isNan <;> simp

theorem not_below_of_left {a b : JsonValue} (h : toDouble a = none) : ¬ Below .converted a b := by
  rintro ⟨x, y, hx, -, -⟩
  have hnone : Measure.converted.number a = none := congrArg (Option.bind · F64.number) h
  rw [hnone] at hx
  cases hx

theorem not_below_of_right {a b : JsonValue} (h : toDouble b = none) : ¬ Below .converted a b := by
  rintro ⟨x, y, -, hy, -⟩
  have hnone : Measure.converted.number b = none := congrArg (Option.bind · F64.number) h
  rw [hnone] at hy
  cases hy

/-- A bound that records an error when the keyword is violated, and none when there is no bound. -/
theorem bound_eq {β : Type} (k : Violation) (bound : Option β) {fails : β → Prop}
    [DecidablePred fails] {path message : Bytes} (hpath : path = joinPath schemaPath k.keyword)
    (hmessage : message = k.message doc keywords) :
    (bound = none → ¬ Violated .converted doc keywords k) ∧
        (∀ limit, bound = some limit → (fails limit ↔ Violated .converted doc keywords k)) →
      (match bound with
        | none => errors
        | some limit => if fails limit then record errors instancePath path message else errors) =
        errors ++ noted doc keywords instancePath schemaPath [k] := by
  rintro ⟨hnone, hsome⟩
  cases bound with
  | none => rw [noted_of_not (hnone rfl), List.append_nil]
  | some limit =>
    rw [← ite_record (not_congr (hsome limit rfl)) hpath fun _ => hmessage]
    exact (ite_not ..).symm

/-- A keyword is violated when its value is a bound that fails. -/
theorem violated_bound {β : Type} {key : Bytes} {R : JsonValue → Prop}
    {convert : JsonValue → Option β}
    {fails : β → Prop} (hk : Violated .converted doc keywords k ↔ ∃ limit, find keywords key =
      some limit ∧ R limit)
    (hnone : ∀ limit, convert limit = none → ¬ R limit)
    (hsome : ∀ limit d, find keywords key = some limit → convert limit = some d →
      (fails d ↔ R limit)) :
    ((find keywords key).bind convert = none → ¬ Violated .converted doc keywords k) ∧
      ∀ d, (find keywords key).bind convert = some d →
        (fails d ↔ Violated .converted doc keywords k) := by
  rw [hk]
  cases hkey : find keywords key with
  | none => exact ⟨fun _ => by simp, by rintro d ⟨⟩⟩
  | some limit =>
    have hviolated : (∃ limit', some limit = some limit' ∧ R limit') ↔ R limit := by simp
    rw [hviolated]
    exact ⟨hnone limit, fun d hd => hsome limit d hkey hd⟩

theorem checkNumericBounds_eq :
    checkNumericBounds doc keywords instancePath schemaPath errors =
      errors ++ noted doc keywords instancePath schemaPath [.minimum, .maximum] := by
  unfold checkNumericBounds
  rw [show [Violation.minimum, .maximum] = [.minimum] ++ [.maximum] from rfl, noted_append,
    ← List.append_assoc]
  cases hval : toDouble doc with
  | none =>
    have hmin : ¬ Violated .converted doc keywords .minimum := by
      rintro ⟨_, _, h⟩
      exact not_below_of_left hval h
    have hmax : ¬ Violated .converted doc keywords .maximum := by
      rintro ⟨_, _, h⟩
      exact not_below_of_right hval h
    rw [noted_of_not hmin, noted_of_not hmax, List.append_nil, List.append_nil]
  | some val =>
    rw [← bound_eq .minimum ((find keywords (ascii "minimum")).bind toDouble) rfl rfl
        (violated_bound Iff.rfl (fun _ => not_below_of_right) fun _ _ _ hd => lt_iff_below hval hd),
      ← bound_eq .maximum ((find keywords (ascii "maximum")).bind toDouble) rfl rfl
        (violated_bound Iff.rfl (fun _ => not_below_of_left) fun _ _ _ hd => lt_iff_below hd hval)]
    cases (find keywords (ascii "minimum")).bind toDouble <;>
      cases (find keywords (ascii "maximum")).bind toDouble <;> rfl

/-- A bound of a length. -/
theorem violated_length {s key : Bytes} {R : Int → Prop} {fails : Int64 → Prop}
    (hk : Violated .converted (.string s) keywords k ↔ ∃ limit, find keywords key =
      some (.int limit) ∧ R limit.toInt)
    (hfails : ∀ limit, fails limit ↔ R limit.toInt) :
    ((find keywords key).bind toInt = none → ¬ Violated .converted (.string s) keywords k) ∧
      ∀ d, (find keywords key).bind toInt = some d →
        (fails d ↔ Violated .converted (.string s) keywords k) := by
  refine violated_bound (R := fun v => ∃ limit, v = .int limit ∧ R limit.toInt) (hk.trans ?_) ?_ ?_
  · constructor
    · rintro ⟨limit, hkey, hR⟩
      exact ⟨_, hkey, limit, rfl, hR⟩
    · rintro ⟨_, hkey, limit, rfl, hR⟩
      exact ⟨limit, hkey, hR⟩
  · rintro _ hnone ⟨limit, rfl, -⟩
    cases hnone
  · intro v d _ hd
    cases v with
    | int limit =>
      cases hd
      rw [hfails]
      exact ⟨fun h => ⟨_, rfl, h⟩, by rintro ⟨_, heq, h⟩; rwa [JsonValue.int.inj heq]⟩
    | _ => cases hd

theorem checkStringBounds_eq :
    checkStringBounds doc keywords instancePath schemaPath errors =
      errors ++ noted doc keywords instancePath schemaPath [.minLength, .maxLength] := by
  rw [show [Violation.minLength, .maxLength] = [.minLength] ++ [.maxLength] from rfl, noted_append,
    ← List.append_assoc]
  have hnone (h : ∀ s, doc ≠ .string s) :
      errors = errors ++ noted doc keywords instancePath schemaPath [.minLength] ++
        noted doc keywords instancePath schemaPath [.maxLength] := by
    have hmin : ¬ Violated .converted doc keywords .minLength := by
      rintro ⟨s, -, hs, -⟩
      exact h s hs
    have hmax : ¬ Violated .converted doc keywords .maxLength := by
      rintro ⟨s, -, hs, -⟩
      exact h s hs
    rw [noted_of_not hmin, noted_of_not hmax, List.append_nil, List.append_nil]
  cases doc with
  | string s =>
    have hmin : Violated .converted (.string s) keywords .minLength ↔
        ∃ limit, find keywords (ascii "minLength") = some (.int limit) ∧
          Measure.converted.length s < limit.toInt := by
      constructor
      · rintro ⟨t, limit, ht, hkey, hlt⟩
        rw [JsonValue.string.inj ht]
        exact ⟨limit, hkey, hlt⟩
      · rintro ⟨limit, hkey, hlt⟩
        exact ⟨s, limit, rfl, hkey, hlt⟩
    have hmax : Violated .converted (.string s) keywords .maxLength ↔
        ∃ limit, find keywords (ascii "maxLength") = some (.int limit) ∧
          limit.toInt < Measure.converted.length s := by
      constructor
      · rintro ⟨t, limit, ht, hkey, hlt⟩
        rw [JsonValue.string.inj ht]
        exact ⟨limit, hkey, hlt⟩
      · rintro ⟨limit, hkey, hlt⟩
        exact ⟨s, limit, rfl, hkey, hlt⟩
    rw [← bound_eq .minLength ((find keywords (ascii "minLength")).bind toInt) rfl rfl
        (@violated_length _ _ _ _ (fun n => Measure.converted.length s < n)
          (fun limit => Int64.ofNat (countCodePoints s) < limit) hmin fun limit =>
            Int64.lt_iff_toInt_lt),
      ← bound_eq .maxLength ((find keywords (ascii "maxLength")).bind toInt) rfl rfl
        (@violated_length _ _ _ _ (fun n => n < Measure.converted.length s)
          (fun limit => limit < Int64.ofNat (countCodePoints s)) hmax fun limit =>
            Int64.lt_iff_toInt_lt)]
    unfold checkStringBounds
    cases (find keywords (ascii "minLength")).bind toInt <;>
      cases (find keywords (ascii "maxLength")).bind toInt <;> rfl
  | _ => exact hnone (by rintro s ⟨⟩)

/-! ### `required` -/

variable {names : List JsonValue}

theorem mem_namesIn {name : Bytes} : name ∈ namesIn names ↔ JsonValue.string name ∈ names := by
  induction names with
  | nil => simp [namesIn]
  | cons entry names ih => cases entry <;> simp [namesIn, ih]

variable {fields : ObjectStorage}

/-- What the loop over the names records. -/
theorem checkRequired_eq {path : Bytes} :
    checkRequired fields instancePath path names errors =
      report (if ∀ name ∈ names, name matches .string _ then []
          else [⟨path, owning (ascii "\"required\" entries must be strings")⟩])
        (errors ++ ((namesIn names).filter fun name => (find fields name).isNone).map fun name =>
          ⟨instancePath, path, owning (ascii "missing required property: " ++ name)⟩) := by
  induction names generalizing errors with
  | nil =>
    rw [if_pos (by simp), namesIn, List.filter_nil, List.map_nil, List.append_nil]
    rfl
  | cons entry names ih =>
    cases entry with
    | string key =>
      have hentries : (∀ name ∈ JsonValue.string key :: names, (name matches .string _) = true) ↔
          ∀ name ∈ names, (name matches .string _) = true := by simp
      rw [checkRequired, ih, namesIn, List.filter_cons]
      simp only [hentries]
      cases find fields key with
      | some v => rfl
      | none => simp [record]
    | _ =>
      rw [if_neg (by simp)]
      rfl

open Classical in
/-- A missing member is violated for each entry with its name. -/
theorem noted_required (hrequired : find keywords (ascii "required") = some (.array names)) :
    noted (.object fields) keywords instancePath schemaPath
      ((requiredNames keywords).map .required) =
      ((namesIn names).filter fun name => (find fields name).isNone).map fun name =>
        ⟨instancePath, joinPath schemaPath (ascii "required"),
          owning (ascii "missing required property: " ++ name)⟩ := by
  have hviolated : ∀ name ∈ namesIn names,
      (Violated .converted (.object fields) keywords (.required name) ↔ (find fields name).isNone =
        true) := by
    intro name hmem
    rw [Option.isNone_iff_eq_none]
    constructor
    · rintro ⟨fields', names', hdoc, -, -, hnone⟩
      rwa [JsonValue.object.inj hdoc]
    · exact fun hnone => ⟨fields, names, rfl, hrequired, mem_namesIn.mp hmem, hnone⟩
  unfold noted requiredNames
  rw [hrequired, List.filter_map, List.map_map]
  simp only
  rw [List.filter_congr (q := fun name => (find fields name).isNone) fun name hmem => ?_]
  · rfl
  · rw [Bool.eq_iff_iff, Function.comp, decide_eq_true_iff]
    exact hviolated name hmem

theorem applyRequired_eq :
    applyRequired fields keywords instancePath schemaPath errors =
      report ((requiredFlaws keywords).map (Flaw.error schemaPath))
        (errors ++ noted (.object fields) keywords instancePath schemaPath
          ((requiredNames keywords).map .required)) := by
  cases hrequired : find keywords (ascii "required") with
  | none =>
    unfold applyRequired requiredFlaws requiredNames
    rw [hrequired]
    exact congrArg Except.ok (List.append_nil errors).symm
  | some r =>
    cases r with
    | array names =>
      rw [noted_required hrequired]
      unfold applyRequired requiredFlaws
      rw [hrequired]
      refine checkRequired_eq.trans ?_
      simp only
      split_ifs <;> rfl
    | _ =>
      unfold applyRequired requiredFlaws
      rw [hrequired]
      rfl

theorem not_violated_required (h : ∀ fields, doc ≠ .object fields) (names : List Bytes) :
    noted doc keywords instancePath schemaPath (names.map .required) = [] := by
  induction names with
  | nil => rfl
  | cons name names ih =>
    have hnot : ¬ Violated .converted doc keywords (.required name) := by
      rintro ⟨fields, -, hdoc, -⟩
      exact h fields hdoc
    rw [List.map_cons, ← List.singleton_append, noted_append, ih, noted_of_not hnot,
      List.append_nil]

/-- **The checks at one node** report its flaws, but for `properties`, or what is violated. -/
theorem checkNode_eq :
    checkNode doc keywords instancePath schemaPath errors =
      report ((typeFlaws keywords ++ enumFlaws keywords ++
          match doc with
          | .object _ => requiredFlaws keywords
          | _ => []).map (Flaw.error schemaPath))
        (errors ++ noted doc keywords instancePath schemaPath (candidates keywords)) := by
  have hsplit : noted doc keywords instancePath schemaPath (candidates keywords) =
      noted doc keywords instancePath schemaPath [.type] ++
        (noted doc keywords instancePath schemaPath [.const] ++
        (noted doc keywords instancePath schemaPath [.enum] ++
          (noted doc keywords instancePath schemaPath [.minimum, .maximum] ++
            (noted doc keywords instancePath schemaPath [.minLength, .maxLength] ++
              noted doc keywords instancePath schemaPath
                ((requiredNames keywords).map .required))))) := by
    simp only [← noted_append]
    rfl
  have hother (h : ∀ fields, doc ≠ .object fields) (last : List ValidationError) :
      (.ok last : Except SchemaError _) = report (([] : List Flaw).map (Flaw.error schemaPath))
        (last ++ noted doc keywords instancePath schemaPath
          ((requiredNames keywords).map .required)) := by
    rw [not_violated_required h, List.append_nil]
    rfl
  unfold checkNode
  simp only [applyType_eq, applyConst_eq, applyEnum_eq, checkNumericBounds_eq,
    checkStringBounds_eq]
  cases doc with
  | object fields =>
    simp only [applyRequired_eq, report_bind, ← List.map_append, List.append_assoc, hsplit]
  | null | bool | int | float | string | array =>
    simp only [hother (by simp), report_bind, ← List.map_append, List.append_assoc, hsplit]

end Keywords

end Libca.Json
