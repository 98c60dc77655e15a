import Libca.Json.Equality

/-!
# Validation by a JSON schema

`json_schema.cpp`. The list of errors is passed through the checks, which add to it.

* `validateNode`, `validate`: a document against a schema, keyword by keyword.
-/

namespace Libca.Json

open Common Str JsonValue

/-- `ValidationError`. -/
structure ValidationError where
  instancePath : Bytes
  schemaPath : Bytes
  message : Bytes
  deriving DecidableEq

/-- `SchemaError`. -/
structure SchemaError where
  schemaPath : Bytes
  message : Bytes
  deriving DecidableEq

/-- `ObjectStorage`. -/
abbrev ObjectStorage := List (Bytes × JsonValue)

/-! ## Texts -/

/-- `owning`: a C string ends at the first NUL. -/
def owning (s : Bytes) : Bytes := s.takeWhile (· ≠ 0)

/-- `join_path`. -/
def joinPath (parent segment : Bytes) : Bytes := parent ++ 47 :: segment

/-- `record`. -/
def record (errors : List ValidationError) (instancePath schemaPath message : Bytes) :
    List ValidationError :=
  errors ++ [⟨instancePath, schemaPath, owning message⟩]

/-- `type_name`. -/
def typeName : JsonValue → Bytes
  | .null => ascii "null"
  | .bool _ => ascii "boolean"
  | .int _ => ascii "integer"
  | .float _ => ascii "number"
  | .string _ => ascii "string"
  | .array _ => ascii "array"
  | .object _ => ascii "object"

/-! ## `type` -/

/-- The lambda `match_one`. -/
def matchOne (doc : JsonValue) (expected : Bytes) : Bool :=
  if expected = ascii "null" then doc matches .null
  else if expected = ascii "boolean" then doc matches .bool _
  else if expected = ascii "integer" then doc matches .int _
  else if expected = ascii "number" then doc matches .int _ | .float _
  else if expected = ascii "string" then doc matches .string _
  else if expected = ascii "array" then doc matches .array _
  else if expected = ascii "object" then doc matches .object _
  else false

/-- The test of one entry of a list of types. -/
def matchEntry (doc : JsonValue) : JsonValue → Bool
  | .string expected => matchOne doc expected
  | _ => false

/-- `check_type`. -/
def checkType (doc typeKeyword : JsonValue) (instancePath schemaPath : Bytes)
    (errors : List ValidationError) :
    Except SchemaError (List ValidationError) :=
  match typeKeyword with
  | .string expected =>
    if matchOne doc expected then .ok errors
    else .ok (record errors instancePath schemaPath
      (ascii "expected " ++ expected ++ ascii ", got " ++ typeName doc))
  | .array entries =>
    if entries.any (matchEntry doc) then .ok errors
    else .ok (record errors instancePath schemaPath (ascii "type mismatch: got " ++ typeName doc))
  | _ => .error ⟨schemaPath, owning (ascii "\"type\" must be string or array")⟩

/-- The lambda `known`. -/
def knownType (s : Bytes) : Bool :=
  s == ascii "null" || s == ascii "boolean" || s == ascii "integer" || s == ascii "number" ||
    s == ascii "string" || s == ascii "array" || s == ascii "object"

/-- What `validate_type_keyword_shape` has against an entry of a list of types. -/
def badEntry : JsonValue → Option Bytes
  | .string s => if knownType s then none else some s
  | _ => some (ascii "<non-string>")

/-- `validate_type_keyword_shape`: the bad value, if it returns false. -/
def validateTypeKeywordShape : JsonValue → Option Bytes
  | .string s => if knownType s then none else some s
  | .array entries => entries.findSome? badEntry
  | _ => some (ascii "<non-string>")

/-- The keyword `type` in `validate_node`. -/
def applyType (doc : JsonValue) (schema : ObjectStorage) (instancePath schemaPath : Bytes)
    (errors : List ValidationError) : Except SchemaError (List ValidationError) :=
  match find schema (ascii "type") with
  | none => .ok errors
  | some t =>
    match validateTypeKeywordShape t with
    | some bad =>
      .error ⟨joinPath schemaPath (ascii "type"), owning (ascii "unknown type value: " ++ bad)⟩
    | none => checkType doc t instancePath (joinPath schemaPath (ascii "type")) errors

/-! ## `const` and `enum` -/

/-- The keyword `const` in `validate_node`. -/
def applyConst (doc : JsonValue) (schema : ObjectStorage) (instancePath schemaPath : Bytes)
    (errors : List ValidationError) : List ValidationError :=
  match find schema (ascii "const") with
  | none => errors
  | some c =>
    if jsonEqual doc c then errors
    else record errors instancePath (joinPath schemaPath (ascii "const"))
      (ascii "value does not equal const")

/-- `check_enum`. -/
def checkEnum (doc enumKeyword : JsonValue) (instancePath schemaPath : Bytes)
    (errors : List ValidationError) :
    List ValidationError :=
  match enumKeyword with
  | .array candidates =>
    if candidates.any (jsonEqual doc) then errors
    else record errors instancePath schemaPath (ascii "value not in enum")
  | _ => errors

/-- The keyword `enum` in `validate_node`. -/
def applyEnum (doc : JsonValue) (schema : ObjectStorage) (instancePath schemaPath : Bytes)
    (errors : List ValidationError) : Except SchemaError (List ValidationError) :=
  match find schema (ascii "enum") with
  | none => .ok errors
  | some (.array candidates) =>
    .ok (checkEnum doc (.array candidates) instancePath (joinPath schemaPath (ascii "enum")) errors)
  | some _ =>
    .error ⟨joinPath schemaPath (ascii "enum"), owning (ascii "\"enum\" must be an array")⟩

/-! ## Bounds -/

/-- A number as a double. -/
def toDouble : JsonValue → Option F64
  | .int v => some (F64.ofInt64 v)
  | .float v => some v
  | _ => none

/-- `check_numeric_bounds`. -/
def checkNumericBounds (doc : JsonValue) (schema : ObjectStorage) (instancePath schemaPath : Bytes)
    (errors : List ValidationError) : List ValidationError :=
  match toDouble doc with
  | none => errors
  | some val =>
    let errors :=
      match (find schema (ascii "minimum")).bind toDouble with
      | none => errors
      | some limit =>
        if val.lt limit then
          record errors instancePath (joinPath schemaPath (ascii "minimum"))
            (ascii "value below minimum")
        else errors
    match (find schema (ascii "maximum")).bind toDouble with
    | none => errors
    | some limit =>
      if limit.lt val then
        record errors instancePath (joinPath schemaPath (ascii "maximum"))
          (ascii "value above maximum")
      else errors

/-- `as_int`, of an integer. -/
def toInt : JsonValue → Option Int64
  | .int v => some v
  | _ => none

/-- `check_string_bounds`. -/
def checkStringBounds (doc : JsonValue) (schema : ObjectStorage) (instancePath schemaPath : Bytes)
    (errors : List ValidationError) : List ValidationError :=
  match doc with
  | .string s =>
    let cpLen := Int64.ofNat (countCodePoints s)
    let errors :=
      match (find schema (ascii "minLength")).bind toInt with
      | none => errors
      | some limit =>
        if cpLen < limit then
          record errors instancePath (joinPath schemaPath (ascii "minLength"))
            (ascii "string shorter than minLength")
        else errors
    match (find schema (ascii "maxLength")).bind toInt with
    | none => errors
    | some limit =>
      if limit < cpLen then
        record errors instancePath (joinPath schemaPath (ascii "maxLength"))
          (ascii "string longer than maxLength")
      else errors
  | _ => errors

/-! ## Objects and arrays -/

/-- The loop over the names of `required`. -/
def checkRequired (fields : ObjectStorage) (instancePath schemaPath : Bytes) :
    List JsonValue → List ValidationError → Except SchemaError (List ValidationError)
  | [], errors => .ok errors
  | .string key :: keys, errors =>
    checkRequired fields instancePath schemaPath keys
      (match find fields key with
        | some _ => errors
        | none =>
          record errors instancePath schemaPath (ascii "missing required property: " ++ key))
  | _ :: _, _ => .error ⟨schemaPath, owning (ascii "\"required\" entries must be strings")⟩

/-- The keyword `required` in `validate_node`. -/
def applyRequired (fields schema : ObjectStorage) (instancePath schemaPath : Bytes)
    (errors : List ValidationError) :
    Except SchemaError (List ValidationError) :=
  match find schema (ascii "required") with
  | none => .ok errors
  | some (.array keys) =>
    checkRequired fields instancePath (joinPath schemaPath (ascii "required")) keys errors
  | some _ =>
    .error ⟨joinPath schemaPath (ascii "required"), owning (ascii "\"required\" must be an array")⟩

/-- The checks of `validate_node` that stay at one node. -/
def checkNode (doc : JsonValue) (schema : ObjectStorage) (instancePath schemaPath : Bytes)
    (errors : List ValidationError) : Except SchemaError (List ValidationError) := do
  let errors ← applyType doc schema instancePath schemaPath errors
  let errors := applyConst doc schema instancePath schemaPath errors
  let errors ← applyEnum doc schema instancePath schemaPath errors
  let errors := checkNumericBounds doc schema instancePath schemaPath errors
  let errors := checkStringBounds doc schema instancePath schemaPath errors
  match doc with
  | .object fields => applyRequired fields schema instancePath schemaPath errors
  | _ => .ok errors

theorem sizeOf_lt_of_find {members : ObjectStorage} {key : Bytes} {v : JsonValue}
    (h : find members key = some v) :
    sizeOf v < sizeOf members := by
  have hmem := List.sizeOf_lt_of_mem (mem_of_firstOf h)
  simp only [Prod.mk.sizeOf_spec] at hmem
  omega

mutual

/-- `validate_node`. -/
def validateNode (doc schema : JsonValue) (instancePath schemaPath : Bytes)
    (errors : List ValidationError) :
    Except SchemaError (List ValidationError) :=
  match schema with
  | .object keywords => do
    let errors ← checkNode doc keywords instancePath schemaPath errors
    match doc with
    | .object fields =>
      match _hprops : find keywords (ascii "properties") with
      | none => .ok errors
      | some (.object props) => validateProperties fields props instancePath schemaPath errors
      | some _ =>
        .error ⟨joinPath schemaPath (ascii "properties"),
          owning (ascii "\"properties\" must be an object")⟩
    | .array arr =>
      match _hitems : find keywords (ascii "items") with
      | none => .ok errors
      | some items => validateItems 0 arr items instancePath schemaPath errors
    | _ => .ok errors
  | _ => .error ⟨schemaPath, owning (ascii "schema must be an object")⟩
  termination_by (sizeOf schema, 0)
  decreasing_by
    · have hlt := sizeOf_lt_of_find _hprops
      simp only [JsonValue.object.sizeOf_spec] at hlt ⊢
      exact Prod.Lex.left _ _ (by omega)
    · have hlt := sizeOf_lt_of_find _hitems
      simp only [JsonValue.object.sizeOf_spec]
      exact Prod.Lex.left _ _ (by omega)

/-- The loop over `properties`. -/
def validateProperties (fields props : ObjectStorage) (instancePath schemaPath : Bytes)
    (errors : List ValidationError) : Except SchemaError (List ValidationError) :=
  match props with
  | [] => .ok errors
  | (key, subSchema) :: props =>
    match find fields key with
    | none => validateProperties fields props instancePath schemaPath errors
    | some field => do
      let errors ← validateNode field subSchema (joinPath instancePath key)
        (joinPath schemaPath key) errors
      validateProperties fields props instancePath schemaPath errors
  termination_by (sizeOf props, 0)

/-- The loop over the elements of an array, from the position `i` on. -/
def validateItems (i : Nat) (arr : List JsonValue) (items : JsonValue)
    (instancePath schemaPath : Bytes)
    (errors : List ValidationError) : Except SchemaError (List ValidationError) :=
  match arr with
  | [] => .ok errors
  | v :: arr => do
    let errors ←
      validateNode v items (joinPath instancePath (toChars 10 i))
        (joinPath schemaPath (ascii "items")) errors
    validateItems (i + 1) arr items instancePath schemaPath errors
  termination_by (sizeOf items, arr.length + 1)

end

/-- `validate`. -/
def validate (document schema : JsonValue) : Except SchemaError (List ValidationError) :=
  validateNode document schema [] [] []

end Libca.Json
