import Libca.Common.Except
import Libca.Json.Schema

/-!
# Integer bounds in a schema (`json/json_schema.cpp`)

* `KeepsOthers`: the checks of one keyword add errors at its own schema path only.
* `WellShaped`: the two keywords that make `validate` refuse a schema for an integer.
* `mem_checkNumericBounds_int`: the errors at the bounds, for an integer and integer bounds.
* `bounds_exact_iff`: **the bounds are exact when an integer outside is not rounded to the double of
  the bound** (and the schema is not refused).
-/

namespace Libca.Json

open Common JsonValue

/-! ## Where errors are added -/

/-- Only errors at one schema path are added. -/
def KeepsOthers (path : Bytes) (errors errors' : List ValidationError) : Prop :=
  ∀ e : ValidationError, e.schemaPath ≠ path → (e ∈ errors' ↔ e ∈ errors)

variable {doc : JsonValue} {schema : ObjectStorage} {instancePath schemaPath : Bytes}
  {errors errors' : List ValidationError}

theorem KeepsOthers.refl (path : Bytes) (errors : List ValidationError) :
    KeepsOthers path errors errors :=
  fun _ _ => Iff.rfl

theorem keepsOthers_record (errors : List ValidationError) (instancePath path message : Bytes) :
    KeepsOthers path errors (record errors instancePath path message) := by
  intro e he
  rw [record, List.mem_append, List.mem_singleton]
  refine or_iff_left ?_
  rintro rfl
  exact he rfl

/-- `check_type` never fails behind `validate_type_keyword_shape`. -/
theorem checkType_of_shape {t : JsonValue} (h : validateTypeKeywordShape t = none) :
    ∃ errors', checkType doc t instancePath schemaPath errors = .ok errors' ∧
      KeepsOthers schemaPath errors errors' := by
  cases t with
  | string expected =>
    simp only [checkType]
    split_ifs
    · exact ⟨_, rfl, KeepsOthers.refl _ _⟩
    · exact ⟨_, rfl, keepsOthers_record _ _ _ _⟩
  | array entries =>
    simp only [checkType]
    split_ifs
    · exact ⟨_, rfl, KeepsOthers.refl _ _⟩
    · exact ⟨_, rfl, keepsOthers_record _ _ _ _⟩
  | _ => cases h

/-- The keywords that `validate` looks at for every document are of the form it asks for. -/
def WellShaped (schema : ObjectStorage) : Prop :=
  (∀ t, find schema (ascii "type") = some t → validateTypeKeywordShape t = none) ∧
    ∀ e, find schema (ascii "enum") = some e → ∃ candidates, e = .array candidates

theorem applyType_of_shape (doc : JsonValue) (instancePath schemaPath : Bytes)
    (errors : List ValidationError)
    (h : ∀ t, find schema (ascii "type") = some t → validateTypeKeywordShape t = none) :
    ∃ errors', applyType doc schema instancePath schemaPath errors = .ok errors' ∧
      KeepsOthers (joinPath schemaPath (ascii "type")) errors errors' := by
  unfold applyType
  cases ht : find schema (ascii "type") with
  | none => exact ⟨errors, rfl, KeepsOthers.refl _ _⟩
  | some t =>
    simp only [h t ht]
    exact checkType_of_shape (h t ht)

theorem keepsOthers_applyConst :
    KeepsOthers (joinPath schemaPath (ascii "const")) errors
      (applyConst doc schema instancePath schemaPath errors) := by
  unfold applyConst
  split
  · exact KeepsOthers.refl _ _
  · split_ifs
    · exact KeepsOthers.refl _ _
    · exact keepsOthers_record _ _ _ _

theorem applyEnum_of_shape (doc : JsonValue) (instancePath schemaPath : Bytes)
    (errors : List ValidationError)
    (h : ∀ e, find schema (ascii "enum") = some e → ∃ candidates, e = .array candidates) :
    ∃ errors', applyEnum doc schema instancePath schemaPath errors = .ok errors' ∧
      KeepsOthers (joinPath schemaPath (ascii "enum")) errors errors' := by
  unfold applyEnum
  cases he : find schema (ascii "enum") with
  | none => exact ⟨errors, rfl, KeepsOthers.refl _ _⟩
  | some e =>
    obtain ⟨candidates, rfl⟩ := h e he
    refine ⟨_, rfl, ?_⟩
    simp only [checkEnum]
    split_ifs
    · exact KeepsOthers.refl _ _
    · exact keepsOthers_record _ _ _ _

/-- An integer that a schema is not refused for: the errors are those of the keywords in turn. -/
theorem validate_int_of_shape {n : Int64} (h : WellShaped schema) :
    ∃ errors, validate (.int n) (.object schema) =
        .ok (checkNumericBounds (.int n) schema [] [] errors) ∧
      ∀ e ∈ errors, e.schemaPath = joinPath [] (ascii "type") ∨
        e.schemaPath = joinPath [] (ascii "const") ∨ e.schemaPath = joinPath [] (ascii "enum") := by
  obtain ⟨typed, htyped, hfromType⟩ := applyType_of_shape (.int n) [] [] [] h.1
  obtain ⟨listed, hlisted, hfromEnum⟩ := applyEnum_of_shape (.int n) [] []
    (applyConst (.int n) schema [] [] typed) h.2
  refine ⟨listed, ?_, fun e he => ?_⟩
  · simp only [validate, validateNode, checkNode, htyped, except_ok_bind, hlisted,
      checkStringBounds]
  · by_contra hother
    obtain ⟨htype, hconst, henum⟩ : e.schemaPath ≠ joinPath [] (ascii "type") ∧
        e.schemaPath ≠ joinPath [] (ascii "const") ∧ e.schemaPath ≠ joinPath [] (ascii "enum") := by
      simpa only [not_or] using hother
    rw [hfromEnum e henum, keepsOthers_applyConst e hconst, hfromType e htype] at he
    cases he

/-- A schema that is refused for an integer. -/
theorem validate_int_of_not_shape {n : Int64} (h : ¬ WellShaped schema) :
    ∃ e, validate (.int n) (.object schema) = .error e := by
  by_cases htype : ∀ t, find schema (ascii "type") = some t → validateTypeKeywordShape t = none
  · obtain ⟨typed, htyped, -⟩ := applyType_of_shape (.int n) [] [] [] htype
    obtain ⟨e, he, harray⟩ : ∃ e, find schema (ascii "enum") = some e ∧ ∀ candidates,
      e ≠ .array candidates := by
      by_contra hnone
      refine h ⟨htype, fun e he => ?_⟩
      by_contra hother
      exact hnone ⟨e, he, fun candidates heq => hother ⟨candidates, heq⟩⟩
    have hrefused (errors : List ValidationError) : ∃ e, applyEnum (.int n) schema [] [] errors =
      .error e := by
      unfold applyEnum
      rw [he]
      cases e with
      | array candidates => exact absurd rfl (harray candidates)
      | _ => exact ⟨_, rfl⟩
    obtain ⟨refusal, hrefusal⟩ := hrefused (applyConst (.int n) schema [] [] typed)
    refine ⟨refusal, ?_⟩
    simp only [validate, validateNode, checkNode, htyped, except_ok_bind, hrefusal]
    rfl
  · obtain ⟨t, ht, hbad⟩ : ∃ t, find schema (ascii "type") = some t ∧ validateTypeKeywordShape t ≠
      none := by
      by_contra hnone
      refine htype fun t ht => ?_
      by_contra hbad
      exact hnone ⟨t, ht, hbad⟩
    obtain ⟨bad, hbad⟩ := Option.ne_none_iff_exists'.mp hbad
    have hrefused : ∃ e, applyType (.int n) schema [] [] [] = .error e := by
      unfold applyType
      simp only [ht, hbad]
      exact ⟨_, rfl⟩
    obtain ⟨refusal, hrefusal⟩ := hrefused
    refine ⟨refusal, ?_⟩
    simp only [validate, validateNode, checkNode, hrefusal]
    rfl

/-! ## The errors at the bounds -/

/-- The error of an integer below the minimum. -/
def belowMinimum : ValidationError :=
  ⟨[], joinPath [] (ascii "minimum"), ascii "value below minimum"⟩

/-- The error of an integer above the maximum. -/
def aboveMaximum : ValidationError :=
  ⟨[], joinPath [] (ascii "maximum"), ascii "value above maximum"⟩

/-- `validate` returns errors with `e` among them. -/
def Records (document schema : JsonValue) (e : ValidationError) : Prop :=
  ∃ errors, validate document schema = .ok errors ∧ e ∈ errors

variable {n lo hi : Int64}

/-- What `check_numeric_bounds` adds for an integer and integer bounds. -/
theorem mem_checkNumericBounds_int (hlo : find schema (ascii "minimum") = some (.int lo))
    (hhi : find schema (ascii "maximum") = some (.int hi)) {e : ValidationError} :
    e ∈ checkNumericBounds (.int n) schema [] [] errors ↔
      e ∈ errors ∨ ((F64.ofInt64 n).lt (F64.ofInt64 lo) = true ∧ e = belowMinimum) ∨
        ((F64.ofInt64 hi).lt (F64.ofInt64 n) = true ∧ e = aboveMaximum) := by
  have hbelow : owning (ascii "value below minimum") = ascii "value below minimum" := by decide
  have habove : owning (ascii "value above maximum") = ascii "value above maximum" := by decide
  simp only [checkNumericBounds, toDouble, hlo, hhi, Option.bind_some]
  by_cases hmin : (F64.ofInt64 n).lt (F64.ofInt64 lo) = true <;>
    by_cases hmax : (F64.ofInt64 hi).lt (F64.ofInt64 n) = true <;>
    simp [hmin, hmax, record, hbelow, habove, belowMinimum, aboveMaximum]

/-- **The errors at the bounds, for an integer and integer bounds.** -/
theorem records_iff (h : WellShaped schema) (hlo : find schema (ascii "minimum") = some (.int lo))
    (hhi : find schema (ascii "maximum") = some (.int hi)) :
    (Records (.int n) (.object schema) belowMinimum ↔ (F64.ofInt64 n).lt (F64.ofInt64 lo) = true) ∧
      (Records (.int n) (.object schema) aboveMaximum ↔ (F64.ofInt64 hi).lt (F64.ofInt64 n) =
      true) := by
  obtain ⟨errors, hvalidate, hothers⟩ := validate_int_of_shape (n := n) h
  have hmem (e : ValidationError) : Records (.int n) (.object schema) e ↔
      e ∈ errors ∨ ((F64.ofInt64 n).lt (F64.ofInt64 lo) = true ∧ e = belowMinimum) ∨
        ((F64.ofInt64 hi).lt (F64.ofInt64 n) = true ∧ e = aboveMaximum) := by
    rw [← mem_checkNumericBounds_int hlo hhi, Records, hvalidate]
    constructor
    · rintro ⟨_, heq, he⟩
      rwa [Except.ok.inj heq]
    · intro he
      exact ⟨_, rfl, he⟩
  have hbelow : belowMinimum ∉ errors := fun hin => absurd (hothers _ hin) (by decide)
  have habove : aboveMaximum ∉ errors := fun hin => absurd (hothers _ hin) (by decide)
  have hne : belowMinimum ≠ aboveMaximum := by decide
  rw [hmem, hmem]
  simp [hbelow, habove, hne, hne.symm]

/-- A schema that is refused records nothing. -/
theorem not_records_of_not_shape (h : ¬ WellShaped schema) (e : ValidationError) :
    ¬ Records (.int n) (.object schema) e := by
  obtain ⟨refusal, hrefusal⟩ := validate_int_of_not_shape (n := n) h
  rintro ⟨errors, hvalidate, -⟩
  rw [hrefusal] at hvalidate
  cases hvalidate

/-- **Integer bounds are exact if and only if no integer outside of them has the double of the
bound, and the schema is not refused when one is outside.** -/
theorem bounds_exact_iff (hlo : find schema (ascii "minimum") = some (.int lo))
    (hhi : find schema (ascii "maximum") = some (.int hi)) :
    ((Records (.int n) (.object schema) belowMinimum ↔ n.toInt < lo.toInt) ∧
        (Records (.int n) (.object schema) aboveMaximum ↔ hi.toInt < n.toInt)) ↔
      (n.toInt < lo.toInt ∨ hi.toInt < n.toInt → WellShaped schema) ∧
        (n.toInt < lo.toInt → F64.ofInt64 n ≠ F64.ofInt64 lo) ∧
        (hi.toInt < n.toInt → F64.ofInt64 n ≠ F64.ofInt64 hi) := by
  by_cases hshape : WellShaped schema
  · obtain ⟨hbelow, habove⟩ := records_iff (n := n) hshape hlo hhi
    rw [hbelow, habove, F64.lt_ofInt64_iff, F64.lt_ofInt64_iff, and_iff_left_iff_imp,
      and_iff_left_iff_imp]
    exact ⟨fun ⟨hmin, hmax⟩ => ⟨fun _ => hshape, hmin, fun h => (hmax h).symm⟩,
      fun ⟨_, hmin, hmax⟩ => ⟨hmin, fun h => (hmax h).symm⟩⟩
  · have hnone (e : ValidationError) := not_records_of_not_shape (n := n) hshape e
    constructor
    · rintro ⟨hmin, hmax⟩
      have hinside : n.toInt < lo.toInt ∨ hi.toInt < n.toInt → False := by
        rintro (h | h)
        · exact hnone _ (hmin.mpr h)
        · exact hnone _ (hmax.mpr h)
      exact ⟨fun h => (hinside h).elim, fun h => (hinside (.inl h)).elim, fun h =>
        (hinside (.inr h)).elim⟩
    · rintro ⟨hrefused, -, -⟩
      exact ⟨⟨fun h => (hnone _ h).elim, fun h => (hshape (hrefused (.inl h))).elim⟩,
        ⟨fun h => (hnone _ h).elim, fun h => (hshape (hrefused (.inr h))).elim⟩⟩

/-- The bounds `1` and `2 ^ 53`, and the integer behind them, whose double is `2 ^ 53`. -/
theorem bounds_exact_iff_neighbours :
    ((Records (.int 9007199254740993)
            (.object [(ascii "minimum", .int 1), (ascii "maximum", .int 9007199254740992)])
              belowMinimum ↔
          (9007199254740993 : Int64).toInt < (1 : Int64).toInt) ∧
        (Records (.int 9007199254740993)
            (.object [(ascii "minimum", .int 1), (ascii "maximum", .int 9007199254740992)])
              aboveMaximum ↔
          (9007199254740992 : Int64).toInt < (9007199254740993 : Int64).toInt)) ↔
      ((9007199254740993 : Int64).toInt < (1 : Int64).toInt ∨
            (9007199254740992 : Int64).toInt < (9007199254740993 : Int64).toInt →
          WellShaped [(ascii "minimum", .int 1), (ascii "maximum", .int 9007199254740992)]) ∧
        ((9007199254740993 : Int64).toInt < (1 : Int64).toInt →
          F64.ofInt64 9007199254740993 ≠ F64.ofInt64 1) ∧
        ((9007199254740992 : Int64).toInt < (9007199254740993 : Int64).toInt →
          F64.ofInt64 9007199254740993 ≠ F64.ofInt64 9007199254740992) :=
  bounds_exact_iff rfl rfl

/-- **An integer above the maximum is accepted.** -/
theorem not_bounds_exact :
    ¬ (Records (.int 9007199254740993)
          (.object [(ascii "minimum", .int 1), (ascii "maximum", .int 9007199254740992)])
            aboveMaximum ↔
        (9007199254740992 : Int64).toInt < (9007199254740993 : Int64).toInt) := by
  have hshape : WellShaped [(ascii "minimum", .int 1), (ascii "maximum", .int 9007199254740992)] :=
    ⟨nofun, nofun⟩
  rw [(records_iff hshape rfl rfl).2]
  decide

end Libca.Json
