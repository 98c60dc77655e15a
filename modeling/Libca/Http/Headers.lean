import Libca.Common.Bytes
import Mathlib.Data.List.DropRight

/-!
# HTTP headers

Model of `HttpHeaders` (`http/headers.cpp`) and `HttpError` (`http/http_error.hpp`). A header field
carries the proof that its name and value are valid, which `append` and `set` check. A collection
is the list of its fields in order.

* `trimOws`, `asciiEquals`: the helpers the codec shares with it.
* `validValue_trimOws`, `trimOws_idem`: trimming keeps a value valid, and trims once.
-/

namespace Libca.Http

open Common

/-- `HttpErrorKind`. -/
inductive HttpErrorKind
  | io
  | invalidUrl
  | invalidMessage
  | invalidState
  | expectationFailed
  | headerLimitExceeded
  | bodyLimitExceeded
  | unsupported
  deriving DecidableEq, Repr

/-- `HttpError`. -/
structure HttpError where
  kind : HttpErrorKind
  message : String
  deriving DecidableEq, Repr

/-! ## Bytes of a field -/

/-- `ascii_lower`. -/
def asciiLower (b : UInt8) : UInt8 := if 65 ≤ b ∧ b ≤ 90 then b + 32 else b

/-- `ascii_equals`, `HttpHeaders::name_equals`. -/
def asciiEquals (lhs rhs : Bytes) : Bool := lhs.map asciiLower == rhs.map asciiLower

/-- Optional whitespace: SP and HTAB. -/
def isOws (b : UInt8) : Bool := b == 32 || b == 9

/-- `trim_ows`. -/
def trimOws (value : Bytes) : Bytes := (value.dropWhile isOws).rdropWhile isOws

/-- `is_token_character`. -/
def isTokenCharacter (b : UInt8) : Bool :=
  (97 ≤ b && b ≤ 122) || (65 ≤ b && b ≤ 90) || (48 ≤ b && b ≤ 57) ||
    (ascii "!#$%&'*+-.^_`|~").contains b

/-- A byte that `valid_value` lets through. -/
def isValueByte (b : UInt8) : Bool := b == 9 || (32 ≤ b && b != 127)

/-- `HttpHeaders::valid_name`. -/
def validName (name : Bytes) : Bool := !name.isEmpty && name.all isTokenCharacter

/-- `HttpHeaders::valid_value`. -/
def validValue (value : Bytes) : Bool := value.all isValueByte

/-! ## Fields -/

/-- `HttpHeader`, as `append` and `set` let it in. -/
structure HttpHeader where
  name : Bytes
  value : Bytes
  name_valid : validName name = true
  value_valid : validValue value = true
  deriving DecidableEq

/-- `HttpHeaders`. -/
abbrev HttpHeaders := List HttpHeader

namespace HttpHeaders

variable (headers : HttpHeaders) (name value : Bytes)

/-- A field of the given name and value, when they are valid. -/
def field : Except HttpError HttpHeader :=
  if hn : validName name = true then
    if hv : validValue value = true then .ok ⟨name, value, hn, hv⟩
    else .error ⟨.invalidMessage, "HTTP header value contains a forbidden control byte"⟩
  else .error ⟨.invalidMessage, "HTTP header name is not a valid token"⟩

/-- `HttpHeaders::append`. -/
def append : Except HttpError HttpHeaders := (field name value).map fun h => headers ++ [h]

/-- `HttpHeaders::remove`. -/
def remove : HttpHeaders := headers.filter fun h => !asciiEquals h.name name

/-- `HttpHeaders::set`. -/
def set : Except HttpError HttpHeaders :=
  (field name value).map fun h => remove headers name ++ [h]

/-- `HttpHeaders::get_all`. -/
def getAll : List Bytes := (headers.filter fun h => asciiEquals h.name name).map HttpHeader.value

/-- `HttpHeaders::contains`. -/
def contains : Bool := headers.any fun h => asciiEquals h.name name

end HttpHeaders

/-! ## Lemmas -/

variable {b : UInt8}

theorem isTokenCharacter_ne {c : UInt8} (h : isTokenCharacter b = true)
    (hc : isTokenCharacter c = false) : b ≠ c := by
  rintro rfl
  rw [h] at hc
  cases hc

theorem isValueByte_ne {c : UInt8} (h : isValueByte b = true) (hc : isValueByte c = false) :
    b ≠ c := by
  rintro rfl
  rw [h] at hc
  cases hc

theorem validName_iff {name : Bytes} :
    validName name = true ↔ name ≠ [] ∧ ∀ b ∈ name, isTokenCharacter b = true := by
  simp [validName]

theorem validValue_iff {value : Bytes} :
    validValue value = true ↔ ∀ b ∈ value, isValueByte b = true := by
  simp [validValue]

theorem trimOws_sublist (value : Bytes) : (trimOws value).Sublist value :=
  (List.rdropWhile_prefix _ _).sublist.trans (List.dropWhile_sublist _)

theorem validValue_trimOws {value : Bytes} (h : validValue value = true) :
    validValue (trimOws value) = true := by
  rw [validValue_iff] at h ⊢
  exact fun b hb => h b ((trimOws_sublist value).subset hb)

/-- The value of a field with the whitespace around it removed, as a reader keeps it. -/
def HttpHeader.trimmed (h : HttpHeader) : HttpHeader :=
  ⟨h.name, trimOws h.value, h.name_valid, validValue_trimOws h.value_valid⟩

/-- A collection as a reader keeps it. -/
def HttpHeaders.trimmed (headers : HttpHeaders) : HttpHeaders := headers.map HttpHeader.trimmed

theorem trimOws_cons_of_ows (h : isOws b = true) (value : Bytes) :
    trimOws (b :: value) = trimOws value := by
  unfold trimOws
  rw [List.dropWhile_cons_of_pos h]

theorem trimOws_concat_of_ows (h : isOws b = true) (value : Bytes) :
    trimOws (value ++ [b]) = trimOws value := by
  unfold trimOws
  by_cases hv : ∀ c ∈ value, isOws c = true
  · have hall : ∀ c ∈ value ++ [b], isOws c = true := by
      intro c hc
      rcases List.mem_append.mp hc with hc | hc
      · exact hv c hc
      · rw [List.mem_singleton.mp hc, h]
    rw [List.dropWhile_eq_nil_iff.mpr hall, List.dropWhile_eq_nil_iff.mpr hv]
  · have hdrop : (value ++ [b]).dropWhile isOws = value.dropWhile isOws ++ [b] := by
      rw [List.dropWhile_append, if_neg]
      intro hnil
      exact hv (List.dropWhile_eq_nil_iff.mp (List.isEmpty_iff.mp hnil))
    rw [hdrop, List.rdropWhile_concat_pos _ _ _ h]

theorem getAll_trimmed (headers : HttpHeaders) (name : Bytes) :
    headers.trimmed.getAll name = (headers.getAll name).map trimOws := by
  unfold HttpHeaders.getAll HttpHeaders.trimmed
  rw [List.filter_map, List.map_map, List.map_map]
  rfl

theorem contains_trimmed (headers : HttpHeaders) (name : Bytes) :
    headers.trimmed.contains name = headers.contains name := by
  unfold HttpHeaders.contains HttpHeaders.trimmed
  rw [List.any_map]
  rfl

theorem contains_eq_false_iff {headers : HttpHeaders} {name : Bytes} :
    headers.contains name = false ↔ headers.getAll name = [] := by
  unfold HttpHeaders.contains HttpHeaders.getAll
  rw [List.map_eq_nil_iff, List.filter_eq_nil_iff, List.any_eq_false]

/-- Setting a field that is absent adds it at the end. -/
theorem set_of_absent {headers : HttpHeaders} {name value : Bytes} (h : headers.getAll name = []) :
    headers.set name value = headers.append name value := by
  have hremove : headers.remove name = headers := by
    unfold HttpHeaders.remove
    rw [List.filter_eq_self]
    intro f hf
    have habsent := List.any_eq_false.mp (contains_eq_false_iff.mpr h) f hf
    simpa using habsent
  unfold HttpHeaders.set HttpHeaders.append
  rw [hremove]

/-- **What does not see whitespace at either end does not see trimming.** -/
theorem eq_trimOws {α : Sort*} (f : Bytes → α) (hfront : ∀ b v, isOws b = true → f (b :: v) = f v)
    (hback : ∀ b v, isOws b = true → f (v ++ [b]) = f v) (value : Bytes) :
    f (trimOws value) = f value := by
  have hdrop : f (value.dropWhile isOws) = f value := by
    induction value with
    | nil => rfl
    | cons b v ih =>
      by_cases hb : isOws b = true
      · rw [List.dropWhile_cons_of_pos hb, ih, hfront b v hb]
      · rw [List.dropWhile_cons_of_neg hb]
  rw [← hdrop]
  unfold trimOws
  generalize value.dropWhile isOws = v
  induction v using List.reverseRecOn with
  | nil => rfl
  | append_singleton v b ih =>
    by_cases hb : isOws b = true
    · rw [List.rdropWhile_concat_pos _ _ _ hb, ih, hback b v hb]
    · rw [List.rdropWhile_concat_neg _ _ _ hb]

theorem trimOws_idem (value : Bytes) : trimOws (trimOws value) = trimOws value :=
  eq_trimOws trimOws (fun _ v h => trimOws_cons_of_ows h v) (fun _ v h =>
    trimOws_concat_of_ows h v) value

end Libca.Http
