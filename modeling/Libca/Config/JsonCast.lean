import Libca.Json.Value
import Mathlib.Data.Finmap

/-!
# `JsonCast` (`config/lexical_cast.hpp` 53-197)

The types of configuration values, their values and `operator==`, and what a JSON value converts to.

* `Ty.Val`: a value of a type; a map is a finite map, because the order of an `unordered_map` is not
  specified.
* `Ty.equal_symm`, `Ty.equal_trans`: `operator==` is symmetric and transitive. It is not reflexive
  on floating values.
* `Ty.Same`: identical or equal; `same_equivalence`.
* `JsonCast.fromJson`: the conversion, with its checks of the type and of the range.
-/

namespace Libca.Config

open Common Json

/-! ## The types -/

/-- `float`, `double` and `long double`. -/
inductive FloatKind
  | single
  | double
  | extended
deriving DecidableEq, Repr

/-- A floating type of the language: its values and `operator==`, and the conversions of the
language from and to `f64` and from `i64`. -/
structure FloatType where
  Val : Type
  equal : Val → Val → Bool
  symm : ∀ a b, equal a b = true → equal b a = true
  trans : ∀ a b c, equal a b = true → equal b c = true → equal a c = true
  toF64 : Val → F64
  ofF64 : F64 → Val
  ofI64 : Int64 → Val

/-- The floating types, and the conversion of `u64` to `f64`. -/
structure Floats where
  type : FloatKind → FloatType
  f64OfU64 : Nat → F64

/-- The sizes of the integer types. -/
inductive Width
  | w8
  | w16
  | w32
  | w64
deriving DecidableEq, Repr

def Width.bits : Width → Nat
  | .w8 => 8
  | .w16 => 16
  | .w32 => 32
  | .w64 => 64

/-- The types that `JsonCast` supports. -/
inductive Ty
  | bool
  | integer (signed : Bool) (width : Width)
  | float (kind : FloatKind)
  | string
  | vector (item : Ty)
  | map (item : Ty)
deriving DecidableEq, Repr

/-- `std::numeric_limits<T>::min()`. -/
def lowest (signed : Bool) (width : Width) : Int := if signed then -2 ^ (width.bits - 1) else 0

/-- `std::numeric_limits<T>::max()`. -/
def highest (signed : Bool) (width : Width) : Int :=
  if signed then 2 ^ (width.bits - 1) - 1 else 2 ^ width.bits - 1

/-- The values of an integer type. -/
abbrev IntVal (signed : Bool) (width : Width) : Type :=
  { v : Int // lowest signed width ≤ v ∧ v ≤ highest signed width }

/-- A `std::unordered_map` from strings, without an order. -/
abbrev Dict (V : Type) : Type := Finmap fun _ : Bytes => V

variable (floats : Floats)

namespace Ty

def Val : Ty → Type
  | .bool => Bool
  | .integer signed width => IntVal signed width
  | .float kind => (floats.type kind).Val
  | .string => Bytes
  | .vector item => List (Val item)
  | .map item => Dict (Val item)

/-- `operator==` on entries that may be missing. -/
def equalEntry {V : Type} (equal : V → V → Bool) : Option V → Option V → Bool
  | none, none => true
  | some a, some b => equal a b
  | _, _ => false

/-- `operator==` of maps. -/
def equalDict {V : Type} (equal : V → V → Bool) (m m' : Dict V) : Bool :=
  decide (∀ key ∈ m.keys ∪ m'.keys, equalEntry equal (m.lookup key) (m'.lookup key) = true)

/-- `operator==`. -/
def equal : (t : Ty) → t.Val floats → t.Val floats → Bool
  | .bool => fun (a b : Bool) => a == b
  | .integer _ _ => fun a b => a.val == b.val
  | .float kind => (floats.type kind).equal
  | .string => fun (a b : Bytes) => a == b
  | .vector item => fun as bs => List.isEqv as bs (equal item)
  | .map item => equalDict (equal item)

variable {floats}

variable {V : Type}

theorem equalDict_iff {equal : V → V → Bool} {m m' : Dict V} :
    equalDict equal m m' = true ↔ ∀ key, equalEntry equal (m.lookup key) (m'.lookup key) =
      true := by
  unfold equalDict
  rw [decide_eq_true_iff]
  constructor
  · intro h key
    by_cases hmem : key ∈ m.keys ∪ m'.keys
    · exact h key hmem
    · rw [Finset.mem_union, not_or, Finmap.mem_keys, Finmap.mem_keys] at hmem
      rw [Finmap.lookup_eq_none.mpr hmem.1, Finmap.lookup_eq_none.mpr hmem.2]
      rfl
  · exact fun h key _ => h key

variable {eq : V → V → Bool}

theorem equalEntry_symm (h : ∀ a b, eq a b = true → eq b a = true)
    {a b : Option V} (hab : equalEntry eq a b = true) : equalEntry eq b a = true := by
  cases a with
  | none =>
    cases b with
    | none => rfl
    | some b => cases hab
  | some a =>
    cases b with
    | none => cases hab
    | some b => exact h a b hab

theorem equalEntry_trans
    (h : ∀ a b c, eq a b = true → eq b c = true → eq a c = true) {a b c : Option V}
    (hab : equalEntry eq a b = true) (hbc : equalEntry eq b c = true) : equalEntry eq a c =
      true := by
  cases a with
  | none =>
    cases b with
    | none => exact hbc
    | some b => cases hab
  | some a =>
    cases b with
    | none => cases hab
    | some b =>
      cases c with
      | none => cases hbc
      | some c => exact h a b c hab hbc

theorem isEqv_symm (h : ∀ a b, eq a b = true → eq b a = true)
    {as bs : List V} (hab : List.isEqv as bs eq = true) : List.isEqv bs as eq = true := by
  induction as generalizing bs with
  | nil =>
    cases bs with
    | nil => rfl
    | cons b bs => cases hab
  | cons a as ih =>
    cases bs with
    | nil => cases hab
    | cons b bs =>
      rw [List.isEqv_cons_cons, Bool.and_eq_true] at hab ⊢
      exact ⟨h a b hab.1, ih hab.2⟩

theorem isEqv_trans (h : ∀ a b c, eq a b = true → eq b c = true → eq a c = true) {as bs cs : List V}
    (hab : List.isEqv as bs eq = true) (hbc : List.isEqv bs cs eq = true) :
    List.isEqv as cs eq = true := by
  induction as generalizing bs cs with
  | nil =>
    cases bs with
    | nil => exact hbc
    | cons b bs => cases hab
  | cons a as ih =>
    cases bs with
    | nil => cases hab
    | cons b bs =>
      cases cs with
      | nil => cases hbc
      | cons c cs =>
        rw [List.isEqv_cons_cons, Bool.and_eq_true] at hab hbc ⊢
        exact ⟨h a b c hab.1 hbc.1, ih hab.2 hbc.2⟩

theorem beq_symm [BEq V] [LawfulBEq V] {a b : V} (h : (a == b) = true) : (b == a) = true :=
  beq_iff_eq.mpr (beq_iff_eq.mp h).symm

theorem beq_trans [BEq V] [LawfulBEq V] {a b c : V} (h : (a == b) = true)
    (h' : (b == c) = true) : (a == c) = true :=
  beq_iff_eq.mpr ((beq_iff_eq.mp h).trans (beq_iff_eq.mp h'))

/-- **`operator==` is symmetric.** -/
theorem equal_symm : (t : Ty) → (a b : t.Val floats) → t.equal floats a b = true →
    t.equal floats b a = true
  | .bool, _, _, h => beq_symm (V := Bool) h
  | .integer _ _, _, _, h => beq_symm (V := Int) h
  | .float kind, a, b, h => (floats.type kind).symm a b h
  | .string, _, _, h => beq_symm (V := Bytes) h
  | .vector item, _, _, h => isEqv_symm (equal_symm item) h
  | .map item, _, _, h =>
    equalDict_iff.mpr fun key => equalEntry_symm (equal_symm item) (equalDict_iff.mp h key)

/-- **`operator==` is transitive.** -/
theorem equal_trans : (t : Ty) → (a b c : t.Val floats) → t.equal floats a b = true →
    t.equal floats b c = true → t.equal floats a c = true
  | .bool, _, _, _, h, h' => beq_trans (V := Bool) h h'
  | .integer _ _, _, _, _, h, h' => beq_trans (V := Int) h h'
  | .float kind, a, b, c, h, h' => (floats.type kind).trans a b c h h'
  | .string, _, _, _, h, h' => beq_trans (V := Bytes) h h'
  | .vector item, _, _, _, h, h' => isEqv_trans (equal_trans item) h h'
  | .map item, _, _, _, h, h' =>
    equalDict_iff.mpr fun key =>
      equalEntry_trans (equal_trans item) (equalDict_iff.mp h key) (equalDict_iff.mp h' key)

/-- Identical, or equal. -/
def Same (t : Ty) (a b : t.Val floats) : Prop := a = b ∨ t.equal floats a b = true

theorem same_equivalence (t : Ty) : Equivalence fun a b : t.Val floats => t.Same a b where
  refl := fun _ => .inl rfl
  symm := fun {a b} h => h.imp Eq.symm (equal_symm t a b)
  trans := fun {a b c} h h' => by
    rcases h with rfl | h
    · exact h'
    · rcases h' with rfl | h'
      · exact .inr h
      · exact .inr (equal_trans t a b c h h')

end Ty

/-! ## The conversion -/

inductive ConfigError
  | invalidArgument
  | parseFailed
  | rootNotObject
  | typeMismatch
  | outOfRange
  | readFileFailed
  | writeFileFailed
  | listenerFailed
deriving DecidableEq, Repr

namespace JsonCast

/-- The check of the range: an unsigned type of 64 bits holds every `i64` that is not negative. -/
def inRange (signed : Bool) (width : Width) (raw : Int64) : Bool :=
  if signed then lowest signed width ≤ raw.toInt && raw.toInt ≤ highest signed width
  else 0 ≤ raw.toInt && (64 ≤ width.bits || raw.toInt ≤ highest signed width)

/-- A value in the range fits. -/
theorem fits_of_inRange {signed : Bool} {width : Width} {raw : Int64}
    (h : inRange signed width raw = true) :
    lowest signed width ≤ raw.toInt ∧ raw.toInt ≤ highest signed width := by
  have hlt := Int64.toInt_lt raw
  cases signed with
  | true => simpa [inRange] using h
  | false => cases width <;> simp [inRange, lowest, highest, Width.bits] at h ⊢ <;> omega

/-- The loop over the members: a later member of a key replaces an earlier one. -/
def insertMembers {V : Type} (convert : JsonValue → Except ConfigError V) :
    Dict V → List (Bytes × JsonValue) → Except ConfigError (Dict V)
  | out, [] => .ok out
  | out, (key, value) :: members => do
    let converted ← convert value
    insertMembers convert (out.insert key converted) members

variable (floats : Floats)

/-- `JsonCast<T>::from_json`. -/
def fromJson : (t : Ty) → JsonValue → Except ConfigError (t.Val floats)
  | .bool, value =>
    match value with
    | .bool v => .ok v
    | _ => .error .typeMismatch
  | .integer signed width, value =>
    match value with
    | .int raw =>
      if h : inRange signed width raw = true then .ok ⟨raw.toInt, fits_of_inRange h⟩
      else .error .outOfRange
    | _ => .error .typeMismatch
  | .float kind, value =>
    match value with
    | .float v => .ok ((floats.type kind).ofF64 v)
    | .int v => .ok ((floats.type kind).ofI64 v)
    | _ => .error .typeMismatch
  | .string, value =>
    match value with
    | .string v => .ok v
    | _ => .error .typeMismatch
  | .vector item, value =>
    match value with
    | .array items => items.mapM (fromJson item)
    | _ => .error .typeMismatch
  | .map item, value =>
    match value with
    | .object members => insertMembers (fromJson item) ∅ members
    | _ => .error .typeMismatch

end JsonCast

end Libca.Config
