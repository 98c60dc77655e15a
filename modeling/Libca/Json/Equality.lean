import Libca.Common.FirstMatch
import Libca.Json.Double

/-!
# Equality of JSON values (`json/json_schema.cpp` 129-159)

The comparison that `const` and `enum` use. Members are compared with the first member of their key.

* `find`: `JsonValue::find`. `jsonEqual`: `json_equal`. `jsonEqual_array`, `jsonEqual_object`: the
  loops.
* `Everywhere`: a property of a value and all values inside. `Distinct`: no object repeats a key;
  `NoNan`.
* `jsonEqual_trans`: **the comparison is transitive.** `jsonEqual_refl`, `jsonEqual_symm`: **for
  values without repeated keys it is reflexive, but for NaNs, and symmetric.**
* `exists_not_symm`: **a repeated key breaks one of the two**: a value that is equal to itself has
  one it is equal to, but not the other way, with the same nesting and the same leaves.
-/

namespace Libca.Json

open Common Str

namespace JsonValue

/-- `JsonValue::find`: the first member of a key. -/
def find (members : List (Bytes × JsonValue)) (key : Bytes) : Option JsonValue :=
  firstOf members key

end JsonValue

open JsonValue

mutual

/-- `json_equal`. -/
def jsonEqual : JsonValue → JsonValue → Bool
  | .null, .null => true
  | .bool a, .bool b => a == b
  | .int a, .int b => a == b
  | .float a, .float b => a.eq b
  | .string a, .string b => a == b
  | .array aa, .array bb => aa.length == bb.length && itemsEqual aa bb
  | .object aa, .object bb => aa.length == bb.length && membersEqual aa bb
  | _, _ => false

/-- The loop over two arrays of one size. -/
def itemsEqual : List JsonValue → List JsonValue → Bool
  | [], _ => true
  | _ :: _, [] => false
  | x :: aa, y :: bb => jsonEqual x y && itemsEqual aa bb

/-- The loop over the members of the first object, which are looked up in the second. -/
def membersEqual : List (Bytes × JsonValue) → List (Bytes × JsonValue) → Bool
  | [], _ => true
  | (k, v) :: aa, bb =>
    (match find bb k with
      | none => false
      | some bv => jsonEqual v bv) && membersEqual aa bb

end

/-! ## Induction on values -/

namespace JsonValue

mutual

/-- Induction on a value, for all items and all members at once. -/
@[elab_as_elim]
theorem induct {motive : JsonValue → Prop} (null : motive .null) (bool : ∀ v, motive (.bool v))
    (int : ∀ v, motive (.int v)) (float : ∀ v, motive (.float v)) (string : ∀ v, motive (.string v))
    (array : ∀ items, (∀ v ∈ items, motive v) → motive (.array items))
    (object : ∀ members, (∀ m ∈ members, motive m.2) → motive (.object members)) : ∀ v, motive v
  | .null => null
  | .bool v => bool v
  | .int v => int v
  | .float v => float v
  | .string v => string v
  | .array items => array items (induct_items null bool int float string array object items)
  | .object members =>
    object members (induct_members null bool int float string array object members)

theorem induct_items {motive : JsonValue → Prop} (null : motive .null)
    (bool : ∀ v, motive (.bool v))
    (int : ∀ v, motive (.int v)) (float : ∀ v, motive (.float v)) (string : ∀ v, motive (.string v))
    (array : ∀ items, (∀ v ∈ items, motive v) → motive (.array items))
    (object : ∀ members, (∀ m ∈ members, motive m.2) → motive (.object members)) :
    ∀ items : List JsonValue, ∀ v ∈ items, motive v
  | [] => nofun
  | w :: items => List.forall_mem_cons.mpr
    ⟨induct null bool int float string array object w,
      induct_items null bool int float string array object items⟩

theorem induct_members {motive : JsonValue → Prop} (null : motive .null)
    (bool : ∀ v, motive (.bool v))
    (int : ∀ v, motive (.int v)) (float : ∀ v, motive (.float v)) (string : ∀ v, motive (.string v))
    (array : ∀ items, (∀ v ∈ items, motive v) → motive (.array items))
    (object : ∀ members, (∀ m ∈ members, motive m.2) → motive (.object members)) :
    ∀ members : List (Bytes × JsonValue), ∀ m ∈ members, motive m.2
  | [] => nofun
  | (_, w) :: members => List.forall_mem_cons.mpr
    ⟨induct null bool int float string array object w,
      induct_members null bool int float string array object members⟩

end

/-! ## Properties of all values inside -/

mutual

/-- A property of a value and of all values inside. -/
def Everywhere (P : JsonValue → Prop) : JsonValue → Prop
  | .null => P .null
  | .bool v => P (.bool v)
  | .int v => P (.int v)
  | .float v => P (.float v)
  | .string v => P (.string v)
  | .array items => P (.array items) ∧ ItemsEverywhere P items
  | .object members => P (.object members) ∧ MembersEverywhere P members

/-- The same of every item. -/
def ItemsEverywhere (P : JsonValue → Prop) : List JsonValue → Prop
  | [] => True
  | v :: items => v.Everywhere P ∧ ItemsEverywhere P items

/-- The same of every member. -/
def MembersEverywhere (P : JsonValue → Prop) : List (Bytes × JsonValue) → Prop
  | [] => True
  | (_, v) :: members => v.Everywhere P ∧ MembersEverywhere P members

end

variable {P : JsonValue → Prop} {items : List JsonValue} {members : List (Bytes × JsonValue)}

theorem itemsEverywhere_iff : ItemsEverywhere P items ↔ ∀ v ∈ items, v.Everywhere P := by
  induction items with
  | nil => exact iff_of_true trivial fun v hv => absurd hv List.not_mem_nil
  | cons v items ih => exact (and_congr_right' ih).trans List.forall_mem_cons.symm

theorem membersEverywhere_iff : MembersEverywhere P members ↔ ∀ m ∈ members, m.2.Everywhere P := by
  induction members with
  | nil => exact iff_of_true trivial fun m hm => absurd hm List.not_mem_nil
  | cons m members ih =>
    rw [List.forall_mem_cons]
    exact and_congr_right' ih

theorem everywhere_array : (array items).Everywhere P ↔ P (.array items) ∧ ∀ v ∈ items,
    v.Everywhere P :=
  and_congr_right' itemsEverywhere_iff

theorem everywhere_object :
    (object members).Everywhere P ↔ P (.object members) ∧ ∀ m ∈ members, m.2.Everywhere P :=
  and_congr_right' membersEverywhere_iff

/-- No object repeats a key. -/
def Distinct : JsonValue → Prop :=
  Everywhere fun v =>
    match v with
    | .object members => (members.map Prod.fst).Nodup
    | _ => True

/-- No float is a NaN. -/
def NoNan : JsonValue → Prop :=
  Everywhere fun v =>
    match v with
    | .float v => v.isNan = false
    | _ => True

theorem distinct_array : (array items).Distinct ↔ ∀ v ∈ items, v.Distinct :=
  everywhere_array.trans (and_iff_right trivial)

theorem distinct_object :
    (object members).Distinct ↔ (members.map Prod.fst).Nodup ∧ ∀ m ∈ members, m.2.Distinct :=
  everywhere_object

theorem noNan_array : (array items).NoNan ↔ ∀ v ∈ items, v.NoNan :=
  everywhere_array.trans (and_iff_right trivial)

theorem noNan_object : (object members).NoNan ↔ ∀ m ∈ members, m.2.NoNan :=
  everywhere_object.trans (and_iff_right trivial)

/-- Strings and keys are valid UTF-8, and every float has a property. -/
def LeavesIn (F : F64 → Prop) : JsonValue → Prop :=
  Everywhere fun v =>
    match v with
    | .float v => F v
    | .string v => IsUtf8 v
    | .object members => ∀ m ∈ members, IsUtf8 m.1
    | _ => True

variable {F : F64 → Prop}

theorem leavesIn_array : (array items).LeavesIn F ↔ ∀ v ∈ items, v.LeavesIn F :=
  everywhere_array.trans (and_iff_right trivial)

theorem leavesIn_object :
    (object members).LeavesIn F ↔ (∀ m ∈ members, IsUtf8 m.1) ∧ ∀ m ∈ members, m.2.LeavesIn F :=
  everywhere_object

/-! ## Nesting -/

theorem itemsDepth_eq (items : List JsonValue) :
    itemsDepth items = (items.map depth).foldr max 0 := by
  induction items with
  | nil => rfl
  | cons v items ih => exact congrArg (max v.depth) ih

theorem membersDepth_eq (members : List (Bytes × JsonValue)) :
    membersDepth members = (members.map fun m => m.2.depth).foldr max 0 := by
  induction members with
  | nil => rfl
  | cons m members ih => exact congrArg (max m.2.depth) ih

/-- An item is replaced by one of the same nesting. -/
theorem depth_array_replace {l r : List JsonValue} {v w : JsonValue} (h : w.depth = v.depth) :
    (array (l ++ w :: r)).depth = (array (l ++ v :: r)).depth := by
  refine congrArg (· + 1) ?_
  rw [itemsDepth_eq, itemsDepth_eq, List.map_append, List.map_append, List.map_cons, List.map_cons,
    h]

/-- A member is replaced by one of the same nesting. -/
theorem depth_object_replace {l r : List (Bytes × JsonValue)} {m n : Bytes × JsonValue}
    (h : n.2.depth = m.2.depth) :
    (object (l ++ n :: r)).depth = (object (l ++ m :: r)).depth := by
  refine congrArg (· + 1) ?_
  rw [membersDepth_eq, membersDepth_eq, List.map_append, List.map_append, List.map_cons,
    List.map_cons, h]

end JsonValue

/-! ## The loops -/

variable {aa bb : List JsonValue} {as bs : List (Bytes × JsonValue)} {a b c : JsonValue}

/-- Two values that `json_equal` takes for equal. -/
abbrev Eqv (a b : JsonValue) : Prop := jsonEqual a b = true

theorem jsonEqual_array : Eqv (.array aa) (.array bb) ↔ List.Forall₂ Eqv aa bb := by
  change (aa.length == bb.length && itemsEqual aa bb) = true ↔ _
  rw [Bool.and_eq_true, beq_iff_eq]
  induction aa generalizing bb with
  | nil =>
    change _ ∧ true = true ↔ _
    rw [and_iff_left rfl, List.length_nil, eq_comm, List.length_eq_zero_iff,
      List.forall₂_nil_left_iff]
  | cons x aa ih =>
    cases bb with
    | nil => exact iff_of_false (fun h => Nat.succ_ne_zero _ h.1) (by rintro ⟨⟩)
    | cons y bb =>
      change _ ∧ (jsonEqual x y && itemsEqual aa bb) = true ↔ _
      rw [List.length_cons, List.length_cons, Nat.add_right_cancel_iff, Bool.and_eq_true,
        List.forall₂_cons, ← ih, and_left_comm]

theorem membersEqual_iff :
    membersEqual as bs = true ↔ ∀ m ∈ as, ∃ w, firstOf bs m.1 = some w ∧ Eqv m.2 w := by
  induction as with
  | nil => exact iff_of_true rfl (by rintro m ⟨⟩)
  | cons m as ih =>
    change ((match firstOf bs m.1 with | none => false | some w => jsonEqual m.2 w) &&
      membersEqual as bs) = true ↔ _
    rw [Bool.and_eq_true, ih, List.forall_mem_cons]
    refine and_congr_left' ?_
    cases firstOf bs m.1 with
    | none => exact iff_of_false Bool.false_ne_true (by rintro ⟨w, ⟨⟩, -⟩)
    | some w => exact ⟨fun h => ⟨w, rfl, h⟩, by rintro ⟨_, ⟨⟩, h⟩; exact h⟩

theorem jsonEqual_object : Eqv (.object as) (.object bs) ↔ Covers Eqv as bs := by
  change (as.length == bs.length && membersEqual as bs) = true ↔ _
  rw [Bool.and_eq_true, beq_iff_eq, membersEqual_iff]
  exact ⟨fun h => ⟨h.1, h.2⟩, fun h => ⟨h.length_eq, h.found⟩⟩

/-- Only an array is equal to an array. -/
theorem exists_array (h : Eqv (.array aa) b) : ∃ bb, b = .array bb := by
  cases b with
  | array bb => exact ⟨bb, rfl⟩
  | _ => cases h

/-- Only an object is equal to an object. -/
theorem exists_object (h : Eqv (.object as) b) : ∃ bs, b = .object bs := by
  cases b with
  | object bs => exact ⟨bs, rfl⟩
  | _ => cases h

/-- Only a float is equal to a float. -/
theorem exists_float {v : F64} (h : Eqv (.float v) b) : ∃ w, b = .float w ∧ v.eq w = true := by
  cases b with
  | float w => exact ⟨w, rfl, h⟩
  | _ => cases h

theorem eqv_null : Eqv .null b ↔ .null = b := by
  cases b with
  | null => exact iff_of_true rfl rfl
  | _ => exact iff_of_false Bool.false_ne_true (by rintro ⟨⟩)

theorem eqv_bool {v : Bool} : Eqv (.bool v) b ↔ .bool v = b := by
  cases b with
  | bool w => exact beq_iff_eq.trans (JsonValue.bool.injEq v w ▸ Iff.rfl)
  | _ => exact iff_of_false Bool.false_ne_true (by rintro ⟨⟩)

theorem eqv_int {v : Int64} : Eqv (.int v) b ↔ .int v = b := by
  cases b with
  | int w => exact beq_iff_eq.trans (JsonValue.int.injEq v w ▸ Iff.rfl)
  | _ => exact iff_of_false Bool.false_ne_true (by rintro ⟨⟩)

theorem eqv_string {v : Bytes} : Eqv (.string v) b ↔ .string v = b := by
  cases b with
  | string w => exact beq_iff_eq.trans (JsonValue.string.injEq v w ▸ Iff.rfl)
  | _ => exact iff_of_false Bool.false_ne_true (by rintro ⟨⟩)

theorem eqv_float {v w : F64} : Eqv (.float v) (.float w) ↔ v.eq w = true := Iff.rfl

/-! ## The laws -/

/-- **The comparison is transitive.** -/
theorem jsonEqual_trans (hab : Eqv a b) (hbc : Eqv b c) : Eqv a c := by
  induction a using JsonValue.induct generalizing b c with
  | null =>
    obtain rfl := eqv_null.mp hab
    exact hbc
  | bool v =>
    obtain rfl := eqv_bool.mp hab
    exact hbc
  | int v =>
    obtain rfl := eqv_int.mp hab
    exact hbc
  | string v =>
    obtain rfl := eqv_string.mp hab
    exact hbc
  | float v =>
    obtain ⟨w, rfl, hvw⟩ := exists_float hab
    obtain ⟨x, rfl, hwx⟩ := exists_float hbc
    obtain ⟨hv, -, hkey⟩ := F64.eq_iff.mp hvw
    obtain ⟨-, hx, hkey'⟩ := F64.eq_iff.mp hwx
    exact eqv_float.mpr (F64.eq_iff.mpr ⟨hv, hx, hkey.trans hkey'⟩)
  | array aa ih =>
    obtain ⟨bb, rfl⟩ := exists_array hab
    obtain ⟨cc, rfl⟩ := exists_array hbc
    rw [jsonEqual_array] at hab hbc ⊢
    induction hab generalizing cc with
    | nil => exact hbc
    | cons hxy _ ihrest =>
      cases hbc with
      | cons hyz hrest =>
        obtain ⟨ihx, ihxs⟩ := List.forall_mem_cons.mp ih
        exact .cons (ihx hxy hyz) (ihrest ihxs _ hrest)
  | object as ih =>
    obtain ⟨bs, rfl⟩ := exists_object hab
    obtain ⟨cs, rfl⟩ := exists_object hbc
    rw [jsonEqual_object] at hab hbc ⊢
    exact hab.trans (fun m hm y z => ih m hm) hbc

/-- **Without repeated keys and NaNs the comparison is reflexive.** -/
theorem jsonEqual_refl (hdistinct : a.Distinct) (hnan : a.NoNan) : Eqv a a := by
  induction a using JsonValue.induct with
  | null => exact eqv_null.mpr rfl
  | bool v => exact eqv_bool.mpr rfl
  | int v => exact eqv_int.mpr rfl
  | string v => exact eqv_string.mpr rfl
  | float v => exact eqv_float.mpr (F64.eq_iff.mpr ⟨hnan, hnan, rfl⟩)
  | array aa ih =>
    rw [distinct_array] at hdistinct
    rw [noNan_array] at hnan
    rw [jsonEqual_array, List.forall₂_same]
    exact fun v hv => ih v hv (hdistinct v hv) (hnan v hv)
  | object as ih =>
    obtain ⟨hnodup, hmembers⟩ := distinct_object.mp hdistinct
    rw [noNan_object] at hnan
    rw [jsonEqual_object]
    exact Covers.refl_of_nodup hnodup fun m hm => ih m hm (hmembers m hm) (hnan m hm)

/-- **Without repeated keys on the left the comparison is symmetric.** -/
theorem jsonEqual_symm (hdistinct : a.Distinct) (hab : Eqv a b) : Eqv b a := by
  induction a using JsonValue.induct generalizing b with
  | null =>
    obtain rfl := eqv_null.mp hab
    exact hab
  | bool v =>
    obtain rfl := eqv_bool.mp hab
    exact hab
  | int v =>
    obtain rfl := eqv_int.mp hab
    exact hab
  | string v =>
    obtain rfl := eqv_string.mp hab
    exact hab
  | float v =>
    obtain ⟨w, rfl, hvw⟩ := exists_float hab
    obtain ⟨hv, hw, hkey⟩ := F64.eq_iff.mp hvw
    exact eqv_float.mpr (F64.eq_iff.mpr ⟨hw, hv, hkey.symm⟩)
  | array aa ih =>
    obtain ⟨bb, rfl⟩ := exists_array hab
    rw [distinct_array] at hdistinct
    rw [jsonEqual_array] at hab ⊢
    induction hab with
    | nil => exact .nil
    | cons hxy _ ihrest =>
      obtain ⟨ihx, ihxs⟩ := List.forall_mem_cons.mp ih
      obtain ⟨hx, hxs⟩ := List.forall_mem_cons.mp hdistinct
      exact .cons (ihx hx hxy) (ihrest ihxs hxs)
  | object as ih =>
    obtain ⟨bs, rfl⟩ := exists_object hab
    obtain ⟨hnodup, hmembers⟩ := distinct_object.mp hdistinct
    rw [jsonEqual_object] at hab ⊢
    exact hab.symm_of_nodup hnodup fun m hm w => ih m hm (hmembers m hm)

/-- A value that is equal to some value has no NaN. -/
theorem noNan_of_eqv (hab : Eqv a b) : a.NoNan := by
  induction a using JsonValue.induct generalizing b with
  | null => exact trivial
  | bool v => exact trivial
  | int v => exact trivial
  | string v => exact trivial
  | float v =>
    obtain ⟨w, rfl, hvw⟩ := exists_float hab
    exact (F64.eq_iff.mp hvw).1
  | array aa ih =>
    obtain ⟨bb, rfl⟩ := exists_array hab
    rw [jsonEqual_array] at hab
    rw [noNan_array]
    induction hab with
    | nil => exact List.forall_mem_nil _
    | cons hxy _ ihrest =>
      obtain ⟨ihx, ihxs⟩ := List.forall_mem_cons.mp ih
      exact List.forall_mem_cons.mpr ⟨ihx hxy, ihrest ihxs⟩
  | object as ih =>
    obtain ⟨bs, rfl⟩ := exists_object hab
    rw [jsonEqual_object] at hab
    rw [noNan_object]
    intro m hm
    obtain ⟨w, -, hmw⟩ := hab.found m hm
    exact ih m hm hmw

/-! ## Repeated keys -/

theorem exists_length_lt (keys : List Bytes) : ∃ n, ∀ key ∈ keys, key.length < n := by
  induction keys with
  | nil => exact ⟨0, List.forall_mem_nil _⟩
  | cons key keys ih =>
    obtain ⟨n, hn⟩ := ih
    refine ⟨max (key.length + 1) n, List.forall_mem_cons.mpr ⟨by omega, fun k hk => ?_⟩⟩
    have hlt := hn k hk
    omega

/-- A key that an object does not have. -/
theorem exists_fresh (keys : List Bytes) : ∃ fresh, IsUtf8 fresh ∧ fresh ∉ keys := by
  obtain ⟨n, hn⟩ := exists_length_lt keys
  refine ⟨List.replicate n 120, isUtf8_of_ascii fun b hb => ?_, fun hmem => ?_⟩
  · rw [List.eq_of_mem_replicate hb]
    decide
  · have hlt := hn _ hmem
    rw [List.length_replicate] at hlt
    exact absurd hlt (Nat.lt_irrefl n)

/-- **A repeated key makes a value that is equal to itself equal to one that is not equal to it**,
with the same nesting and the same leaves. -/
theorem exists_not_symm {F : F64 → Prop} (hrepeated : ¬ a.Distinct) (hrefl : Eqv a a)
    (hleaves : a.LeavesIn F) :
    ∃ b, Eqv a b ∧ ¬ Eqv b a ∧ b.LeavesIn F ∧ b.depth = a.depth := by
  induction a using JsonValue.induct with
  | null => exact absurd trivial hrepeated
  | bool v => exact absurd trivial hrepeated
  | int v => exact absurd trivial hrepeated
  | string v => exact absurd trivial hrepeated
  | float v => exact absurd trivial hrepeated
  | array aa ih =>
    obtain ⟨v, hv, hv'⟩ : ∃ v ∈ aa, ¬ v.Distinct := by
      by_contra hnone
      refine hrepeated (distinct_array.mpr fun v hv => ?_)
      by_contra hv'
      exact hnone ⟨v, hv, hv'⟩
    rw [jsonEqual_array, List.forall₂_same] at hrefl
    rw [leavesIn_array] at hleaves
    obtain ⟨w, hvw, hwv, hw, hdepth⟩ := ih v hv hv' (hrefl v hv) (hleaves v hv)
    obtain ⟨l, r, rfl⟩ := List.append_of_mem hv
    refine ⟨.array (l ++ w :: r), ?_, fun h => ?_,
      leavesIn_array.mpr (forall_mem_replace hleaves hw), depth_array_replace hdepth⟩
    · have hl : List.Forall₂ Eqv l l := List.forall₂_same.mpr fun x hx =>
        hrefl x (List.mem_append_left _ hx)
      have hr : List.Forall₂ Eqv r r := List.forall₂_same.mpr fun x hx =>
        hrefl x (List.mem_append_right l (List.mem_cons_of_mem v hx))
      exact jsonEqual_array.mpr (List.rel_append hl (.cons hvw hr))
    · have hdrop := List.forall₂_drop_append _ _ _ (jsonEqual_array.mp h)
      rw [List.drop_left] at hdrop
      cases hdrop with
      | cons hwv' _ => exact hwv hwv'
  | object as ih =>
    rw [jsonEqual_object] at hrefl
    obtain ⟨hkeys, hvalues⟩ := leavesIn_object.mp hleaves
    by_cases hnodup : (as.map Prod.fst).Nodup
    · obtain ⟨m, hm, hm'⟩ : ∃ m ∈ as, ¬ m.2.Distinct := by
        by_contra hnone
        refine hrepeated (distinct_object.mpr ⟨hnodup, fun m hm => ?_⟩)
        by_contra hm'
        exact hnone ⟨m, hm, hm'⟩
      have hself (m : Bytes × JsonValue) (hm : m ∈ as) : Eqv m.2 m.2 := by
        obtain ⟨w, hw, hmw⟩ := hrefl.found m hm
        rwa [← Option.some.inj ((firstOf_of_mem hnodup hm).symm.trans hw)] at hmw
      obtain ⟨w, hvw, hwv, hw, hdepth⟩ := ih m hm hm' (hself m hm) (hvalues m hm)
      obtain ⟨l, r, rfl⟩ := List.append_of_mem hm
      obtain ⟨hab, hba⟩ := Covers.not_symm_of_value hnodup hself hvw hwv
      refine ⟨.object (l ++ (m.1, w) :: r), jsonEqual_object.mpr hab, fun h =>
        hba (jsonEqual_object.mp h),
        leavesIn_object.mpr ⟨forall_mem_replace hkeys (hkeys m hm), forall_mem_replace hvalues hw⟩,
        depth_object_replace hdepth⟩
    · obtain ⟨l, key, v, r, rfl, hkey⟩ := exists_repeated hnodup
      obtain ⟨fresh, hutf8, hfresh⟩ := exists_fresh ((l ++ (key, v) :: r).map Prod.fst)
      obtain ⟨hab, hba⟩ := hrefl.not_symm_of_repeated hkey hfresh
      refine ⟨.object (l ++ (fresh, v) :: r), jsonEqual_object.mpr hab, fun h =>
        hba (jsonEqual_object.mp h),
        leavesIn_object.mpr ⟨forall_mem_replace hkeys hutf8, ?_⟩, depth_object_replace rfl⟩
      exact forall_mem_replace hvalues (hvalues (key, v) (List.mem_append_right l (.head _)))

end Libca.Json
