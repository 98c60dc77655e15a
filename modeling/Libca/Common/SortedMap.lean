import Mathlib.Tactic.Common

/-!
# Sorted maps

`SortedMap κ ν` is a `std::map`: the entries in the order of their keys, each key once.

* `find`, `insertOrAssign`, `emplace`, `erase`: the operations, on any ordered type of keys.
* `find_insertOrAssign`: what is found after an assignment.
* `mem_insertOrAssign`, `mem_emplace`, `mem_erase`: where the entries of the result come from.
* `foldl_emplace`: a sorted list of entries, emplaced one by one, is the map itself.
-/

namespace Libca.Common

/-- A `std::map`. -/
@[ext] structure SortedMap (κ ν : Type) [LT κ] where
  entries : List (κ × ν)
  sorted : entries.Pairwise fun a b => a.1 < b.1

namespace SortedMap

variable {κ ν : Type} [LT κ] [DecidableLT κ] [DecidableEq κ]

/-- Adds an entry at its place, or changes the value of the one that has the key. -/
def insertWith (key : κ) (v : ν) (change : ν → ν) : List (κ × ν) → List (κ × ν)
  | [] => [(key, v)]
  | e :: es =>
    if key < e.1 then (key, v) :: e :: es
    else if key = e.1 then (e.1, change e.2) :: es
    else e :: insertWith key v change es

variable {key : κ} {v : ν} {e : κ × ν}

theorem mem_insertWith {change : ν → ν} {es : List (κ × ν)} (h : e ∈ insertWith key v change es) :
    e = (key, v) ∨ e ∈ es ∨ ∃ old, (key, old) ∈ es ∧ e = (key, change old) := by
  induction es with
  | nil => exact .inl (by simpa [insertWith] using h)
  | cons e' es ih =>
    unfold insertWith at h
    split_ifs at h with hlt heq
    · rcases List.mem_cons.mp h with rfl | h
      · exact .inl rfl
      · exact .inr (.inl h)
    · rcases List.mem_cons.mp h with rfl | h
      · exact .inr (.inr ⟨e'.2, by simp [heq], by simp [heq]⟩)
      · exact .inr (.inl (.tail _ h))
    · rcases List.mem_cons.mp h with rfl | h
      · exact .inr (.inl (.head _))
      · rcases ih h with rfl | h | ⟨old, hold, rfl⟩
        · exact .inl rfl
        · exact .inr (.inl (.tail _ h))
        · exact .inr (.inr ⟨old, .tail _ hold, rfl⟩)

section Order

variable [Trans (α := κ) (β := κ) (γ := κ) (· < ·) (· < ·) (· < ·)]
  [Std.Irrefl (α := κ) (· < ·)]

/-- An entry behind all others is added at the end. -/
theorem insertWith_of_lt {key : κ} (v : ν) (change : ν → ν) {es : List (κ × ν)}
    (h : ∀ e ∈ es, e.1 < key) : insertWith key v change es = es ++ [(key, v)] := by
  induction es with
  | nil => rfl
  | cons e es ih =>
    have he : e.1 < key := h e (.head _)
    have hlt : ¬ key < e.1 := fun hlt => Std.lt_irrefl (Std.lt_trans he hlt)
    have hne : key ≠ e.1 := fun heq => Std.lt_irrefl (heq ▸ he)
    rw [insertWith, if_neg hlt, if_neg hne, ih fun e' he' => h e' (.tail _ he')]
    rfl

end Order

variable [Trans (α := κ) (β := κ) (γ := κ) (· < ·) (· < ·) (· < ·)]
  [Std.Trichotomous (α := κ) (· < ·)]

theorem sorted_insertWith (key : κ) (v : ν) (change : ν → ν) {es : List (κ × ν)}
    (hes : es.Pairwise fun a b => a.1 < b.1) :
    (insertWith key v change es).Pairwise fun a b => a.1 < b.1 := by
  induction es with
  | nil => exact List.pairwise_singleton _ _
  | cons e es ih =>
    have hcons := List.pairwise_cons.mp hes
    unfold insertWith
    split_ifs with hlt heq
    · refine List.pairwise_cons.mpr ⟨fun e' he' => ?_, hes⟩
      rcases List.mem_cons.mp he' with rfl | he'
      · exact hlt
      · exact Std.lt_trans hlt (hcons.1 e' he')
    · exact List.pairwise_cons.mpr hcons
    · have hlt' : e.1 < key := ((Std.lt_trichotomy key e.1).resolve_left hlt).resolve_left heq
      refine List.pairwise_cons.mpr ⟨fun e' he' => ?_, ih hcons.2⟩
      rcases mem_insertWith he' with rfl | he' | ⟨old, hold, rfl⟩
      · exact hlt'
      · exact hcons.1 e' he'
      · exact hlt'

/-! ## The operations -/

/-- The empty map. -/
def empty : SortedMap κ ν := ⟨[], List.Pairwise.nil⟩

/-- `m.find(key)`: the value under a key. -/
def find (m : SortedMap κ ν) (key : κ) : Option ν :=
  (m.entries.find? fun e => e.1 = key).map Prod.snd

/-- `m[key] = v`. -/
def insertOrAssign (m : SortedMap κ ν) (key : κ) (v : ν) : SortedMap κ ν :=
  ⟨insertWith key v (fun _ => v) m.entries, sorted_insertWith key v _ m.sorted⟩

/-- `m.emplace(key, v)`: a key that is there keeps its value. -/
def emplace (m : SortedMap κ ν) (key : κ) (v : ν) : SortedMap κ ν :=
  ⟨insertWith key v id m.entries, sorted_insertWith key v _ m.sorted⟩

/-- `m.erase(key)`. -/
def erase (m : SortedMap κ ν) (key : κ) : SortedMap κ ν :=
  ⟨m.entries.filter fun e => e.1 ≠ key, m.sorted.filter _⟩

omit [DecidableLT κ] [Trans (α := κ) (β := κ) (γ := κ) (· < ·) (· < ·) (· < ·)]
  [Std.Trichotomous (α := κ) (· < ·)] in
@[simp] theorem find_empty (key : κ) : (empty : SortedMap κ ν).find key = none := rfl

theorem find_insertOrAssign (m : SortedMap κ ν) (key key' : κ) (v : ν) :
    (m.insertOrAssign key v).find key' = if key' = key then some v else m.find key' := by
  change ((insertWith key v (fun _ => v) m.entries).find? fun e => e.1 = key').map Prod.snd =
    if key' = key then some v else (m.entries.find? fun e => e.1 = key').map Prod.snd
  induction m.entries with
  | nil =>
    by_cases h : key' = key
    · simp [insertWith, h]
    · simp [insertWith, h, Ne.symm h]
  | cons e es ih =>
    by_cases hlt : key < e.1
    · rw [insertWith, if_pos hlt]
      by_cases hkey : key' = key
      · simp [hkey]
      · simp [hkey, Ne.symm hkey]
    by_cases heq : key = e.1
    · rw [insertWith, if_neg hlt, if_pos heq]
      by_cases hkey : key' = key
      · simp [hkey, heq]
      · have he : e.1 ≠ key' := fun he => hkey (by rw [← he, heq])
        simp [hkey, he]
    · rw [insertWith, if_neg hlt, if_neg heq]
      by_cases he : e.1 = key'
      · have hkey : key' ≠ key := fun hkey => heq (by rw [he, hkey])
        simp [he, hkey]
      · rw [List.find?_cons_of_neg (by simpa using he), List.find?_cons_of_neg (by simpa using he),
          ih]

variable {m : SortedMap κ ν}

theorem mem_insertOrAssign (h : e ∈ (m.insertOrAssign key v).entries) :
    e = (key, v) ∨ e ∈ m.entries := by
  rcases mem_insertWith h with h | h | ⟨old, -, h⟩
  · exact .inl h
  · exact .inr h
  · exact .inl h

theorem mem_emplace (h : e ∈ (m.emplace key v).entries) : e = (key, v) ∨ e ∈ m.entries := by
  rcases mem_insertWith h with h | h | ⟨old, hold, h⟩
  · exact .inl h
  · exact .inr h
  · exact .inr (h ▸ hold)

omit [DecidableLT κ] [Trans (α := κ) (β := κ) (γ := κ) (· < ·) (· < ·) (· < ·)]
  [Std.Trichotomous (α := κ) (· < ·)] in
theorem mem_erase (h : e ∈ (m.erase key).entries) : e ∈ m.entries :=
  (List.mem_filter.mp h).1

/-- Entries behind all others are added in their order. -/
theorem foldl_emplace [Std.Irrefl (α := κ) (· < ·)] (es : List (κ × ν)) (m : SortedMap κ ν)
    (h : (m.entries ++ es).Pairwise fun a b => a.1 < b.1) :
    (es.foldl (fun m e => m.emplace e.1 e.2) m).entries = m.entries ++ es := by
  induction es generalizing m with
  | nil => simp
  | cons e es ih =>
    have hadd : (m.emplace e.1 e.2).entries = m.entries ++ [e] :=
      insertWith_of_lt e.2 id fun e' he' =>
        (List.pairwise_append.mp h).2.2 e' he' e (.head _)
    rw [List.foldl_cons, ih (m.emplace e.1 e.2) (by rw [hadd]; simpa using h), hadd]
    simp

end SortedMap

end Libca.Common
