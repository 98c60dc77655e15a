import Mathlib.Data.List.Nodup
import Mathlib.Data.List.Perm.Subperm

/-!
# Entries looked up by the first match

Lists of keys and values in which a key may be repeated. A key means its first entry.

* `firstOf`: the value of a key.
* `Covers`: two lists of one length, where every entry of the first is related to what its key means
  in the second. It is transitive; it is reflexive and symmetric when the keys of the first list are
  distinct.
* `Covers.not_symm_of_repeated`: a repeated key that covers itself breaks the symmetry.
-/

namespace Libca.Common

variable {κ α : Type} [DecidableEq κ]

/-- The value of the first entry with a key. -/
def firstOf (entries : List (κ × α)) (key : κ) : Option α := (entries.find? (·.1 = key)).map (·.2)

variable {entries l r : List (κ × α)} {key : κ} {v : α}

@[simp] theorem firstOf_nil : firstOf ([] : List (κ × α)) key = none := rfl

theorem firstOf_cons (m : κ × α) :
    firstOf (m :: entries) key = if m.1 = key then some m.2 else firstOf entries key := by
  unfold firstOf
  rw [List.find?_cons]
  by_cases h : m.1 = key <;> simp [h]

theorem firstOf_append : firstOf (l ++ r) key = (firstOf l key).or (firstOf r key) := by
  unfold firstOf
  rw [List.find?_append, Option.map_or]

theorem firstOf_eq_none : firstOf entries key = none ↔ key ∉ entries.map Prod.fst := by
  unfold firstOf
  simp only [Option.map_eq_none_iff, List.find?_eq_none, decide_eq_true_eq, List.mem_map,
    not_exists, not_and]

theorem mem_of_firstOf (h : firstOf entries key = some v) : (key, v) ∈ entries := by
  obtain ⟨m, hm, rfl⟩ := Option.map_eq_some_iff.mp h
  have hkey := List.find?_some hm
  obtain rfl : m.1 = key := by simpa using hkey
  exact List.mem_of_find?_eq_some hm

theorem key_mem_of_firstOf (h : firstOf entries key = some v) : key ∈ entries.map Prod.fst :=
  List.mem_map_of_mem (f := Prod.fst) (mem_of_firstOf h)

theorem exists_firstOf (h : key ∈ entries.map Prod.fst) : ∃ v, firstOf entries key = some v := by
  refine Option.ne_none_iff_exists'.mp fun hnone => ?_
  exact firstOf_eq_none.mp hnone h

/-- Among distinct keys every entry is the first. -/
theorem firstOf_of_mem (hnodup : (entries.map Prod.fst).Nodup) (h : (key, v) ∈ entries) :
    firstOf entries key = some v := by
  obtain ⟨w, hw⟩ := exists_firstOf (List.mem_map_of_mem (f := Prod.fst) h)
  have heq := List.inj_on_of_nodup_map hnodup h (mem_of_firstOf hw) rfl
  rw [hw, (Prod.mk.inj heq).2]

/-- A repeated key stands behind another entry of the key. -/
theorem exists_repeated (h : ¬ (entries.map Prod.fst).Nodup) :
    ∃ l key v r, entries = l ++ (key, v) :: r ∧ key ∈ l.map Prod.fst := by
  induction entries with
  | nil => exact absurd List.nodup_nil h
  | cons m entries ih =>
    by_cases hrest : (entries.map Prod.fst).Nodup
    · have hmem : m.1 ∈ entries.map Prod.fst := by
        by_contra hnot
        exact h (List.nodup_cons.mpr ⟨hnot, hrest⟩)
      obtain ⟨v, hv⟩ := exists_firstOf hmem
      obtain ⟨l, r, rfl⟩ := List.append_of_mem (mem_of_firstOf hv)
      exact ⟨m :: l, m.1, v, r, rfl, List.mem_cons_self⟩
    · obtain ⟨l, key, v, r, rfl, hkey⟩ := ih hrest
      exact ⟨m :: l, key, v, r, rfl, .tail _ hkey⟩

theorem forall_mem_replace {β : Type} {P : β → Prop} {l r : List β} {x y : β}
    (h : ∀ m ∈ l ++ y :: r, P m) (hx : P x) : ∀ m ∈ l ++ x :: r, P m := by
  intro m hm
  rcases List.mem_append.mp hm with hl | hr
  · exact h m (List.mem_append_left _ hl)
  · rcases List.mem_cons.mp hr with rfl | hr
    · exact hx
    · exact h m (List.mem_append_right _ (.tail _ hr))

/-! ## Covering -/

/-- Every entry of the first list is related to what its key means in the second, of the same
length. -/
structure Covers (R : α → α → Prop) (as bs : List (κ × α)) : Prop where
  length_eq : as.length = bs.length
  found : ∀ m ∈ as, ∃ w, firstOf bs m.1 = some w ∧ R m.2 w

namespace Covers

variable {R : α → α → Prop} {as bs cs : List (κ × α)}

theorem trans (htrans : ∀ m ∈ as, ∀ y z, R m.2 y → R y z → R m.2 z) (h : Covers R as bs)
    (h' : Covers R bs cs) :
    Covers R as cs := by
  refine ⟨h.length_eq.trans h'.length_eq, fun m hm => ?_⟩
  obtain ⟨w, hw, hR⟩ := h.found m hm
  obtain ⟨x, hx, hR'⟩ := h'.found _ (mem_of_firstOf hw)
  exact ⟨x, hx, htrans m hm w x hR hR'⟩

theorem refl_of_nodup (hnodup : (as.map Prod.fst).Nodup) (hrefl : ∀ m ∈ as, R m.2 m.2) :
    Covers R as as :=
  ⟨rfl, fun m hm => ⟨m.2, firstOf_of_mem hnodup hm, hrefl m hm⟩⟩

theorem keys_subset (h : Covers R as bs) : as.map Prod.fst ⊆ bs.map Prod.fst := by
  intro key hkey
  obtain ⟨m, hm, rfl⟩ := List.mem_map.mp hkey
  obtain ⟨w, hw, -⟩ := h.found m hm
  exact key_mem_of_firstOf hw

/-- **Distinct keys on the left are the keys on the right**, by the lengths. -/
theorem keys_perm (hnodup : (as.map Prod.fst).Nodup) (h : Covers R as bs) :
    (as.map Prod.fst).Perm (bs.map Prod.fst) := by
  refine (hnodup.subperm h.keys_subset).perm_of_length_le ?_
  simp [h.length_eq]

/-- **Distinct keys on the left make the relation symmetric.** -/
theorem symm_of_nodup (hnodup : (as.map Prod.fst).Nodup) (hsymm : ∀ m ∈ as, ∀ w, R m.2 w → R w m.2)
    (h : Covers R as bs) : Covers R bs as := by
  have hperm := h.keys_perm hnodup
  have hnodup' := hperm.nodup_iff.mp hnodup
  refine ⟨h.length_eq.symm, fun m hm => ?_⟩
  obtain ⟨v, hv⟩ := exists_firstOf (hperm.mem_iff.mpr (List.mem_map_of_mem (f := Prod.fst) hm))
  obtain ⟨w, hw, hR⟩ := h.found _ (mem_of_firstOf hv)
  obtain rfl : m.2 = w := Option.some.inj ((firstOf_of_mem hnodup' hm).symm.trans hw)
  exact ⟨v, hv, hsymm _ (mem_of_firstOf hv) _ hR⟩

/-- An entry whose key comes before it means nothing: with a key that no entry has in its place, the
list is still covered, but no longer covers. -/
theorem not_symm_of_repeated {fresh : κ}
    (hcovers : Covers R (l ++ (key, v) :: r) (l ++ (key, v) :: r))
    (hrepeated : key ∈ l.map Prod.fst) (hfresh : fresh ∉ (l ++ (key, v) :: r).map Prod.fst) :
    Covers R (l ++ (key, v) :: r) (l ++ (fresh, v) :: r) ∧
      ¬ Covers R (l ++ (fresh, v) :: r) (l ++ (key, v) :: r) := by
  constructor
  · refine ⟨by simp, fun m hm => ?_⟩
    have hne : fresh ≠ m.1 := fun h => hfresh (h ▸ List.mem_map_of_mem (f := Prod.fst) hm)
    obtain ⟨w, hw, hR⟩ := hcovers.found m hm
    refine ⟨w, ?_, hR⟩
    rw [← hw, firstOf_append, firstOf_append, firstOf_cons, firstOf_cons, if_neg hne]
    by_cases hkey : key = m.1
    · obtain ⟨x, hx⟩ := exists_firstOf (hkey ▸ hrepeated)
      rw [hx, Option.some_or, Option.some_or]
    · rw [if_neg hkey]
  · intro h
    obtain ⟨w, hw, -⟩ := h.found (fresh, v) (by simp)
    exact hfresh (key_mem_of_firstOf hw)

/-- Another value for one of some distinct keys. -/
theorem not_symm_of_value {w : α} (hnodup : ((l ++ (key, v) :: r).map Prod.fst).Nodup)
    (hrefl : ∀ m ∈ l ++ (key, v) :: r, R m.2 m.2) (hR : R v w) (hnot : ¬ R w v) :
    Covers R (l ++ (key, v) :: r) (l ++ (key, w) :: r) ∧
      ¬ Covers R (l ++ (key, w) :: r) (l ++ (key, v) :: r) := by
  have hkeys : (l ++ (key, w) :: r).map Prod.fst = (l ++ (key, v) :: r).map Prod.fst := by simp
  constructor
  · refine ⟨by simp, fun m hm => ?_⟩
    rcases List.mem_append.mp hm with hl | hr
    · exact ⟨m.2, firstOf_of_mem (hkeys ▸ hnodup) (List.mem_append_left _ hl), hrefl m hm⟩
    · rcases List.mem_cons.mp hr with rfl | hr
      · exact ⟨w, firstOf_of_mem (hkeys ▸ hnodup) (by simp), hR⟩
      · exact ⟨m.2, firstOf_of_mem (hkeys ▸ hnodup) (by simp [hr]), hrefl m hm⟩
  · intro h
    obtain ⟨x, hx, hRx⟩ := h.found (key, w) (by simp)
    obtain rfl : x = v := Option.some.inj (hx.symm.trans (firstOf_of_mem hnodup (by simp)))
    exact hnot hRx

end Covers

end Libca.Common
