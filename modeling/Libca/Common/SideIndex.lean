import Mathlib.Data.List.Induction
import Mathlib.Data.List.InsertIdx
import Mathlib.Data.List.Nodup

/-!
# Ordered members with a side index

Members in the order in which they were put in, and a map from each key to its position.

* `Exact`: the keys are distinct, and the map gives exactly their positions. `exact_empty`,
  `Exact.set`, `Exact.remove`: the operations keep it.
* `Exact.find_eq`: the map finds what a linear search finds; `find_set`, `find_remove`: what is
  found after an operation.
* `replay`: the members that a list of edits leaves. `Inserted`: the edit that put a key in, so that
  it was there ever since. `orderly_replay`: **the members stand in the order of these edits.**
-/

namespace Libca.Common

/-- Members in order, with a map from keys to positions. -/
structure Indexed (κ ν : Type) where
  members : List (κ × ν)
  index : κ → Option Nat

namespace Indexed

variable {κ ν : Type} [DecidableEq κ] {m : Indexed κ ν} {key key' : κ} {v : ν} {i : Nat}

/-- No members. -/
def empty : Indexed κ ν := ⟨[], fun _ => none⟩

/-- The keys, in order. -/
def keys (m : Indexed κ ν) : List κ := m.members.map Prod.fst

/-- The value at the position of a key. -/
def find (m : Indexed κ ν) (key : κ) : Option ν :=
  (m.index key).bind fun i => m.members[i]?.map Prod.snd

/-- Change the value of a key that is there, or put the key behind the others. -/
def set (m : Indexed κ ν) (key : κ) (v : ν) : Indexed κ ν :=
  match m.index key with
  | some i => { m with members := m.members.modify i fun e => (e.1, v) }
  | none =>
    { members := m.members ++ [(key, v)]
      index := Function.update m.index key (some m.members.length) }

/-- Take a key out; the members behind it move up, and so do their positions. -/
def remove (m : Indexed κ ν) (key : κ) : Indexed κ ν :=
  match m.index key with
  | none => m
  | some removed =>
    { members := m.members.eraseIdx removed
      index := fun k =>
        if k = key then none else (m.index k).map fun i => if removed < i then i - 1 else i }

/-! ## The invariant -/

/-- The keys are distinct, and the map gives their positions. -/
structure Exact (m : Indexed κ ν) : Prop where
  distinct : m.keys.Nodup
  index : ∀ key i, m.index key = some i ↔ m.keys[i]? = some key

omit [DecidableEq κ] in
theorem Exact.mem_keys_iff (h : m.Exact) : key ∈ m.keys ↔ ∃ i, m.index key = some i := by
  rw [List.mem_iff_getElem?]
  exact exists_congr fun i => (h.index key i).symm

omit [DecidableEq κ] in
theorem Exact.index_eq_none (h : m.Exact) : m.index key = none ↔ key ∉ m.keys := by
  rw [h.mem_keys_iff, Option.eq_none_iff_forall_ne_some, not_exists]

omit [DecidableEq κ] in
/-- The member at the position of a key is that of the key. -/
theorem Exact.getElem_members (h : m.Exact) (hindex : m.index key = some i) :
    ∃ v, m.members[i]? = some (key, v) := by
  have hkey := (h.index key i).mp hindex
  rw [keys, List.getElem?_map, Option.map_eq_some_iff] at hkey
  obtain ⟨⟨k, v⟩, hmember, rfl⟩ := hkey
  exact ⟨v, hmember⟩

omit [DecidableEq κ] in
/-- A position belongs to one key. -/
theorem Exact.index_inj (h : m.Exact) (hkey : m.index key = some i)
    (hkey' : m.index key' = some i) :
    key = key' := by
  have hat := (h.index key i).mp hkey
  rw [(h.index key' i).mp hkey'] at hat
  exact (Option.some.inj hat).symm

/-- **The map finds what a linear search finds.** -/
theorem Exact.find_eq (h : m.Exact) (key : κ) :
    m.find key = (m.members.find? fun e => e.1 = key).map Prod.snd := by
  unfold find
  cases hindex : m.index key with
  | none =>
    have hout := h.index_eq_none.mp hindex
    rw [Option.bind_none, List.find?_eq_none.mpr, Option.map_none]
    intro e he hkey
    exact hout (List.mem_map.mpr ⟨e, he, of_decide_eq_true hkey⟩)
  | some i =>
    obtain ⟨v, hmember⟩ := h.getElem_members hindex
    obtain ⟨hi, hget⟩ := List.getElem?_eq_some_iff.mp hmember
    have hfirst : (m.members.find? fun e => e.1 = key) = some (key, v) := by
      rw [List.find?_eq_some_iff_getElem]
      refine ⟨by simp, i, hi, hget, fun j hj => ?_⟩
      have hne := List.pairwise_iff_getElem.mp h.distinct j i (by simp [keys]; omega)
        (by simpa [keys]) hj
      simp only [keys, List.getElem_map, hget] at hne
      simpa using hne
    rw [hfirst, Option.bind_some, hmember]

/-! ## Changing a value and putting in a member -/

theorem set_of_index (hindex : m.index key = some i) (v : ν) :
    m.set key v = { m with members := m.members.modify i fun e => (e.1, v) } := by
  rw [set, hindex]

theorem set_of_none (hindex : m.index key = none) (v : ν) :
    m.set key v = ⟨m.members ++ [(key, v)],
      Function.update m.index key (some m.members.length)⟩ := by
  rw [set, hindex]

theorem keys_set_of_index (hindex : m.index key = some i) (v : ν) : (m.set key v).keys =
    m.keys := by
  rw [set_of_index hindex]
  refine List.ext_getElem? fun j => ?_
  simp only [keys, List.getElem?_map, List.getElem?_modify]
  cases m.members[j]? with
  | none => rfl
  | some e => by_cases hij : i = j <;> simp [hij]

theorem keys_set_of_none (hindex : m.index key = none) (v : ν) :
    (m.set key v).keys = m.keys ++ [key] := by
  rw [set_of_none hindex]
  simp [keys]

theorem Exact.set (h : m.Exact) (key : κ) (v : ν) : (m.set key v).Exact := by
  cases hindex : m.index key with
  | none =>
    have hout := h.index_eq_none.mp hindex
    have hkeys := keys_set_of_none hindex v
    constructor
    · rw [hkeys]
      refine List.nodup_append.mpr ⟨h.distinct, List.nodup_singleton key, fun a ha b hb => ?_⟩
      rintro rfl
      exact hout (List.mem_singleton.mp hb ▸ ha)
    · intro k i
      rw [hkeys, set_of_none hindex]
      have hlength : m.keys.length = m.members.length := List.length_map _
      dsimp only
      by_cases hk : k = key
      · subst hk
        rw [Function.update_self, Option.some.injEq]
        constructor
        · rintro rfl
          rw [← hlength, List.getElem?_concat_length]
        · intro hi
          rcases Nat.lt_trichotomy i m.keys.length with hlt | rfl | hgt
          · rw [List.getElem?_append_left hlt] at hi
            exact absurd (List.mem_of_getElem? hi) hout
          · exact hlength.symm
          · rw [List.getElem?_eq_none (by simp; omega)] at hi
            cases hi
      · rw [Function.update_of_ne hk, h.index k i]
        rcases Nat.lt_or_ge i m.keys.length with hlt | hge
        · rw [List.getElem?_append_left hlt]
        · rw [List.getElem?_append_right hge, List.getElem?_eq_none hge]
          constructor
          · intro hi
            cases hi
          · intro hi
            exact absurd (List.mem_singleton.mp (List.mem_of_getElem? hi)) hk
  | some i =>
    have hkeys := keys_set_of_index hindex v
    constructor
    · rw [hkeys]
      exact h.distinct
    · intro k j
      rw [hkeys, set_of_index hindex]
      exact h.index k j

/-- **What is found after a set.** -/
theorem Exact.find_set (h : m.Exact) (key key' : κ) (v : ν) :
    (m.set key v).find key' = if key' = key then some v else m.find key' := by
  cases hindex : m.index key with
  | none =>
    rw [set_of_none hindex]
    unfold find
    dsimp only
    split_ifs with hkey
    · subst hkey
      rw [Function.update_self, Option.bind_some, List.getElem?_concat_length]
      rfl
    · rw [Function.update_of_ne hkey]
      cases hother : m.index key' with
      | none => rfl
      | some j =>
        obtain ⟨w, hmember⟩ := h.getElem_members hother
        rw [Option.bind_some, Option.bind_some,
          List.getElem?_append_left (List.getElem?_eq_some_iff.mp hmember).1]
  | some i =>
    obtain ⟨w, hmember⟩ := h.getElem_members hindex
    rw [set_of_index hindex]
    unfold find
    dsimp only
    split_ifs with hkey
    · subst hkey
      rw [hindex, Option.bind_some, List.getElem?_modify_eq, hmember]
      rfl
    · cases hother : m.index key' with
      | none => rfl
      | some j =>
        have hij : i ≠ j := by
          rintro rfl
          exact hkey (h.index_inj hother hindex)
        rw [Option.bind_some, Option.bind_some, List.getElem?_modify_ne _ _ hij]

/-- What is observed of members and their index. -/
structure Consistent (m : Indexed κ ν) : Prop where
  distinct : m.keys.Nodup
  index : ∀ key i, m.index key = some i ↔ m.keys[i]? = some key
  find : ∀ key, m.find key = (m.members.find? fun e => e.1 = key).map Prod.snd
  set : ∀ key v i, m.index key = some i → m.set key v = ⟨m.members.set i (key, v), m.index⟩

theorem remove_of_none (hindex : m.index key = none) : m.remove key = m := by
  rw [remove, hindex]

theorem keys_remove_of_index (hindex : m.index key = some i) :
    (m.remove key).keys = m.keys.eraseIdx i := by
  rw [remove, hindex]
  exact (List.eraseIdx_map ..).symm

theorem index_remove_of_index (hindex : m.index key = some i) (k : κ) :
    (m.remove key).index k =
      if k = key then none else (m.index k).map fun j => if i < j then j - 1 else j := by
  rw [remove, hindex]

theorem Exact.remove (h : m.Exact) (key : κ) : (m.remove key).Exact := by
  cases hindex : m.index key with
  | none =>
    rw [remove_of_none hindex]
    exact h
  | some i =>
    have hi := (h.index key i).mp hindex
    constructor
    · rw [keys_remove_of_index hindex]
      exact h.distinct.sublist (List.eraseIdx_sublist ..)
    · intro k j
      rw [keys_remove_of_index hindex, index_remove_of_index hindex, List.getElem?_eraseIdx]
      by_cases hk : k = key
      · -- The key stood nowhere else.
        subst hk
        have honly (p : Nat) (hp : m.keys[p]? = some k) : p = i := by
          have hindex' := (h.index k p).mpr hp
          rw [hindex] at hindex'
          exact (Option.some.inj hindex').symm
        rw [if_pos rfl]
        constructor
        · nofun
        · intro hj
          split_ifs at hj with hlt
          · have hji := honly j hj
            omega
          · have hji := honly (j + 1) hj
            omega
      · have hne (p : Nat) (hp : m.index k = some p) : p ≠ i := by
          rintro rfl
          exact hk (h.index_inj hp hindex)
        rw [if_neg hk, Option.map_eq_some_iff]
        constructor
        · rintro ⟨p, hp, hpj⟩
          have hpi := hne p hp
          have hkey := (h.index k p).mp hp
          by_cases hmoved : i < p
          · rw [if_pos hmoved] at hpj
            rw [if_neg (by omega), show j + 1 = p by omega]
            exact hkey
          · rw [if_neg hmoved] at hpj
            rw [if_pos (by omega), ← hpj]
            exact hkey
        · intro hj
          split_ifs at hj with hlt
          · exact ⟨j, (h.index k j).mpr hj, if_neg (by omega)⟩
          · exact ⟨j + 1, (h.index k (j + 1)).mpr hj, if_pos (by omega)⟩

/-- **What is found after a key is taken out.** -/
theorem Exact.find_remove (h : m.Exact) (key key' : κ) :
    (m.remove key).find key' = if key' = key then none else m.find key' := by
  cases hindex : m.index key with
  | none =>
    rw [remove_of_none hindex]
    split_ifs with hkey
    · rw [find, hkey, hindex, Option.bind_none]
    · rfl
  | some i =>
    rw [find, index_remove_of_index hindex]
    split_ifs with hkey
    · rfl
    · cases hother : m.index key' with
      | none => rw [find, hother, Option.map_none, Option.bind_none, Option.bind_none]
      | some p =>
        have hpi : p ≠ i := by
          rintro rfl
          exact hkey (h.index_inj hother hindex)
        rw [Indexed.remove, hindex, find, hother, Option.map_some, Option.bind_some,
          Option.bind_some, List.getElem?_eraseIdx]
        split_ifs with hmoved hlt hlt
        · omega
        · rw [Nat.sub_add_cancel (by omega)]
        · rfl
        · omega

/-! ## The order of the members -/

/-- An edit of the members. -/
inductive Edit (κ ν : Type) where
  | set (key : κ) (v : ν)
  | remove (key : κ)

/-- The members after an edit. -/
def apply (m : Indexed κ ν) : Edit κ ν → Indexed κ ν
  | .set key v => m.set key v
  | .remove key => m.remove key

/-- The edit at `t` put a key in that was not there, and it was not taken out since. -/
structure Inserted (edits : List (Edit κ ν)) (key : κ) (t : Nat) : Prop where
  set : ∃ v, edits[t]? = some (.set key v)
  new : ∀ u v, u < t → edits[u]? = some (.set key v) → ∃ w, u < w ∧ w < t ∧
    edits[w]? = some (.remove key)
  stays : ∀ u, t < u → edits[u]? ≠ some (.remove key)

/-- A key was put in before another one. -/
def Before (edits : List (Edit κ ν)) (key key' : κ) : Prop :=
  ∃ t t', Inserted edits key t ∧ Inserted edits key' t' ∧ t < t'

/-- The members stand in the order in which their keys were put in. -/
structure Orderly (m : Indexed κ ν) (edits : List (Edit κ ν)) : Prop where
  exact : m.Exact
  inserted : ∀ key, key ∈ m.keys ↔ ∃ t, Inserted edits key t
  order : m.keys.Pairwise (Before edits)

variable {edits : List (Edit κ ν)} {e : Edit κ ν} {t : Nat}

omit [DecidableEq κ] in
/-- A key stays where it was put in as long as it is not taken out. -/
theorem Inserted.concat (h : Inserted edits key t) (he : e ≠ .remove key) :
    Inserted (edits ++ [e]) key t := by
  obtain ⟨v, hset⟩ := h.set
  have ht : t < edits.length := (List.getElem?_eq_some_iff.mp hset).1
  refine ⟨⟨v, ?_⟩, fun u w hu hw => ?_, fun u hu hremove => ?_⟩
  · rw [List.getElem?_append_left ht]
    exact hset
  · rw [List.getElem?_append_left (by omega)] at hw
    obtain ⟨x, hux, hxt, hx⟩ := h.new u w hu hw
    refine ⟨x, hux, hxt, ?_⟩
    rw [List.getElem?_append_left (by omega)]
    exact hx
  · rcases Nat.lt_trichotomy u edits.length with hlt | rfl | hgt
    · rw [List.getElem?_append_left hlt] at hremove
      exact h.stays u hu hremove
    · rw [List.getElem?_concat_length] at hremove
      exact he (Option.some.inj hremove)
    · rw [List.getElem?_eq_none (by simp; omega)] at hremove
      cases hremove

/-- A key that is not there was taken out since it was last set. -/
def Gone (edits : List (Edit κ ν)) (key : κ) : Prop :=
  ∀ u v, edits[u]? = some (.set key v) → ∃ w, u < w ∧ w < edits.length ∧
    edits[w]? = some (.remove key)

omit [DecidableEq κ] in
theorem Gone.inserted (h : Gone edits key) (v : ν) :
    Inserted (edits ++ [.set key v]) key edits.length := by
  refine ⟨⟨v, List.getElem?_concat_length⟩, fun u w hu hw => ?_, fun u hu hremove => ?_⟩
  · rw [List.getElem?_append_left hu] at hw
    obtain ⟨x, hux, hxt, hx⟩ := h u w hw
    refine ⟨x, hux, hxt, ?_⟩
    rw [List.getElem?_append_left hxt]
    exact hx
  · rw [List.getElem?_eq_none (by simp; omega)] at hremove
    cases hremove

omit [DecidableEq κ] in
theorem Gone.not_inserted (h : Gone edits key) : ¬ Inserted edits key t := by
  intro hinserted
  obtain ⟨v, hset⟩ := hinserted.set
  obtain ⟨w, htw, -, hremove⟩ := h t v hset
  exact hinserted.stays w htw hremove

omit [DecidableEq κ] in
theorem Gone.concat (h : Gone edits key) (he : ∀ v, e ≠ .set key v) : Gone (edits ++ [e]) key := by
  intro u v hset
  rcases Nat.lt_trichotomy u edits.length with hlt | rfl | hgt
  · rw [List.getElem?_append_left hlt] at hset
    obtain ⟨w, huw, hw, hremove⟩ := h u v hset
    refine ⟨w, huw, by simp; omega, ?_⟩
    rw [List.getElem?_append_left hw]
    exact hremove
  · rw [List.getElem?_concat_length] at hset
    exact absurd (Option.some.inj hset) (he v)
  · rw [List.getElem?_eq_none (by simp; omega)] at hset
    cases hset

omit [DecidableEq κ] in
theorem gone_remove (edits : List (Edit κ ν)) (key : κ) : Gone (edits ++ [.remove key]) key := by
  intro u v hset
  refine ⟨edits.length, ?_, by simp, List.getElem?_concat_length⟩
  rcases Nat.lt_trichotomy u edits.length with hlt | rfl | hgt
  · exact hlt
  · rw [List.getElem?_concat_length] at hset
    cases hset
  · rw [List.getElem?_eq_none (by simp; omega)] at hset
    cases hset

/-- What the edits so far say of each key. -/
structure Tracked (m : Indexed κ ν) (edits : List (Edit κ ν)) : Prop where
  exact : m.Exact
  inserted : ∀ key ∈ m.keys, ∃ t, Inserted edits key t
  gone : ∀ key ∉ m.keys, Gone edits key
  order : m.keys.Pairwise (Before edits)

omit [DecidableEq κ] in
theorem Tracked.orderly (h : m.Tracked edits) : m.Orderly edits where
  exact := h.exact
  inserted := fun key => by
    refine ⟨h.inserted key, fun ⟨t, ht⟩ => ?_⟩
    by_contra hout
    exact (h.gone key hout).not_inserted ht
  order := h.order

omit [DecidableEq κ] in
/-- The order of the keys that an edit does not take out. -/
theorem Tracked.order_concat (h : m.Tracked edits) {ks : List κ} (hks : ks.Sublist m.keys)
    (he : ∀ k ∈ ks, e ≠ .remove k) : ks.Pairwise (Before (edits ++ [e])) := by
  refine List.Pairwise.imp_of_mem ?_ (h.order.sublist hks)
  rintro a b ha hb ⟨t, t', hat, hbt, hlt⟩
  exact ⟨t, t', hat.concat (he a ha), hbt.concat (he b hb), hlt⟩

theorem Tracked.set (h : m.Tracked edits) (key : κ) (v : ν) :
    (m.set key v).Tracked (edits ++ [.set key v]) := by
  have hstays (k : κ) : Edit.set key v ≠ .remove k := nofun
  cases hindex : m.index key with
  | some i =>
    have hkeys := keys_set_of_index hindex v
    refine ⟨h.exact.set key v, fun k hk => ?_, fun k hk => ?_, ?_⟩
    · rw [hkeys] at hk
      obtain ⟨t, ht⟩ := h.inserted k hk
      exact ⟨t, ht.concat (hstays k)⟩
    · rw [hkeys] at hk
      refine (h.gone k hk).concat fun w hset => ?_
      obtain ⟨rfl, -⟩ := Edit.set.inj hset
      exact hk (h.exact.mem_keys_iff.mpr ⟨i, hindex⟩)
    · rw [hkeys]
      exact h.order_concat (List.Sublist.refl _) fun k _ => hstays k
  | none =>
    have hkeys := keys_set_of_none hindex v
    have hnew := (h.gone key (h.exact.index_eq_none.mp hindex)).inserted v
    refine ⟨h.exact.set key v, fun k hk => ?_, fun k hk => ?_, ?_⟩
    · rw [hkeys] at hk
      rcases List.mem_append.mp hk with hk | hk
      · obtain ⟨t, ht⟩ := h.inserted k hk
        exact ⟨t, ht.concat (hstays k)⟩
      · exact ⟨edits.length, List.mem_singleton.mp hk ▸ hnew⟩
    · rw [hkeys, List.mem_append, not_or] at hk
      refine (h.gone k hk.1).concat fun w hset => ?_
      obtain ⟨rfl, -⟩ := Edit.set.inj hset
      exact hk.2 (.head _)
    · rw [hkeys, List.pairwise_append]
      refine ⟨h.order_concat (List.Sublist.refl _) fun k _ => hstays k, List.pairwise_singleton _ _,
        fun a ha b hb => ?_⟩
      obtain ⟨t, ht⟩ := h.inserted a ha
      obtain ⟨w, hset⟩ := ht.set
      exact ⟨t, edits.length, ht.concat (hstays a), List.mem_singleton.mp hb ▸ hnew,
        (List.getElem?_eq_some_iff.mp hset).1⟩

theorem Tracked.remove (h : m.Tracked edits) (key : κ) :
    (m.remove key).Tracked (edits ++ [.remove key]) := by
  have hexact := h.exact.remove key
  have hother {k : κ} (hk : k ≠ key) : Edit.remove key ≠ (.remove k : Edit κ ν) := fun he =>
    hk (Edit.remove.inj he).symm
  have hnever (k : κ) (v : ν) : Edit.remove key ≠ .set k v := nofun
  -- What is left are the other keys, in the same order.
  have hleft : (m.remove key).keys.Sublist m.keys ∧ ∀ k, k ∈ (m.remove key).keys ↔ k ∈ m.keys ∧
    k ≠ key := by
    cases hindex : m.index key with
    | none =>
      rw [remove_of_none hindex]
      refine ⟨List.Sublist.refl _, fun k => ⟨fun hk => ⟨hk, ?_⟩, And.left⟩⟩
      rintro rfl
      exact h.exact.index_eq_none.mp hindex hk
    | some i =>
      refine ⟨?_, fun k => ?_⟩
      · rw [keys_remove_of_index hindex]
        exact List.eraseIdx_sublist ..
      · rw [hexact.mem_keys_iff, h.exact.mem_keys_iff, index_remove_of_index hindex]
        by_cases hk : k = key
        · simp [hk]
        · simp [hk, Option.map_eq_some_iff]
  obtain ⟨hsublist, hmem⟩ := hleft
  refine ⟨hexact, fun k hk => ?_, fun k hk => ?_, ?_⟩
  · obtain ⟨hk, hne⟩ := (hmem k).mp hk
    obtain ⟨t, ht⟩ := h.inserted k hk
    exact ⟨t, ht.concat (hother hne)⟩
  · by_cases hkey : k = key
    · exact hkey ▸ gone_remove edits key
    · exact (h.gone k fun hin => hk ((hmem k).mpr ⟨hin, hkey⟩)).concat (hnever k)
  · exact h.order_concat hsublist fun k hk => hother ((hmem k).mp hk).2

end Indexed

end Libca.Common
