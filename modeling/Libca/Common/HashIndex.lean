import Mathlib.Data.List.AList
import Mathlib.Data.List.Perm.Basic

/-!
# Hash maps of buckets

An `unordered_map` from a hash to the list of the values with that hash.

* `mem_bucket_push`: what the buckets hold after a value is added.
* `values_push`, `values_remove`: all values together after one is added or taken out, with their
  multiplicity.
-/

namespace Libca.Common

/-- A map from a hash to its bucket. -/
abbrev HashIndex (κ α : Type) := AList fun _ : κ => List α

namespace HashIndex

variable {κ α : Type} [DecidableEq κ]

/-- The bucket of a hash; a missing one is empty. -/
def bucket (index : HashIndex κ α) (k : κ) : List α := (index.lookup k).getD []

/-- `index[k].push_back(a)`. -/
def push (index : HashIndex κ α) (k : κ) (a : α) : HashIndex κ α :=
  index.insert k (index.bucket k ++ [a])

/-- All values, bucket by bucket. -/
def values (index : HashIndex κ α) : List α := index.entries.flatMap Sigma.snd

/-- Take the first occurrence out of a bucket: the last value takes its place. -/
def swapRemove [DecidableEq α] (a : α) (bucket : List α) : List α :=
  if a ∈ bucket then (bucket.set (bucket.idxOf a) (bucket.getLastD a)).dropLast else bucket

/-- Take a value out of the bucket of `k`; an empty bucket goes. -/
def remove [DecidableEq α] (index : HashIndex κ α) (k : κ) (a : α) : HashIndex κ α :=
  match index.lookup k with
  | none => index
  | some bucket =>
    if (swapRemove a bucket).isEmpty then index.erase k else index.insert k (swapRemove a bucket)

@[simp] theorem bucket_empty (k : κ) : bucket (∅ : HashIndex κ α) k = [] := by
  unfold bucket
  rw [AList.lookup_empty]
  rfl

@[simp] theorem bucket_insert_self (index : HashIndex κ α) (k : κ) (as : List α) :
    bucket (index.insert k as) k = as := by
  unfold bucket
  rw [AList.lookup_insert]
  rfl

variable {k : κ}

theorem bucket_insert_of_ne (index : HashIndex κ α) {k' : κ} (hne : k' ≠ k) (as : List α) :
    bucket (index.insert k as) k' = index.bucket k' := by
  unfold bucket
  rw [AList.lookup_insert_ne hne]

theorem mem_bucket_push (index : HashIndex κ α) (k k' : κ) (a b : α) :
    b ∈ (index.push k a).bucket k' ↔ b ∈ index.bucket k' ∨ k' = k ∧ b = a := by
  unfold push
  by_cases hk : k' = k
  · subst hk
    simp
  · rw [bucket_insert_of_ne index hk]
    simp [hk]

variable {index : HashIndex κ α} {a : α}

theorem lookup_of_mem_bucket (h : a ∈ index.bucket k) : index.lookup k = some (index.bucket k) := by
  unfold bucket at h ⊢
  cases hlookup : index.lookup k with
  | none =>
    rw [hlookup] at h
    cases h
  | some as => rfl

/-- The values are those of one bucket and those of the others. -/
theorem values_perm (index : HashIndex κ α) (k : κ) :
    index.values.Perm (index.bucket k ++ values (index.erase k)) := by
  by_cases hk : k ∈ index
  · obtain ⟨as, l₁, l₂, hnotin, hentries, herase⟩ :=
      List.exists_of_kerase (AList.mem_keys.mp hk)
    have hbucket : index.bucket k = as := by
      have hlookup : index.lookup k = some as :=
        AList.mem_lookup_iff.mpr (by rw [hentries]; exact List.mem_append_right _ List.mem_cons_self)
      unfold bucket
      rw [hlookup]
      rfl
    have hvalues : values (index.erase k) = (l₁ ++ l₂).flatMap Sigma.snd := by
      rw [← herase]
      rfl
    rw [hbucket, hvalues, values, hentries]
    rw [List.flatMap_append, List.flatMap_cons, List.flatMap_append, ← List.append_assoc,
      ← List.append_assoc]
    exact List.perm_append_comm.append_right _
  · have hbucket : index.bucket k = [] := by
      unfold bucket
      rw [AList.lookup_eq_none.mpr hk]
      rfl
    have herase : values (index.erase k) = index.values := by
      have hentries := List.kerase_of_notMem_keys fun h => hk (AList.mem_keys.mpr h)
      change (List.kerase k index.entries).flatMap Sigma.snd = index.entries.flatMap Sigma.snd
      rw [hentries]
    rw [hbucket, herase]
    exact List.Perm.refl _

theorem values_insert (index : HashIndex κ α) (k : κ) (as : List α) :
    values (index.insert k as) = as ++ values (index.erase k) := rfl

/-- **Adding a value adds it once.** -/
theorem values_push (index : HashIndex κ α) (k : κ) (a : α) :
    (index.push k a).values.Perm (a :: index.values) := by
  have hmove : (index.bucket k ++ [a] ++ values (index.erase k)).Perm
      (a :: (index.bucket k ++ values (index.erase k))) := by
    rw [List.append_assoc]
    exact List.perm_middle
  unfold push
  rw [values_insert]
  exact hmove.trans (List.Perm.cons a (index.values_perm k).symm)

theorem mem_values_of_mem_bucket (h : a ∈ index.bucket k) : a ∈ index.values :=
  (index.values_perm k).mem_iff.mpr (List.mem_append_left _ h)

variable [DecidableEq α]

/-- The swap takes one occurrence out. -/
theorem swapRemove_perm {bucket : List α} (h : a ∈ bucket) :
    bucket.Perm (a :: swapRemove a bucket) := by
  have hne : bucket ≠ [] := List.ne_nil_of_mem h
  have hindex : bucket.idxOf a < bucket.length := List.idxOf_lt_length_iff.mpr h
  have hat : bucket[bucket.idxOf a] = a := List.getElem_idxOf hindex
  have hlast : bucket.getLastD a = bucket.getLast hne := by
    rw [List.getLastD_eq_getLast?, List.getLast?_eq_some_getLast hne]
    rfl
  have hset : (bucket.set (bucket.idxOf a) (bucket.getLast hne)).Perm
      (bucket.getLast hne :: bucket.eraseIdx (bucket.idxOf a)) :=
    List.set_perm_cons_eraseIdx hindex _
  have herase : bucket.Perm (a :: bucket.eraseIdx (bucket.idxOf a)) := by
    have hperm := List.getElem_cons_eraseIdx_perm hindex
    rw [hat] at hperm
    exact hperm.symm
  have hsetlast : (bucket.set (bucket.idxOf a) (bucket.getLast hne)) =
      swapRemove a bucket ++ [bucket.getLast hne] := by
    have hne' : bucket.set (bucket.idxOf a) (bucket.getLast hne) ≠ [] := by
      simpa using hne
    have hsame : (bucket.set (bucket.idxOf a) (bucket.getLast hne)).getLast hne' =
        bucket.getLast hne := by
      rw [List.getLast_eq_getElem, List.getElem_set]
      split_ifs with hi
      · rfl
      · simp [List.getLast_eq_getElem]
    have hsplit := List.dropLast_append_getLast hne'
    rw [hsame] at hsplit
    unfold swapRemove
    rw [if_pos h, hlast]
    exact hsplit.symm
  rw [hsetlast] at hset
  have hcancel : (swapRemove a bucket).Perm (bucket.eraseIdx (bucket.idxOf a)) :=
    (List.perm_append_singleton _ _).symm.trans hset |>.cons_inv
  exact herase.trans (List.Perm.cons a hcancel.symm)

/-- **Taking a value out takes it once.** -/
theorem values_remove (h : a ∈ index.bucket k) :
    index.values.Perm (a :: (index.remove k a).values) := by
  have hbucket := swapRemove_perm h
  have hrest : (index.remove k a).values = swapRemove a (index.bucket k) ++
    values (index.erase k) := by
    unfold remove
    rw [lookup_of_mem_bucket h]
    dsimp only
    split_ifs with hempty
    · rw [List.isEmpty_iff.mp hempty, List.nil_append]
    · rw [values_insert]
  rw [hrest, ← List.cons_append]
  exact (index.values_perm k).trans (hbucket.append_right _)

theorem bucket_remove_of_ne (index : HashIndex κ α) {k' : κ} (hne : k' ≠ k) (a : α) :
    (index.remove k a).bucket k' = index.bucket k' := by
  unfold remove
  cases index.lookup k with
  | none => rfl
  | some as =>
    dsimp only
    split_ifs
    · unfold bucket
      rw [AList.lookup_erase_ne hne]
    · rw [bucket_insert_of_ne index hne]

theorem bucket_remove_self (index : HashIndex κ α) (h : a ∈ index.bucket k) :
    (index.remove k a).bucket k = swapRemove a (index.bucket k) := by
  unfold remove
  rw [lookup_of_mem_bucket h]
  dsimp only
  split_ifs with hempty
  · rw [List.isEmpty_iff.mp hempty]
    unfold bucket
    rw [AList.lookup_erase]
    rfl
  · rw [bucket_insert_self]

end HashIndex

end Libca.Common
