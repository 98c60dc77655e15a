import Mathlib.Data.List.Basic

/-!
# `LruCache` (`collection/lru_cache.hpp` 18-151)

The entries with the one used last in front. The index of the source finds an entry by its key; here
the list is searched.

Left out: exceptions of `K`, `V` and the callbacks.

* `get_spec`: what is found is an entry, and no entry is lost or changed.
* `mem_put`, `mem_remove`: what is in the cache afterwards was put in or was there before.
-/

namespace Libca.Collection

/-- `CacheStatus`. -/
structure CacheStatus where
  hits : Nat := 0
  misses : Nat := 0
  evictions : Nat := 0
deriving DecidableEq, Repr

structure LruCache (K V : Type) where
  capacity : Nat
  items : List (K × V) := []
  status : CacheStatus := {}

namespace LruCache

variable {K V : Type} [DecidableEq K]

/-- `index_.find`. -/
def find (cache : LruCache K V) (key : K) : Option V :=
  (cache.items.find? (·.1 = key)).map (·.2)

/-- The entries of the other keys. -/
def others (cache : LruCache K V) (key : K) : List (K × V) := cache.items.filter (·.1 ≠ key)

/-- `get`; the entry that is found moves to the front. -/
def get (cache : LruCache K V) (key : K) : Option V × LruCache K V :=
  match cache.find key with
  | none => (none, { cache with status := { cache.status with misses := cache.status.misses + 1 } })
  | some value =>
    (some value,
      { cache with
        items := (key, value) :: cache.others key
        status := { cache.status with hits := cache.status.hits + 1 } })

/-- `evict_lru`. -/
def evictLru (cache : LruCache K V) : LruCache K V :=
  { cache with
    items := cache.items.dropLast
    status := { cache.status with evictions := cache.status.evictions + 1 } }

/-- `put`. -/
def put (cache : LruCache K V) (key : K) (value : V) : LruCache K V :=
  match cache.find key with
  | some _ => { cache with items := (key, value) :: cache.others key }
  | none =>
    let cache := if cache.items.length ≥ cache.capacity then cache.evictLru else cache
    { cache with items := (key, value) :: cache.items }

/-- `remove`. -/
def remove (cache : LruCache K V) (key : K) : LruCache K V :=
  { cache with items := cache.others key }

variable {cache : LruCache K V} {key : K} {value : V} {item : K × V}

theorem mem_others (h : item ∈ cache.others key) : item ∈ cache.items := List.mem_of_mem_filter h

theorem mem_of_find (h : cache.find key = some value) : (key, value) ∈ cache.items := by
  obtain ⟨⟨k, v⟩, hfind, rfl⟩ := Option.map_eq_some_iff.mp h
  have hkey : k = key := by simpa using List.find?_some hfind
  subst hkey
  exact List.mem_of_find?_eq_some hfind

/-- What `get` finds is an entry, and the entries stay. -/
theorem get_spec (cache : LruCache K V) (key : K) :
    (∀ value, (cache.get key).1 = some value → (key, value) ∈ cache.items) ∧
      ∀ item ∈ (cache.get key).2.items, item ∈ cache.items := by
  unfold get
  cases hfind : cache.find key with
  | none => exact ⟨by rintro value ⟨⟩, fun _ hmem => hmem⟩
  | some value =>
    refine ⟨?_, fun item hmem => ?_⟩
    · rintro value' ⟨⟩
      exact mem_of_find hfind
    · rcases List.mem_cons.mp hmem with rfl | hmem
      · exact mem_of_find hfind
      · exact mem_others hmem

theorem mem_put (h : item ∈ (cache.put key value).items) :
    item = (key, value) ∨ item ∈ cache.items := by
  unfold put at h
  cases hfind : cache.find key with
  | some old =>
    rw [hfind] at h
    exact (List.mem_cons.mp h).imp id mem_others
  | none =>
    rw [hfind] at h
    refine (List.mem_cons.mp h).imp id fun hmem => ?_
    split_ifs at hmem
    · exact List.dropLast_subset _ hmem
    · exact hmem

theorem mem_remove (h : item ∈ (cache.remove key).items) : item ∈ cache.items := mem_others h

end LruCache

end Libca.Collection
