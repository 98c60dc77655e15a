import Libca.Collection.LruCache
import Mathlib.Algebra.Group.Nat.Defs
import Mathlib.Data.List.AList

/-!
# The list and the index of an `LruCache`

The members of an `LruCache` (`collection/lru_cache.hpp`): a `std::list` of nodes, and an index that
holds for each key an iterator into a list. `none` is the undefined behaviour of a splice or an
erase with an iterator of another list. The callback is named by a number, and a call of it is a
value that `put` returns.

* `WellLinked`: the index has the keys of the list, each with its node.
* `get_keeps`, `put_keeps`, `remove_keeps`: on such a cache the operations are defined, and they are
  those of a list in the order of last use.
-/

namespace Libca.Collection

/-- A node of a `std::list`. An iterator is the address of its node. -/
structure Node (K V : Type) where
  address : Nat
  key : K
  value : V
deriving DecidableEq, Repr

def Node.entry {K V : Type} (node : Node K V) : K × V := (node.key, node.value)

/-- A counter as a `usize`. -/
def CacheStatus.wrapped (status : CacheStatus) : CacheStatus where
  hits := status.hits % 2 ^ 64
  misses := status.misses % 2 ^ 64
  evictions := status.evictions % 2 ^ 64

/-- The members of `LruCache`. -/
structure LinkedCache (K V : Type) where
  capacity : Nat
  items : List (Node K V) := []
  index : AList fun _ : K => Nat := ∅
  status : CacheStatus := {}
  onEvict : Option Nat := none

namespace LinkedCache

variable {K V : Type}

/-- The node of an iterator, if it is one of this list. -/
def node (cache : LinkedCache K V) (it : Nat) : Option (Node K V) :=
  cache.items.find? (·.address = it)

/-- The nodes that are not the one of an iterator. -/
def others (cache : LinkedCache K V) (it : Nat) : List (Node K V) :=
  cache.items.filter (·.address ≠ it)

theorem others_sublist (cache : LinkedCache K V) (it : Nat) :
    (cache.others it).Sublist cache.items :=
  List.filter_sublist

theorem length_others_lt {cache : LinkedCache K V} {n : Node K V} (hn : n ∈ cache.items) :
    (cache.others n.address).length < cache.items.length := by
  rw [others, List.length_filter_lt_length_iff_exists]
  exact ⟨n, hn, by simp⟩

variable [DecidableEq K]

/-- `touch`. -/
def touch (cache : LinkedCache K V) (it : Nat) : Option (LinkedCache K V) := do
  let node ← cache.node it
  return { cache with items := node :: cache.others it }

/-- `get`. -/
def get (cache : LinkedCache K V) (key : K) : Option (Option V × LinkedCache K V) :=
  match cache.index.lookup key with
  | none =>
    some (none,
      { cache with status := { cache.status with misses := (cache.status.misses + 1) % 2 ^ 64 } })
  | some it => do
    let cache ← cache.touch it
    let node ← cache.node it
    return (some node.value,
      { cache with status := { cache.status with hits := (cache.status.hits + 1) % 2 ^ 64 } })

/-- `it->second->second = std::move(value)`. -/
def assign (cache : LinkedCache K V) (it : Nat) (value : V) : LinkedCache K V :=
  { cache with items := cache.items.map fun node => if node.address = it then
    { node with value } else node }

/-- `evict_lru`, with the call of the callback. -/
def evictLru (cache : LinkedCache K V) : Option (List (Nat × K × V) × LinkedCache K V) := do
  let lru ← cache.items.getLast?
  return (cache.onEvict.toList.map fun callback => (callback, lru.entry),
    { cache with
      items := cache.items.dropLast
      index := cache.index.erase lru.key
      status := { cache.status with evictions := (cache.status.evictions + 1) % 2 ^ 64 } })

/-- `put`, with the calls of the callback; a new node has the given address. -/
def put (cache : LinkedCache K V) (address : Nat) (key : K) (value : V) :
    Option (List (Nat × K × V) × LinkedCache K V) :=
  match cache.index.lookup key with
  | some it => ((cache.assign it value).touch it).map fun cache => ([], cache)
  | none => do
    let (calls, cache) ← if cache.items.length ≥ cache.capacity then cache.evictLru
    else some ([], cache)
    return (calls,
      { cache with
        items := { address, key, value } :: cache.items
        index := cache.index.insert key address })

/-- `remove`. -/
def remove (cache : LinkedCache K V) (key : K) : Option (Option V × LinkedCache K V) :=
  match cache.index.lookup key with
  | none => some (none, cache)
  | some it => do
    let node ← cache.node it
    return (some node.value, { cache with items := cache.others it, index := cache.index.erase key })

/-- `clear`. -/
def clear (cache : LinkedCache K V) : LinkedCache K V := { cache with items := [], index := ∅ }

/-! ## Linked caches -/

/-- The index has exactly the keys of the list, each with the node of its key, and the list keeps
the capacity. -/
structure WellLinked (cache : LinkedCache K V) : Prop where
  lookup_iff : ∀ key it, cache.index.lookup key = some it ↔
    ∃ node ∈ cache.items, node.key = key ∧ node.address = it
  keys_nodup : (cache.items.map (·.key)).Nodup
  addresses_nodup : (cache.items.map (·.address)).Nodup
  length_le : cache.items.length ≤ cache.capacity
  capacity_pos : 0 < cache.capacity

variable {cache : LinkedCache K V} {key : K} {value : V} {it : Nat} {n m : Node K V}

namespace WellLinked

theorem eq_of_key (h : cache.WellLinked) (hn : n ∈ cache.items) (hm : m ∈ cache.items)
    (hkey : n.key = m.key) :
    n = m :=
  List.inj_on_of_nodup_map h.keys_nodup hn hm hkey

theorem eq_of_address (h : cache.WellLinked) (hn : n ∈ cache.items) (hm : m ∈ cache.items)
    (haddress : n.address = m.address) : n = m :=
  List.inj_on_of_nodup_map h.addresses_nodup hn hm haddress

/-- What the index finds is the node of its key. -/
theorem lookup_some (h : cache.WellLinked) (hlookup : cache.index.lookup key = some it) :
    ∃ node, node ∈ cache.items ∧ node.key = key ∧ node.address = it := by
  obtain ⟨node, hmem, hkey, haddress⟩ := (h.lookup_iff key it).mp hlookup
  exact ⟨node, hmem, hkey, haddress⟩

theorem lookup_none (h : cache.WellLinked) (hlookup : cache.index.lookup key = none) :
    ∀ node ∈ cache.items, node.key ≠ key := by
  intro node hmem hkey
  have hsome := (h.lookup_iff key node.address).mpr ⟨node, hmem, hkey, rfl⟩
  rw [hlookup] at hsome
  cases hsome

/-- An iterator into the list has its node. -/
theorem node_address (h : cache.WellLinked) (hn : n ∈ cache.items) :
    cache.node n.address = some n := by
  cases hfind : cache.node n.address with
  | none => exact absurd (decide_eq_true rfl) (List.find?_eq_none.mp hfind n hn)
  | some m =>
    unfold node at hfind
    have haddress : m.address = n.address := by simpa using List.find?_some hfind
    rw [h.eq_of_address (List.mem_of_find?_eq_some hfind) hn haddress]

theorem mem_others (h : cache.WellLinked) (hn : n ∈ cache.items) :
    m ∈ cache.others n.address ↔ m ∈ cache.items ∧ m ≠ n := by
  rw [others, List.mem_filter, decide_eq_true_eq]
  refine and_congr_right fun hm => not_congr ⟨h.eq_of_address hm hn, fun heq => by rw [heq]⟩

/-- The node of a key comes to the front, with any value. -/
theorem front (h : cache.WellLinked) (hn : n ∈ cache.items) (value : V) (status : CacheStatus) :
    WellLinked { cache with items := { n with value } :: cache.others n.address, status } where
  lookup_iff key it := by
    rw [h.lookup_iff]
    constructor
    · rintro ⟨m, hm, hkey, haddress⟩
      by_cases heq : m = n
      · rw [heq] at hkey haddress
        exact ⟨_, List.mem_cons_self, hkey, haddress⟩
      · exact ⟨m, .tail _ ((h.mem_others hn).mpr ⟨hm, heq⟩), hkey, haddress⟩
    · rintro ⟨m, hm, hkey, haddress⟩
      rcases List.mem_cons.mp hm with rfl | hm
      · exact ⟨n, hn, hkey, haddress⟩
      · exact ⟨m, ((h.mem_others hn).mp hm).1, hkey, haddress⟩
  keys_nodup := by
    refine List.nodup_cons.mpr ⟨fun hmem => ?_,
      h.keys_nodup.sublist ((others_sublist cache _).map _)⟩
    obtain ⟨m, hm, hkey⟩ := List.mem_map.mp hmem
    obtain ⟨hm, hne⟩ := (h.mem_others hn).mp hm
    exact hne (h.eq_of_key hm hn hkey)
  addresses_nodup := by
    refine List.nodup_cons.mpr ⟨fun hmem => ?_,
      h.addresses_nodup.sublist ((others_sublist cache _).map _)⟩
    obtain ⟨m, hm, haddress⟩ := List.mem_map.mp hmem
    obtain ⟨hm, hne⟩ := (h.mem_others hn).mp hm
    exact hne (h.eq_of_address hm hn haddress)
  length_le := Nat.le_trans (length_others_lt hn) h.length_le
  capacity_pos := h.capacity_pos

/-- A node leaves the list and its key the index. -/
theorem erase (h : cache.WellLinked) (hn : n ∈ cache.items) (status : CacheStatus) :
    WellLinked { cache with
      items := cache.others n.address, index := cache.index.erase n.key, status } where
  lookup_iff key it := by
    by_cases hkey : key = n.key
    · rw [hkey, AList.lookup_erase]
      refine iff_of_false nofun ?_
      rintro ⟨m, hm, hmkey, -⟩
      obtain ⟨hm, hne⟩ := (h.mem_others hn).mp hm
      exact hne (h.eq_of_key hm hn hmkey)
    · rw [AList.lookup_erase_ne hkey, h.lookup_iff]
      constructor
      · rintro ⟨m, hm, hmkey, haddress⟩
        refine ⟨m, (h.mem_others hn).mpr ⟨hm, ?_⟩, hmkey, haddress⟩
        rintro rfl
        exact hkey hmkey.symm
      · rintro ⟨m, hm, hmkey, haddress⟩
        exact ⟨m, ((h.mem_others hn).mp hm).1, hmkey, haddress⟩
  keys_nodup := h.keys_nodup.sublist ((others_sublist cache _).map _)
  addresses_nodup := h.addresses_nodup.sublist ((others_sublist cache _).map _)
  length_le := Nat.le_trans (List.length_filter_le _ _) h.length_le
  capacity_pos := h.capacity_pos

/-- A new node comes to the front, and its key into the index. -/
theorem insert (h : cache.WellLinked) (hkey : ∀ node ∈ cache.items, node.key ≠ key)
    (haddress : ∀ node ∈ cache.items, node.address ≠ it)
    (hroom : cache.items.length < cache.capacity) (value : V) :
    WellLinked { cache with
      items := ⟨it, key, value⟩ :: cache.items, index := cache.index.insert key it } where
  lookup_iff key' it' := by
    by_cases heq : key' = key
    · rw [heq, AList.lookup_insert]
      constructor
      · rintro ⟨⟩
        exact ⟨_, List.mem_cons_self, rfl, rfl⟩
      · rintro ⟨m, hm, hmkey, hmaddress⟩
        rcases List.mem_cons.mp hm with rfl | hm
        · exact congrArg some hmaddress
        · exact absurd hmkey (hkey m hm)
    · rw [AList.lookup_insert_ne heq, h.lookup_iff]
      constructor
      · rintro ⟨m, hm, hmkey, hmaddress⟩
        exact ⟨m, .tail _ hm, hmkey, hmaddress⟩
      · rintro ⟨m, hm, hmkey, hmaddress⟩
        rcases List.mem_cons.mp hm with rfl | hm
        · exact absurd hmkey.symm heq
        · exact ⟨m, hm, hmkey, hmaddress⟩
  keys_nodup := by
    refine List.nodup_cons.mpr ⟨fun hmem => ?_, h.keys_nodup⟩
    obtain ⟨m, hm, hmkey⟩ := List.mem_map.mp hmem
    exact hkey m hm hmkey
  addresses_nodup := by
    refine List.nodup_cons.mpr ⟨fun hmem => ?_, h.addresses_nodup⟩
    obtain ⟨m, hm, hmaddress⟩ := List.mem_map.mp hmem
    exact haddress m hm hmaddress
  length_le := hroom
  capacity_pos := h.capacity_pos

/-- The list without its last node. -/
theorem dropLast_eq_others (h : cache.WellLinked) (hlast : cache.items.getLast? = some n) :
    cache.items.dropLast = cache.others n.address := by
  obtain ⟨init, hitems⟩ := List.getLast?_eq_some_iff.mp hlast
  have hnodup := h.addresses_nodup
  rw [hitems, List.map_append, List.nodup_append] at hnodup
  have hinit : ∀ m ∈ init, m.address ≠ n.address := fun m hm =>
    hnodup.2.2 _ (List.mem_map_of_mem hm) _ List.mem_cons_self
  rw [others, hitems, List.dropLast_concat, List.filter_append,
    List.filter_eq_self.mpr (by simpa using hinit)]
  simp

theorem empty {capacity : Nat} (hpos : 0 < capacity) (status : CacheStatus) (onEvict : Option Nat) :
    WellLinked (⟨capacity, [], ∅, status, onEvict⟩ : LinkedCache K V) where
  lookup_iff key it := by
    rw [AList.lookup_empty]
    exact iff_of_false nofun (by rintro ⟨m, hm, -⟩; nomatch hm)
  keys_nodup := List.nodup_nil
  addresses_nodup := List.nodup_nil
  length_le := Nat.zero_le _
  capacity_pos := hpos

end WellLinked

end LinkedCache

/-! ## A list in the order of last use -/

/-- A cache as the list of its entries, with its callback. -/
structure LruList (K V : Type) where
  cache : LruCache K V
  onEvict : Option Nat := none

namespace LruList

variable {K V : Type} [DecidableEq K]

def get (list : LruList K V) (key : K) : Option V × LruList K V :=
  let (value, cache) := list.cache.get key
  (value, { list with cache })

/-- The entry used least recently, where a new key finds the list full. -/
def evicted (list : LruList K V) (key : K) : Option (K × V) :=
  if list.cache.find key = none ∧ list.cache.items.length ≥ list.cache.capacity then
    list.cache.items.getLast? else none

def put (list : LruList K V) (key : K) (value : V) : List (Nat × K × V) × LruList K V :=
  (list.onEvict.toList.flatMap fun callback => (list.evicted key).toList.map fun entry =>
    (callback, entry), { list with cache := list.cache.put key value })

def remove (list : LruList K V) (key : K) : Option V × LruList K V :=
  (list.cache.find key, { list with cache := list.cache.remove key })

def clear (list : LruList K V) : LruList K V :=
  { list with cache := { list.cache with items := [] } }

end LruList

namespace LinkedCache

variable {K V : Type} [DecidableEq K]

/-- A linked cache keeps a list, with addresses below `next`. -/
structure Keeps (next : Nat) (cache : LinkedCache K V) (list : LruList K V) : Prop where
  linked : cache.WellLinked
  allocated : ∀ node ∈ cache.items, node.address < next
  capacity : list.cache.capacity = cache.capacity
  items : list.cache.items = cache.items.map Node.entry
  status : cache.status = list.cache.status.wrapped
  onEvict : list.onEvict = cache.onEvict

variable {next it : Nat} {cache : LinkedCache K V} {list : LruList K V} {key : K} {n : Node K V}

theorem Keeps.mono {next' : Nat} (h : Keeps next cache list) (hnext : next ≤ next') :
    Keeps next' cache list :=
  { h with allocated := fun node hnode => Nat.lt_of_lt_of_le (h.allocated node hnode) hnext }

namespace Keeps

/-- A key that the index does not find is not in the list. -/
theorem find_none (h : Keeps next cache list) (hlookup : cache.index.lookup key = none) :
    list.cache.find key = none := by
  rw [LruCache.find, h.items, Option.map_eq_none_iff, List.find?_eq_none]
  intro entry hentry
  obtain ⟨node, hnode, rfl⟩ := List.mem_map.mp hentry
  rw [decide_eq_true_eq]
  exact h.linked.lookup_none hlookup node hnode

/-- The entry of a node is found by its key. -/
theorem find_some (h : Keeps next cache list) (hn : n ∈ cache.items) :
    list.cache.find n.key = some n.value := by
  cases hfind : list.cache.items.find? (·.1 = n.key) with
  | none =>
    rw [h.items] at hfind
    exact absurd (decide_eq_true rfl) (List.find?_eq_none.mp hfind _ (List.mem_map_of_mem hn))
  | some entry =>
    have hkey : entry.1 = n.key := by simpa using List.find?_some hfind
    have hentry := List.mem_of_find?_eq_some hfind
    rw [h.items] at hentry
    obtain ⟨m, hm, rfl⟩ := List.mem_map.mp hentry
    rw [LruCache.find, hfind, h.linked.eq_of_key hm hn hkey]
    rfl

/-- The entries of the other keys are those of the other nodes. -/
theorem others_eq (h : Keeps next cache list) (hn : n ∈ cache.items) :
    list.cache.others n.key = (cache.others n.address).map Node.entry := by
  rw [LruCache.others, h.items, List.filter_map, others]
  refine congrArg _ (List.filter_congr fun m hm => ?_)
  refine decide_eq_decide.mpr (not_congr ⟨fun hkey => by rw [h.linked.eq_of_key hm hn hkey],
    fun haddress => congrArg Node.key (h.linked.eq_of_address hm hn haddress)⟩)

end Keeps

theorem touch_eq (h : cache.WellLinked) (hn : n ∈ cache.items) :
    cache.touch n.address = some { cache with items := n :: cache.others n.address } := by
  rw [touch, h.node_address hn]
  rfl

/-- **`get` is that of the list.** -/
theorem get_keeps (h : Keeps next cache list) (key : K) :
    ∃ cache', cache.get key = some ((list.get key).1, cache') ∧
      Keeps next cache' (list.get key).2 := by
  cases hlookup : cache.index.lookup key with
  | none =>
    have hfind := h.find_none hlookup
    refine ⟨{ cache with status :=
      { cache.status with misses := (cache.status.misses + 1) % 2 ^ 64 } }, ?_, ?_⟩
    · rw [get, hlookup, LruList.get, LruCache.get, hfind]
    · rw [LruList.get, LruCache.get, hfind]
      exact { h with
        linked := { h.linked with }
        status := by
          rw [h.status]
          simp [CacheStatus.wrapped] }
  | some it =>
    obtain ⟨n, hn, rfl, rfl⟩ := h.linked.lookup_some hlookup
    have hfind := h.find_some hn
    refine ⟨{ cache with
      items := n :: cache.others n.address
      status := { cache.status with hits := (cache.status.hits + 1) % 2 ^ 64 } }, ?_, ?_⟩
    · rw [get, hlookup, LruList.get, LruCache.get, hfind]
      dsimp only
      rw [touch_eq h.linked hn]
      show (do let node ← List.find? _ (n :: _); _) = _
      rw [List.find?_cons_of_pos (by simp)]
      rfl
    · rw [LruList.get, LruCache.get, hfind]
      exact {
        linked := h.linked.front hn n.value _
        allocated := List.forall_mem_cons.mpr
          ⟨h.allocated n hn, fun m hm => h.allocated m ((others_sublist cache _).subset hm)⟩
        capacity := h.capacity
        items := congrArg (List.cons n.entry) (h.others_eq hn)
        status := by
          show _ = CacheStatus.wrapped _
          rw [h.status]
          simp [CacheStatus.wrapped]
        onEvict := h.onEvict }

omit [DecidableEq K] in
/-- An assignment changes the value of its node, and no other node. -/
theorem assign_others (cache : LinkedCache K V) (it : Nat) (value : V) :
    (cache.assign it value).others it = cache.others it := by
  rw [others, others, assign, List.filter_map]
  have hkept : ∀ m ∈ cache.items.filter ((fun node => decide (node.address ≠ it)) ∘ fun node =>
      if node.address = it then { node with value } else node),
      (if m.address = it then { m with value } else m) = m := by
    intro m hm
    by_cases haddress : m.address = it
    · have hfalse := (List.mem_filter.mp hm).2
      simp [haddress] at hfalse
    · exact if_neg haddress
  rw [List.map_congr_left hkept, List.map_id']
  refine List.filter_congr fun m _ => ?_
  by_cases haddress : m.address = it <;> simp [haddress]

theorem assign_node (h : cache.WellLinked) (hn : n ∈ cache.items) (value : V) :
    (cache.assign n.address value).node n.address = some { n with value } := by
  have hpred : (fun node => decide (node.address = n.address)) ∘ (fun node : Node K V =>
      if node.address = n.address then { node with value } else node) =
        fun node => decide (node.address = n.address) := by
    funext m
    by_cases haddress : m.address = n.address <;> simp [haddress]
  have hnode : cache.items.find? (fun node => decide (node.address = n.address)) = some n :=
    h.node_address hn
  rw [node, assign, List.find?_map, hpred, hnode]
  exact congrArg some (if_pos rfl)

/-- What an eviction leaves, and its call. -/
theorem evictLru_eq (h : cache.WellLinked) (hlast : cache.items.getLast? = some n) :
    cache.evictLru = some (cache.onEvict.toList.map fun callback => (callback, n.entry),
      { cache with
        items := cache.others n.address
        index := cache.index.erase n.key
        status := { cache.status with evictions := (cache.status.evictions + 1) % 2 ^ 64 } }) := by
  rw [evictLru, hlast]
  show some _ = _
  rw [h.dropLast_eq_others hlast]

/-- A new entry in front of a list with room for it. -/
theorem Keeps.insert (h : Keeps next cache list) (hkey : ∀ node ∈ cache.items, node.key ≠ key)
    (hroom : cache.items.length < cache.capacity) (value : V) :
    Keeps (next + 1)
      { cache with items := ⟨next, key, value⟩ :: cache.items, index :=
        cache.index.insert key next }
      { list with cache := { list.cache with items := (key, value) :: list.cache.items } } where
  linked := h.linked.insert hkey (fun node hnode => Nat.ne_of_lt (h.allocated node hnode)) hroom value
  allocated := List.forall_mem_cons.mpr
    ⟨Nat.lt_succ_self next, fun node hnode => Nat.lt_succ_of_lt (h.allocated node hnode)⟩
  capacity := h.capacity
  items := congrArg (List.cons (key, value)) h.items
  status := h.status
  onEvict := h.onEvict

/-- The entry used least recently leaves. -/
theorem Keeps.evict (h : Keeps next cache list) (hlast : cache.items.getLast? = some n) :
    Keeps next
      { cache with
        items := cache.others n.address
        index := cache.index.erase n.key
        status := { cache.status with evictions := (cache.status.evictions + 1) % 2 ^ 64 } }
      { list with cache := list.cache.evictLru } where
  linked := h.linked.erase (List.mem_of_getLast? hlast) _
  allocated node hnode := h.allocated node ((others_sublist cache _).subset hnode)
  capacity := h.capacity
  items := by
    show list.cache.items.dropLast = _
    rw [h.items, ← List.map_dropLast, h.linked.dropLast_eq_others hlast]
  status := by
    show _ = CacheStatus.wrapped _
    rw [h.status]
    simp [CacheStatus.wrapped, LruCache.evictLru]
  onEvict := h.onEvict

/-- **`put` is that of the list, and calls the callback for the entry used least recently.** -/
theorem put_keeps (h : Keeps next cache list) (key : K) (value : V) :
    ∃ cache', cache.put next key value = some ((list.put key value).1, cache') ∧
      Keeps (next + 1) cache' (list.put key value).2 := by
  cases hlookup : cache.index.lookup key with
  | some it =>
    obtain ⟨n, hn, rfl, rfl⟩ := h.linked.lookup_some hlookup
    have hfind := h.find_some hn
    refine ⟨{ cache with items := { n with value } :: cache.others n.address }, ?_, ?_⟩
    · rw [put, hlookup]
      dsimp only
      rw [touch, assign_node h.linked hn, LruList.put, LruList.evicted, if_neg (by simp [hfind])]
      simp only [Option.pure_def, Option.bind_eq_bind, Option.bind_some, Option.map_some,
        assign_others]
      simp [assign]
    · rw [LruList.put, LruCache.put, hfind]
      exact {
        linked := h.linked.front hn value _
        allocated := List.forall_mem_cons.mpr ⟨Nat.lt_succ_of_lt (h.allocated n hn),
          fun m hm => Nat.lt_succ_of_lt (h.allocated m ((others_sublist cache _).subset hm))⟩
        capacity := h.capacity
        items := congrArg (List.cons (n.key, value)) (h.others_eq hn)
        status := h.status
        onEvict := h.onEvict }
  | none =>
    have hfind := h.find_none hlookup
    have hkey := h.linked.lookup_none hlookup
    by_cases hfull : cache.items.length ≥ cache.capacity
    · have hnonempty : cache.items ≠ [] :=
        List.ne_nil_of_length_pos (Nat.lt_of_lt_of_le h.linked.capacity_pos hfull)
      have hlast := List.getLast?_eq_some_getLast hnonempty
      have hn := List.mem_of_getLast? hlast
      have hevict := h.evict hlast
      have hothers : ∀ node ∈ cache.others (cache.items.getLast hnonempty).address,
        node.key ≠ key :=
        fun node hnode => hkey node ((others_sublist cache _).subset hnode)
      have hfull' : list.cache.items.length ≥ list.cache.capacity := by
        rw [h.items, h.capacity, List.length_map]
        exact hfull
      have hroom := Nat.lt_of_lt_of_le (length_others_lt hn) h.linked.length_le
      have hlist : (list.put key value).2 =
          { list with cache :=
            { list.cache.evictLru with items := (key, value) :: list.cache.evictLru.items } } := by
        rw [LruList.put, LruCache.put, hfind]
        dsimp only
        rw [if_pos hfull']
      rw [hlist]
      refine ⟨_, ?_, hevict.insert hothers hroom value⟩
      rw [put, hlookup]
      dsimp only
      rw [if_pos hfull, evictLru_eq h.linked hlast, LruList.put, LruList.evicted,
        if_pos ⟨hfind, hfull'⟩, h.items, List.getLast?_map, hlast, h.onEvict]
      cases cache.onEvict <;> rfl
    · have hfull' : ¬ list.cache.items.length ≥ list.cache.capacity := by
        rw [h.items, h.capacity, List.length_map]
        exact hfull
      have hlist : (list.put key value).2 =
          { list with cache := { list.cache with items := (key, value) :: list.cache.items } } := by
        rw [LruList.put, LruCache.put, hfind]
        dsimp only
        rw [if_neg hfull']
      rw [hlist]
      refine ⟨_, ?_, h.insert hkey (Nat.lt_of_not_le hfull) value⟩
      rw [put, hlookup]
      dsimp only
      rw [if_neg hfull, LruList.put, LruList.evicted, if_neg (fun hboth => hfull' hboth.2)]
      cases list.onEvict <;> rfl

/-- **`remove` is that of the list.** -/
theorem remove_keeps (h : Keeps next cache list) (key : K) :
    ∃ cache', cache.remove key = some ((list.remove key).1, cache') ∧
      Keeps next cache' (list.remove key).2 := by
  cases hlookup : cache.index.lookup key with
  | none =>
    have hfind := h.find_none hlookup
    refine ⟨cache, ?_, ?_⟩
    · rw [remove, hlookup, LruList.remove, hfind]
    · have hothers : list.cache.others key = list.cache.items := by
        refine List.filter_eq_self.mpr fun entry hentry => ?_
        rw [LruCache.find, Option.map_eq_none_iff, List.find?_eq_none] at hfind
        simpa using hfind entry hentry
      rw [LruList.remove, LruCache.remove, hothers]
      exact h
  | some it =>
    obtain ⟨n, hn, rfl, rfl⟩ := h.linked.lookup_some hlookup
    refine ⟨{ cache with items := cache.others n.address, index := cache.index.erase n.key }, ?_, ?_⟩
    · rw [remove, hlookup]
      dsimp only
      rw [h.linked.node_address hn, LruList.remove, h.find_some hn]
      rfl
    · exact {
        linked := h.linked.erase hn _
        allocated := fun node hnode => h.allocated node ((others_sublist cache _).subset hnode)
        capacity := h.capacity
        items := h.others_eq hn
        status := h.status
        onEvict := h.onEvict }

/-- A cache that is new has no entry. -/
theorem keeps_new {capacity : Nat} (hpos : 0 < capacity) (next : Nat) (onEvict : Option Nat) :
    Keeps next (⟨capacity, [], ∅, {}, onEvict⟩ : LinkedCache K V) ⟨⟨capacity, [], {}⟩,
      onEvict⟩ where
  linked := .empty hpos _ _
  allocated := nofun
  capacity := rfl
  items := rfl
  status := rfl
  onEvict := rfl

/-- What is left without the entries, with any callback. -/
theorem Keeps.emptied (h : Keeps next cache list) (onEvict : Option Nat) :
    Keeps next ({ cache with items := [], index := ∅, onEvict } : LinkedCache K V)
      { cache := { list.cache with items := [] }, onEvict } where
  linked := .empty h.linked.capacity_pos _ _
  allocated := nofun
  capacity := h.capacity
  items := rfl
  status := h.status
  onEvict := rfl

theorem clear_keeps (h : Keeps next cache list) : Keeps next cache.clear list.clear := by
  have hemptied := h.emptied cache.onEvict
  rw [← h.onEvict] at hemptied
  rw [clear, LruList.clear, ← h.onEvict]
  exact hemptied

end LinkedCache

end Libca.Collection
