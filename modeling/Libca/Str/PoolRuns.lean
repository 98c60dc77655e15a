import Libca.Str.Pool

/-!
# Reference counts in runs of pools (`str/utf8_string_pool.cpp`)

* `Pools.Sound`: an entry counts its handles, a pool knows its entries, and what was freed is gone
  for good.
* `step_sound`: an operation keeps all of it; the handles change together with the count of the
  entry that they point to (`Sound.acquire`, `Sound.releaseEntry`), and the pools together with the
  owner of their entries (`Sound.disownAll`, `Sound.takePool`).
* `pool_reference_counting`: what the pool promises, in every state of every run.
-/

namespace Libca.Str

open Common Function

/-- What an index needs to know of an entry. -/
def PoolEntry.key (e : PoolEntry) : Bytes × UInt64 × Option Nat := (e.data, e.hash, e.owner)

namespace Pools

/-- How many live handles point to an entry. -/
def count (s : Pools) (id : Nat) : Nat := s.handles.count (some (some id))

/-- The bytes of an entry. -/
def byteLength (s : Pools) (id : Nat) : Nat := ((s.entry id).map fun e => e.data.length).getD 0

/-- An entry counts the handles that point to it; nothing points to one that is gone. -/
structure Counted (s : Pools) : Prop where
  refCount : ∀ id e, s.entry id = some e → e.refCount = s.count id ∧ 1 ≤ e.refCount
  gone : ∀ id, s.entry id = none → s.count id = 0

/-- The entries that were made and are gone were freed once each. -/
structure FreedOnce (s : Pools) : Prop where
  nodup : s.freed.Nodup
  mem : ∀ id, id ∈ s.freed ↔ id < s.next ∧ s.entry id = none
  next : ∀ id e, s.entry id = some e → id < s.next

/-- A pool knows its entries. -/
structure PoolSound (s : Pools) (p : Nat) (pool : Utf8StringPool) : Prop where
  member : ∀ id ∈ pool.hashIndex.values, ∃ e, s.entry id = some e ∧ e.owner = some p ∧
    id ∈ pool.hashIndex.bucket e.hash
  nodup : pool.hashIndex.values.Nodup
  distinct : ∀ id ∈ pool.hashIndex.values, ∀ id' ∈ pool.hashIndex.values, ∀ e e',
    s.entry id = some e → s.entry id' = some e' → e.data = e'.data → id = id'
  size : pool.activeCount = pool.hashIndex.values.length
  total : pool.totalBytes = (pool.hashIndex.values.map s.byteLength).sum

/-- An entry with an owner is in its index. -/
structure Indexed (s : Pools) : Prop where
  hash : ∀ id e, s.entry id = some e → e.hash = computeHash e.data
  owned : ∀ id e p, s.entry id = some e → e.owner = some p →
    ∃ pool, s.pool p = some pool ∧ id ∈ pool.hashIndex.values
  pool : ∀ p pool, s.pool p = some pool → PoolSound s p pool

/-- The invariant. -/
structure Sound (s : Pools) : Prop extends Counted s, FreedOnce s, Indexed s where
  fault : s.fault = false

variable {s s' : Pools} {p q source id : Nat} {pool : Utf8StringPool} {e : PoolEntry}

/-! ## What the parts depend on -/

theorem exists_entry_of_key {f g : Option PoolEntry} (h : f.map PoolEntry.key = g.map PoolEntry.key)
    {e : PoolEntry} (he : f = some e) :
    ∃ e', g = some e' ∧ e'.data = e.data ∧ e'.hash = e.hash ∧ e'.owner = e.owner := by
  subst he
  cases g with
  | none => cases h
  | some e' =>
    obtain ⟨hdata, hhash, howner⟩ : e.data = e'.data ∧ e.hash = e'.hash ∧ e.owner = e'.owner := by
      simpa [PoolEntry.key] using h
    exact ⟨e', rfl, hdata.symm, hhash.symm, howner.symm⟩

theorem byteLength_of_key (h : (s'.entry id).map PoolEntry.key = (s.entry id).map PoolEntry.key) :
    s'.byteLength id = s.byteLength id := by
  have hlength : ∀ f : Option PoolEntry, (f.map fun e => e.data.length).getD 0 =
      ((f.map PoolEntry.key).map fun key => key.1.length).getD 0 := by
    intro f
    cases f <;> rfl
  unfold byteLength
  rw [hlength, hlength, h]

/-- A pool depends on its own entries only. -/
theorem PoolSound.congr (h : PoolSound s p pool)
    (hkey : ∀ id ∈ pool.hashIndex.values,
      (s'.entry id).map PoolEntry.key = (s.entry id).map PoolEntry.key) : PoolSound s' p pool := by
  refine ⟨fun id hid => ?_, h.nodup, fun id hid id' hid' e e' he he' hdata => ?_, h.size, ?_⟩
  · obtain ⟨e, he, howner, hbucket⟩ := h.member id hid
    obtain ⟨e', he', -, hhash', howner'⟩ := exists_entry_of_key (hkey id hid).symm he
    exact ⟨e', he', howner'.trans howner, hhash' ▸ hbucket⟩
  · obtain ⟨f, hf, hfdata, -⟩ := exists_entry_of_key (hkey id hid) he
    obtain ⟨f', hf', hfdata', -⟩ := exists_entry_of_key (hkey id' hid') he'
    exact h.distinct id hid id' hid' f f' hf hf' (hfdata.trans (hdata.trans hfdata'.symm))
  · rw [h.total]
    exact congrArg List.sum (List.map_congr_left fun id hid =>
      (byteLength_of_key (hkey id hid)).symm)

theorem Indexed.congr (h : Indexed s)
    (hkey : ∀ id, (s'.entry id).map PoolEntry.key = (s.entry id).map PoolEntry.key)
    (hpool : s'.pool = s.pool) : Indexed s' := by
  refine ⟨fun id e he => ?_, fun id e p he howner => ?_, fun p pool hp => ?_⟩
  · obtain ⟨f, hf, hdata, hhash, -⟩ := exists_entry_of_key (hkey id) he
    rw [← hhash, ← hdata]
    exact h.hash id f hf
  · obtain ⟨f, hf, -, -, hfowner⟩ := exists_entry_of_key (hkey id) he
    rw [hpool]
    exact h.owned id f p hf (hfowner.trans howner)
  · exact (h.pool p pool (hpool ▸ hp)).congr fun id _ => hkey id

theorem FreedOnce.congr (h : FreedOnce s) (hnone : ∀ id, s'.entry id = none ↔ s.entry id = none)
    (hfreed : s'.freed = s.freed) (hnext : s'.next = s.next) : FreedOnce s' := by
  refine ⟨hfreed ▸ h.nodup, fun id => ?_, fun id e he => ?_⟩
  · rw [hfreed, hnext, h.mem, hnone]
  · cases hs : s.entry id with
    | none =>
      rw [(hnone id).mpr hs] at he
      cases he
    | some f =>
      rw [hnext]
      exact h.next id f hs

/-- The handles matter by how many point to each entry. -/
theorem Sound.handles (h : s.Sound) {handles : List (Option (Option Nat))}
    (hcount : ∀ id, handles.count (some (some id)) = s.count id) :
    Sound { s with handles := handles } where
  refCount id e he := by
    obtain ⟨hcounted, hpos⟩ := h.refCount id e he
    exact ⟨hcounted.trans (hcount id).symm, hpos⟩
  gone id he := (hcount id).trans (h.gone id he)
  toFreedOnce := h.toFreedOnce.congr (fun _ => Iff.rfl) rfl rfl
  toIndexed := h.toIndexed.congr (fun _ => rfl) rfl
  fault := h.fault

/-! ## Counting up and down -/

/-- The count of one entry and nothing else changes. -/
theorem key_setEntry (he : s.entry id = some e) (n : Nat) (id' : Nat) :
    ((s.setEntry id { e with refCount := n }).entry id').map PoolEntry.key =
      (s.entry id').map PoolEntry.key := by
  unfold setEntry
  dsimp only
  by_cases hid : id' = id
  · subst hid
    rw [update_self, he]
    rfl
  · rw [update_of_ne hid]

theorem setEntry_eq_none_iff (he : s.entry id = some e) (e' : PoolEntry) (id' : Nat) :
    (s.setEntry id e').entry id' = none ↔ s.entry id' = none := by
  unfold setEntry
  dsimp only
  by_cases hid : id' = id
  · subst hid
    rw [update_self, he]
    simp
  · rw [update_of_ne hid]

/-- **The count of an entry changes with its handles.** -/
theorem Sound.setCount (h : s.Sound) (he : s.entry id = some e) {n : Nat} (hpos : 1 ≤ n)
    {handles : List (Option (Option Nat))} (hself : handles.count (some (some id)) = n)
    (hother : ∀ id', id' ≠ id → handles.count (some (some id')) = s.count id') :
    Sound { s.setEntry id { e with refCount := n } with handles := handles } where
  refCount id' e' he' := by
    change update s.entry id _ id' = some e' at he'
    by_cases hid : id' = id
    · subst hid
      rw [update_self] at he'
      cases he'
      exact ⟨hself.symm, hpos⟩
    · rw [update_of_ne hid] at he'
      obtain ⟨hcounted, hpos'⟩ := h.refCount id' e' he'
      exact ⟨hcounted.trans (hother id' hid).symm, hpos'⟩
  gone id' he' := by
    have hs := (setEntry_eq_none_iff he _ id').mp he'
    have hid : id' ≠ id := by
      rintro rfl
      rw [he] at hs
      cases hs
    exact (hother id' hid).trans (h.gone id' hs)
  toFreedOnce := h.toFreedOnce.congr (setEntry_eq_none_iff he _) rfl rfl
  toIndexed := h.toIndexed.congr (key_setEntry he n) rfl
  fault := h.fault

/-! ## Freeing an entry -/

/-- An entry that is gone: the counts and the list of what was freed. -/
theorem Counted.delete (h : Counted s) {handles : List (Option (Option Nat))}
    (hself : handles.count (some (some id)) = 0)
    (hother : ∀ id', id' ≠ id → handles.count (some (some id')) = s.count id') :
    Counted { s.deleteEntry id with handles := handles } where
  refCount id' e' he' := by
    change update s.entry id none id' = some e' at he'
    by_cases hid : id' = id
    · subst hid
      rw [update_self] at he'
      cases he'
    · rw [update_of_ne hid] at he'
      obtain ⟨hcounted, hpos⟩ := h.refCount id' e' he'
      exact ⟨hcounted.trans (hother id' hid).symm, hpos⟩
  gone id' he' := by
    change update s.entry id none id' = none at he'
    by_cases hid : id' = id
    · subst hid
      exact hself
    · rw [update_of_ne hid] at he'
      exact (hother id' hid).trans (h.gone id' he')

theorem FreedOnce.delete (h : FreedOnce s) (he : s.entry id = some e) :
    FreedOnce (s.deleteEntry id) where
  nodup := by
    refine List.nodup_cons.mpr ⟨fun hmem => ?_, h.nodup⟩
    rw [((h.mem id).mp hmem).2] at he
    cases he
  mem id' := by
    change id' ∈ id :: s.freed ↔ id' < s.next ∧ update s.entry id none id' = none
    rw [List.mem_cons, h.mem]
    by_cases hid : id' = id
    · subst hid
      rw [update_self]
      exact ⟨fun _ => ⟨h.next id' e he, rfl⟩, fun _ => .inl rfl⟩
    · rw [update_of_ne hid]
      exact ⟨fun h => h.resolve_left hid, .inr⟩
  next id' e' he' := by
    change update s.entry id none id' = some e' at he'
    by_cases hid : id' = id
    · subst hid
      rw [update_self] at he'
      cases he'
    · rw [update_of_ne hid] at he'
      exact h.next id' e' he'

/-- The entries of a pool belong to it. -/
theorem Indexed.owner (h : Indexed s) (hp : s.pool p = some pool) (hid : id ∈ pool.hashIndex.values)
    (he : s.entry id = some e) : e.owner = some p := by
  obtain ⟨e', he', howner, -⟩ := (h.pool p pool hp).member id hid
  obtain rfl := Option.some.inj (he.symm.trans he')
  exact howner

/-- **The index after an entry of the pool is erased.** -/
theorem PoolSound.erase (h : PoolSound s p pool) (hid : id ∈ pool.hashIndex.values)
    (he : s.entry id = some e) {s' : Pools} (hs' : s'.entry = update s.entry id none) :
    PoolSound s' p
      { hashIndex := pool.hashIndex.remove e.hash id
        activeCount := if pool.activeCount = 0 then pool.activeCount else pool.activeCount - 1
        totalBytes :=
          if e.data.length ≤ pool.totalBytes then pool.totalBytes - e.data.length
          else pool.totalBytes } := by
  obtain ⟨e', he', -, hbucket⟩ := h.member id hid
  obtain rfl := Option.some.inj (he.symm.trans he')
  have hperm := HashIndex.values_remove hbucket
  obtain ⟨hnotin, hnodup⟩ := List.nodup_cons.mp (hperm.nodup_iff.mp h.nodup)
  have hsame : ∀ id' ∈ (pool.hashIndex.remove e.hash id).values, s'.entry id' = s.entry id' := by
    intro id' hid'
    have hne : id' ≠ id := fun heq => hnotin (heq ▸ hid')
    rw [hs', update_of_ne hne]
  have hold : ∀ id' ∈ (pool.hashIndex.remove e.hash id).values, id' ∈ pool.hashIndex.values :=
    fun id' hid' => hperm.mem_iff.mpr (.tail _ hid')
  have hlength := hperm.length_eq
  have hsum := (hperm.map s.byteLength).sum_eq
  have hbytes : s.byteLength id = e.data.length := by
    unfold byteLength
    rw [he]
    rfl
  rw [List.length_cons] at hlength
  rw [List.map_cons, List.sum_cons, hbytes] at hsum
  refine ⟨fun id' hid' => ?_, hnodup, fun i hi j hj f g hf hg => ?_, ?_, ?_⟩
  · obtain ⟨f, hf, howner, hbucket'⟩ := h.member id' (hold id' hid')
    refine ⟨f, (hsame id' hid').trans hf, howner, ?_⟩
    by_cases hhash : f.hash = e.hash
    · have hne : id' ≠ id := fun heq => hnotin (heq ▸ hid')
      rw [hhash] at hbucket' ⊢
      dsimp only
      rw [HashIndex.bucket_remove_self _ hbucket]
      exact (List.mem_cons.mp
        ((HashIndex.swapRemove_perm hbucket).mem_iff.mp hbucket')).resolve_left
        hne
    · dsimp only
      rw [HashIndex.bucket_remove_of_ne _ hhash]
      exact hbucket'
  · rw [hsame i hi] at hf
    rw [hsame j hj] at hg
    exact h.distinct i (hold i hi) j (hold j hj) f g hf hg
  · have hsize := h.size
    dsimp only
    split_ifs <;> omega
  · have htotal := h.total
    have hkept : ((pool.hashIndex.remove e.hash id).values.map s'.byteLength).sum =
        ((pool.hashIndex.remove e.hash id).values.map s.byteLength).sum :=
      congrArg List.sum (List.map_congr_left fun id' hid' =>
        byteLength_of_key (congrArg (Option.map PoolEntry.key) (hsame id' hid')))
    dsimp only
    rw [hkept]
    split_ifs <;> omega

/-- The indexes after an entry is gone from all of them. -/
theorem Indexed.delete (h : Indexed s) (hentry : s'.entry = update s.entry id none)
    (hpool : ∀ q pool, s'.pool q = some pool →
      s.pool q = some pool ∧ id ∉ pool.hashIndex.values ∨ PoolSound s' q pool)
    (hkept : ∀ id' q pool, id' ≠ id → s.pool q = some pool → id' ∈ pool.hashIndex.values →
      ∃ pool', s'.pool q = some pool' ∧ id' ∈ pool'.hashIndex.values) : Indexed s' := by
  have hold : ∀ id' e', s'.entry id' = some e' → id' ≠ id ∧ s.entry id' = some e' := by
    intro id' e' he'
    rw [hentry] at he'
    by_cases hid : id' = id
    · subst hid
      rw [update_self] at he'
      cases he'
    · rw [update_of_ne hid] at he'
      exact ⟨hid, he'⟩
  refine ⟨fun id' e' he' => h.hash id' e' (hold id' e' he').2, fun id' e' q he' howner => ?_,
    fun q pool hq => ?_⟩
  · obtain ⟨hid, hs⟩ := hold id' e' he'
    obtain ⟨pool, hq, hmem⟩ := h.owned id' e' q hs howner
    exact hkept id' q pool hid hq hmem
  · obtain ⟨hs, hnot⟩ | hsound := hpool q pool hq
    · refine (h.pool q pool hs).congr fun id' hid' => ?_
      have hid : id' ≠ id := fun heq => hnot (heq ▸ hid')
      rw [hentry, update_of_ne hid]
    · exact hsound

/-- **Releasing an entry** together with a handle that pointed to it. -/
theorem Sound.releaseEntry (h : s.Sound) (hpos : 1 ≤ s.count id)
    {handles : List (Option (Option Nat))}
    (hself : handles.count (some (some id)) = s.count id - 1)
    (hother : ∀ id', id' ≠ id → handles.count (some (some id')) = s.count id') :
    Sound { s.releaseEntry id with handles := handles } := by
  unfold Pools.releaseEntry
  cases he : s.entry id with
  | none =>
    have hgone := h.gone id he
    omega
  | some e =>
    obtain ⟨hcounted, -⟩ := h.refCount id e he
    dsimp only
    split_ifs with hzero
    · have hlast : handles.count (some (some id)) = 0 := by omega
      have hcount := h.toCounted.delete hlast hother
      have hfreed := h.toFreedOnce.delete he
      cases howner : e.owner with
      | none =>
        refine ⟨hcount, hfreed.congr (fun _ => Iff.rfl) rfl rfl, h.toIndexed.delete rfl
          (fun q pool hq => .inl ⟨hq, fun hid => ?_⟩) (fun _ _ _ _ hq hid => ⟨_, hq, hid⟩), h.fault⟩
        rw [h.toIndexed.owner hq hid he] at howner
        cases howner
      | some p =>
        obtain ⟨pool, hp, hmem⟩ := h.owned id e p he howner
        obtain ⟨e', he', -, hbucket⟩ := (h.pool p pool hp).member id hmem
        obtain rfl := Option.some.inj (he.symm.trans he')
        have hperm := HashIndex.values_remove hbucket
        dsimp only [eraseEntry]
        rw [hp]
        dsimp only
        refine ⟨⟨hcount.refCount, hcount.gone⟩, hfreed.congr (fun _ => Iff.rfl) rfl rfl,
          h.toIndexed.delete rfl
          (fun q pool' hq => ?_) (fun id' q pool' hid hq hid' => ?_), h.fault⟩
        · change update s.pool p _ q = some pool' at hq
          by_cases hqp : q = p
          · subst hqp
            rw [update_self] at hq
            cases hq
            exact .inr ((h.pool q pool hp).erase hmem he rfl)
          · rw [update_of_ne hqp] at hq
            refine .inl ⟨hq, fun hid => hqp ?_⟩
            exact Option.some.inj ((h.toIndexed.owner hq hid he).symm.trans howner)
        · change ∃ pool', update s.pool p _ q = some pool' ∧ _
          by_cases hqp : q = p
          · subst hqp
            obtain rfl := Option.some.inj (hp.symm.trans hq)
            rw [update_self]
            exact ⟨_, rfl, (List.mem_cons.mp (hperm.mem_iff.mp hid')).resolve_left hid⟩
          · rw [update_of_ne hqp]
            exact ⟨pool', hq, hid'⟩
    · exact h.setCount he (by omega) (by omega) hother

/-! ## Pools that give up or take entries -/

variable {ids : List Nat} {owner : Option Nat}

theorem entry_setOwner_of_mem (hid : id ∈ ids) :
    (s.setOwner ids owner).entry id = (s.entry id).map fun e => { e with owner := owner } :=
  if_pos hid

theorem entry_setOwner_of_notMem (hid : id ∉ ids) :
    (s.setOwner ids owner).entry id = s.entry id :=
  if_neg hid

theorem entry_setOwner {e' : PoolEntry} (he' : (s.setOwner ids owner).entry id = some e') :
    ∃ e, s.entry id = some e ∧ e'.data = e.data ∧ e'.hash = e.hash ∧ e'.refCount = e.refCount ∧
      e'.owner = if id ∈ ids then owner else e.owner := by
  by_cases hid : id ∈ ids
  · rw [entry_setOwner_of_mem hid] at he'
    obtain ⟨e, he, rfl⟩ := Option.map_eq_some_iff.mp he'
    exact ⟨e, he, rfl, rfl, rfl, by rw [if_pos hid]⟩
  · rw [entry_setOwner_of_notMem hid] at he'
    exact ⟨e', he', rfl, rfl, rfl, by rw [if_neg hid]⟩

theorem entry_setOwner_eq_none_iff (ids : List Nat) (owner : Option Nat) :
    (s.setOwner ids owner).entry id = none ↔ s.entry id = none := by
  by_cases hid : id ∈ ids
  · rw [entry_setOwner_of_mem hid, Option.map_eq_none_iff]
  · rw [entry_setOwner_of_notMem hid]

/-- **Entries change their owner together with the pools.** -/
theorem Sound.setOwner (h : s.Sound) (hlive : ∀ id ∈ ids, ∃ e, s.entry id = some e)
    {pools : Nat → Option Utf8StringPool}
    (howned : ∀ id e q, (s.setOwner ids owner).entry id = some e → e.owner = some q →
      ∃ pool, pools q = some pool ∧ id ∈ pool.hashIndex.values)
    (hpool : ∀ q pool, pools q = some pool → PoolSound (s.setOwner ids owner) q pool) :
    Sound { s.setOwner ids owner with pool := pools } where
  refCount id e he := by
    obtain ⟨e', he', -, -, hcount, -⟩ := entry_setOwner he
    rw [hcount]
    exact h.refCount id e' he'
  gone id he := h.gone id ((entry_setOwner_eq_none_iff ids owner).mp he)
  toFreedOnce := h.toFreedOnce.congr (fun _ => entry_setOwner_eq_none_iff ids owner) rfl rfl
  hash id e he := by
    obtain ⟨e', he', hdata, hhash, -⟩ := entry_setOwner he
    rw [hhash, hdata]
    exact h.hash id e' he'
  owned := howned
  pool q pool hq := (hpool q pool hq).congr fun _ _ => rfl
  fault := by
    change (s.fault || ids.any fun id => (s.entry id).isNone) = false
    rw [h.fault, Bool.false_or, List.any_eq_false]
    intro id hid
    obtain ⟨e, he⟩ := hlive id hid
    rw [he]
    exact Bool.false_ne_true

/-- A pool whose entries do not change their owner. -/
theorem PoolSound.setOwner (h : PoolSound s p pool)
    (hids : ∀ id ∈ pool.hashIndex.values, id ∉ ids) : PoolSound (s.setOwner ids owner) p pool :=
  h.congr fun id hid => by rw [entry_setOwner_of_notMem (hids id hid)]

theorem poolSound_empty (s : Pools) (p : Nat) : PoolSound s p {} where
  member _ hid := absurd hid List.not_mem_nil
  nodup := List.nodup_nil
  distinct _ hid := absurd hid List.not_mem_nil
  size := rfl
  total := rfl

theorem Indexed.live (h : Indexed s) (hp : s.pool p = some pool) :
    ∀ id ∈ pool.hashIndex.values, ∃ e, s.entry id = some e := fun id hid => by
  obtain ⟨e, he, -⟩ := (h.pool p pool hp).member id hid
  exact ⟨e, he⟩

/-- An entry is in the index of one pool. -/
theorem Indexed.pool_unique (h : Indexed s) {pool' : Utf8StringPool} (hp : s.pool p = some pool)
    (hq : s.pool q = some pool') (hid : id ∈ pool.hashIndex.values)
    (hid' : id ∈ pool'.hashIndex.values) : p = q := by
  obtain ⟨e, he⟩ := h.live hp id hid
  exact Option.some.inj ((h.owner hp hid he).symm.trans (h.owner hq hid' he))

/-- `disown_all` keeps the invariant. -/
theorem Sound.disownAll (h : s.Sound) (hp : s.pool p = some pool) : (s.disownAll p pool).Sound := by
  refine h.setOwner (h.toIndexed.live hp) (fun id e q he howner => ?_) fun q pool' hq => ?_
  · obtain ⟨e', he', -, -, -, howner'⟩ := entry_setOwner he
    rw [howner'] at howner
    split_ifs at howner with hid
    obtain ⟨pool', hq, hmem⟩ := h.owned id e' q he' howner
    have hqp : q ≠ p := by
      rintro rfl
      obtain rfl := Option.some.inj (hp.symm.trans hq)
      exact hid hmem
    exact ⟨pool', (update_of_ne hqp _ _).trans hq, hmem⟩
  · by_cases hqp : q = p
    · subst hqp
      obtain rfl := Option.some.inj ((update_self q _ s.pool).symm.trans hq)
      exact poolSound_empty _ _
    · have hq' := (update_of_ne hqp _ s.pool).symm.trans hq
      exact (h.pool q pool' hq').setOwner fun id hid hid' =>
        hqp (h.toIndexed.pool_unique hq' hp hid hid')

/-- A move from one pool to another that has no entries keeps the invariant. -/
theorem Sound.takePool (h : s.Sound) (hne : p ≠ source) (hsource : s.pool source = some pool)
    (hp : s.pool p = none ∨ s.pool p = some {}) : (s.takePool p source pool).Sound := by
  have hpools : ∀ q pool', update (update s.pool source (some {})) p (some pool) q =
      some pool' → q = p ∧ pool' = pool ∨ q = source ∧ pool' = {} ∨
        q ≠ p ∧ q ≠ source ∧ s.pool q = some pool' := by
    intro q pool' hq
    by_cases hqp : q = p
    · subst hqp
      rw [update_self] at hq
      exact .inl ⟨rfl, (Option.some.inj hq).symm⟩
    · rw [update_of_ne hqp] at hq
      by_cases hqs : q = source
      · subst hqs
        rw [update_self] at hq
        exact .inr (.inl ⟨rfl, (Option.some.inj hq).symm⟩)
      · rw [update_of_ne hqs] at hq
        exact .inr (.inr ⟨hqp, hqs, hq⟩)
  refine h.setOwner (h.toIndexed.live hsource) (fun id e q he howner => ?_) fun q pool' hq => ?_
  · obtain ⟨e', he', -, -, -, howner'⟩ := entry_setOwner he
    rw [howner'] at howner
    split_ifs at howner with hid
    · obtain rfl := Option.some.inj howner
      exact ⟨pool, update_self _ _ _, hid⟩
    · obtain ⟨pool', hq, hmem⟩ := h.owned id e' q he' howner
      have hqs : q ≠ source := by
        rintro rfl
        obtain rfl := Option.some.inj (hsource.symm.trans hq)
        exact hid hmem
      have hqp : q ≠ p := by
        rintro rfl
        obtain hnone | hempty := hp
        · cases hnone.symm.trans hq
        · obtain rfl := Option.some.inj (hempty.symm.trans hq)
          cases hmem
      exact ⟨pool', (update_of_ne hqp _ _).trans ((update_of_ne hqs _ _).trans hq),
        hmem⟩
  · obtain ⟨rfl, rfl⟩ | ⟨rfl, rfl⟩ | ⟨hqp, hqs, hq⟩ := hpools q pool' hq
    · have hsound := h.pool source pool' hsource
      refine ⟨fun id hid => ?_, hsound.nodup, fun id hid id' hid' e e' he he' hdata => ?_,
        hsound.size, ?_⟩
      · obtain ⟨e, he, -, hbucket⟩ := hsound.member id hid
        exact ⟨{ e with owner := some q }, by rw [entry_setOwner_of_mem hid, he]; rfl, rfl, hbucket⟩
      · obtain ⟨f, hf, hfdata, -⟩ := entry_setOwner he
        obtain ⟨f', hf', hfdata', -⟩ := entry_setOwner he'
        exact hsound.distinct id hid id' hid' f f' hf hf' (hfdata.symm.trans (hdata.trans hfdata'))
      · rw [hsound.total]
        refine congrArg List.sum (List.map_congr_left fun id hid => ?_)
        unfold byteLength
        rw [entry_setOwner_of_mem hid, Option.map_map]
        rfl
    · exact poolSound_empty _ _
    · exact (h.pool q pool' hq).setOwner fun id hid hid' =>
        hqs (h.toIndexed.pool_unique hq hsource hid hid')

/-- A pool without entries can come and go. -/
theorem Sound.setPool (h : s.Sound) (hp : s.pool p = none ∨ s.pool p = some {})
    {new : Option Utf8StringPool} (hnew : new = none ∨ new = some {}) :
    (s.setPool p new).Sound where
  toCounted := ⟨h.refCount, h.gone⟩
  toFreedOnce := h.toFreedOnce.congr (fun _ => Iff.rfl) rfl rfl
  hash := h.hash
  owned id e q he howner := by
    obtain ⟨pool, hq, hmem⟩ := h.owned id e q he howner
    have hqp : q ≠ p := by
      rintro rfl
      obtain hnone | hempty := hp
      · cases hnone.symm.trans hq
      · obtain rfl := Option.some.inj (hempty.symm.trans hq)
        cases hmem
    exact ⟨pool, (update_of_ne hqp _ _).trans hq, hmem⟩
  pool q pool hq := by
    by_cases hqp : q = p
    · subst hqp
      change update s.pool q new q = some pool at hq
      rw [update_self] at hq
      obtain rfl | rfl := hnew
      · cases hq
      · obtain rfl := Option.some.inj hq
        exact poolSound_empty _ _
    · exact (h.pool q pool ((update_of_ne hqp _ _).symm.trans hq)).congr fun _ _ => rfl
  fault := h.fault

/-! ## Finding and adding entries -/

/-- The search reads live entries only, and finds one with the given bytes if there is one. -/
theorem findIn_spec (data : Bytes) {bucket : List Nat}
    (hlive : ∀ id ∈ bucket, ∃ e, s.entry id = some e) :
    (∃ id ∈ bucket, ∃ e, s.entry id = some e ∧ s.findIn data bucket = some (some id)) ∨
      s.findIn data bucket = some none ∧ ∀ id ∈ bucket, ∀ e, s.entry id = some e →
        e.data ≠ data := by
  induction bucket with
  | nil => exact .inr ⟨rfl, List.forall_mem_nil _⟩
  | cons id bucket ih =>
    obtain ⟨e, he⟩ := hlive id List.mem_cons_self
    unfold findIn
    rw [he]
    dsimp only
    split_ifs with hsame
    · exact .inl ⟨id, List.mem_cons_self, e, he, rfl⟩
    · obtain ⟨id', hid', e', he', hfind⟩ | ⟨hfind, hnot⟩ :=
        ih fun id' hid' => hlive id' (.tail _ hid')
      · exact .inl ⟨id', .tail _ hid', e', he', hfind⟩
      · refine .inr ⟨hfind, fun id' hid' e' he' hdata => ?_⟩
        obtain rfl | hid' := List.mem_cons.mp hid'
        · obtain rfl := Option.some.inj (he.symm.trans he')
          exact hsame ⟨by rw [hdata], hdata⟩
        · exact hnot id' hid' e' he' hdata

/-- What a search in a pool finds. -/
theorem Indexed.findIn (h : Indexed s) (hp : s.pool p = some pool) (data : Bytes) :
    (∃ id e, s.entry id = some e ∧
        s.findIn data (pool.hashIndex.bucket (computeHash data)) = some (some id)) ∨
      s.findIn data (pool.hashIndex.bucket (computeHash data)) = some none ∧
        ∀ id ∈ pool.hashIndex.values, ∀ e, s.entry id = some e → e.data ≠ data := by
  have hsound := h.pool p pool hp
  obtain ⟨id, -, e, he, hfind⟩ | ⟨hfind, hnot⟩ := findIn_spec data fun id hid =>
    h.live hp id (HashIndex.mem_values_of_mem_bucket hid)
  · exact .inl ⟨id, e, he, hfind⟩
  · refine .inr ⟨hfind, fun id hid e he hdata => ?_⟩
    obtain ⟨e', he', -, hbucket⟩ := hsound.member id hid
    obtain rfl := Option.some.inj (he.symm.trans he')
    rw [h.hash id e he, hdata] at hbucket
    exact hnot id hbucket e he hdata

theorem count_append (handles : List (Option (Option Nat))) (entry : Option Nat) (id : Nat) :
    (handles ++ [some entry]).count (some (some id)) =
      handles.count (some (some id)) + if entry = some id then 1 else 0 := by
  rw [List.count_append, List.count_singleton]
  simp

theorem Sound.newHandle_none (h : s.Sound) : (s.newHandle none).Sound :=
  h.handles fun id => by
    rw [count_append, if_neg (Option.some_ne_none id).symm]
    rfl

theorem acquire_some (he : s.entry id = some e) :
    s.acquire (some id) = s.setEntry id { e with refCount := e.refCount + 1 } := by
  dsimp only [acquire]
  rw [he]

/-- **One more handle** to an entry. -/
theorem Sound.acquire (h : s.Sound) (he : s.entry id = some e)
    {handles : List (Option (Option Nat))}
    (hcount : ∀ id', handles.count (some (some id')) = s.count id' + if id = id' then 1 else 0) :
    Sound { s.acquire (some id) with handles := handles } := by
  rw [acquire_some he]
  refine h.setCount he (Nat.le_add_left 1 e.refCount) ?_ fun id' hid => ?_
  · rw [hcount, if_pos rfl, (h.refCount id e he).1]
  · rw [hcount, if_neg (Ne.symm hid)]
    rfl

theorem Sound.hit (h : s.Sound) (he : s.entry id = some e) : (s.hit id).Sound := by
  have hhandles : (s.acquire (some id)).handles = s.handles := by
    rw [acquire_some he]
    rfl
  unfold Pools.hit newHandle
  rw [hhandles]
  refine h.acquire he fun id' => ?_
  rw [count_append]
  simp only [Option.some.injEq]
  rfl

/-- The index after an entry of new bytes is added. -/
theorem PoolSound.push (h : PoolSound s p pool) {data : Bytes} {new : Nat} {e : PoolEntry}
    (hnotin : new ∉ pool.hashIndex.values)
    (hnot : ∀ id ∈ pool.hashIndex.values, ∀ e, s.entry id = some e → e.data ≠ data)
    (hdata : e.data = data) (howner : e.owner = some p)
    (hs' : s'.entry = update s.entry new (some e)) :
    PoolSound s' p
      { hashIndex := pool.hashIndex.push e.hash new
        activeCount := pool.activeCount + 1
        totalBytes := pool.totalBytes + data.length } := by
  have hperm := HashIndex.values_push pool.hashIndex e.hash new
  have hself : s'.entry new = some e := by
    rw [hs', update_self]
  have hkept : ∀ id ∈ pool.hashIndex.values, s'.entry id = s.entry id := by
    intro id hid
    have hne : id ≠ new := fun heq => hnotin (heq ▸ hid)
    rw [hs', update_of_ne hne]
  refine ⟨fun id hid => ?_, hperm.nodup_iff.mpr (List.nodup_cons.mpr ⟨hnotin, h.nodup⟩),
    fun id hid id' hid' f f' hf hf' hsame => ?_, ?_, ?_⟩
  · obtain rfl | hid := List.mem_cons.mp (hperm.mem_iff.mp hid)
    · exact ⟨e, hself, howner, (HashIndex.mem_bucket_push _ _ _ _ _).mpr (.inr ⟨rfl, rfl⟩)⟩
    · obtain ⟨f, hf, hfowner, hbucket⟩ := h.member id hid
      exact ⟨f, (hkept id hid).trans hf, hfowner,
        (HashIndex.mem_bucket_push _ _ _ _ _).mpr (.inl hbucket)⟩
  · obtain rfl | hold := List.mem_cons.mp (hperm.mem_iff.mp hid)
    · obtain rfl := Option.some.inj (hself.symm.trans hf)
      obtain rfl | hold' := List.mem_cons.mp (hperm.mem_iff.mp hid')
      · rfl
      · exact absurd (hsame.symm.trans hdata) (hnot id' hold' f' ((hkept id' hold').symm.trans hf'))
    · obtain rfl | hold' := List.mem_cons.mp (hperm.mem_iff.mp hid')
      · obtain rfl := Option.some.inj (hself.symm.trans hf')
        exact absurd (hsame.trans hdata) (hnot id hold f ((hkept id hold).symm.trans hf))
      · exact h.distinct id hold id' hold' f f' ((hkept id hold).symm.trans hf)
          ((hkept id' hold').symm.trans hf') hsame
  · have hlength := hperm.length_eq
    rw [List.length_cons] at hlength
    rw [hlength, h.size]
  · have hsum := (hperm.map s'.byteLength).sum_eq
    have hnew : s'.byteLength new = data.length := by
      unfold byteLength
      rw [hself, ← hdata]
      rfl
    have hrest : (pool.hashIndex.values.map s'.byteLength).sum =
        (pool.hashIndex.values.map s.byteLength).sum :=
      congrArg List.sum (List.map_congr_left fun id hid =>
        byteLength_of_key (congrArg (Option.map PoolEntry.key) (hkept id hid)))
    rw [List.map_cons, List.sum_cons, hnew, hrest] at hsum
    change pool.totalBytes + data.length = _
    rw [hsum, h.total, Nat.add_comm]

/-- **A new entry** is in the index of its pool and has one handle. -/
theorem Sound.insert (h : s.Sound) (hp : s.pool p = some pool) {data : Bytes}
    (hnot : ∀ id ∈ pool.hashIndex.values, ∀ e, s.entry id = some e → e.data ≠ data) :
    (s.insert p pool data).Sound := by
  have hfresh : s.entry s.next = none := by
    cases he : s.entry s.next with
    | none => rfl
    | some e => exact absurd (h.next _ e he) (Nat.lt_irrefl _)
  have hsound := h.pool p pool hp
  have hnotin : s.next ∉ pool.hashIndex.values := fun hmem => by
    obtain ⟨e, he⟩ := h.toIndexed.live hp _ hmem
    cases hfresh.symm.trans he
  have hperm := HashIndex.values_push pool.hashIndex (computeHash data) s.next
  have hold : ∀ id e, (s.insert p pool data).entry id = some e →
      id = s.next ∧ e = newEntry p data ∨ id ≠ s.next ∧ s.entry id = some e := by
    intro id e he
    change update s.entry s.next (some (newEntry p data)) id = some e at he
    by_cases hid : id = s.next
    · subst hid
      rw [update_self] at he
      exact .inl ⟨rfl, (Option.some.inj he).symm⟩
    · rw [update_of_ne hid] at he
      exact .inr ⟨hid, he⟩
  have hkept : ∀ id, id ≠ s.next → (s.insert p pool data).entry id = s.entry id := fun id hid =>
    update_of_ne hid _ _
  have hcount : ∀ id, (s.insert p pool data).count id = s.count id + if s.next = id then 1
  else 0 := by
    intro id
    have happ := count_append s.handles (some s.next) id
    simp only [Option.some.injEq] at happ
    exact happ
  refine
    { refCount := fun id e he => ?_, gone := fun id he => ?_, nodup := h.nodup, mem := fun id => ?_,
      next := fun id e he => ?_, hash := fun id e he => ?_, owned := fun id e q he howner => ?_,
      pool := fun q pool' hq => ?_, fault := h.fault }
  · rw [hcount]
    obtain ⟨rfl, rfl⟩ | ⟨hid, he⟩ := hold id e he
    · rw [h.gone _ hfresh, if_pos rfl]
      exact ⟨rfl, le_rfl⟩
    · rw [if_neg (Ne.symm hid)]
      exact h.refCount id e he
  · have hid : id ≠ s.next := by
      rintro rfl
      rw [show (s.insert p pool data).entry s.next = _ from update_self _ _ _] at he
      cases he
    rw [hkept id hid] at he
    rw [hcount, if_neg (Ne.symm hid)]
    exact h.gone id he
  · change id ∈ s.freed ↔ id < s.next + 1 ∧ _
    rw [h.mem]
    by_cases hid : id = s.next
    · subst hid
      rw [show (s.insert p pool data).entry s.next = _ from update_self _ _ _]
      simp
    · rw [hkept id hid]
      refine and_congr_left fun _ => ?_
      omega
  · change id < s.next + 1
    obtain ⟨rfl, -⟩ | ⟨-, he⟩ := hold id e he
    · exact Nat.lt_succ_self _
    · exact Nat.lt_succ_of_lt (h.next id e he)
  · obtain ⟨-, rfl⟩ | ⟨-, he⟩ := hold id e he
    · rfl
    · exact h.hash id e he
  · by_cases hqp : q = p
    · subst hqp
      refine ⟨_, update_self _ _ _, hperm.mem_iff.mpr ?_⟩
      obtain ⟨rfl, -⟩ | ⟨-, he⟩ := hold id e he
      · exact List.mem_cons_self
      · obtain ⟨pool', hq, hmem⟩ := h.owned id e q he howner
        obtain rfl := Option.some.inj (hp.symm.trans hq)
        exact .tail _ hmem
    · obtain ⟨-, rfl⟩ | ⟨-, he⟩ := hold id e he
      · exact absurd (Option.some.inj howner).symm hqp
      · obtain ⟨pool', hq, hmem⟩ := h.owned id e q he howner
        exact ⟨pool', (update_of_ne hqp _ _).trans hq, hmem⟩
  · by_cases hqp : q = p
    · subst hqp
      rw [show (s.insert q pool data).pool q = _ from update_self _ _ _] at hq
      cases hq
      exact hsound.push (e := newEntry q data) hnotin hnot rfl rfl rfl
    · rw [show (s.insert p pool data).pool q = _ from update_of_ne hqp _ _] at hq
      refine (h.pool q pool' hq).congr fun id hid => ?_
      have hne : id ≠ s.next := by
        rintro rfl
        obtain ⟨e, he⟩ := h.toIndexed.live hq _ hid
        cases hfresh.symm.trans he
      rw [hkept id hne]

/-! ## Handles -/

/-- Setting one handle: what it pointed to is lost, what it points to is gained. -/
theorem count_set {handles : List (Option (Option Nat))} {h : Nat} {old : Option (Option Nat)}
    (hold : handles[h]? = some old) (new : Option (Option Nat)) (id : Nat) :
    (handles.set h new).count (some (some id)) + (if old = some (some id) then 1 else 0) =
      handles.count (some (some id)) + if new = some (some id) then 1 else 0 := by
  obtain ⟨hlt, hget⟩ := List.getElem?_eq_some_iff.mp hold
  have hset := (List.set_perm_cons_eraseIdx hlt new).count_eq (some (some id))
  have hsame := (List.getElem_cons_eraseIdx_perm hlt).count_eq (some (some id))
  rw [hget] at hsame
  rw [hset, ← hsame, List.count_cons, List.count_cons]
  simp only [beq_iff_eq]
  omega

variable {x : Nat}

theorem Sound.live_of_handle (h : s.Sound) (hx : s.handles[x]? = some (some (some id))) :
    ∃ e, s.entry id = some e := by
  cases he : s.entry id with
  | some e => exact ⟨e, rfl⟩
  | none =>
    have hpos : 0 < s.count id := List.count_pos_iff.mpr (List.mem_of_getElem? hx)
    rw [h.gone id he] at hpos
    exact absurd hpos (Nat.lt_irrefl 0)

theorem handles_releaseEntry (s : Pools) (id : Nat) : (s.releaseEntry id).handles = s.handles := by
  unfold Pools.releaseEntry
  cases s.entry id with
  | none => rfl
  | some e =>
    dsimp only
    split_ifs
    · cases e.owner with
      | none => rfl
      | some p =>
        dsimp only [eraseEntry]
        cases s.pool p <;> rfl
    · rfl

variable {entry : Option Nat}

/-- **Releasing a handle** leaves it empty. -/
theorem Sound.release (h : s.Sound) (hx : s.handles[x]? = some (some entry)) :
    (s.release x).Sound ∧ (s.release x).handles = s.handles.set x (some none) := by
  unfold Pools.release
  rw [hx]
  cases entry with
  | none =>
    obtain ⟨hlt, hget⟩ := List.getElem?_eq_some_iff.mp hx
    have hself := List.set_getElem_self hlt
    rw [hget] at hself
    exact ⟨h, hself.symm⟩
  | some id =>
    have hcount := count_set hx (some none)
    have hpos : 1 ≤ s.count id := List.count_pos_iff.mpr (List.mem_of_getElem? hx)
    dsimp only
    unfold setHandle
    rw [handles_releaseEntry]
    refine ⟨h.releaseEntry hpos ?_ fun id' hid => ?_, rfl⟩
    · have hself := hcount id
      rw [if_pos rfl, if_neg (by simp)] at hself
      change _ = s.handles.count _ - 1
      omega
    · have hother := hcount id'
      rw [if_neg (by simpa using Ne.symm hid), if_neg (by simp)] at hother
      exact hother

theorem handle_eq_some (hx : s.handle x = some entry) :
    s.handles[x]? = some (some entry) := by
  obtain ⟨handle, hhandle, hid⟩ := Option.bind_eq_some_iff.mp hx
  rw [hhandle]
  exact congrArg some hid

/-- Another handle is as it was after a release. -/
theorem getElem?_release {source : Nat} (hne : x ≠ source)
    (hhandles : (s.release x).handles = s.handles.set x (some none))
    (hsource : s.handles[source]? = some (some entry)) :
    (s.release x).handles[source]? = some (some entry) := by
  rw [hhandles, List.getElem?_set_ne hne, hsource]

theorem Sound.copyAssign (h : s.Sound) {source : Nat} {old : Option Nat} (hne : x ≠ source)
    (hx : s.handles[x]? = some (some old)) (hsource : s.handles[source]? = some (some entry)) :
    (((s.release x).setHandle x (some entry)).acquire entry).Sound := by
  obtain ⟨hsound, hhandles⟩ := h.release hx
  obtain ⟨hlt, -⟩ := List.getElem?_eq_some_iff.mp hx
  have hempty : (s.release x).handles[x]? = some (some none) := by
    rw [hhandles, List.getElem?_set_self hlt]
  have hcount := count_set hempty (some entry)
  cases entry with
  | none => exact hsound.handles fun id => by simpa [count] using hcount id
  | some id =>
    obtain ⟨e, he⟩ := hsound.live_of_handle (getElem?_release hne hhandles hsource)
    have hacquire : ((s.release x).setHandle x (some (some id))).acquire (some id) =
        { (s.release x).acquire (some id) with
          handles := (s.release x).handles.set x (some (some id)) } := by
      rw [acquire_some he, acquire_some (s := (s.release x).setHandle x (some (some id))) he]
      rfl
    rw [hacquire]
    refine hsound.acquire he fun id' => ?_
    have hset := hcount id'
    rw [if_neg (by simp)] at hset
    simp only [Option.some.injEq] at hset
    exact hset

theorem Sound.moveAssign (h : s.Sound) {source : Nat} {old : Option Nat} (hne : x ≠ source)
    (hx : s.handles[x]? = some (some old)) (hsource : s.handles[source]? = some (some entry)) :
    (((s.release x).setHandle x (some entry)).setHandle source (some none)).Sound := by
  obtain ⟨hsound, hhandles⟩ := h.release hx
  obtain ⟨hlt, -⟩ := List.getElem?_eq_some_iff.mp hx
  have hempty : (s.release x).handles[x]? = some (some none) := by
    rw [hhandles, List.getElem?_set_self hlt]
  have hsource' : ((s.release x).handles.set x (some entry))[source]? = some (some entry) := by
    rw [List.getElem?_set_ne hne, getElem?_release hne hhandles hsource]
  refine hsound.handles fun id => ?_
  have hfirst := count_set hempty (some entry) id
  have hsecond := count_set hsource' (some none) id
  rw [if_neg (by simp)] at hfirst
  rw [if_neg (c := some none = some (some id)) (by simp)] at hsecond
  change List.count _ (((s.release x).handles.set x (some entry)).set source (some none)) =
    (s.release x).handles.count _
  omega

theorem Sound.moveHandle (h : s.Sound) {source : Nat}
    (hsource : s.handles[source]? = some (some entry)) :
    ((s.setHandle source (some none)).newHandle entry).Sound := by
  refine h.handles fun id => ?_
  have hset := count_set hsource (some none) id
  rw [if_neg (c := some none = some (some id)) (by simp)] at hset
  have happend := count_append (s.handles.set source (some none)) entry id
  simp only [Option.some.injEq] at hset
  change List.count _ (s.handles.set source (some none) ++ [some entry]) = _
  rw [happend, hset]
  rfl

theorem Sound.destroyHandle (h : s.Sound)
    (hx : s.handles[x]? = some (some entry)) : ((s.release x).setHandle x none).Sound := by
  obtain ⟨hsound, hhandles⟩ := h.release hx
  obtain ⟨hlt, -⟩ := List.getElem?_eq_some_iff.mp hx
  have hempty : (s.release x).handles[x]? = some (some none) := by
    rw [hhandles, List.getElem?_set_self hlt]
  exact hsound.handles fun id => by simpa [count] using count_set hempty none id

/-! ## Runs -/

theorem sound_empty : Sound {} where
  refCount _ _ he := by cases he
  gone _ _ := rfl
  nodup := List.nodup_nil
  mem id := by simp
  next _ _ he := by cases he
  hash _ _ he := by cases he
  owned _ _ _ he := by cases he
  pool _ _ hp := by cases hp
  fault := rfl

theorem pool_disownAll (s : Pools) (p : Nat) (pool : Utf8StringPool) :
    (s.disownAll p pool).pool p = some {} :=
  update_self _ _ _

theorem Sound.intern (h : s.Sound) (hp : s.pool p = some pool) (data : Bytes) :
    (s.intern p pool data).Sound := by
  unfold Pools.intern
  by_cases hempty : data.length = 0
  · rw [if_pos hempty]
    exact h.newHandle_none
  · rw [if_neg hempty]
    obtain ⟨id, e, he, hfind⟩ | ⟨hfind, hnot⟩ := h.toIndexed.findIn hp data <;> rw [hfind]
    · exact h.hit he
    · dsimp only
      split_ifs
      · exact h.newHandle_none
      · exact h.insert hp hnot

theorem Sound.find (h : s.Sound) (hp : s.pool p = some pool) (data : Bytes) :
    (s.find pool data).Sound := by
  unfold Pools.find
  split_ifs with hempty
  · exact h.newHandle_none
  · obtain ⟨id, e, he, hfind⟩ | ⟨hfind, -⟩ := h.toIndexed.findIn hp data <;> rw [hfind]
    · exact h.hit he
    · exact h.newHandle_none

/-- **One operation keeps the invariant.** -/
theorem step_sound {action : PoolAction} (h : s.Sound) (hstep : s.step action = some s') :
    s'.Sound := by
  cases action with
  | construct p =>
    simp only [step] at hstep
    split_ifs at hstep with hp
    cases hstep
    exact h.setPool (.inl (Option.isNone_iff_eq_none.mp hp)) (.inr rfl)
  | destroy p =>
    obtain ⟨pool, hp, rfl⟩ := Option.map_eq_some_iff.mp hstep
    exact (h.disownAll hp).setPool (.inr (pool_disownAll s p pool)) (.inl rfl)
  | clear p =>
    obtain ⟨pool, hp, rfl⟩ := Option.map_eq_some_iff.mp hstep
    exact h.disownAll hp
  | moveConstruct p source =>
    simp only [step] at hstep
    split_ifs at hstep with hp
    obtain ⟨pool, hsource, rfl⟩ := Option.map_eq_some_iff.mp hstep
    have hp := Option.isNone_iff_eq_none.mp hp
    have hne : p ≠ source := by
      rintro rfl
      cases hp.symm.trans hsource
    exact h.takePool hne hsource (.inl hp)
  | moveAssign p source =>
    obtain ⟨old, hp, hstep⟩ := Option.bind_eq_some_iff.mp hstep
    split_ifs at hstep with hne
    · obtain rfl := Option.some.inj hstep
      exact h
    · obtain ⟨pool, hsource, rfl⟩ := Option.map_eq_some_iff.mp hstep
      have hsource' : (s.disownAll p old).pool source = some pool :=
        (update_of_ne (Ne.symm hne) _ _).trans hsource
      exact (h.disownAll hp).takePool hne hsource' (.inr (pool_disownAll s p old))
  | intern p data =>
    obtain ⟨pool, hp, rfl⟩ := Option.map_eq_some_iff.mp hstep
    exact h.intern hp data
  | find p data =>
    obtain ⟨pool, hp, rfl⟩ := Option.map_eq_some_iff.mp hstep
    exact h.find hp data
  | newHandle =>
    cases hstep
    exact h.newHandle_none
  | copyHandle source =>
    obtain ⟨entry, hsource, rfl⟩ := Option.map_eq_some_iff.mp hstep
    cases entry with
    | none => exact h.newHandle_none
    | some id =>
      obtain ⟨e, he⟩ := h.live_of_handle (handle_eq_some hsource)
      exact h.hit he
  | moveHandle source =>
    obtain ⟨entry, hsource, rfl⟩ := Option.map_eq_some_iff.mp hstep
    exact h.moveHandle (handle_eq_some hsource)
  | copyAssignHandle x source =>
    obtain ⟨old, hx, hstep⟩ := Option.bind_eq_some_iff.mp hstep
    split_ifs at hstep with hne
    · obtain rfl := Option.some.inj hstep
      exact h
    · obtain ⟨entry, hsource, rfl⟩ := Option.map_eq_some_iff.mp hstep
      exact h.copyAssign hne (handle_eq_some hx) (handle_eq_some hsource)
  | moveAssignHandle x source =>
    obtain ⟨old, hx, hstep⟩ := Option.bind_eq_some_iff.mp hstep
    split_ifs at hstep with hne
    · obtain rfl := Option.some.inj hstep
      exact h
    · obtain ⟨entry, hsource, rfl⟩ := Option.map_eq_some_iff.mp hstep
      exact h.moveAssign hne (handle_eq_some hx) (handle_eq_some hsource)
  | destroyHandle x =>
    obtain ⟨entry, hx, rfl⟩ := Option.map_eq_some_iff.mp hstep
    exact h.destroyHandle (handle_eq_some hx)

end Pools

/-- What the pool promises of the entries, the handles and the indexes. -/
structure ReferenceCounting (s : Pools) : Prop where
  /-- An entry counts the live handles that point to it, and there is one. -/
  refCount : ∀ id e, s.entry id = some e → e.refCount = s.count id ∧ 1 ≤ e.refCount
  /-- What was made is there as long as a handle points to it, and freed once after. -/
  freedOnce : ∀ id < s.next, (s.entry id = none ↔ s.count id = 0) ∧
    s.freed.count id = if s.count id = 0 then 1 else 0
  /-- An entry with an owner is in its index once, under its hash. -/
  owned : ∀ id e p, s.entry id = some e → e.owner = some p → ∃ pool, s.pool p = some pool ∧
    pool.hashIndex.values.count id = 1 ∧ id ∈ pool.hashIndex.bucket e.hash
  /-- No two entries of one index have the same bytes. -/
  distinct : ∀ p pool, s.pool p = some pool →
    ∀ id ∈ pool.hashIndex.values, ∀ id' ∈ pool.hashIndex.values, ∀ e e',
      s.entry id = some e → s.entry id' = some e' → e.data = e'.data → id = id'
  size : ∀ p pool, s.pool p = some pool → pool.activeCount = pool.hashIndex.values.length
  totalBytes : ∀ p pool, s.pool p = some pool →
    pool.totalBytes = (pool.hashIndex.values.map s.byteLength).sum
  /-- No operation used an entry that was freed or a pool that was gone. -/
  fault : s.fault = false

/-- **The pool counts references** in every state of every run. -/
theorem pool_reference_counting (s : Pools) (hs : Reach Pools.step (fun _ _ => True) {} s) :
    ReferenceCounting s := by
  have h : s.Sound := hs.invariant Pools.Sound Pools.sound_empty fun _ _ _ h _ hstep =>
    Pools.step_sound h hstep
  have hgone : ∀ id, s.entry id = none ↔ s.count id = 0 := by
    refine fun id => ⟨h.gone id, fun hzero => ?_⟩
    cases he : s.entry id with
    | none => rfl
    | some e =>
      have hcount := h.refCount id e he
      omega
  refine
    { refCount := h.refCount
      freedOnce := fun id hid => ⟨hgone id, ?_⟩
      owned := fun id e p he howner => ?_
      distinct := fun p pool hp => (h.pool p pool hp).distinct
      size := fun p pool hp => (h.pool p pool hp).size
      totalBytes := fun p pool hp => (h.pool p pool hp).total
      fault := h.fault }
  · rw [h.nodup.count]
    by_cases hzero : s.count id = 0
    · rw [if_pos hzero, if_pos ((h.mem id).mpr ⟨hid, (hgone id).mpr hzero⟩)]
    · rw [if_neg hzero, if_neg fun hmem => hzero ((hgone id).mp ((h.mem id).mp hmem).2)]
  · obtain ⟨pool, hp, hmem⟩ := h.owned id e p he howner
    obtain ⟨e', he', -, hbucket⟩ := (h.pool p pool hp).member id hmem
    obtain rfl := Option.some.inj (he.symm.trans he')
    exact ⟨pool, hp, List.count_eq_one_of_mem (h.pool p pool hp).nodup hmem, hbucket⟩

/-- A string outlives its pool in one of its two handles. -/
theorem pool_reference_counting_outlived :
    ∃ s, (s.entry 0).any (fun e => e.refCount == 1 && e.owner.isNone) = true ∧
      ReferenceCounting s := by
  have hrun : (run Pools.step (fun _ _ => true)
      [.construct 0, .intern 0 [97], .intern 0 [97], .destroyHandle 0, .destroy 0] {}).any
        (fun s => (s.entry 0).any fun e => e.refCount == 1 && e.owner.isNone) = true := by
    decide
  obtain ⟨s, hs, hentry⟩ := Reach.exists_of_run (fun _ _ _ => trivial) hrun
  exact ⟨s, hentry, pool_reference_counting s hs⟩

end Libca.Str
