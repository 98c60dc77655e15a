import Libca.Common.Blocks
import Libca.Common.HashIndex
import Libca.Str.Utf8

/-!
# The string arena (`str/utf8_string_arena.cpp` 59-208)

`Utf8StringArena` copies strings into chunks, one after the other, and finds a string that it has
already by its hash. `intern` and `intern_raw` differ in the length that they record.

Left out: allocation failure, `clear`, `owns`, statistics.

* `Holds a m items`: the arena holds the strings `items`, each at its address, no two with the same
  bytes or a common address.
* `findEntry_some`, `findEntry_none`: the lookup finds the item with the given bytes.
* `Holds.place`: a string that is not found becomes the last item.
* `Confined`: an operation leaves the blocks of all other arenas as they were.
-/

namespace Libca.Str

open Common

/-- `compute_hash`: FNV-1a. -/
def computeHash (data : Bytes) : UInt64 :=
  data.foldl (fun h b => (h ^^^ b.toUInt64) * 1099511628211) 14695981039346656037

/-- A view; the empty one has no address. -/
structure Utf8StringRef where
  data : Option Address := none
  byteLength : Nat := 0
  length : Nat := 0
  deriving DecidableEq

/-- A chunk: its block, the size of the block and how much of it is used. -/
structure Chunk where
  data : Nat
  capacity : Nat
  used : Nat

/-- What the arena knows of a string. -/
structure Entry where
  hash : UInt64
  byteLength : Nat
  length : Nat
  chunkIdx : Nat
  chunkOffset : Nat

/-- The arena; a new one allocates its first chunk (`Utf8StringArena.create`), and one that was
moved from has none. -/
structure Utf8StringArena where
  chunks : List Chunk := []
  entries : List Entry := []
  hashIndex : HashIndex UInt64 Nat := ∅
  nextChunkIdx : Nat := 0

/-- `DEFAULT_CHUNK_SIZE`. -/
def defaultChunkSize : Nat := 64 * 1024

namespace Utf8StringArena

/-- The chunk with an index. -/
def chunk (a : Utf8StringArena) (i : Nat) : Chunk :=
  a.chunks.getD i { data := 0, capacity := 0, used := 0 }

/-- Where the string of an entry is. -/
def address (a : Utf8StringArena) (e : Entry) : Address :=
  { block := (a.chunk e.chunkIdx).data, offset := e.chunkOffset }

/-- `alloc_chunk`. -/
def allocChunk (minCapacity : Nat) (s : Utf8StringArena × Blocks) : Utf8StringArena × Blocks :=
  let capacity := if defaultChunkSize < minCapacity then minCapacity else defaultChunkSize
  ({ s.1 with
      chunks := s.1.chunks ++ [{ data := s.2.next, capacity := capacity, used := 0 }]
      nextChunkIdx := s.1.chunks.length },
    s.2.alloc capacity)

/-- The constructor. -/
def create (m : Blocks) : Utf8StringArena × Blocks := allocChunk defaultChunkSize ({}, m)

/-- Free the chunks, as the destructor and a move assignment do. -/
def freeChunks (chunks : List Chunk) (m : Blocks) : Blocks :=
  chunks.foldl (fun m c => m.free c.data) m

/-- A new chunk when the current one has no room for `size` bytes. -/
def ensureRoom (size : Nat) (s : Utf8StringArena × Blocks) : Utf8StringArena × Blocks :=
  let cur := s.1.chunk s.1.nextChunkIdx
  if cur.capacity - cur.used < size then allocChunk size s else s

/-- Take `size` bytes of the current chunk. -/
def takeRoom (size : Nat) (a : Utf8StringArena) : Address × Utf8StringArena :=
  let chunk := a.chunk a.nextChunkIdx
  ({ block := chunk.data, offset := chunk.used },
    { a with chunks := a.chunks.set a.nextChunkIdx { chunk with used := chunk.used + size } })

/-- `alloc_in_chunk`, up to the point where the room is taken. -/
def findRoom (size : Nat) (s : Utf8StringArena × Blocks) : Utf8StringArena × Blocks :=
  ensureRoom size (if s.1.chunks.isEmpty then allocChunk size s else s)

/-- The comparison of an entry with a string (`memcmp`). -/
def sameBytes (data : Bytes) (s : Utf8StringArena × Blocks) (e : Entry) : Bool :=
  e.byteLength == data.length && s.2.read (s.1.address e) data.length == some data

/-- The search for a string among the entries with its hash. -/
def findEntry (data : Bytes) (s : Utf8StringArena × Blocks) : Option Entry :=
  ((s.1.hashIndex.bucket (computeHash data)).filterMap fun idx => s.1.entries[idx]?).find?
    (sameBytes data s)

/-- Copy a string into the room that was found, and record it with a length. -/
def place (data : Bytes) (length : Nat) (s : Utf8StringArena × Blocks) :
    Utf8StringRef × Utf8StringArena × Blocks :=
  let (dest, a) := takeRoom data.length s.1
  let e : Entry :=
    { hash := computeHash data
      byteLength := data.length
      length := length
      chunkIdx := a.nextChunkIdx
      chunkOffset := dest.offset }
  ({ data := some dest, byteLength := data.length, length := length },
    { a with
      entries := a.entries ++ [e]
      hashIndex := a.hashIndex.push (computeHash data) a.entries.length },
    s.2.write dest data)

/-- Store a string that was not found. -/
def store (data : Bytes) (length : Nat) (s : Utf8StringArena × Blocks) :
    Utf8StringRef × Utf8StringArena × Blocks :=
  place data length (findRoom data.length s)

/-- What `intern` and `intern_raw` have in common: they differ in the length of a new string, which
is `none` when it is refused. A null pointer is the empty input. -/
def internWith (newLength : Bytes → Option Nat) (data : Bytes) (s : Utf8StringArena × Blocks) :
    Utf8StringRef × Utf8StringArena × Blocks :=
  if data.length = 0 then ({}, s)
  else
    match findEntry data s with
    | some e => ({ data := some (s.1.address e), byteLength := e.byteLength, length := e.length },
      s)
    | none =>
      match newLength data with
      | none => ({}, s)
      | some length => store data length s

/-- The code points of a string, `none` when it is not UTF-8. -/
def checkedLength (data : Bytes) : Option Nat :=
  if countCodePoints data = 0 then none else some (countCodePoints data)

/-- `intern`. -/
def intern (data : Bytes) (s : Utf8StringArena × Blocks) :
    Utf8StringRef × Utf8StringArena × Blocks :=
  internWith checkedLength data s

/-- `intern_raw`: the length is that of the bytes. -/
def internRaw (data : Bytes) (s : Utf8StringArena × Blocks) :
    Utf8StringRef × Utf8StringArena × Blocks :=
  internWith (fun data => some data.length) data s

end Utf8StringArena

/-! ## What an arena holds -/

/-- A string that an arena holds. -/
structure Stored where
  bytes : Bytes
  address : Address
  length : Nat

namespace Stored

/-- The view of a stored string. -/
def view (x : Stored) : Utf8StringRef :=
  { data := some x.address, byteLength := x.bytes.length, length := x.length }

/-- Two stored strings differ and have no byte in common. -/
def Distinct (x y : Stored) : Prop :=
  x.bytes ≠ y.bytes ∧ Blocks.Disjoint x.address x.bytes.length y.address y.bytes.length

instance : Std.Symm Distinct := ⟨fun _ _ h => ⟨Ne.symm h.1, h.2.symm⟩⟩

end Stored

namespace Utf8StringArena

/-- The entry describes the stored string. -/
structure EntryOf (a : Utf8StringArena) (m : Blocks) (e : Entry) (x : Stored) : Prop where
  ne_nil : x.bytes ≠ []
  hash : e.hash = computeHash x.bytes
  byteLength : e.byteLength = x.bytes.length
  length : e.length = x.length
  inChunk : ∃ c, a.chunks[e.chunkIdx]? = some c ∧ x.address = ⟨c.data, e.chunkOffset⟩ ∧
    x.address.offset + x.bytes.length ≤ c.used
  reads : m.read x.address x.bytes.length = some x.bytes

/-- The chunks have blocks of their own. -/
structure OwnsChunks (a : Utf8StringArena) (m : Blocks) : Prop where
  current : a.chunks ≠ [] → a.nextChunkIdx < a.chunks.length
  chunk : ∀ c ∈ a.chunks, m.size c.data = some c.capacity ∧ c.used ≤ c.capacity ∧ c.data < m.next
  blocks : (a.chunks.map Chunk.data).Nodup

/-- The arena holds the strings `items`, in the order in which they came. -/
structure Holds (a : Utf8StringArena) (m : Blocks) (items : List Stored) : Prop
    extends OwnsChunks a m where
  length : items.length = a.entries.length
  entry : ∀ (i : Nat) (e : Entry) (x : Stored), a.entries[i]? = some e → items[i]? = some x →
    EntryOf a m e x
  distinct : items.Pairwise Stored.Distinct
  index : ∀ (h : UInt64) (i : Nat), i ∈ a.hashIndex.bucket h ↔
    ∃ e, a.entries[i]? = some e ∧ e.hash = h

variable {a a' a'' : Utf8StringArena} {m m' m'' : Blocks} {items : List Stored} {e : Entry}
  {x y : Stored} {data : Bytes}

theorem EntryOf.address_eq (h : EntryOf a m e x) : a.address e = x.address := by
  obtain ⟨c, hc, haddress, -⟩ := h.inChunk
  unfold address chunk
  rw [List.getD_eq_getElem?_getD, hc, haddress]
  rfl

theorem Holds.exists_entry (h : Holds a m items) (hx : x ∈ items) :
    ∃ (i : Nat) (e : Entry), a.entries[i]? = some e ∧ EntryOf a m e x := by
  obtain ⟨i, hi, rfl⟩ := List.mem_iff_getElem.mp hx
  have hi' : i < a.entries.length := h.length ▸ hi
  have he := List.getElem?_eq_getElem hi'
  exact ⟨i, a.entries[i], he, h.entry i _ _ he (List.getElem?_eq_getElem hi)⟩

theorem Holds.exists_stored (h : Holds a m items) {i : Nat} (he : a.entries[i]? = some e) :
    ∃ x ∈ items, EntryOf a m e x := by
  obtain ⟨hi, -⟩ := List.getElem?_eq_some_iff.mp he
  have hi' : i < items.length := h.length ▸ hi
  have hx := List.getElem?_eq_getElem hi'
  exact ⟨items[i], List.getElem_mem hi', h.entry i _ _ he hx⟩

/-- Each string is held once. -/
theorem Holds.eq_of_bytes (h : Holds a m items) (hx : x ∈ items) (hy : y ∈ items)
    (hbytes : x.bytes = y.bytes) : x = y := by
  by_contra hne
  exact (h.distinct.forall hx hy hne).1 hbytes

/-! ## The lookup -/

/-- The test of the lookup accepts an entry of the given bytes only. -/
theorem EntryOf.sameBytes_iff (h : EntryOf a m e x) (data : Bytes) :
    sameBytes data (a, m) e = true ↔ x.bytes = data := by
  rw [sameBytes, Bool.and_eq_true, beq_iff_eq, beq_iff_eq, h.byteLength, h.address_eq]
  constructor
  · rintro ⟨hlength, hread⟩
    rw [← hlength, h.reads] at hread
    exact Option.some.inj hread
  · rintro rfl
    exact ⟨rfl, h.reads⟩

theorem mem_candidates (h : Holds a m items) (hash : UInt64) :
    e ∈ ((a.hashIndex.bucket hash).filterMap fun idx => a.entries[idx]?) ↔
      e ∈ a.entries ∧ e.hash = hash := by
  rw [List.mem_filterMap, List.mem_iff_getElem?]
  constructor
  · rintro ⟨i, hi, he⟩
    obtain ⟨e', he', hhash⟩ := (h.index hash i).mp hi
    obtain rfl := Option.some.inj (he.symm.trans he')
    exact ⟨⟨i, he⟩, hhash⟩
  · rintro ⟨⟨i, he⟩, hhash⟩
    exact ⟨i, (h.index hash i).mpr ⟨e, he, hhash⟩, he⟩

/-- **A string that the arena holds is found.** -/
theorem findEntry_some (h : Holds a m items) (hx : x ∈ items) :
    ∃ e, findEntry x.bytes (a, m) = some e ∧ EntryOf a m e x := by
  obtain ⟨i, e, he, hentry⟩ := h.exists_entry hx
  have hcandidate := (mem_candidates h (computeHash x.bytes)).mpr
    ⟨List.mem_of_getElem? he, hentry.hash⟩
  cases hfind : findEntry x.bytes (a, m) with
  | none =>
    have hnot := List.find?_eq_none.mp hfind e hcandidate
    exact absurd ((hentry.sameBytes_iff x.bytes).mpr rfl) hnot
  | some found =>
    have hmem := List.mem_of_find?_eq_some hfind
    obtain ⟨j, hj⟩ := List.mem_iff_getElem?.mp ((mem_candidates h _).mp hmem).1
    obtain ⟨y, hy, hfound⟩ := h.exists_stored hj
    have hbytes := (hfound.sameBytes_iff x.bytes).mp (List.find?_some hfind)
    exact ⟨found, rfl, h.eq_of_bytes hy hx hbytes ▸ hfound⟩

theorem findEntry_none (h : Holds a m items) (hnot : ∀ x ∈ items, x.bytes ≠ data) :
    findEntry data (a, m) = none := by
  refine List.find?_eq_none.mpr fun e he hmatch => ?_
  obtain ⟨i, hi⟩ := List.mem_iff_getElem?.mp ((mem_candidates h _).mp he).1
  obtain ⟨x, hx, hentry⟩ := h.exists_stored hi
  exact hnot x hx ((hentry.sameBytes_iff data).mp hmatch)

/-! ## Making room -/

/-- An operation of one arena leaves all blocks of others as they were. -/
structure Confined (a : Utf8StringArena) (m : Blocks) (a' : Utf8StringArena) (m' : Blocks) :
    Prop where
  next : m.next ≤ m'.next
  blocks : ∀ c' ∈ a'.chunks, (∃ c ∈ a.chunks, c.data = c'.data) ∨ m.next ≤ c'.data
  agree : ∀ b, b < m.next → (∀ c ∈ a.chunks, c.data ≠ b) → Blocks.Agree m m' b

theorem Confined.refl (a : Utf8StringArena) (m : Blocks) : Confined a m a m :=
  ⟨le_rfl, fun c hc => .inl ⟨c, hc, rfl⟩, fun b _ _ => .refl m b⟩

theorem Confined.trans (h : Confined a m a' m') (h' : Confined a' m' a'' m'') :
    Confined a m a'' m'' := by
  refine ⟨h.next.trans h'.next, fun c'' hc'' => ?_, fun b hb hnot => ?_⟩
  · obtain ⟨c', hc', hdata⟩ | hnew := h'.blocks c'' hc''
    · rw [← hdata]
      exact h.blocks c' hc'
    · exact .inr (h.next.trans hnew)
  · refine (h.agree b hb hnot).trans (h'.agree b (hb.trans_le h.next) fun c' hc' hdata => ?_)
    obtain ⟨c, hc, hcdata⟩ | hnew := h.blocks c' hc'
    · exact hnot c hc (hcdata.trans hdata)
    · exact absurd hb (Nat.not_lt.mpr (hdata ▸ hnew))

/-- An entry stays one of its string when chunks are added or filled and the string stays. -/
theorem EntryOf.mono (h : EntryOf a m e x)
    (hchunks : ∀ (i : Nat) (c : Chunk), a.chunks[i]? = some c →
      ∃ c', a'.chunks[i]? = some c' ∧ c'.data = c.data ∧ c.used ≤ c'.used)
    (hreads : m'.read x.address x.bytes.length = m.read x.address x.bytes.length) :
    EntryOf a' m' e x := by
  obtain ⟨c, hc, haddress, hfits⟩ := h.inChunk
  obtain ⟨c', hc', hdata, hused⟩ := hchunks _ c hc
  exact
    { h with
      inChunk := ⟨c', hc', hdata ▸ haddress, hfits.trans hused⟩
      reads := hreads.trans h.reads }

theorem Holds.allocChunk (h : Holds a m items) (minCapacity : Nat) :
    Holds (allocChunk minCapacity (a, m)).1 (allocChunk minCapacity (a, m)).2 items := by
  have hblock : ∀ c ∈ a.chunks, c.data < m.next := fun c hc => (h.chunk c hc).2.2
  refine
    { current := fun _ => ?_, chunk := fun c hc => ?_, blocks := ?_, length := h.length,
      entry := fun i e x he hx => ?_, distinct := h.distinct, index := h.index }
  · change a.chunks.length < (a.chunks ++ [_]).length
    rw [List.length_append]
    exact Nat.lt_succ_self _
  · obtain hc | hc := List.mem_append.mp hc
    · obtain ⟨hsize, hused, hnext⟩ := h.chunk c hc
      exact ⟨(Blocks.agree_alloc m _ hnext).size.trans hsize, hused, Nat.lt_succ_of_lt hnext⟩
    · obtain rfl := List.mem_singleton.mp hc
      exact ⟨Blocks.size_alloc_next m _, Nat.zero_le _, Nat.lt_succ_self _⟩
  · change ((a.chunks ++ [_]).map Chunk.data).Nodup
    rw [List.map_append]
    refine h.blocks.append (List.nodup_singleton _) fun b hb hb' => ?_
    obtain ⟨c, hc, rfl⟩ := List.mem_map.mp hb
    exact absurd (List.mem_singleton.mp hb') (Nat.ne_of_lt (hblock c hc))
  · have hentry := h.entry i e x he hx
    obtain ⟨c, hc, haddress, -⟩ := hentry.inChunk
    have hlt : x.address.block < m.next := by
      rw [haddress]
      exact hblock c (List.mem_of_getElem? hc)
    refine hentry.mono (fun j c hc => ⟨c, ?_, rfl, le_rfl⟩)
      (Blocks.read_congr (Blocks.agree_alloc m _ hlt) _)
    exact (List.getElem?_append_left (List.getElem?_eq_some_iff.mp hc).1).trans hc

theorem confined_allocChunk (a : Utf8StringArena) (m : Blocks) (minCapacity : Nat) :
    Confined a m (allocChunk minCapacity (a, m)).1 (allocChunk minCapacity (a, m)).2 := by
  refine ⟨Nat.le_succ _, fun c hc => ?_, fun b hb _ => Blocks.agree_alloc m _ hb⟩
  obtain hc | hc := List.mem_append.mp hc
  · exact .inl ⟨c, hc, rfl⟩
  · obtain rfl := List.mem_singleton.mp hc
    exact .inr (le_rfl)

/-- The current chunk has room for `size` bytes. -/
def HasRoom (size : Nat) (a : Utf8StringArena) : Prop :=
  ∃ c, a.chunks[a.nextChunkIdx]? = some c ∧ c.used + size ≤ c.capacity

theorem hasRoom_allocChunk (a : Utf8StringArena) (m : Blocks) (minCapacity : Nat) :
    HasRoom minCapacity (allocChunk minCapacity (a, m)).1 := by
  refine ⟨_, List.getElem?_concat_length, ?_⟩
  dsimp only
  split_ifs with h
  · rw [Nat.zero_add]
  · rw [Nat.zero_add]
    exact Nat.le_of_not_lt h

theorem findRoom_of_chunks (hne : a.chunks ≠ []) (h : OwnsChunks a m) (size : Nat) :
    findRoom size (a, m) = allocChunk size (a, m) ∨
      findRoom size (a, m) = (a, m) ∧ HasRoom size a := by
  obtain hlt := h.current hne
  have hcur : a.chunks[a.nextChunkIdx]? = some (a.chunk a.nextChunkIdx) := by
    unfold chunk
    rw [List.getD_eq_getElem?_getD, List.getElem?_eq_getElem hlt]
    rfl
  have hused := (h.chunk _ (List.mem_of_getElem? hcur)).2.1
  have hempty : ¬ a.chunks.isEmpty = true := by simpa using hne
  unfold findRoom
  rw [if_neg hempty]
  unfold ensureRoom
  dsimp only
  split_ifs with hroom
  · exact .inl rfl
  · exact .inr ⟨rfl, _, hcur, by omega⟩

/-- **Room is found** without a change to what the arena holds. -/
theorem Holds.findRoom (h : Holds a m items) (size : Nat) :
    Holds (findRoom size (a, m)).1 (findRoom size (a, m)).2 items ∧
      Confined a m (findRoom size (a, m)).1 (findRoom size (a, m)).2 ∧
      HasRoom size (findRoom size (a, m)).1 := by
  -- with chunks there is at most one more
  have hchunks : ∀ {a' : Utf8StringArena} {m' : Blocks}, Holds a' m' items → a'.chunks ≠ [] →
      Holds (Utf8StringArena.findRoom size (a', m')).1
          (Utf8StringArena.findRoom size (a', m')).2 items ∧
        Confined a' m' (Utf8StringArena.findRoom size (a', m')).1
          (Utf8StringArena.findRoom size (a', m')).2 ∧
        HasRoom size (Utf8StringArena.findRoom size (a', m')).1 := by
    intro a' m' h' hne
    obtain hroom | ⟨hroom, hhas⟩ := findRoom_of_chunks hne h'.toOwnsChunks size <;> rw [hroom]
    · exact ⟨h'.allocChunk size, confined_allocChunk a' m' size, hasRoom_allocChunk a' m' size⟩
    · exact ⟨h', .refl a' m', hhas⟩
  by_cases hempty : a.chunks = []
  · have hfirst : (Utf8StringArena.allocChunk size (a, m)).1.chunks ≠ [] :=
      List.append_ne_nil_of_right_ne_nil _ (List.cons_ne_nil _ _)
    have hsame : Utf8StringArena.findRoom size (a, m) =
        Utf8StringArena.findRoom size (Utf8StringArena.allocChunk size (a, m)) := by
      have hpos : a.chunks.isEmpty = true := by simpa using hempty
      have hneg : ¬ (Utf8StringArena.allocChunk size (a, m)).1.chunks.isEmpty = true := by
        simpa using hfirst
      unfold Utf8StringArena.findRoom
      rw [if_pos hpos, if_neg hneg]
    obtain ⟨hholds, hconfined, hroom⟩ := hchunks (h.allocChunk size) hfirst
    rw [hsame]
    exact ⟨hholds, (confined_allocChunk a m size).trans hconfined, hroom⟩
  · exact hchunks h hempty

/-! ## Storing -/

/-- The string that `place` stores in the chunk `c`. -/
def placed (data : Bytes) (length : Nat) (c : Chunk) : Stored :=
  { bytes := data, address := ⟨c.data, c.used⟩, length := length }

variable {c : Chunk}

/-- What the room is taken of stays as it is otherwise. -/
theorem chunks_takeRoom (a : Utf8StringArena) (hc : a.chunks[a.nextChunkIdx]? = some c)
    (size : Nat) : takeRoom size a =
      (⟨c.data, c.used⟩,
        { a with chunks := a.chunks.set a.nextChunkIdx { c with used := c.used + size } }) := by
  have hchunk : a.chunk a.nextChunkIdx = c := by
    unfold chunk
    rw [List.getD_eq_getElem?_getD, hc]
    rfl
  unfold takeRoom
  rw [hchunk]

/-- A stored string has no byte in the unused part of a chunk. -/
theorem Holds.disjoint_unused (h : Holds a m items) {i : Nat}
    (hc : a.chunks[i]? = some c) (hx : x ∈ items) (n : Nat) :
    Blocks.Disjoint x.address x.bytes.length ⟨c.data, c.used⟩ n := by
  obtain ⟨_, e, _, hentry⟩ := h.exists_entry hx
  obtain ⟨c', hc', haddress, hfits⟩ := hentry.inChunk
  by_cases hsame : x.address.block = c.data
  · refine .inr (.inl ?_)
    have hdata : (a.chunks.map Chunk.data)[e.chunkIdx]? = (a.chunks.map Chunk.data)[i]? := by
      rw [List.getElem?_map, List.getElem?_map, hc, hc', Option.map_some, Option.map_some, ← hsame,
        haddress]
    obtain ⟨hlt, -⟩ := List.getElem?_eq_some_iff.mp hc'
    have hindex : e.chunkIdx = i :=
      (List.getElem?_inj (by rwa [List.length_map]) h.blocks).mp hdata
    rw [hindex, hc] at hc'
    cases hc'
    exact hfits
  · exact .inl hsame

/-- **A new string becomes the last item.** -/
theorem Holds.place (h : Holds a m items) (hne : data ≠ []) (hnot : ∀ x ∈ items, x.bytes ≠ data)
    (length : Nat) (hc : a.chunks[a.nextChunkIdx]? = some c)
    (hroom : c.used + data.length ≤ c.capacity) :
    (place data length (a, m)).1 = (placed data length c).view ∧
      Holds (place data length (a, m)).2.1 (place data length (a, m)).2.2
        (items ++ [placed data length c]) ∧
      Confined a m (place data length (a, m)).2.1 (place data length (a, m)).2.2 := by
  obtain ⟨hlt, hget⟩ := List.getElem?_eq_some_iff.mp hc
  have hmem := List.mem_of_getElem? hc
  obtain ⟨hsize, hused, hnext⟩ := h.chunk c hmem
  have hchunks : ∀ (i : Nat) (c₀ : Chunk), a.chunks[i]? = some c₀ →
      ∃ c', (a.chunks.set a.nextChunkIdx { c with used := c.used + data.length })[i]? = some c' ∧
        c'.data = c₀.data ∧ c₀.used ≤ c'.used := by
    intro i c₀ hc₀
    by_cases hi : a.nextChunkIdx = i
    · subst hi
      obtain rfl := Option.some.inj (hc.symm.trans hc₀)
      exact ⟨_, List.getElem?_set_self hlt, rfl, Nat.le_add_right _ _⟩
    · exact ⟨c₀, (List.getElem?_set_ne hi).trans hc₀, rfl, le_rfl⟩
  have hblocks : (a.chunks.set a.nextChunkIdx { c with used := c.used + data.length }).map
      Chunk.data = a.chunks.map Chunk.data := by
    have hlt' : a.nextChunkIdx < (a.chunks.map Chunk.data).length := by rwa [List.length_map]
    have hself := List.set_getElem_self hlt'
    rw [List.getElem_map, hget] at hself
    rw [List.map_set]
    exact hself
  unfold Utf8StringArena.place
  rw [chunks_takeRoom a hc]
  refine ⟨rfl, ?_, ?_⟩
  · refine
      { current := fun _ => ?_, chunk := fun c' hc' => ?_, blocks := ?_, length := ?_,
        entry := fun i e x he hx => ?_, distinct := ?_, index := fun hash i => ?_ }
    · change a.nextChunkIdx < (a.chunks.set _ _).length
      rwa [List.length_set]
    · obtain hc' | rfl := List.mem_or_eq_of_mem_set hc'
      · exact h.chunk c' hc'
      · exact ⟨hsize, hroom, hnext⟩
    · change (List.map Chunk.data (a.chunks.set _ _)).Nodup
      rw [hblocks]
      exact h.blocks
    · change (items ++ [_]).length = (a.entries ++ [_]).length
      rw [List.length_append, List.length_append, h.length]
      rfl
    · by_cases hi : i < a.entries.length
      · have he' := (List.getElem?_append_left hi).symm.trans he
        have hx' := (List.getElem?_append_left (h.length ▸ hi)).symm.trans hx
        refine (h.entry i e x he' hx').mono hchunks (Blocks.read_of_disjoint ?_)
        exact h.disjoint_unused hc (List.mem_of_getElem? hx') _
      · have he' := (List.getElem?_append_right (Nat.le_of_not_lt hi)).symm.trans he
        have hx' := (List.getElem?_append_right (h.length ▸ Nat.le_of_not_lt hi)).symm.trans hx
        obtain rfl := List.mem_singleton.mp (List.mem_of_getElem? he')
        obtain rfl := List.mem_singleton.mp (List.mem_of_getElem? hx')
        exact
          { ne_nil := hne, hash := rfl, byteLength := rfl, length := rfl
            inChunk := ⟨_, List.getElem?_set_self hlt, rfl, le_rfl⟩
            reads := Blocks.read_written hsize hroom }
    · refine List.pairwise_append.mpr ⟨h.distinct, List.pairwise_singleton _ _, fun x hx y hy => ?_⟩
      obtain rfl := List.mem_singleton.mp hy
      exact ⟨hnot x hx, h.disjoint_unused hc hx _⟩
    · change i ∈ (a.hashIndex.push _ _).bucket hash ↔ _
      rw [HashIndex.mem_bucket_push, h.index hash i]
      constructor
      · rintro (⟨e, he, hhash⟩ | ⟨rfl, rfl⟩)
        · exact ⟨e, (List.getElem?_append_left (List.getElem?_eq_some_iff.mp he).1).trans he, hhash⟩
        · exact ⟨_, List.getElem?_concat_length, rfl⟩
      · rintro ⟨e, he, hhash⟩
        by_cases hi : i < a.entries.length
        · exact .inl ⟨e, (List.getElem?_append_left hi).symm.trans he, hhash⟩
        · have hi' : i = a.entries.length := by
            obtain ⟨hlast, -⟩ := List.getElem?_eq_some_iff.mp he
            change i < (a.entries ++ [_]).length at hlast
            rw [List.length_append, List.length_singleton] at hlast
            omega
          subst hi'
          obtain rfl := Option.some.inj (List.getElem?_concat_length.symm.trans he)
          exact .inr ⟨hhash.symm, rfl⟩
  · refine ⟨le_rfl, fun c' hc' => .inl ?_, fun b _ hb =>
      Blocks.agree_write m (Ne.symm (hb c hmem)) data⟩
    obtain hc' | rfl := List.mem_or_eq_of_mem_set hc'
    · exact ⟨c', hc', rfl⟩
    · exact ⟨c, hmem, rfl⟩

/-- What an intern of `data` can do to an arena that holds `items`. -/
inductive Outcome (newLength : Bytes → Option Nat) (data : Bytes) (items : List Stored)
    (a : Utf8StringArena) (m : Blocks) : Utf8StringRef × Utf8StringArena × Blocks → Prop
  | empty : data = [] → Outcome newLength data items a m ({}, a, m)
  | refused : data ≠ [] → (∀ x ∈ items, x.bytes ≠ data) → newLength data = none →
      Outcome newLength data items a m ({}, a, m)
  | found (x : Stored) :
    x ∈ items → x.bytes = data → Outcome newLength data items a m (x.view, a, m)
  | stored (x : Stored) {a' : Utf8StringArena} {m' : Blocks} : data ≠ [] →
      (∀ x ∈ items, x.bytes ≠ data) → newLength data = some x.length → x.bytes = data →
      Holds a' m' (items ++ [x]) → Confined a m a' m' →
      Outcome newLength data items a m (x.view, a', m')

/-- **An intern finds the string, stores it or refuses it.** -/
theorem outcome_internWith (h : Holds a m items) (newLength : Bytes → Option Nat) (data : Bytes) :
    Outcome newLength data items a m (internWith newLength data (a, m)) := by
  unfold internWith
  split_ifs with hempty
  · exact .empty (List.length_eq_zero_iff.mp hempty)
  · have hne : data ≠ [] := fun hnil => hempty (List.length_eq_zero_iff.mpr hnil)
    by_cases hfound : ∃ x ∈ items, x.bytes = data
    · obtain ⟨x, hx, rfl⟩ := hfound
      obtain ⟨e, he, hentry⟩ := findEntry_some h hx
      rw [he]
      dsimp only
      rw [hentry.address_eq, hentry.byteLength, hentry.length]
      exact .found x hx rfl
    · have hnot : ∀ x ∈ items, x.bytes ≠ data := fun x hx hbytes => hfound ⟨x, hx, hbytes⟩
      rw [findEntry_none h hnot]
      dsimp only
      cases hlength : newLength data with
      | none => exact .refused hne hnot hlength
      | some length =>
        obtain ⟨hholds, hconfined, c, hc, hroom⟩ := h.findRoom data.length
        obtain ⟨hview, hplaced, hconfined'⟩ := hholds.place hne hnot length hc hroom
        have hstored := Outcome.stored (a := a) (m := m) (placed data length c) hne hnot hlength rfl
          hplaced (hconfined.trans hconfined')
        rw [← hview] at hstored
        exact hstored

/-! ## New arenas and freed ones -/

/-- An arena without chunks holds nothing. -/
theorem holds_nil (m : Blocks) : Holds {} m [] where
  current h := absurd rfl h
  chunk _ hc := absurd hc List.not_mem_nil
  blocks := List.nodup_nil
  length := rfl
  entry _ _ _ _ hx := by cases hx
  distinct := List.Pairwise.nil
  index h i := by
    rw [HashIndex.bucket_empty]
    simp

theorem holds_create (m : Blocks) : Holds (create m).1 (create m).2 [] :=
  (holds_nil m).allocChunk _

/-- What an arena holds depends on its own blocks only. -/
theorem Holds.frame (h : Holds a m items) (hagree : ∀ c ∈ a.chunks, Blocks.Agree m m' c.data)
    (hnext : m.next ≤ m'.next) : Holds a m' items := by
  refine
    { h with
      chunk := fun c hc => ?_
      entry := fun i e x he hx => ?_ }
  · obtain ⟨hsize, hused, hlt⟩ := h.chunk c hc
    exact ⟨(hagree c hc).size.trans hsize, hused, hlt.trans_le hnext⟩
  · have hentry := h.entry i e x he hx
    obtain ⟨c, hc, haddress, -⟩ := hentry.inChunk
    refine hentry.mono (fun _ c hc => ⟨c, hc, rfl, le_rfl⟩) (Blocks.read_congr ?_ _)
    rw [haddress]
    exact hagree c (List.mem_of_getElem? hc)

theorem next_freeChunks (chunks : List Chunk) (m : Blocks) : (freeChunks chunks m).next =
    m.next := by
  unfold freeChunks
  induction chunks generalizing m with
  | nil => rfl
  | cons c chunks ih => exact ih _

theorem agree_freeChunks {chunks : List Chunk} {b : Nat} (hb : ∀ c ∈ chunks, c.data ≠ b)
    (m : Blocks) : Blocks.Agree m (freeChunks chunks m) b := by
  unfold freeChunks
  induction chunks generalizing m with
  | nil => exact .refl m b
  | cons c chunks ih =>
    have hfirst := Blocks.agree_free m (hb c List.mem_cons_self).symm
    exact hfirst.trans (ih (fun d hd => hb d (.tail _ hd)) _)

end Utf8StringArena

end Libca.Str
