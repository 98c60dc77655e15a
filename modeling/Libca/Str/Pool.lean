import Libca.Common.Run
import Libca.Str.Arena

/-!
# The string pool (`str/utf8_string_pool.cpp` 22-258)

`Utf8StringPool` shares strings between handles: an entry counts the handles that point to it and
goes with the last of them. A pool that goes first leaves its entries to the handles.

`Pools.step` is one operation on pools and handles; `fault` records the use of an entry that is
freed or of a pool that is gone.

Left out: allocation failure, the accessors of handles.
-/

namespace Libca.Str

open Common

/-- An entry on the heap: its bytes, how many code points they are, their hash, the count and the
pool that it belongs to. -/
structure PoolEntry where
  data : Bytes
  length : Nat
  hash : UInt64
  refCount : Nat
  owner : Option Nat

/-- A pool: its index of entries and its statistics. -/
structure Utf8StringPool where
  hashIndex : HashIndex UInt64 Nat := ∅
  activeCount : Nat := 0
  totalBytes : Nat := 0

/-- The heap entries by address, the pools by address and the handles; `none` in `handles` is a
handle that was destroyed. `freed` lists the entries that were freed. -/
structure Pools where
  entry : Nat → Option PoolEntry := fun _ => none
  next : Nat := 0
  pool : Nat → Option Utf8StringPool := fun _ => none
  handles : List (Option (Option Nat)) := []
  freed : List Nat := []
  fault : Bool := false

namespace Pools

def setEntry (s : Pools) (id : Nat) (e : PoolEntry) : Pools :=
  { s with entry := Function.update s.entry id (some e) }

def setPool (s : Pools) (p : Nat) (pool : Option Utf8StringPool) : Pools :=
  { s with pool := Function.update s.pool p pool }

def setHandle (s : Pools) (h : Nat) (handle : Option (Option Nat)) : Pools :=
  { s with handles := s.handles.set h handle }

/-- A new handle. -/
def newHandle (s : Pools) (entry : Option Nat) : Pools :=
  { s with handles := s.handles ++ [some entry] }

/-- `delete[] entry->data; delete entry`. -/
def deleteEntry (s : Pools) (id : Nat) : Pools :=
  { s with entry := Function.update s.entry id none, freed := id :: s.freed }

/-- `erase_entry`. -/
def eraseEntry (s : Pools) (p id : Nat) (e : PoolEntry) : Pools :=
  match s.pool p with
  | none => { s with fault := true }
  | some pool =>
    let pool : Utf8StringPool :=
      { hashIndex := pool.hashIndex.remove e.hash id
        activeCount := if pool.activeCount = 0 then pool.activeCount else pool.activeCount - 1
        totalBytes :=
          if e.data.length ≤ pool.totalBytes then pool.totalBytes - e.data.length
          else pool.totalBytes }
    (s.setPool p (some pool)).deleteEntry id

/-- The count of an entry goes down; the last handle frees it. -/
def releaseEntry (s : Pools) (id : Nat) : Pools :=
  match s.entry id with
  | none => { s with fault := true }
  | some e =>
    if e.refCount - 1 = 0 then
      match e.owner with
      | some p => s.eraseEntry p id e
      | none => s.deleteEntry id
    else s.setEntry id { e with refCount := e.refCount - 1 }

/-- `release`. The handle is left empty: every caller sets it or destroys it next. -/
def release (s : Pools) (h : Nat) : Pools :=
  match s.handles[h]? with
  | some (some (some id)) => (s.releaseEntry id).setHandle h (some none)
  | _ => s

/-- `acquire`. -/
def acquire (s : Pools) : Option Nat → Pools
  | none => s
  | some id =>
    match s.entry id with
    | none => { s with fault := true }
    | some e => s.setEntry id { e with refCount := e.refCount + 1 }

/-- Set the owner of entries. -/
def setOwner (s : Pools) (ids : List Nat) (owner : Option Nat) : Pools :=
  { s with
    entry := fun id => if id ∈ ids then (s.entry id).map fun e => { e with owner := owner }
    else s.entry id
    fault := s.fault || ids.any fun id => (s.entry id).isNone }

/-- `disown_all`. -/
def disownAll (s : Pools) (p : Nat) (pool : Utf8StringPool) : Pools :=
  (s.setOwner pool.hashIndex.values none).setPool p (some {})

/-- What both moves do: take the index of the source and point its entries here
(`repoint_entries`). -/
def takePool (s : Pools) (p source : Nat) (pool : Utf8StringPool) : Pools :=
  ((s.setOwner pool.hashIndex.values (some p)).setPool source (some {})).setPool p (some pool)

/-- The first entry of a bucket with the given bytes; `none` when the bucket has an entry that was
freed. -/
def findIn (s : Pools) (data : Bytes) : List Nat → Option (Option Nat)
  | [] => some none
  | id :: ids =>
    match s.entry id with
    | none => none
    | some e => if e.data.length = data.length ∧ e.data = data then some (some id)
      else s.findIn data ids

/-- What `find` and `intern` do with an entry that is found. -/
def hit (s : Pools) (id : Nat) : Pools := (s.acquire (some id)).newHandle (some id)

/-- `find`. -/
def find (s : Pools) (pool : Utf8StringPool) (data : Bytes) : Pools :=
  if data.length = 0 then s.newHandle none
  else
    match s.findIn data (pool.hashIndex.bucket (computeHash data)) with
    | none => { s with fault := true }
    | some (some id) => s.hit id
    | some none => s.newHandle none

/-- An entry as `intern` makes it, with one handle. -/
def newEntry (p : Nat) (data : Bytes) : PoolEntry :=
  { data := data
    length := countCodePoints data
    hash := computeHash data
    refCount := 1
    owner := some p }

/-- A new entry of the pool `p`, and its first handle. -/
def insert (s : Pools) (p : Nat) (pool : Utf8StringPool) (data : Bytes) : Pools :=
  let pool : Utf8StringPool :=
    { hashIndex := pool.hashIndex.push (computeHash data) s.next
      activeCount := pool.activeCount + 1
      totalBytes := pool.totalBytes + data.length }
  let made : Pools := { s with next := s.next + 1 }
  ((made.setEntry s.next (newEntry p data)).setPool p (some pool)).newHandle (some s.next)

/-- `intern`. A null pointer is the empty input. -/
def intern (s : Pools) (p : Nat) (pool : Utf8StringPool) (data : Bytes) : Pools :=
  if data.length = 0 then s.newHandle none
  else
    match s.findIn data (pool.hashIndex.bucket (computeHash data)) with
    | none => { s with fault := true }
    | some (some id) => s.hit id
    | some none => if countCodePoints data = 0 then s.newHandle none else s.insert p pool data

end Pools

/-- An operation of the program. Handles are numbered in the order in which they are made. -/
inductive PoolAction
  | construct (p : Nat)
  | destroy (p : Nat)
  | clear (p : Nat)
  | moveConstruct (p source : Nat)
  | moveAssign (p source : Nat)
  | intern (p : Nat) (data : Bytes)
  | find (p : Nat) (data : Bytes)
  | newHandle
  | copyHandle (source : Nat)
  | moveHandle (source : Nat)
  | copyAssignHandle (h source : Nat)
  | moveAssignHandle (h source : Nat)
  | destroyHandle (h : Nat)

namespace Pools

/-- The entry of a handle that is alive. -/
def handle (s : Pools) (h : Nat) : Option (Option Nat) := (s.handles[h]?).bind id

/-- Run one operation; `none` when an object that it needs does not exist, or one that it makes
does. -/
def step (s : Pools) : PoolAction → Option Pools
  | .construct p => if (s.pool p).isNone then some (s.setPool p (some {})) else none
  | .destroy p => (s.pool p).map fun pool => (s.disownAll p pool).setPool p none
  | .clear p => (s.pool p).map (s.disownAll p)
  | .moveConstruct p source =>
    if (s.pool p).isNone then (s.pool source).map (s.takePool p source) else none
  | .moveAssign p source =>
    (s.pool p).bind fun old =>
      if p = source then some s else (s.pool source).map ((s.disownAll p old).takePool p source)
  | .intern p data => (s.pool p).map fun pool => s.intern p pool data
  | .find p data => (s.pool p).map fun pool => s.find pool data
  | .newHandle => some (s.newHandle none)
  | .copyHandle source => (s.handle source).map fun entry => (s.acquire entry).newHandle entry
  | .moveHandle source =>
    (s.handle source).map fun entry => (s.setHandle source (some none)).newHandle entry
  | .copyAssignHandle h source =>
    (s.handle h).bind fun _ =>
      if h = source then some s
      else (s.handle source).map fun entry =>
        ((s.release h).setHandle h (some entry)).acquire entry
  | .moveAssignHandle h source =>
    (s.handle h).bind fun _ =>
      if h = source then some s
      else (s.handle source).map fun entry =>
        ((s.release h).setHandle h (some entry)).setHandle source (some none)
  | .destroyHandle h => (s.handle h).map fun _ => (s.release h).setHandle h none

end Pools

end Libca.Str
