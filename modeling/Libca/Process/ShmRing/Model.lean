import Libca.Common.Run
import Mathlib.Algebra.Group.Int.Defs
import Mathlib.Algebra.Group.Nat.Defs

/-!
# `ShmRingQueue`: the shared segment and the calls, one atomic access at a time

Model of `ShmRingQueue` (`process/ipc.hpp:188-365`, `process/ipc.cpp:1009-1557`): a single-writer,
multi-reader ring of message slots in a named shared-memory segment.

* `Ring` is the message part of the segment (`RingHeader::generation`, `write_seq`, and the slots)
  and `Owner` the writer's identity fields. `u64` counters are `Nat` with the wrap of
  `fetch_add` explicit (`u64Succ`). A payload is a function of the byte index, and the copies of
  `send` and `receive_for` move one byte a step.
* Each call is a machine over its own program counter (`EnsurePc`, `ResetPc`, `SendPc`, `RecvPc`,
  `ProbePc`, `ClosePc`): one atomic load, store or compare-exchange of the source is one step, and
  the thread-local work between two accesses belongs to the step before it. A machine's type says
  what it may write: `recvStep` returns no segment at all, `ensureStep` and `closeStep` only an
  `Owner`.
* The clock is an argument of every step, so heartbeat ages and deadlines are arbitrary.

A payload index past the slot's stride would fall into the next slot in memory; the model does not
follow it there, so results about messages ask that they fit `payload_capacity`.
-/

namespace Libca.Process.ShmRing

/-- A byte of a payload. -/
abbrev Byte := UInt8

/-- `x + 1` in `u64` arithmetic, as `fetch_add(1)` computes it. -/
def u64Succ (x : Nat) : Nat := (x + 1) % 2 ^ 64

/-- `static_cast<i64>` of a `u64`. -/
def toI64 (x : Nat) : Int := if x < 2 ^ 63 then x else (x : Int) - 2 ^ 64

/-! ## The shared segment -/

/-- `RingSlotState`. -/
inductive RingSlotState
  | empty
  | writing
  | committed
  deriving DecidableEq, Repr

/-- `RingSlotHeader` and the payload that follows it. -/
structure RingSlot where
  state : RingSlotState := .empty
  length : Nat := 0
  sequence : Nat := 0
  payload : Nat → Byte := fun _ => 0

/-- The message part of `RingHeader`, and the slots. -/
structure Ring where
  slotCount : Nat
  payloadCapacity : Nat
  generation : Nat
  writeSeq : Nat
  slots : Nat → RingSlot

/-- The writer's identity in `RingHeader`: `writer_slot`, `writer_birth`, `writer_heartbeat`. -/
structure Owner where
  writerSlot : Nat
  writerBirth : Nat
  writerHeartbeat : Nat

/-- The shared-memory segment. -/
structure Segment where
  ring : Ring
  owner : Owner

/-- `kRingWriterFree`. -/
def kRingWriterFree : Nat := 0

/-- `kRingWriterElecting`. -/
def kRingWriterElecting : Nat := 1

/-- `slot_at`: the slot a sequence number falls in. -/
def Ring.slotAt (r : Ring) (sequence : Nat) : RingSlot := r.slots (sequence % r.slotCount)

/-- A store to the slot at index `i`. -/
def Ring.storeSlot (r : Ring) (i : Nat) (f : RingSlot → RingSlot) : Ring :=
  { r with slots := fun j => if j = i then f (r.slots j) else r.slots j }

/-- A store to the slot of `sequence`. -/
def Ring.storeAt (r : Ring) (sequence : Nat) (f : RingSlot → RingSlot) : Ring :=
  r.storeSlot (sequence % r.slotCount) f

section Stores

variable (r : Ring) (i j sequence : Nat) (f : RingSlot → RingSlot)

@[simp] theorem Ring.slotCount_storeSlot : (r.storeSlot i f).slotCount = r.slotCount := rfl

@[simp] theorem Ring.payloadCapacity_storeSlot :
    (r.storeSlot i f).payloadCapacity = r.payloadCapacity := rfl

@[simp] theorem Ring.generation_storeSlot : (r.storeSlot i f).generation = r.generation := rfl

@[simp] theorem Ring.writeSeq_storeSlot : (r.storeSlot i f).writeSeq = r.writeSeq := rfl

@[simp] theorem Ring.slots_storeSlot :
    (r.storeSlot i f).slots j = if j = i then f (r.slots j) else r.slots j := rfl

@[simp] theorem Ring.slotAt_storeAt : (r.storeAt sequence f).slotAt sequence =
    f (r.slotAt sequence) := if_pos rfl

end Stores

/-! ## Processes -/

/-- `ProcessIdentity`: the pid and the birth stamp. -/
structure ProcessIdentity where
  pid : Nat
  birth : Nat
  deriving DecidableEq, Repr

/-- `ShmRingQueue::Options`, the fields a handle uses after `create` or `open`. -/
structure Options where
  maxMessageSize : Nat
  heartbeatInterval : Int
  heartbeatTimeout : Int

/-- The members of a `ShmRingQueue` object, and whether its segment is open. -/
structure Handle where
  isOpen : Bool := true
  readerAttached : Bool := false
  readerGeneration : Nat := 0
  readerNextSeq : Nat := 0
  writerClaimed : Bool := false
  writerPid : Nat := 0
  writerBirth : Nat := 0
  lastHeartbeatMs : Nat := 0

/-- The status codes the calls return. -/
inductive StatusCode
  | failedPrecondition
  | outOfRange
  | unavailable
  | dataLoss
  deriving DecidableEq, Repr

/-- An `ErrStatus`. -/
structure ErrStatus where
  code : StatusCode
  message : String
  deriving DecidableEq, Repr

/-- `heartbeat_stale`: a heartbeat of 0 was never refreshed; a clock behind it is not stale. -/
def heartbeatStale (heartbeat now : Nat) (timeout : Int) : Bool :=
  if heartbeat = 0 then true
  else if now < heartbeat then false
  else decide (timeout < toI64 (now - heartbeat))

/-! ## `ensure_writer_claimed` -/

/-- The accesses of `ensure_writer_claimed`. -/
inductive EnsurePc
  | loadSlot
  | loadOwnBirth
  | clearResidue
  | claim
  | storeBirth (now : Nat)
  | storeHeartbeat (now : Nat)
  | loadHeartbeat (held : Nat)
  | loadBirth (held : Nat)
  | elect (held : Nat)
  deriving DecidableEq, Repr

/-- What an access of `ensure_writer_claimed` leads to. -/
inductive EnsureNext
  | goto (pc : EnsurePc)
  | ok
  | err (status : ErrStatus)
  | resetRing

/-- One access of `ensure_writer_claimed` by the process `self`. `alive` is
`process_identity_alive` and `now` the clock. -/
def ensureStep (self : ProcessIdentity) (timeout : Int) (alive : Nat → Nat → Bool) (now : Nat)
    (o : Owner) (h : Handle) : EnsurePc → Owner × Handle × EnsureNext
  | .loadSlot =>
    let held := o.writerSlot
    if held = self.pid then (o, h, .goto .loadOwnBirth)
    else if held = kRingWriterFree then (o, h, .goto .claim)
    else if held = kRingWriterElecting then
      (o, h, .err ⟨.unavailable, "another process is taking over the ring queue"⟩)
    else (o, h, .goto (.loadHeartbeat held))
  | .loadOwnBirth =>
    if o.writerBirth = self.birth then (o, { h with writerClaimed := true }, .ok)
    else (o, h, .goto .clearResidue)
  | .clearResidue =>
    if o.writerSlot = self.pid then
      ({ o with writerSlot := kRingWriterFree }, h, .goto .loadSlot)
    else (o, h, .goto .loadSlot)
  | .claim =>
    if o.writerSlot = kRingWriterFree then
      ({ o with writerSlot := self.pid }, h, .goto (.storeBirth now))
    else (o, h, .goto .loadSlot)
  | .storeBirth t => ({ o with writerBirth := self.birth }, h, .goto (.storeHeartbeat t))
  | .storeHeartbeat t =>
    ({ o with writerHeartbeat := t }, { h with lastHeartbeatMs := t, writerClaimed := true }, .ok)
  | .loadHeartbeat held =>
    if heartbeatStale o.writerHeartbeat now timeout then (o, h, .goto (.loadBirth held))
    else (o, h, .err ⟨.unavailable, "another writer is active and its heartbeat is fresh"⟩)
  | .loadBirth held =>
    if alive held o.writerBirth then (o, h, .err ⟨.unavailable, "another writer is active"⟩)
    else (o, h, .goto (.elect held))
  | .elect held =>
    if o.writerSlot = held then ({ o with writerSlot := kRingWriterElecting }, h, .resetRing)
    else (o, h, .goto .loadSlot)

/-! ## `reset_if_writer_dead` -/

/-- The accesses of `reset_if_writer_dead` before the reset itself. -/
inductive ProbePc
  | loadSlot
  | loadHeartbeat (held : Nat)
  | loadBirth (held : Nat)
  | elect (held : Nat)
  deriving DecidableEq, Repr

/-- What an access of `reset_if_writer_dead` leads to. -/
inductive ProbeNext
  | goto (pc : ProbePc)
  | refused
  | resetRing

/-- One access of `reset_if_writer_dead` by the process `self`. -/
def probeStep (self : ProcessIdentity) (timeout : Int) (alive : Nat → Nat → Bool) (now : Nat)
    (o : Owner) : ProbePc → Owner × ProbeNext
  | .loadSlot =>
    let held := o.writerSlot
    if held = kRingWriterFree ∨ held = kRingWriterElecting ∨ held = self.pid then (o, .refused)
    else (o, .goto (.loadHeartbeat held))
  | .loadHeartbeat held =>
    if heartbeatStale o.writerHeartbeat now timeout then (o, .goto (.loadBirth held))
    else (o, .refused)
  | .loadBirth held =>
    if alive held o.writerBirth then (o, .refused) else (o, .goto (.elect held))
  | .elect held =>
    if o.writerSlot = held then ({ o with writerSlot := kRingWriterElecting }, .resetRing)
    else (o, .goto .loadSlot)

/-! ## `reset_ring` -/

/-- The accesses of `reset_ring`. The clock is read before the identity fields are stored. -/
inductive ResetPc
  | bumpGeneration
  | storeState (index : Nat)
  | storeLength (index : Nat)
  | storeSequence (index : Nat)
  | storeWriteSeq
  | storeBirth (now : Nat)
  | storeHeartbeat (now : Nat)
  | storeSlot (now : Nat)
  deriving DecidableEq, Repr

/-- The head of the slot loop of `reset_ring`. -/
def resetLoop (slotCount index : Nat) : ResetPc :=
  if index < slotCount then .storeState index else .storeWriteSeq

/-- One access of `reset_ring(self.pid, self.birth, claim)`; `none` as the next access ends it. -/
def resetStep (self : ProcessIdentity) (claim : Bool) (now : Nat) (g : Segment) (h : Handle) :
    ResetPc → Segment × Handle × Option ResetPc
  | .bumpGeneration =>
    ({ g with ring.generation := u64Succ g.ring.generation }, h,
      some (resetLoop g.ring.slotCount 0))
  | .storeState i =>
    ({ g with ring := g.ring.storeSlot i fun c => { c with state := .empty } }, h,
      some (.storeLength i))
  | .storeLength i =>
    ({ g with ring := g.ring.storeSlot i fun c => { c with length := 0 } }, h,
      some (.storeSequence i))
  | .storeSequence i =>
    ({ g with ring := g.ring.storeSlot i fun c => { c with sequence := 0 } }, h,
      some (resetLoop g.ring.slotCount (i + 1)))
  | .storeWriteSeq => ({ g with ring.writeSeq := 0 }, h, some (.storeBirth now))
  | .storeBirth t =>
    ({ g with owner.writerBirth := if claim then self.birth else 0 }, h, some (.storeHeartbeat t))
  | .storeHeartbeat t =>
    ({ g with owner.writerHeartbeat := if claim then t else 0 }, h, some (.storeSlot t))
  | .storeSlot t =>
    if claim then
      ({ g with owner.writerSlot := self.pid },
        { h with writerClaimed := true, lastHeartbeatMs := t, readerAttached := false }, none)
    else
      ({ g with owner.writerSlot := kRingWriterFree }, { h with readerAttached := false }, none)

/-! ## `send`, after the claim -/

/-- The accesses of `send` after `ensure_writer_claimed`. -/
inductive SendPc
  | loadWriteSeq
  | storeWriting (sequence : Nat)
  | copy (sequence index : Nat)
  | storeLength (sequence : Nat)
  | storeSequence (sequence : Nat)
  | storeCommitted (sequence : Nat)
  | addWriteSeq
  | refreshHeartbeat
  deriving DecidableEq, Repr

/-- The head of the payload copy of `send`: `memcpy` is skipped for an empty message. -/
def copyLoop (length sequence index : Nat) : SendPc :=
  if index < length then .copy sequence index else .storeLength sequence

/-- `refresh_heartbeat`: the last refresh, moved back when the clock is behind it. -/
def lastHeartbeat (h : Handle) (now : Nat) : Nat :=
  if now < h.lastHeartbeatMs then now else h.lastHeartbeatMs

/-- One access of `send(data)` after the claim; `none` as the next access ends it. The length is
stored through `static_cast<u32>`. -/
def sendStep (opts : Options) (data : List Byte) (now : Nat) (g : Segment) (h : Handle) :
    SendPc → Segment × Handle × Option SendPc
  | .loadWriteSeq => (g, h, some (.storeWriting g.ring.writeSeq))
  | .storeWriting q =>
    ({ g with ring := g.ring.storeAt q fun c => { c with state := .writing } }, h,
      some (copyLoop data.length q 0))
  | .copy q i =>
    ({ g with ring := g.ring.storeAt q fun c =>
        { c with payload := fun j => if j = i then data.getD i 0 else c.payload j } }, h,
      some (copyLoop data.length q (i + 1)))
  | .storeLength q =>
    ({ g with ring := g.ring.storeAt q fun c => { c with length := data.length % 2 ^ 32 } }, h,
      some (.storeSequence q))
  | .storeSequence q =>
    ({ g with ring := g.ring.storeAt q fun c => { c with sequence := q } }, h,
      some (.storeCommitted q))
  | .storeCommitted q =>
    ({ g with ring := g.ring.storeAt q fun c => { c with state := .committed } }, h,
      some .addWriteSeq)
  | .addWriteSeq => ({ g with ring.writeSeq := u64Succ g.ring.writeSeq }, h, some .refreshHeartbeat)
  | .refreshHeartbeat =>
    if h.writerClaimed = false then (g, h, none)
    else
      let last := lastHeartbeat h now
      if toI64 (now - last) < opts.heartbeatInterval then
        (g, { h with lastHeartbeatMs := last }, none)
      else ({ g with owner.writerHeartbeat := now }, { h with lastHeartbeatMs := now }, none)

/-! ## `receive_for` -/

/-- The accesses of `attach_reader` and of the loop of `receive_for`. -/
inductive RecvPc
  | attachGeneration
  | attachWriteSeq
  | checkGeneration
  | loadState
  | loadSequence
  | loadLength
  | copy (length : Nat) (message : List Byte)
  | loadHeld (state : RingSlotState)
  | loadBirth (state : RingSlotState) (held : Nat)
  deriving DecidableEq, Repr

/-- What an access of `receive_for` leads to. -/
inductive RecvNext
  | goto (pc : RecvPc)
  | message (bytes : List Byte)
  | none
  | err (status : ErrStatus)

/-- The tail of the waiting branch: give up at the deadline, otherwise look again. -/
def recvWait (now : Nat) (deadline : Int) : RecvNext :=
  if deadline ≤ toI64 now then .none else .goto .checkGeneration

/-- Hand out a complete message and move the cursor past it. -/
def recvDeliver (h : Handle) (bytes : List Byte) : Handle × RecvNext :=
  ({ h with readerNextSeq := u64Succ h.readerNextSeq }, .message bytes)

/-- One access of `receive_for`. The segment is only read. -/
def recvStep (alive : Nat → Nat → Bool) (now : Nat) (deadline : Int) (g : Segment) (h : Handle) :
    RecvPc → Handle × RecvNext
  | .attachGeneration =>
    ({ h with readerGeneration := g.ring.generation }, .goto .attachWriteSeq)
  | .attachWriteSeq =>
    let written := g.ring.writeSeq
    let retained := g.ring.slotCount
    ({ h with
        readerNextSeq := if retained < written then written - retained else 0
        readerAttached := true }, .goto .checkGeneration)
  | .checkGeneration =>
    if g.ring.generation = h.readerGeneration then (h, .goto .loadState)
    else (h, .err ⟨.failedPrecondition, "ring queue was reset by a takeover; reopen the queue"⟩)
  | .loadState =>
    match (g.ring.slotAt h.readerNextSeq).state with
    | .committed => (h, .goto .loadSequence)
    | state => (h, .goto (.loadHeld state))
  | .loadSequence =>
    let sequence := (g.ring.slotAt h.readerNextSeq).sequence
    if sequence = h.readerNextSeq then (h, .goto .loadLength)
    else (h, .err ⟨.dataLoss, "ring reader fell behind: slot sequence " ++ toString sequence ++
      " but expected " ++ toString h.readerNextSeq⟩)
  | .loadLength =>
    let length := (g.ring.slotAt h.readerNextSeq).length
    if g.ring.payloadCapacity < length then
      (h, .err ⟨.dataLoss, "ring slot length is corrupted"⟩)
    else if length = 0 then recvDeliver h []
    else (h, .goto (.copy length []))
  | .copy length bytes =>
    let bytes := bytes ++ [(g.ring.slotAt h.readerNextSeq).payload bytes.length]
    if bytes.length < length then (h, .goto (.copy length bytes)) else recvDeliver h bytes
  | .loadHeld state =>
    let held := g.owner.writerSlot
    if held ≠ kRingWriterFree ∧ held ≠ kRingWriterElecting then (h, .goto (.loadBirth state held))
    else (h, recvWait now deadline)
  | .loadBirth state held =>
    if alive held g.owner.writerBirth then (h, recvWait now deadline)
    else if state = .writing then
      ({ h with readerNextSeq := u64Succ h.readerNextSeq }, .goto .checkGeneration)
    else (h, .err ⟨.unavailable, "writer process is dead and the queue is drained"⟩)

/-! ## `close` -/

/-- The accesses of `close` by a handle that has claimed the queue. -/
inductive ClosePc
  | loadSlot
  | loadBirth
  | storeFree
  deriving DecidableEq, Repr

/-- One access of `close`; `none` as the next access ends it. -/
def closeStep (o : Owner) (h : Handle) : ClosePc → Owner × Option ClosePc
  | .loadSlot => (o, if o.writerSlot = h.writerPid then some .loadBirth else none)
  | .loadBirth => (o, if o.writerBirth = h.writerBirth then some .storeFree else none)
  | .storeFree => ({ o with writerSlot := kRingWriterFree }, none)

end Libca.Process.ShmRing
