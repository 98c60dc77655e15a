import Libca.Process.ShmRing.Model

/-!
# `ShmRingQueue`: processes over one segment (`process/ipc.cpp` 1101-1555)

`State.step` interleaves the machines of `Model`. A process starts with a handle on the queue, may
crash at any point (its task stays where it was, and it never moves again), calls `send`,
`receive_for`, `reset_if_writer_dead` and `close` while idle, and otherwise takes one atomic access
at a time. `process_identity_alive(pid, birth)` is `State.alive`; the stamp that it reads from
`/proc` is that of the identity, and 0 in both where `/proc` cannot be read.

Five fields are for specification only, and no access reads them:
* `claimant`: the process whose claim `writer_slot` records, the last one to have put its pid there
  or to have found its own claim in place;
* `seized`: the takeovers of a process that was still running, as pairs of taker and victim;
* `published` and `delivered`: what `send` has committed and what `receive_for` has handed out,
  each with a generation and a sequence number (for `delivered`, the reader's own);
* `Proc.holdsClaim`: `ensure_writer_claimed` has returned Ok to the process and it has neither
  closed the queue nor been refused since; `Proc.judgement`: what the process saw when it last
  loaded `writer_birth` to judge a writer dead.
-/

namespace Libca.Process.ShmRing

/-- A process of the system. -/
abbrev ProcId := Nat

/-- The queue's layout, and the identity and options of every process. The bounds are those of
`validate_ring_options` and `open`; pid 1 is `kRingWriterElecting`, which the source excludes. -/
structure Config where
  slotCount : Nat
  payloadCapacity : Nat
  identity : ProcId → ProcessIdentity
  options : ProcId → Options
  slotCount_pos : 0 < slotCount
  capacity_lt : payloadCapacity < 2 ^ 32
  two_le_pid : ∀ p, 2 ≤ (identity p).pid
  identity_injective : Function.Injective identity

/-- Who called `reset_ring`, and so whether it claims the queue. -/
inductive ResetCaller
  | ensureWriterClaimed (data : List Byte)
  | resetIfWriterDead
  deriving DecidableEq, Repr

/-- The `claim` argument of `reset_ring`. -/
def ResetCaller.claim : ResetCaller → Bool
  | .ensureWriterClaimed _ => true
  | .resetIfWriterDead => false

/-- What a process is executing. -/
inductive Task
  | idle
  | ensure (data : List Byte) (pc : EnsurePc)
  | probe (pc : ProbePc)
  | reset (caller : ResetCaller) (pc : ResetPc)
  | send (data : List Byte) (pc : SendPc)
  | recv (timeout deadline : Int) (pc : RecvPc)
  | close (pc : ClosePc)
  deriving DecidableEq, Repr

/-- What the last call returned. -/
inductive CallResult
  | status (r : Except ErrStatus Unit)
  | message (r : Except ErrStatus (Option (List Byte)))
  | flag (r : Except ErrStatus Bool)

/-- What a process saw when it last judged a writer dead. -/
structure Judgement where
  claimant : Option ProcId := none
  birth : Nat := 0

/-- A process: its handle and its task. -/
structure Proc where
  handle : Handle := {}
  task : Task := .idle
  result : Option CallResult := none
  holdsClaim : Bool := false
  judgement : Judgement := {}

/-- A message with its generation and sequence number. -/
structure Message where
  generation : Nat
  sequence : Nat
  payload : List Byte
  deriving DecidableEq, Repr

/-- The system. -/
structure State where
  seg : Segment
  running : List ProcId
  crashed : List ProcId
  procs : ProcId → Proc
  claimant : Option ProcId
  seized : List (ProcId × ProcId)
  published : List Message
  delivered : List Message

/-- The segment as `create` leaves it, with no process yet. -/
def State.init (c : Config) : State where
  seg :=
    { ring :=
        { slotCount := c.slotCount, payloadCapacity := c.payloadCapacity, generation := 1,
          writeSeq := 0, slots := fun _ => {} }
      owner := { writerSlot := kRingWriterFree, writerBirth := 0, writerHeartbeat := 0 } }
  running := []
  crashed := []
  procs := fun _ => {}
  claimant := none
  seized := []
  published := []
  delivered := []

/-- `process_identity_alive`: a pid below 2 is no writer's, and a stamp of 0, recorded or read, is
not compared. -/
def State.alive (c : Config) (s : State) (pid birth : Nat) : Bool :=
  decide (2 ≤ pid) && s.running.any fun p =>
    (c.identity p).pid = pid ∧
      (birth = 0 ∨ (c.identity p).birth = 0 ∨ (c.identity p).birth = birth)

/-- Replace the record of process `p`. -/
def State.setProc (s : State) (p : ProcId) (pr : Proc) : State :=
  { s with procs := fun q => if q = p then pr else s.procs q }

@[simp] theorem State.procs_setProc_self (s : State) (p : ProcId) (pr : Proc) :
    (s.setProc p pr).procs p = pr := if_pos rfl

/-- A store of process `p` to the writer's identity: when `writer_slot` changes, `p` is the
claimant of a pid and there is none of a free or elected slot. -/
def State.storeOwner (s : State) (p : ProcId) (o : Owner) : State :=
  { s with
    seg.owner := o
    claimant :=
      if o.writerSlot = s.seg.owner.writerSlot then s.claimant
      else if o.writerSlot = kRingWriterFree ∨ o.writerSlot = kRingWriterElecting then none
      else some p }

/-- Record that `p` has won the election against the current claimant. -/
def State.recordSeizure (s : State) (p : ProcId) : State :=
  { s with
    seized :=
      match s.claimant with
      | some v => if v ∈ s.running then (p, v) :: s.seized else s.seized
      | none => s.seized }

/-- What `p` sees when it loads `writer_birth`. -/
def State.judge (s : State) : Judgement := ⟨s.claimant, s.seg.owner.writerBirth⟩

/-- An access of `ensure_writer_claimed`. -/
def State.stepEnsure (c : Config) (s : State) (p : ProcId) (now : Nat) (data : List Byte)
    (pc : EnsurePc) : State :=
  let pr := s.procs p
  match ensureStep (c.identity p) (c.options p).heartbeatTimeout (s.alive c) now s.seg.owner
    pr.handle pc with
  | (o, h, .goto (.elect held)) =>
    (s.storeOwner p o).setProc p
      { pr with handle := h, task := .ensure data (.elect held), judgement := s.judge }
  | (o, h, .goto pc') =>
    (s.storeOwner p o).setProc p { pr with handle := h, task := .ensure data pc' }
  | (o, h, .ok) =>
    { (s.storeOwner p o).setProc p
        { pr with handle := h, task := .send data .loadWriteSeq, holdsClaim := true } with
      claimant := some p }
  | (o, h, .err e) =>
    (s.storeOwner p o).setProc p
      { pr with
        handle := h, task := .idle, holdsClaim := false, result := some (.status (.error e)) }
  | (o, h, .resetRing) =>
    ((s.recordSeizure p).storeOwner p o).setProc p
      { pr with handle := h, task := .reset (.ensureWriterClaimed data) .bumpGeneration }

/-- An access of `reset_if_writer_dead` before the reset. -/
def State.stepProbe (c : Config) (s : State) (p : ProcId) (now : Nat) (pc : ProbePc) : State :=
  let pr := s.procs p
  match probeStep (c.identity p) (c.options p).heartbeatTimeout (s.alive c) now s.seg.owner pc with
  | (o, .goto (.elect held)) =>
    (s.storeOwner p o).setProc p { pr with task := .probe (.elect held), judgement := s.judge }
  | (o, .goto pc') => (s.storeOwner p o).setProc p { pr with task := .probe pc' }
  | (o, .refused) =>
    (s.storeOwner p o).setProc p { pr with task := .idle, result := some (.flag (.ok false)) }
  | (o, .resetRing) =>
    ((s.recordSeizure p).storeOwner p o).setProc p
      { pr with task := .reset .resetIfWriterDead .bumpGeneration }

/-- An access of `reset_ring`. When it ends, `ensure_writer_claimed` returns Ok, or
`reset_if_writer_dead` returns true. -/
def State.stepReset (c : Config) (s : State) (p : ProcId) (now : Nat) (caller : ResetCaller)
    (pc : ResetPc) : State :=
  let pr := s.procs p
  match resetStep (c.identity p) caller.claim now s.seg pr.handle pc, caller with
  | (g, h, some pc'), _ =>
    ({ s with seg.ring := g.ring }.storeOwner p g.owner).setProc p
      { pr with handle := h, task := .reset caller pc' }
  | (g, h, none), .ensureWriterClaimed data =>
    ({ s with seg.ring := g.ring }.storeOwner p g.owner).setProc p
      { pr with handle := h, task := .send data .loadWriteSeq, holdsClaim := true }
  | (g, h, none), .resetIfWriterDead =>
    ({ s with seg.ring := g.ring }.storeOwner p g.owner).setProc p
      { pr with handle := h, task := .idle, result := some (.flag (.ok true)) }

/-- The message that a store of `Committed` publishes. -/
def publishedBy (g : Segment) (data : List Byte) : SendPc → List Message
  | .storeCommitted q => [⟨g.ring.generation, q, data⟩]
  | _ => []

/-- An access of `send` after the claim. -/
def State.stepSend (c : Config) (s : State) (p : ProcId) (now : Nat) (data : List Byte)
    (pc : SendPc) : State :=
  let pr := s.procs p
  let (g, h, next) := sendStep (c.options p) data now s.seg pr.handle pc
  { s with seg := g, published := publishedBy s.seg data pc ++ s.published }.setProc p
    (match next with
    | some pc' => { pr with handle := h, task := .send data pc' }
    | none => { pr with handle := h, task := .idle, result := some (.status (.ok ())) })

/-- The deadline of `receive_for`, once the handle is attached: a sum of `i64`. Where it leaves
`i64` the source is undefined; it is taken to wrap. -/
def recvDeadline (now : Nat) (timeout : Int) : Int := (toI64 now + max 0 timeout).bmod (2 ^ 64)

/-- The deadline after an access: it is computed when `attach_reader` has returned. -/
def deadlineAfter (now : Nat) (timeout deadline : Int) : RecvPc → Int
  | .attachWriteSeq => recvDeadline now timeout
  | _ => deadline

/-- An access of `receive_for`. -/
def State.stepRecv (c : Config) (s : State) (p : ProcId) (now : Nat) (timeout deadline : Int)
    (pc : RecvPc) : State :=
  let pr := s.procs p
  match recvStep (s.alive c) now deadline s.seg pr.handle pc with
  | (h, .goto pc') =>
    s.setProc p
      { pr with handle := h, task := .recv timeout (deadlineAfter now timeout deadline pc) pc' }
  | (h, .message bytes) =>
    { s with
      delivered := ⟨pr.handle.readerGeneration, pr.handle.readerNextSeq, bytes⟩ ::
        s.delivered }.setProc p
      { pr with handle := h, task := .idle, result := some (.message (.ok (some bytes))) }
  | (h, .none) =>
    s.setProc p { pr with handle := h, task := .idle, result := some (.message (.ok none)) }
  | (h, .err e) =>
    s.setProc p { pr with handle := h, task := .idle, result := some (.message (.error e)) }

/-- The handle after `close`. -/
def Handle.closed : Handle := { isOpen := false }

/-- An access of `close`. -/
def State.stepClose (s : State) (p : ProcId) (pc : ClosePc) : State :=
  let pr := s.procs p
  match closeStep s.seg.owner pr.handle pc with
  | (o, some pc') => (s.storeOwner p o).setProc p { pr with task := .close pc' }
  | (o, none) =>
    (s.storeOwner p o).setProc p
      { pr with handle := .closed, task := .idle, holdsClaim := false }

/-- One atomic access of process `p`; `none` when it is idle. -/
def State.stepProc (c : Config) (s : State) (p : ProcId) (now : Nat) : Option State :=
  match (s.procs p).task with
  | .idle => none
  | .ensure data pc => some (s.stepEnsure c p now data pc)
  | .probe pc => some (s.stepProbe c p now pc)
  | .reset caller pc => some (s.stepReset c p now caller pc)
  | .send data pc => some (s.stepSend c p now data pc)
  | .recv timeout deadline pc => some (s.stepRecv c p now timeout deadline pc)
  | .close pc => some (s.stepClose p pc)

/-- The calls of a process. -/
inductive Call
  | send (data : List Byte)
  | receiveFor (timeout : Int)
  | resetIfWriterDead
  | close
  | openQueue
  deriving DecidableEq, Repr

/-- The part of a call before its first access: the checks on the arguments and the handle. -/
def callStart (self : ProcessIdentity) (opts : Options) (now : Nat) (pr : Proc) : Call → Proc
  | .send data =>
    if pr.handle.isOpen = false then
      { pr with
        result := some (.status (.error ⟨.failedPrecondition, "send on a closed ring queue"⟩)) }
    else if opts.maxMessageSize < data.length then
      { pr with
        result :=
          some (.status (.error ⟨.outOfRange, "message exceeds slot payload capacity"⟩)) }
    else
      { pr with
        handle := { pr.handle with writerPid := self.pid, writerBirth := self.birth }
        task := .ensure data .loadSlot }
  | .receiveFor timeout =>
    if pr.handle.isOpen = false then
      { pr with
        result := some (.message (.error ⟨.failedPrecondition, "receive on a closed ring queue"⟩)) }
    else if pr.handle.readerAttached then
      { pr with task := .recv timeout (recvDeadline now timeout) .checkGeneration }
    else { pr with task := .recv timeout 0 .attachGeneration }
  | .resetIfWriterDead =>
    if pr.handle.isOpen = false then
      { pr with
        result := some (.flag (.error ⟨.failedPrecondition, "reset on a closed ring queue"⟩)) }
    else { pr with task := .probe .loadSlot }
  | .close =>
    if pr.handle.isOpen && pr.handle.writerClaimed then { pr with task := .close .loadSlot }
    else { pr with handle := .closed, holdsClaim := false }
  | .openQueue => if pr.handle.isOpen then pr else { pr with handle := {} }

/-- The actions of the system. -/
inductive Action
  | start (p : ProcId)
  | crash (p : ProcId)
  | call (p : ProcId) (k : Call) (now : Nat)
  | access (p : ProcId) (now : Nat)
  deriving DecidableEq, Repr

/-- One step of the system. -/
def State.step (c : Config) (s : State) : Action → Option State
  | .start p =>
    if p ∉ s.running ∧ p ∉ s.crashed ∧ ∀ q ∈ s.running, (c.identity q).pid ≠ (c.identity p).pid then
      some ({ s with running := p :: s.running }.setProc p {})
    else none
  | .crash p =>
    if p ∈ s.running then
      some { s with running := s.running.filter (· ≠ p), crashed := p :: s.crashed }
    else none
  | .call p k now =>
    if p ∈ s.running ∧ (s.procs p).task = .idle then
      some (s.setProc p (callStart (c.identity p) (c.options p) now (s.procs p) k))
    else none
  | .access p now => if p ∈ s.running then s.stepProc c p now else none

end Libca.Process.ShmRing
