import Libca.Process.ShmRing.Claim

/-!
# Message integrity of `ShmRingQueue` (`process/ipc.cpp` 1389-1492)

`receive_for` copies a payload without looking at the slot again, and the writer never waits for a
reader. `SlotStable` is the condition on an access under which a copy is undisturbed, and `RingInv`
the invariant of the runs whose accesses all meet it (and see whole claims):

* a committed slot holds a message that `send` has published in the present generation, unless a
  reset is clearing the slots (`slots`);
* a slot that `send` is filling is `Writing` and holds the bytes copied so far;
* a slot that `receive_for` is copying is `Committed` and holds a published message of the reader's
  generation and cursor, and what has been copied is a part of it (both in `procs`).

`integrity_of_stable` is the result, and `not_integrity` the run in which the writer laps a reader
between two bytes of its copy.
-/

namespace Libca.Process.ShmRing

open Common

/-- Every message handed out has been published under the same generation and sequence number. -/
def Integrity (s : State) : Prop := ∀ m ∈ s.delivered, m ∈ s.published

/-! ## When a copy is undisturbed -/

/-- The slots loop of `reset_ring`. -/
def Task.clearing : Task → Bool
  | .reset _ (.storeState _) => true
  | .reset _ (.storeLength _) => true
  | .reset _ (.storeSequence _) => true
  | _ => false

/-- A reset has begun to clear the slots and has not got through them; its process may be dead. -/
def State.Clearing (s : State) : Prop :=
  ∃ p ∈ s.running ++ s.crashed, (s.procs p).task.clearing = true

instance (s : State) : Decidable s.Clearing :=
  inferInstanceAs (Decidable (∃ p ∈ s.running ++ s.crashed, (s.procs p).task.clearing = true))

/-- The message a task is to send. -/
def Task.payload : Task → Option (List Byte)
  | .ensure data _ => some data
  | .reset (.ensureWriterClaimed data) _ => some data
  | .send data _ => some data
  | _ => none

/-- `receive_for` between the check of the sequence number and the end of its copy. -/
def Task.reading : Task → Bool
  | .recv _ _ .loadLength => true
  | .recv _ _ (.copy _ _) => true
  | _ => false

/-- The index of the slot that the next access overwrites first. -/
def Task.overwrites (n : Nat) : Task → Option Nat
  | .send _ (.storeWriting q) => some (q % n)
  | .reset _ (.storeState i) => some i
  | _ => none

/-- The slot a reader looks at. -/
def Proc.cursorSlot (n : Nat) (pr : Proc) : Nat := pr.handle.readerNextSeq % n

/-- `receive_for` about to check the sequence number. -/
def Task.checking : Task → Bool
  | .recv _ _ .loadSequence => true
  | _ => false

/-- The condition on an access under which copies are undisturbed.
* `check`: a reader that finds its sequence number in the slot finds it in a slot that is still
  committed, in the reader's generation, and not about to be cleared.
* `overwrite`: `send` and `reset_ring` enter a slot that no running reader is copying. -/
structure SlotStable (s : State) (p : ProcId) : Prop where
  check : (s.procs p).task.checking = true →
    (s.seg.ring.slotAt (s.procs p).handle.readerNextSeq).sequence =
      (s.procs p).handle.readerNextSeq →
    (s.seg.ring.slotAt (s.procs p).handle.readerNextSeq).state = .committed ∧
      s.seg.ring.generation = (s.procs p).handle.readerGeneration ∧ ¬ s.Clearing
  overwrite : ∀ i ∈ (s.procs p).task.overwrites s.seg.ring.slotCount, ∀ r ∈ s.running,
    (s.procs r).task.reading = true → (s.procs r).cursorSlot s.seg.ring.slotCount ≠ i

instance (s : State) (p : ProcId) : Decidable (SlotStable s p) :=
  decidable_of_iff
    (((s.procs p).task.checking = true →
      (s.seg.ring.slotAt (s.procs p).handle.readerNextSeq).sequence =
        (s.procs p).handle.readerNextSeq →
      (s.seg.ring.slotAt (s.procs p).handle.readerNextSeq).state = .committed ∧
        s.seg.ring.generation = (s.procs p).handle.readerGeneration ∧ ¬ s.Clearing) ∧
    ∀ i ∈ (s.procs p).task.overwrites s.seg.ring.slotCount, ∀ r ∈ s.running,
      (s.procs r).task.reading = true → (s.procs r).cursorSlot s.seg.ring.slotCount ≠ i)
    ⟨fun h => ⟨h.1, h.2⟩, fun h => ⟨h.1, h.2⟩⟩

/-- The condition on an action: claims are whole, copies are undisturbed, and messages fit the
slots. -/
def Stable (c : Config) (s : State) : Action → Prop
  | .access p now => ClaimSound c s (.access p now) ∧ SlotStable s p
  | .call _ (.send data) _ => data.length ≤ c.payloadCapacity
  | _ => True

instance (c : Config) (s : State) : ∀ a, Decidable (Stable c s a)
  | .access p now => inferInstanceAs (Decidable (ClaimSound c s (.access p now) ∧ SlotStable s p))
  | .call _ (.send data) _ => inferInstanceAs (Decidable (data.length ≤ c.payloadCapacity))
  | .call _ (.receiveFor _) _ => inferInstanceAs (Decidable True)
  | .call _ .resetIfWriterDead _ => inferInstanceAs (Decidable True)
  | .call _ .close _ => inferInstanceAs (Decidable True)
  | .call _ .openQueue _ => inferInstanceAs (Decidable True)
  | .start _ => inferInstanceAs (Decidable True)
  | .crash _ => inferInstanceAs (Decidable True)

theorem Stable.claimSound {c : Config} {s : State} {a : Action} (h : Stable c s a) :
    ClaimSound c s a := by
  cases a with
  | access p now => exact h.1
  | _ => trivial

/-! ## What the slots hold -/

/-- The first `i` bytes of `data` are in the slot. -/
def CopiedTo (slot : RingSlot) (data : List Byte) (i : Nat) : Prop :=
  ∀ j < i, slot.payload j = data.getD j 0

/-- The slot holds `data`. -/
def Holds (slot : RingSlot) (data : List Byte) : Prop :=
  slot.length = data.length ∧ CopiedTo slot data data.length

/-- The slot holds the published message `m`. -/
def HoldsMessage (slot : RingSlot) (published : List Message) (m : Message) : Prop :=
  m ∈ published ∧ m.sequence = slot.sequence ∧ Holds slot m.payload

/-- A committed slot holds a published message of generation `generation`. -/
def SlotOk (published : List Message) (generation : Nat) (slot : RingSlot) : Prop :=
  slot.state = .committed → ∃ m, HoldsMessage slot published m ∧ m.generation = generation

/-- What the slot holds while `send` fills it. -/
def SendOk (r : Ring) (data : List Byte) : SendPc → Prop
  | .copy q i => (r.slotAt q).state = .writing ∧ CopiedTo (r.slotAt q) data i
  | .storeLength q => (r.slotAt q).state = .writing ∧ CopiedTo (r.slotAt q) data data.length
  | .storeSequence q => (r.slotAt q).state = .writing ∧ Holds (r.slotAt q) data
  | .storeCommitted q =>
    (r.slotAt q).state = .writing ∧ Holds (r.slotAt q) data ∧ (r.slotAt q).sequence = q
  | _ => True

/-- What the slot holds while `receive_for` copies it. -/
def RecvOk (r : Ring) (published : List Message) (h : Handle) : RecvPc → Prop
  | .loadLength => (r.slotAt h.readerNextSeq).state = .committed ∧
      ∃ m, HoldsMessage (r.slotAt h.readerNextSeq) published m ∧
        m.generation = h.readerGeneration ∧ m.sequence = h.readerNextSeq
  | .copy length bytes => (r.slotAt h.readerNextSeq).state = .committed ∧
      ∃ m, HoldsMessage (r.slotAt h.readerNextSeq) published m ∧
        m.generation = h.readerGeneration ∧ m.sequence = h.readerNextSeq ∧
        length = m.payload.length ∧ bytes = m.payload.take bytes.length ∧ bytes.length < length
  | _ => True

/-- How far a reset has cleared the slots. -/
def ClearOk (r : Ring) : ResetPc → Prop
  | .storeState i => i < r.slotCount ∧ ∀ j < i, (r.slots j).state = .empty
  | .storeLength i => ∀ j ≤ i, (r.slots j).state = .empty
  | .storeSequence i => ∀ j ≤ i, (r.slots j).state = .empty
  | _ => True

/-- What a task says about the slots, whether or not its process still runs. -/
def TaskClearOk (r : Ring) : Task → Prop
  | .reset _ pc => ClearOk r pc
  | _ => True

/-- What the task of a running process says about the slots. -/
def TaskRingOk (r : Ring) (published : List Message) (pr : Proc) : Prop :=
  match pr.task with
  | .send data pc => SendOk r data pc
  | .recv _ _ pc => RecvOk r published pr.handle pc
  | _ => True

/-- The invariant of the slots. -/
structure RingInv (c : Config) (s : State) : Prop where
  slotCount : s.seg.ring.slotCount = c.slotCount
  capacity : s.seg.ring.payloadCapacity = c.payloadCapacity
  slots : ¬ s.Clearing → ∀ i < c.slotCount,
    SlotOk s.published s.seg.ring.generation (s.seg.ring.slots i)
  clearing : ∀ p ∈ s.running ++ s.crashed, TaskClearOk s.seg.ring (s.procs p).task
  fits : ∀ p ∈ s.running, ∀ data ∈ (s.procs p).task.payload, data.length ≤ c.payloadCapacity
  procs : ∀ p ∈ s.running, TaskRingOk s.seg.ring s.published (s.procs p)
  delivered : Integrity s

variable {c : Config} {s s' : State} {p : ProcId} {pr : Proc}

/-! ## Accesses outside the slots -/

/-- A task inside the slots: the fields of one are half written, half read or half cleared. -/
def Task.inSlots : Task → Bool
  | .send _ (.copy _ _) => true
  | .send _ (.storeLength _) => true
  | .send _ (.storeSequence _) => true
  | .send _ (.storeCommitted _) => true
  | t => t.reading || t.clearing

theorem taskRingOk_of_not_inSlots (r : Ring) (published : List Message)
    (h : pr.task.inSlots = false) : TaskRingOk r published pr := by
  unfold TaskRingOk
  cases ht : pr.task with
  | send data pc => cases pc <;> first | trivial | (rw [ht] at h; cases h)
  | recv timeout deadline pc => cases pc <;> first | trivial | (rw [ht] at h; cases h)
  | _ => trivial

variable {t : Task}

theorem not_clearing_of_not_inSlots (h : t.inSlots = false) : t.clearing = false := by
  cases t with
  | reset caller pc => exact h
  | _ => rfl

theorem taskClearOk_of_not_clearing (r : Ring) (h : t.clearing = false) : TaskClearOk r t := by
  cases t with
  | reset caller pc => cases pc <;> trivial
  | _ => trivial

theorem not_clearing_of_not_reset (h : t.isReset = false) : t.clearing = false := by
  cases t with
  | reset => cases h
  | _ => rfl

/-- The slots loop of another process is still on. -/
theorem clearing_of_accessed (hm : Accessed s s' p pr) (hold : (s.procs p).task.clearing = false)
    (h : s.Clearing) : s'.Clearing := by
  obtain ⟨q, hq, hc⟩ := h
  refine ⟨q, by rwa [hm.running, hm.crashed], ?_⟩
  rw [hm.procs, if_neg]
  · exact hc
  · rintro rfl
    rw [hold] at hc
    cases hc

variable {r : Ring} {published : List Message}

theorem TaskRingOk.writeSeq (h : TaskRingOk r published pr)
    (w : Nat) : TaskRingOk { r with writeSeq := w } published pr := by
  unfold TaskRingOk at h ⊢
  cases ht : pr.task with
  | send data pc => rw [ht] at h; cases pc <;> exact h
  | recv timeout deadline pc => rw [ht] at h; cases pc <;> exact h
  | _ => trivial

theorem TaskClearOk.writeSeq (h : TaskClearOk r t) (w : Nat) :
    TaskClearOk { r with writeSeq := w } t := by
  cases t with
  | reset caller pc => cases pc <;> exact h
  | _ => trivial

/-- **The rule of accesses that leave the slots alone.** -/
theorem RingInv.quiet (hI : RingInv c s) (hm : Accessed s s' p pr) {w : Nat}
    (hring : s'.seg.ring = { s.seg.ring with writeSeq := w })
    (hpub : s'.published = s.published) (hold : (s.procs p).task.clearing = false)
    (hnew : pr.task.clearing = false)
    (hfits : ∀ data ∈ pr.task.payload, data.length ≤ c.payloadCapacity)
    (hproc : TaskRingOk s.seg.ring s.published pr) (hdel : Integrity s') : RingInv c s' where
  slotCount := by rw [hring]; exact hI.slotCount
  capacity := by rw [hring]; exact hI.capacity
  slots := by
    intro h
    rw [hpub, hring]
    exact hI.slots fun hc => h (clearing_of_accessed hm hold hc)
  clearing := by
    intro q hq
    rw [hm.running, hm.crashed] at hq
    rw [hring, hm.procs]
    split_ifs
    · exact taskClearOk_of_not_clearing _ hnew
    · exact (hI.clearing q hq).writeSeq w
  fits := by
    intro q hq
    rw [hm.running] at hq
    rw [hm.procs]
    split_ifs
    · exact hfits
    · exact hI.fits q hq
  procs := by
    intro q hq
    rw [hm.running] at hq
    rw [hring, hpub, hm.procs]
    split_ifs
    · exact hproc.writeSeq w
    · exact (hI.procs q hq).writeSeq w
  delivered := hdel

/-- An access that leaves the slots alone and its process outside them. -/
structure Outside (s s' : State) (p : ProcId) (pr : Proc) : Prop extends Accessed s s' p pr where
  ring : ∃ w, s'.seg.ring = { s.seg.ring with writeSeq := w }
  published : s'.published = s.published
  delivered : s'.delivered = s.delivered
  payload : ∀ data ∈ pr.task.payload, data ∈ (s.procs p).task.payload
  inSlots : pr.task.inSlots = false

theorem RingInv.outside (hI : RingInv c s) (hp : p ∈ s.running) (h : Outside s s' p pr)
    (hold : (s.procs p).task.clearing = false) : RingInv c s' := by
  obtain ⟨w, hw⟩ := h.ring
  refine hI.quiet h.toAccessed hw h.published hold (not_clearing_of_not_inSlots h.inSlots)
    (fun data hd => hI.fits p hp data (h.payload data hd))
    (taskRingOk_of_not_inSlots _ _ h.inSlots) ?_
  unfold Integrity
  rw [h.delivered, h.published]
  exact hI.delivered

variable {now : Nat} {data : List Byte}

theorem outside_stepEnsure {pc : EnsurePc} (ht : (s.procs p).task = .ensure data pc) :
    ∃ pr, Outside s (s.stepEnsure c p now data pc) p pr := by
  have hd : ∀ d ∈ some data, d ∈ (s.procs p).task.payload := by
    rw [ht]
    exact fun _ h => h
  unfold State.stepEnsure
  dsimp only
  obtain ⟨o, h, next⟩ := ensureStep (c.identity p) (c.options p).heartbeatTimeout (s.alive c) now
    s.seg.owner (s.procs p).handle pc
  cases next with
  | goto pc' => cases pc' <;> exact ⟨_, ⟨rfl, rfl, fun _ => rfl⟩, ⟨_, rfl⟩, rfl, rfl, hd, rfl⟩
  | err e => exact ⟨_, ⟨rfl, rfl, fun _ => rfl⟩, ⟨_, rfl⟩, rfl, rfl, nofun, rfl⟩
  | _ => exact ⟨_, ⟨rfl, rfl, fun _ => rfl⟩, ⟨_, rfl⟩, rfl, rfl, hd, rfl⟩

theorem outside_stepProbe (now : Nat) (pc : ProbePc) :
    ∃ pr, Outside s (s.stepProbe c p now pc) p pr := by
  unfold State.stepProbe
  dsimp only
  obtain ⟨o, next⟩ := probeStep (c.identity p) (c.options p).heartbeatTimeout (s.alive c) now
    s.seg.owner pc
  cases next with
  | goto pc' => cases pc' <;> exact ⟨_, ⟨rfl, rfl, fun _ => rfl⟩, ⟨_, rfl⟩, rfl, rfl, nofun, rfl⟩
  | _ => exact ⟨_, ⟨rfl, rfl, fun _ => rfl⟩, ⟨_, rfl⟩, rfl, rfl, nofun, rfl⟩

theorem outside_stepClose (pc : ClosePc) : ∃ pr, Outside s (s.stepClose p pc) p pr := by
  unfold State.stepClose
  dsimp only
  obtain ⟨o, next⟩ := closeStep s.seg.owner (s.procs p).handle pc
  cases next <;> exact ⟨_, ⟨rfl, rfl, fun _ => rfl⟩, ⟨_, rfl⟩, rfl, rfl, nofun, rfl⟩

/-! ## `receive_for` -/

/-- What an access of `receive_for` leads to is outside the slots: no copy goes on or ends. -/
def RecvNext.outside : RecvNext → Bool
  | .goto .loadLength => false
  | .goto (.copy _ _) => false
  | .message _ => false
  | _ => true

theorem outside_stepRecv {timeout deadline : Int} {pc : RecvPc}
    (h : (recvStep (s.alive c) now deadline s.seg (s.procs p).handle pc).2.outside = true) :
    ∃ pr, Outside s (s.stepRecv c p now timeout deadline pc) p pr := by
  unfold State.stepRecv
  dsimp only
  cases hr : recvStep (s.alive c) now deadline s.seg (s.procs p).handle pc with | mk h' next
  rw [hr] at h
  cases next with
  | goto pc' =>
    cases pc' with
    | loadLength => cases h
    | copy => cases h
    | _ => exact ⟨_, ⟨rfl, rfl, fun _ => rfl⟩, ⟨_, rfl⟩, rfl, rfl, nofun, rfl⟩
  | message => cases h
  | _ => exact ⟨_, ⟨rfl, rfl, fun _ => rfl⟩, ⟨_, rfl⟩, rfl, rfl, nofun, rfl⟩

variable {slot : RingSlot}

/-- A copy that has read `bytes` reads the next byte of the message. -/
theorem take_succ_of_copiedTo {bytes : List Byte}
    (h : CopiedTo slot data data.length) (hb : bytes = data.take bytes.length)
    (hlt : bytes.length < data.length) :
    bytes ++ [slot.payload bytes.length] = data.take (bytes.length + 1) := by
  rw [h _ hlt, List.take_succ_eq_append_getElem hlt, ← hb, List.getD_eq_getElem?_getD,
    List.getElem?_eq_getElem hlt, Option.getD_some]

theorem ring_stepRecv (hI : RingInv c s) (hp : p ∈ s.running)
    {timeout deadline : Int} {pc : RecvPc} (ht : (s.procs p).task = .recv timeout deadline pc)
    (hok : SlotStable s p) : RingInv c (s.stepRecv c p now timeout deadline pc) := by
  have hold : (s.procs p).task.clearing = false := by rw [ht]; rfl
  have hT := hI.procs p hp
  unfold TaskRingOk at hT
  rw [ht] at hT
  have hpos := c.slotCount_pos
  -- the accesses that neither start nor end a copy
  have outside {pr : Proc} {s' : State} (h : Outside s s' p pr) : RingInv c s' :=
    hI.outside hp h hold
  -- the end of a copy hands out the message in the slot
  have deliver {h : Handle} {r : Option CallResult} {bytes : List Byte}
      (hm : ⟨(s.procs p).handle.readerGeneration, (s.procs p).handle.readerNextSeq, bytes⟩ ∈
        s.published) :
      RingInv c ({ s with delivered :=
        ⟨(s.procs p).handle.readerGeneration, (s.procs p).handle.readerNextSeq, bytes⟩ ::
          s.delivered }.setProc p { s.procs p with handle := h, task := .idle, result := r }) := by
    refine hI.quiet ⟨rfl, rfl, fun _ => rfl⟩ rfl rfl hold rfl nofun trivial fun m hm' => ?_
    rcases List.mem_cons.mp hm' with rfl | hm'
    · exact hm
    · exact hI.delivered m hm'
  have rest (h : (recvStep (s.alive c) now deadline s.seg (s.procs p).handle pc).2.outside = true) :
      RingInv c (s.stepRecv c p now timeout deadline pc) :=
    (outside_stepRecv h).elim fun _ ho => outside ho
  cases pc with
  | loadSequence =>
    unfold State.stepRecv recvStep
    dsimp only
    split_ifs with h1 <;> dsimp only
    · obtain ⟨hst, hgen, hnc⟩ := hok.check (by rw [ht]; rfl) h1
      refine hI.quiet ⟨rfl, rfl, fun _ => rfl⟩ rfl rfl hold rfl nofun ?_ hI.delivered
      obtain ⟨m, hm, hmg⟩ := hI.slots hnc ((s.procs p).handle.readerNextSeq % s.seg.ring.slotCount)
        (by rw [hI.slotCount]; exact Nat.mod_lt _ hpos) hst
      exact ⟨hst, m, hm, hmg.trans hgen, hm.2.1.trans h1⟩
    · exact outside ⟨⟨rfl, rfl, fun _ => rfl⟩, ⟨_, rfl⟩, rfl, rfl, nofun, rfl⟩
  | loadLength =>
    obtain ⟨hst, m, hm, hmg, hms⟩ := hT
    unfold State.stepRecv recvStep recvDeliver
    dsimp only
    split_ifs with h1 h2 <;> dsimp only
    · exact outside ⟨⟨rfl, rfl, fun _ => rfl⟩, ⟨_, rfl⟩, rfl, rfl, nofun, rfl⟩
    · refine deliver ?_
      have hnil : m.payload = [] := List.eq_nil_of_length_eq_zero (hm.2.2.1.symm.trans h2)
      rw [← hmg, ← hms, ← hnil]
      exact hm.1
    · refine hI.quiet ⟨rfl, rfl, fun _ => rfl⟩ rfl rfl hold rfl nofun ?_ hI.delivered
      exact ⟨hst, m, hm, hmg, hms, hm.2.2.1, rfl, Nat.pos_of_ne_zero h2⟩
  | copy length bytes =>
    obtain ⟨hst, m, hm, hmg, hms, rfl, hb, hlt⟩ := hT
    have hnext := take_succ_of_copiedTo hm.2.2.2 hb hlt
    unfold State.stepRecv recvStep recvDeliver
    dsimp only
    rw [hnext]
    split_ifs with h1 <;> dsimp only
    · refine hI.quiet ⟨rfl, rfl, fun _ => rfl⟩ rfl rfl hold rfl nofun ?_ hI.delivered
      have hlen : (m.payload.take (bytes.length + 1)).length = bytes.length + 1 := by
        rw [List.length_take]
        omega
      exact ⟨hst, m, hm, hmg, hms, rfl, by rw [hlen], h1⟩
    · refine deliver ?_
      have hall : m.payload.take (bytes.length + 1) = m.payload := by
        rw [List.length_take] at h1
        exact List.take_of_length_le (by omega)
      rw [hall, ← hmg, ← hms]
      exact hm.1
  | _ =>
    refine rest ?_
    unfold recvStep recvWait
    dsimp only
    (repeat' split) <;> rfl

/-! ## `send` -/

/-- No process is inside `reset_ring` while another one holds the claim. -/
theorem ClaimInv.not_reset (hC : ClaimInv c s) {v : ProcId} (hv : s.claimant = some v)
    (q : ProcId) :
    (s.procs q).task.isReset = false := by
  rw [← Bool.not_eq_true]
  intro h
  have hslot := (hC.claimant_slot v hv).1
  rw [(hC.elector q h).1] at hslot
  exact (isPid_pid c v).2 hslot.symm

variable {pc : SendPc}

/-- A process inside `send` has the claim. -/
theorem ClaimInv.claimant_of_send (hC : ClaimInv c s) (hp : p ∈ s.running)
    (ht : (s.procs p).task = .send data pc) : s.claimant = some p := by
  have hT := (hC.procs p hp).task
  unfold TaskOk at hT
  rw [ht] at hT
  exact (hC.procs p hp).holds hT

/-- What a running process says of the slots, when it is not `send` that it is in, survives a
change of the slots that spares the one it is copying. -/
theorem TaskRingOk.frame {r' : Ring} {published' : List Message}
    (h : TaskRingOk r published pr) (hn : r'.slotCount = r.slotCount)
    (hsend : ∀ data pc, pr.task ≠ .send data pc) (hslot : pr.task.reading = true →
      r'.slots (pr.cursorSlot r.slotCount) = r.slots (pr.cursorSlot r.slotCount))
    (hpub : ∀ m ∈ published, m ∈ published') : TaskRingOk r' published' pr := by
  have hat : pr.task.reading = true →
      r'.slotAt pr.handle.readerNextSeq = r.slotAt pr.handle.readerNextSeq := by
    unfold Ring.slotAt
    rw [hn]
    exact hslot
  unfold TaskRingOk at h ⊢
  cases ht : pr.task with
  | send data pc => exact absurd ht (hsend data pc)
  | recv timeout deadline pc =>
    rw [ht] at h hat
    cases pc with
    | loadLength =>
      obtain ⟨hst, m, hm, hmg⟩ := h
      unfold RecvOk HoldsMessage
      dsimp only
      rw [hat rfl]
      exact ⟨hst, m, ⟨hpub m hm.1, hm.2⟩, hmg⟩
    | copy length bytes =>
      obtain ⟨hst, m, hm, hmg⟩ := h
      unfold RecvOk HoldsMessage
      dsimp only
      rw [hat rfl]
      exact ⟨hst, m, ⟨hpub m hm.1, hm.2⟩, hmg⟩
    | _ => trivial
  | _ => trivial

theorem SlotOk.mono {published' : List Message} {g : Nat}
    (h : SlotOk published g slot) (hpub : ∀ m ∈ published, m ∈ published') :
    SlotOk published' g slot := by
  intro hst
  obtain ⟨m, hm, hg⟩ := h hst
  exact ⟨m, ⟨hpub m hm.1, hm.2⟩, hg⟩

/-- The slot a running reader is copying is committed. -/
theorem RingInv.committed_of_reading (hI : RingInv c s) {r : ProcId} (hr : r ∈ s.running)
    (h : (s.procs r).task.reading = true) :
    (s.seg.ring.slots ((s.procs r).cursorSlot s.seg.ring.slotCount)).state = .committed := by
  have hT := hI.procs r hr
  unfold TaskRingOk at hT
  cases ht : (s.procs r).task with
  | recv timeout deadline pc =>
    rw [ht] at hT h
    cases pc with
    | loadLength => exact hT.1
    | copy => exact hT.1
    | _ => cases h
  | _ => rw [ht] at h; cases h

/-- **The rule of stores to a slot by `send`.** No reader is copying the slot, and what it holds
afterwards is as it should be. -/
theorem RingInv.store (hI : RingInv c s) (hC : ClaimInv c s) (hp : p ∈ s.running)
    (ht : (s.procs p).task = .send data pc)
    (hm : Accessed s s' p pr) {q : Nat} (f : RingSlot → RingSlot)
    (hring : s'.seg.ring = s.seg.ring.storeAt q f)
    (hpub : ∀ m ∈ s.published, m ∈ s'.published) (hdel : s'.delivered = s.delivered)
    (hfree : ∀ r ∈ s.running, (s.procs r).task.reading = true →
      (s.procs r).cursorSlot s.seg.ring.slotCount ≠ q % s.seg.ring.slotCount)
    (hnew : SlotOk s'.published s.seg.ring.generation (f (s.seg.ring.slotAt q)))
    {pc' : SendPc} (hpr : pr.task = .send data pc')
    (hsend : SendOk (s.seg.ring.storeAt q f) data pc') : RingInv c s' := by
  have hcl := hC.claimant_of_send hp ht
  have hnr := hC.not_reset hcl
  refine ⟨by rw [hring]; exact hI.slotCount, by rw [hring]; exact hI.capacity, ?_, ?_, ?_, ?_, ?_⟩
  · intro _ i hi
    have hnc : ¬ s.Clearing := by
      rintro ⟨q, -, hq⟩
      rw [not_clearing_of_not_reset (hnr q)] at hq
      cases hq
    rw [hring]
    by_cases hiq : i = q % s.seg.ring.slotCount
    · rw [hiq]
      simpa [Ring.storeAt, Ring.slotAt] using hnew
    · simpa [Ring.storeAt, hiq] using (hI.slots hnc i hi).mono hpub
  · intro r hr
    rw [hm.procs]
    split_ifs
    · rw [hpr]
      trivial
    · exact taskClearOk_of_not_clearing _ (not_clearing_of_not_reset (hnr r))
  · intro r hr
    rw [hm.running] at hr
    rw [hm.procs]
    split_ifs
    · rw [hpr]
      have := hI.fits p hp
      rwa [ht] at this
    · exact hI.fits r hr
  · intro r hr
    rw [hm.running] at hr
    rw [hm.procs]
    split_ifs with hrp
    · unfold TaskRingOk
      rw [hpr, hring]
      exact hsend
    · refine (hI.procs r hr).frame (by rw [hring]; rfl) (fun d pc'' htr => ?_) (fun hrd => ?_) hpub
      · exact hrp (Option.some.inj ((hC.claimant_of_send hr htr).symm.trans hcl))
      · rw [hring, Ring.storeAt, Ring.slots_storeSlot, if_neg (hfree r hr hrd)]
  · intro m hm'
    rw [hdel] at hm'
    exact hpub m (hI.delivered m hm')

/-- The copy loop of `send` starts or goes on. -/
theorem sendOk_copyLoop {q i : Nat}
    (hw : (r.slotAt q).state = .writing) (hc : CopiedTo (r.slotAt q) data i) :
    SendOk r data (copyLoop data.length q i) := by
  unfold copyLoop
  split_ifs with h
  · exact ⟨hw, hc⟩
  · exact ⟨hw, fun j hj => hc j (by omega)⟩

theorem slotOk_of_writing {g : Nat} (h : slot.state = .writing) : SlotOk published g slot := by
  intro hc
  rw [h] at hc
  cases hc

theorem ring_stepSend (hI : RingInv c s) (hC : ClaimInv c s) (hp : p ∈ s.running)
    (ht : (s.procs p).task = .send data pc)
    (hok : SlotStable s p) : RingInv c (s.stepSend c p now data pc) := by
  have hold : (s.procs p).task.clearing = false := by rw [ht]; rfl
  have hfit : data.length ≤ c.payloadCapacity := hI.fits p hp data (by rw [ht]; rfl)
  have hd : ∀ d ∈ some data, d ∈ (s.procs p).task.payload := by
    rw [ht]
    exact fun _ h => h
  have hT := hI.procs p hp
  unfold TaskRingOk at hT
  rw [ht] at hT
  -- a slot that is not committed is not being copied
  have free {q : Nat} (hw : (s.seg.ring.slotAt q).state = .writing) : ∀ r ∈ s.running,
      (s.procs r).task.reading = true →
        (s.procs r).cursorSlot s.seg.ring.slotCount ≠ q % s.seg.ring.slotCount := by
    intro r hr hrd e
    have hst := hI.committed_of_reading hr hrd
    rw [e] at hst
    exact absurd (hst.symm.trans hw) (by decide)
  unfold State.stepSend sendStep
  cases pc with
  | loadWriteSeq =>
    exact hI.outside hp ⟨⟨rfl, rfl, fun _ => rfl⟩, ⟨_, rfl⟩, rfl, rfl, hd, rfl⟩ hold
  | storeWriting q =>
    refine hI.store hC hp ht ⟨rfl, rfl, fun _ => rfl⟩ (fun slot => { slot with state := .writing })
      rfl (fun _ h => h) rfl
      (hok.overwrite _ (by rw [ht]; rfl)) (slotOk_of_writing rfl) rfl
      (sendOk_copyLoop ?_ fun j hj => nomatch hj)
    rw [Ring.slotAt_storeAt]
  | copy q i =>
    obtain ⟨hw, hc⟩ := hT
    refine hI.store hC hp ht ⟨rfl, rfl, fun _ => rfl⟩ (fun slot =>
      { slot with payload := fun j => if j = i then data.getD i 0 else slot.payload j }) rfl
        (fun _ h => h) rfl (free hw)
      (slotOk_of_writing hw) rfl (sendOk_copyLoop ?_ ?_)
    · rwa [Ring.slotAt_storeAt]
    · intro j hj
      rw [Ring.slotAt_storeAt]
      dsimp only
      split_ifs with hji
      · rw [hji]
      · exact hc j (by omega)
  | storeLength q =>
    obtain ⟨hw, hc⟩ := hT
    refine hI.store hC hp ht ⟨rfl, rfl, fun _ => rfl⟩ (fun slot =>
      { slot with length := data.length % 2 ^ 32 }) rfl (fun _ h => h) rfl (free hw)
      (slotOk_of_writing hw) rfl ?_
    have hlen : data.length % 2 ^ 32 = data.length :=
      Nat.mod_eq_of_lt (Nat.lt_of_le_of_lt hfit c.capacity_lt)
    simp only [SendOk, Holds, Ring.slotAt_storeAt]
    exact ⟨hw, hlen, hc⟩
  | storeSequence q =>
    obtain ⟨hw, hh⟩ := hT
    refine hI.store hC hp ht ⟨rfl, rfl, fun _ => rfl⟩ (fun slot => { slot with sequence := q }) rfl
      (fun _ h => h) rfl (free hw)
      (slotOk_of_writing hw) rfl ?_
    simp only [SendOk, Ring.slotAt_storeAt]
    exact ⟨hw, hh, trivial⟩
  | storeCommitted q =>
    obtain ⟨hw, hh, hq⟩ := hT
    refine hI.store hC hp ht ⟨rfl, rfl, fun _ => rfl⟩ (fun slot =>
      { slot with state := .committed }) rfl (fun _ h => List.mem_append_right _ h) rfl
      (free hw) (fun _ => ⟨_, ⟨List.mem_append_left _ (.head _), ?_⟩, rfl⟩) rfl
      trivial
    exact ⟨hq.symm, hh⟩
  | addWriteSeq =>
    exact hI.outside hp ⟨⟨rfl, rfl, fun _ => rfl⟩, ⟨_, rfl⟩, rfl, rfl, hd, rfl⟩ hold
  | refreshHeartbeat =>
    dsimp only
    split_ifs <;>
      exact hI.outside hp ⟨⟨rfl, rfl, fun _ => rfl⟩, ⟨_, rfl⟩, rfl, rfl, nofun, rfl⟩ hold

/-! ## `reset_ring` -/

/-- **The rule of accesses in the slots loop of `reset_ring`.** The loop is still on, and no slot
being copied has been touched. -/
theorem RingInv.clear (hI : RingInv c s) (hC : ClaimInv c s) (hp : p ∈ s.running)
    (hreset : (s.procs p).task.isReset = true) (hm : Accessed s s' p pr)
    (hn : s'.seg.ring.slotCount = s.seg.ring.slotCount)
    (hcap : s'.seg.ring.payloadCapacity = s.seg.ring.payloadCapacity)
    (hpub : s'.published = s.published) (hdel : s'.delivered = s.delivered)
    (hfree : ∀ r ∈ s.running, (s.procs r).task.reading = true →
      s'.seg.ring.slots ((s.procs r).cursorSlot s.seg.ring.slotCount) =
        s.seg.ring.slots ((s.procs r).cursorSlot s.seg.ring.slotCount))
    (hslots : pr.task.clearing = true ∨
      ∀ i < c.slotCount, (s'.seg.ring.slots i).state = .empty)
    (hclear : TaskClearOk s'.seg.ring pr.task) (hpr : pr.task.isReset = true)
    (hfits : pr.task.payload = (s.procs p).task.payload) : RingInv c s' := by
  obtain ⟨hel, hu⟩ := hC.elector p hreset
  have hnone : s.claimant = none := hC.claimant_none fun h => h.2 hel
  refine ⟨hn.trans hI.slotCount, hcap.trans hI.capacity, ?_, ?_, ?_, ?_, ?_⟩
  · intro hnc i hi hst
    rcases hslots with hc | he
    · refine absurd ⟨p, ?_, ?_⟩ hnc
      · rw [hm.running]
        exact List.mem_append_left _ hp
      · rwa [hm.procs, if_pos rfl]
    · rw [he i hi] at hst
      cases hst
  · intro r hr
    rw [hm.procs]
    split_ifs with hrp
    · exact hclear
    · refine taskClearOk_of_not_clearing _ (not_clearing_of_not_reset ?_)
      rw [← Bool.not_eq_true]
      exact fun h => hrp (hu r h)
  · intro r hr
    rw [hm.running] at hr
    rw [hm.procs]
    split_ifs
    · rw [hfits]
      exact hI.fits p hp
    · exact hI.fits r hr
  · intro r hr
    rw [hm.running] at hr
    rw [hm.procs, hpub]
    split_ifs with hrp
    · unfold TaskRingOk
      cases ht : pr.task with
      | reset => trivial
      | _ => rw [ht] at hpr; cases hpr
    · refine (hI.procs r hr).frame hn (fun d pc htr => ?_) (hfree r hr) fun _ h => h
      have := hC.claimant_of_send hr htr
      rw [hnone] at this
      cases this
  · unfold Integrity
    rw [hdel, hpub]
    exact hI.delivered

theorem ring_stepReset (hI : RingInv c s) (hC : ClaimInv c s) (hp : p ∈ s.running)
    {caller : ResetCaller} {pc : ResetPc} (ht : (s.procs p).task = .reset caller pc)
    (hok : SlotStable s p) : RingInv c (s.stepReset c p now caller pc) := by
  have hreset : (s.procs p).task.isReset = true := by rw [ht]; rfl
  have hT := hI.clearing p (List.mem_append_left _ hp)
  rw [ht] at hT
  have hpay {pc' : ResetPc} : (Task.reset caller pc').payload = (s.procs p).task.payload := by
    rw [ht]
    cases caller <;> rfl
  have hd {pc' : ResetPc} : ∀ d ∈ (Task.reset caller pc').payload, d ∈ (s.procs p).task.payload :=
    fun d h => hpay ▸ h
  -- a slot that is empty is not being copied
  have free {i : Nat} (he : (s.seg.ring.slots i).state = .empty) : ∀ r ∈ s.running,
      (s.procs r).task.reading = true → (s.procs r).cursorSlot s.seg.ring.slotCount ≠ i := by
    intro r hr hrd e
    have hst := hI.committed_of_reading hr hrd
    rw [e] at hst
    exact absurd (hst.symm.trans he) (by decide)
  -- a store to a slot that is not being copied, inside the loop
  have store (i : Nat) (f : RingSlot → RingSlot) (pc' : ResetPc)
      (hfree : ∀ r ∈ s.running, (s.procs r).task.reading = true →
        (s.procs r).cursorSlot s.seg.ring.slotCount ≠ i)
      (hslots : (Task.reset caller pc').clearing = true ∨
        ∀ j < c.slotCount, ((s.seg.ring.storeSlot i f).slots j).state = .empty)
      (hclear : ClearOk (s.seg.ring.storeSlot i f) pc') :
      RingInv c (({ s with seg.ring := s.seg.ring.storeSlot i f }.storeOwner p s.seg.owner).setProc
        p
        { s.procs p with task := .reset caller pc' }) := by
    refine hI.clear hC hp hreset ⟨rfl, rfl, fun _ => rfl⟩ rfl rfl rfl rfl (fun r hr hrd =>
      ?_) hslots
      hclear rfl hpay
    exact (Ring.slots_storeSlot ..).trans (if_neg (hfree r hr hrd))
  unfold State.stepReset
  cases pc with
  | bumpGeneration =>
    have hn : 0 < s.seg.ring.slotCount := hI.slotCount.symm ▸ c.slotCount_pos
    have hloop : resetLoop s.seg.ring.slotCount 0 = .storeState 0 := if_pos hn
    unfold resetStep
    dsimp only
    rw [hloop]
    exact hI.clear hC hp hreset ⟨rfl, rfl, fun _ => rfl⟩ rfl rfl rfl rfl (fun _ _ _ => rfl)
      (.inl rfl) ⟨hn, fun j hj => nomatch hj⟩ rfl hpay
  | storeState i =>
    refine store i (fun slot => { slot with state := .empty }) (.storeLength i)
      (hok.overwrite i (by rw [ht]; rfl)) (.inl rfl) fun j hj => ?_
    rw [Ring.slots_storeSlot]
    split_ifs with h
    · rfl
    · exact hT.2 j (by omega)
  | storeLength i =>
    refine store i (fun slot => { slot with length := 0 }) (.storeSequence i)
      (free (hT i (Nat.le_refl i))) (.inl rfl) fun j hj => ?_
    rw [Ring.slots_storeSlot]
    split_ifs with h
    · exact hT j hj
    · exact hT j hj
  | storeSequence i =>
    have hempty : ∀ j ≤ i, ((s.seg.ring.storeSlot i fun slot =>
        { slot with sequence := 0 }).slots j).state = .empty := by
      intro j hj
      rw [Ring.slots_storeSlot]
      split_ifs with h
      · exact hT j hj
      · exact hT j hj
    refine store i (fun slot => { slot with sequence := 0 })
      (resetLoop s.seg.ring.slotCount (i + 1)) (free (hT i (Nat.le_refl i))) ?_ ?_
    · unfold resetLoop
      split_ifs with h
      · exact .inl rfl
      · rw [hI.slotCount] at h
        exact .inr fun j hj => hempty j (by omega)
    · unfold resetLoop
      split_ifs with h
      · exact ⟨h, fun j hj => hempty j (Nat.le_of_lt_succ hj)⟩
      · trivial
  | storeSlot t =>
    have hold : (s.procs p).task.clearing = false := by rw [ht]; rfl
    cases caller with
    | ensureWriterClaimed data =>
      refine hI.outside hp ⟨⟨rfl, rfl, fun _ => rfl⟩, ⟨_, rfl⟩, rfl, rfl, ?_, rfl⟩ hold
      rw [ht]
      exact fun _ h => h
    | resetIfWriterDead =>
      exact hI.outside hp ⟨⟨rfl, rfl, fun _ => rfl⟩, ⟨_, rfl⟩, rfl, rfl, nofun, rfl⟩ hold
  | _ =>
    have hold : (s.procs p).task.clearing = false := by rw [ht]; rfl
    exact hI.outside hp ⟨⟨rfl, rfl, fun _ => rfl⟩, ⟨_, rfl⟩, rfl, rfl, hd, rfl⟩ hold

/-! ## Runs -/

theorem ring_stepProc (hI : RingInv c s) (hC : ClaimInv c s) (hp : p ∈ s.running)
    (hok : SlotStable s p) (h : s.stepProc c p now = some s') : RingInv c s' := by
  unfold State.stepProc at h
  cases ht : (s.procs p).task <;> rw [ht] at h <;> cases h
  · obtain ⟨pr, ho⟩ := outside_stepEnsure ht
    exact hI.outside hp ho (by rw [ht]; rfl)
  · exact (outside_stepProbe now _).elim fun pr ho => hI.outside hp ho (by rw [ht]; rfl)
  · exact ring_stepReset hI hC hp ht hok
  · exact ring_stepSend hI hC hp ht hok
  · exact ring_stepRecv hI hp ht hok
  · exact (outside_stepClose _).elim fun pr ho => hI.outside hp ho (by rw [ht]; rfl)

/-- The start of a call is outside the slots, and takes on the message it is given at most. -/
theorem callStart_outside (self : ProcessIdentity) (opts : Options) (now : Nat)
    (hidle : pr.task = .idle) (k : Call) :
    (callStart self opts now pr k).task.inSlots = false ∧
      ∀ data ∈ (callStart self opts now pr k).task.payload, k = .send data := by
  cases k <;> unfold callStart <;> dsimp only <;> split_ifs
  all_goals first
    | (rw [hidle]; exact ⟨rfl, nofun⟩)
    | exact ⟨rfl, fun _ h => congrArg Call.send (Option.some.inj h)⟩
    | exact ⟨rfl, nofun⟩

theorem ring_start (hI : RingInv c s) (hr : p ∉ s.running) (hc : p ∉ s.crashed) :
    RingInv c ({ s with running := p :: s.running }.setProc p {}) where
  slotCount := hI.slotCount
  capacity := hI.capacity
  slots := by
    intro h
    refine hI.slots fun ⟨q, hq, hqc⟩ => h ⟨q, List.mem_cons_of_mem p hq, ?_⟩
    have hqp : q ≠ p := by
      rintro rfl
      exact (List.mem_append.mp hq).elim hr hc
    exact (congrArg (fun pr : Proc => pr.task.clearing) (if_neg hqp)).trans hqc
  clearing := by
    intro q hq
    change TaskClearOk s.seg.ring (if q = p then ({} : Proc) else s.procs q).task
    split_ifs with hqp
    · trivial
    · exact hI.clearing q (List.mem_of_ne_of_mem hqp hq)
  fits := by
    intro q hq
    change ∀ data ∈ (if q = p then ({} : Proc) else s.procs q).task.payload, _
    split_ifs with hqp
    · exact nofun
    · exact hI.fits q (List.mem_of_ne_of_mem hqp hq)
  procs := by
    intro q hq
    change TaskRingOk s.seg.ring s.published (if q = p then {} else s.procs q)
    split_ifs with hqp
    · trivial
    · exact hI.procs q (List.mem_of_ne_of_mem hqp hq)
  delivered := hI.delivered

theorem ring_crash (hI : RingInv c s) (hp : p ∈ s.running) :
    RingInv c { s with running := s.running.filter (· ≠ p), crashed := p :: s.crashed } := by
  have hmem (q : ProcId) : q ∈ s.running.filter (· ≠ p) ++ p :: s.crashed ↔
      q ∈ s.running ++ s.crashed := by
    simp only [List.mem_append, List.mem_filter, List.mem_cons, ne_eq, decide_eq_true_eq]
    by_cases hqp : q = p
    · simp [hqp, hp]
    · simp [hqp]
  exact {
    slotCount := hI.slotCount
    capacity := hI.capacity
    slots := fun h => hI.slots fun ⟨q, hq, hqc⟩ => h ⟨q, (hmem q).mpr hq, hqc⟩
    clearing := fun q hq => hI.clearing q ((hmem q).mp hq)
    fits := fun q hq => hI.fits q (List.mem_filter.mp hq).1
    procs := fun q hq => hI.procs q (List.mem_filter.mp hq).1
    delivered := hI.delivered }

theorem RingInv.init (c : Config) : RingInv c (.init c) where
  slotCount := rfl
  capacity := rfl
  slots _ _ _ h := nomatch h
  clearing := nofun
  fits := nofun
  procs := nofun
  delivered := nofun

theorem ring_step {a : Action} (hI : RingInv c s) (hC : ClaimInv c s) (hok : Stable c s a)
    (h : s.step c a = some s') : RingInv c s' := by
  cases a with
  | start p =>
    unfold State.step at h
    dsimp only at h
    split_ifs at h with h1
    cases h
    exact ring_start hI h1.1 h1.2.1
  | crash p =>
    unfold State.step at h
    dsimp only at h
    split_ifs at h with h1
    cases h
    exact ring_crash hI h1
  | call p k now =>
    unfold State.step at h
    dsimp only at h
    split_ifs at h with h1
    cases h
    obtain ⟨hin, hpay⟩ := callStart_outside (c.identity p) (c.options p) now h1.2 k
    refine hI.quiet ⟨rfl, rfl, fun _ => rfl⟩ rfl rfl (by rw [h1.2]; rfl)
      (not_clearing_of_not_inSlots hin) (fun data hd => ?_) (taskRingOk_of_not_inSlots _ _ hin)
      hI.delivered
    obtain rfl := hpay data hd
    exact hok
  | access p now =>
    unfold State.step at h
    dsimp only at h
    split_ifs at h with h1
    exact ring_stepProc hI hC h1 hok.2 h

/-- The states of the runs in which claims are whole, copies are undisturbed and messages fit. -/
def ReachableStable (c : Config) (s : State) : Prop :=
  Reach (State.step c) (Stable c) (.init c) s

/-- **Message integrity**, in the runs in which copies are undisturbed. -/
theorem integrity_of_stable (h : ReachableStable c s) : Integrity s := by
  have hI : ClaimInv c s ∧ RingInv c s := by
    refine h.invariant (fun s => ClaimInv c s ∧ RingInv c s) ⟨ClaimInv.init c, RingInv.init c⟩
      fun s a s' hI hok hs => ?_
    exact ⟨inv_step hI.1 hok.claimSound hs, ring_step hI.2 hI.1 hok hs⟩
  exact hI.2.delivered

/-- Process 0 sends "ab" and process 1 receives it. -/
def sendAndReceive : List Action :=
  [.start 0, .start 1, .call 0 (.send [97, 98]) 1] ++ accesses 0 13 1 ++
    [.call 1 (.receiveFor 0) 2] ++ accesses 1 8 2

/-- The witness: the message is handed out. -/
theorem integrity_of_stable_sendAndReceive :
    ∃ s, ReachableStable smallConfig s ∧ s.delivered = [⟨1, 0, [97, 98]⟩] ∧ Integrity s := by
  have hrun : (run (State.step smallConfig) (fun s a => decide (Stable smallConfig s a))
      sendAndReceive (.init smallConfig)).any
        (fun s => s.delivered = [⟨1, 0, [97, 98]⟩]) = true := by decide
  obtain ⟨s, hs, hp⟩ := Reach.exists_of_run (fun s a => of_decide_eq_true) hrun
  exact ⟨s, hs, of_decide_eq_true hp, integrity_of_stable hs⟩

/-- Process 0 sends "ab"; process 1 checks the slot and copies its first byte; process 0 sends "cd"
into the same slot; process 1 copies the second byte. -/
def lappedReader : List Action :=
  [.start 0, .start 1, .call 0 (.send [97, 98]) 1] ++ accesses 0 13 1 ++
    [.call 1 (.receiveFor 0) 2] ++ accesses 1 7 2 ++ [.call 0 (.send [99, 100]) 3] ++
    accesses 0 6 3 ++ accesses 1 1 4

/-- **A torn message.** One live writer and one reader, no reset: the reader is handed "ad". -/
theorem not_integrity : ¬ ∀ c s, ReachableSound c s → Integrity s := by
  intro h
  have hrun : (run (State.step smallConfig) (fun s a => decide (ClaimSound smallConfig s a))
      lappedReader (.init smallConfig)).any
        (fun s => s.delivered = [⟨1, 0, [97, 100]⟩] ∧ s.published = [⟨1, 0, [97, 98]⟩]) = true := by
    decide
  obtain ⟨s, hs, hp⟩ := Reach.exists_of_run (fun s a => of_decide_eq_true) hrun
  obtain ⟨hd, hpub⟩ : s.delivered = [⟨1, 0, [97, 100]⟩] ∧ s.published = [⟨1, 0, [97, 98]⟩] :=
    of_decide_eq_true hp
  have hmem : ⟨1, 0, [97, 100]⟩ ∈ s.published :=
    h _ s hs _ (by rw [hd]; exact .head _)
  rw [hpub] at hmem
  exact absurd hmem (by decide)

end Libca.Process.ShmRing
