import Libca.Process.ShmRing.Integrity

/-!
# `ShmRingQueue` as a FIFO of whole calls (`process/ipc.cpp` 1389-1492)

A writer and a reader call `send` and `receive_for`, each call running to its end before the next
one starts (`State.wholeCall`). `InCall` is what holds throughout such a run: the slots hold the
last `slot_count` messages sent, the others are empty, and the reader's cursor is not ahead of the
writer. `Completes` is total correctness of a call that has started: it ends whatever the clock
reads, in a state that satisfies the postcondition.

`receive_for` cannot tell a reader that has drained a full ring from one that has been lapped: both
look at a committed slot of another sequence number. `fifoAnswer_iff` says that this is the only
case in which it answers wrongly, `not_fifoAnswer` is a run that reaches it.
-/

namespace Libca.Process.ShmRing

open Common

/-! ## Whole calls -/

/-- A call of process `p` that starts at `now` and makes one access at each of `times`. -/
structure WholeCall where
  p : ProcId
  call : Call
  now : Nat
  times : List Nat

/-- The accesses of a call that has started, the last of which ends it. -/
def State.finish (c : Config) (p : ProcId) : List Nat → State → Option State
  | [], s => if (s.procs p).task = .idle then some s else none
  | t :: ts, s => (s.step c (.access p t)).bind (State.finish c p ts)

/-- A call, uninterrupted. -/
def State.wholeCall (c : Config) (s : State) (a : WholeCall) : Option State :=
  (s.step c (.call a.p a.call a.now)).bind (State.finish c a.p a.times)

/-- The queue just created, opened by a writer and a reader. -/
def State.opened (c : Config) (w r : ProcId) : State := { State.init c with running := [w, r] }

/-- The messages sent, in order. -/
def State.sent (s : State) : List (List Byte) := (s.published.map Message.payload).reverse

/-- The calls of the writer and the reader: messages fit the slots, and fewer than `2^64` of them
are sent. -/
def FifoCall (c : Config) (w r : ProcId) (s : State) (a : WholeCall) : Prop :=
  match a.call with
  | .send data => a.p = w ∧ data.length ≤ c.payloadCapacity ∧ s.sent.length + 1 < 2 ^ 64
  | .receiveFor _ => a.p = r
  | _ => False

instance (c : Config) (w r : ProcId) (s : State) (a : WholeCall) : Decidable (FifoCall c w r s a) :=
  match h : a.call with
  | .send data => decidable_of_iff
      (a.p = w ∧ data.length ≤ c.payloadCapacity ∧ s.sent.length + 1 < 2 ^ 64)
      (by unfold FifoCall; rw [h])
  | .receiveFor _ => decidable_of_iff (a.p = r) (by unfold FifoCall; rw [h])
  | .resetIfWriterDead => isFalse (by unfold FifoCall; rw [h]; exact id)
  | .close => isFalse (by unfold FifoCall; rw [h]; exact id)
  | .openQueue => isFalse (by unfold FifoCall; rw [h]; exact id)

/-- The states between the calls of a writer and a reader. -/
def ReachableCalls (c : Config) (w r : ProcId) (s : State) : Prop :=
  Reach (State.wholeCall c) (FifoCall c w r) (.opened c w r) s

/-! ## What holds throughout -/

/-- The slot holds message number `k`. -/
def SlotHolds (slot : RingSlot) (k : Nat) (data : List Byte) : Prop :=
  slot.state = .committed ∧ slot.sequence = k ∧ Holds slot data

/-- The part of a handle that `send` leaves alone. -/
def Handle.view (h : Handle) : Bool × Bool × Nat × Nat :=
  (h.isOpen, h.readerAttached, h.readerGeneration, h.readerNextSeq)

/-- The reader's cursor is in the present generation and not ahead of the writer. -/
def CursorOk (generation sent : Nat) (h : Handle) : Prop :=
  h.readerAttached = true → h.readerGeneration = generation ∧ h.readerNextSeq ≤ sent

/-- The ring holds the last of the messages `sent`, the slot `hole` apart. -/
structure Window (c : Config) (hole : Option Nat) (ring : Ring) (sent : List (List Byte)) :
    Prop where
  slotCount : ring.slotCount = c.slotCount
  capacity : ring.payloadCapacity = c.payloadCapacity
  retained : ∀ k m, sent[k]? = some m → sent.length ≤ k + c.slotCount →
    hole ≠ some (k % c.slotCount) → SlotHolds (ring.slots (k % c.slotCount)) k m
  unused : ∀ i < c.slotCount, sent.length ≤ i → hole ≠ some i → (ring.slots i).state = .empty
  fits : ∀ m ∈ sent, m.length ≤ c.payloadCapacity

/-- The queue is the writer's. -/
def Owned (c : Config) (w : ProcId) (o : Owner) : Prop :=
  o.writerSlot = (c.identity w).pid ∧ o.writerBirth = (c.identity w).birth

/-- What holds of the ring and its counter between calls. -/
structure Settled (c : Config) (ring : Ring) (sent : List (List Byte)) : Prop
    extends Window c none ring sent where
  writeSeq : ring.writeSeq = sent.length

/-- What holds at each access of `ensure_writer_claimed` by the writer. -/
def EnsureAt (c : Config) (w : ProcId) (o : Owner) : EnsurePc → Prop
  | .loadSlot => o.writerSlot = kRingWriterFree ∨ Owned c w o
  | .loadOwnBirth => Owned c w o
  | .claim => o.writerSlot = kRingWriterFree
  | .storeBirth _ => o.writerSlot = (c.identity w).pid
  | .storeHeartbeat _ => o.writerSlot = (c.identity w).pid ∧ o.writerBirth = (c.identity w).birth
  | _ => False

/-- A slot is being filled with the message that follows those sent. -/
structure Filling (c : Config) (ring : Ring) (sent : List (List Byte)) (q : Nat) : Prop
    extends Window c (some (q % c.slotCount)) ring sent where
  writeSeq : ring.writeSeq = sent.length
  next : q = sent.length

/-- What holds at each access of `send` by the writer. -/
def SendAt (c : Config) (ring : Ring) (sent : List (List Byte)) (data : List Byte) : SendPc → Prop
  | .loadWriteSeq => Settled c ring sent
  | .storeWriting q => Settled c ring sent ∧ q = sent.length
  | .copy q i => Filling c ring sent q ∧ SendOk ring data (.copy q i)
  | .storeLength q => Filling c ring sent q ∧ SendOk ring data (.storeLength q)
  | .storeSequence q => Filling c ring sent q ∧ SendOk ring data (.storeSequence q)
  | .storeCommitted q => Filling c ring sent q ∧ SendOk ring data (.storeCommitted q)
  | .addWriteSeq => Window c none ring sent ∧ ring.writeSeq + 1 = sent.length
  | .refreshHeartbeat => Settled c ring sent

/-- What holds at each access of `receive_for` by the reader. -/
def RecvAt (c : Config) (w : ProcId) (g : Segment) (sent : List (List Byte)) (h : Handle) :
    RecvPc → Prop
  | .attachGeneration => h.readerAttached = false
  | .attachWriteSeq => h.readerAttached = false ∧ h.readerGeneration = g.ring.generation
  | .checkGeneration => h.readerAttached = true
  | .loadState => h.readerAttached = true
  | .loadSequence =>
    h.readerAttached = true ∧ (g.ring.slotAt h.readerNextSeq).state = .committed
  | .loadLength => h.readerAttached = true ∧ h.readerNextSeq < sent.length
  | .copy _ _ => h.readerAttached = true ∧ h.readerNextSeq < sent.length
  | .loadHeld _ => h.readerAttached = true
  | .loadBirth _ held =>
    h.readerAttached = true ∧ held = (c.identity w).pid ∧ Owned c w g.owner

/-- What holds of the segment at each access of the calls of a writer and a reader. -/
def TaskAt (c : Config) (w r p : ProcId) (g : Segment) (sent : List (List Byte)) (h : Handle) :
    Task → Prop
  | .idle => Settled c g.ring sent ∧ (g.owner.writerSlot = kRingWriterFree ∨ Owned c w g.owner)
  | .ensure data pc => p = w ∧ Settled c g.ring sent ∧ EnsureAt c w g.owner pc ∧
      data.length ≤ c.payloadCapacity ∧ sent.length + 1 < 2 ^ 64
  | .send data pc => p = w ∧ SendAt c g.ring sent data pc ∧ Owned c w g.owner ∧
      data.length ≤ c.payloadCapacity ∧ (pc ≠ .addWriteSeq → pc ≠ .refreshHeartbeat →
        sent.length + 1 < 2 ^ 64)
  | .recv _ _ pc => p = r ∧ Settled c g.ring sent ∧
      (g.owner.writerSlot = kRingWriterFree ∨ Owned c w g.owner) ∧ RecvAt c w g sent h pc
  | _ => False

/-- The invariant while process `p` is in a call. -/
structure InCall (c : Config) (w r p : ProcId) (s : State) : Prop where
  running : s.running = [w, r]
  opened : ∀ q, (s.procs q).handle.isOpen = true
  idle : ∀ q, q ≠ p → (s.procs q).task = .idle
  bounded : s.sent.length < 2 ^ 64
  cursor : CursorOk s.seg.ring.generation s.sent.length (s.procs r).handle
  task : TaskAt c w r p s.seg s.sent (s.procs p).handle (s.procs p).task

variable {c : Config} {w r p : ProcId} {s s' : State} {pr : Proc}

/-! ## The calls keep the invariant -/

theorem CursorOk.view {g n n' : Nat} {h h' : Handle} (hc : CursorOk g n h) (hn : n ≤ n')
    (hv : h'.view = h.view) : CursorOk g n' h' := by
  obtain ⟨-, ha, hg, hs⟩ : h'.isOpen = h.isOpen ∧ h'.readerAttached = h.readerAttached ∧
      h'.readerGeneration = h.readerGeneration ∧ h'.readerNextSeq = h.readerNextSeq := by
    simpa [Handle.view] using hv
  unfold CursorOk
  rw [ha, hg, hs]
  exact fun h => ⟨(hc h).1, Nat.le_trans (hc h).2 hn⟩

variable {sent : List (List Byte)}

/-- The rule of the writer's accesses. -/
theorem InCall.writer (hI : InCall c w r p s) (hm : Accessed s s' p pr)
    (hview : pr.handle.view = (s.procs p).handle.view)
    (hgen : s'.seg.ring.generation = s.seg.ring.generation)
    (hsent : s'.sent = sent) (hle : s.sent.length ≤ sent.length)
    (hb : sent.length < 2 ^ 64) (htask : TaskAt c w r p s'.seg sent pr.handle pr.task) :
    InCall c w r p s' where
  running := hm.running.trans hI.running
  opened := by
    intro q
    rw [hm.procs]
    split_ifs
    · exact (congrArg Prod.fst hview).trans (hI.opened p)
    · exact hI.opened q
  idle := by
    intro q hq
    rw [hm.procs, if_neg hq]
    exact hI.idle q hq
  bounded := hsent ▸ hb
  cursor := by
    rw [hgen, hm.procs, hsent]
    split_ifs with h
    · subst h
      exact hI.cursor.view hle hview
    · exact hI.cursor.view hle rfl
  task := by
    rw [hm.procs, if_pos rfl, hsent]
    exact htask

/-- The rule of the reader's accesses. -/
theorem InCall.reader (hI : InCall c w r r s) (hm : Accessed s s' r pr) (hseg : s'.seg = s.seg)
    (hpub : s'.published = s.published) (hopen : pr.handle.isOpen = true)
    (hcur : CursorOk s.seg.ring.generation s.sent.length pr.handle)
    (htask : TaskAt c w r r s.seg s.sent pr.handle pr.task) : InCall c w r r s' := by
  have hsent : s'.sent = s.sent := by
    unfold State.sent
    rw [hpub]
  refine ⟨hm.running.trans hI.running, fun q => ?_, fun q hq => ?_, ?_, ?_, ?_⟩
  · rw [hm.procs]
    split_ifs
    · exact hopen
    · exact hI.opened q
  · rw [hm.procs, if_neg hq]
    exact hI.idle q hq
  · rw [hsent]
    exact hI.bounded
  · rw [hm.procs, if_pos rfl, hseg, hsent]
    exact hcur
  · rw [hm.procs, if_pos rfl, hseg, hsent]
    exact htask

variable {now : Nat} {data : List Byte}

theorem inCall_stepEnsure (hI : InCall c w r p s) {pc : EnsurePc}
    (ht : (s.procs p).task = .ensure data pc) : InCall c w r p (s.stepEnsure c p now data pc) := by
  have hT := hI.task
  rw [ht] at hT
  obtain ⟨rfl, hset, hat, hfit, hlt⟩ := hT
  have hpid := isPid_pid c p
  unfold State.stepEnsure ensureStep
  cases pc with
  | loadSlot =>
    rcases hat with h | h
    · have hne : s.seg.owner.writerSlot ≠ (c.identity p).pid := fun e => hpid.1 (e.symm.trans h)
      dsimp only
      rw [if_neg hne, if_pos h]
      dsimp only
      exact hI.writer ⟨rfl, rfl, fun _ => rfl⟩ rfl rfl rfl (Nat.le_refl _) hI.bounded
        ⟨rfl, hset, h, hfit, hlt⟩
    · dsimp only
      rw [if_pos h.1]
      dsimp only
      exact hI.writer ⟨rfl, rfl, fun _ => rfl⟩ rfl rfl rfl (Nat.le_refl _) hI.bounded
        ⟨rfl, hset, h, hfit, hlt⟩
  | loadOwnBirth =>
    dsimp only
    rw [if_pos hat.2]
    exact hI.writer ⟨rfl, rfl, fun _ => rfl⟩ rfl rfl rfl (Nat.le_refl _) hI.bounded
      ⟨rfl, hset, hat, hfit, fun _ _ => hlt⟩
  | claim =>
    have hfree : s.seg.owner.writerSlot = kRingWriterFree := hat
    dsimp only
    rw [if_pos hfree]
    exact hI.writer ⟨rfl, rfl, fun _ => rfl⟩ rfl rfl rfl (Nat.le_refl _) hI.bounded
      ⟨rfl, hset, rfl, hfit, hlt⟩
  | storeBirth t =>
    exact hI.writer ⟨rfl, rfl, fun _ => rfl⟩ rfl rfl rfl (Nat.le_refl _) hI.bounded
      ⟨rfl, hset, ⟨hat, rfl⟩, hfit, hlt⟩
  | storeHeartbeat t =>
    exact hI.writer ⟨rfl, rfl, fun _ => rfl⟩ rfl rfl rfl (Nat.le_refl _) hI.bounded
      ⟨rfl, hset, hat, hfit, fun _ _ => hlt⟩
  | clearResidue => exact hat.elim
  | loadHeartbeat => exact hat.elim
  | loadBirth => exact hat.elim
  | elect => exact hat.elim

variable {ring : Ring} {q : Nat}

/-- A store to the hole leaves the window as it was. -/
theorem Filling.store (h : Filling c ring sent q) (f : RingSlot → RingSlot) :
    Filling c (ring.storeAt q f) sent q where
  slotCount := h.slotCount
  capacity := h.capacity
  retained := by
    intro k m hk hle hhole
    unfold Ring.storeAt
    rw [h.slotCount, Ring.slots_storeSlot, if_neg fun e => hhole (congrArg some e.symm)]
    exact h.retained k m hk hle hhole
  unused := by
    intro i hi hle hhole
    unfold Ring.storeAt
    rw [h.slotCount, Ring.slots_storeSlot, if_neg fun e => hhole (congrArg some e.symm)]
    exact h.unused i hi hle hhole
  fits := h.fits
  writeSeq := h.writeSeq
  next := h.next

/-- A hole may be opened anywhere. -/
theorem Settled.filling
    (h : Settled c ring sent) (hq : q = sent.length) : Filling c ring sent q where
  slotCount := h.slotCount
  capacity := h.capacity
  retained k m hk hle _ := h.retained k m hk hle nofun
  unused i hi hle _ := h.unused i hi hle nofun
  fits := h.fits
  writeSeq := h.writeSeq
  next := hq

/-- **The hole is closed by the next message**: the window moves by one. -/
theorem Filling.commit (h : Filling c ring sent q) (hfit : data.length ≤ c.payloadCapacity)
    (hslot : SlotHolds (ring.slots (q % c.slotCount)) q data) :
    Window c none ring (sent ++ [data]) where
  slotCount := h.slotCount
  capacity := h.capacity
  retained := by
    intro k m hk hle _
    rw [List.length_append, List.length_singleton] at hle
    have hq := h.next
    by_cases hkq : k = q
    · subst hkq
      rw [hq, List.getElem?_append_right (Nat.le_refl _), Nat.sub_self] at hk
      obtain rfl : data = m := by simpa using hk
      exact hslot
    · have hklt : k < sent.length := by
        have := (List.getElem?_eq_some_iff.mp hk).1
        rw [List.length_append, List.length_singleton] at this
        omega
      rw [List.getElem?_append_left hklt] at hk
      refine h.retained k m hk (by omega) fun e => ?_
      -- two numbers less than a lap apart share a slot only if they are equal
      have hmod : q % c.slotCount = k % c.slotCount := Option.some.inj e
      obtain ⟨d, hd⟩ : c.slotCount ∣ q - k :=
        Nat.dvd_of_mod_eq_zero (Nat.sub_mod_eq_zero_of_mod_eq hmod)
      have hd1 : d = 0 := by
        by_contra hne
        have := Nat.le_mul_of_pos_right c.slotCount (Nat.pos_of_ne_zero hne)
        omega
      rw [hd1, Nat.mul_zero] at hd
      omega
  unused := by
    intro i hi hle _
    rw [List.length_append, List.length_singleton] at hle
    have hq := h.next
    refine h.unused i hi (by omega) fun e => ?_
    have hmod : q % c.slotCount = i := Option.some.inj e
    rw [Nat.mod_eq_of_lt (by omega)] at hmod
    omega
  fits := by
    intro m hm
    rcases List.mem_append.mp hm with hm | hm
    · exact h.fits m hm
    · rw [List.mem_singleton.mp hm]
      exact hfit

theorem sendAt_copyLoop {i : Nat}
    (h : Filling c ring sent q) (hw : (ring.slotAt q).state = .writing)
    (hc : CopiedTo (ring.slotAt q) data i) :
    SendAt c ring sent data (copyLoop data.length q i) := by
  have hok := sendOk_copyLoop hw hc
  unfold copyLoop at hok ⊢
  split_ifs at hok ⊢
  · exact ⟨h, hok⟩
  · exact ⟨h, hok⟩

theorem inCall_stepSend (hI : InCall c w r p s) {pc : SendPc}
    (ht : (s.procs p).task = .send data pc) : InCall c w r p (s.stepSend c p now data pc) := by
  have hT := hI.task
  rw [ht] at hT
  obtain ⟨rfl, hat, hown, hfit, hlt⟩ := hT
  unfold State.stepSend sendStep
  cases pc with
  | loadWriteSeq =>
    exact hI.writer ⟨rfl, rfl, fun _ => rfl⟩ rfl rfl rfl (Nat.le_refl _) hI.bounded
      ⟨rfl, ⟨hat, hat.writeSeq⟩, hown, hfit, fun _ _ => hlt (by simp) (by simp)⟩
  | storeWriting q =>
    have hF := (hat.1.filling hat.2).store fun slot => { slot with state := .writing }
    have hS : SendAt c (s.seg.ring.storeAt q fun slot => { slot with state := .writing }) s.sent
      data
        (copyLoop data.length q 0) :=
      sendAt_copyLoop hF (by rw [Ring.slotAt_storeAt]) fun j hj => absurd hj (Nat.not_lt_zero j)
    exact hI.writer ⟨rfl, rfl, fun _ => rfl⟩ rfl rfl rfl (Nat.le_refl _) hI.bounded
      ⟨rfl, hS, hown, hfit, fun _ _ => hlt (by simp) (by simp)⟩
  | copy q i =>
    obtain ⟨hF, hw, hc⟩ := hat
    have hS : SendAt c (s.seg.ring.storeAt q fun slot =>
        { slot with payload := fun j => if j = i then data.getD i 0 else slot.payload j }) s.sent
          data
        (copyLoop data.length q (i + 1)) := by
      refine sendAt_copyLoop (hF.store _) (by rwa [Ring.slotAt_storeAt]) fun j hj => ?_
      rw [Ring.slotAt_storeAt]
      dsimp only
      split_ifs with hji
      · rw [hji]
      · exact hc j (by omega)
    exact hI.writer ⟨rfl, rfl, fun _ => rfl⟩ rfl rfl rfl (Nat.le_refl _) hI.bounded
      ⟨rfl, hS, hown, hfit, fun _ _ => hlt (by simp) (by simp)⟩
  | storeLength q =>
    obtain ⟨hF, hw, hc⟩ := hat
    have hlen : data.length % 2 ^ 32 = data.length :=
      Nat.mod_eq_of_lt (Nat.lt_of_le_of_lt hfit c.capacity_lt)
    have hS : SendAt c (s.seg.ring.storeAt q fun slot =>
        { slot with length := data.length % 2 ^ 32 }) s.sent data (.storeSequence q) := by
      refine ⟨hF.store _, ?_⟩
      simp only [SendOk, Holds, Ring.slotAt_storeAt]
      exact ⟨hw, hlen, hc⟩
    exact hI.writer ⟨rfl, rfl, fun _ => rfl⟩ rfl rfl rfl (Nat.le_refl _) hI.bounded
      ⟨rfl, hS, hown, hfit, fun _ _ => hlt (by simp) (by simp)⟩
  | storeSequence q =>
    obtain ⟨hF, hw, hh⟩ := hat
    have hS : SendAt c (s.seg.ring.storeAt q fun slot => { slot with sequence := q }) s.sent data
        (.storeCommitted q) := by
      refine ⟨hF.store _, ?_⟩
      simp only [SendOk, Ring.slotAt_storeAt]
      exact ⟨hw, hh, trivial⟩
    exact hI.writer ⟨rfl, rfl, fun _ => rfl⟩ rfl rfl rfl (Nat.le_refl _) hI.bounded
      ⟨rfl, hS, hown, hfit, fun _ _ => hlt (by simp) (by simp)⟩
  | storeCommitted q =>
    obtain ⟨hF, hw, hh, hq⟩ := hat
    have hF' := hF.store fun slot => { slot with state := .committed }
    have hslot : SlotHolds ((s.seg.ring.storeAt q fun slot =>
        { slot with state := .committed }).slots (q % c.slotCount)) q data := by
      rw [← hF.slotCount]
      change SlotHolds (Ring.slotAt _ q) q data
      rw [Ring.slotAt_storeAt]
      exact ⟨rfl, hq, hh⟩
    have hlen : (s.sent ++ [data]).length = s.sent.length + 1 := List.length_append
    refine hI.writer ⟨rfl, rfl, fun _ => rfl⟩ rfl rfl ?_ (hlen ▸ Nat.le_succ _)
      (hlen ▸ hlt (by simp) (by simp)) ⟨rfl, ⟨hF'.commit hfit hslot, ?_⟩, hown, hfit, by simp⟩
    · exact List.reverse_cons
    · exact (congrArg (· + 1) hF.writeSeq).trans hlen.symm
  | addWriteSeq =>
    obtain ⟨hW, hws⟩ := hat
    refine hI.writer ⟨rfl, rfl, fun _ => rfl⟩ rfl rfl rfl (Nat.le_refl _) hI.bounded
      ⟨rfl, ⟨⟨hW.slotCount, hW.capacity, hW.retained, hW.unused, hW.fits⟩, ?_⟩, hown, hfit, by simp⟩
    have hb : s.sent.length < 2 ^ 64 := hI.bounded
    change u64Succ s.seg.ring.writeSeq = s.sent.length
    rw [u64Succ, hws, Nat.mod_eq_of_lt hb]
  | refreshHeartbeat =>
    dsimp only
    split_ifs <;>
      exact hI.writer ⟨rfl, rfl, fun _ => rfl⟩ rfl rfl rfl (Nat.le_refl _) hI.bounded
        ⟨hat, .inr hown⟩

/-- Once the ring has filled up, every slot holds one of the last messages. -/
theorem Window.full (h : Window c none ring sent)
    (hn : c.slotCount ≤ sent.length) {i : Nat} (hi : i < c.slotCount) :
    ∃ k m, sent[k]? = some m ∧ sent.length ≤ k + c.slotCount ∧ k % c.slotCount = i ∧
      SlotHolds (ring.slots i) k m := by
  have hd : (sent.length - 1 - i) % c.slotCount < c.slotCount := Nat.mod_lt _ (by omega)
  have hdle : (sent.length - 1 - i) % c.slotCount ≤ sent.length - 1 - i := Nat.mod_le _ _
  obtain ⟨k, hk⟩ : ∃ k, k = sent.length - 1 - (sent.length - 1 - i) % c.slotCount := ⟨_, rfl⟩
  have hki : k = i + c.slotCount * ((sent.length - 1 - i) / c.slotCount) := by
    have := Nat.mod_add_div (sent.length - 1 - i) c.slotCount
    omega
  have hmod : k % c.slotCount = i := by
    rw [hki, Nat.add_mul_mod_self_left, Nat.mod_eq_of_lt hi]
  have hlt : k < sent.length := by omega
  have hget : sent[k]? = some sent[k] := List.getElem?_eq_getElem hlt
  refine ⟨k, sent[k], hget, by omega, hmod, ?_⟩
  have := h.retained k _ hget (by omega) nofun
  rwa [hmod] at this

/-- A reader that has drained the queue does not find its sequence number. -/
theorem Window.lt_of_found (h : Window c none ring sent)
    (hle : q ≤ sent.length) (hst : (ring.slotAt q).state = .committed)
    (hq : (ring.slotAt q).sequence = q) : q < sent.length := by
  unfold Ring.slotAt at hst hq
  rw [h.slotCount] at hst hq
  have hi := Nat.mod_lt q c.slotCount_pos
  by_contra hge
  have hqe : q = sent.length := by omega
  by_cases hn : c.slotCount ≤ sent.length
  · obtain ⟨k, m, hk, -, -, hslot⟩ := h.full hn hi
    have hlt := (List.getElem?_eq_some_iff.mp hk).1
    have hkq : k = q := hslot.2.1.symm.trans hq
    omega
  · have hmod : q % c.slotCount = q := Nat.mod_eq_of_lt (by omega)
    have he := h.unused _ hi (by omega) nofun
    rw [hst] at he
    cases he

theorem alive_writer (h : s.running = [w, r]) :
    s.alive c (c.identity w).pid (c.identity w).birth = true :=
  alive_running (h ▸ List.mem_cons_self) (.inr (.inr rfl))

theorem inCall_stepRecv (hI : InCall c w r p s) {timeout deadline : Int} {pc : RecvPc}
    (ht : (s.procs p).task = .recv timeout deadline pc) :
    InCall c w r p (s.stepRecv c p now timeout deadline pc) := by
  have hT := hI.task
  rw [ht] at hT
  obtain ⟨rfl, hset, hown, hat⟩ := hT
  have hopen := hI.opened p
  have hcur := hI.cursor
  -- the end of the call, and another look at the slot
  have idle {h : Handle} {res : Option CallResult} {b : Bool} {j : Judgement}
      {s' : State} (hm : Accessed s s' p ⟨h, .idle, res, b, j⟩) (hs : s'.seg = s.seg)
      (hp : s'.published = s.published) (ho : h.isOpen = true)
      (hc : CursorOk s.seg.ring.generation s.sent.length h) : InCall c w p p s' :=
    hI.reader hm hs hp ho hc ⟨hset, hown⟩
  have goto {h : Handle} {pc' : RecvPc} {d : Int} (ho : h.isOpen = true)
      (hc : CursorOk s.seg.ring.generation s.sent.length h) (hr : RecvAt c w s.seg s.sent h pc') :
      InCall c w p p (s.setProc p { s.procs p with handle := h, task := .recv timeout d pc' }) :=
    hI.reader ⟨rfl, rfl, fun _ => rfl⟩ rfl rfl ho hc ⟨rfl, hset, hown, hr⟩
  have next {h : Handle} (hlt : h.readerNextSeq < s.sent.length)
      (hc : CursorOk s.seg.ring.generation s.sent.length h) :
      CursorOk s.seg.ring.generation s.sent.length
        { h with readerNextSeq := u64Succ h.readerNextSeq } := by
    intro ha
    have hb := hI.bounded
    refine ⟨(hc ha).1, ?_⟩
    dsimp only
    rw [u64Succ, Nat.mod_eq_of_lt (by omega)]
    exact hlt
  unfold State.stepRecv recvStep
  cases pc with
  | attachGeneration =>
    have hat : (s.procs p).handle.readerAttached = false := hat
    refine goto hopen (fun ha => ?_) ⟨hat, rfl⟩
    exact absurd (hat.symm.trans ha) Bool.false_ne_true
  | attachWriteSeq =>
    refine goto hopen (fun _ => ⟨hat.2, ?_⟩) rfl
    dsimp only
    have hws := hset.writeSeq
    split_ifs <;> omega
  | checkGeneration =>
    dsimp only
    split_ifs
    · exact goto hopen hcur hat
    · exact idle ⟨rfl, rfl, fun _ => rfl⟩ rfl rfl hopen hcur
  | loadState =>
    dsimp only
    cases hst : (s.seg.ring.slotAt (s.procs p).handle.readerNextSeq).state with
    | committed => exact goto hopen hcur ⟨hat, hst⟩
    | _ => exact goto hopen hcur hat
  | loadSequence =>
    dsimp only
    split_ifs with h1
    · exact goto hopen hcur ⟨hat.1, hset.lt_of_found (hcur hat.1).2 hat.2 h1⟩
    · exact idle ⟨rfl, rfl, fun _ => rfl⟩ rfl rfl hopen hcur
  | loadLength =>
    unfold recvDeliver
    dsimp only
    split_ifs
    · exact idle ⟨rfl, rfl, fun _ => rfl⟩ rfl rfl hopen hcur
    · exact idle ⟨rfl, rfl, fun _ => rfl⟩ rfl rfl hopen (next hat.2 hcur)
    · exact goto hopen hcur hat
  | copy length bytes =>
    unfold recvDeliver
    dsimp only
    split_ifs
    · exact goto hopen hcur hat
    · exact idle ⟨rfl, rfl, fun _ => rfl⟩ rfl rfl hopen (next hat.2 hcur)
  | loadHeld st =>
    unfold recvWait
    dsimp only
    split_ifs with h1
    · have how : Owned c w s.seg.owner := hown.resolve_left h1.1
      exact goto hopen hcur ⟨hat, how.1, how⟩
    · exact idle ⟨rfl, rfl, fun _ => rfl⟩ rfl rfl hopen hcur
    · exact goto hopen hcur hat
  | loadBirth st held =>
    obtain ⟨ha, rfl, how⟩ := hat
    unfold recvWait
    dsimp only
    rw [how.2, if_pos (alive_writer hI.running)]
    split_ifs
    · exact idle ⟨rfl, rfl, fun _ => rfl⟩ rfl rfl hopen hcur
    · exact goto hopen hcur ha

/-! ## Runs of whole calls -/

/-- The invariant between calls. -/
structure Between (c : Config) (w r : ProcId) (s : State) : Prop where
  running : s.running = [w, r]
  opened : ∀ q, (s.procs q).handle.isOpen = true
  idle : ∀ q, (s.procs q).task = .idle
  bounded : s.sent.length < 2 ^ 64
  cursor : CursorOk s.seg.ring.generation s.sent.length (s.procs r).handle
  settled : Settled c s.seg.ring s.sent
  owner : s.seg.owner.writerSlot = kRingWriterFree ∨ Owned c w s.seg.owner

theorem InCall.between (hI : InCall c w r p s) (h : (s.procs p).task = .idle) :
    Between c w r s := by
  have hT := hI.task
  rw [h] at hT
  refine ⟨hI.running, hI.opened, fun q => ?_, hI.bounded, hI.cursor, hT.1, hT.2⟩
  by_cases hq : q = p
  · rw [hq, h]
  · exact hI.idle q hq

theorem Between.inCall (hB : Between c w r s) (p : ProcId) : InCall c w r p s := by
  refine ⟨hB.running, hB.opened, fun q _ => hB.idle q, hB.bounded, hB.cursor, ?_⟩
  rw [hB.idle p]
  exact ⟨hB.settled, hB.owner⟩

theorem inCall_stepProc (hI : InCall c w r p s) (h : s.stepProc c p now = some s') :
    InCall c w r p s' := by
  have hT := hI.task
  unfold State.stepProc at h
  cases ht : (s.procs p).task <;> rw [ht] at h hT <;> cases h
  · exact inCall_stepEnsure hI ht
  · exact hT.elim
  · exact hT.elim
  · exact inCall_stepSend hI ht
  · exact inCall_stepRecv hI ht
  · exact hT.elim

theorem stepProc_of_access (h : s.step c (.access p now) = some s') :
    s.stepProc c p now = some s' := by
  unfold State.step at h
  dsimp only at h
  split_ifs at h
  exact h

theorem between_finish {ts : List Nat} (hI : InCall c w r p s)
    (h : State.finish c p ts s = some s') : Between c w r s' := by
  induction ts generalizing s with
  | nil =>
    unfold State.finish at h
    split_ifs at h with hidle
    cases h
    exact hI.between hidle
  | cons t ts ih =>
    obtain ⟨s₁, h1, h2⟩ := Option.bind_eq_some_iff.mp h
    exact ih (inCall_stepProc hI (stepProc_of_access h1)) h2

theorem inCall_call (hB : Between c w r s) {a : WholeCall} (hok : FifoCall c w r s a)
    (h : s.step c (.call a.p a.call a.now) = some s') : InCall c w r a.p s' := by
  unfold State.step at h
  dsimp only at h
  split_ifs at h with h1
  cases h
  have hI := hB.inCall a.p
  have hopen : ¬ (s.procs a.p).handle.isOpen = false := by
    rw [hB.opened a.p]
    decide
  unfold FifoCall at hok
  cases hc : a.call <;> rw [hc] at hok
  case send data =>
    obtain ⟨hp, hfit, hlt⟩ := hok
    unfold callStart
    dsimp only
    rw [if_neg hopen]
    split_ifs
    · refine hI.writer ⟨rfl, rfl, fun _ => rfl⟩ rfl rfl rfl (Nat.le_refl _) hB.bounded ?_
      rw [hB.idle a.p]
      exact ⟨hB.settled, hB.owner⟩
    · exact hI.writer ⟨rfl, rfl, fun _ => rfl⟩ rfl rfl rfl (Nat.le_refl _) hB.bounded
        ⟨hp, hB.settled, hB.owner, hfit, hlt⟩
  case receiveFor timeout =>
    subst hok
    unfold callStart
    dsimp only
    rw [if_neg hopen]
    split_ifs with ha
    · exact hI.reader ⟨rfl, rfl, fun _ => rfl⟩ rfl rfl (hB.opened a.p) hB.cursor
        ⟨rfl, hB.settled, hB.owner, ha⟩
    · exact hI.reader ⟨rfl, rfl, fun _ => rfl⟩ rfl rfl (hB.opened a.p) hB.cursor
        ⟨rfl, hB.settled, hB.owner, Bool.eq_false_iff.mpr ha⟩
  all_goals exact hok.elim

theorem between_opened (c : Config) (w r : ProcId) : Between c w r (.opened c w r) where
  running := rfl
  opened _ := rfl
  idle _ := rfl
  bounded := Nat.two_pow_pos 64
  cursor := nofun
  settled := ⟨⟨rfl, rfl, nofun, fun _ _ _ _ => rfl, nofun⟩, rfl⟩
  owner := .inl rfl

theorem ReachableCalls.between (h : ReachableCalls c w r s) : Between c w r s := by
  refine h.invariant _ (between_opened c w r) fun s a s' hB hok hs => ?_
  obtain ⟨s₁, h1, h2⟩ := Option.bind_eq_some_iff.mp hs
  exact between_finish (inCall_call hB hok h1) h2

/-! ## What `receive_for(0)` answers -/

/-- The call that process `p` is in ends, whatever the clock reads from `t` on, in a state that
satisfies `post`. -/
inductive Completes (c : Config) (p : ProcId) (post : State → Prop) : Nat → State → Prop
  | done {t : Nat} {s : State} : (s.procs p).task = .idle → post s → Completes c p post t s
  | access {t : Nat} {s : State} : (s.procs p).task ≠ .idle →
      (∀ t' s', t ≤ t' → t' < 2 ^ 63 → s.stepProc c p t' = some s' → Completes c p post t' s') →
      Completes c p post t s

/-- `receive_for(0)` by `r` returns, whatever the clock reads, a result that satisfies `post`
together with the state it leaves. -/
def Answers (c : Config) (r : ProcId) (s : State)
    (post : Except ErrStatus (Option (List Byte)) → State → Prop) : Prop :=
  ∀ now < 2 ^ 63, ∃ s₁, s.step c (.call r (.receiveFor 0) now) = some s₁ ∧
    Completes c r (fun s' => ∃ res, (s'.procs r).result = some (.message res) ∧ post res s') now s₁

/-- Process `r` is in `receive_for(0)`: the segment, the alive processes and its record. -/
structure Reading (c : Config) (r : ProcId) (g : Segment) (alive : Nat → Nat → Bool) (h : Handle)
    (deadline : Int) (pc : RecvPc) (s : State) : Prop where
  seg : s.seg = g
  alive : s.alive c = alive
  handle : (s.procs r).handle = h
  task : (s.procs r).task = .recv 0 deadline pc

section Reading

variable {g : Segment} {alive : Nat → Nat → Bool} {h h' : Handle} {deadline : Int} {pc pc' : RecvPc}
  {post : Except ErrStatus (Option (List Byte)) → State → Prop} {t : Nat}

theorem Reading.stepProc (hR : Reading c r g alive h deadline pc s) {t' : Nat}
    (hs : s.stepProc c r t' = some s') : s' = s.stepRecv c r t' 0 deadline pc := by
  unfold State.stepProc at hs
  rw [hR.task] at hs
  exact (Option.some.inj hs).symm

theorem Reading.goto (hR : Reading c r g alive h deadline pc s) (hpc : pc ≠ .attachWriteSeq)
    (hs : ∀ t', recvStep alive t' deadline g h pc = (h', .goto pc'))
    (hk : ∀ t' s', t ≤ t' → Reading c r g alive h' deadline pc' s' →
      Completes c r (fun s' => ∃ res, (s'.procs r).result = some (.message res) ∧
      post res s') t' s') :
    Completes c r (fun s' => ∃ res, (s'.procs r).result = some (.message res) ∧
      post res s') t s := by
  refine .access (by rw [hR.task]; exact Task.noConfusion) fun t' s' hle _ hst => ?_
  have hd : deadlineAfter t' 0 deadline pc = deadline := by
    cases pc <;> first | rfl | exact absurd rfl hpc
  refine hk t' s' hle ?_
  rw [hR.stepProc hst]
  unfold State.stepRecv
  dsimp only
  rw [hR.seg, hR.alive, hR.handle, hs t', hd]
  exact ⟨hR.seg, hR.alive, congrArg Proc.handle (State.procs_setProc_self ..),
    congrArg Proc.task (State.procs_setProc_self ..)⟩

/-- The last access of `receive_for(0)`. -/
theorem Reading.last (hR : Reading c r g alive h deadline pc s) {next : RecvNext}
    {res : Except ErrStatus (Option (List Byte))}
    (hs : ∀ t', t ≤ t' → t' < 2 ^ 63 → recvStep alive t' deadline g h pc = (h', next))
    (hres : next = .none ∧ res = .ok none ∨ (∃ e, next = .err e ∧ res = .error e) ∨
      ∃ bytes, next = .message bytes ∧ res = .ok (some bytes))
    (hpost : ∀ s', (s'.procs r).handle = h' → post res s') :
    Completes c r (fun s' => ∃ res, (s'.procs r).result = some (.message res) ∧
      post res s') t s := by
  refine .access (by rw [hR.task]; exact Task.noConfusion) fun t' s' hle hlt hst => ?_
  rw [hR.stepProc hst]
  unfold State.stepRecv
  dsimp only
  rw [hR.seg, hR.alive, hR.handle, hs t' hle hlt]
  rcases hres with ⟨rfl, rfl⟩ | ⟨e, rfl, rfl⟩ | ⟨bytes, rfl, rfl⟩
  all_goals
    refine .done (congrArg Proc.task (State.procs_setProc_self ..))
      ⟨_, congrArg Proc.result (State.procs_setProc_self ..), hpost _ ?_⟩
    exact congrArg Proc.handle (State.procs_setProc_self ..)

/-- A copy in progress ends with the message in the slot. -/
theorem Reading.copy {m : List Byte} (hslot : CopiedTo (g.ring.slotAt h.readerNextSeq) m m.length) :
    ∀ (k : Nat) {bytes : List Byte} {t : Nat} {s : State}, bytes.length + k = m.length → 0 < k →
      bytes = m.take bytes.length → Reading c r g alive h deadline (.copy m.length bytes) s →
      (∀ s', (s'.procs r).handle = { h with readerNextSeq := u64Succ h.readerNextSeq } →
        post (.ok (some m)) s') →
      Completes c r (fun s' => ∃ res, (s'.procs r).result = some (.message res) ∧ post res s') t s
  | 0, _, _, _, _, hk, _, _, _ => absurd hk (Nat.lt_irrefl 0)
  | k + 1, bytes, t, s, hlen, _, hb, hR, hpost => by
    have hnext := take_succ_of_copiedTo hslot hb (by omega)
    have htake : (m.take (bytes.length + 1)).length = bytes.length + 1 := by
      rw [List.length_take]
      omega
    by_cases hlt : bytes.length + 1 < m.length
    · have hs (t' : Nat) : recvStep alive t' deadline g h (.copy m.length bytes) =
          (h, .goto (.copy m.length (m.take (bytes.length + 1)))) := by
        unfold recvStep
        dsimp only
        rw [hnext, if_pos (by rwa [htake])]
      refine hR.goto nofun hs fun t' s' _ hR' => ?_
      exact Reading.copy hslot k (by omega) (by omega) (by rw [htake]) hR' hpost
    · refine hR.last (fun t' _ _ => ?_) (.inr (.inr ⟨m, rfl, rfl⟩)) hpost
      unfold recvStep recvDeliver
      dsimp only
      rw [hnext, if_neg (by rwa [htake]), List.take_of_length_le (by omega)]

end Reading

/-- `receive_for(0)` by an attached reader gets to its slot. -/
theorem Between.answers (hB : Between c w r s) (ha : (s.procs r).handle.readerAttached = true)
    {post : Except ErrStatus (Option (List Byte)) → State → Prop}
    (hk : ∀ (now t : Nat) (s₁ : State), now < 2 ^ 63 → now ≤ t →
      Reading c r s.seg (s.alive c) (s.procs r).handle (recvDeadline now 0) .loadState s₁ →
      Completes c r (fun s' => ∃ res, (s'.procs r).result = some (.message res) ∧ post res s')
        t s₁) : Answers c r s post := by
  intro now hnow
  have hcall : s.step c (.call r (.receiveFor 0) now) = some (s.setProc r
      { s.procs r with task := .recv 0 (recvDeadline now 0) .checkGeneration }) := by
    have hr : r ∈ s.running := by
      rw [hB.running]
      exact .tail _ (.head _)
    have hopen : ¬ (s.procs r).handle.isOpen = false := by
      rw [hB.opened r]
      decide
    unfold State.step callStart
    dsimp only
    rw [if_pos ⟨hr, hB.idle r⟩, if_neg hopen, if_pos ha]
  refine ⟨_, hcall, ?_⟩
  have hR : Reading c r s.seg (s.alive c) (s.procs r).handle (recvDeadline now 0) .checkGeneration
      (s.setProc r { s.procs r with task := .recv 0 (recvDeadline now 0) .checkGeneration }) :=
    ⟨rfl, rfl, by rw [State.procs_setProc_self], by rw [State.procs_setProc_self]⟩
  refine hR.goto nofun (fun t' => ?_) fun t' s' hle hR' => hk now t' s' hnow hle hR'
  unfold recvStep
  dsimp only
  rw [if_pos (hB.cursor ha).1.symm]

/-- The slot of the cursor is committed: `receive_for(0)` compares sequence numbers next. -/
theorem Between.answers_committed (hB : Between c w r s)
    (ha : (s.procs r).handle.readerAttached = true)
    (hst : (s.seg.ring.slotAt (s.procs r).handle.readerNextSeq).state = .committed)
    {post : Except ErrStatus (Option (List Byte)) → State → Prop}
    (hk : ∀ (t : Nat) (s₁ : State) (deadline : Int),
      Reading c r s.seg (s.alive c) (s.procs r).handle deadline .loadSequence s₁ →
      Completes c r (fun s' => ∃ res, (s'.procs r).result = some (.message res) ∧ post res s')
        t s₁) : Answers c r s post := by
  refine hB.answers ha fun now t s₁ _ _ hR => ?_
  refine hR.goto nofun (fun t' => ?_) fun t' s' _ hR' => hk t' s' _ hR'
  unfold recvStep
  dsimp only
  rw [hst]

/-- A committed slot of another sequence number is answered with DATA_LOSS. -/
theorem Between.answers_lapped (hB : Between c w r s)
    (ha : (s.procs r).handle.readerAttached = true)
    (hst : (s.seg.ring.slotAt (s.procs r).handle.readerNextSeq).state = .committed)
    (hne : (s.seg.ring.slotAt (s.procs r).handle.readerNextSeq).sequence ≠
      (s.procs r).handle.readerNextSeq) :
    Answers c r s fun res _ => ∃ e, res = .error e ∧ e.code = .dataLoss := by
  refine hB.answers_committed ha hst fun t s₁ deadline hR => ?_
  have hs : ∃ text, ∀ t', recvStep (s.alive c) t' deadline s.seg (s.procs r).handle .loadSequence =
      ((s.procs r).handle, .err ⟨.dataLoss, text⟩) := by
    exact ⟨_, fun t' => if_neg hne⟩
  obtain ⟨text, hs⟩ := hs
  exact hR.last (fun t' _ _ => hs t') (.inr (.inl ⟨_, rfl, rfl⟩)) fun s' _ => ⟨_, rfl, rfl⟩

/-- A retained message is answered. -/
theorem Between.answers_next (hB : Between c w r s)
    (ha : (s.procs r).handle.readerAttached = true) {m : List Byte}
    (hm : s.sent[(s.procs r).handle.readerNextSeq]? = some m)
    (hle : s.sent.length ≤ (s.procs r).handle.readerNextSeq + c.slotCount) :
    Answers c r s fun res s' => res = .ok (some m) ∧
      (s'.procs r).handle.readerNextSeq = (s.procs r).handle.readerNextSeq + 1 := by
  have hlt : (s.procs r).handle.readerNextSeq < s.sent.length := (List.getElem?_eq_some_iff.mp hm).1
  have hslot : SlotHolds (s.seg.ring.slotAt (s.procs r).handle.readerNextSeq)
      (s.procs r).handle.readerNextSeq m := by
    unfold Ring.slotAt
    rw [hB.settled.slotCount]
    exact hB.settled.retained _ m hm hle nofun
  obtain ⟨hst, hseq, hlen, hcopy⟩ := hslot
  have hfit : m.length ≤ c.payloadCapacity :=
    hB.settled.fits m (List.mem_of_getElem? hm)
  have hcap : ¬ s.seg.ring.payloadCapacity < m.length := by
    rw [hB.settled.capacity]
    omega
  have hsucc : u64Succ (s.procs r).handle.readerNextSeq = (s.procs r).handle.readerNextSeq + 1 := by
    have hb := hB.bounded
    exact Nat.mod_eq_of_lt (by omega)
  have hpost (s' : State) (h : (s'.procs r).handle = { (s.procs r).handle with
      readerNextSeq := u64Succ (s.procs r).handle.readerNextSeq }) :
      Except.ok (some m) = (.ok (some m) : Except ErrStatus (Option (List Byte))) ∧
        (s'.procs r).handle.readerNextSeq = (s.procs r).handle.readerNextSeq + 1 :=
    ⟨rfl, (congrArg Handle.readerNextSeq h).trans hsucc⟩
  refine hB.answers_committed ha hst fun t s₁ deadline hR => ?_
  have hs (t' : Nat) : recvStep (s.alive c) t' deadline s.seg (s.procs r).handle .loadSequence =
      ((s.procs r).handle, .goto .loadLength) := by
    unfold recvStep
    dsimp only
    rw [if_pos hseq]
  refine hR.goto nofun hs fun t₁ s₁ _ hR₁ => ?_
  by_cases hz : m.length = 0
  · refine hR₁.last (fun t' _ _ => ?_) (.inr (.inr ⟨m, rfl, rfl⟩)) hpost
    unfold recvStep recvDeliver
    dsimp only
    rw [hlen, if_neg hcap, if_pos hz, List.eq_nil_of_length_eq_zero hz]
  · have hs₁ (t' : Nat) : recvStep (s.alive c) t' deadline s.seg (s.procs r).handle .loadLength =
        ((s.procs r).handle, .goto (.copy m.length [])) := by
      unfold recvStep
      dsimp only
      rw [hlen, if_neg hcap, if_neg hz]
    refine hR₁.goto nofun hs₁ fun t₂ s₂ _ hR₂ => ?_
    exact Reading.copy hcopy m.length (Nat.zero_add _) (Nat.pos_of_ne_zero hz) rfl hR₂ hpost

/-- A drained reader of a ring that has not filled up is answered with no message. -/
theorem Between.answers_drained (hB : Between c w r s)
    (ha : (s.procs r).handle.readerAttached = true)
    (hst : (s.seg.ring.slotAt (s.procs r).handle.readerNextSeq).state = .empty) :
    Answers c r s fun res _ => res = .ok none := by
  refine hB.answers ha fun now t s₁ hnow hle hR => ?_
  have hs (t' : Nat) : recvStep (s.alive c) t' (recvDeadline now 0) s.seg (s.procs r).handle
      .loadState = ((s.procs r).handle, .goto (.loadHeld .empty)) := by
    unfold recvStep
    dsimp only
    rw [hst]
  have hwait (t' : Nat) (ht : now ≤ t') (hlt : t' < 2 ^ 63) :
      recvWait t' (recvDeadline now 0) = .none := by
    unfold recvWait recvDeadline toI64
    rw [if_pos hnow, if_pos hlt, Int.bmod_eq_of_le (by omega) (by omega), if_pos (by omega)]
  refine hR.goto nofun hs fun t₁ s₁ hle₁ hR₁ => ?_
  rcases hB.owner with hfree | how
  · have hs₁ (t' : Nat) (ht : now ≤ t') (hlt : t' < 2 ^ 63) : recvStep (s.alive c) t'
        (recvDeadline now 0) s.seg (s.procs r).handle (.loadHeld .empty) =
          ((s.procs r).handle, .none) := by
      unfold recvStep
      dsimp only
      rw [if_neg fun h => h.1 hfree, hwait t' ht hlt]
    exact hR₁.last (fun t' h => hs₁ t' (by omega)) (.inl ⟨rfl, rfl⟩) fun _ _ => rfl
  · have hpid : (c.identity w).pid ≠ kRingWriterFree ∧ (c.identity w).pid ≠ kRingWriterElecting :=
      isPid_pid c w
    have hs₁ (t' : Nat) : recvStep (s.alive c) t' (recvDeadline now 0) s.seg (s.procs r).handle
        (.loadHeld .empty) =
          ((s.procs r).handle, .goto (.loadBirth .empty (c.identity w).pid)) := by
      unfold recvStep
      dsimp only
      rw [how.1, if_pos hpid]
    have hs₂ (t' : Nat) (ht : now ≤ t') (hlt : t' < 2 ^ 63) : recvStep (s.alive c) t'
        (recvDeadline now 0) s.seg (s.procs r).handle (.loadBirth .empty (c.identity w).pid) =
          ((s.procs r).handle, .none) := by
      unfold recvStep
      dsimp only
      rw [how.2, if_pos (alive_writer hB.running), hwait t' ht hlt]
    refine hR₁.goto nofun hs₁ fun t₂ s₂ hle₂ hR₂ => ?_
    exact hR₂.last (fun t' h => hs₂ t' (by omega)) (.inl ⟨rfl, rfl⟩) fun _ _ => rfl

/-- The answers of `receive_for(0)` that make the queue a FIFO with explicit overrun, by how far
the cursor of the attached reader is behind the writer. -/
structure FifoAnswer (c : Config) (r : ProcId) (s : State) : Prop where
  drained : (s.procs r).handle.readerNextSeq = s.sent.length →
    Answers c r s fun res _ => res = .ok none
  next : ∀ m, s.sent[(s.procs r).handle.readerNextSeq]? = some m →
    s.sent.length - (s.procs r).handle.readerNextSeq ≤ c.slotCount →
    Answers c r s fun res s' => res = .ok (some m) ∧
      (s'.procs r).handle.readerNextSeq = (s.procs r).handle.readerNextSeq + 1
  lapped : c.slotCount < s.sent.length - (s.procs r).handle.readerNextSeq →
    Answers c r s fun res _ => ∃ e, res = .error e ∧ e.code = .dataLoss
  not_lapped : s.sent.length - (s.procs r).handle.readerNextSeq ≤ c.slotCount →
    Answers c r s fun res _ => ∀ e, res = .error e → e.code ≠ .dataLoss

theorem Completes.mono {post post' : State → Prop} (h : ∀ s, post s → post' s) {t : Nat}
    (hc : Completes c p post t s) : Completes c p post' t s := by
  induction hc with
  | done hidle hp => exact .done hidle (h _ hp)
  | access hbusy _ ih => exact .access hbusy ih

/-- Only an idle process cannot move. -/
theorem task_idle_of_stepProc (h : s.stepProc c p now = none) : (s.procs p).task = .idle := by
  unfold State.stepProc at h
  cases ht : (s.procs p).task <;> rw [ht] at h <;> first | rfl | cases h

/-- A call that completes with two postconditions ends in a state that satisfies both. -/
theorem Completes.both {post post' : State → Prop} {t : Nat} (ht : t < 2 ^ 63)
    (hc : Completes c p post t s) (hc' : Completes c p post' t s) : ∃ s', post s' ∧ post' s' := by
  induction hc with
  | @done t s hidle hp =>
    cases hc' with
    | done _ hp' => exact ⟨s, hp, hp'⟩
    | access hbusy _ => exact absurd hidle hbusy
  | @access t s hbusy _ ih =>
    cases hc' with
    | done hidle _ => exact absurd hidle hbusy
    | access _ h' =>
      cases hs : s.stepProc c p t with
      | none => exact absurd (task_idle_of_stepProc hs) hbusy
      | some s₁ => exact ih t s₁ (Nat.le_refl t) ht hs ht (h' t s₁ (Nat.le_refl t) ht hs)

theorem Answers.mono {post post' : Except ErrStatus (Option (List Byte)) → State → Prop}
    (h : Answers c r s post) (hp : ∀ res s', post res s' → post' res s') : Answers c r s post' := by
  intro now hnow
  obtain ⟨s₁, hs₁, hc⟩ := h now hnow
  exact ⟨s₁, hs₁, hc.mono fun s' ⟨res, hr, hpr⟩ => ⟨res, hr, hp res s' hpr⟩⟩

theorem Answers.both {post post' : Except ErrStatus (Option (List Byte)) → State → Prop}
    (h : Answers c r s post) (h' : Answers c r s post') : ∃ res s', post res s' ∧ post' res s' := by
  obtain ⟨s₁, hs₁, hc⟩ := h 0 (by decide)
  obtain ⟨s₂, hs₂, hc'⟩ := h' 0 (by decide)
  obtain rfl : s₁ = s₂ := Option.some.inj (hs₁.symm.trans hs₂)
  obtain ⟨s', ⟨res, hr, hp⟩, res', hr', hp'⟩ := hc.both (by decide) hc'
  obtain rfl : res = res' := by
    rw [hr] at hr'
    exact CallResult.message.inj (Option.some.inj hr')
  exact ⟨res, s', hp, hp'⟩

/-- **A drained reader of a ring that has filled up is told that it was lapped.** -/
theorem Between.answers_drained_full (hB : Between c w r s)
    (ha : (s.procs r).handle.readerAttached = true)
    (hcur : (s.procs r).handle.readerNextSeq = s.sent.length)
    (hfull : c.slotCount ≤ s.sent.length) :
    Answers c r s fun res _ => ∃ e, res = .error e ∧ e.code = .dataLoss := by
  obtain ⟨k, m, hk, -, -, hst, hseq, -⟩ := hB.settled.full hfull
    (Nat.mod_lt (s.procs r).handle.readerNextSeq c.slotCount_pos)
  have hlt := (List.getElem?_eq_some_iff.mp hk).1
  rw [← hB.settled.slotCount] at hst hseq
  refine hB.answers_lapped ha hst fun e => ?_
  have hke : k = (s.procs r).handle.readerNextSeq := hseq.symm.trans e
  omega

/-- It is not the answer of a FIFO. -/
theorem Between.not_fifoAnswer (hB : Between c w r s)
    (ha : (s.procs r).handle.readerAttached = true)
    (hcur : (s.procs r).handle.readerNextSeq = s.sent.length)
    (hfull : c.slotCount ≤ s.sent.length) :
    ¬ FifoAnswer c r s := by
  intro hF
  obtain ⟨res, s', rfl, e, he, -⟩ := (hF.drained hcur).both (hB.answers_drained_full ha hcur hfull)
  cases he

/-- **`ShmRingQueue` is a lossless FIFO with explicit overrun, except for a drained reader of a
ring that has filled up.** -/
theorem fifoAnswer_iff (h : ReachableCalls c w r s)
    (ha : (s.procs r).handle.readerAttached = true) :
    FifoAnswer c r s ↔ ¬ ((s.procs r).handle.readerNextSeq = s.sent.length ∧
      c.slotCount ≤ s.sent.length) := by
  have hB := h.between
  have hle := (hB.cursor ha).2
  constructor
  · rintro hF ⟨hcur, hfull⟩
    exact hB.not_fifoAnswer ha hcur hfull hF
  · intro hn
    have drained (hcur : (s.procs r).handle.readerNextSeq = s.sent.length) :
        Answers c r s fun res _ => res = .ok none := by
      have hroom : s.sent.length < c.slotCount := by omega
      refine hB.answers_drained ha ?_
      unfold Ring.slotAt
      rw [hcur, hB.settled.slotCount, Nat.mod_eq_of_lt hroom]
      exact hB.settled.unused _ hroom (Nat.le_refl _) nofun
    have next (m : List Byte) (hm : s.sent[(s.procs r).handle.readerNextSeq]? = some m)
        (hd : s.sent.length - (s.procs r).handle.readerNextSeq ≤ c.slotCount) :=
      hB.answers_next ha hm (by omega)
    refine ⟨drained, next, fun hd => ?_, fun hd => ?_⟩
    · obtain ⟨k, m, hk, hkn, -, hst, hseq, -⟩ := hB.settled.full (by omega)
        (Nat.mod_lt (s.procs r).handle.readerNextSeq c.slotCount_pos)
      rw [← hB.settled.slotCount] at hst hseq
      refine hB.answers_lapped ha hst fun e => ?_
      have hke : k = (s.procs r).handle.readerNextSeq := hseq.symm.trans e
      omega
    · by_cases hcur : (s.procs r).handle.readerNextSeq = s.sent.length
      · refine (drained hcur).mono fun res _ hres e he => ?_
        rw [hres] at he
        cases he
      · have hlt : (s.procs r).handle.readerNextSeq < s.sent.length := by omega
        refine (next _ (List.getElem?_eq_getElem hlt) hd).mono fun res _ hres e he => ?_
        rw [hres.1] at he
        cases he

/-- A send of "ab" and a `receive_for(0)` that returns it, by processes 0 and 1. -/
def oneMessage : List WholeCall :=
  [⟨0, .send [97, 98], 1, List.replicate 13 1⟩, ⟨1, .receiveFor 0, 2, List.replicate 8 2⟩]

/-- After one message through a ring of one slot the attached reader is drained. -/
theorem reachable_oneMessage : ∃ s, ReachableCalls smallConfig 0 1 s ∧
    (s.procs 1).handle.readerAttached = true ∧ (s.procs 1).handle.readerNextSeq = 1 ∧
      s.sent.length = 1 := by
  have hrun : (run (State.wholeCall smallConfig)
      (fun s a => decide (FifoCall smallConfig 0 1 s a)) oneMessage
      (.opened smallConfig 0 1)).any (fun s => (s.procs 1).handle.readerAttached &&
        decide ((s.procs 1).handle.readerNextSeq = 1 ∧ s.sent.length = 1)) = true := by decide
  obtain ⟨s, hs, hp⟩ := Reach.exists_of_run (fun s a => of_decide_eq_true) hrun
  rw [Bool.and_eq_true, decide_eq_true_eq] at hp
  exact ⟨s, hs, hp⟩

/-- A `receive_for(0)` of the empty queue, which attaches the reader, and a send of "ab". -/
def unreadMessage : List WholeCall :=
  [⟨1, .receiveFor 0, 1, List.replicate 5 1⟩, ⟨0, .send [97, 98], 2, List.replicate 13 2⟩]

/-- The witness: the attached reader is handed the message, and has then drained the ring of one
slot, where both sides are false. -/
theorem fifoAnswer_iff_oneMessage :
    (∃ s, ReachableCalls smallConfig 0 1 s ∧ s.sent = [[97, 98]] ∧
        (s.procs 1).handle.readerNextSeq = 0 ∧ FifoAnswer smallConfig 1 s) ∧
      ∃ s, ReachableCalls smallConfig 0 1 s ∧
        (FifoAnswer smallConfig 1 s ↔ ¬ ((s.procs 1).handle.readerNextSeq = s.sent.length ∧
          smallConfig.slotCount ≤ s.sent.length)) := by
  constructor
  · have hrun : (run (State.wholeCall smallConfig)
        (fun s a => decide (FifoCall smallConfig 0 1 s a)) unreadMessage
        (.opened smallConfig 0 1)).any (fun s => (s.procs 1).handle.readerAttached &&
          decide (s.sent = [[97, 98]] ∧ (s.procs 1).handle.readerNextSeq = 0)) = true := by decide
    obtain ⟨s, hs, hp⟩ := Reach.exists_of_run (fun s a => of_decide_eq_true) hrun
    rw [Bool.and_eq_true, decide_eq_true_eq] at hp
    obtain ⟨ha, hsent, hnext⟩ := hp
    refine ⟨s, hs, hsent, hnext, (fifoAnswer_iff hs ha).mpr ?_⟩
    rw [hsent, hnext]
    decide
  · obtain ⟨s, hs, ha, -, -⟩ := reachable_oneMessage
    exact ⟨s, hs, fifoAnswer_iff hs ha⟩

/-- **A spurious DATA_LOSS.** One message through a ring of one slot: the reader has it, and its
next `receive_for(0)` reports a loss. -/
theorem not_fifoAnswer : ¬ ∀ c w r s, ReachableCalls c w r s →
    (s.procs r).handle.readerAttached = true → FifoAnswer c r s := by
  intro h
  obtain ⟨s, hs, ha, hcur, hlen⟩ := reachable_oneMessage
  exact hs.between.not_fifoAnswer ha (hcur.trans hlen.symm) (Nat.le_of_eq hlen.symm)
    (h _ _ _ s hs ha)

end Libca.Process.ShmRing
