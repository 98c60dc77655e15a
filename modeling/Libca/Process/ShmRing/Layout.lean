import Libca.Common.FlatMemory
import Libca.Common.LittleEndian

/-!
# The layout of `ShmRingQueue` in the mapped segment

The header of the segment and the bytes behind it (`process/ipc.{hpp,cpp}`). The fields of the
header have the widths of the source, and offsets into the segment are computed as the source
computes them; one behind the mapping is no place in it, and as an address it can wrap around to the
header. The identity of the writer is not part of the layout.

* `slots_inside`: **exactly when every slot lies in the mapping**, for the segments that `open`
  accepts.
* `send_inside`: **exactly when the messages that are sent stay in their slots** and these in the
  mapping, for the handles that `create` and `open` return.
* `not_slots_inside`, `not_send_inside`: a segment that was cut off, and a handle that was opened
  with a larger message size than the segment was created with.
-/

namespace Libca.Process.ShmRing.Layout

open Common

/-! ## The segment -/

def ringMagic : UInt64 := 0x4C49424352494E47

def ringFormatVersion : UInt32 := 1

/-- `kRingHeaderSize`. -/
def ringHeaderSize : Nat := 128

/-- `sizeof(RingSlotHeader)`: the state, the length and the sequence number. -/
def slotHeaderSize : Nat := 16

/-- The fields of `RingHeader` that the layout and the messages use. -/
structure RingHeader where
  magic : UInt64
  formatVersion : UInt32
  slotCount : UInt32
  slotStride : UInt64
  payloadCapacity : UInt64
  generation : UInt64
  writeSeq : UInt64

/-- A mapped segment. Its size is that of an object, or of a file. -/
structure Mapping where
  size : Nat
  header : RingHeader
  memory : Memory
  size_lt : size < 2 ^ 63

/-- `Options`. -/
structure RingOptions where
  maxMessageSize : Nat := 4096
  slotCount : Nat := 64
  heartbeatInterval : Int := 100
  heartbeatTimeout : Int := 1000

inductive Code
  | invalidArgument
  | alreadyExists
  | notFound
  | failedPrecondition
  | outOfRange
  | unavailable
  | internal
deriving DecidableEq, Repr

structure Status where
  code : Code
  message : String
deriving DecidableEq, Repr

/-- `ring_slot_stride`. -/
def ringSlotStride (payloadCapacity : Nat) : Nat :=
  (slotHeaderSize + payloadCapacity + 63) / 64 * 64

/-- `ring_segment_size`. -/
def ringSegmentSize (slotCount payloadCapacity : Nat) : Nat :=
  ringHeaderSize + slotCount * ringSlotStride payloadCapacity

/-- `validate_ring_options`: the error, if there is one. -/
def validateRingOptions (options : RingOptions) : Option Status :=
  if options.maxMessageSize = 0 ∨ options.maxMessageSize > 64 * 2 ^ 20 then
    some ⟨.invalidArgument, "max_message_size must be in [1, 64 MiB]"⟩
  else if options.slotCount = 0 ∨ options.slotCount > 65536 then
    some ⟨.invalidArgument, "slot_count must be in [1, 65536]"⟩
  else if options.heartbeatInterval < 0 then
    some ⟨.invalidArgument, "heartbeat_interval must be non-negative"⟩
  else if options.heartbeatTimeout ≤ 0 then
    some ⟨.invalidArgument, "heartbeat_timeout must be positive"⟩
  else if options.slotCount * ringSlotStride options.maxMessageSize > 2 ^ 30 then
    some ⟨.invalidArgument, "ring queue segment size exceeds 1 GiB"⟩
  else none

namespace Mapping

/-- `slot_at`, as an offset into the segment. -/
def slotAt (m : Mapping) (sequence : UInt64) : Nat :=
  ringHeaderSize + (sequence % m.header.slotCount.toUInt64 * m.header.slotStride).toNat

/-- `slot_payload`. -/
def payloadAt (m : Mapping) (sequence : UInt64) : Nat := m.slotAt sequence + slotHeaderSize

def store (m : Mapping) (offset : Nat) (bytes : Bytes) : Mapping :=
  { m with memory := m.memory.store offset bytes }

/-- Stores to the fields of the header of a slot. -/
def storeState (m : Mapping) (sequence : UInt64) (state : Nat) : Mapping :=
  m.store (m.slotAt sequence) (toLe 4 state)

def storeLength (m : Mapping) (sequence : UInt64) (length : Nat) : Mapping :=
  m.store (m.slotAt sequence + 4) (toLe 4 length)

def storeSequence (m : Mapping) (sequence value : UInt64) : Mapping :=
  m.store (m.slotAt sequence + 8) (toLe 8 value.toNat)

/-- The headers of the slots below an index are emptied. -/
def clearSlots (m : Mapping) : Nat → Mapping
  | 0 => m
  | i + 1 =>
    let m := m.clearSlots i
    ((m.storeState (UInt64.ofNat i) 0).storeLength (UInt64.ofNat i) 0).storeSequence
      (UInt64.ofNat i) 0

/-- `reset_ring`. -/
def reset (m : Mapping) : Mapping :=
  let m := { m with header := { m.header with generation := m.header.generation + 1 } }
  let m := m.clearSlots m.header.slotCount.toNat
  { m with header := { m.header with writeSeq := 0 } }

end Mapping

/-! ## The calls -/

/-- `create` with what `SharedMemory::create` returned for the size of the segment. -/
def create (options : RingOptions) (sharedMemory : Nat → Except Status Mapping) :
    Except Status Mapping :=
  match validateRingOptions options with
  | some status => .error status
  | none =>
    match sharedMemory (ringSegmentSize options.slotCount options.maxMessageSize) with
    | .error status => .error status
    | .ok m =>
      let header : RingHeader :=
        { magic := ringMagic
          formatVersion := m.header.formatVersion
          slotCount := UInt32.ofNat options.slotCount
          slotStride := UInt64.ofNat (ringSlotStride options.maxMessageSize)
          payloadCapacity := UInt64.ofNat options.maxMessageSize
          generation := 1
          writeSeq := 0 }
      let m := ({ m with header := header } : Mapping).clearSlots header.slotCount.toNat
      .ok { m with header := { m.header with formatVersion := ringFormatVersion } }

/-- `open` with what `SharedMemory::open` returned. -/
def openQueue (options : RingOptions) (sharedMemory : Except Status Mapping) :
    Except Status Mapping :=
  match validateRingOptions options with
  | some status => .error status
  | none =>
    match sharedMemory with
    | .error status => .error status
    | .ok m =>
      let head := m.header
      if head.magic ≠ ringMagic then
        .error ⟨.failedPrecondition, "segment is not a ShmRingQueue"⟩
      else if head.formatVersion ≠ ringFormatVersion then
        .error ⟨.failedPrecondition,
          "ring queue is being initialized or uses an incompatible format"⟩
      else if head.slotCount = 0 ∨ head.slotCount > 65536 ∨ head.payloadCapacity = 0 ∨
          head.payloadCapacity > 64 * 1048576 ∨ head.slotStride < 16 + head.payloadCapacity then
        .error ⟨.failedPrecondition, "ring queue header is corrupted"⟩
      else .ok m

/-- How `ensure_writer_claimed` ends: with an error, with the claim, or with the claim after
`reset_ring`. -/
inductive Claim
  | refused (status : Status)
  | held
  | takenOver

/-- The segment when the claim has succeeded. -/
def Claim.claimed : Claim → Mapping → Except Status Mapping
  | .refused status, _ => .error status
  | .held, m => .ok m
  | .takenOver, m => .ok m.reset

/-- The stores of `send`. -/
def write (m : Mapping) (data : Bytes) : Mapping :=
  let sequence := m.header.writeSeq
  let m := m.storeState sequence 1
  let m := if data.length ≠ 0 then m.store (m.payloadAt sequence) data else m
  let m := m.storeLength sequence data.length
  let m := m.storeSequence sequence sequence
  let m := m.storeState sequence 2
  { m with header := { m.header with writeSeq := m.header.writeSeq + 1 } }

/-- `send` on an open queue. -/
def send (options : RingOptions) (m : Mapping) (data : Bytes) (claim : Claim) :
    Except Status Mapping :=
  if data.length > options.maxMessageSize then
    .error ⟨.outOfRange, "message exceeds slot payload capacity"⟩
  else
    match claim.claimed m with
    | .error status => .error status
    | .ok m => .ok (write m data)

/-- What `receive_for` finds in the slot of its sequence number. -/
inductive Received
  | message (data : Bytes)
  | corrupted
  | behind (sequence : Nat)
  | waiting (state : Nat)
deriving DecidableEq, Repr

/-- One pass of the loop of `receive_for`, and the ranges of the segment it reads behind the header.
-/
def receiveAt (m : Mapping) (nextSeq : UInt64) : Received × List (Nat × Nat) :=
  let slot := m.slotAt nextSeq
  let state := ofLe (m.memory.load slot 4)
  if state = 2 then
    let sequence := ofLe (m.memory.load (slot + 8) 8)
    if sequence = nextSeq.toNat then
      let length := ofLe (m.memory.load (slot + 4) 4)
      if length > m.header.payloadCapacity.toNat then
        (.corrupted, [(slot, 4), (slot + 8, 8), (slot + 4, 4)])
      else
        (.message (m.memory.load (m.payloadAt nextSeq) length),
          [(slot, 4), (slot + 8, 8), (slot + 4, 4), (m.payloadAt nextSeq, length)])
    else (.behind sequence, [(slot, 4), (slot + 8, 8)])
  else (.waiting state, [(slot, 4)])

/-! ## The slots in the mapping -/

variable {options : RingOptions} {m m' : Mapping} {q : UInt64}

/-- The header was accepted. -/
structure Accepted (m : Mapping) : Prop where
  slotCount_pos : 0 < m.header.slotCount.toNat
  payloadCapacity_pos : 0 < m.header.payloadCapacity.toNat
  payloadCapacity_le : m.header.payloadCapacity.toNat ≤ 64 * 2 ^ 20
  slotStride : slotHeaderSize + m.header.payloadCapacity.toNat ≤ m.header.slotStride.toNat

theorem accepted_of_open {segment : Mapping} (h : openQueue options (.ok segment) = .ok m) :
    m = segment ∧ Accepted m := by
  unfold openQueue at h
  cases hvalid : validateRingOptions options with
  | some status =>
    rw [hvalid] at h
    cases h
  | none =>
    rw [hvalid] at h
    dsimp only at h
    split_ifs at h with hmagic hversion hcorrupted
    obtain rfl := Except.ok.inj h
    rw [not_or, not_or, not_or, not_or] at hcorrupted
    obtain ⟨hcount, -, hzero, hcapacity, hstride⟩ := hcorrupted
    have hle : segment.header.payloadCapacity.toNat ≤ 64 * 2 ^ 20 :=
      UInt64.le_iff_toNat_le.mp (UInt64.not_lt.mp hcapacity)
    refine ⟨rfl, ?_, ?_, hle, ?_⟩
    · exact Nat.pos_of_ne_zero fun h => hcount (UInt32.toNat_inj.mp h)
    · exact Nat.pos_of_ne_zero fun h => hzero (UInt64.toNat_inj.mp h)
    · have hstride := UInt64.le_iff_toNat_le.mp (UInt64.not_lt.mp hstride)
      rw [UInt64.toNat_add, Nat.mod_eq_of_lt] at hstride
      · exact hstride
      · show 16 + _ < 2 ^ 64
        omega

/-- The offset of a slot as a number: the product wraps around. -/
theorem slotAt_eq (m : Mapping) (q : UInt64) :
    m.slotAt q = ringHeaderSize +
      q.toNat % m.header.slotCount.toNat * m.header.slotStride.toNat % 2 ^ 64 := by
  unfold Mapping.slotAt
  rw [UInt64.toNat_mul, UInt64.toNat_mod, UInt32.toNat_toUInt64]

/-- The last slot ends in the mapping, computed without wrapping around. -/
def LastSlotFits (m : Mapping) : Prop :=
  ringHeaderSize + (m.header.slotCount.toNat - 1) * m.header.slotStride.toNat + slotHeaderSize +
    m.header.payloadCapacity.toNat ≤ m.size

/-- A slot and its payload lie in the mapping. -/
def SlotInside (m : Mapping) (q : UInt64) : Prop :=
  m.slotAt q + slotHeaderSize + m.header.payloadCapacity.toNat ≤ m.size

/-- An index below the number of slots is its own slot. -/
theorem slotAt_ofNat {i : Nat} (h : i < m.header.slotCount.toNat) :
    m.slotAt (UInt64.ofNat i) = ringHeaderSize + i * m.header.slotStride.toNat % 2 ^ 64 := by
  have hcount : m.header.slotCount.toNat < 2 ^ 32 := m.header.slotCount.toNat_lt
  have hi : (UInt64.ofNat i).toNat = i := by
    rw [UInt64.toNat_ofNat']
    exact Nat.mod_eq_of_lt (by omega)
  rw [slotAt_eq, hi, Nat.mod_eq_of_lt h]

/-- `n` bytes of payload in the last slot end in the mapping. -/
def LastSlotHolds (m : Mapping) (n : Nat) : Prop :=
  ringHeaderSize + (m.header.slotCount.toNat - 1) * m.header.slotStride.toNat + slotHeaderSize + n ≤
    m.size

/-- **A product that wraps around misses the mapping.** Below the wrap there is an index whose
product is at least half of the range of offsets, which is more than any mapping has. -/
theorem exists_slot_outside (haccepted : Accepted m)
    (hwraps : 2 ^ 64 ≤ (m.header.slotCount.toNat - 1) * m.header.slotStride.toNat) :
    ∃ q, m.size < m.slotAt q := by
  have hsize := m.size_lt
  have hstride : m.header.slotStride.toNat < 2 ^ 64 := m.header.slotStride.toNat_lt
  have hpos : 0 < m.header.slotStride.toNat :=
    Nat.lt_of_lt_of_le (Nat.add_pos_left (by decide) _) haccepted.slotStride
  obtain ⟨i, hi⟩ : ∃ i, i = (2 ^ 64 - 1) / m.header.slotStride.toNat := ⟨_, rfl⟩
  have hdiv := Nat.div_add_mod (2 ^ 64 - 1) m.header.slotStride.toNat
  have hmod := Nat.mod_lt (2 ^ 64 - 1) hpos
  rw [← hi, Nat.mul_comm] at hdiv
  have hone : 1 ≤ i := by
    rw [hi]
    exact Nat.div_pos (by omega) hpos
  have hmul : m.header.slotStride.toNat ≤ i * m.header.slotStride.toNat :=
    Nat.le_mul_of_pos_left _ hone
  have hlt : i < m.header.slotCount.toNat := by
    by_contra hge
    have hle := Nat.mul_le_mul_right m.header.slotStride.toNat
      (show m.header.slotCount.toNat - 1 ≤ i by omega)
    omega
  refine ⟨UInt64.ofNat i, ?_⟩
  rw [slotAt_ofNat hlt, Nat.mod_eq_of_lt (by omega)]
  omega

/-- **All slots are in the mapping exactly when the last one is.** -/
theorem slots_hold_iff (haccepted : Accepted m) (n : Nat) :
    (∀ q, m.slotAt q + slotHeaderSize + n ≤ m.size) ↔ LastSlotHolds m n := by
  have hcount := haccepted.slotCount_pos
  have hsize := m.size_lt
  unfold LastSlotHolds
  constructor
  · intro hinside
    by_cases hwraps : 2 ^ 64 ≤ (m.header.slotCount.toNat - 1) * m.header.slotStride.toNat
    · obtain ⟨q, houtside⟩ := exists_slot_outside haccepted hwraps
      have hq := hinside q
      omega
    · have hlast := hinside (UInt64.ofNat (m.header.slotCount.toNat - 1))
      rwa [slotAt_ofNat (by omega), Nat.mod_eq_of_lt (by omega)] at hlast
  · intro hlast q
    have hlt := Nat.mod_lt q.toNat hcount
    have hle : q.toNat % m.header.slotCount.toNat * m.header.slotStride.toNat ≤
        (m.header.slotCount.toNat - 1) * m.header.slotStride.toNat :=
      Nat.mul_le_mul_right _ (by omega)
    rw [slotAt_eq, Nat.mod_eq_of_lt (by omega)]
    omega

/-- What `receive_for` reads lies in the slot and its payload. -/
theorem mem_reads {r : Nat × Nat} (h : r ∈ (receiveAt m q).2) :
    r.1 + r.2 ≤ m.slotAt q + slotHeaderSize + m.header.payloadCapacity.toNat := by
  have hslot : slotHeaderSize = 16 := rfl
  have hpayload : m.payloadAt q = m.slotAt q + 16 := rfl
  unfold receiveAt at h
  dsimp only at h
  split_ifs at h <;> simp only [List.mem_cons, List.not_mem_nil, or_false] at h
  · rcases h with rfl | rfl | rfl <;> dsimp only <;> omega
  · rcases h with rfl | rfl | rfl | rfl <;> dsimp only <;> omega
  · rcases h with rfl | rfl <;> dsimp only <;> omega
  · obtain rfl := h
    dsimp only
    omega

/-- **The slots and the reads stay in the mapping** of a segment that `open` accepts exactly when
the last slot ends in it. -/
theorem slots_inside (options : RingOptions) (segment m : Mapping)
    (h : openQueue options (.ok segment) = .ok m) :
    (∀ q, SlotInside m q ∧ ∀ r ∈ (receiveAt m q).2, r.1 + r.2 ≤ m.size) ↔ LastSlotFits m := by
  obtain ⟨-, haccepted⟩ := accepted_of_open h
  have hiff := slots_hold_iff haccepted m.header.payloadCapacity.toNat
  constructor
  · exact fun hinside => hiff.mp fun q => (hinside q).1
  · intro hfits q
    have hinside := hiff.mpr hfits q
    exact ⟨hinside, fun r hmem => Nat.le_trans (mem_reads hmem) hinside⟩

/-- Two slots for messages of up to 16 bytes in a mapping of the given size. -/
def exampleSegment (size : Nat) (h : size < 2 ^ 63) : Mapping where
  size := size
  header :=
    { magic := ringMagic, formatVersion := ringFormatVersion, slotCount := 2, slotStride := 64,
      payloadCapacity := 16, generation := 1, writeSeq := 0 }
  memory := fun _ => 0
  size_lt := h

theorem slots_inside_whole :
    LastSlotFits (exampleSegment 256 (by decide)) ∧
      ∀ q, SlotInside (exampleSegment 256 (by decide)) q ∧
        ∀ r ∈ (receiveAt (exampleSegment 256 (by decide)) q).2, r.1 + r.2 ≤ 256 := by
  have hfits : LastSlotFits (exampleSegment 256 (by decide)) := by
    unfold LastSlotFits
    decide
  exact ⟨hfits,
    (slots_inside {} (exampleSegment 256 (by decide)) (exampleSegment 256 (by decide)) rfl).mpr
      hfits⟩

/-- **A segment that was cut off** behind its first slot. -/
theorem not_slots_inside :
    ¬ ∀ (options : RingOptions) (segment m : Mapping), openQueue options (.ok segment) = .ok m →
      ∀ q, SlotInside m q := by
  intro hclaim
  have hinside := hclaim {} (exampleSegment 192 (by decide)) (exampleSegment 192 (by decide)) rfl 1
  unfold SlotInside at hinside
  revert hinside
  decide

/-! ## The messages in their slots -/

/-- A segment with the same layout. -/
structure SameLayout (m m' : Mapping) : Prop where
  size : m'.size = m.size
  slotCount : m'.header.slotCount = m.header.slotCount
  slotStride : m'.header.slotStride = m.header.slotStride
  payloadCapacity : m'.header.payloadCapacity = m.header.payloadCapacity

theorem SameLayout.trans {m'' : Mapping} (h : SameLayout m m') (h' : SameLayout m' m'') :
    SameLayout m m'' :=
  ⟨h'.size.trans h.size, h'.slotCount.trans h.slotCount, h'.slotStride.trans h.slotStride,
    h'.payloadCapacity.trans h.payloadCapacity⟩

theorem SameLayout.accepted (h : SameLayout m m') (haccepted : Accepted m) : Accepted m' := by
  obtain ⟨-, hcount, hstride, hcapacity⟩ := h
  constructor
  · rw [hcount]
    exact haccepted.slotCount_pos
  · rw [hcapacity]
    exact haccepted.payloadCapacity_pos
  · rw [hcapacity]
    exact haccepted.payloadCapacity_le
  · rw [hcapacity, hstride]
    exact haccepted.slotStride

theorem SameLayout.slotAt (h : SameLayout m m') (q : UInt64) : m'.slotAt q = m.slotAt q := by
  unfold Mapping.slotAt
  rw [h.slotCount, h.slotStride]

theorem header_clearSlots (m : Mapping) (n : Nat) : (m.clearSlots n).header = m.header := by
  induction n with
  | zero => rfl
  | succ n ih => exact ih

theorem size_clearSlots (m : Mapping) (n : Nat) : (m.clearSlots n).size = m.size := by
  induction n with
  | zero => rfl
  | succ n ih => exact ih

theorem sameLayout_reset (m : Mapping) : SameLayout m m.reset := by
  unfold Mapping.reset
  constructor <;> dsimp only
  · rw [size_clearSlots]
  all_goals rw [header_clearSlots]

theorem sameLayout_claimed {claim : Claim} (h : claim.claimed m = .ok m') : SameLayout m m' := by
  cases claim with
  | refused status => cases h
  | held =>
    cases h
    exact ⟨rfl, rfl, rfl, rfl⟩
  | takenOver =>
    cases h
    exact sameLayout_reset m

variable {data : Bytes}

theorem sameLayout_send {claim : Claim} (h : send options m data claim = .ok m') :
    SameLayout m m' := by
  unfold send at h
  split_ifs at h
  cases hclaimed : claim.claimed m with
  | error status =>
    rw [hclaimed] at h
    cases h
  | ok m₁ =>
    rw [hclaimed] at h
    cases h
    refine (sameLayout_claimed hclaimed).trans ?_
    unfold write
    constructor <;> split_ifs <;> rfl

/-- What the calls of all the handles on a segment make of it. -/
inductive Later (start : Mapping) : Mapping → Prop
  | start : Later start start
  | claimed {m m' : Mapping} (claim : Claim) :
    Later start m → claim.claimed m = .ok m' → Later start m'
  | sent {m m' : Mapping} (options : RingOptions) (data : Bytes) (claim : Claim) : Later start m →
      send options m data claim = .ok m' → Later start m'

/-- No call changes the layout. -/
theorem Later.sameLayout {start : Mapping} (h : Later start m) : SameLayout start m := by
  induction h with
  | start => exact ⟨rfl, rfl, rfl, rfl⟩
  | claimed claim _ hclaimed ih => exact ih.trans (sameLayout_claimed hclaimed)
  | sent options data claim _ hsend ih => exact ih.trans (sameLayout_send hsend)

/-- A queue that `create` or `open` returned: its options, and the segment at that time. -/
inductive Obtained (options : RingOptions) (m : Mapping) : Prop
  | created (sharedMemory : Nat → Except Status Mapping) : create options sharedMemory = .ok m →
      Obtained options m
  | opened (segment : Mapping) : openQueue options (.ok segment) = .ok m → Obtained options m

/-- What the options are checked for. -/
theorem valid_spec (h : validateRingOptions options = none) :
    (0 < options.maxMessageSize ∧ options.maxMessageSize ≤ 64 * 2 ^ 20) ∧
      0 < options.slotCount ∧ options.slotCount ≤ 65536 := by
  unfold validateRingOptions at h
  split_ifs at h
  omega

/-- The segment of `create` has the layout of the options. -/
theorem create_spec {sharedMemory : Nat → Except Status Mapping}
    (h : create options sharedMemory = .ok m) :
    Accepted m ∧ m.header.payloadCapacity.toNat = options.maxMessageSize ∧
      m.header.slotCount.toNat = options.slotCount ∧
      m.header.slotStride.toNat = ringSlotStride options.maxMessageSize ∧
      ∃ segment, sharedMemory (ringSegmentSize options.slotCount options.maxMessageSize) =
        .ok segment ∧ m.size = segment.size := by
  unfold create at h
  cases hvalid : validateRingOptions options with
  | some status =>
    rw [hvalid] at h
    cases h
  | none =>
    obtain ⟨⟨hpos, hle⟩, hcount, hcount'⟩ := valid_spec hvalid
    rw [hvalid] at h
    dsimp only at h
    cases hshared : sharedMemory (ringSegmentSize options.slotCount options.maxMessageSize) with
    | error status =>
      rw [hshared] at h
      cases h
    | ok segment =>
      rw [hshared] at h
      cases h
      have hcapacity : (UInt64.ofNat options.maxMessageSize).toNat = options.maxMessageSize := by
        rw [UInt64.toNat_ofNat']
        exact Nat.mod_eq_of_lt (by omega)
      have hslots : (UInt32.ofNat options.slotCount).toNat = options.slotCount := by
        rw [UInt32.toNat_ofNat']
        exact Nat.mod_eq_of_lt (by omega)
      have hstride : (UInt64.ofNat (ringSlotStride options.maxMessageSize)).toNat =
          ringSlotStride options.maxMessageSize := by
        rw [UInt64.toNat_ofNat', ringSlotStride, slotHeaderSize]
        exact Nat.mod_eq_of_lt (by omega)
      rw [header_clearSlots]
      refine ⟨⟨?_, ?_, ?_, ?_⟩, hcapacity, hslots, hstride, segment, rfl, size_clearSlots _ _⟩
      · show 0 < (UInt32.ofNat options.slotCount).toNat
        rwa [hslots]
      · show 0 < (UInt64.ofNat options.maxMessageSize).toNat
        rwa [hcapacity]
      · show (UInt64.ofNat options.maxMessageSize).toNat ≤ _
        rwa [hcapacity]
      · show slotHeaderSize + (UInt64.ofNat options.maxMessageSize).toNat ≤
          (UInt64.ofNat (ringSlotStride options.maxMessageSize)).toNat
        rw [hcapacity, hstride, ringSlotStride, slotHeaderSize]
        omega

/-- A segment as large as `create` asks for has all its slots. -/
theorem create_holds {sharedMemory : Nat → Except Status Mapping}
    (hsize : ∀ size segment, sharedMemory size = .ok segment → segment.size = size)
    (h : create options sharedMemory = .ok m) : LastSlotHolds m options.maxMessageSize := by
  obtain ⟨haccepted, hcapacity, hslots, hstride, segment, hshared, hm⟩ := create_spec h
  have hpos := haccepted.slotCount_pos
  have hle := haccepted.slotStride
  unfold LastSlotHolds
  rw [hm, hsize _ _ hshared, ringSegmentSize, ← hslots, ← hstride]
  have hcount : m.header.slotCount.toNat * m.header.slotStride.toNat =
      (m.header.slotCount.toNat - 1) * m.header.slotStride.toNat + m.header.slotStride.toNat := by
    rw [← Nat.succ_mul, Nat.succ_eq_add_one, Nat.sub_add_cancel hpos]
  omega

theorem Obtained.accepted (h : Obtained options m) : Accepted m := by
  cases h with
  | created sharedMemory h => exact (create_spec h).1
  | opened segment h => exact (accepted_of_open h).2

/-- The stores of `send`, one after the other. -/
theorem memory_write (m : Mapping) (data : Bytes) :
    (write m data).memory =
      ((((m.memory.store (m.slotAt m.header.writeSeq) (toLe 4 1)).store
        (m.slotAt m.header.writeSeq + 16) data).store
        (m.slotAt m.header.writeSeq + 4) (toLe 4 data.length)).store
        (m.slotAt m.header.writeSeq + 8) (toLe 8 m.header.writeSeq.toNat)).store
        (m.slotAt m.header.writeSeq) (toLe 4 2) := by
  by_cases hempty : data.length = 0
  · obtain rfl := List.length_eq_zero_iff.mp hempty
    rw [Memory.store_nil]
    rfl
  · unfold write
    dsimp only
    rw [if_pos hempty]
    rfl

/-- What a message that was sent comes to: it fits, its slot is behind the header and in the
mapping, nothing outside of its slot is touched, and it is received. -/
structure Sent (m m' : Mapping) (data : Bytes) : Prop where
  fits : data.length ≤ m.header.payloadCapacity.toNat
  inside : ringHeaderSize ≤ m.slotAt m.header.writeSeq ∧
    m.slotAt m.header.writeSeq + slotHeaderSize + data.length ≤ m.size
  outside : ∀ o, o < m.slotAt m.header.writeSeq ∨
    m.slotAt m.header.writeSeq + m.header.slotStride.toNat ≤ o → m'.memory o = m.memory o
  received : (receiveAt m' m.header.writeSeq).1 = .message data

theorem outside_write (haccepted : Accepted m)
    (hfits : data.length ≤ m.header.payloadCapacity.toNat) {o : Nat}
    (h : o < m.slotAt m.header.writeSeq ∨
      m.slotAt m.header.writeSeq + m.header.slotStride.toNat ≤ o) :
    (write m data).memory o = m.memory o := by
  have hstride : 16 + m.header.payloadCapacity.toNat ≤ m.header.slotStride.toNat :=
    haccepted.slotStride
  rw [memory_write, Memory.store_of_outside (by rw [length_toLe]; omega),
    Memory.store_of_outside (by rw [length_toLe]; omega),
    Memory.store_of_outside (by rw [length_toLe]; omega),
    Memory.store_of_outside (by omega), Memory.store_of_outside (by rw [length_toLe]; omega)]

/-- **A message that fits is received.** -/
theorem receiveAt_write (haccepted : Accepted m)
    (hfits : data.length ≤ m.header.payloadCapacity.toNat) :
    (receiveAt (write m data) m.header.writeSeq).1 = .message data := by
  have hcapacity := haccepted.payloadCapacity_le
  have hslot : (write m data).slotAt m.header.writeSeq = m.slotAt m.header.writeSeq := by
    unfold write
    split_ifs <;> rfl
  have hpayload : (write m data).payloadAt m.header.writeSeq = m.slotAt m.header.writeSeq + 16 :=
    congrArg (· + 16) hslot
  have hheader : (write m data).header.payloadCapacity = m.header.payloadCapacity := by
    unfold write
    split_ifs <;> rfl
  have hlength : data.length % 256 ^ 4 = data.length := Nat.mod_eq_of_lt (by omega)
  have hsequence : m.header.writeSeq.toNat % 256 ^ 8 = m.header.writeSeq.toNat :=
    Nat.mod_eq_of_lt m.header.writeSeq.toNat_lt
  have hstate : ofLe ((write m data).memory.load (m.slotAt m.header.writeSeq) 4) = 2 := by
    have hload := Memory.load_store
      ((((m.memory.store (m.slotAt m.header.writeSeq) (toLe 4 1)).store
        (m.slotAt m.header.writeSeq + 16) data).store
        (m.slotAt m.header.writeSeq + 4) (toLe 4 data.length)).store
        (m.slotAt m.header.writeSeq + 8) (toLe 8 m.header.writeSeq.toNat))
      (m.slotAt m.header.writeSeq) (toLe 4 2)
    rw [length_toLe, ← memory_write] at hload
    rw [hload, ofLe_toLe]
    rfl
  have hseq : ofLe ((write m data).memory.load (m.slotAt m.header.writeSeq + 8) 8) =
      m.header.writeSeq.toNat := by
    have hload := Memory.load_store
      (((m.memory.store (m.slotAt m.header.writeSeq) (toLe 4 1)).store
        (m.slotAt m.header.writeSeq + 16) data).store
        (m.slotAt m.header.writeSeq + 4) (toLe 4 data.length))
      (m.slotAt m.header.writeSeq + 8) (toLe 8 m.header.writeSeq.toNat)
    rw [length_toLe] at hload
    rw [memory_write, Memory.load_store_of_disjoint (by simp only [length_toLe]; omega), hload,
      ofLe_toLe, hsequence]
  have hlen : ofLe ((write m data).memory.load (m.slotAt m.header.writeSeq + 4) 4) =
    data.length := by
    have hload := Memory.load_store
      ((m.memory.store (m.slotAt m.header.writeSeq) (toLe 4 1)).store
        (m.slotAt m.header.writeSeq + 16) data)
      (m.slotAt m.header.writeSeq + 4) (toLe 4 data.length)
    rw [length_toLe] at hload
    rw [memory_write, Memory.load_store_of_disjoint (by simp only [length_toLe]; omega),
      Memory.load_store_of_disjoint (by omega), hload, ofLe_toLe, hlength]
  have hdata : (write m data).memory.load (m.slotAt m.header.writeSeq + 16) data.length = data := by
    rw [memory_write, Memory.load_store_of_disjoint (by simp only [length_toLe]; omega),
      Memory.load_store_of_disjoint (by simp only [length_toLe]; omega),
      Memory.load_store_of_disjoint (by simp only [length_toLe]; omega), Memory.load_store]
  unfold receiveAt
  rw [hslot, hpayload, hheader]
  dsimp only
  rw [hstate, if_pos rfl, hseq, if_pos rfl, hlen, if_neg (by omega), hdata]

/-- A message of no bytes is sent, and the next one takes the next sequence number. -/
theorem exists_later_sequence (options : RingOptions) (start : Mapping) (q : UInt64) :
    ∃ m, Later start m ∧ m.header.writeSeq = q := by
  have hsteps (n : Nat) :
      ∃ m, Later start m ∧ m.header.writeSeq = start.header.writeSeq + UInt64.ofNat n := by
    induction n with
    | zero => exact ⟨start, .start, (UInt64.add_zero _).symm⟩
    | succ n ih =>
      obtain ⟨m, hlater, hseq⟩ := ih
      refine ⟨write m [], .sent options [] .held hlater rfl, ?_⟩
      change m.header.writeSeq + 1 = _
      rw [hseq, UInt64.add_assoc, UInt64.ofNat_add]
      rfl
  obtain ⟨m, hlater, hseq⟩ := hsteps (q - start.header.writeSeq).toNat
  refine ⟨m, hlater, ?_⟩
  rw [hseq, UInt64.ofNat_toNat, UInt64.add_comm, UInt64.sub_add_cancel]

/-- **The messages stay in their slots**, in every later state of the segment, exactly when the
message size of the handle is at most the capacity in the header and the last slot has it in the
mapping; a handle that `create` returned meets this. -/
theorem send_inside (options : RingOptions) (start : Mapping) (hobtained : Obtained options start) :
    ((∀ m, Later start m → ∀ data claim m₁ m', Claim.claimed claim m = .ok m₁ →
        send options m data claim = .ok m' → Sent m₁ m' data) ↔
      options.maxMessageSize ≤ start.header.payloadCapacity.toNat ∧
        LastSlotHolds start options.maxMessageSize) ∧
      ∀ sharedMemory, (∀ size segment, sharedMemory size = .ok segment → segment.size = size) →
        create options sharedMemory = .ok start →
          options.maxMessageSize ≤ start.header.payloadCapacity.toNat ∧
            LastSlotHolds start options.maxMessageSize := by
  have haccepted := hobtained.accepted
  refine ⟨⟨fun hsent => ?_, fun hholds m hlater data claim m₁ m' hclaimed hsend => ?_⟩,
    fun sharedMemory hsize hcreated => ⟨(create_spec hcreated).2.1.ge, ?_⟩⟩
  · -- a message of the full size, in every slot
    have hfull (m : Mapping) (hlater : Later start m) :
        options.maxMessageSize ≤ m.header.payloadCapacity.toNat ∧
          m.slotAt m.header.writeSeq + slotHeaderSize + options.maxMessageSize ≤ m.size := by
      have hlength : (List.replicate options.maxMessageSize (0 : UInt8)).length =
        options.maxMessageSize := List.length_replicate
      have hsend : send options m (List.replicate options.maxMessageSize 0) .held =
          .ok (write m (List.replicate options.maxMessageSize 0)) := by
        unfold send
        rw [if_neg (by omega)]
        rfl
      obtain ⟨hfits, ⟨-, hinside⟩, -⟩ := hsent m hlater _ .held m _ rfl hsend
      rw [hlength] at hfits hinside
      exact ⟨hfits, hinside⟩
    refine ⟨(hfull start .start).1, (slots_hold_iff haccepted _).mp fun q => ?_⟩
    obtain ⟨m, hlater, hseq⟩ := exists_later_sequence options start q
    have hinside := (hfull m hlater).2
    rwa [hseq, hlater.sameLayout.slotAt, hlater.sameLayout.size] at hinside
  · unfold send at hsend
    split_ifs at hsend with hlong
    rw [hclaimed] at hsend
    cases hsend
    have hlayout := hlater.sameLayout.trans (sameLayout_claimed hclaimed)
    have haccepted₁ := hlayout.accepted haccepted
    have hfits : data.length ≤ m₁.header.payloadCapacity.toNat := by
      rw [hlayout.payloadCapacity]
      omega
    have hinside := (slots_hold_iff haccepted _).mpr hholds.2 m₁.header.writeSeq
    rw [← hlayout.slotAt, ← hlayout.size] at hinside
    exact ⟨hfits, ⟨slotAt_eq m₁ _ ▸ Nat.le_add_right _ _, by omega⟩,
      fun o ho => outside_write haccepted₁ hfits ho, receiveAt_write haccepted₁ hfits⟩
  · exact create_holds hsize hcreated

theorem send_inside_sixteen :
    16 ≤ (exampleSegment 256 (by decide)).header.payloadCapacity.toNat ∧
      ∀ m, Later (exampleSegment 256 (by decide)) m → ∀ data claim m₁ m',
        Claim.claimed claim m = .ok m₁ → send { maxMessageSize := 16 } m data claim = .ok m' →
          Sent m₁ m' data :=
  ⟨by decide, (send_inside { maxMessageSize := 16 } (exampleSegment 256 (by decide))
    (.opened (exampleSegment 256 (by decide)) rfl)).1.mpr
      ⟨by decide, by unfold LastSlotHolds; decide⟩⟩

/-- **A handle that was opened with the default options** on a segment whose slots hold 16 bytes. -/
theorem not_send_inside :
    ¬ ∀ (options : RingOptions) (start m : Mapping), Obtained options start → Later start m →
      ∀ data claim m₁ m', Claim.claimed claim m = .ok m₁ → send options m data claim = .ok m' →
        Sent m₁ m' data := by
  intro hclaim
  have hsent := hclaim {} (exampleSegment 256 (by decide)) (exampleSegment 256 (by decide))
    (.opened (exampleSegment 256 (by decide)) rfl) .start (List.replicate 17 0) .held _ _ rfl rfl
  exact absurd hsent.fits (by decide)

end Libca.Process.ShmRing.Layout
