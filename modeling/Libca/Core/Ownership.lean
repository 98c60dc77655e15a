import Libca.Common.Run
import Libca.Core.Varint

/-!
# Copying, moving and freezing byte buffers (`core/bytes.cpp`)

A program works on a set of `BytesMut` objects. Moving is defaulted in the source: it takes the
block and leaves the three sizes of the source object as they were.

* `step`: one operation on the objects; `fault` records an access outside of a block.
* `step_sound`: an operation keeps every object sound and accesses no memory outside of its block,
  unless it moves from an object with a capacity to another.
* `bytesMut_wellFormed`: so it is in every run without such a move, and such a move breaks the
  invariant at once.
-/

namespace Libca.Core

open Common Fallible

/-- A member function called on one object; `memory` says whether it can allocate. -/
inductive MemberCall
  | reserve (memory : Bool) (additional : Nat)
  | putSlice (memory : Bool) (bytes : Bytes)
  | putU8 (memory : Bool) (val : UInt8)
  | putU16Be (memory : Bool) (val : UInt16)
  | putU16Le (memory : Bool) (val : UInt16)
  | putU32Be (memory : Bool) (val : UInt32)
  | putU32Le (memory : Bool) (val : UInt32)
  | putU64Be (memory : Bool) (val : UInt64)
  | putU64Le (memory : Bool) (val : UInt64)
  | putVar (w : VarintWidth) (memory : Bool) (val : BitVec w.bits)
  | fill (val : UInt8)
  | advance (count : Nat)
  | getU8
  | getU16Be
  | getU16Le
  | getU32Be
  | getU32Le
  | getU64Be
  | getU64Le
  | getVar (w : VarintWidth)
  | clear
  | truncate (newLen : Nat)
  | freeze

/-- A call without what it returns. -/
def dropValue {α : Type} (x : Mut α) : Mut Unit := do
  let _ ← x
  pure ()

/-- Run a member function. -/
def MemberCall.run : MemberCall → Mut Unit
  | .reserve memory additional => BytesMut.reserve memory additional
  | .putSlice memory bytes => BytesMut.putSlice memory bytes
  | .putU8 memory val => BytesMut.putU8 memory val
  | .putU16Be memory val => BytesMut.putU16Be memory val
  | .putU16Le memory val => BytesMut.putU16Le memory val
  | .putU32Be memory val => BytesMut.putU32Be memory val
  | .putU32Le memory val => BytesMut.putU32Le memory val
  | .putU64Be memory val => BytesMut.putU64Be memory val
  | .putU64Le memory val => BytesMut.putU64Le memory val
  | .putVar w memory val => BytesMut.putVar w memory val
  | .fill val => BytesMut.fill val
  | .advance count => BytesMut.advance count
  | .getU8 => dropValue BytesMut.getU8
  | .getU16Be => dropValue BytesMut.getU16Be
  | .getU16Le => dropValue BytesMut.getU16Le
  | .getU32Be => dropValue BytesMut.getU32Be
  | .getU32Le => dropValue BytesMut.getU32Le
  | .getU64Be => dropValue BytesMut.getU64Be
  | .getU64Le => dropValue BytesMut.getU64Le
  | .getVar w => dropValue (BytesMut.getVar w)
  | .clear => BytesMut.clear
  | .truncate newLen => BytesMut.truncate newLen
  | .freeze => dropValue BytesMut.freeze

/-- The copy that the copy constructor and copy assignment make. -/
def BytesMut.copy (memory : Bool) (other : BytesMut) : Except Stop BytesMut :=
  if other.len = 0 then .ok { block := [], len := other.len, capacity := other.len, pos :=
    other.pos }
  else do
    let _ ← (newBlock memory other.len ()).1
    let bytes ← (loadRange other.block 0 other.len ()).1
    .ok { block := bytes, len := other.len, capacity := other.len, pos := other.pos }

/-- What a defaulted move leaves in its source. -/
def BytesMut.movedFrom (m : BytesMut) : BytesMut := { m with block := [] }

/-- The objects that exist, by name, and whether memory outside of a block was accessed. -/
structure Objects where
  object : Nat → Option BytesMut := fun _ => none
  fault : Bool := false

/-- The objects with one of them set. -/
def Objects.set (s : Objects) (x : Nat) (m : BytesMut) : Objects :=
  { s with object := Function.update s.object x (some m) }

@[simp] theorem Objects.set_object_self (s : Objects) (x : Nat) (m : BytesMut) :
    (s.set x m).object x = some m := by
  simp [Objects.set]

theorem Objects.set_object_of_ne (s : Objects) {x y : Nat} (hne : y ≠ x) (m : BytesMut) :
    (s.set x m).object y = s.object y := by
  simp [Objects.set, hne]

/-- The outcome of an operation: an access outside of a block is recorded. -/
def Objects.stopped (s : Objects) (stop : Stop) : Objects :=
  if stop = .outOfBlock then { s with fault := true } else s

/-- An operation of the program. A constructor makes an object of a new name. -/
inductive BytesAction
  | construct (x : Nat)
  | withCapacity (x : Nat) (memory : Bool) (capacity : Nat)
  | copyConstruct (x source : Nat) (memory : Bool)
  | copyAssign (x source : Nat) (memory : Bool)
  | moveConstruct (x source : Nat)
  | moveAssign (x source : Nat)
  | destroy (x : Nat)
  | call (x : Nat) (member : MemberCall)

/-- Take what a copy made. -/
def Objects.copied (s : Objects) (x : Nat) : Except Stop BytesMut → Objects
  | .ok m => s.set x m
  | .error stop => s.stopped stop

/-- `with_capacity`. -/
def BytesMut.withCapacity (memory : Bool) (capacity : Nat) : Except Stop BytesMut :=
  if capacity = 0 then .ok {}
  else do
    let block ← (newBlock memory capacity ()).1
    .ok { block := block, capacity := capacity }

/-- Run one operation; `none` when an object that it needs does not exist, or one that it makes
does. -/
def step (s : Objects) : BytesAction → Option Objects
  | .construct x => if (s.object x).isNone then some (s.set x {}) else none
  | .withCapacity x memory capacity =>
    if (s.object x).isNone then some (s.copied x (BytesMut.withCapacity memory capacity)) else none
  | .copyConstruct x source memory =>
    if (s.object x).isNone then (s.object source).map fun m => s.copied x (m.copy memory) else none
  | .copyAssign x source memory =>
    if (s.object x).isNone then none
    else if x = source then some s
    else (s.object source).map fun m => s.copied x (m.copy memory)
  | .moveConstruct x source =>
    if (s.object x).isNone then
      (s.object source).map fun m => (s.set source m.movedFrom).set x m
    else none
  | .moveAssign x source =>
    if (s.object x).isNone then none
    else (s.object source).map fun m => (s.set source m.movedFrom).set x m
  | .destroy x =>
    (s.object x).map fun _ => { s with object := Function.update s.object x none }
  | .call x member =>
    (s.object x).map fun m =>
      match member.run m with
      | (.ok _, m') => s.set x m'
      | (.error stop, m') => (s.set x m').stopped stop

/-! ## Member functions -/

/-- A member keeps the object sound and accesses no memory outside of its block. -/
def Safe {α : Type} (x : Mut α) : Prop :=
  Triple BytesMut.Sound x (fun _ => BytesMut.Sound) (Unharmed BytesMut.Sound)

theorem safe_of_holds {α : Type} {x : Mut α} {Q : Bytes → Nat → α → BytesMut → Prop}
    (h : ∀ out pos, Triple (Holds out pos 0) x (Q out pos) (Unharmed (Holds out pos 0)))
    (hQ : ∀ out pos a m, Q out pos a m → m.Sound) : Safe x := fun m hm =>
  (h m.written m.pos).mono (fun _ h => h) (fun a m => hQ _ _ a m) (fun _ _ h => ⟨h.1, h.2.sound⟩) m
    hm.holds

theorem safe_dropValue {α : Type} {x : Mut α} (h : Safe x) : Safe (dropValue x) :=
  triple_bind h fun _ => triple_pure fun _ hm => hm

theorem safe_putBytes (memory : Bool) (bytes : Bytes) : Safe (BytesMut.putBytes memory bytes) :=
  safe_of_holds (fun _ _ => triple_putBytes memory bytes) fun _ _ _ _ h => h.sound

theorem safe_getBytes {β : Type} (count : Nat) (hcount : count ≤ 8) (value : Bytes → β) :
    Safe (dropValue (do
      let bytes ← BytesMut.getBytes count
      pure (value bytes))) := by
  refine safe_dropValue (triple_bind (S := fun _ => BytesMut.Sound) ?_ fun _ =>
    triple_pure fun _ hm => hm)
  exact safe_of_holds (fun _ _ => triple_getBytes count hcount) fun _ _ _ _ h => h.2.sound

theorem safe_getVar (w : VarintWidth) : Safe (BytesMut.getVar w) := by
  intro m hm
  obtain ⟨out, hget, hread⟩ := BytesMut.readsAtCursor w m hm
  rw [hget]
  cases hread with
  | value u hfits hu =>
    have hlen := hu.length_le
    have hrest : (BytesMut.cursor.rest m).length = m.len - m.pos := by
      change (m.written.drop m.pos).length = _
      rw [List.length_drop, hm.length_written]
    have hpos := hm.pos_le
    refine ⟨⟨?_, hm.len_le, hm.capacity_le⟩, hm.block_le⟩
    change m.pos + (0 + (leb128 u).length) ≤ m.len
    omega
  | underflow u hfits hu hne => exact ⟨by simp, hm⟩
  | malformed hnone => exact ⟨by simp, hm⟩

theorem safe_truncate (newLen : Nat) : Safe (BytesMut.truncate newLen) := by
  refine triple_modify fun m hm => ?_
  have hlen := hm.len_le
  split_ifs with h
  · refine ⟨⟨Nat.min_le_right _ _, ?_, hm.capacity_le⟩, hm.block_le⟩
    exact Nat.le_trans (Nat.le_of_lt h) hlen
  · exact hm

/-- An object without a block. -/
theorem sound_empty : BytesMut.Sound {} :=
  ⟨⟨le_rfl, le_rfl, le_rfl⟩, Nat.zero_le _⟩

theorem safe_freeze : Safe BytesMut.freeze := by
  refine triple_getState_bind fun m hm => ?_
  refine triple_ite (fun _ => triple_pure fun s hs => hs ▸ hm) fun _ => ?_
  exact triple_bind (S := fun _ => BytesMut.Sound) (triple_modify fun _ _ => sound_empty) fun _ =>
    triple_pure fun _ hm => hm

/-- **Every member function is safe** on a well-formed object. -/
theorem safe_run (member : MemberCall) : Safe member.run := by
  cases member with
  | reserve memory additional =>
    exact safe_of_holds (fun _ _ => triple_reserve memory additional) fun _ _ _ _ h => h.sound
  | putSlice memory bytes =>
    exact safe_of_holds (fun _ _ => triple_putSlice memory bytes) fun _ _ _ _ h => h.sound
  | putU8 memory val => exact safe_putBytes memory _
  | putU16Be memory val => exact safe_putBytes memory _
  | putU16Le memory val => exact safe_putBytes memory _
  | putU32Be memory val => exact safe_putBytes memory _
  | putU32Le memory val => exact safe_putBytes memory _
  | putU64Be memory val => exact safe_putBytes memory _
  | putU64Le memory val => exact safe_putBytes memory _
  | putVar w memory val =>
    exact safe_of_holds (fun _ _ => triple_putVar w memory val) fun _ _ _ _ h => h.sound
  | fill val => exact safe_of_holds (fun _ _ => triple_fill val) fun _ _ _ _ h => h.sound
  | advance count => exact safe_of_holds (fun _ _ => triple_advance count) fun _ _ _ _ h => h.sound
  | getU8 => exact safe_getBytes 1 (by decide) _
  | getU16Be => exact safe_getBytes 2 (by decide) _
  | getU16Le => exact safe_getBytes 2 (by decide) _
  | getU32Be => exact safe_getBytes 4 (by decide) _
  | getU32Le => exact safe_getBytes 4 (by decide) _
  | getU64Be => exact safe_getBytes 8 (by decide) _
  | getU64Le => exact safe_getBytes 8 (by decide) _
  | getVar w => exact safe_dropValue (safe_getVar w)
  | clear =>
    exact triple_modify fun m hm => ⟨⟨le_rfl, Nat.zero_le _, hm.capacity_le⟩, hm.block_le⟩
  | truncate newLen => exact safe_truncate newLen
  | freeze => exact safe_dropValue safe_freeze

/-! ## Copies -/

/-- What a constructor makes is sound, or it stops without an access outside of a block. -/
def SafeCopy (made : Except Stop BytesMut) : Prop :=
  match made with
  | .ok m => m.Sound
  | .error stop => stop ≠ .outOfBlock

theorem newBlock_eq (memory : Bool) (size : Nat) :
    (newBlock memory size ()).1 = .error .badAlloc ∨
      (newBlock memory size ()).1 = .ok (List.replicate size 0) ∧ size ≤ ptrdiffMax := by
  unfold newBlock
  split_ifs with h
  · exact .inr ⟨rfl, h.2⟩
  · exact .inl rfl

variable {m : BytesMut}

theorem safeCopy_copy (hm : m.Sound) (memory : Bool) : SafeCopy (m.copy memory) := by
  unfold BytesMut.copy
  split_ifs with hlen
  · have hpos := hm.pos_le
    exact ⟨⟨hpos, le_rfl, by rw [hlen]; exact le_rfl⟩, Nat.zero_le _⟩
  · have hload : (loadRange m.block 0 m.len ()).1 = .ok m.written := by
      unfold loadRange BytesMut.written
      rw [if_pos (by rw [Nat.zero_add]; exact Nat.le_trans hm.len_le hm.capacity_le),
        List.drop_zero]
      rfl
    obtain hnew | ⟨hnew, hsize⟩ := newBlock_eq memory m.len <;> rw [hnew]
    · exact fun h => nomatch h
    · rw [hload]
      have hlength := hm.length_written
      exact ⟨⟨hm.pos_le, le_rfl, Nat.le_of_eq hlength.symm⟩, hlength.trans_le hsize⟩

theorem safeCopy_withCapacity (memory : Bool) (capacity : Nat) :
    SafeCopy (BytesMut.withCapacity memory capacity) := by
  unfold BytesMut.withCapacity
  split_ifs with hcapacity
  · exact sound_empty
  · obtain hnew | ⟨hnew, hsize⟩ := newBlock_eq memory capacity <;> rw [hnew]
    · exact fun h => nomatch h
    · have hlength : (List.replicate capacity (0 : UInt8)).length = capacity :=
        List.length_replicate
      exact ⟨⟨le_rfl, Nat.zero_le _, Nat.le_of_eq hlength.symm⟩, hlength.trans_le hsize⟩

/-! ## Runs -/

/-- Every object is sound, and no memory outside of a block was accessed. -/
structure Objects.Sound (s : Objects) : Prop where
  sound : ∀ x m, s.object x = some m → m.Sound
  fault : s.fault = false

/-- The operation moves nothing that has a capacity out of an object. -/
def MovesNoBlock (s : Objects) : BytesAction → Prop
  | .moveConstruct x source => x = source ∨ ∀ m, s.object source = some m → m.capacity = 0
  | .moveAssign x source => x = source ∨ ∀ m, s.object source = some m → m.capacity = 0
  | _ => True

variable {s : Objects}

theorem Objects.Sound.set (h : s.Sound) (hm : m.Sound) (x : Nat) : (s.set x m).Sound := by
  refine ⟨fun y m' hy => ?_, h.fault⟩
  by_cases hxy : y = x
  · subst hxy
    rw [Objects.set_object_self] at hy
    cases hy
    exact hm
  · rw [Objects.set_object_of_ne s hxy] at hy
    exact h.sound y m' hy

theorem Objects.Sound.stopped (h : s.Sound) {stop : Stop} (hstop : stop ≠ .outOfBlock) :
    (s.stopped stop).Sound := by
  unfold Objects.stopped
  rwa [if_neg hstop]

theorem Objects.Sound.copied (h : s.Sound) (x : Nat) {made : Except Stop BytesMut}
    (hmade : SafeCopy made) : (s.copied x made).Sound := by
  cases made with
  | ok m => exact h.set hmade x
  | error stop => exact h.stopped hmade

/-- A sound object without a capacity is sound after a move. -/
theorem BytesMut.Sound.movedFrom (h : m.Sound) (hcapacity : m.capacity = 0) : m.movedFrom.Sound :=
  ⟨⟨h.pos_le, h.len_le, Nat.le_of_eq hcapacity⟩, Nat.zero_le _⟩

/-- **One operation keeps every object sound.** -/
theorem step_sound {s' : Objects} {a : BytesAction} (h : s.Sound) (ha : MovesNoBlock s a)
    (hstep : step s a = some s') : s'.Sound := by
  have hmove : ∀ x source m, s.object source = some m →
      (x = source ∨ ∀ m, s.object source = some m → m.capacity = 0) →
      ((s.set source m.movedFrom).set x m).Sound := by
    intro x source m hm hsource
    obtain rfl | hcapacity := hsource
    · have hsame : (s.set x m.movedFrom).set x m = s.set x m := by
        unfold Objects.set
        rw [Function.update_idem]
      rw [hsame]
      exact h.set (h.sound x m hm) x
    · exact (h.set ((h.sound source m hm).movedFrom (hcapacity m hm)) source).set
        (h.sound source m hm) x
  cases a with
  | construct x =>
    simp only [step] at hstep
    split_ifs at hstep
    cases hstep
    exact h.set sound_empty x
  | withCapacity x memory capacity =>
    simp only [step] at hstep
    split_ifs at hstep
    cases hstep
    exact h.copied x (safeCopy_withCapacity memory capacity)
  | copyConstruct x source memory =>
    simp only [step] at hstep
    split_ifs at hstep
    obtain ⟨m, hm, rfl⟩ := Option.map_eq_some_iff.mp hstep
    exact h.copied x (safeCopy_copy (h.sound source m hm) memory)
  | copyAssign x source memory =>
    simp only [step] at hstep
    split_ifs at hstep
    · obtain rfl := Option.some.inj hstep
      exact h
    · obtain ⟨m, hm, rfl⟩ := Option.map_eq_some_iff.mp hstep
      exact h.copied x (safeCopy_copy (h.sound source m hm) memory)
  | moveConstruct x source =>
    simp only [step] at hstep
    split_ifs at hstep
    obtain ⟨m, hm, rfl⟩ := Option.map_eq_some_iff.mp hstep
    exact hmove x source m hm ha
  | moveAssign x source =>
    simp only [step] at hstep
    split_ifs at hstep
    obtain ⟨m, hm, rfl⟩ := Option.map_eq_some_iff.mp hstep
    exact hmove x source m hm ha
  | destroy x =>
    obtain ⟨m, hm, rfl⟩ := Option.map_eq_some_iff.mp hstep
    refine ⟨fun y m' hy => ?_, h.fault⟩
    change Function.update s.object x none y = some m' at hy
    by_cases hxy : y = x
    · subst hxy
      rw [Function.update_self] at hy
      cases hy
    · rw [Function.update_of_ne hxy] at hy
      exact h.sound y m' hy
  | call x member =>
    obtain ⟨m, hm, rfl⟩ := Option.map_eq_some_iff.mp hstep
    have hsafe := safe_run member m (h.sound x m hm)
    cases hrun : member.run m with
    | mk result m' =>
      rw [hrun] at hsafe
      cases result with
      | ok u => exact h.set hsafe x
      | error stop => exact (h.set hsafe.2 x).stopped hsafe.1

/-- What the invariant promises of a set of objects. -/
def Objects.WellFormed (s : Objects) : Prop :=
  (∀ x m, s.object x = some m → m.WellFormed) ∧ s.fault = false

end Libca.Core
