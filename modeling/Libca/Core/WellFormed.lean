import Libca.Core.BytesMut
import Libca.Common.Leb128

/-!
# What a byte buffer holds (`core/bytes.cpp`)

* `WellFormed`: the invariant `pos <= len <= capacity <=` size of the block.
* `Holds out pos room`: a well-formed buffer with the bytes `out` written, the cursor at `pos` and
  room for `room` more bytes. The specifications of the members are stated with it:
  `triple_ensureWritable`, `triple_push`, `triple_putBytes`, `triple_putVar`, `triple_getBytes`.
* `putVar_ok_iff`: a varint is written exactly where there is room or memory (`Writable`).
* `Safe`: a member keeps a buffer well formed and does not access memory outside of its block.
-/

namespace Libca.Core

open Common Fallible

/-- **The representation invariant.** -/
structure BytesMut.WellFormed (m : BytesMut) : Prop where
  pos_le : m.pos ≤ m.len
  len_le : m.len ≤ m.capacity
  capacity_le : m.capacity ≤ m.block.length

/-- A well-formed buffer whose block is no larger than an allocation can be. -/
structure BytesMut.Sound (m : BytesMut) : Prop extends m.WellFormed where
  block_le : m.block.length ≤ ptrdiffMax

/-- The bytes written so far. -/
def BytesMut.written (m : BytesMut) : Bytes := m.block.take m.len

/-- The bytes from the cursor on. -/
def BytesMut.rest (m : BytesMut) : Bytes := m.written.drop m.pos

/-- A sound buffer with the bytes `out`, the cursor at `pos` and room for `room` more bytes. -/
structure Holds (out : Bytes) (pos room : Nat) (m : BytesMut) : Prop where
  sound : m.Sound
  written : m.written = out
  pos : m.pos = pos
  room : m.len + room ≤ m.capacity

/-- There is room for `needed` more bytes, or memory for a block that has it. -/
def BytesMut.Writable (memory : Bool) (needed : Nat) (m : BytesMut) : Prop :=
  m.len + needed ≤ m.capacity ∨
    memory = true ∧ grownCapacity m.capacity (m.len + needed) ≤ ptrdiffMax

/-- A call that stops without an access outside of the block, and leaves `P`. -/
def Unharmed (P : BytesMut → Prop) (stop : Stop) (m : BytesMut) : Prop := stop ≠ .outOfBlock ∧ P m

variable {m : BytesMut}

theorem BytesMut.Sound.len_lt (h : m.Sound) : m.len ≤ ptrdiffMax :=
  Nat.le_trans h.len_le (Nat.le_trans h.capacity_le h.block_le)

theorem BytesMut.WellFormed.length_written (h : m.WellFormed) : m.written.length = m.len := by
  unfold BytesMut.written
  rw [List.length_take, Nat.min_eq_left (Nat.le_trans h.len_le h.capacity_le)]

variable {out : Bytes} {pos : Nat}

variable {room : Nat}

theorem Holds.len (h : Holds out pos room m) : m.len = out.length := by
  rw [← h.written, h.sound.length_written]

/-- A sound buffer holds something. -/
theorem BytesMut.Sound.holds (h : m.Sound) : Holds m.written m.pos 0 m :=
  ⟨h, rfl, rfl, h.len_le⟩

theorem usizeSub_of_le {a b : Nat} (h : b ≤ a) (ha : a < 2 ^ 64) : usizeSub a b = a - b := by
  unfold usizeSub
  rw [show a + (2 ^ 64 - b) = a - b + 2 ^ 64 by omega, Nat.add_mod_right,
    Nat.mod_eq_of_lt (by omega)]

theorem BytesMut.Sound.remaining_eq (h : m.Sound) : m.remaining = m.len - m.pos := by
  have hlen := h.len_lt
  unfold ptrdiffMax at hlen
  exact usizeSub_of_le h.pos_le (by omega)

/-! ## Capacity -/

theorem minCapacity_le_grownCapacity (capacity minCapacity : Nat) :
    minCapacity ≤ grownCapacity capacity minCapacity :=
  Nat.le_trans (Nat.le_max_right _ _) (Nat.le_max_left _ _)

theorem triple_grow (memory : Bool) (minCapacity : Nat) (hmin : out.length + room ≤ minCapacity) :
    Triple (Holds out pos 0) (BytesMut.grow memory minCapacity) (fun _ => Holds out pos room)
      (Unharmed (Holds out pos 0)) := by
  refine triple_getState_bind fun m hm => ?_
  have hgrown := minCapacity_le_grownCapacity m.capacity minCapacity
  have hlen := hm.len
  have hblock := Nat.le_trans hm.sound.len_le hm.sound.capacity_le
  unfold newBlock
  split_ifs with hmemory
  · have hload : loadRange m.block 0 m.len = (pure m.written : Mut Bytes) := by
      unfold loadRange BytesMut.written
      rw [if_pos (by omega), List.drop_zero]
    have hlength := hm.sound.length_written
    have hstore : storeRange (List.replicate (grownCapacity m.capacity minCapacity) 0) 0 m.written =
        (pure (m.written ++ (List.replicate (grownCapacity m.capacity minCapacity) 0).drop m.len) :
          Mut Bytes) := by
      unfold storeRange
      rw [if_pos (by rw [List.length_replicate]; omega), List.take_zero, List.nil_append, hlength,
        Nat.zero_add]
    rw [hload]
    rintro s rfl
    simp only [pure_bind_apply, hstore, modify_apply]
    have hblock' : (s.written ++ (List.replicate (grownCapacity s.capacity minCapacity) 0).drop
        s.len).length = grownCapacity s.capacity minCapacity := by
      rw [List.length_append, List.length_drop, List.length_replicate, hlength]
      omega
    refine ⟨⟨⟨hm.sound.pos_le, ?_, ?_⟩, ?_⟩, ?_, hm.pos, ?_⟩
    · change s.len ≤ grownCapacity s.capacity minCapacity
      omega
    · exact Nat.le_of_eq hblock'.symm
    · exact (Nat.le_of_eq hblock').trans hmemory.2
    · rw [← hm.written]
      exact List.take_left' hlength
    · change s.len + room ≤ grownCapacity s.capacity minCapacity
      omega
  · exact triple_fail fun s hs => ⟨by simp, hs ▸ hm⟩

theorem triple_ensureWritable (memory : Bool) (needed : Nat) :
    Triple (Holds out pos 0) (BytesMut.ensureWritable memory needed)
      (fun _ => Holds out pos needed) (Unharmed (Holds out pos 0)) := by
  refine triple_getState_bind fun m hm => ?_
  refine triple_failIf_bind (fun s _ hs => ⟨by simp, hs ▸ hm⟩) fun _ => ?_
  refine triple_ite (fun hroom => triple_pure fun s hs => ?_) fun _ => ?_
  · rw [hs]
    exact ⟨hm.sound, hm.written, hm.pos, hroom⟩
  · refine (triple_grow memory _ ?_).mono (fun s hs => hs ▸ hm) (fun _ _ h => h) fun _ _ h => h
    rw [hm.len]

/-- **`ensure_writable` returns exactly where there is room or memory.** -/
theorem ensureWritable_ok_iff {memory : Bool} {needed : Nat} (hm : m.Sound) :
    (∃ m', BytesMut.ensureWritable memory needed m = (.ok (), m')) ↔ m.Writable memory needed := by
  have hgrown := minCapacity_le_grownCapacity m.capacity (m.len + needed)
  have hcapacity := Nat.le_trans hm.capacity_le hm.block_le
  unfold BytesMut.Writable BytesMut.ensureWritable
  rw [getState_bind_apply]
  unfold ptrdiffMax at *
  by_cases hover : needed > sizeMax - m.len
  · rw [failIf_pos hover]
    unfold sizeMax at hover
    exact iff_of_false (by rintro ⟨m', h⟩; cases h) (by omega)
  rw [failIf_neg hover, pure_bind_apply]
  split_ifs with hroom
  · exact iff_of_true ⟨m, rfl⟩ (.inl hroom)
  rw [or_iff_right hroom]
  unfold BytesMut.grow newBlock
  rw [getState_bind_apply]
  unfold ptrdiffMax
  split_ifs with hmemory
  · refine iff_of_true ?_ hmemory
    have hlen := Nat.le_trans hm.len_le hm.capacity_le
    unfold loadRange storeRange
    rw [pure_bind_apply, if_pos (by omega), pure_bind_apply, if_pos (by simp; omega)]
    exact ⟨_, rfl⟩
  · exact iff_of_false (by rintro ⟨m', h⟩; cases h) hmemory

theorem triple_reserve (memory : Bool) (additional : Nat) :
    Triple (Holds out pos 0) (BytesMut.reserve memory additional)
      (fun _ => Holds out pos additional) (Unharmed (Holds out pos 0)) := by
  refine triple_getState_bind fun m hm => ?_
  refine triple_failIf_bind (fun s _ hs => ⟨by simp, hs ▸ hm⟩) fun _ => ?_
  refine triple_ite (fun _ => ?_) fun hroom => triple_pure fun s hs => ?_
  · refine (triple_grow memory _ ?_).mono (fun s hs => hs ▸ hm) (fun _ _ h => h) fun _ _ h => h
    rw [hm.len]
  · rw [hs]
    exact ⟨hm.sound, hm.written, hm.pos, Nat.le_of_not_lt hroom⟩

/-! ## Writing -/

/-- Where there is room, bytes are stored behind the written ones. -/
theorem triple_push {room' : Nat} (bytes : Bytes) (hle : bytes.length + room' ≤ room) :
    Triple (Holds out pos room) (BytesMut.push bytes)
      (fun _ => Holds (out ++ bytes) pos room') fun _ _ => False := by
  refine triple_getState_bind fun m hm => ?_
  have hroom := hm.room
  have hcapacity := hm.sound.capacity_le
  have hstore : storeRange m.block m.len bytes =
      (pure (m.written ++ bytes ++ m.block.drop (m.len + bytes.length)) : Mut Bytes) :=
    if_pos (by omega)
  rw [hstore]
  rintro s rfl
  simp only [pure_bind_apply, modify_apply]
  have hlength := hm.sound.length_written
  have hpos := hm.sound.pos_le
  have hlength' : (s.written ++ bytes).length = s.len + bytes.length := by
    rw [List.length_append, hlength]
  have hblock : (s.written ++ bytes ++ s.block.drop (s.len + bytes.length)).length =
      s.block.length := by
    rw [List.length_append, hlength', List.length_drop]
    omega
  refine ⟨⟨⟨?_, ?_, ?_⟩, ?_⟩, ?_, hm.pos, ?_⟩
  · exact Nat.le_trans hpos (Nat.le_add_right _ _)
  · change s.len + bytes.length ≤ s.capacity
    omega
  · exact hcapacity.trans_eq hblock.symm
  · exact hblock.trans_le hm.sound.block_le
  · rw [← hm.written]
    exact List.take_left' hlength'
  · change s.len + bytes.length + room' ≤ s.capacity
    omega

theorem triple_putBytes (memory : Bool) (bytes : Bytes) :
    Triple (Holds out pos 0) (BytesMut.putBytes memory bytes)
      (fun _ => Holds (out ++ bytes) pos 0) (Unharmed (Holds out pos 0)) :=
  triple_bind (triple_ensureWritable memory bytes.length) fun _ =>
    (triple_push bytes (le_rfl)).mono (fun _ h => h) (fun _ _ h => h) fun _ _ h => h.elim

theorem triple_putSlice (memory : Bool) (bytes : Bytes) :
    Triple (Holds out pos 0) (BytesMut.putSlice memory bytes)
      (fun _ => Holds (out ++ bytes) pos 0) (Unharmed (Holds out pos 0)) := by
  refine triple_ite (fun hempty => triple_pure fun m hm => ?_) fun _ => triple_putBytes memory bytes
  rw [List.isEmpty_iff.mp hempty, List.append_nil]
  exact hm

/-- The byte that the loop stores before it goes on. -/
theorem ofNat_or_high (val : Nat) : UInt8.ofNat val ||| 0x80 = UInt8.ofNat (val % 128 + 128) := by
  refine UInt8.toNat_inj.mp ?_
  rw [UInt8.toNat_or, UInt8.toNat_ofNat', toNat_ofNat_lt_256 (by omega)]
  have hall : ∀ n < 256, n ||| 128 = n % 128 + 128 := by decide +kernel
  have hmod : val % 128 = val % 256 % 128 := by omega
  rw [hmod]
  exact hall _ (Nat.mod_lt _ (by decide))

/-- **`put_var_u32` and `put_var_u64` write the LEB128 numeral.** -/
theorem triple_putVarLoop (val : Nat) (hroom : (leb128 val).length ≤ room) :
    Triple (Holds out pos room) (BytesMut.putVarLoop val)
      (fun _ => Holds (out ++ leb128 val) pos 0) fun _ _ => False := by
  induction val using Nat.strongRecOn generalizing out room with
  | ind val ih =>
    unfold BytesMut.putVarLoop
    split_ifs with hval
    · have hshift : val >>> 7 = val / 128 := Nat.shiftRight_eq_div_pow val 7
      rw [leb128_of_ge hval, List.length_cons] at hroom
      rw [leb128_of_ge hval, hshift, ofNat_or_high]
      have hone : [UInt8.ofNat (val % 128 + 128)].length + (room - 1) ≤ room := by
        rw [List.length_singleton]
        omega
      rw [List.append_cons]
      refine triple_bind (triple_push _ hone) fun _ => ?_
      exact ih (val / 128) (by omega) (Nat.le_sub_of_add_le hroom)
    · rw [leb128_of_lt (by omega)] at hroom ⊢
      exact triple_push [_] hroom

theorem leb128_length_le_maxBytes (w : VarintWidth) (val : BitVec w.bits) :
    (leb128 val.toNat).length ≤ w.maxBytes := by
  have hval := val.isLt
  cases w with
  | u32 => exact leb128_length_le (Nat.lt_trans hval (by decide))
  | u64 => exact leb128_length_le (Nat.lt_trans hval (by decide))

theorem triple_putVar (w : VarintWidth) (memory : Bool) (val : BitVec w.bits) :
    Triple (Holds out pos 0) (BytesMut.putVar w memory val)
      (fun _ => Holds (out ++ leb128 val.toNat) pos 0) (Unharmed (Holds out pos 0)) :=
  triple_bind (triple_ensureWritable memory w.maxBytes) fun _ =>
    (triple_putVarLoop _ (leb128_length_le_maxBytes w val)).mono (fun _ h => h) (fun _ _ h => h)
      fun _ _ h => h.elim

/-- **`put_var_u32` and `put_var_u64` return exactly where there is room or memory for the longest
numeral.** -/
theorem putVar_ok_iff {w : VarintWidth} {memory : Bool} {val : BitVec w.bits} (hm : m.Sound) :
    (∃ m', BytesMut.putVar w memory val m = (.ok (), m')) ↔ m.Writable memory w.maxBytes := by
  rw [← ensureWritable_ok_iff hm]
  constructor
  · rintro ⟨m', h⟩
    obtain ⟨u, m₁, h₁, -⟩ := bind_eq_ok.mp h
    exact ⟨m₁, h₁⟩
  · rintro ⟨m₁, h₁⟩
    have hholds := (triple_ensureWritable memory w.maxBytes).ok hm.holds h₁
    have hloop := triple_putVarLoop _ (leb128_length_le_maxBytes w val) m₁ hholds
    unfold BytesMut.putVar
    rw [bind_ok h₁]
    cases hput : BytesMut.putVarLoop val.toNat m₁ with
    | mk res m' =>
      rw [hput] at hloop
      cases res with
      | ok u => exact ⟨m', rfl⟩
      | error e => exact hloop.elim

theorem triple_fill (val : UInt8) :
    Triple (Holds out pos 0) (BytesMut.fill val)
      (fun _ => Holds (List.replicate out.length val) pos 0) (Unharmed (Holds out pos 0)) := by
  refine triple_getState_bind fun m hm => ?_
  have hlen := Nat.le_trans hm.sound.len_le hm.sound.capacity_le
  have hstore : storeRange m.block 0 (List.replicate m.len val) =
      (pure (List.replicate m.len val ++ m.block.drop m.len) : Mut Bytes) := by
    unfold storeRange
    rw [List.length_replicate, if_pos (by omega), List.take_zero, List.nil_append, Nat.zero_add]
  rw [hstore]
  rintro s rfl
  simp only [pure_bind_apply, modify_apply]
  have hblock : (List.replicate s.len val ++ s.block.drop s.len).length = s.block.length := by
    rw [List.length_append, List.length_replicate, List.length_drop]
    omega
  refine ⟨⟨⟨hm.sound.pos_le, hm.sound.len_le, ?_⟩, ?_⟩, ?_, hm.pos, hm.room⟩
  · exact hm.sound.capacity_le.trans_eq hblock.symm
  · exact hblock.trans_le hm.sound.block_le
  · rw [← hm.len]
    exact List.take_left' List.length_replicate

/-! ## Reading -/

theorem triple_advance (count : Nat) :
    Triple (Holds out pos 0) (BytesMut.advance count)
      (fun _ => Holds out (pos + count) 0) (Unharmed (Holds out pos 0)) := by
  refine triple_getState_bind fun m hm => ?_
  refine triple_failIf_bind (fun s _ hs => ⟨by simp, hs ▸ hm⟩) fun hcount => ?_
  refine triple_modify fun s hs => ?_
  subst hs
  rw [hm.sound.remaining_eq] at hcount
  have hpos := hm.sound.pos_le
  refine ⟨⟨⟨?_, hm.sound.len_le, hm.sound.capacity_le⟩, hm.sound.block_le⟩, hm.written, ?_, hm.room⟩
  · change s.pos + count ≤ s.len
    omega
  · exact congrArg (· + count) hm.pos

/-- **The typed reads** return the next bytes, or leave the cursor. -/
theorem triple_getBytes (count : Nat) (hcount : count ≤ 8) :
    Triple (Holds out pos 0) (BytesMut.getBytes count)
      (fun bytes m => bytes = (out.drop pos).take count ∧ Holds out (pos + count) 0 m)
      (Unharmed (Holds out pos 0)) := by
  refine triple_getState_bind fun m hm => ?_
  refine triple_failIf_bind (fun s _ hs => ⟨by simp, hs ▸ hm⟩) fun hlen => ?_
  have hbound := hm.sound.len_lt
  have hpos := hm.sound.pos_le
  have hblock := Nat.le_trans hm.sound.len_le hm.sound.capacity_le
  unfold usizeAdd at hlen
  unfold ptrdiffMax at hbound
  rw [Nat.mod_eq_of_lt (by omega)] at hlen
  have hload : loadRange m.block m.pos count =
      (pure ((out.drop pos).take count) : Mut Bytes) := by
    unfold loadRange
    rw [if_pos (by omega), ← hm.written, ← hm.pos]
    congr 1
    unfold BytesMut.written
    rw [List.drop_take, List.take_take, Nat.min_eq_left (by omega)]
  rw [hload]
  rintro s rfl
  refine ⟨rfl, ⟨⟨?_, hm.sound.len_le, hm.sound.capacity_le⟩, hm.sound.block_le⟩, hm.written, ?_,
    hm.room⟩
  · change s.pos + count ≤ s.len
    omega
  · exact congrArg (· + count) hm.pos

end Libca.Core
