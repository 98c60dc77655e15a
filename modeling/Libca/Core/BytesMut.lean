import Libca.Common.Fallible
import Libca.Common.Bytes

/-!
# Byte buffers

Model of `BytesMut` and of the reading side of `Bytes` (`core/bytes.{hpp,cpp}`).

* A block that `new u8[n]` returns is a list of `n` bytes; a null pointer is the empty list. What is
  in a fresh block is not specified, and stands here as zeros.
* Every access to a block is checked: `outOfBlock` is an access outside of it, which the code does
  not notice.
* `memory` says whether the allocation of a call succeeds; none does for more than `PTRDIFF_MAX`
  bytes.
* The signed and floating-point accessors read and write the same bits as the unsigned ones of their
  width and are left out.
-/

namespace Libca.Core

open Common Fallible

/-- `SIZE_MAX`. -/
def sizeMax : Nat := 2 ^ 64 - 1

/-- `PTRDIFF_MAX`. -/
def ptrdiffMax : Nat := 2 ^ 63 - 1

/-- Addition of `usize`. -/
def usizeAdd (a b : Nat) : Nat := (a + b) % 2 ^ 64

/-- Subtraction of `usize`. -/
def usizeSub (a b : Nat) : Nat := (a + (2 ^ 64 - b)) % 2 ^ 64

/-- `BytesError`. -/
inductive BytesError
  | underflow
  | malformedVarint
  deriving DecidableEq

/-- How a call ends that returns no value: an error it returns, an exception, or an access outside
of the block. -/
inductive Stop
  | error (e : BytesError)
  | lengthError (message : String)
  | badAlloc
  | outOfBlock
  deriving DecidableEq

/-- `BytesMut`; `block` is what `data_` owns. -/
structure BytesMut where
  block : Bytes := []
  len : Nat := 0
  capacity : Nat := 0
  pos : Nat := 0
  deriving DecidableEq

/-- A member function of `BytesMut`. -/
abbrev Mut (α : Type) := Fallible BytesMut Stop α

/-! ## Blocks -/

/-- `new u8[size]`. -/
def newBlock {σ : Type} (memory : Bool) (size : Nat) : Fallible σ Stop Bytes :=
  if memory ∧ size ≤ ptrdiffMax then pure (List.replicate size 0) else fail .badAlloc

/-- The `count` bytes at `start` of a block. -/
def loadRange {σ : Type} (block : Bytes) (start count : Nat) : Fallible σ Stop Bytes :=
  if start + count ≤ block.length then pure ((block.drop start).take count) else fail .outOfBlock

/-- A block with `bytes` stored at `start`. -/
def storeRange {σ : Type} (block : Bytes) (start : Nat) (bytes : Bytes) : Fallible σ Stop Bytes :=
  if start + bytes.length ≤ block.length then
    pure (block.take start ++ bytes ++ block.drop (start + bytes.length))
  else fail .outOfBlock

/-- `data_[i]`. -/
def load {σ : Type} (block : Bytes) (i : Nat) : Fallible σ Stop UInt8 :=
  if i < block.length then pure (block.getD i 0) else fail .outOfBlock

/-! ## Capacity -/

/-- The capacity that `grow` asks for. -/
def grownCapacity (capacity minCapacity : Nat) : Nat :=
  max (max (capacity * 2 % 2 ^ 64) minCapacity) 32

/-- `grow`. -/
def BytesMut.grow (memory : Bool) (minCapacity : Nat) : Mut Unit := do
  let m ← getState
  let newData ← newBlock memory (grownCapacity m.capacity minCapacity)
  let old ← loadRange m.block 0 m.len
  let newData ← storeRange newData 0 old
  modify fun m => { m with block := newData, capacity := grownCapacity m.capacity minCapacity }

/-- `ensure_writable`. -/
def BytesMut.ensureWritable (memory : Bool) (needed : Nat) : Mut Unit := do
  let m ← getState
  failIf (needed > sizeMax - m.len) (.lengthError "BytesMut::ensure_writable size overflow")
  if m.len + needed ≤ m.capacity then pure () else BytesMut.grow memory (m.len + needed)

/-- `reserve`. -/
def BytesMut.reserve (memory : Bool) (additional : Nat) : Mut Unit := do
  let m ← getState
  failIf (additional > sizeMax - m.len) (.lengthError "BytesMut::reserve size overflow")
  if m.len + additional > m.capacity then BytesMut.grow memory (m.len + additional) else pure ()

/-! ## Writing -/

/-- Store bytes behind the written ones; there is room. -/
def BytesMut.push (bytes : Bytes) : Mut Unit := do
  let m ← getState
  let block ← storeRange m.block m.len bytes
  modify fun m => { m with block := block, len := m.len + bytes.length }

/-- What the typed `put_` functions and `put_slice` share. -/
def BytesMut.putBytes (memory : Bool) (bytes : Bytes) : Mut Unit := do
  BytesMut.ensureWritable memory bytes.length
  BytesMut.push bytes

/-- `put_slice`. -/
def BytesMut.putSlice (memory : Bool) (bytes : Bytes) : Mut Unit :=
  if bytes.isEmpty then pure () else BytesMut.putBytes memory bytes

/-- The `count` low bytes of `val`, the most significant first. -/
def beBytes (count val : Nat) : Bytes :=
  (List.range count).map fun i => UInt8.ofNat (val >>> (8 * (count - 1 - i)) &&& 0xFF)

/-- The `count` low bytes of `val`, the least significant first. -/
def leBytes (count val : Nat) : Bytes :=
  (List.range count).map fun i => UInt8.ofNat (val >>> (8 * i) &&& 0xFF)

/-- `put_u8`. -/
def BytesMut.putU8 (memory : Bool) (val : UInt8) : Mut Unit := BytesMut.putBytes memory [val]

/-- `put_u16_be`. -/
def BytesMut.putU16Be (memory : Bool) (val : UInt16) : Mut Unit :=
  BytesMut.putBytes memory (beBytes 2 val.toNat)

/-- `put_u16_le`. -/
def BytesMut.putU16Le (memory : Bool) (val : UInt16) : Mut Unit :=
  BytesMut.putBytes memory (leBytes 2 val.toNat)

/-- `put_u32_be`. -/
def BytesMut.putU32Be (memory : Bool) (val : UInt32) : Mut Unit :=
  BytesMut.putBytes memory (beBytes 4 val.toNat)

/-- `put_u32_le`. -/
def BytesMut.putU32Le (memory : Bool) (val : UInt32) : Mut Unit :=
  BytesMut.putBytes memory (leBytes 4 val.toNat)

/-- `put_u64_be`. -/
def BytesMut.putU64Be (memory : Bool) (val : UInt64) : Mut Unit :=
  BytesMut.putBytes memory (beBytes 8 val.toNat)

/-- `put_u64_le`. -/
def BytesMut.putU64Le (memory : Bool) (val : UInt64) : Mut Unit :=
  BytesMut.putBytes memory (leBytes 8 val.toNat)

/-- The two widths of a varint. -/
inductive VarintWidth
  | u32
  | u64
  deriving DecidableEq

/-- The bits of the type. -/
def VarintWidth.bits : VarintWidth → Nat
  | .u32 => 32
  | .u64 => 64

/-- The most bytes that an encoding takes. -/
def VarintWidth.maxBytes : VarintWidth → Nat
  | .u32 => 5
  | .u64 => 10

/-- The largest byte that may end an encoding of that length. -/
def VarintWidth.lastMax : VarintWidth → UInt8
  | .u32 => 0x0F
  | .u64 => 0x01

/-- The loop of `put_var_u32` and `put_var_u64`. -/
def BytesMut.putVarLoop (val : Nat) : Mut Unit :=
  if 0x80 ≤ val then do
    BytesMut.push [UInt8.ofNat val ||| 0x80]
    BytesMut.putVarLoop (val >>> 7)
  else BytesMut.push [UInt8.ofNat val]
termination_by val
decreasing_by
  rw [Nat.shiftRight_eq_div_pow]
  omega

/-- `put_var_u32` and `put_var_u64`. -/
def BytesMut.putVar (w : VarintWidth) (memory : Bool) (val : BitVec w.bits) : Mut Unit := do
  BytesMut.ensureWritable memory w.maxBytes
  BytesMut.putVarLoop val.toNat

/-- `fill`. -/
def BytesMut.fill (val : UInt8) : Mut Unit := do
  let m ← getState
  let block ← storeRange m.block 0 (List.replicate m.len val)
  modify fun m => { m with block := block }

/-! ## Reading -/

/-- `remaining`. -/
def BytesMut.remaining (m : BytesMut) : Nat := usizeSub m.len m.pos

/-- `advance`. -/
def BytesMut.advance (count : Nat) : Mut Unit := do
  let m ← getState
  failIf (count > m.remaining) (.error .underflow)
  modify fun m => { m with pos := m.pos + count }

/-- What the typed `get_` functions share: the next `count` bytes. -/
def BytesMut.getBytes (count : Nat) : Mut Bytes := do
  let m ← getState
  failIf (usizeAdd m.pos count > m.len) (.error .underflow)
  let bytes ← loadRange m.block m.pos count
  modify fun m => { m with pos := m.pos + count }
  pure bytes

/-- The value of bytes, the most significant first. -/
def beValue (bytes : Bytes) : Nat := bytes.foldl (fun acc b => acc <<< 8 ||| b.toNat) 0

/-- The value of bytes, the least significant first. -/
def leValue (bytes : Bytes) : Nat := beValue bytes.reverse

/-- `get_u8`. -/
def BytesMut.getU8 : Mut UInt8 := do
  let bytes ← BytesMut.getBytes 1
  pure (UInt8.ofNat (beValue bytes))

/-- `get_u16_be`. -/
def BytesMut.getU16Be : Mut UInt16 := do
  let bytes ← BytesMut.getBytes 2
  pure (UInt16.ofNat (beValue bytes))

/-- `get_u16_le`. -/
def BytesMut.getU16Le : Mut UInt16 := do
  let bytes ← BytesMut.getBytes 2
  pure (UInt16.ofNat (leValue bytes))

/-- `get_u32_be`. -/
def BytesMut.getU32Be : Mut UInt32 := do
  let bytes ← BytesMut.getBytes 4
  pure (UInt32.ofNat (beValue bytes))

/-- `get_u32_le`. -/
def BytesMut.getU32Le : Mut UInt32 := do
  let bytes ← BytesMut.getBytes 4
  pure (UInt32.ofNat (leValue bytes))

/-- `get_u64_be`. -/
def BytesMut.getU64Be : Mut UInt64 := do
  let bytes ← BytesMut.getBytes 8
  pure (UInt64.ofNat (beValue bytes))

/-- `get_u64_le`. -/
def BytesMut.getU64Le : Mut UInt64 := do
  let bytes ← BytesMut.getBytes 8
  pure (UInt64.ofNat (leValue bytes))

/-- The loop of `get_var_u32` and `get_var_u64`, with the byte at the cursor plus `i` as `byteAt i`:
the value read, and the number of bytes it took. -/
def getVarLoop {σ : Type} (w : VarintWidth) (remaining : Nat)
    (byteAt : Nat → Fallible σ Stop UInt8) : Nat → Nat → Nat → Fallible σ Stop (Nat × Nat)
  | 0, _, _ => fail (.error .malformedVarint)
  | steps + 1, i, result => do
    failIf (i ≥ remaining) (.error .underflow)
    let byte ← byteAt i
    failIf (0 < i ∧ byte = 0) (.error .malformedVarint)
    failIf (i = w.maxBytes - 1 ∧ w.lastMax < byte) (.error .malformedVarint)
    let result := result ||| (byte &&& 0x7F).toNat <<< (7 * i) % 2 ^ w.bits
    if byte &&& 0x80 = 0 then pure (result, i + 1)
    else getVarLoop w remaining byteAt steps (i + 1) result

/-- `BytesMut::get_var_u32` and `BytesMut::get_var_u64`. -/
def BytesMut.getVar (w : VarintWidth) : Mut (BitVec w.bits) := do
  let m ← getState
  let (value, count) ← getVarLoop w m.remaining (fun i => load m.block (m.pos + i)) w.maxBytes 0 0
  modify fun m => { m with pos := m.pos + count }
  pure (BitVec.ofNat w.bits value)

/-! ## Other members -/

/-- `clear`. -/
def BytesMut.clear : Mut Unit := modify fun m => { m with len := 0, pos := 0 }

/-- `truncate`. -/
def BytesMut.truncate (newLen : Nat) : Mut Unit :=
  modify fun m => if newLen < m.len then { m with len := newLen, pos := min m.pos newLen } else m

/-- `Bytes`: the storage from `ptr_` on, the length, and the cursor. -/
structure FrozenBytes where
  storage : Bytes := []
  len : Nat := 0
  pos : Nat := 0
  deriving DecidableEq

/-- `freeze`. -/
def BytesMut.freeze : Mut FrozenBytes := do
  let m ← getState
  if m.len = 0 then pure {}
  else
    modify fun _ => {}
    pure { storage := m.block, len := m.len }

/-- `Bytes::remaining`. -/
def FrozenBytes.remaining (b : FrozenBytes) : Nat := usizeSub b.len b.pos

/-- `Bytes::get_var_u32` and `Bytes::get_var_u64`. -/
def FrozenBytes.getVar (w : VarintWidth) : Fallible FrozenBytes Stop (BitVec w.bits) := do
  let b ← getState
  let (value, count) ← getVarLoop w b.remaining (fun i => load b.storage (b.pos + i)) w.maxBytes 0 0
  modify fun b => { b with pos := b.pos + count }
  pure (BitVec.ofNat w.bits value)

end Libca.Core
