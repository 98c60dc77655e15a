import Libca.Common.Absorb
import Libca.Common.BigEndian

/-!
# The hash classes over a compression function (`crypto/md5.cpp` 55-258)

`MD5`, `SHA1`, `SHA256`, `SHA384` and `SHA512` keep a chain, a buffer of one block and a count of
the bytes that went through. They have the same `reset`, `add`, `process_buffer` and `get_hash`; a
`HashKind` says what differs. Memory that was not written to has any content (`garbage`).
-/

namespace Libca.Crypto

open Common

/-- What distinguishes the classes. -/
structure HashKind where
  Chain : Type
  blockSize : Nat
  initial : Chain
  processBlock : Chain → Vector UInt8 blockSize → Chain
  /-- The length of a buffer of so many bytes with its padding, the length field apart. -/
  paddedLength : Nat → Nat
  /-- Whether `process_buffer` asks if the marker is still in the buffer. -/
  guarded : Bool
  /-- The length field, of the number of bytes. -/
  lengthField : UInt64 → Bytes
  output : Chain → Bytes
  /-- `hash_` after `get_hash`, of what it was before and of what `process_buffer` left. -/
  restore : Chain → Chain → Chain

structure HashState (k : HashKind) where
  numBytes : UInt64
  bufferSize : Nat
  buffer : Vector UInt8 k.blockSize
  hash : k.Chain

variable {k : HashKind}

namespace HashState

def reset (s : HashState k) : HashState k :=
  { s with numBytes := 0, bufferSize := 0, hash := k.initial }

/-- The constructor. -/
def init (k : HashKind) : HashState k :=
  { numBytes := 0, bufferSize := 0, buffer := Vector.replicate k.blockSize 0, hash := k.initial }

/-- One byte into the buffer. -/
def push (s : HashState k) (b : UInt8) : HashState k :=
  { s with buffer := s.buffer.setIfInBounds s.bufferSize b, bufferSize := s.bufferSize + 1 }

/-- The first loop of `add`, which fills a buffer that is not empty. -/
def fillBuffer (s : HashState k) : Bytes → HashState k × Bytes
  | [] => (s, [])
  | b :: bs => if s.bufferSize < k.blockSize then fillBuffer (s.push b) bs else (s, b :: bs)

/-- The loop over the blocks of the data. -/
def processBlocks (s : HashState k) (data : Bytes) : HashState k × Bytes :=
  if h : 0 < k.blockSize ∧ k.blockSize ≤ data.length then
    processBlocks
      { s with
        hash := k.processBlock s.hash (front data h.2)
        numBytes := s.numBytes + k.blockSize.toUInt64 }
      (data.drop k.blockSize)
  else (s, data)
termination_by data.length
decreasing_by
  rw [List.length_drop]
  omega

def add (s : HashState k) (data : Bytes) : HashState k :=
  let (s, data) := if 0 < s.bufferSize then s.fillBuffer data else (s, data)
  let s :=
    if s.bufferSize = k.blockSize then
      { s with
        hash := k.processBlock s.hash s.buffer
        numBytes := s.numBytes + k.blockSize.toUInt64
        bufferSize := 0 }
    else s
  if data = [] then s
  else
    let (s, data) := s.processBlocks data
    data.foldl push s

end HashState

/-- A loop that writes zeros from one index up to another. -/
def zeroRange {n : Nat} (buffer : Vector UInt8 n) (start stop : Nat) : Vector UInt8 n :=
  Vector.ofFn fun i => if start ≤ i.val ∧ i.val < stop then 0 else buffer[i]

/-- Assignments that write bytes from an index on. -/
def writeAt {n : Nat} (buffer : Vector UInt8 n) (start : Nat) (bytes : Bytes) : Vector UInt8 n :=
  Vector.ofFn fun i => if start ≤ i.val then bytes.getD (i.val - start) buffer[i] else buffer[i]

namespace HashState

/-- The two blocks of `process_buffer`: the buffer, and the extra block that it may need. -/
def finalBlocks (s : HashState k) (garbage : Nat → UInt8) :
    Vector UInt8 k.blockSize × Vector UInt8 k.blockSize :=
  let paddedLength := k.paddedLength s.bufferSize
  let extra := Vector.ofFn fun i => garbage i.val
  let (buffer, extra) :=
    if k.guarded = false ∨ s.bufferSize < k.blockSize then
      (s.buffer.setIfInBounds s.bufferSize 128, extra)
    else (s.buffer, extra.setIfInBounds 0 128)
  let buffer := zeroRange buffer (s.bufferSize + 1) k.blockSize
  let extra := zeroRange extra (max k.blockSize (s.bufferSize + 1) - k.blockSize)
    (paddedLength - k.blockSize)
  let lengthField := k.lengthField (s.numBytes + s.bufferSize.toUInt64)
  if paddedLength < k.blockSize then (writeAt buffer paddedLength lengthField, extra)
  else (buffer, writeAt extra (paddedLength - k.blockSize) lengthField)

def processBuffer (s : HashState k) (garbage : Nat → UInt8) : HashState k :=
  let (buffer, extra) := s.finalBlocks garbage
  let hash := k.processBlock s.hash buffer
  { s with
    buffer := buffer
    hash := if k.blockSize < k.paddedLength s.bufferSize then k.processBlock hash extra else hash }

/-- `get_hash` into a buffer. -/
def getHash (s : HashState k) (garbage : Nat → UInt8) : Bytes × HashState k :=
  let processed := s.processBuffer garbage
  (k.output processed.hash, { processed with hash := k.restore s.hash processed.hash })

end HashState

end Libca.Crypto
