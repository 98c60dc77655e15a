import Libca.Crypto.BlockHash
import Libca.Crypto.Compression

/-!
# The hash classes (`crypto/{md5,sha1,sha256,sha512,sha3}.cpp`)

The five classes over a compression function as `HashKind`s, the class `SHA3`, and all of them as
one type of hashers whose calls a caller makes in any order.
-/

namespace Libca.Crypto

open Common

/-- The hexadecimal digits that the overload of `get_hash` for strings makes of a digest. -/
def toHex (digest : Bytes) : Bytes :=
  digest.flatMap fun b => [digitChar (b.toNat / 16), digitChar (b.toNat % 16)]

/-- `process_buffer` of the classes with a block of 64 bytes counts bits. -/
def paddedLength64 (bufferSize : Nat) : Nat :=
  let paddedLength := bufferSize * 8 + 1
  let lower11Bits := paddedLength % 512
  (if lower11Bits ≤ 448 then paddedLength + (448 - lower11Bits)
    else paddedLength + (512 + 448 - lower11Bits)) / 8

/-- `sha512_finalize` counts bytes. -/
def paddedLength128 (bufferSize : Nat) : Nat :=
  let paddedLen := bufferSize + 1
  let lower7bits := paddedLen % 128
  if lower7bits ≤ 112 then paddedLen + (112 - lower7bits) else paddedLen + (128 + 112 - lower7bits)

def beBytes32 (words : List UInt32) : Bytes := words.flatMap fun w => toBe 4 w.toNat

def leBytes32 (words : List UInt32) : Bytes := words.flatMap fun w => toLe 4 w.toNat

def beBytes64 (words : List UInt64) : Bytes := words.flatMap fun w => toBe 8 w.toNat

def md5 : HashKind where
  Chain := Md5.Chain
  blockSize := 64
  initial := #v[0x67452301, 0xefcdab89, 0x98badcfe, 0x10325476]
  processBlock := Md5.processBlock
  paddedLength := paddedLength64
  guarded := true
  lengthField total := toLe 8 (8 * total).toNat
  output hash := leBytes32 hash.toList
  restore old _ := old

def sha1 : HashKind where
  Chain := Sha1.Chain
  blockSize := 64
  initial := #v[0x67452301, 0xefcdab89, 0x98badcfe, 0x10325476, 0xc3d2e1f0]
  processBlock := Sha1.processBlock
  paddedLength := paddedLength64
  guarded := true
  lengthField total := toBe 8 (8 * total).toNat
  output hash := beBytes32 hash.toList
  restore old _ := old

def sha256 : HashKind where
  Chain := Sha256.Chain
  blockSize := 64
  initial := #v[0x6a09e667, 0xbb67ae85, 0x3c6ef372, 0xa54ff53a, 0x510e527f, 0x9b05688c, 0x1f83d9ab,
    0x5be0cd19]
  processBlock := Sha256.processBlock
  paddedLength := paddedLength64
  guarded := true
  lengthField total := toBe 8 (8 * total).toNat
  output hash := beBytes32 hash.toList
  restore old _ := old

/-- The length field of `sha512_finalize`, in two halves. -/
def lengthField128 (total : UInt64) : Bytes :=
  toBe 8 (total >>> 61).toNat ++ toBe 8 (total <<< 3).toNat

def sha512 : HashKind where
  Chain := Sha512.Chain
  blockSize := 128
  initial := #v[0x6a09e667f3bcc908, 0xbb67ae8584caa73b, 0x3c6ef372fe94f82b, 0xa54ff53a5f1d36f1,
    0x510e527fade682d1, 0x9b05688c2b3e6c1f, 0x1f83d9abfb41bd6b, 0x5be0cd19137e2179]
  processBlock := Sha512.compress
  paddedLength := paddedLength128
  guarded := false
  lengthField := lengthField128
  output hash := beBytes64 hash.toList
  restore old _ := old

/-- `SHA384::get_hash` goes through six of the eight words, to write them and to restore them. -/
def sha384 : HashKind where
  Chain := Sha512.Chain
  blockSize := 128
  initial := #v[0xcbbb9d5dc1059ed8, 0x629a292a367cd507, 0x9159015a3070dd17, 0x152fecd8f70e5939,
    0x67332667ffc00b31, 0x8eb44a8768581511, 0xdb0c2e0d64f98fa7, 0x47b5481dbefa4fa4]
  processBlock := Sha512.compress
  paddedLength := paddedLength128
  guarded := false
  lengthField := lengthField128
  output hash := beBytes64 (hash.toList.take 6)
  restore old new := Vector.ofFn fun i => if i.val < 6 then old[i] else new[i]

/-! ## SHA-3 -/

inductive Sha3Bits
  | bits224
  | bits256
  | bits384
  | bits512
deriving DecidableEq, Repr

/-- `m_rate`. -/
def Sha3Bits.rate : Sha3Bits → Nat
  | bits224 => 144
  | bits256 => 136
  | bits384 => 104
  | bits512 => 72

/-- `m_digest_size`. -/
def Sha3Bits.digestSize : Sha3Bits → Nat
  | bits224 => 224 / 8
  | bits256 => 256 / 8
  | bits384 => 384 / 8
  | bits512 => 512 / 8

/-- The lane that begins at an offset, the lowest byte first. -/
def lane (block : Bytes) (offset : Nat) : UInt64 :=
  ((block.drop offset).take 8).foldr (fun b lane => (lane <<< 8) ||| b.toUInt64) 0

/-- `absorb_block`. -/
def absorbBlock (bits : Sha3Bits) (state : Keccak.Lanes) (block : Vector UInt8 bits.rate) :
    Keccak.Lanes :=
  Keccak.permute (Vector.ofFn fun i =>
    if 8 * i.val < bits.rate then state.get i ^^^ lane block.toList (8 * i.val) else state.get i)

structure Sha3State where
  state : Keccak.Lanes
  buffer : Vector UInt8 144
  bufferSize : Nat

namespace Sha3State

variable (bits : Sha3Bits)

def reset (_ : Sha3State) : Sha3State :=
  { state := Vector.replicate 25 0, buffer := Vector.replicate 144 0, bufferSize := 0 }

def init : Sha3State :=
  { state := Vector.replicate 25 0, buffer := Vector.replicate 144 0, bufferSize := 0 }

/-- The block at the front of the buffer. -/
def bufferBlock (s : Sha3State) : Vector UInt8 bits.rate :=
  front s.buffer.toList (by
    rw [Vector.length_toList]
    cases bits <;> decide)

/-- The loop over the blocks of the data. -/
def absorbBlocks (state : Keccak.Lanes) (data : Bytes) : Keccak.Lanes × Bytes :=
  if h : bits.rate ≤ data.length then
    absorbBlocks (absorbBlock bits state (front data h)) (data.drop bits.rate)
  else (state, data)
termination_by data.length
decreasing_by
  have hpos : 0 < bits.rate := by cases bits <;> decide
  rw [List.length_drop]
  omega

/-- `memcpy` to the end of what is buffered. -/
def append (s : Sha3State) (bytes : Bytes) : Sha3State :=
  { s with
    buffer := writeAt s.buffer s.bufferSize bytes
    bufferSize := s.bufferSize + bytes.length }

/-- The first part of `add`: a buffer that is not empty is filled, and absorbed when it is full. -/
def fillBuffer (s : Sha3State) (data : Bytes) : Sha3State × Bytes :=
  if 0 < s.bufferSize then
    let taken := min data.length (bits.rate - s.bufferSize)
    let s := s.append (data.take taken)
    let s :=
      if s.bufferSize = bits.rate then
        { s with state := absorbBlock bits s.state (s.bufferBlock bits), bufferSize := 0 }
      else s
    (s, data.drop taken)
  else (s, data)

/-- The rest of `add`: whole blocks are absorbed, and what is left is buffered. -/
def absorbRest (s : Sha3State) (data : Bytes) : Sha3State :=
  let (state, data) := absorbBlocks bits s.state data
  let s := { s with state := state }
  if 0 < data.length then s.append data else s

def add (s : Sha3State) (data : Bytes) : Sha3State :=
  if data = [] then s
  else
    let (s, data) := s.fillBuffer bits data
    s.absorbRest bits data

/-- The last block of `squeeze_into`. -/
def lastBlock (s : Sha3State) : Vector UInt8 bits.rate :=
  let block : Vector UInt8 bits.rate := Vector.ofFn fun i =>
    if i.val < s.bufferSize then s.buffer.toList.getD i.val 0 else 0
  let block := block.setIfInBounds s.bufferSize 0x06
  Vector.ofFn fun i => if i.val = bits.rate - 1 then block[i] ||| 0x80 else block[i]

/-- The first bytes of the lanes. -/
def output (state : Keccak.Lanes) : Bytes :=
  (state.toList.flatMap fun w => toLe 8 w.toNat).take bits.digestSize

/-- `squeeze_into` works on a copy. -/
def squeezeInto (s : Sha3State) : Bytes := output bits (absorbBlock bits s.state (s.lastBlock bits))

end Sha3State

/-! ## All classes -/

inductive HashClass
  | md5
  | sha1
  | sha256
  | sha384
  | sha512
  | sha3 (bits : Sha3Bits)
deriving DecidableEq, Repr

/-- The calls of a class; `getHash` gives the bytes of the digest. -/
structure Hasher where
  State : Type
  init : State
  reset : State → State
  add : State → Bytes → State
  getHash : State → (Nat → UInt8) → Bytes × State

def HashKind.hasher (k : HashKind) : Hasher where
  State := HashState k
  init := HashState.init k
  reset := HashState.reset
  add := HashState.add
  getHash := HashState.getHash

def HashClass.hasher : HashClass → Hasher
  | md5 => Crypto.md5.hasher
  | sha1 => Crypto.sha1.hasher
  | sha256 => Crypto.sha256.hasher
  | sha384 => Crypto.sha384.hasher
  | sha512 => Crypto.sha512.hasher
  | sha3 bits =>
    { State := Sha3State
      init := Sha3State.init
      reset := Sha3State.reset
      add := Sha3State.add bits
      getHash := fun s _ => (s.squeezeInto bits, s) }

/-- A call; `garbage` is what memory holds that was not written to, and `text` says which overload
of `get_hash` is called. `SHA3` has the one for strings. -/
inductive HashCall
  | reset
  | add (data : Bytes)
  | getHash (garbage : Nat → UInt8) (text : Bool)

/-- A digest as the overload gives it. -/
def render (text : Bool) (digest : Bytes) : Bytes := if text then toHex digest else digest

/-- What the calls of `get_hash` return. -/
def Hasher.results (h : Hasher) : h.State → List HashCall → List Bytes
  | _, [] => []
  | s, .reset :: calls => h.results (h.reset s) calls
  | s, .add data :: calls => h.results (h.add s data) calls
  | s, .getHash garbage text :: calls =>
    let (digest, s) := h.getHash s garbage
    render text digest :: h.results s calls

end Libca.Crypto
