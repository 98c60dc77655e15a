import Libca.Common.BigEndian

/-!
# AES, the builtin implementation (`crypto/aes.cpp` 83-966)

The tables, the key schedule, the cipher and its inverse, and the modes over them. A key is a byte
string whose length was checked (`AesKey`), a block is a vector of sixteen bytes, so that every
index of the source is in bounds by its type. Wiping memory has no counterpart here.

Left out: GCM, the external backends, the wiping of memory.
-/

namespace Libca.Crypto

open Common

inductive CryptoError
  | invalidArgument
  | invalidHex
  | invalidBase64
  | invalidBase32
  | randomFailed
  | unsupportedAlgorithm
  | authenticationFailed
  | backendFailed
deriving DecidableEq, Repr

/-- A block; byte `r + 4 * c` stands in row `r` and column `c` of the state. -/
abbrev Block := Vector UInt8 16

abbrev Column := Vector UInt8 4

/-! ## Bytes -/

set_option maxRecDepth 2000 in
def aesSbox : Vector UInt8 256 := #v[
    0x63, 0x7c, 0x77, 0x7b, 0xf2, 0x6b, 0x6f, 0xc5, 0x30, 0x01, 0x67, 0x2b, 0xfe, 0xd7, 0xab, 0x76,
    0xca, 0x82, 0xc9, 0x7d, 0xfa, 0x59, 0x47, 0xf0, 0xad, 0xd4, 0xa2, 0xaf, 0x9c, 0xa4, 0x72, 0xc0,
    0xb7, 0xfd, 0x93, 0x26, 0x36, 0x3f, 0xf7, 0xcc, 0x34, 0xa5, 0xe5, 0xf1, 0x71, 0xd8, 0x31, 0x15,
    0x04, 0xc7, 0x23, 0xc3, 0x18, 0x96, 0x05, 0x9a, 0x07, 0x12, 0x80, 0xe2, 0xeb, 0x27, 0xb2, 0x75,
    0x09, 0x83, 0x2c, 0x1a, 0x1b, 0x6e, 0x5a, 0xa0, 0x52, 0x3b, 0xd6, 0xb3, 0x29, 0xe3, 0x2f, 0x84,
    0x53, 0xd1, 0x00, 0xed, 0x20, 0xfc, 0xb1, 0x5b, 0x6a, 0xcb, 0xbe, 0x39, 0x4a, 0x4c, 0x58, 0xcf,
    0xd0, 0xef, 0xaa, 0xfb, 0x43, 0x4d, 0x33, 0x85, 0x45, 0xf9, 0x02, 0x7f, 0x50, 0x3c, 0x9f, 0xa8,
    0x51, 0xa3, 0x40, 0x8f, 0x92, 0x9d, 0x38, 0xf5, 0xbc, 0xb6, 0xda, 0x21, 0x10, 0xff, 0xf3, 0xd2,
    0xcd, 0x0c, 0x13, 0xec, 0x5f, 0x97, 0x44, 0x17, 0xc4, 0xa7, 0x7e, 0x3d, 0x64, 0x5d, 0x19, 0x73,
    0x60, 0x81, 0x4f, 0xdc, 0x22, 0x2a, 0x90, 0x88, 0x46, 0xee, 0xb8, 0x14, 0xde, 0x5e, 0x0b, 0xdb,
    0xe0, 0x32, 0x3a, 0x0a, 0x49, 0x06, 0x24, 0x5c, 0xc2, 0xd3, 0xac, 0x62, 0x91, 0x95, 0xe4, 0x79,
    0xe7, 0xc8, 0x37, 0x6d, 0x8d, 0xd5, 0x4e, 0xa9, 0x6c, 0x56, 0xf4, 0xea, 0x65, 0x7a, 0xae, 0x08,
    0xba, 0x78, 0x25, 0x2e, 0x1c, 0xa6, 0xb4, 0xc6, 0xe8, 0xdd, 0x74, 0x1f, 0x4b, 0xbd, 0x8b, 0x8a,
    0x70, 0x3e, 0xb5, 0x66, 0x48, 0x03, 0xf6, 0x0e, 0x61, 0x35, 0x57, 0xb9, 0x86, 0xc1, 0x1d, 0x9e,
    0xe1, 0xf8, 0x98, 0x11, 0x69, 0xd9, 0x8e, 0x94, 0x9b, 0x1e, 0x87, 0xe9, 0xce, 0x55, 0x28, 0xdf,
    0x8c, 0xa1, 0x89, 0x0d, 0xbf, 0xe6, 0x42, 0x68, 0x41, 0x99, 0x2d, 0x0f, 0xb0, 0x54, 0xbb, 0x16]

set_option maxRecDepth 2000 in
def aesInvSbox : Vector UInt8 256 := #v[
    0x52, 0x09, 0x6a, 0xd5, 0x30, 0x36, 0xa5, 0x38, 0xbf, 0x40, 0xa3, 0x9e, 0x81, 0xf3, 0xd7, 0xfb,
    0x7c, 0xe3, 0x39, 0x82, 0x9b, 0x2f, 0xff, 0x87, 0x34, 0x8e, 0x43, 0x44, 0xc4, 0xde, 0xe9, 0xcb,
    0x54, 0x7b, 0x94, 0x32, 0xa6, 0xc2, 0x23, 0x3d, 0xee, 0x4c, 0x95, 0x0b, 0x42, 0xfa, 0xc3, 0x4e,
    0x08, 0x2e, 0xa1, 0x66, 0x28, 0xd9, 0x24, 0xb2, 0x76, 0x5b, 0xa2, 0x49, 0x6d, 0x8b, 0xd1, 0x25,
    0x72, 0xf8, 0xf6, 0x64, 0x86, 0x68, 0x98, 0x16, 0xd4, 0xa4, 0x5c, 0xcc, 0x5d, 0x65, 0xb6, 0x92,
    0x6c, 0x70, 0x48, 0x50, 0xfd, 0xed, 0xb9, 0xda, 0x5e, 0x15, 0x46, 0x57, 0xa7, 0x8d, 0x9d, 0x84,
    0x90, 0xd8, 0xab, 0x00, 0x8c, 0xbc, 0xd3, 0x0a, 0xf7, 0xe4, 0x58, 0x05, 0xb8, 0xb3, 0x45, 0x06,
    0xd0, 0x2c, 0x1e, 0x8f, 0xca, 0x3f, 0x0f, 0x02, 0xc1, 0xaf, 0xbd, 0x03, 0x01, 0x13, 0x8a, 0x6b,
    0x3a, 0x91, 0x11, 0x41, 0x4f, 0x67, 0xdc, 0xea, 0x97, 0xf2, 0xcf, 0xce, 0xf0, 0xb4, 0xe6, 0x73,
    0x96, 0xac, 0x74, 0x22, 0xe7, 0xad, 0x35, 0x85, 0xe2, 0xf9, 0x37, 0xe8, 0x1c, 0x75, 0xdf, 0x6e,
    0x47, 0xf1, 0x1a, 0x71, 0x1d, 0x29, 0xc5, 0x89, 0x6f, 0xb7, 0x62, 0x0e, 0xaa, 0x18, 0xbe, 0x1b,
    0xfc, 0x56, 0x3e, 0x4b, 0xc6, 0xd2, 0x79, 0x20, 0x9a, 0xdb, 0xc0, 0xfe, 0x78, 0xcd, 0x5a, 0xf4,
    0x1f, 0xdd, 0xa8, 0x33, 0x88, 0x07, 0xc7, 0x31, 0xb1, 0x12, 0x10, 0x59, 0x27, 0x80, 0xec, 0x5f,
    0x60, 0x51, 0x7f, 0xa9, 0x19, 0xb5, 0x4a, 0x0d, 0x2d, 0xe5, 0x7a, 0x9f, 0x93, 0xc9, 0x9c, 0xef,
    0xa0, 0xe0, 0x3b, 0x4d, 0xae, 0x2a, 0xf5, 0xb0, 0xc8, 0xeb, 0xbb, 0x3c, 0x83, 0x53, 0x99, 0x61,
    0x17, 0x2b, 0x04, 0x7e, 0xba, 0x77, 0xd6, 0x26, 0xe1, 0x69, 0x14, 0x63, 0x55, 0x21, 0x0c, 0x7d]

def sbox (b : UInt8) : UInt8 := aesSbox.get b.toFin

def invSbox (b : UInt8) : UInt8 := aesInvSbox.get b.toFin

/-- Multiplication by `2` in GF(2^8). -/
def xtime (value : UInt8) : UInt8 := (value <<< 1) ^^^ (if value &&& 0x80 ≠ 0 then 0x1b else 0x00)

/-- The loop of `gmul`. -/
def gmulLoop (a b result : UInt8) : UInt8 :=
  if b = 0 then result
  else gmulLoop (xtime a) (b >>> 1) (if b &&& 1 ≠ 0 then result ^^^ a else result)
termination_by b.toNat
decreasing_by
  have hb : b.toNat ≠ 0 := fun h => ‹¬b = 0› (UInt8.toNat_inj.mp h)
  rw [UInt8.toNat_shiftRight]
  exact Nat.div_lt_self (Nat.pos_of_ne_zero hb) (by decide)

/-- Multiplication in GF(2^8). -/
def gmul (a b : UInt8) : UInt8 := gmulLoop a b 0

/-! ## The key schedule -/

def keyValid (key : Bytes) : Bool := key.length == 16 || key.length == 24 || key.length == 32

def blockLenValid (len : Nat) : Bool := len % 16 == 0

/-- A key whose length was checked. -/
structure AesKey where
  bytes : Bytes
  valid : keyValid bytes = true

def roundCount (keySize : Nat) : Nat :=
  match keySize with
  | 16 => 10
  | 24 => 12
  | 32 => 14
  | _ => 0

/-- Rounds of a key. -/
def AesKey.rounds (key : AesKey) : Nat := roundCount key.bytes.length

/-- The first `i` words of the key schedule. -/
structure Schedule (i : Nat) where
  words : Vector UInt32 i
  rcon : UInt8

/-- `RotWord`. -/
def rotWord (temp : UInt32) : UInt32 := (temp <<< 8) ||| (temp >>> 24)

/-- `SubWord`. -/
def subWord (temp : UInt32) : UInt32 :=
  (sbox (temp >>> 24).toUInt8).toUInt32 <<< 24 ||| (sbox (temp >>> 16).toUInt8).toUInt32 <<< 16 |||
    (sbox (temp >>> 8).toUInt8).toUInt32 <<< 8 ||| (sbox temp.toUInt8).toUInt32

/-- The next word. -/
def Schedule.next {nk i : Nat} (s : Schedule i) (hnk : 0 < nk) (hi : nk ≤ i) : Schedule (i + 1) :=
  let temp := s.words[i - 1]
  if i % nk = 0 then
    { words := s.words.push
        (s.words[i - nk] ^^^ (subWord (rotWord temp) ^^^ s.rcon.toUInt32 <<< 24))
      rcon := xtime s.rcon }
  else if 6 < nk ∧ i % nk = 4 then
    { s with words := s.words.push (s.words[i - nk] ^^^ subWord temp) }
  else { s with words := s.words.push (s.words[i - nk] ^^^ temp) }

/-- So many words more. -/
def Schedule.expand {nk : Nat} (s : Schedule nk) (hnk : 0 < nk) : (n : Nat) → Schedule (nk + n)
  | 0 => s
  | n + 1 => (s.expand hnk n).next hnk (Nat.le_add_right nk n)

/-- The words of the key itself. -/
def keyWords (key : Bytes) : Schedule (key.length / 4) where
  words := Vector.ofFn fun i =>
    key[4 * i.val].toUInt32 <<< 24 ||| key[4 * i.val + 1].toUInt32 <<< 16 |||
      key[4 * i.val + 2].toUInt32 <<< 8 ||| key[4 * i.val + 3].toUInt32
  rcon := 0x01

/-- The keys of rounds `0` to `nr`. -/
abbrev RoundKeys (nr : Nat) := Vector UInt8 (16 * (nr + 1))

theorem AesKey.words_pos (key : AesKey) : 0 < key.bytes.length / 4 := by
  have hvalid := key.valid
  simp only [keyValid, Bool.or_eq_true, beq_iff_eq] at hvalid
  omega

/-- `key_expansion`. -/
def keyExpansion (key : AesKey) : RoundKeys key.rounds :=
  let words := ((keyWords key.bytes).expand key.words_pos
    (4 * (key.rounds + 1) - key.bytes.length / 4)).words
  Vector.ofFn fun i => (words[i.val / 4] >>> (24 - 8 * (i.val % 4)).toUInt32).toUInt8

/-! ## The cipher -/

def subBytes (state : Block) : Block := state.map sbox

def invSubBytes (state : Block) : Block := state.map invSbox

/-- `shift_rows`: row 1, row 2 and row 3. -/
def shiftRows (state : Block) : Block :=
  let temp := state[1]
  let state := (((state.set 1 state[5]).set 5 state[9]).set 9 state[13]).set 13 temp
  let temp := state[2]
  let state := (state.set 2 state[10]).set 10 temp
  let temp := state[6]
  let state := (state.set 6 state[14]).set 14 temp
  let temp := state[15]
  (((state.set 15 state[11]).set 11 state[7]).set 7 state[3]).set 3 temp

def invShiftRows (state : Block) : Block :=
  let temp := state[13]
  let state := (((state.set 13 state[9]).set 9 state[5]).set 5 state[1]).set 1 temp
  let temp := state[2]
  let state := (state.set 2 state[10]).set 10 temp
  let temp := state[6]
  let state := (state.set 6 state[14]).set 14 temp
  let temp := state[3]
  (((state.set 3 state[7]).set 7 state[11]).set 11 state[15]).set 15 temp

def mixColumn (a : Column) : Column :=
  #v[gmul a[0] 2 ^^^ gmul a[1] 3 ^^^ a[2] ^^^ a[3],
    a[0] ^^^ gmul a[1] 2 ^^^ gmul a[2] 3 ^^^ a[3],
    a[0] ^^^ a[1] ^^^ gmul a[2] 2 ^^^ gmul a[3] 3,
    gmul a[0] 3 ^^^ a[1] ^^^ a[2] ^^^ gmul a[3] 2]

def invMixColumn (a : Column) : Column :=
  #v[gmul a[0] 14 ^^^ gmul a[1] 11 ^^^ gmul a[2] 13 ^^^ gmul a[3] 9,
    gmul a[0] 9 ^^^ gmul a[1] 14 ^^^ gmul a[2] 11 ^^^ gmul a[3] 13,
    gmul a[0] 13 ^^^ gmul a[1] 9 ^^^ gmul a[2] 14 ^^^ gmul a[3] 11,
    gmul a[0] 11 ^^^ gmul a[1] 13 ^^^ gmul a[2] 9 ^^^ gmul a[3] 14]

def column (state : Block) (c : Fin 4) : Column := Vector.ofFn fun r => state[4 * c.val + r.val]

/-- The loop over the columns. -/
def onColumns (f : Column → Column) (state : Block) : Block :=
  Vector.ofFn fun i => (f (column state ⟨i.val / 4, by omega⟩))[i.val % 4]

def mixColumns (state : Block) : Block := onColumns mixColumn state

def invMixColumns (state : Block) : Block := onColumns invMixColumn state

def addRoundKey {nr : Nat} (roundKeys : RoundKeys nr) (round : Nat) (h : round ≤ nr)
    (state : Block) : Block :=
  Vector.ofFn fun i => state[i] ^^^ roundKeys[16 * round + i.val]

/-- Rounds `1` to `round`. -/
def encryptRounds {nr : Nat} (roundKeys : RoundKeys nr) :
    (round : Nat) → round ≤ nr → Block → Block
  | 0, _, state => state
  | round + 1, h, state =>
    addRoundKey roundKeys (round + 1) h
      (mixColumns
      (shiftRows (subBytes (encryptRounds roundKeys round (Nat.le_of_succ_le h) state))))

/-- Rounds `round` down to `1`. -/
def decryptRounds {nr : Nat} (roundKeys : RoundKeys nr) :
    (round : Nat) → round ≤ nr → Block → Block
  | 0, _, state => state
  | round + 1, h, state =>
    decryptRounds roundKeys round (Nat.le_of_succ_le h)
      (invMixColumns (addRoundKey roundKeys (round + 1) h (invSubBytes (invShiftRows state))))

def encryptBlock {nr : Nat} (roundKeys : RoundKeys nr) (input : Block) : Block :=
  let state := addRoundKey roundKeys 0 (Nat.zero_le nr) input
  let state := encryptRounds roundKeys (nr - 1) (Nat.sub_le nr 1) state
  addRoundKey roundKeys nr le_rfl (shiftRows (subBytes state))

def decryptBlock {nr : Nat} (roundKeys : RoundKeys nr) (input : Block) : Block :=
  let state := addRoundKey roundKeys nr le_rfl input
  let state := decryptRounds roundKeys (nr - 1) (Nat.sub_le nr 1) state
  addRoundKey roundKeys 0 (Nat.zero_le nr) (invSubBytes (invShiftRows state))

/-! ## The modes -/

/-- The block at the front of a byte string. -/
def firstBlock (data : Bytes) (h : 16 ≤ data.length) : Block := Vector.ofFn fun i => data[i.val]

/-- The blocks of a byte string whose length was checked. -/
def toBlocks (data : Bytes) : List Block :=
  if h : 16 ≤ data.length then firstBlock data h :: toBlocks (data.drop 16) else []
termination_by data.length

/-- The bytes that `put_slice` collects. -/
def ofBlocks (blocks : List Block) : Bytes := blocks.flatMap Vector.toList

def xorBlock (a b : Block) : Block := Vector.zipWith (· ^^^ ·) a b

/-- The loop of `increment_counter`, below an index. -/
def incrementBelow : (i : Nat) → i ≤ 16 → Block → Block
  | 0, _, counter => counter
  | i + 1, h, counter =>
    let counter := counter.set i (counter[i] + 1)
    if counter[i] ≠ 0 then counter else incrementBelow i (Nat.le_of_succ_le h) counter

/-- The counter is one big-endian number. -/
def incrementCounter (counter : Block) : Block := incrementBelow 16 le_rfl counter

/-- `builtin_ecb`; `direction` is true for encryption. -/
def builtinEcb (key : AesKey) (input : Bytes) (direction : Bool) : Bytes :=
  let roundKeys := keyExpansion key
  ofBlocks ((toBlocks input).map
    fun block => if direction then encryptBlock roundKeys block else decryptBlock roundKeys block)

def cbcEncrypt {nr : Nat} (roundKeys : RoundKeys nr) : Block → List Block → List Block
  | _, [] => []
  | feedback, block :: blocks =>
    let feedback := encryptBlock roundKeys (xorBlock block feedback)
    feedback :: cbcEncrypt roundKeys feedback blocks

def cbcDecrypt {nr : Nat} (roundKeys : RoundKeys nr) : Block → List Block → List Block
  | _, [] => []
  | feedback, block :: blocks =>
    xorBlock (decryptBlock roundKeys block) feedback :: cbcDecrypt roundKeys block blocks

/-- `builtin_cbc`: the loop, in both directions. -/
def builtinCbc (key : AesKey) (iv : Block) (input : Bytes) (direction : Bool) : Bytes :=
  let roundKeys := keyExpansion key
  ofBlocks (if direction then cbcEncrypt roundKeys iv (toBlocks input)
    else cbcDecrypt roundKeys iv (toBlocks input))

/-- The loop of `builtin_ctr` on the rest of the input. -/
def ctrLoop {nr : Nat} (roundKeys : RoundKeys nr) (counter : Block) (input : Bytes) : Bytes :=
  if input = [] then []
  else
    List.zipWith (· ^^^ ·) (input.take 16) (encryptBlock roundKeys counter).toList ++
      ctrLoop roundKeys (incrementCounter counter) (input.drop 16)
termination_by input.length
decreasing_by
  have hpos : 0 < input.length := List.length_pos_iff.mpr ‹_›
  rw [List.length_drop]
  omega

def builtinCtr (key : AesKey) (counter : Block) (input : Bytes) : Bytes :=
  ctrLoop (keyExpansion key) counter input

/-! ## The functions of the interface -/

inductive AesBackend
  | builtin
  | openSsl
  | cng
  | auto
deriving DecidableEq, Repr

inductive AesMode
  | ecb
  | cbc
  | ctr

/-- A build: the backends it has besides the builtin one, as functions of the mode, the key, the
initial vector, the input and the direction. -/
structure AesBuild where
  openSsl : Option (AesMode → Bytes → Bytes → Bytes → Bool → Except CryptoError Bytes)
  cng : Option (AesMode → Bytes → Bytes → Bytes → Bool → Except CryptoError Bytes)

def resolveBackend (build : AesBuild) (backend : AesBackend) : AesBackend :=
  if backend ≠ .auto then backend
  else if build.openSsl.isSome then .openSsl
  else if build.cng.isSome then .cng
  else .builtin

/-- The `switch` over the backend. -/
def dispatch (build : AesBuild) (backend : AesBackend) (mode : AesMode) (key iv input : Bytes)
    (direction : Bool) (builtin : Bytes) : Except CryptoError Bytes :=
  let external (impl : Option (AesMode → Bytes → Bytes → Bytes → Bool →
    Except CryptoError Bytes)) :=
    match impl with
    | some crypt => crypt mode key iv input direction
    | none => .error .unsupportedAlgorithm
  match resolveBackend build backend with
  | .builtin => .ok builtin
  | .openSsl => external build.openSsl
  | .cng => external build.cng
  | .auto => .error .unsupportedAlgorithm

/-- `aes_ecb_encrypt` and `aes_ecb_decrypt`. -/
def aesEcb (build : AesBuild) (direction : Bool) (key input : Bytes) (backend : AesBackend) :
    Except CryptoError Bytes :=
  if h : keyValid key = true ∧ blockLenValid input.length = true then
    dispatch build backend .ecb key [] input direction (builtinEcb ⟨key, h.1⟩ input direction)
  else .error .invalidArgument

def aesEcbEncrypt (build : AesBuild) := aesEcb build true

def aesEcbDecrypt (build : AesBuild) := aesEcb build false

/-- `aes_cbc_encrypt` and `aes_cbc_decrypt`. -/
def aesCbc (build : AesBuild) (direction : Bool) (key iv input : Bytes) (backend : AesBackend) :
    Except CryptoError Bytes :=
  if h : keyValid key = true ∧ iv.length = 16 ∧ blockLenValid input.length = true then
    dispatch build backend .cbc key iv input direction
      (builtinCbc ⟨key, h.1⟩ (firstBlock iv (Nat.le_of_eq h.2.1.symm)) input direction)
  else .error .invalidArgument

def aesCbcEncrypt (build : AesBuild) := aesCbc build true

def aesCbcDecrypt (build : AesBuild) := aesCbc build false

def aesCtrCrypt (build : AesBuild) (key counterBlock data : Bytes) (backend : AesBackend) :
    Except CryptoError Bytes :=
  if h : keyValid key = true ∧ counterBlock.length = 16 then
    dispatch build backend .ctr key counterBlock data true
      (builtinCtr ⟨key, h.1⟩ (firstBlock counterBlock (Nat.le_of_eq h.2.symm)) data)
  else .error .invalidArgument

end Libca.Crypto
