import Libca.Common.Blockwise
import Libca.Common.Feistel
import Libca.Crypto.Aes

/-!
# DES

The functions of `des.cpp`. An entry `n` of a table takes bit `n` of the input, counted from the
most significant bit, which is bit one.

* `permute`, `feistel`, `deriveSubkeys`, `desCryptBlock`: one block.
* `desEcbCrypt`, `desCbcCrypt`: the modes.
* `pkcs5Pad`, `pkcs5Unpad`: the padding.
-/

namespace Libca.Crypto.Des

open Common

/-! ## The tables -/

/-- The initial permutation. -/
def ipTable : List Nat :=
  [58, 50, 42, 34, 26, 18, 10, 2, 60, 52, 44, 36, 28, 20, 12, 4,
   62, 54, 46, 38, 30, 22, 14, 6, 64, 56, 48, 40, 32, 24, 16, 8,
   57, 49, 41, 33, 25, 17, 9, 1, 59, 51, 43, 35, 27, 19, 11, 3,
   61, 53, 45, 37, 29, 21, 13, 5, 63, 55, 47, 39, 31, 23, 15, 7]

/-- The final permutation. -/
def fpTable : List Nat :=
  [40, 8, 48, 16, 56, 24, 64, 32, 39, 7, 47, 15, 55, 23, 63, 31,
   38, 6, 46, 14, 54, 22, 62, 30, 37, 5, 45, 13, 53, 21, 61, 29,
   36, 4, 44, 12, 52, 20, 60, 28, 35, 3, 43, 11, 51, 19, 59, 27,
   34, 2, 42, 10, 50, 18, 58, 26, 33, 1, 41, 9, 49, 17, 57, 25]

/-- The expansion of a half. -/
def eTable : List Nat :=
  [32, 1, 2, 3, 4, 5, 4, 5, 6, 7, 8, 9, 8, 9, 10, 11, 12, 13, 12, 13, 14, 15, 16, 17,
   16, 17, 18, 19, 20, 21, 20, 21, 22, 23, 24, 25, 24, 25, 26, 27, 28, 29, 28, 29, 30, 31, 32, 1]

def pTable : List Nat :=
  [16, 7, 20, 21, 29, 12, 28, 17, 1, 15, 23, 26, 5, 18, 31, 10,
   2, 8, 24, 14, 32, 27, 3, 9, 19, 13, 30, 6, 22, 11, 4, 25]

def pc1Table : List Nat :=
  [57, 49, 41, 33, 25, 17, 9, 1, 58, 50, 42, 34, 26, 18, 10, 2, 59, 51, 43, 35, 27, 19, 11, 3, 60,
    52, 44, 36,
   63, 55, 47, 39, 31, 23, 15, 7, 62, 54, 46, 38, 30, 22, 14, 6, 61, 53, 45, 37, 29, 21, 13, 5, 28,
     20, 12, 4]

def pc2Table : List Nat :=
  [14, 17, 11, 24, 1, 5, 3, 28, 15, 6, 21, 10, 23, 19, 12, 4, 26, 8, 16, 7, 27, 20, 13, 2,
   41, 52, 31, 37, 47, 55, 30, 40, 51, 45, 33, 48, 44, 49, 39, 56, 34, 53, 46, 42, 50, 36, 29, 32]

/-- By how much the registers are rotated in each round. -/
def shiftTable : Vector UInt32 16 := #v[1, 1, 2, 2, 2, 2, 2, 2, 1, 2, 2, 2, 2, 2, 2, 1]

def sBoxes : List (List (List UInt32)) :=
  [[[14, 4, 13, 1, 2, 15, 11, 8, 3, 10, 6, 12, 5, 9, 0, 7],
    [0, 15, 7, 4, 14, 2, 13, 1, 10, 6, 12, 11, 9, 5, 3, 8],
    [4, 1, 14, 8, 13, 6, 2, 11, 15, 12, 9, 7, 3, 10, 5, 0],
    [15, 12, 8, 2, 4, 9, 1, 7, 5, 11, 3, 14, 10, 0, 6, 13]],
   [[15, 1, 8, 14, 6, 11, 3, 4, 9, 7, 2, 13, 12, 0, 5, 10],
    [3, 13, 4, 7, 15, 2, 8, 14, 12, 0, 1, 10, 6, 9, 11, 5],
    [0, 14, 7, 11, 10, 4, 13, 1, 5, 8, 12, 6, 9, 3, 2, 15],
    [13, 8, 10, 1, 3, 15, 4, 2, 11, 6, 7, 12, 0, 5, 14, 9]],
   [[10, 0, 9, 14, 6, 3, 15, 5, 1, 13, 12, 7, 11, 4, 2, 8],
    [13, 7, 0, 9, 3, 4, 6, 10, 2, 8, 5, 14, 12, 11, 15, 1],
    [13, 6, 4, 9, 8, 15, 3, 0, 11, 1, 2, 12, 5, 10, 14, 7],
    [1, 10, 13, 0, 6, 9, 8, 7, 4, 15, 14, 3, 11, 5, 2, 12]],
   [[7, 13, 14, 3, 0, 6, 9, 10, 1, 2, 8, 5, 11, 12, 4, 15],
    [13, 8, 11, 5, 6, 15, 0, 3, 4, 7, 2, 12, 1, 10, 14, 9],
    [10, 6, 9, 0, 12, 11, 7, 13, 15, 1, 3, 14, 5, 2, 8, 4],
    [3, 15, 0, 6, 10, 1, 13, 8, 9, 4, 5, 11, 12, 7, 2, 14]],
   [[2, 12, 4, 1, 7, 10, 11, 6, 8, 5, 3, 15, 13, 0, 14, 9],
    [14, 11, 2, 12, 4, 7, 13, 1, 5, 0, 15, 10, 3, 9, 8, 6],
    [4, 2, 1, 11, 10, 13, 7, 8, 15, 9, 12, 5, 6, 3, 0, 14],
    [11, 8, 12, 7, 1, 14, 2, 13, 6, 15, 0, 9, 10, 4, 5, 3]],
   [[12, 1, 10, 15, 9, 2, 6, 8, 0, 13, 3, 4, 14, 7, 5, 11],
    [10, 15, 4, 2, 7, 12, 9, 5, 6, 1, 13, 14, 0, 11, 3, 8],
    [9, 14, 15, 5, 2, 8, 12, 3, 7, 0, 4, 10, 1, 13, 11, 6],
    [4, 3, 2, 12, 9, 5, 15, 10, 11, 14, 1, 7, 6, 0, 8, 13]],
   [[4, 11, 2, 14, 15, 0, 8, 13, 3, 12, 9, 7, 5, 10, 6, 1],
    [13, 0, 11, 7, 4, 9, 1, 10, 14, 3, 5, 12, 2, 15, 8, 6],
    [1, 4, 11, 13, 12, 3, 7, 14, 10, 15, 6, 8, 0, 5, 9, 2],
    [6, 11, 13, 8, 1, 4, 10, 7, 9, 5, 0, 15, 14, 2, 3, 12]],
   [[13, 2, 8, 4, 6, 15, 11, 1, 10, 9, 3, 14, 5, 0, 12, 7],
    [1, 15, 13, 8, 10, 3, 7, 4, 12, 5, 6, 11, 0, 14, 9, 2],
    [7, 11, 4, 1, 9, 12, 14, 2, 0, 6, 10, 13, 15, 3, 5, 8],
    [2, 1, 14, 7, 4, 10, 8, 13, 15, 12, 9, 0, 3, 5, 6, 11]]]

/-! ## One block -/

def permute (value : UInt64) (inWidth : Nat) (table : List Nat) : UInt64 :=
  table.foldl
    (fun out entry => (out <<< 1) ||| ((value >>> UInt64.ofNat (inWidth - entry)) &&& 1)) 0

/-- The entry of a box for six bits: the row is the first and the last, the column those between. -/
def substitute (box : Nat) (sixBits : UInt64) : UInt32 :=
  let row := ((sixBits >>> 4) &&& 0x2) ||| (sixBits &&& 0x1)
  let col := (sixBits >>> 1) &&& 0xf
  ((sBoxes.getD box []).getD row.toNat []).getD col.toNat 0

def feistel (half : UInt32) (subkey : UInt64) : UInt32 :=
  let expanded := permute half.toUInt64 32 eTable
  let mixed := expanded ^^^ subkey
  let sOutput := (List.range 8).foldl (fun (sOutput : UInt32) box =>
    (sOutput <<< 4) ||| substitute box ((mixed >>> UInt64.ofNat (42 - 6 * box)) &&& 0x3f)) 0
  (permute sOutput.toUInt64 32 pTable).toUInt32

/-- The registers of the key schedule, and the keys that were derived. -/
structure Schedule where
  c : UInt32
  d : UInt32
  subkeys : Vector UInt64 16

/-- A register of 28 bits is rotated. -/
def rotate28 (register shift : UInt32) : UInt32 :=
  ((register <<< shift) ||| (register >>> (28 - shift))) &&& 0x0fffffff

theorem subkeyIndex_lt (reverse : Bool) (round : Fin 16) :
    (if reverse then 15 - round.val else round.val) < 16 := by
  split <;> omega

def scheduleRound (reverse : Bool) (s : Schedule) (round : Fin 16) : Schedule :=
  let c := rotate28 s.c (shiftTable.get round)
  let d := rotate28 s.d (shiftTable.get round)
  let cdRound := (c.toUInt64 <<< 28) ||| d.toUInt64
  { c := c
    d := d
    subkeys := s.subkeys.set (if reverse then 15 - round.val else round.val)
      (permute cdRound 56 pc2Table) (subkeyIndex_lt reverse round) }

/-- The registers before the first round; the keys are not set yet. -/
def scheduleStart (key : UInt64) : Schedule :=
  let cd := permute key 64 pc1Table
  { c := (cd >>> 28).toUInt32 &&& 0x0fffffff
    d := cd.toUInt32 &&& 0x0fffffff
    subkeys := Vector.replicate 16 0 }

def deriveSubkeys (key : UInt64) (reverse : Bool) : Vector UInt64 16 :=
  ((List.finRange 16).foldl (scheduleRound reverse) (scheduleStart key)).subkeys

/-- The high and the low half. -/
def splitHalves (value : UInt64) : UInt32 × UInt32 := ((value >>> 32).toUInt32, value.toUInt32)

def joinHalves (high low : UInt32) : UInt64 := (high.toUInt64 <<< 32) ||| low.toUInt64

def desCryptBlock (block : UInt64) (subkeys : Vector UInt64 16) : UInt64 :=
  let (left, right) :=
    feistelRounds (· ^^^ ·) feistel (splitHalves (permute block 64 ipTable)) subkeys.toList
  permute (joinHalves right left) 64 fpTable

/-- The number of eight bytes. -/
def loadBeU64 (data : Bytes) : UInt64 := data.foldl (fun value b => (value <<< 8) ||| b.toUInt64) 0

def storeBeU64 (value : UInt64) : Bytes :=
  (List.range 8).map fun i => (value >>> UInt64.ofNat (56 - 8 * i)).toUInt8

/-- A block as bytes. -/
def cryptBytes (subkeys : Vector UInt64 16) (block : Bytes) : Bytes :=
  storeBeU64 (desCryptBlock (loadBeU64 block) subkeys)

/-! ## The modes -/

def xorBytes (a b : Bytes) : Bytes := List.zipWith (· ^^^ ·) a b

/-- The loop of `des_ecb_crypt` keeps nothing from one block to the next. -/
def ecbBlock (subkeys : Vector UInt64 16) (_ : Unit) (block : Bytes) : Unit × Bytes :=
  ((), cryptBytes subkeys block)

/-- `C_i = E(P_i xor C_{i-1})`. -/
def cbcEncryptBlock (subkeys : Vector UInt64 16) (feedback block : Bytes) : Bytes × Bytes :=
  let block := cryptBytes subkeys (xorBytes block feedback)
  (block, block)

/-- `P_i = D(C_i) xor C_{i-1}`. -/
def cbcDecryptBlock (subkeys : Vector UInt64 16) (feedback block : Bytes) : Bytes × Bytes :=
  (block, xorBytes (cryptBytes subkeys block) feedback)

def desEcbCrypt (key input : Bytes) (reverse : Bool) : Except CryptoError Bytes :=
  if key.length ≠ 8 ∨ input.length % 8 ≠ 0 then .error .invalidArgument
  else .ok (blockwise 8 (ecbBlock (deriveSubkeys (loadBeU64 key) reverse)) () input)

def desCbcCrypt (key iv input : Bytes) (encrypt : Bool) : Except CryptoError Bytes :=
  if key.length ≠ 8 ∨ iv.length ≠ 8 ∨ input.length % 8 ≠ 0 then .error .invalidArgument
  else
    let subkeys := deriveSubkeys (loadBeU64 key) (!encrypt)
    .ok (blockwise 8 (if encrypt then cbcEncryptBlock subkeys else cbcDecryptBlock subkeys) iv
      input)

/-- `des_encrypt_block` and `des_decrypt_block`. -/
def desBlock (key block : Bytes) (reverse : Bool) : Except CryptoError Bytes :=
  if key.length ≠ 8 ∨ block.length ≠ 8 then .error .invalidArgument
  else .ok (cryptBytes (deriveSubkeys (loadBeU64 key) reverse) block)

def desEncryptBlock (key block : Bytes) := desBlock key block false

def desDecryptBlock (key block : Bytes) := desBlock key block true

def desEcbEncrypt (key plaintext : Bytes) := desEcbCrypt key plaintext false

def desEcbDecrypt (key ciphertext : Bytes) := desEcbCrypt key ciphertext true

def desCbcEncrypt (key iv plaintext : Bytes) := desCbcCrypt key iv plaintext true

def desCbcDecrypt (key iv ciphertext : Bytes) := desCbcCrypt key iv ciphertext false

/-! ## The padding -/

def pkcs5Pad (plaintext : Bytes) : Except CryptoError Bytes :=
  let padLen := 8 - plaintext.length % 8
  .ok (plaintext ++ List.replicate padLen (UInt8.ofNat padLen))

def pkcs5Unpad (padded : Bytes) : Except CryptoError Bytes :=
  if padded.length = 0 ∨ padded.length % 8 ≠ 0 then .error .invalidArgument
  else
    let padLen := padded.getLastD 0
    if padLen = 0 ∨ padLen > 8 then .error .invalidArgument
    else if (padded.drop (padded.length - padLen.toNat)).any (· ≠ padLen) then
      .error .invalidArgument
    else .ok (padded.take (padded.length - padLen.toNat))

/-- The known answer for `Now is t` under the key `0123456789abcdef`. -/
example : desEncryptBlock [0x01, 0x23, 0x45, 0x67, 0x89, 0xab, 0xcd, 0xef]
    [0x4e, 0x6f, 0x77, 0x20, 0x69, 0x73, 0x20, 0x74] =
      .ok [0x3f, 0xa4, 0x0e, 0x8a, 0x98, 0x4d, 0x48, 0x15] := by
  decide +kernel

end Libca.Crypto.Des
