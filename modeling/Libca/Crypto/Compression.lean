import Libca.Common.BigEndian

/-!
# The compression functions (`crypto/{md5,sha1,sha256,sha512,sha3}.cpp`)

Each takes a chain of words and a block. Registers that the source renames from step to step are
rotated through a vector here. The words of a block are read on a machine that stores the low byte
first.
-/

namespace Libca.Crypto

open Common

/-- Four bytes as a big-endian word. -/
def beWord (block : Vector UInt8 64) (i : Fin 16) : UInt32 :=
  block[4 * i.val].toUInt32 <<< 24 ||| block[4 * i.val + 1].toUInt32 <<< 16 |||
    block[4 * i.val + 2].toUInt32 <<< 8 ||| block[4 * i.val + 3].toUInt32

/-- Four bytes as a little-endian word. -/
def leWord (block : Vector UInt8 64) (i : Fin 16) : UInt32 :=
  block[4 * i.val].toUInt32 ||| block[4 * i.val + 1].toUInt32 <<< 8 |||
    block[4 * i.val + 2].toUInt32 <<< 16 ||| block[4 * i.val + 3].toUInt32 <<< 24

def rotateLeft (a c : UInt32) : UInt32 :=
  (a <<< (c &&& 0x1f)) ||| (a >>> ((32 - (c &&& 0x1f)) &&& 0x1f))

def rotateRight (a c : UInt32) : UInt32 :=
  (a >>> (c &&& 0x1f)) ||| (a <<< ((32 - (c &&& 0x1f)) &&& 0x1f))

/-! ## MD5 -/

namespace Md5

abbrev Chain := Vector UInt32 4

def f1 (b c d : UInt32) : UInt32 := d ^^^ (b &&& (c ^^^ d))

def f2 (b c d : UInt32) : UInt32 := c ^^^ (d &&& (b ^^^ c))

def f3 (b c d : UInt32) : UInt32 := b ^^^ c ^^^ d

def f4 (b c d : UInt32) : UInt32 := c ^^^ (b ||| ~~~d)

/-- The word, the constant and the rotation of each step of a round. -/
def firstRound : List (Fin 16 × UInt32 × UInt32) :=
  [(0, 0xd76aa478, 7), (1, 0xe8c7b756, 12), (2, 0x242070db, 17), (3, 0xc1bdceee, 22),
    (4, 0xf57c0faf, 7), (5, 0x4787c62a, 12), (6, 0xa8304613, 17), (7, 0xfd469501, 22),
    (8, 0x698098d8, 7), (9, 0x8b44f7af, 12), (10, 0xffff5bb1, 17), (11, 0x895cd7be, 22),
    (12, 0x6b901122, 7), (13, 0xfd987193, 12), (14, 0xa679438e, 17), (15, 0x49b40821, 22)]

def secondRound : List (Fin 16 × UInt32 × UInt32) :=
  [(1, 0xf61e2562, 5), (6, 0xc040b340, 9), (11, 0x265e5a51, 14), (0, 0xe9b6c7aa, 20),
    (5, 0xd62f105d, 5), (10, 0x02441453, 9), (15, 0xd8a1e681, 14), (4, 0xe7d3fbc8, 20),
    (9, 0x21e1cde6, 5), (14, 0xc33707d6, 9), (3, 0xf4d50d87, 14), (8, 0x455a14ed, 20),
    (13, 0xa9e3e905, 5), (2, 0xfcefa3f8, 9), (7, 0x676f02d9, 14), (12, 0x8d2a4c8a, 20)]

def thirdRound : List (Fin 16 × UInt32 × UInt32) :=
  [(5, 0xfffa3942, 4), (8, 0x8771f681, 11), (11, 0x6d9d6122, 16), (14, 0xfde5380c, 23),
    (1, 0xa4beea44, 4), (4, 0x4bdecfa9, 11), (7, 0xf6bb4b60, 16), (10, 0xbebfbc70, 23),
    (13, 0x289b7ec6, 4), (0, 0xeaa127fa, 11), (3, 0xd4ef3085, 16), (6, 0x04881d05, 23),
    (9, 0xd9d4d039, 4), (12, 0xe6db99e5, 11), (15, 0x1fa27cf8, 16), (2, 0xc4ac5665, 23)]

def fourthRound : List (Fin 16 × UInt32 × UInt32) :=
  [(0, 0xf4292244, 6), (7, 0x432aff97, 10), (14, 0xab9423a7, 15), (5, 0xfc93a039, 21),
    (12, 0x655b59c3, 6), (3, 0x8f0ccc92, 10), (10, 0xffeff47d, 15), (1, 0x85845dd1, 21),
    (8, 0x6fa87e4f, 6), (15, 0xfe2ce6e0, 10), (6, 0xa3014314, 15), (13, 0x4e0811a1, 21),
    (4, 0xf7537e82, 6), (11, 0xbd3af235, 10), (2, 0x2ad7d2bb, 15), (9, 0xeb86d391, 21)]

/-- One step; the next one takes `d` in the place of `a`. -/
def step (words : Vector UInt32 16) (f : UInt32 → UInt32 → UInt32 → UInt32) (r : Chain)
    (entry : Fin 16 × UInt32 × UInt32) : Chain :=
  #v[r.get 3,
    rotateLeft (r.get 0 + f (r.get 1) (r.get 2) (r.get 3) + words[entry.1] + entry.2.1) entry.2.2 +
      r.get 1,
    r.get 1, r.get 2]

def processBlock (hash : Chain) (block : Vector UInt8 64) : Chain :=
  let words := Vector.ofFn (leWord block)
  let r := firstRound.foldl (step words f1) hash
  let r := secondRound.foldl (step words f2) r
  let r := thirdRound.foldl (step words f3) r
  let r := fourthRound.foldl (step words f4) r
  Vector.zipWith (· + ·) hash r

end Md5

/-! ## SHA-1 -/

namespace Sha1

abbrev Chain := Vector UInt32 5

def f1 (b c d : UInt32) : UInt32 := d ^^^ (b &&& (c ^^^ d))

def f2 (b c d : UInt32) : UInt32 := b ^^^ c ^^^ d

def f3 (b c d : UInt32) : UInt32 := (b &&& c) ||| (b &&& d) ||| (c &&& d)

/-- The first `16 + n` words. -/
def schedule (block : Vector UInt8 64) : (n : Nat) → Vector UInt32 (16 + n)
  | 0 => Vector.ofFn (beWord block)
  | n + 1 =>
    let words := schedule block n
    words.push (rotateLeft (words[16 + n - 3] ^^^ words[16 + n - 8] ^^^ words[16 + n - 14] ^^^
      words[16 + n - 16]) 1)

/-- One step; the next one takes `e` in the place of `a`. -/
def step (f : UInt32 → UInt32 → UInt32 → UInt32) (constant : UInt32) (r : Chain) (word : UInt32) :
    Chain :=
  #v[r[4] + (rotateLeft r[0] 5 + f r[1] r[2] r[3] + word + constant), r[0], rotateLeft r[1] 30,
    r[2], r[3]]

/-- The four loops, of twenty steps each. -/
def processBlock (hash : Chain) (block : Vector UInt8 64) : Chain :=
  let words := (schedule block 64).toList
  let r := ((words.drop 0).take 20).foldl (step f1 0x5a827999) hash
  let r := ((words.drop 20).take 20).foldl (step f2 0x6ed9eba1) r
  let r := ((words.drop 40).take 20).foldl (step f3 0x8f1bbcdc) r
  let r := ((words.drop 60).take 20).foldl (step f2 0xca62c1d6) r
  Vector.zipWith (· + ·) hash r

end Sha1

/-! ## SHA-256 -/

namespace Sha256

abbrev Chain := Vector UInt32 8

def f1 (e f g : UInt32) : UInt32 :=
  (rotateRight e 6 ^^^ rotateRight e 11 ^^^ rotateRight e 25) + ((e &&& f) ^^^ (~~~e &&& g))

def f2 (a b c : UInt32) : UInt32 :=
  (rotateRight a 2 ^^^ rotateRight a 13 ^^^ rotateRight a 22) + (((a ||| b) &&& c) ||| (a &&& b))

def constants : List UInt32 :=
  [0x428a2f98, 0x71374491, 0xb5c0fbcf, 0xe9b5dba5, 0x3956c25b, 0x59f111f1, 0x923f82a4, 0xab1c5ed5,
    0xd807aa98, 0x12835b01, 0x243185be, 0x550c7dc3, 0x72be5d74, 0x80deb1fe, 0x9bdc06a7, 0xc19bf174,
    0xe49b69c1, 0xefbe4786, 0x0fc19dc6, 0x240ca1cc, 0x2de92c6f, 0x4a7484aa, 0x5cb0a9dc, 0x76f988da,
    0x983e5152, 0xa831c66d, 0xb00327c8, 0xbf597fc7, 0xc6e00bf3, 0xd5a79147, 0x06ca6351, 0x14292967,
    0x27b70a85, 0x2e1b2138, 0x4d2c6dfc, 0x53380d13, 0x650a7354, 0x766a0abb, 0x81c2c92e, 0x92722c85,
    0xa2bfe8a1, 0xa81a664b, 0xc24b8b70, 0xc76c51a3, 0xd192e819, 0xd6990624, 0xf40e3585, 0x106aa070,
    0x19a4c116, 0x1e376c08, 0x2748774c, 0x34b0bcb5, 0x391c0cb3, 0x4ed8aa4a, 0x5b9cca4f, 0x682e6ff3,
    0x748f82ee, 0x78a5636f, 0x84c87814, 0x8cc70208, 0x90befffa, 0xa4506ceb, 0xbef9a3f7, 0xc67178f2]

def schedule (block : Vector UInt8 64) : (n : Nat) → Vector UInt32 (16 + n)
  | 0 => Vector.ofFn (beWord block)
  | n + 1 =>
    let words := schedule block n
    let w15 := words[16 + n - 15]
    let w2 := words[16 + n - 2]
    words.push (words[16 + n - 16] + (rotateRight w15 7 ^^^ rotateRight w15 18 ^^^ (w15 >>> 3)) +
      words[16 + n - 7] + (rotateRight w2 17 ^^^ rotateRight w2 19 ^^^ (w2 >>> 10)))

def step (r : Chain) (entry : UInt32 × UInt32) : Chain :=
  let temp1 := r[7] + f1 r[4] r[5] r[6] + entry.1 + entry.2
  let temp2 := f2 r[0] r[1] r[2]
  #v[temp1 + temp2, r[0], r[1], r[2], r[3] + temp1, r[4], r[5], r[6]]

def processBlock (hash : Chain) (block : Vector UInt8 64) : Chain :=
  Vector.zipWith (· + ·) hash ((constants.zip (schedule block 48).toList).foldl step hash)

end Sha256

/-! ## SHA-512 and SHA-384 -/

namespace Sha512

abbrev Chain := Vector UInt64 8

def rotate64 (a c : UInt64) : UInt64 := (a >>> c) ||| (a <<< (64 - c))

def sigma1 (e f g : UInt64) : UInt64 :=
  (rotate64 e 14 ^^^ rotate64 e 18 ^^^ rotate64 e 41) + ((e &&& f) ^^^ (~~~e &&& g))

def sigma0 (a b c : UInt64) : UInt64 :=
  (rotate64 a 28 ^^^ rotate64 a 34 ^^^ rotate64 a 39) + (((a ||| b) &&& c) ||| (a &&& b))

def constants : List UInt64 :=
  [0x428a2f98d728ae22, 0x7137449123ef65cd, 0xb5c0fbcfec4d3b2f, 0xe9b5dba58189dbbc,
    0x3956c25bf348b538, 0x59f111f1b605d019, 0x923f82a4af194f9b, 0xab1c5ed5da6d8118,
    0xd807aa98a3030242, 0x12835b0145706fbe, 0x243185be4ee4b28c, 0x550c7dc3d5ffb4e2,
    0x72be5d74f27b896f, 0x80deb1fe3b1696b1, 0x9bdc06a725c71235, 0xc19bf174cf692694,
    0xe49b69c19ef14ad2, 0xefbe4786384f25e3, 0x0fc19dc68b8cd5b5, 0x240ca1cc77ac9c65,
    0x2de92c6f592b0275, 0x4a7484aa6ea6e483, 0x5cb0a9dcbd41fbd4, 0x76f988da831153b5,
    0x983e5152ee66dfab, 0xa831c66d2db43210, 0xb00327c898fb213f, 0xbf597fc7beef0ee4,
    0xc6e00bf33da88fc2, 0xd5a79147930aa725, 0x06ca6351e003826f, 0x142929670a0e6e70,
    0x27b70a8546d22ffc, 0x2e1b21385c26c926, 0x4d2c6dfc5ac42aed, 0x53380d139d95b3df,
    0x650a73548baf63de, 0x766a0abb3c77b2a8, 0x81c2c92e47edaee6, 0x92722c851482353b,
    0xa2bfe8a14cf10364, 0xa81a664bbc423001, 0xc24b8b70d0f89791, 0xc76c51a30654be30,
    0xd192e819d6ef5218, 0xd69906245565a910, 0xf40e35855771202a, 0x106aa07032bbd1b8,
    0x19a4c116b8d2d0c8, 0x1e376c085141ab53, 0x2748774cdf8eeb99, 0x34b0bcb5e19b48a8,
    0x391c0cb3c5c95a63, 0x4ed8aa4ae3418acb, 0x5b9cca4f7763e373, 0x682e6ff3d6b2b8a3,
    0x748f82ee5defb2fc, 0x78a5636f43172f60, 0x84c87814a1f0ab72, 0x8cc702081a6439ec,
    0x90befffa23631e28, 0xa4506cebde82bde9, 0xbef9a3f7b2c67915, 0xc67178f2e372532b,
    0xca273eceea26619c, 0xd186b8c721c0c207, 0xeada7dd6cde0eb1e, 0xf57d4f7fee6ed178,
    0x06f067aa72176fba, 0x0a637dc5a2c898a6, 0x113f9804bef90dae, 0x1b710b35131c471b,
    0x28db77f523047d84, 0x32caab7b40c72493, 0x3c9ebe0a15c9bebc, 0x431d67c49c100d4c,
    0x4cc5d4becb3e42b6, 0x597f299cfc657e2a, 0x5fcb6fab3ad6faec, 0x6c44198c4a475817]

/-- The loop over the bytes of a word. -/
def word (block : Vector UInt8 128) (i : Fin 16) : UInt64 :=
  (List.finRange 8).foldl (fun w j => (w <<< 8) ||| block[i.val * 8 + j.val].toUInt64) 0

def schedule (block : Vector UInt8 128) : (n : Nat) → Vector UInt64 (16 + n)
  | 0 => Vector.ofFn (word block)
  | n + 1 =>
    let words := schedule block n
    let w15 := words[16 + n - 15]
    let w2 := words[16 + n - 2]
    let s0 := rotate64 w15 1 ^^^ rotate64 w15 8 ^^^ (w15 >>> 7)
    let s1 := rotate64 w2 19 ^^^ rotate64 w2 61 ^^^ (w2 >>> 6)
    words.push (words[16 + n - 16] + s0 + words[16 + n - 7] + s1)

def step (r : Chain) (entry : UInt64 × UInt64) : Chain :=
  let temp1 := r[7] + sigma1 r[4] r[5] r[6] + entry.1 + entry.2
  let temp2 := sigma0 r[0] r[1] r[2]
  #v[temp1 + temp2, r[0], r[1], r[2], r[3] + temp1, r[4], r[5], r[6]]

/-- `sha512_compress`. -/
def compress (hash : Chain) (block : Vector UInt8 128) : Chain :=
  Vector.zipWith (· + ·) hash ((constants.zip (schedule block 64).toList).foldl step hash)

end Sha512

/-! ## Keccak -/

namespace Keccak

/-- Lane `x + 5 * y`. -/
abbrev Lanes := Vector UInt64 25

def rotateLeft (value : UInt64) (bits : UInt64) : UInt64 :=
  if bits = 0 then value else (value <<< bits) ||| (value >>> (64 - bits))

/-- Rows are `x`, columns are `y`. -/
def rhoOffsets : Vector (Vector UInt64 5) 5 :=
  #v[#v[0, 36, 3, 41, 18],
    #v[1, 44, 10, 45, 2],
    #v[62, 6, 43, 15, 61],
    #v[28, 55, 25, 21, 56],
    #v[27, 20, 39, 8, 14]]

def piDestination : Vector (Fin 25) 25 :=
  #v[0, 10, 20, 5, 15,
    16, 1, 11, 21, 6,
    7, 17, 2, 12, 22,
    23, 8, 18, 3, 13,
    14, 24, 9, 19, 4]

def roundConstants : List UInt64 :=
  [0x0000000000000001, 0x0000000000008082, 0x800000000000808a, 0x8000000080008000,
    0x000000000000808b, 0x0000000080000001, 0x8000000080008081, 0x8000000000008009,
    0x000000000000008a, 0x0000000000000088, 0x0000000080008009, 0x000000008000000a,
    0x000000008000808b, 0x800000000000008b, 0x8000000000008089, 0x8000000000008003,
    0x8000000000008002, 0x8000000000000080, 0x000000000000800a, 0x800000008000000a,
    0x8000000080008081, 0x8000000000008080, 0x0000000080000001, 0x8000000080008008]

def theta (state : Lanes) : Lanes :=
  let parity : Vector UInt64 5 := Vector.ofFn fun x =>
    state[x.val] ^^^ state[x.val + 5] ^^^ state[x.val + 10] ^^^ state[x.val + 15] ^^^ state[x.val +
      20]
  let delta : Vector UInt64 5 := Vector.ofFn fun x =>
    parity[(x.val + 4) % 5] ^^^ rotateLeft parity[(x.val + 1) % 5] 1
  Vector.ofFn fun i => state[i] ^^^ delta[i.val % 5]

/-- The loop that moves every rotated lane to its slot. -/
def rhoPi (state : Lanes) : Lanes :=
  (List.finRange 25).foldl
    (fun shuffled source =>
      let target := piDestination[source]
      shuffled.set target.val (rotateLeft state[source] rhoOffsets[source.val % 5][source.val / 5])
        target.isLt)
    (Vector.replicate 25 0)

def chi (shuffled : Lanes) : Lanes :=
  Vector.ofFn fun i =>
    let row := 5 * (i.val / 5)
    let x := i.val % 5
    shuffled[i] ^^^ (~~~shuffled[row + (x + 1) % 5] &&& shuffled[row + (x + 2) % 5])

def iota (state : Lanes) (constant : UInt64) : Lanes := state.set 0 (state[0] ^^^ constant)

def permute (state : Lanes) : Lanes :=
  roundConstants.foldl (fun state constant => iota (chi (rhoPi (theta state))) constant) state

end Keccak

end Libca.Crypto
