import Libca.Common.Except
import Libca.Common.Keystream
import Libca.Crypto.Cipher

/-!
# ChaCha20 (`crypto/chacha20.cpp` 12-128)

* `xorLoop_eq`: the loop of `chacha20_xor` adds the keystream of the counters from `counter` on.
* `nodup_counters_iff`: a 32-bit counter does not come back within `2 ^ 32` blocks, and then it
  does.
* `chacha20_stream`: **encryption undoes itself, goes on at every whole block, and computes no block
  twice exactly when the data has at most `2 ^ 32` blocks.** `not_chacha20_stream`: longer data is
  encrypted as well.
-/

namespace Libca.Crypto

open Common

/-! ## The block function -/

abbrev ChaChaState := Vector UInt32 16

def loadLe32 {n : Nat} (data : Vector UInt8 n) (i : Nat) (h : i + 4 ≤ n := by decide) : UInt32 :=
  data[i].toUInt32 ||| data[i + 1].toUInt32 <<< 8 ||| data[i + 2].toUInt32 <<< 16 ||| data[i +
    3].toUInt32 <<< 24

def storeLe32 (value : UInt32) : Bytes :=
  [(value &&& 0xff).toUInt8, ((value >>> 8) &&& 0xff).toUInt8, ((value >>> 16) &&& 0xff).toUInt8,
    ((value >>> 24) &&& 0xff).toUInt8]

def rotl32 (value bits : UInt32) : UInt32 := (value <<< bits) ||| (value >>> (32 - bits))

/-- `quarter_round` of the words at four indices. -/
def quarterRound (w : ChaChaState) (i j k l : Fin 16) : ChaChaState :=
  let a := w[i] + w[j]
  let d := rotl32 (w[l] ^^^ a) 16
  let c := w[k] + d
  let b := rotl32 (w[j] ^^^ c) 12
  let a := a + b
  let d := rotl32 (d ^^^ a) 8
  let c := c + d
  let b := rotl32 (b ^^^ c) 7
  (((w.set i a).set j b).set k c).set l d

def chacha20InitState (key : Vector UInt8 32) (counter : UInt32) (nonce : Vector UInt8 12) :
    ChaChaState :=
  #v[0x61707865, 0x3320646e, 0x79622d32, 0x6b206574,
    loadLe32 key 0, loadLe32 key 4, loadLe32 key 8, loadLe32 key 12,
    loadLe32 key 16, loadLe32 key 20, loadLe32 key 24, loadLe32 key 28,
    counter, loadLe32 nonce 0, loadLe32 nonce 4, loadLe32 nonce 8]

/-- One of the ten rounds of the loop. -/
def doubleRound (w : ChaChaState) : ChaChaState :=
  let w := quarterRound w 0 4 8 12
  let w := quarterRound w 1 5 9 13
  let w := quarterRound w 2 6 10 14
  let w := quarterRound w 3 7 11 15
  let w := quarterRound w 0 5 10 15
  let w := quarterRound w 1 6 11 12
  let w := quarterRound w 2 7 8 13
  quarterRound w 3 4 9 14

def chacha20BlockImpl (state : ChaChaState) : Bytes :=
  (Vector.zipWith (· + ·) (doubleRound^[10] state) state).toList.flatMap storeLe32

/-! ## The functions of the interface -/

/-- The loop of `chacha20_xor` on the rest of the data; `used` are the counters of the blocks so
far. -/
def xorLoop (state : ChaChaState) (counter : UInt32) (rest : Bytes) (used : List UInt32)
    (output : Bytes) :
    List UInt32 × Bytes :=
  if rest = [] then (used, output)
  else
    let state := state.set 12 counter
    let block := chacha20BlockImpl state
    xorLoop state (counter + 1) (rest.drop 64) (used ++ [counter])
      (output ++ List.zipWith (· ^^^ ·) (rest.take 64) block)
termination_by rest.length
decreasing_by
  have hpos : 0 < rest.length := List.length_pos_iff.mpr ‹_›
  rw [List.length_drop]
  omega

/-- The key and the nonce, when they have the sizes that both functions ask for. -/
def checkedSizes (key nonce : Bytes) : Except CryptoError (Vector UInt8 32 × Vector UInt8 12) :=
  if h : key.length = 32 ∧ nonce.length = 12 then
    .ok (⟨key.toArray, by rw [List.size_toArray, h.1]⟩,
      ⟨nonce.toArray, by rw [List.size_toArray, h.2]⟩)
  else .error .invalidArgument

/-- `chacha20_xor`, with the counters of the blocks that it computes. -/
def chacha20Run (key : Bytes) (counter : UInt32) (nonce data : Bytes) :
    Except CryptoError (List UInt32 × Bytes) := do
  let (key, nonce) ← checkedSizes key nonce
  .ok (xorLoop (chacha20InitState key counter nonce) counter data [] [])

def chacha20Xor (key : Bytes) (counter : UInt32) (nonce data : Bytes) : Except CryptoError Bytes :=
  do
  let (_, output) ← chacha20Run key counter nonce data
  .ok output

/-! ## The keystream -/

theorem length_chacha20BlockImpl (state : ChaChaState) : (chacha20BlockImpl state).length = 64 := by
  have hwords (words : List UInt32) : (words.flatMap storeLe32).length = 4 * words.length := by
    induction words with
    | nil => rfl
    | cons word words ih =>
      rw [List.flatMap_cons, List.length_append, ih, List.length_cons]
      show 4 + 4 * words.length = _
      omega
  unfold chacha20BlockImpl
  rw [hwords, Vector.length_toList]

/-- The block of a counter. -/
def keystreamBlock (state : ChaChaState) (counter : UInt32) : Bytes :=
  chacha20BlockImpl (state.set 12 counter)

theorem keystreamBlock_set (state : ChaChaState) (counter : UInt32) :
    keystreamBlock (state.set 12 counter) = keystreamBlock state := by
  funext c
  unfold keystreamBlock
  rw [Vector.set_set]

/-- **The loop adds the keystream.** -/
theorem xorLoop_eq (state : ChaChaState) (counter : UInt32) (rest : Bytes) (used : List UInt32)
    (output : Bytes) :
    xorLoop state counter rest used output =
      (used ++ countersOf 64 (· + 1) counter rest,
        output ++ addKeystream 64 (keystreamBlock state) (· + 1) (· ^^^ ·) counter rest) := by
  fun_induction xorLoop state counter rest used output with
  | case1 state counter used output =>
    rw [countersOf_nil, addKeystream_nil, List.append_nil, List.append_nil]
  | case2 state counter rest used output hne state' block ih =>
    rw [ih, countersOf_of_ne_nil (by decide) counter hne,
      addKeystream_of_ne_nil (by decide) counter hne,
      keystreamBlock_set, List.append_assoc, List.append_assoc]
    rfl

theorem keystreamBlock_init (key : Vector UInt8 32) (counter : UInt32) (nonce : Vector UInt8 12) :
    keystreamBlock (chacha20InitState key counter nonce) =
      keystreamBlock (chacha20InitState key 0 nonce) :=
  keystreamBlock_set (chacha20InitState key 0 nonce) counter

/-- **A call adds the keystream of the key and the nonce** from its counter on. -/
theorem exists_keystream {key nonce : Bytes} (hkey : key.length = 32) (hnonce : nonce.length = 12) :
    ∃ block : UInt32 → Bytes, (∀ c, (block c).length = 64) ∧ ∀ counter data,
      chacha20Run key counter nonce data =
        .ok (countersOf 64 (· + 1) counter data,
      addKeystream 64 block (· + 1) (· ^^^ ·) counter data) := by
  refine ⟨keystreamBlock (chacha20InitState ⟨key.toArray, by rw [List.size_toArray, hkey]⟩ 0
    ⟨nonce.toArray, by rw [List.size_toArray, hnonce]⟩), fun c => length_chacha20BlockImpl _, ?_⟩
  intro counter data
  unfold chacha20Run checkedSizes
  rw [dif_pos ⟨hkey, hnonce⟩, except_ok_bind]
  refine congrArg Except.ok ?_
  rw [xorLoop_eq, keystreamBlock_init, List.nil_append, List.nil_append]

/-! ## The counters -/

theorem iterate_add_one (c : UInt32) (i : Nat) : (· + 1)^[i] c = c + UInt32.ofNat i := by
  induction i with
  | zero => exact (UInt32.add_zero c).symm
  | succ i ih =>
    rw [Function.iterate_succ_apply', ih, UInt32.ofNat_add, ← UInt32.add_assoc]
    rfl

/-- **The counter comes back after `2 ^ 32` blocks.** -/
theorem nodup_iterate_iff (c : UInt32) (m : Nat) : (List.iterate (· + 1) c m).Nodup ↔
    m ≤ 2 ^ 32 := by
  rw [← List.range_map_iterate, List.nodup_map_iff_inj_on (List.nodup_range)]
  constructor
  · intro h
    by_contra hlarge
    have hwrap : (· + 1)^[2 ^ 32] c = (· + 1)^[0] c := by
      rw [iterate_add_one, iterate_add_one]
      rfl
    have hzero := h (2 ^ 32) (List.mem_range.mpr (by omega)) 0 (List.mem_range.mpr (by omega)) hwrap
    cases hzero
  · intro h i hi j hj heq
    rw [iterate_add_one, iterate_add_one, UInt32.add_right_inj] at heq
    have hnat := congrArg UInt32.toNat heq
    rw [List.mem_range] at hi hj
    rwa [UInt32.toNat_ofNat_of_lt' (show i < 2 ^ 32 by omega),
      UInt32.toNat_ofNat_of_lt' (show j < 2 ^ 32 by omega)]
      at hnat

theorem nodup_counters_iff (c : UInt32) (data : Bytes) :
    (countersOf 64 (· + 1) c data).Nodup ↔ data.length ≤ 64 * 2 ^ 32 := by
  rw [countersOf_eq (by decide), nodup_iterate_iff]
  omega

/-! ## The law -/

/-- What holds of the calls for one message. -/
structure StreamLaw (key nonce : Bytes) (counter : UInt32) (data : Bytes) : Prop where
  involution : ∃ output, chacha20Xor key counter nonce data = .ok output ∧
    chacha20Xor key counter nonce output = .ok data
  split : ∀ a b k, data = a ++ b → a.length = 64 * k →
    ∃ ca cb, chacha20Xor key counter nonce a = .ok ca ∧
      chacha20Xor key (counter + UInt32.ofNat k) nonce b = .ok cb ∧
      chacha20Xor key counter nonce data = .ok (ca ++ cb)

/-- A call computes no block twice. -/
def NoBlockTwice (key nonce : Bytes) (counter : UInt32) (data : Bytes) : Prop :=
  ∀ used output, chacha20Run key counter nonce data = .ok (used, output) → used.Nodup

/-- **Encryption undoes itself and goes on at every whole block; a call computes no block twice
exactly when its data has at most `2 ^ 32` blocks.** -/
theorem chacha20_stream {key nonce : Bytes} (hkey : key.length = 32) (hnonce : nonce.length = 12)
    (counter : UInt32) (data : Bytes) :
    StreamLaw key nonce counter data ∧
      (NoBlockTwice key nonce counter data ↔ data.length ≤ 64 * 2 ^ 32) := by
  obtain ⟨block, hblock, hrun⟩ := exists_keystream hkey hnonce
  have hxor (c : UInt32) (bytes : Bytes) :
      chacha20Xor key c nonce bytes = .ok (addKeystream 64 block (· + 1) (· ^^^ ·) c bytes) := by
    unfold chacha20Xor
    rw [hrun]
    rfl
  refine ⟨⟨⟨_, hxor counter data, ?_⟩, ?_⟩, ?_⟩
  · rw [hxor, addKeystream_addKeystream (by decide) hblock xor_cancel_right]
  · intro a b k hdata ha
    refine ⟨_, _, hxor counter a, hxor _ b, ?_⟩
    rw [hxor, hdata, addKeystream_append (by decide) counter k a b ha, iterate_add_one]
  · rw [← nodup_counters_iff counter data]
    constructor
    · intro h
      exact h _ _ (hrun counter data)
    · intro h used output hcall
      rw [hrun] at hcall
      obtain ⟨rfl, -⟩ := Prod.mk.inj (Except.ok.inj hcall)
      exact h

/-- A counter that wraps around between two blocks. -/
theorem chacha20_stream_wrap :
    StreamLaw (List.replicate 32 0) (List.replicate 12 0) 0xffffffff (List.replicate 100 0) ∧
      (NoBlockTwice (List.replicate 32 0) (List.replicate 12 0) 0xffffffff (List.replicate 100 0) ↔
        (List.replicate 100 (0 : UInt8)).length ≤ 64 * 2 ^ 32) :=
  chacha20_stream List.length_replicate List.length_replicate 0xffffffff (List.replicate 100 0)

/-- One byte more than `2 ^ 32` blocks: the call succeeds, and its last block is the first one
again. -/
theorem not_chacha20_stream :
    ¬ (StreamLaw (List.replicate 32 0) (List.replicate 12 0) 0
      (List.replicate (64 * 2 ^ 32 + 1) 0) ∧
      NoBlockTwice (List.replicate 32 0) (List.replicate 12 0) 0
        (List.replicate (64 * 2 ^ 32 + 1) 0)) := by
  rintro ⟨-, h⟩
  obtain ⟨block, -, hrun⟩ := exists_keystream (List.length_replicate (n := 32) (a := 0))
    (List.length_replicate (n := 12) (a := 0))
  have hnodup := (nodup_counters_iff 0 _).mp (h _ _ (hrun 0 _))
  rw [List.length_replicate] at hnodup
  omega

end Libca.Crypto
