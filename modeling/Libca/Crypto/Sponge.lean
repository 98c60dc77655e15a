import Libca.Crypto.Incremental

/-!
# Incremental hashing with a sponge (`crypto/sha3.cpp` 132-215)

* `Sha3State.absorbed_add`: a state of `SHA3` holds the lanes of what was added, whatever the pieces
  were.
* `Sha3State.squeezeInto_eq`: `squeeze_into` gives the digest, the permutation folded over the
  padded message.
-/

namespace Libca.Crypto

open Common

/-- The marker, zeros, and the last bit of the last block. -/
def spongePadding (rate length : Nat) : Bytes :=
  let zeros := rate - 1 - length % rate
  if zeros = 0 then [0x86] else 0x06 :: (List.replicate (zeros - 1) 0 ++ [0x80])

namespace Sha3State

variable (bits : Sha3Bits)

/-- The permutation folded over the padded message. -/
def digest (msg : Bytes) : Bytes :=
  output bits (absorb (absorbBlock bits) (Vector.replicate 25 0)
    (msg ++ spongePadding bits.rate msg.length)).1

theorem rate_pos : 0 < bits.rate := by
  cases bits <;> decide

theorem rate_le : bits.rate ≤ 144 := by
  cases bits <;> decide

theorem absorbBlocks_eq (state : Keccak.Lanes) (data : Bytes) :
    absorbBlocks bits state data = absorb (absorbBlock bits) state data := by
  fun_induction absorbBlocks bits state data with
  | case1 state data h ih => rw [ih, absorb_of_le (absorbBlock bits) (rate_pos bits) h]
  | case2 state data h => rw [absorb_of_lt (absorbBlock bits) (Nat.lt_of_not_le h)]

/-- What is buffered. -/
def pending (s : Sha3State) : Bytes := s.buffer.toList.take s.bufferSize

theorem length_pending {s : Sha3State} (h : s.bufferSize ≤ 144) :
    s.pending.length = s.bufferSize := by
  rw [pending, List.length_take, Vector.length_toList, Nat.min_eq_left h]

theorem state_append (s : Sha3State) (bytes : Bytes) : (s.append bytes).state = s.state := by
  rw [append]

theorem pending_append {s : Sha3State} {bytes : Bytes} (h : s.bufferSize + bytes.length ≤ 144) :
    (s.append bytes).pending = s.pending ++ bytes :=
  take_writeAt s.buffer bytes h

/-- **What a state holds of the bytes that were added.** -/
structure Absorbed (s : Sha3State) (msg : Bytes) : Prop where
  size_lt : s.bufferSize < bits.rate
  absorb_eq : absorb (absorbBlock bits) (Vector.replicate 25 0) msg = (s.state, s.pending)

theorem absorbed_init : Absorbed bits init [] := by
  have hnil : ([] : Bytes).length < bits.rate := rate_pos bits
  exact ⟨rate_pos bits, absorb_of_lt (absorbBlock bits) hnil _⟩

variable {bits} {s : Sha3State} {msg : Bytes}

theorem pending_of_empty (h : s.bufferSize = 0) : s.pending = [] := by
  rw [pending, h, List.take_zero]

/-- Data behind an empty buffer. -/
theorem absorbed_absorbRest {data : Bytes} (hempty : s.bufferSize = 0)
    (h : absorb (absorbBlock bits) s.state data =
      absorb (absorbBlock bits) (Vector.replicate 25 0) msg) :
    Absorbed bits (s.absorbRest bits data) msg := by
  have hlength := length_absorb (absorbBlock bits) (rate_pos bits) s.state data
  have hlt := Nat.mod_lt data.length (rate_pos bits)
  have hle := rate_le bits
  unfold absorbRest
  rw [absorbBlocks_eq]
  rcases hrest : absorb (absorbBlock bits) s.state data with ⟨state, rest⟩
  rw [hrest] at hlength h
  simp only at hlength ⊢
  split_ifs with hpos
  · refine ⟨?_, ?_⟩
    · show s.bufferSize + rest.length < bits.rate
      omega
    · rw [← h, pending_append (by
        show s.bufferSize + rest.length ≤ 144
        omega), pending_of_empty (by exact hempty), List.nil_append]
      rfl
  · refine ⟨?_, ?_⟩
    · show s.bufferSize < bits.rate
      omega
    · have hrestNil : rest = [] := List.length_eq_zero_iff.mp (by omega)
      rw [← h, pending_of_empty (by exact hempty), hrestNil]

/-- No data behind any buffer. -/
theorem absorbRest_nil : s.absorbRest bits [] = s := by
  have hnil : ([] : Bytes).length < bits.rate := rate_pos bits
  unfold absorbRest
  rw [absorbBlocks_eq, absorb_of_lt (absorbBlock bits) hnil]
  rfl

theorem toList_bufferBlock (hfull : s.bufferSize = bits.rate) :
    (s.bufferBlock bits).toList = s.pending := by
  rw [bufferBlock, toList_front, pending, hfull]

/-- **The state holds what is added, in one piece or in many.** -/
theorem absorbed_add (h : Absorbed bits s msg) (data : Bytes) :
    Absorbed bits (s.add bits data) (msg ++ data) := by
  have hsize := h.size_lt
  have hle := rate_le bits
  have hgoal : absorb (absorbBlock bits) (Vector.replicate 25 0) (msg ++ data) =
      absorb (absorbBlock bits) s.state (s.pending ++ data) := by
    rw [absorb_append (absorbBlock bits), h.absorb_eq]
  unfold add
  by_cases hnil : data = []
  · rw [if_pos hnil, hnil, List.append_nil]
    exact h
  rw [if_neg hnil]
  unfold fillBuffer
  by_cases hempty : 0 < s.bufferSize
  · rw [if_pos hempty]
    obtain ⟨taken, htaken⟩ : ∃ taken, taken = min data.length (bits.rate - s.bufferSize) := ⟨_, rfl⟩
    simp only [← htaken]
    have hlength : (data.take taken).length = taken := by
      rw [List.length_take]
      omega
    have hpending : (s.append (data.take taken)).pending = s.pending ++ data.take taken :=
      pending_append (by omega)
    have hnewSize : (s.append (data.take taken)).bufferSize = s.bufferSize + taken :=
      congrArg (s.bufferSize + ·) hlength
    by_cases hfull : (s.append (data.take taken)).bufferSize = bits.rate
    · rw [if_pos hfull]
      refine absorbed_absorbRest rfl ?_
      rw [hgoal, ← List.take_append_drop taken data, ← List.append_assoc, ← hpending,
        ← toList_bufferBlock hfull, absorb_block (absorbBlock bits) (rate_pos bits),
        List.take_append_drop, state_append]
    · have hdrop : data.drop taken = [] := List.drop_of_length_le (by omega)
      have htake : data.take taken = data := List.take_of_length_le (by omega)
      rw [if_neg hfull, hdrop, absorbRest_nil]
      refine ⟨by omega, ?_⟩
      rw [hgoal, hpending, htake, state_append, absorb_of_lt (absorbBlock bits)]
      · rw [List.length_append, length_pending (by omega)]
        rw [htake] at hlength
        omega
  · have hzero : s.bufferSize = 0 := by omega
    rw [if_neg hempty]
    refine absorbed_absorbRest hzero ?_
    rw [hgoal, pending_of_empty hzero, List.nil_append]

/-! ## The padding -/

theorem getElem_lastBlock {i : Nat} (hi : i < bits.rate) :
    (s.lastBlock bits)[i] =
      let b := if i = s.bufferSize then 0x06
        else if i < s.bufferSize then s.buffer.toList.getD i 0 else 0
      if i = bits.rate - 1 then b ||| 0x80 else b := by
  unfold lastBlock
  rw [Vector.getElem_ofFn]
  simp only [Fin.getElem_fin]
  by_cases heq : i = s.bufferSize
  · subst heq
    rw [Vector.getElem_setIfInBounds_self, if_pos rfl]
  · rw [Vector.getElem_setIfInBounds_ne hi (Ne.symm heq), if_neg heq, Vector.getElem_ofFn]

/-- **The last block is the padded rest.** -/
theorem toList_lastBlock (h : Absorbed bits s msg) :
    (s.lastBlock bits).toList = s.pending ++ spongePadding bits.rate msg.length := by
  have hsize := h.size_lt
  have hle := rate_le bits
  have hlength := length_pending (s := s) (by omega)
  have hmod : msg.length % bits.rate = s.bufferSize := by
    rw [← length_absorb (absorbBlock bits) (rate_pos bits) (Vector.replicate 25 0) msg, h.absorb_eq]
    exact hlength
  have hpadding : spongePadding bits.rate msg.length =
      if bits.rate - 1 - s.bufferSize = 0 then [0x86]
      else 0x06 :: (List.replicate (bits.rate - 1 - s.bufferSize - 1) 0 ++ [0x80]) := by
    rw [spongePadding, hmod]
  rw [hpadding]
  refine List.ext_getElem ?_ fun i h₁ h₂ => ?_
  · rw [Vector.length_toList, List.length_append, hlength]
    split_ifs with hz
    · rw [List.length_singleton]
      omega
    · rw [List.length_cons, List.length_append, List.length_replicate, List.length_singleton]
      omega
  · rw [Vector.length_toList] at h₁
    rw [Vector.getElem_toList, getElem_lastBlock h₁]
    by_cases hlt : i < s.bufferSize
    · have hbuffer : i < s.buffer.toList.length := by
        rw [Vector.length_toList]
        omega
      rw [if_neg (by omega), if_neg (by omega), if_pos hlt,
        List.getElem_append_left (by omega)]
      simp only [pending, List.getElem_take]
      rw [List.getD_eq_getElem?_getD, List.getElem?_eq_getElem hbuffer, Option.getD_some]
    · rw [List.getElem_append_right (by omega)]
      simp only [hlength]
      by_cases hz : bits.rate - 1 - s.bufferSize = 0
      · have heq : i = s.bufferSize := by omega
        subst heq
        simp only [if_pos hz]
        rw [if_pos (by omega)]
        simp
        rfl
      · simp only [if_neg hz]
        by_cases heq : i = s.bufferSize
        · subst heq
          rw [if_neg (by omega)]
          simp
        · obtain ⟨d, rfl⟩ : ∃ d, i = s.bufferSize + 1 + d := ⟨i - s.bufferSize - 1, by omega⟩
          have hindex : s.bufferSize + 1 + d - s.bufferSize = d + 1 := by omega
          simp only [hindex, List.getElem_cons_succ, if_neg hlt, if_neg heq]
          by_cases hlast : s.bufferSize + 1 + d = bits.rate - 1
          · rw [if_pos hlast, List.getElem_append_right (by
              rw [List.length_replicate]
              omega)]
            simp
          · rw [if_neg hlast, List.getElem_append_left (by
              rw [List.length_replicate]
              omega), List.getElem_replicate]

/-- **`squeeze_into` gives the digest.** -/
theorem squeezeInto_eq (h : Absorbed bits s msg) : s.squeezeInto bits = digest bits msg := by
  have hnil : ([] : Bytes).length < bits.rate := rate_pos bits
  unfold squeezeInto digest
  rw [absorb_append (absorbBlock bits), h.absorb_eq, ← toList_lastBlock h,
    ← List.append_nil (Vector.toList _), absorb_block (absorbBlock bits) (rate_pos bits),
    absorb_of_lt (absorbBlock bits) hnil]

end Sha3State

end Libca.Crypto
