import Libca.Crypto.HashClasses

/-!
# Incremental hashing with a compression function (`crypto/{md5,sha1,sha256,sha512}.cpp`)

* `absorbed_add`: a state holds the chain of what was added (`Absorbed`), whatever the pieces were.
* `finalBlocks_short`, `finalBlocks_long`: the blocks of `process_buffer` are the padded rest.
* `getHash_eq`: `get_hash` gives the digest, the compression function folded over the padded
  message; `absorbed_getHash`: it changes nothing if it restores the chain.
* `md5_standard` .. `sha384_standard`: the five classes pad as their standards say.
-/

namespace Libca.Crypto

open Common

/-! ## The digests -/

/-- The marker, zeros up to a whole block, and the length field of `w` bytes. -/
def standardPadding (n w : Nat) (field : Nat → Bytes) (length : Nat) : Bytes :=
  0x80 :: (List.replicate ((2 * n - 1 - w - length % n) % n) 0 ++ field (8 * length))

/-- What a class is supposed to be: a length field of `w` bytes, of the number of bits, at the end
of the padded message. -/
structure HashKind.Standard (k : HashKind) (w : Nat) (field : Nat → Bytes) : Prop where
  width_pos : 0 < w
  width_lt : w < k.blockSize
  length_field : ∀ n, (field n).length = w
  paddedLength_eq : ∀ m < k.blockSize,
    k.paddedLength m = if m + 1 + w ≤ k.blockSize then k.blockSize - w else 2 * k.blockSize - w
  lengthField_eq : ∀ total : UInt64, total.toNat < 2 ^ 61 →
    k.lengthField total = field (8 * total.toNat)

/-- The compression function folded over the padded message. -/
def HashKind.digest (k : HashKind) (w : Nat) (field : Nat → Bytes) (msg : Bytes) : Bytes :=
  k.output (absorb k.processBlock k.initial
    (msg ++ standardPadding k.blockSize w field msg.length)).1

variable {k : HashKind}

/-! ## Writes -/

theorem getElem_zeroRange {n i : Nat} (buffer : Vector UInt8 n) (start stop : Nat) (h : i < n) :
    (zeroRange buffer start stop)[i] = if start ≤ i ∧ i < stop then 0 else buffer[i] :=
  Vector.getElem_ofFn _

theorem getElem_writeAt {n i : Nat} (buffer : Vector UInt8 n) (start : Nat) (bytes : Bytes)
    (h : i < n) : (writeAt buffer start bytes)[i] =
      if start ≤ i then bytes.getD (i - start) buffer[i] else buffer[i] :=
  Vector.getElem_ofFn _

/-- A buffer with the marker and zeros behind it. -/
theorem toList_marked {n m : Nat} (buffer : Vector UInt8 n) (h : m < n) :
    (zeroRange (buffer.setIfInBounds m 128) (m + 1) n).toList =
      buffer.toList.take m ++ 128 :: List.replicate (n - m - 1) 0 := by
  refine List.ext_getElem ?_ fun i h₁ h₂ => ?_
  · rw [Vector.length_toList, List.length_append, List.length_take, Vector.length_toList,
      List.length_cons, List.length_replicate]
    omega
  · rw [Vector.length_toList] at h₁
    have hlength : (buffer.toList.take m).length = m := by
      rw [List.length_take, Vector.length_toList, Nat.min_eq_left h.le]
    rw [Vector.getElem_toList, getElem_zeroRange]
    by_cases hlt : i < m
    · rw [if_neg (by omega), List.getElem_append_left (by omega), List.getElem_take,
        Vector.getElem_toList]
      exact Vector.getElem_setIfInBounds_ne h₁ (by omega)
    · rw [List.getElem_append_right (by omega)]
      simp only [hlength]
      by_cases heq : i = m
      · subst heq
        rw [if_neg (by omega), Vector.getElem_setIfInBounds_self]
        simp
      · obtain ⟨d, rfl⟩ : ∃ d, i = m + 1 + d := ⟨i - m - 1, by omega⟩
        have hindex : m + 1 + d - m = d + 1 := by omega
        rw [if_pos ⟨by omega, h₁⟩]
        simp [hindex]

/-- Bytes written behind others. -/
theorem take_writeAt {n start : Nat} (buffer : Vector UInt8 n) (bytes : Bytes)
    (hfits : start + bytes.length ≤ n) :
    (writeAt buffer start bytes).toList.take (start + bytes.length) =
      buffer.toList.take start ++ bytes := by
  refine List.ext_getElem ?_ fun i h₁ h₂ => ?_
  · rw [List.length_take, Vector.length_toList, List.length_append, List.length_take,
      Vector.length_toList]
    omega
  · rw [List.length_take, Vector.length_toList] at h₁
    have hlength : (buffer.toList.take start).length = start := by
      rw [List.length_take, Vector.length_toList]
      omega
    rw [List.getElem_take, Vector.getElem_toList, getElem_writeAt]
    by_cases hle : start ≤ i
    · rw [if_pos hle, List.getElem_append_right (by omega)]
      simp only [hlength]
      rw [List.getD_eq_getElem?_getD, List.getElem?_eq_getElem (by omega), Option.getD_some]
    · rw [if_neg hle, List.getElem_append_left (by omega), List.getElem_take, Vector.getElem_toList]

/-- Bytes written up to the end. -/
theorem toList_writeAt {n start : Nat} (buffer : Vector UInt8 n) (bytes : Bytes)
    (hwhole : start + bytes.length = n) :
    (writeAt buffer start bytes).toList = buffer.toList.take start ++ bytes := by
  rw [← take_writeAt buffer bytes hwhole.le, hwhole]
  exact (List.take_of_length_le (by rw [Vector.length_toList])).symm

theorem take_zeroRange {n stop : Nat} (buffer : Vector UInt8 n) (h : stop ≤ n) :
    (zeroRange buffer 0 stop).toList.take stop = List.replicate stop 0 := by
  refine List.ext_getElem ?_ fun i h₁ h₂ => ?_
  · rw [List.length_take, Vector.length_toList, List.length_replicate, Nat.min_eq_left h]
  · rw [List.length_replicate] at h₂
    rw [List.getElem_take, Vector.getElem_toList, List.getElem_replicate, getElem_zeroRange]
    exact if_pos ⟨Nat.zero_le _, h₂⟩

/-! ## The buffer -/

namespace HashState

/-- What is buffered. -/
def pending (s : HashState k) : Bytes := s.buffer.toList.take s.bufferSize

theorem length_pending {s : HashState k} (h : s.bufferSize ≤ k.blockSize) :
    s.pending.length = s.bufferSize := by
  rw [pending, List.length_take, Vector.length_toList, Nat.min_eq_left h]

theorem pending_of_full {s : HashState k} (h : s.bufferSize = k.blockSize) :
    s.pending = s.buffer.toList :=
  List.take_of_length_le (by rw [Vector.length_toList, h])

theorem pending_of_empty {s : HashState k} (h : s.bufferSize = 0) : s.pending = [] := by
  rw [pending, h, List.take_zero]

theorem pending_push {s : HashState k} (h : s.bufferSize < k.blockSize) (b : UInt8) :
    (s.push b).pending = s.pending ++ [b] := by
  have hset : (s.buffer.setIfInBounds s.bufferSize b).toList =
      s.buffer.toList.take s.bufferSize ++ b :: s.buffer.toList.drop (s.bufferSize + 1) := by
    rw [Vector.toList_setIfInBounds, List.set_eq_take_append_cons_drop,
      if_pos (by rwa [Vector.length_toList])]
  have hlength : (s.buffer.toList.take s.bufferSize ++ [b]).length = s.bufferSize + 1 := by
    rw [List.length_append, List.length_singleton]
    exact congrArg (· + 1) (length_pending h.le)
  show (s.buffer.setIfInBounds s.bufferSize b).toList.take (s.bufferSize + 1) = s.pending ++ [b]
  rw [hset, ← List.singleton_append, ← List.append_assoc, List.take_left' hlength, pending]

/-- How far a state with bytes to come is: the chain at the end, with the rest, and the count. -/
structure Remains (s : HashState k) (rest : Bytes) (result : k.Chain × Bytes) (total : UInt64) :
    Prop where
  absorb_eq : absorb k.processBlock s.hash (s.pending ++ rest) = result
  count_eq : s.numBytes + s.bufferSize.toUInt64 + rest.length.toUInt64 = total

variable {s : HashState k} {rest : Bytes} {result : k.Chain × Bytes} {total : UInt64}

theorem Remains.push {b : UInt8} (h : s.Remains (b :: rest) result total)
    (hsize : s.bufferSize < k.blockSize) : (s.push b).Remains rest result total := by
  constructor
  · rw [pending_push hsize, List.append_assoc, List.singleton_append]
    exact h.absorb_eq
  · show s.numBytes + (s.bufferSize + 1).toUInt64 + rest.length.toUInt64 = total
    rw [← h.count_eq, List.length_cons]
    simp only [Nat.toUInt64_eq, UInt64.ofNat_add]
    ac_rfl

/-- The first loop stops at the end of the data or with a full buffer. -/
theorem Remains.fillBuffer (h : s.Remains rest result total) (hsize : s.bufferSize ≤ k.blockSize) :
    (s.fillBuffer rest).1.Remains (s.fillBuffer rest).2 result total ∧
      (s.fillBuffer rest).1.bufferSize ≤ k.blockSize ∧
      ((s.fillBuffer rest).2 = [] ∨ (s.fillBuffer rest).1.bufferSize = k.blockSize) := by
  induction rest generalizing s with
  | nil => exact ⟨h, hsize, .inl rfl⟩
  | cons b bs ih =>
    unfold HashState.fillBuffer
    split_ifs with hlt
    · exact ih (h.push hlt) hlt
    · exact ⟨h, hsize, .inr (Nat.le_antisymm hsize (Nat.le_of_not_lt hlt))⟩

/-- A full buffer is processed. -/
theorem Remains.processFull (hpos : 0 < k.blockSize) (h : s.Remains rest result total)
    (hfull : s.bufferSize = k.blockSize) :
    Remains
      { s with
        hash := k.processBlock s.hash s.buffer
        numBytes := s.numBytes + k.blockSize.toUInt64
        bufferSize := 0 } rest result total := by
  constructor
  · rw [← h.absorb_eq, pending_of_full hfull, absorb_block k.processBlock hpos]
    rfl
  · show s.numBytes + k.blockSize.toUInt64 + (0 : Nat).toUInt64 + rest.length.toUInt64 = total
    rw [← h.count_eq, hfull]
    exact congrArg (· + _) (UInt64.add_zero _)

theorem Remains.processBlocks (h : s.Remains rest result total) (hempty : s.bufferSize = 0) :
    (s.processBlocks rest).1.Remains (s.processBlocks rest).2 result total ∧
      (s.processBlocks rest).1.bufferSize = 0 ∧
      (0 < k.blockSize → (s.processBlocks rest).2.length < k.blockSize) := by
  fun_induction HashState.processBlocks s rest with
  | case1 s data hle ih =>
    refine ih ?_ hempty
    constructor
    · have habsorb := h.absorb_eq
      rw [pending_of_empty hempty, List.nil_append,
        absorb_of_le k.processBlock hle.1 hle.2] at habsorb
      rw [pending_of_empty (by exact hempty), List.nil_append]
      exact habsorb
    · have hsplit : data.length = k.blockSize + (data.drop k.blockSize).length := by
        rw [List.length_drop]
        omega
      rw [← h.count_eq, hsplit]
      simp only [Nat.toUInt64_eq, UInt64.ofNat_add]
      ac_rfl
  | case2 s data hle =>
    exact ⟨h, hempty, fun hpos => by
      show data.length < k.blockSize
      omega⟩

theorem Remains.foldl_push (h : s.Remains rest result total)
    (hfits : s.bufferSize + rest.length < k.blockSize) :
    (rest.foldl HashState.push s).Remains [] result total ∧
      (rest.foldl HashState.push s).bufferSize < k.blockSize := by
  induction rest generalizing s with
  | nil => exact ⟨h, hfits⟩
  | cons b bs ih =>
    rw [List.length_cons] at hfits
    refine ih (h.push (by omega)) ?_
    show s.bufferSize + 1 + bs.length < k.blockSize
    omega

/-- **What a state holds of the bytes that were added.** -/
structure Absorbed (s : HashState k) (msg : Bytes) : Prop where
  size_lt : s.bufferSize < k.blockSize
  absorb_eq : absorb k.processBlock k.initial msg = (s.hash, s.pending)
  count_eq : s.numBytes + s.bufferSize.toUInt64 = msg.length.toUInt64

theorem Absorbed.initial {s : HashState k} (hpos : 0 < k.blockSize) (hash : s.hash = k.initial)
    (hsize : s.bufferSize = 0) (hcount : s.numBytes = 0) : s.Absorbed [] := by
  refine ⟨by omega, ?_, ?_⟩
  · have hnil : ([] : Bytes).length < k.blockSize := hpos
    rw [absorb_of_lt k.processBlock hnil, hash, pending_of_empty hsize]
  · rw [hcount, hsize]
    rfl

theorem Absorbed.remains {msg : Bytes} (h : s.Absorbed msg) (data : Bytes) :
    s.Remains data (absorb k.processBlock k.initial (msg ++ data))
      (msg ++ data).length.toUInt64 := by
  constructor
  · rw [absorb_append k.processBlock k.initial msg data, h.absorb_eq]
  · rw [h.count_eq, List.length_append]
    simp only [Nat.toUInt64_eq, UInt64.ofNat_add]

theorem Remains.absorbed {msg : Bytes}
    (h : s.Remains [] (absorb k.processBlock k.initial msg) msg.length.toUInt64)
    (hsize : s.bufferSize < k.blockSize) : s.Absorbed msg := by
  refine ⟨hsize, ?_, ?_⟩
  · rw [← h.absorb_eq, List.append_nil, absorb_of_lt]
    rwa [length_pending hsize.le]
  · rw [← h.count_eq]
    exact (UInt64.add_zero _).symm

/-- **The state holds what is added, in one piece or in many.** -/
theorem absorbed_add {msg : Bytes} (h : s.Absorbed msg) (data : Bytes) :
    (s.add data).Absorbed (msg ++ data) := by
  have hpos : 0 < k.blockSize := Nat.zero_lt_of_lt h.size_lt
  -- the buffer that is not empty is filled first
  obtain ⟨s₁, rest, hfill, hremains, hle, hend⟩ : ∃ s₁ rest,
      (if 0 < s.bufferSize then s.fillBuffer data else (s, data)) = (s₁, rest) ∧
      s₁.Remains rest (absorb k.processBlock k.initial (msg ++ data))
        (msg ++ data).length.toUInt64 ∧
      s₁.bufferSize ≤ k.blockSize ∧
      (rest = [] ∨ s₁.bufferSize = k.blockSize ∨ s₁.bufferSize = 0) := by
    by_cases hempty : 0 < s.bufferSize
    · obtain ⟨hremains, hle, hend⟩ := (h.remains data).fillBuffer h.size_lt.le
      refine ⟨_, _, if_pos hempty, hremains, hle, ?_⟩
      rcases hend with hend | hend
      · exact .inl hend
      · exact .inr (.inl hend)
    · exact ⟨_, _, if_neg hempty, h.remains data, h.size_lt.le, .inr (.inr (by omega))⟩
  -- then it is processed
  obtain ⟨s₂, hfull, hremains, hlt, hend⟩ : ∃ s₂,
      (if s₁.bufferSize = k.blockSize then
        { s₁ with
          hash := k.processBlock s₁.hash s₁.buffer
          numBytes := s₁.numBytes + k.blockSize.toUInt64
          bufferSize := 0 }
      else s₁) = s₂ ∧
      s₂.Remains rest (absorb k.processBlock k.initial (msg ++ data))
        (msg ++ data).length.toUInt64 ∧
      s₂.bufferSize < k.blockSize ∧ (rest = [] ∨ s₂.bufferSize = 0) := by
    by_cases hfull : s₁.bufferSize = k.blockSize
    · exact ⟨_, if_pos hfull, hremains.processFull hpos hfull, hpos, .inr rfl⟩
    · refine ⟨_, if_neg hfull, hremains, by omega, ?_⟩
      rcases hend with hend | hend | hend
      · exact .inl hend
      · exact absurd hend hfull
      · exact .inr hend
  unfold HashState.add
  simp only [hfill, hfull]
  split_ifs with hnil
  · rw [hnil] at hremains
    exact hremains.absorbed hlt
  · obtain ⟨hremains, hempty, hshort⟩ := hremains.processBlocks (hend.resolve_left hnil)
    have hrest := hshort hpos
    obtain ⟨hremains, hlt⟩ := hremains.foldl_push (by omega)
    exact hremains.absorbed hlt

/-! ## The padding -/

section Final

variable {w : Nat} {field : Nat → Bytes} {msg : Bytes}

theorem Absorbed.length_mod (h : s.Absorbed msg) : msg.length % k.blockSize = s.bufferSize := by
  rw [← length_absorb k.processBlock (Nat.zero_lt_of_lt h.size_lt) k.initial msg, h.absorb_eq]
  exact length_pending h.size_lt.le

theorem Absorbed.lengthField_eq (hk : k.Standard w field) (h : s.Absorbed msg)
    (hlt : msg.length < 2 ^ 61) :
    k.lengthField (s.numBytes + s.bufferSize.toUInt64) = field (8 * msg.length) := by
  have htotal : (s.numBytes + s.bufferSize.toUInt64).toNat = msg.length := by
    rw [h.count_eq, Nat.toUInt64_eq, UInt64.toNat_ofNat']
    exact Nat.mod_eq_of_lt (by omega)
  rw [hk.lengthField_eq _ (by rwa [htotal]), htotal]

/-- **The padding fits into the buffer.** -/
theorem finalBlocks_short (hk : k.Standard w field) (h : s.Absorbed msg) (hlt : msg.length < 2 ^ 61)
    (hshort : s.bufferSize + 1 + w ≤ k.blockSize) (garbage : Nat → UInt8) :
    (s.finalBlocks garbage).1.toList =
      s.pending ++ standardPadding k.blockSize w field msg.length := by
  have hpos := hk.width_pos
  have hpadded := hk.paddedLength_eq s.bufferSize h.size_lt
  rw [if_pos hshort] at hpadded
  have hzeros : (2 * k.blockSize - 1 - w - s.bufferSize) % k.blockSize =
      k.blockSize - w - s.bufferSize - 1 := by
    rw [Nat.mod_eq_sub_mod (by omega), Nat.mod_eq_of_lt (by omega)]
    omega
  have hsplit : k.blockSize - s.bufferSize - 1 = (k.blockSize - w - s.bufferSize - 1) + w := by
    omega
  have hmarked : (s.pending ++ 128 :: List.replicate (k.blockSize - w - s.bufferSize - 1)
    0).length = k.blockSize - w := by
    rw [List.length_append, length_pending h.size_lt.le, List.length_cons, List.length_replicate]
    omega
  have hbuffer : (zeroRange (s.buffer.setIfInBounds s.bufferSize 128) (s.bufferSize + 1)
      k.blockSize).toList.take (k.blockSize - w) =
        s.pending ++ 128 :: List.replicate (k.blockSize - w - s.bufferSize - 1) 0 := by
    rw [toList_marked s.buffer h.size_lt, hsplit, List.replicate_add, ← List.cons_append,
      ← List.append_assoc]
    exact List.take_left' hmarked
  unfold finalBlocks
  simp only [h.size_lt, or_true, if_true, hpadded]
  rw [if_pos (by omega), h.lengthField_eq hk hlt,
    toList_writeAt _ _ (by rw [hk.length_field]; exact Nat.sub_add_cancel hk.width_lt.le), hbuffer,
    standardPadding, h.length_mod, hzeros, List.append_assoc, List.cons_append]

/-- **The padding goes into a second block.** -/
theorem finalBlocks_long (hk : k.Standard w field) (h : s.Absorbed msg) (hlt : msg.length < 2 ^ 61)
    (hlong : k.blockSize < s.bufferSize + 1 + w) (garbage : Nat → UInt8) :
    (s.finalBlocks garbage).1.toList ++ (s.finalBlocks garbage).2.toList =
      s.pending ++ standardPadding k.blockSize w field msg.length := by
  have hwidth := hk.width_lt
  have hsize := h.size_lt
  have hpadded := hk.paddedLength_eq s.bufferSize h.size_lt
  rw [if_neg (by omega)] at hpadded
  have hzeros : (2 * k.blockSize - 1 - w - s.bufferSize) % k.blockSize =
      (k.blockSize - s.bufferSize - 1) + (k.blockSize - w) := by
    rw [Nat.mod_eq_of_lt (by omega)]
    omega
  have hstart : max k.blockSize (s.bufferSize + 1) - k.blockSize = 0 := by omega
  have hstop : 2 * k.blockSize - w - k.blockSize = k.blockSize - w := by omega
  unfold finalBlocks
  simp only [h.size_lt, or_true, if_true, hpadded, hstart, hstop]
  rw [if_neg (by omega), h.lengthField_eq hk hlt,
    toList_writeAt _ _ (by rw [hk.length_field]; exact Nat.sub_add_cancel hk.width_lt.le),
    take_zeroRange _ (Nat.sub_le _ _), toList_marked s.buffer h.size_lt, standardPadding,
    h.length_mod, hzeros, List.replicate_add]
  simp only [List.append_assoc, List.cons_append, pending]

/-- **What `process_buffer` makes of the chain.** -/
theorem hash_processBuffer (hk : k.Standard w field) (h : s.Absorbed msg)
    (hlt : msg.length < 2 ^ 61) (garbage : Nat → UInt8) :
    (s.processBuffer garbage).hash = (absorb k.processBlock k.initial
      (msg ++ standardPadding k.blockSize w field msg.length)).1 := by
  have hpos : 0 < k.blockSize := Nat.zero_lt_of_lt h.size_lt
  have hnil : ([] : Bytes).length < k.blockSize := hpos
  have hpadded := hk.paddedLength_eq s.bufferSize h.size_lt
  have hwidth := hk.width_lt
  rw [absorb_append k.processBlock, h.absorb_eq]
  show (if k.blockSize < k.paddedLength s.bufferSize then
    k.processBlock (k.processBlock s.hash (s.finalBlocks garbage).1) (s.finalBlocks garbage).2
    else k.processBlock s.hash (s.finalBlocks garbage).1) = _
  by_cases hshort : s.bufferSize + 1 + w ≤ k.blockSize
  · rw [if_pos hshort] at hpadded
    rw [← finalBlocks_short hk h hlt hshort garbage, if_neg (by omega),
      ← List.append_nil (Vector.toList _), absorb_block k.processBlock hpos,
      absorb_of_lt k.processBlock hnil]
  · rw [if_neg hshort] at hpadded
    rw [← finalBlocks_long hk h hlt (by omega) garbage, if_pos (by omega),
      absorb_block k.processBlock hpos, ← List.append_nil (Vector.toList _),
      absorb_block k.processBlock hpos, absorb_of_lt k.processBlock hnil]

/-- **`get_hash` gives the digest.** -/
theorem getHash_eq (hk : k.Standard w field) (h : s.Absorbed msg) (hlt : msg.length < 2 ^ 61)
    (garbage : Nat → UInt8) : (s.getHash garbage).1 = k.digest w field msg :=
  congrArg k.output (hash_processBuffer hk h hlt garbage)

/-- `process_buffer` writes behind what is buffered. -/
theorem pending_processBuffer (hk : k.Standard w field) (h : s.Absorbed msg)
    (hlt : msg.length < 2 ^ 61) (garbage : Nat → UInt8) :
    (s.processBuffer garbage).pending = s.pending := by
  have hlength := length_pending h.size_lt.le
  show (s.finalBlocks garbage).1.toList.take s.bufferSize = s.pending
  by_cases hshort : s.bufferSize + 1 + w ≤ k.blockSize
  · rw [finalBlocks_short hk h hlt hshort garbage, List.take_left' hlength]
  · have htake := congrArg (List.take s.bufferSize)
      (finalBlocks_long hk h hlt (Nat.lt_of_not_le hshort) garbage)
    rwa [List.take_append_of_le_length (by
      rw [Vector.length_toList]
      exact h.size_lt.le), List.take_left' hlength] at htake

/-- **`get_hash` changes nothing**, if it restores the chain. -/
theorem absorbed_getHash (hk : k.Standard w field) (hrestore : ∀ old new, k.restore old new = old)
    (h : s.Absorbed msg) (hlt : msg.length < 2 ^ 61) (garbage : Nat → UInt8) :
    (s.getHash garbage).2.Absorbed msg := by
  refine ⟨h.size_lt, ?_, h.count_eq⟩
  rw [h.absorb_eq]
  refine Prod.ext_iff.mpr ⟨(hrestore _ _).symm, ?_⟩
  exact (pending_processBuffer hk h hlt garbage).symm

end Final

end HashState

/-! ## The classes are standard -/

theorem paddedLength64_eq {m : Nat} (h : m < 64) :
    paddedLength64 m = if m + 1 + 8 ≤ 64 then 64 - 8 else 2 * 64 - 8 := by
  unfold paddedLength64
  simp only
  split_ifs <;> omega

theorem paddedLength128_eq {m : Nat} (h : m < 128) :
    paddedLength128 m = if m + 1 + 16 ≤ 128 then 128 - 16 else 2 * 128 - 16 := by
  unfold paddedLength128
  simp only
  split_ifs <;> omega

/-- The number of bits fits into a word. -/
theorem toNat_bits {total : UInt64} (h : total.toNat < 2 ^ 61) :
    (8 * total).toNat = 8 * total.toNat := by
  rw [UInt64.toNat_mul]
  exact Nat.mod_eq_of_lt (by
    show 8 * total.toNat < 2 ^ 64
    omega)

theorem lengthField128_eq {total : UInt64} (h : total.toNat < 2 ^ 61) :
    lengthField128 total = toBe 16 (8 * total.toNat) := by
  have hhigh : (total >>> 61).toNat = 0 := by
    rw [UInt64.toNat_shiftRight]
    show total.toNat >>> 61 = 0
    rw [Nat.shiftRight_eq_div_pow]
    exact Nat.div_eq_of_lt h
  have hlow : (total <<< 3).toNat = 8 * total.toNat := by
    rw [UInt64.toNat_shiftLeft]
    show (total.toNat <<< 3) % 2 ^ 64 = 8 * total.toNat
    rw [Nat.shiftLeft_eq, Nat.mod_eq_of_lt (by omega)]
    omega
  have hzero : 8 * total.toNat / 256 ^ 8 = 0 := Nat.div_eq_of_lt (by omega)
  rw [lengthField128, hhigh, hlow, toBe_add 8 8, hzero]

theorem md5_standard : md5.Standard 8 (toLe 8) where
  width_pos := by decide
  width_lt := by decide
  length_field := length_toLe 8
  paddedLength_eq _ h := paddedLength64_eq h
  lengthField_eq _ h := congrArg (toLe 8) (toNat_bits h)

theorem sha1_standard : sha1.Standard 8 (toBe 8) where
  width_pos := by decide
  width_lt := by decide
  length_field := length_toBe 8
  paddedLength_eq _ h := paddedLength64_eq h
  lengthField_eq _ h := congrArg (toBe 8) (toNat_bits h)

theorem sha256_standard : sha256.Standard 8 (toBe 8) where
  width_pos := by decide
  width_lt := by decide
  length_field := length_toBe 8
  paddedLength_eq _ h := paddedLength64_eq h
  lengthField_eq _ h := congrArg (toBe 8) (toNat_bits h)

theorem sha512_standard : sha512.Standard 16 (toBe 16) where
  width_pos := by decide
  width_lt := by decide
  length_field := length_toBe 16
  paddedLength_eq _ h := paddedLength128_eq h
  lengthField_eq _ h := lengthField128_eq h

theorem sha384_standard : sha384.Standard 16 (toBe 16) where
  width_pos := by decide
  width_lt := by decide
  length_field := length_toBe 16
  paddedLength_eq _ h := paddedLength128_eq h
  lengthField_eq _ h := lengthField128_eq h

end Libca.Crypto
