import Libca.Str.Charset

/-!
# GB18030 is a bijection

`gb18030_to_utf8`, `utf8_to_gb18030` and their wide variants (`str/detail/charset_gb18030.cpp`),
with the tables as a parameter; `Gb18030Tables.Complete` is what the generated tables hold.

* `cpToBytes_double`, `cpToBytes_pointer`: what a code of two or four bytes is decoded to has that
  code.
* `exists_codes`: the byte strings that are decoded are the codes of strings of characters.
* `gb18030_bijective`: the conversions are inverse to each other, and no read is outside a table.
-/

namespace Libca.Str

open Common

namespace Gb18030Tables

/-- What the generated tables hold: their lengths, and that the code points of the two-byte codes
and those of the pointers are scalar values, none of them in both. -/
structure Complete (t : Gb18030Tables) : Prop extends Consistent t where
  doubleSize : t.doubleDecode.size = 23940
  encodeCpSize : t.encodeCp.size = 23940
  encodeSeqSize : t.encodeSeq.size = 23940
  rangeSize : t.rangePtr.size = t.rangeCp.size
  rangePtrStart : t.rangePtr.getD 0 0 = 0
  doubleScalar : ∀ i < t.encodeCp.size, 0x80 ≤ t.encodeCp.getD i 0 ∧ IsScalar (t.encodeCp.getD i 0)
  pointerScalar : ∀ pointer k, k < t.rangeCp.size → t.rangePtr.getD k 0 ≤ pointer →
    pointer ≤ gb18030MaxPointer → (k + 1 < t.rangeCp.size → pointer < t.rangePtr.getD (k + 1) 0) →
    (k + 1 < t.rangeCp.size → t.rangeCp.getD k 0 + (pointer - t.rangePtr.getD k 0) <
      t.rangeCp.getD (k + 1) 0) →
    IsScalar (t.rangeCp.getD k 0 + (pointer - t.rangePtr.getD k 0)) ∧
      ∀ i < t.encodeCp.size, t.encodeCp.getD i 0 ≠ t.rangeCp.getD k 0 +
        (pointer - t.rangePtr.getD k 0)

/-! ## Reads of the tables -/

/-- `gb18030_pointer_to_cp`, or nothing where it reads outside a table. -/
def tryPointerToCp (t : Gb18030Tables) (pointer : Nat) : Option (Option Nat) :=
  if gb18030MaxPointer < pointer then some none
  else do
    let ans ← tryLastTrue (fun mid => t.rangePtr[mid]?.map fun start => decide (start ≤ pointer)) 0
      (t.rangeCp.size - 1) (t.rangeCp.size - 1)
    let cp := (← t.rangeCp[ans]?) + (pointer - (← t.rangePtr[ans]?))
    if ans + 1 < t.rangeCp.size then
      if (← t.rangeCp[ans + 1]?) ≤ cp then return none else return some cp
    else return some cp

/-- `gb18030_next_code_point`, or nothing where it reads outside a table. -/
def tryNextCodePoint (t : Gb18030Tables) (data : Bytes) (pos : Nat) :
    Option (Except Status (Nat × Nat)) :=
  let err : Except Status (Nat × Nat) := .error (charsetInvalidSequence (ascii "gb18030") pos)
  let b0 := (data.getD 0 0).toNat
  if b0 < 0x80 then some (.ok (b0, 1))
  else if b0 = 0x80 ∨ b0 = 0xFF then some err
  else if data.length ≤ 1 then some err
  else
    let b1 := (data.getD 1 0).toNat
    if 0x30 ≤ b1 ∧ b1 ≤ 0x39 then
      if data.length ≤ 3 then some err
      else
        let b2 := (data.getD 2 0).toNat
        let b3 := (data.getD 3 0).toNat
        if b2 < 0x81 ∨ 0xFE < b2 ∨ b3 < 0x30 ∨ 0x39 < b3 then some err
        else do
          match ← t.tryPointerToCp (((b0 - 0x81) * 10 + (b1 - 0x30)) * 1260 + (b2 - 0x81) * 10 +
            (b3 - 0x30)) with
          | none => return err
          | some cp => return .ok (cp, 4)
    else if (0x40 ≤ b1 ∧ b1 ≤ 0x7E) ∨ (0x80 ≤ b1 ∧ b1 ≤ 0xFE) then do
      return .ok (← t.doubleDecode[(b0 - 0x81) * 190 + trailIndex b1]?, 2)
    else some err

/-- `gb18030_encode_lookup`, or nothing where it reads outside a table. -/
def tryEncodeLookup (t : Gb18030Tables) (cp : Nat) : Option (Option Nat) := do
  let lo ← tryFirstFalse (fun mid => t.encodeCp[mid]?.map fun entry =>
    decide (entry < cp)) 0 t.encodeCp.size
  if lo < t.encodeCp.size then
    if (← t.encodeCp[lo]?) = cp then return some lo else return none
  else return none

/-- `gb18030_cp_to_bytes`, or nothing where it reads outside a table. -/
def tryCpToBytes (t : Gb18030Tables) (cp : Nat) : Option (Option Bytes) :=
  if cp < 0x80 then some (some [cp.toUInt8])
  else if notScalar cp then some none
  else do
    match ← t.tryEncodeLookup cp with
    | some idx =>
      let seq ← t.encodeSeq[idx]?
      return some [(seq >>> 8).toUInt8, (seq &&& 0xFF).toUInt8]
    | none =>
      let ans ← tryLastTrue (fun mid => t.rangeCp[mid]?.map fun start => decide (start ≤ cp)) 0
        (t.rangeCp.size - 1) (t.rangeCp.size - 1)
      let pointer := (← t.rangePtr[ans]?) + (cp - (← t.rangeCp[ans]?))
      if gb18030MaxPointer < pointer then return none else return some (pointerBytes pointer)

variable {t : Gb18030Tables}

theorem getElem?_eq_getD {a : Array Nat} {i : Nat} (hi : i < a.size) : a[i]? =
    some (a.getD i 0) := by
  rw [Array.getD_eq_getD_getElem?, Array.getElem?_eq_getElem hi, Option.getD_some]

theorem rangeCp_size_pos (ht : t.Complete) : 0 < t.rangeCp.size := ht.rangeStart.1

theorem tryPointerToCp_eq (ht : t.Complete) (pointer : Nat) :
    t.tryPointerToCp pointer = some (t.pointerToCp pointer) := by
  have hpos := rangeCp_size_pos ht
  have hread : ∀ i < t.rangeCp.size, (t.rangePtr[i]?.map fun start => decide (start ≤ pointer)) =
      some (decide (t.rangePtr.getD i 0 ≤ pointer)) := by
    intro i hi
    rw [getElem?_eq_getD (ht.rangeSize ▸ hi), Option.map_some]
  obtain ⟨hsearch, hans⟩ := tryLastTrue_eq hread (show t.rangeCp.size - 1 < _ by omega)
    (show t.rangeCp.size - 1 < _ by omega) 0
  unfold tryPointerToCp pointerToCp
  by_cases hmax : gb18030MaxPointer < pointer
  · rw [if_pos hmax, if_pos hmax]
  · rw [if_neg hmax, if_neg hmax, hsearch]
    dsimp only
    generalize lastTrue _ 0 (t.rangeCp.size - 1) (t.rangeCp.size - 1) = ans at hans
    simp only [Option.bind_eq_bind, Option.bind_some, getElem?_eq_getD hans,
      getElem?_eq_getD (show ans < t.rangePtr.size from ht.rangeSize ▸ hans)]
    by_cases hnext : ans + 1 < t.rangeCp.size
    · rw [if_pos hnext, getElem?_eq_getD hnext, Option.bind_some]
      by_cases hhole : t.rangeCp.getD (ans + 1) 0 ≤ t.rangeCp.getD ans 0 +
        (pointer - t.rangePtr.getD ans 0)
      · rw [if_pos hhole, if_pos ⟨hnext, hhole⟩]
        rfl
      · rw [if_neg hhole, if_neg (fun h => hhole h.2)]
        rfl
    · rw [if_neg hnext, if_neg (fun h => hnext h.1)]
      rfl

/-- The index of a two-byte code is in the table. -/
theorem doubleIndex_lt {b0 b1 : Nat} (h0 : 0x81 ≤ b0 ∧ b0 ≤ 0xFE)
    (h1 : 0x40 ≤ b1 ∧ b1 ≤ 0x7E ∨ 0x80 ≤ b1 ∧ b1 ≤ 0xFE) :
    (b0 - 0x81) * 190 + trailIndex b1 < 23940 := by
  unfold trailIndex
  split_ifs <;> omega

theorem tryNextCodePoint_eq (ht : t.Complete) (data : Bytes) (pos : Nat) :
    t.tryNextCodePoint data pos = some (t.nextCodePoint data pos) := by
  unfold tryNextCodePoint nextCodePoint
  dsimp only
  by_cases hascii : (data.getD 0 0).toNat < 0x80
  · rw [if_pos hascii, if_pos hascii]
  rw [if_neg hascii, if_neg hascii]
  by_cases hsingle : (data.getD 0 0).toNat = 0x80 ∨ (data.getD 0 0).toNat = 0xFF
  · rw [if_pos hsingle, if_pos hsingle]
  rw [if_neg hsingle, if_neg hsingle]
  by_cases hone : data.length ≤ 1
  · rw [if_pos hone, if_pos hone]
  rw [if_neg hone, if_neg hone]
  by_cases hfour : 0x30 ≤ (data.getD 1 0).toNat ∧ (data.getD 1 0).toNat ≤ 0x39
  · rw [if_pos hfour, if_pos hfour]
    by_cases hshort : data.length ≤ 3
    · rw [if_pos hshort, if_pos hshort]
    rw [if_neg hshort, if_neg hshort]
    by_cases hrest : (data.getD 2 0).toNat < 0x81 ∨ 0xFE < (data.getD 2 0).toNat ∨
      (data.getD 3 0).toNat < 0x30 ∨ 0x39 < (data.getD 3 0).toNat
    · rw [if_pos hrest, if_pos hrest]
    rw [if_neg hrest, if_neg hrest, tryPointerToCp_eq ht]
    generalize t.pointerToCp _ = result
    cases result <;> rfl
  · rw [if_neg hfour, if_neg hfour]
    by_cases hdouble : (0x40 ≤ (data.getD 1 0).toNat ∧ (data.getD 1 0).toNat ≤ 0x7E) ∨
        (0x80 ≤ (data.getD 1 0).toNat ∧ (data.getD 1 0).toNat ≤ 0xFE)
    · have hb0 := UInt8.toNat_lt (data.getD 0 0)
      have hindex := doubleIndex_lt (show 0x81 ≤ (data.getD 0 0).toNat ∧ (data.getD 0 0).toNat ≤
        0xFE by omega) hdouble
      rw [← ht.doubleSize] at hindex
      rw [if_pos hdouble, if_pos hdouble, getElem?_eq_getD hindex]
      rfl
    · rw [if_neg hdouble, if_neg hdouble]

theorem tryEncodeLookup_eq (t : Gb18030Tables) (cp : Nat) :
    t.tryEncodeLookup cp = some (t.encodeLookup cp) := by
  have hread : ∀ i < t.encodeCp.size, (t.encodeCp[i]?.map fun entry => decide (entry < cp)) =
      some (decide (t.encodeCp.getD i 0 < cp)) := by
    intro i hi
    rw [getElem?_eq_getD hi, Option.map_some]
  unfold tryEncodeLookup encodeLookup
  rw [tryFirstFalse_eq hread le_rfl 0]
  dsimp only
  generalize firstFalse _ 0 t.encodeCp.size = lo
  simp only [Option.bind_eq_bind, Option.bind_some]
  by_cases hlo : lo < t.encodeCp.size
  · rw [if_pos hlo, getElem?_eq_getD hlo, Option.bind_some]
    by_cases heq : t.encodeCp.getD lo 0 = cp
    · rw [if_pos heq, if_pos ⟨hlo, heq⟩]
      rfl
    · rw [if_neg heq, if_neg (fun h => heq h.2)]
      rfl
  · rw [if_neg hlo, if_neg (fun h => hlo h.1)]
    rfl

theorem tryCpToBytes_eq (ht : t.Complete) (cp : Nat) : t.tryCpToBytes cp =
    some (t.cpToBytes cp) := by
  have hpos := rangeCp_size_pos ht
  have hread : ∀ i < t.rangeCp.size, (t.rangeCp[i]?.map fun start => decide (start ≤ cp)) =
      some (decide (t.rangeCp.getD i 0 ≤ cp)) := by
    intro i hi
    rw [getElem?_eq_getD hi, Option.map_some]
  obtain ⟨hsearch, hans⟩ := tryLastTrue_eq hread (show t.rangeCp.size - 1 < _ by omega)
    (show t.rangeCp.size - 1 < _ by omega) 0
  unfold tryCpToBytes cpToBytes
  by_cases hascii : cp < 0x80
  · rw [if_pos hascii, if_pos hascii]
  rw [if_neg hascii, if_neg hascii]
  by_cases hscalar : notScalar cp = true
  · rw [if_pos hscalar, if_pos hscalar]
  rw [if_neg hscalar, if_neg hscalar, tryEncodeLookup_eq]
  cases hlookup : t.encodeLookup cp with
  | some idx =>
    have hidx := (encodeLookup_eq_some hlookup).1
    have hseq : idx < t.encodeSeq.size := by
      rw [ht.encodeSeqSize, ← ht.encodeCpSize]
      exact hidx
    simp only [Option.bind_eq_bind, Option.bind_some, getElem?_eq_getD hseq]
    rfl
  | none =>
    simp only [Option.bind_eq_bind, Option.bind_some, hsearch]
    generalize lastTrue _ 0 (t.rangeCp.size - 1) (t.rangeCp.size - 1) = ans at hans
    simp only [getElem?_eq_getD hans,
      getElem?_eq_getD (show ans < t.rangePtr.size from ht.rangeSize ▸ hans), Option.bind_some]
    by_cases hmax : gb18030MaxPointer < t.rangePtr.getD ans 0 + (cp - t.rangeCp.getD ans 0)
    · rw [if_pos hmax, if_pos hmax]
      rfl
    · rw [if_neg hmax, if_neg hmax]
      rfl

/-! ## What is decoded is encoded -/

/-- The index of a two-byte code in the decode table. -/
def doubleIndex (seq : Nat) : Nat := (seq >>> 8 - 0x81) * 190 + trailIndex (seq &&& 0xFF)

/-- The entries of the encode table are the two-byte codes, each once. -/
theorem exists_encode (ht : t.Complete) {p : Nat} (hp : p < 23940) :
    ∃ i < t.encodeCp.size, doubleIndex (t.encodeSeq.getD i 0) = p := by
  have hsize := ht.encodeCpSize
  have hindex : ∀ i < t.encodeCp.size, doubleIndex (t.encodeSeq.getD i 0) < 23940 := by
    intro i hi
    obtain ⟨hlow, hhigh, htrail, -⟩ := ht.double i hi
    exact doubleIndex_lt ⟨hlow, hhigh⟩ htrail
  have hdecode : ∀ i < t.encodeCp.size,
      t.doubleDecode.getD (doubleIndex (t.encodeSeq.getD i 0)) 0 = t.encodeCp.getD i 0 :=
        fun i hi =>
    (ht.double i hi).2.2.2
  let f : Fin 23940 → Fin 23940 :=
    fun i => ⟨doubleIndex (t.encodeSeq.getD i 0), hindex i (by omega)⟩
  have hinjective : Function.Injective f := by
    intro i j hij
    have hindexes : doubleIndex (t.encodeSeq.getD i 0) = doubleIndex (t.encodeSeq.getD j 0) :=
      congrArg Fin.val hij
    have hcp : t.encodeCp.getD i 0 = t.encodeCp.getD j 0 := by
      rw [← hdecode i (by omega), ← hdecode j (by omega), hindexes]
    rcases Nat.lt_trichotomy i j with hlt | heq | hlt
    · exact absurd hcp (Nat.ne_of_lt (ht.encodeSorted i j hlt (by omega)))
    · exact Fin.ext heq
    · exact absurd hcp.symm (Nat.ne_of_lt (ht.encodeSorted j i hlt (by omega)))
  obtain ⟨i, hi⟩ := Finite.surjective_of_injective hinjective ⟨p, hp⟩
  exact ⟨i, by omega, congrArg Fin.val hi⟩

/-- A code point of the encode table is found there. -/
theorem encodeLookup_eq (ht : t.Complete) {i : Nat} (hi : i < t.encodeCp.size) :
    t.encodeLookup (t.encodeCp.getD i 0) = some i := by
  cases hlookup : t.encodeLookup (t.encodeCp.getD i 0) with
  | none => exact absurd rfl (encodeLookup_eq_none ht.toConsistent hlookup i hi)
  | some j =>
    obtain ⟨hj, hcp⟩ := encodeLookup_eq_some hlookup
    rcases Nat.lt_trichotomy i j with hlt | heq | hlt
    · exact absurd hcp.symm (Nat.ne_of_lt (ht.encodeSorted i j hlt hj))
    · rw [heq]
    · exact absurd hcp (Nat.ne_of_lt (ht.encodeSorted j i hlt hi))

/-- Two-byte codes with one index are the same. -/
theorem eq_of_doubleIndex {b0 b1 c0 c1 : Nat} (hb0 : 0x81 ≤ b0) (hc0 : 0x81 ≤ c0)
    (hb1 : 0x40 ≤ b1 ∧ b1 ≤ 0x7E ∨ 0x80 ≤ b1 ∧ b1 ≤ 0xFE)
    (hc1 : 0x40 ≤ c1 ∧ c1 ≤ 0x7E ∨ 0x80 ≤ c1 ∧ c1 ≤ 0xFE)
    (h : (b0 - 0x81) * 190 + trailIndex b1 = (c0 - 0x81) * 190 + trailIndex c1) :
    b0 = c0 ∧ b1 = c1 := by
  unfold trailIndex at h
  split_ifs at h <;> omega

variable {cp : Nat}

/-- **What a code of two bytes is decoded to has that code.** -/
theorem cpToBytes_double (ht : t.Complete) (lead trail : UInt8)
    (hlead : 0x81 ≤ lead.toNat ∧ lead.toNat ≤ 0xFE)
    (htrail : 0x40 ≤ trail.toNat ∧ trail.toNat ≤ 0x7E ∨ 0x80 ≤ trail.toNat ∧ trail.toNat ≤ 0xFE)
    (hcp : t.doubleDecode.getD ((lead.toNat - 0x81) * 190 + trailIndex trail.toNat) 0 = cp) :
    IsScalar cp ∧ t.cpToBytes cp = some [lead, trail] := by
  obtain ⟨i, hi, hindex⟩ := exists_encode ht (doubleIndex_lt hlead htrail)
  obtain ⟨hlow, hhigh, htrail', hdecode⟩ := ht.double i hi
  have hentry : t.encodeCp.getD i 0 = cp := by
    rw [← hcp, ← hindex]
    exact hdecode.symm
  obtain ⟨hascii, hscalar⟩ := ht.doubleScalar i hi
  rw [hentry] at hascii hscalar
  have hrefused : ¬ notScalar cp = true := by
    unfold IsScalar at hscalar
    simp only [notScalar, decide_eq_true_eq]
    omega
  obtain ⟨hseq0, hseq1⟩ := eq_of_doubleIndex hlow hlead.1 htrail' htrail hindex
  refine ⟨hscalar, ?_⟩
  rw [cpToBytes, if_neg (by omega), if_neg hrefused, ← hentry, encodeLookup_eq ht hi]
  dsimp only
  rw [hseq0, hseq1]
  exact congrArg some (by simp)

/-- **What a pointer is mapped to has its code.** -/
theorem cpToBytes_pointer (ht : t.Complete) {pointer : Nat} (h : t.pointerToCp pointer = some cp) :
    IsScalar cp ∧ t.cpToBytes cp = some (pointerBytes pointer) := by
  obtain ⟨k, hk, hans, hle, hlt⟩ := exists_lastTrue ht.rangePtrSorted (rangeCp_size_pos ht)
    (x := pointer) (by rw [ht.rangePtrStart]; exact Nat.zero_le _)
  unfold pointerToCp at h
  by_cases hmax : gb18030MaxPointer < pointer
  · rw [if_pos hmax] at h
    nomatch h
  rw [if_neg hmax, hans] at h
  change (if k + 1 < t.rangeCp.size ∧
      t.rangeCp.getD (k + 1) 0 ≤ t.rangeCp.getD k 0 + (pointer - t.rangePtr.getD k 0) then none
    else some (t.rangeCp.getD k 0 + (pointer - t.rangePtr.getD k 0))) = some cp at h
  by_cases hhole : k + 1 < t.rangeCp.size ∧
      t.rangeCp.getD (k + 1) 0 ≤ t.rangeCp.getD k 0 + (pointer - t.rangePtr.getD k 0)
  · rw [if_pos hhole] at h
    nomatch h
  rw [if_neg hhole] at h
  have hcp := Option.some.inj h
  have hnext (hk' : k + 1 < t.rangeCp.size) :
      t.rangeCp.getD k 0 + (pointer - t.rangePtr.getD k 0) < t.rangeCp.getD (k + 1) 0 := by
    by_contra hge
    exact hhole ⟨hk', by omega⟩
  obtain ⟨hscalar, hdouble⟩ := ht.pointerScalar pointer k hk hle (Nat.le_of_not_lt hmax) hlt hnext
  rw [hcp] at hscalar hdouble hnext
  have hstart : 0x80 ≤ t.rangeCp.getD k 0 := by
    rw [← ht.rangeStart.2]
    rcases Nat.eq_zero_or_pos k with rfl | hpos
    · exact le_rfl
    · exact (ht.rangeCpSorted 0 k hpos hk).le
  have hrefused : ¬ notScalar cp = true := by
    unfold IsScalar at hscalar
    simp only [notScalar, decide_eq_true_eq]
    omega
  have hlookup : t.encodeLookup cp = none := by
    cases hlookup : t.encodeLookup cp with
    | none => rfl
    | some i =>
      obtain ⟨hi, hentry⟩ := encodeLookup_eq_some hlookup
      exact absurd hentry (hdouble i hi)
  obtain ⟨l, hl, hans', hle', hlt'⟩ := exists_range ht.toConsistent cp (by omega)
  have hrange : k = l := eq_of_between ht.rangeCpSorted hk hl (by omega) hle' hnext hlt'
  refine ⟨hscalar, ?_⟩
  rw [cpToBytes, if_neg (by omega), if_neg hrefused, hlookup]
  dsimp only
  rw [hans', ← hrange, show t.rangePtr.getD k 0 + (cp - t.rangeCp.getD k 0) = pointer by omega,
    if_neg hmax]

/-- The bytes of a pointer are those it was read from. -/
theorem pointerBytes_eq {b0 b1 b2 b3 : UInt8} (h0 : 0x81 ≤ b0.toNat ∧ b0.toNat ≤ 0xFE)
    (h1 : 0x30 ≤ b1.toNat ∧ b1.toNat ≤ 0x39) (h2 : 0x81 ≤ b2.toNat ∧ b2.toNat ≤ 0xFE)
    (h3 : 0x30 ≤ b3.toNat ∧ b3.toNat ≤ 0x39) :
    pointerBytes (((b0.toNat - 0x81) * 10 + (b1.toNat - 0x30)) * 1260 + (b2.toNat - 0x81) * 10 +
      (b3.toNat - 0x30)) = [b0, b1, b2, b3] := by
  generalize hpointer : ((b0.toNat - 0x81) * 10 + (b1.toNat - 0x30)) * 1260 +
    (b2.toNat - 0x81) * 10 +
    (b3.toNat - 0x30) = pointer
  have hbyte {n : Nat} {b : UInt8} (hn : n = b.toNat) : n.toUInt8 = b := by
    rw [hn]
    exact UInt8.ofNat_toNat
  rw [pointerBytes, hbyte (show 0x81 + pointer / 12600 = b0.toNat by omega),
    hbyte (show 0x30 + pointer % 12600 / 1260 = b1.toNat by omega),
    hbyte (show 0x81 + pointer % 1260 / 10 = b2.toNat by omega),
      hbyte (show 0x30 + pointer % 10 = b3.toNat by omega)]

/-- A code point with a code is a character, and its code. -/
theorem exists_char {bytes : Bytes} (h : IsScalar cp ∧ t.cpToBytes cp = some bytes) :
    ∃ c : Char, cp = c.toNat ∧ bytes = t.code c := by
  obtain ⟨hscalar, hbytes⟩ := h
  have hchar : (Char.ofNat cp).toNat = cp := by
    unfold IsScalar at hscalar
    exact toNat_ofNat (by omega)
  refine ⟨Char.ofNat cp, hchar.symm, ?_⟩
  rw [code, hchar, hbytes, Option.getD_some]

/-- **What is decoded at the front of some bytes is a character, whose code stands there.** -/
theorem exists_code_of_nextCodePoint (ht : t.Complete) {data : Bytes} {pos len : Nat}
    (hne : data ≠ []) (h : t.nextCodePoint data pos = .ok (cp, len)) :
    ∃ c rest, cp = Char.toNat c ∧ data = t.code c ++ rest ∧ len = (t.code c).length := by
  obtain ⟨b0, data, rfl⟩ := List.exists_cons_of_ne_nil hne
  unfold nextCodePoint at h
  dsimp only at h
  rw [List.getD_cons_zero] at h
  by_cases hascii : b0.toNat < 0x80
  · rw [if_pos hascii] at h
    cases h
    have hcode : t.cpToBytes b0.toNat = some [b0] := by
      rw [cpToBytes, if_pos hascii]
      exact congrArg (fun b => some [b]) UInt8.ofNat_toNat
    obtain ⟨c, hc, hbytes⟩ := exists_char ⟨.inl (by omega), hcode⟩
    exact ⟨c, data, hc, by rw [← hbytes]; rfl, by rw [← hbytes]; rfl⟩
  rw [if_neg hascii] at h
  by_cases hsingle : b0.toNat = 0x80 ∨ b0.toNat = 0xFF
  · rw [if_pos hsingle] at h
    cases h
  rw [if_neg hsingle] at h
  have hlead := UInt8.toNat_lt b0
  cases data with
  | nil =>
    rw [if_pos (by simp)] at h
    cases h
  | cons b1 data =>
    rw [if_neg (by simp), List.getD_cons_succ, List.getD_cons_zero] at h
    by_cases hfour : 0x30 ≤ b1.toNat ∧ b1.toNat ≤ 0x39
    · rw [if_pos hfour] at h
      rcases data with _ | ⟨b2, _ | ⟨b3, rest⟩⟩
      · rw [if_pos (by simp)] at h
        cases h
      · rw [if_pos (by simp)] at h
        cases h
      · rw [if_neg (by simp), List.getD_cons_succ, List.getD_cons_succ, List.getD_cons_zero,
          List.getD_cons_succ, List.getD_cons_succ, List.getD_cons_succ, List.getD_cons_zero] at h
        by_cases htrail : b2.toNat < 0x81 ∨ 0xFE < b2.toNat ∨ b3.toNat < 0x30 ∨ 0x39 < b3.toNat
        · rw [if_pos htrail] at h
          cases h
        rw [if_neg htrail] at h
        split at h
        · cases h
        · rename_i cp' hpointer
          cases h
          have hbytes := cpToBytes_pointer ht hpointer
          rw [pointerBytes_eq (by omega) hfour (by omega) (by omega)] at hbytes
          obtain ⟨c, hc, hbytes⟩ := exists_char hbytes
          exact ⟨c, rest, hc, by rw [← hbytes]; rfl, by rw [← hbytes]; rfl⟩
    · rw [if_neg hfour] at h
      by_cases hdouble : (0x40 ≤ b1.toNat ∧ b1.toNat ≤ 0x7E) ∨ (0x80 ≤ b1.toNat ∧ b1.toNat ≤ 0xFE)
      · rw [if_pos hdouble] at h
        obtain ⟨hcp, rfl⟩ := Prod.mk.inj (Except.ok.inj h)
        obtain ⟨c, hc, hbytes⟩ := exists_char (cpToBytes_double ht b0 b1 (by omega) hdouble hcp)
        exact ⟨c, data, hc, by rw [← hbytes]; rfl, by rw [← hbytes]; rfl⟩
      · rw [if_neg hdouble] at h
        cases h

/-- **What is decoded is the codes of a string.** -/
theorem exists_codes (ht : t.Complete) {gb18030 : Bytes} {pos : Nat} {cps cps' : List Nat}
    (h : t.codePointsLoop 0 pos cps gb18030 = .ok cps') :
    ∃ cs, gb18030 = t.codes cs ∧ cps' = cps ++ cs.map Char.toNat := by
  induction hlength : gb18030.length using Nat.strong_induction_on generalizing gb18030 pos cps with
  | _ n ih =>
    cases gb18030 with
    | nil =>
      cases h
      exact ⟨[], rfl, (List.append_nil _).symm⟩
    | cons b rest =>
      cases hnext : t.nextCodePoint (b :: rest) pos with
      | error err =>
        rw [codePointsLoop, hnext] at h
        cases h
      | ok next =>
        obtain ⟨cp, len⟩ := next
        obtain ⟨c, rest', rfl, hdata, hlen⟩ :=
          exists_code_of_nextCodePoint ht (List.cons_ne_nil b rest) hnext
        obtain ⟨-, hne, hall⟩ := cpToBytes_toNat ht.toConsistent c
        rw [hdata] at h hlength
        rw [codePointsLoop_append hne hall] at h
        have hpos := List.length_pos_of_ne_nil hne
        rw [List.length_append] at hlength
        obtain ⟨cs, rfl, rfl⟩ := ih rest'.length (by omega) h rfl
        refine ⟨c :: cs, ?_, ?_⟩
        · rw [hdata, codes_cons]
        · rw [List.append_assoc]
          rfl

end Gb18030Tables

/-! ## Wide strings -/

/-- `wide_to_code_points` on Windows, from a position on. -/
def wideToCodePointsUtf16 : Nat → List Nat → Except Status (List Nat)
  | _, [] => .ok []
  | i, [unit] =>
    if isLeadSurrogate unit then .error (charsetInvalidSequence (ascii "wchar") i)
    else if isTrailSurrogate unit then .error (charsetInvalidSequence (ascii "wchar") i)
    else .ok [unit]
  | i, unit :: next :: rest =>
    if isLeadSurrogate unit then
      if isTrailSurrogate next then (decodePair unit next :: ·) <$> wideToCodePointsUtf16
        (i + 2) rest
      else .error (charsetInvalidSequence (ascii "wchar") i)
    else if isTrailSurrogate unit then .error (charsetInvalidSequence (ascii "wchar") i)
    else (unit :: ·) <$> wideToCodePointsUtf16 (i + 1) (next :: rest)

/-- `wide_to_code_points`. -/
def platformCodePoints (platform : Platform) (wide : List Nat) : Except Status (List Nat) :=
  match platform with
  | .windows => wideToCodePointsUtf16 0 wide
  | .posix => wideToCodePoints wide

/-- `gb18030_to_wide`. -/
def gb18030ToWide (platform : Platform) (t : Gb18030Tables) (gb18030 : Bytes) :
    Except Status (List Nat) :=
  match t.codePointsLoop 0 0 [] gb18030 with
  | .error err => .error err
  | .ok cps => .ok (cps.foldl (widePushCodePoint platform) [])

/-- `wide_to_gb18030`. -/
def wideToGb18030 (platform : Platform) (t : Gb18030Tables) (wide : List Nat) :
    Except Status Bytes :=
  match platformCodePoints platform wide with
  | .error err => .error err
  | .ok cps => cps.foldlM (pushGb18030 t) []

/-- The wide string of some characters. -/
def wideOfChars (platform : Platform) (cs : List Char) : List Nat :=
  match platform with
  | .windows => utf16OfChars cs
  | .posix => cs.map Char.toNat

theorem wideToCodePointsUtf16_utf16OfChars (cs : List Char) (i : Nat) :
    wideToCodePointsUtf16 i (utf16OfChars cs) = .ok (cs.map Char.toNat) := by
  induction cs generalizing i with
  | nil => simp [utf16OfChars, wideToCodePointsUtf16]
  | cons c cs ih =>
    have hc := toNat_scalar c
    rw [show utf16OfChars (c :: cs) = utf16Units c.toNat ++ utf16OfChars cs from rfl, utf16Units]
    by_cases hpair : 0x10000 ≤ c.toNat
    · obtain ⟨hlead, htrail, hdecode⟩ := decodePair_encodePair hpair (by omega)
      rw [if_pos hpair, List.cons_append, List.cons_append, List.nil_append, wideToCodePointsUtf16,
        if_pos hlead, if_pos htrail, ih, hdecode]
      rfl
    · have hlead : ¬ isLeadSurrogate c.toNat = true := by
        simp only [isLeadSurrogate, decide_eq_true_eq]
        omega
      have htrail : ¬ isTrailSurrogate c.toNat = true := by
        simp only [isTrailSurrogate, decide_eq_true_eq]
        omega
      rw [if_neg hpair, List.cons_append, List.nil_append]
      have hrest := ih (i + 1)
      generalize utf16OfChars cs = units at hrest
      cases units with
      | nil =>
        have hnil : cs.map Char.toNat = [] := (Except.ok.inj hrest).symm
        rw [wideToCodePointsUtf16, if_neg hlead, if_neg htrail, List.map_cons, hnil]
      | cons next rest =>
        rw [wideToCodePointsUtf16, if_neg hlead, if_neg htrail, hrest]
        rfl

theorem platformCodePoints_wideOfChars (platform : Platform) (cs : List Char) :
    platformCodePoints platform (wideOfChars platform cs) = .ok (cs.map Char.toNat) := by
  cases platform with
  | posix => exact wideToCodePoints_toNat cs
  | windows => exact wideToCodePointsUtf16_utf16OfChars cs 0

theorem foldl_widePushCodePoint (platform : Platform) (cs : List Char) :
    (cs.map Char.toNat).foldl (widePushCodePoint platform) [] = wideOfChars platform cs := by
  have hfold (out : List Nat) : (cs.map Char.toNat).foldl (widePushCodePoint platform) out =
      out ++ wideOfChars platform cs := by
    induction cs generalizing out with
    | nil => cases platform <;> simp [wideOfChars, utf16OfChars]
    | cons c cs ih =>
      rw [List.map_cons, List.foldl_cons, ih]
      cases platform <;> simp [wideOfChars, utf16OfChars, widePushCodePoint]
  rw [hfold, List.nil_append]

variable {t : Gb18030Tables}

theorem foldlM_pushGb18030 (ht : t.Consistent) (cs : List Char) (out : Bytes) :
    (cs.map Char.toNat).foldlM (pushGb18030 t) out = .ok (out ++ t.codes cs) := by
  induction cs generalizing out with
  | nil =>
    rw [Gb18030Tables.codes, List.flatMap_nil, List.append_nil]
    rfl
  | cons c cs ih =>
    rw [List.map_cons, List.foldlM_cons, pushGb18030_toNat ht]
    refine (ih _).trans ?_
    rw [Gb18030Tables.codes_cons, List.append_assoc]

theorem wideToGb18030_wideOfChars (ht : t.Consistent) (platform : Platform) (cs : List Char) :
    wideToGb18030 platform t (wideOfChars platform cs) = .ok (t.codes cs) := by
  rw [wideToGb18030, platformCodePoints_wideOfChars]
  exact foldlM_pushGb18030 ht cs []

theorem gb18030ToWide_codes (ht : t.Consistent) (platform : Platform) (cs : List Char) :
    gb18030ToWide platform t (t.codes cs) = .ok (wideOfChars platform cs) := by
  rw [gb18030ToWide, Gb18030Tables.codePointsLoop_codes ht, List.nil_append]
  exact congrArg _ (foldl_widePushCodePoint platform cs)

/-! ## Both ways -/

/-- **GB18030 is a bijection.** Valid text is encoded and decoded back, what is decoded is encoded
back, for UTF-8 and for wide strings, and no read is outside a table. -/
theorem gb18030_bijective (ht : t.Complete) :
    (∀ s, IsUtf8 s → ∃ gb18030, utf8ToGb18030 t s = .ok gb18030 ∧ gb18030ToUtf8 t gb18030 = .ok s) ∧
    (∀ gb18030 s, gb18030ToUtf8 t gb18030 = .ok s → utf8ToGb18030 t s = .ok gb18030) ∧
    (∀ platform cs, ∃ gb18030, wideToGb18030 platform t (wideOfChars platform cs) = .ok gb18030 ∧
      gb18030ToWide platform t gb18030 = .ok (wideOfChars platform cs)) ∧
    (∀ platform gb18030 wide, gb18030ToWide platform t gb18030 = .ok wide →
      wideToGb18030 platform t wide = .ok gb18030) ∧
    (∀ data pos, t.tryNextCodePoint data pos = some (t.nextCodePoint data pos)) ∧
    ∀ cp, t.tryCpToBytes cp = some (t.cpToBytes cp) := by
  have ht' := ht.toConsistent
  refine ⟨?_, ?_, ?_, ?_, Gb18030Tables.tryNextCodePoint_eq ht, Gb18030Tables.tryCpToBytes_eq ht⟩
  · rintro s ⟨cs, rfl⟩
    exact ⟨t.codes cs, utf8ToGb18030_encode ht' cs, gb18030ToUtf8_codes ht' cs⟩
  · intro gb18030 s h
    unfold gb18030ToUtf8 at h
    cases hloop : t.codePointsLoop 0 0 [] gb18030 with
    | error err =>
      rw [hloop] at h
      nomatch h
    | ok cps =>
      rw [hloop] at h
      obtain ⟨cs, rfl, rfl⟩ := Gb18030Tables.exists_codes ht hloop
      rw [← Except.ok.inj h, List.nil_append, flatMap_encoded]
      exact utf8ToGb18030_encode ht' cs
  · intro platform cs
    exact ⟨t.codes cs, wideToGb18030_wideOfChars ht' platform cs,
      gb18030ToWide_codes ht' platform cs⟩
  · intro platform gb18030 wide h
    unfold gb18030ToWide at h
    cases hloop : t.codePointsLoop 0 0 [] gb18030 with
    | error err =>
      rw [hloop] at h
      nomatch h
    | ok cps =>
      rw [hloop] at h
      obtain ⟨cs, rfl, rfl⟩ := Gb18030Tables.exists_codes ht hloop
      rw [← Except.ok.inj h, List.nil_append, foldl_widePushCodePoint]
      exact wideToGb18030_wideOfChars ht' platform cs

/-! ## Tables of the same shape -/

/-- The two-byte code at an index. -/
def doubleCode (i : Nat) : Nat := (0x81 + i / 190) * 256 + (i % 190 + if i % 190 < 0x3F then
    0x40 else 0x41)

/-- Tables with two-byte codes for the code points from `0x4E00` on, in order, and with the pointers
of the code points above `0xFFFF` as they are in GB18030. -/
def orderedTables : Gb18030Tables where
  doubleDecode := (Array.range 23940).map (0x4E00 + ·)
  encodeCp := (Array.range 23940).map (0x4E00 + ·)
  encodeSeq := (Array.range 23940).map doubleCode
  rangeCp := #[0x80, 0xAB84, 0xE000, 0x10000]
  rangePtr := #[0, 19840, 31228, 189000]

theorem getD_map_range {f : Nat → Nat} {n i : Nat} (hi : i < n) :
    ((Array.range n).map f).getD i 0 = f i := by
  rw [Array.getD_eq_getD_getElem?, Array.getElem?_map, Array.getElem?_range, if_pos hi]
  rfl

theorem size_orderedTables : orderedTables.encodeCp.size = 23940 := by simp [orderedTables]

theorem encodeCp_orderedTables {i : Nat} (hi : i < orderedTables.encodeCp.size) :
    orderedTables.encodeCp.getD i 0 = 0x4E00 + i :=
  getD_map_range (size_orderedTables ▸ hi)

/-- A code point that is not in the table is below it or above it. -/
theorem outside_orderedTables {cp : Nat}
    (h : ∀ i < orderedTables.encodeCp.size, orderedTables.encodeCp.getD i 0 ≠ cp) :
    cp < 0x4E00 ∨ 0xAB84 ≤ cp := by
  by_contra hinside
  have hsize := size_orderedTables
  have hi : cp - 0x4E00 < orderedTables.encodeCp.size := by omega
  exact h _ hi (by rw [encodeCp_orderedTables hi]; omega)

theorem doubleCode_bytes (i : Nat) :
    doubleCode i >>> 8 = 0x81 + i / 190 ∧
      doubleCode i &&& 0xFF = i % 190 + if i % 190 < 0x3F then 0x40 else 0x41 := by
  have hshift : doubleCode i >>> 8 = doubleCode i / 256 := Nat.shiftRight_eq_div_pow _ 8
  have hmask : doubleCode i &&& 0xFF = doubleCode i % 256 := Nat.and_two_pow_sub_one_eq_mod _ 8
  rw [hshift, hmask, doubleCode]
  split_ifs <;> omega

theorem complete_orderedTables : orderedTables.Complete where
  encodeSorted i j hij hj := by
    rw [encodeCp_orderedTables hj, encodeCp_orderedTables (hij.trans hj)]
    omega
  double i hi := by
    have hsize := size_orderedTables
    have hseq : orderedTables.encodeSeq.getD i 0 = doubleCode i := getD_map_range (by omega)
    obtain ⟨hlead, htrail⟩ := doubleCode_bytes i
    have hindex : (0x81 + i / 190 - 0x81) * 190 +
        trailIndex (i % 190 + if i % 190 < 0x3F then 0x40 else 0x41) = i := by
      unfold trailIndex
      split_ifs <;> omega
    have hdecode : orderedTables.doubleDecode.getD i 0 = 0x4E00 + i := getD_map_range (by omega)
    rw [hseq, hlead, htrail]
    dsimp only
    rw [hindex, hdecode, encodeCp_orderedTables hi]
    refine ⟨by omega, by omega, ?_, rfl⟩
    split_ifs <;> omega
  rangeStart := ⟨by decide, by decide⟩
  rangeCpSorted i j hij hj := by
    have hj' : j < 4 := hj
    interval_cases j <;> interval_cases i <;> decide
  rangePtrSorted i j hij hj := by
    have hj' : j < 4 := hj
    interval_cases j <;> interval_cases i <;> decide
  pointer cp k hscalar hdouble hk hle hlt := by
    have hk' : k < 4 := hk
    have houtside := outside_orderedTables hdouble
    unfold IsScalar at hscalar
    interval_cases k <;>
      simp [orderedTables, gb18030MaxPointer] at hle hlt ⊢ <;> omega
  doubleSize := by simp [orderedTables]
  encodeCpSize := size_orderedTables
  encodeSeqSize := by simp [orderedTables]
  rangeSize := rfl
  rangePtrStart := rfl
  doubleScalar i hi := by
    have hsize := size_orderedTables
    rw [encodeCp_orderedTables hi]
    unfold IsScalar
    omega
  pointerScalar pointer k hk hle hmax hlt hnext := by
    have hk' : k < 4 := hk
    have hsize := size_orderedTables
    have hmax' : pointer ≤ 1237575 := hmax
    have hrange : ∀ cp, (cp < 0x4E00 ∨ 0xAB84 ≤ cp) → ∀ i < orderedTables.encodeCp.size,
        orderedTables.encodeCp.getD i 0 ≠ cp := by
      intro cp hcp i hi
      rw [encodeCp_orderedTables hi]
      omega
    refine ⟨?_, hrange _ ?_⟩
    · unfold IsScalar
      interval_cases k <;> simp [orderedTables] at hle hlt hnext ⊢ <;> omega
    · interval_cases k <;> simp [orderedTables] at hle hlt hnext ⊢ <;> omega

/-- A letter and an emoticon. -/
theorem gb18030_bijective_emoticon :
    ∃ gb18030, utf8ToGb18030 orderedTables (encode ['A', '😀']) = .ok gb18030 ∧
    gb18030ToUtf8 orderedTables gb18030 = .ok (encode ['A', '😀']) :=
  (gb18030_bijective complete_orderedTables).1 _ (isUtf8_encode _)

end Libca.Str
