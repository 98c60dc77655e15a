import Libca.Crypto.Des
import Libca.Crypto.Modes
import Mathlib.Data.List.GetD

/-!
# The modes of DES (`crypto/des.cpp`)

* `testBit_permute`: the bits of a permutation by a table; `permute_permute` for two tables of which
  one is the inverse of the other.
* `deriveSubkeys_reverse`: the keys in the other order.
* `desCryptBlock_desCryptBlock`: the rounds with those keys undo a block.
* `undoes_ecb`, `undoes_cbc`: the loops of the modes, on one block.
* `pkcs5Unpad_eq_ok`: what the padding accepts.
-/

namespace Libca.Crypto.Des

open Common

/-! ## Permutations of the bits -/

theorem permute_append_singleton (value : UInt64) (inWidth : Nat) (table : List Nat) (entry : Nat) :
    permute value inWidth (table ++ [entry]) =
      (permute value inWidth table <<< 1) |||
    ((value >>> UInt64.ofNat (inWidth - entry)) &&& 1) := by
  unfold permute
  rw [List.foldl_append]
  rfl

/-- The last bit of a step is the bit that was taken, the others are moved up. -/
theorem testBit_shift_or (out value : UInt64) (shift j : Nat) (hj : j < 64) :
    ((out <<< 1) ||| ((value >>> UInt64.ofNat shift) &&& 1)).toNat.testBit j =
      if j = 0 then value.toNat.testBit (shift % 64) else out.toNat.testBit (j - 1) := by
  have hshift : (UInt64.ofNat shift).toNat % 64 = shift % 64 := by
    rw [UInt64.toNat_ofNat']
    omega
  rw [UInt64.toNat_or, UInt64.toNat_and, UInt64.toNat_shiftLeft, UInt64.toNat_shiftRight, hshift,
    Nat.testBit_or, Nat.testBit_and, Nat.testBit_mod_two_pow, Nat.testBit_shiftLeft,
    Nat.testBit_shiftRight]
  cases j with
  | zero => simp
  | succ j => simp [Nat.testBit_succ, hj]

/-- **The bits of a permutation.** -/
theorem testBit_permute (value : UInt64) (inWidth : Nat) (table : List Nat) {j : Nat} (hj : j < 64)
    (hlt : j < table.length) :
    (permute value inWidth table).toNat.testBit j =
      value.toNat.testBit ((inWidth - table.getD (table.length - 1 - j) 0) % 64) := by
  induction table using List.reverseRecOn generalizing j with
  | nil => cases hlt
  | append_singleton table entry ih =>
    rw [permute_append_singleton, testBit_shift_or _ _ _ _ hj, List.length_append,
      List.length_singleton]
    rw [List.length_append, List.length_singleton] at hlt
    cases j with
    | zero => simp
    | succ j =>
      have hindex : table.length + 1 - 1 - (j + 1) = table.length - 1 - j := by omega
      rw [if_neg (Nat.succ_ne_zero j), Nat.add_sub_cancel, ih (by omega) (by omega), hindex,
        List.getD_append _ _ _ _ (by omega)]

/-- The second table takes each bit back to its place. -/
def Inverse (table back : List Nat) : Prop :=
  ∀ j < 64, (64 - table.getD (63 - (64 - back.getD (63 - j) 0) % 64) 0) % 64 = j

theorem inverse_ip_fp : Inverse ipTable fpTable := by
  unfold Inverse
  decide

theorem inverse_fp_ip : Inverse fpTable ipTable := by
  unfold Inverse
  decide

/-- **A permutation and its inverse.** -/
theorem permute_permute {table back : List Nat} (htable : table.length = 64)
    (hback : back.length = 64)
    (h : Inverse table back) (value : UInt64) : permute (permute value 64 table) 64 back =
      value := by
  rw [← UInt64.toNat_inj]
  refine Nat.eq_of_testBit_eq fun j => ?_
  by_cases hj : j < 64
  · rw [testBit_permute _ _ _ hj (by omega), testBit_permute _ _ _ (Nat.mod_lt _ (by decide))
      (by omega), htable, hback, h j hj]
  · have hle : 2 ^ 64 ≤ 2 ^ j := Nat.pow_le_pow_right (by decide) (Nat.le_of_not_lt hj)
    rw [Nat.testBit_lt_two_pow (Nat.lt_of_lt_of_le (UInt64.toNat_lt _) hle),
      Nat.testBit_lt_two_pow (Nat.lt_of_lt_of_le (UInt64.toNat_lt _) hle)]

/-! ## The halves -/

theorem toNat_joinHalves (high low : UInt32) :
    (joinHalves high low).toNat = high.toNat * 2 ^ 32 + low.toNat := by
  have hhigh := high.toNat_lt
  have hlow := low.toNat_lt
  have hfits : high.toNat <<< 32 < 2 ^ 64 := by
    rw [Nat.shiftLeft_eq]
    omega
  unfold joinHalves
  rw [UInt64.toNat_or, UInt64.toNat_shiftLeft, UInt32.toNat_toUInt64, UInt32.toNat_toUInt64]
  show (high.toNat <<< 32) % 2 ^ 64 ||| low.toNat = _
  rw [Nat.mod_eq_of_lt hfits, ← Nat.shiftLeft_add_eq_or_of_lt hlow, Nat.shiftLeft_eq]

theorem splitHalves_joinHalves (high low : UInt32) :
    splitHalves (joinHalves high low) = (high, low) := by
  have hhigh := high.toNat_lt
  have hlow := low.toNat_lt
  have hjoin := toNat_joinHalves high low
  refine Prod.ext (UInt32.toNat_inj.mp ?_) (UInt32.toNat_inj.mp ?_)
  · show (joinHalves high low >>> 32).toUInt32.toNat = high.toNat
    rw [UInt64.toNat_toUInt32, UInt64.toNat_shiftRight, hjoin]
    show ((_ >>> 32) % 2 ^ 32) = _
    rw [Nat.shiftRight_eq_div_pow]
    omega
  · show (joinHalves high low).toUInt32.toNat = low.toNat
    rw [UInt64.toNat_toUInt32, hjoin]
    omega

theorem joinHalves_splitHalves (value : UInt64) :
    joinHalves (splitHalves value).1 (splitHalves value).2 = value := by
  have hlt := value.toNat_lt
  rw [← UInt64.toNat_inj, toNat_joinHalves]
  show (value >>> 32).toUInt32.toNat * 2 ^ 32 + value.toUInt32.toNat = _
  rw [UInt64.toNat_toUInt32, UInt64.toNat_toUInt32, UInt64.toNat_shiftRight]
  show ((value.toNat >>> 32) % 2 ^ 32) * 2 ^ 32 + _ = _
  rw [Nat.shiftRight_eq_div_pow]
  omega

/-! ## The bytes of a block -/

/-- At most eight bytes are loaded as their number. -/
theorem toNat_loadBeU64 {data : Bytes} (h : data.length ≤ 8) :
    (loadBeU64 data).toNat = ofBe data := by
  induction data using List.reverseRecOn with
  | nil => rfl
  | append_singleton data b ih =>
    rw [List.length_append, List.length_singleton] at h
    have hprevious := ih (by omega)
    have hsmall : ofBe data < 256 ^ 7 := by
      have hlt := ofLe_lt data.reverse
      rw [List.length_reverse] at hlt
      exact Nat.lt_of_lt_of_le hlt (Nat.pow_le_pow_right (by decide) (by omega))
    have hb : b.toNat < 2 ^ 8 := b.toNat_lt
    have hfits : ofBe data <<< 8 < 2 ^ 64 := by
      rw [Nat.shiftLeft_eq]
      omega
    have hload : loadBeU64 (data ++ [b]) = (loadBeU64 data <<< 8) ||| b.toUInt64 := by
      unfold loadBeU64
      rw [List.foldl_append]
      rfl
    rw [hload, UInt64.toNat_or, UInt64.toNat_shiftLeft, hprevious, UInt8.toNat_toUInt64,
      ofBe_append_singleton]
    show (ofBe data <<< 8) % 2 ^ 64 ||| b.toNat = _
    rw [Nat.mod_eq_of_lt hfits, ← Nat.shiftLeft_add_eq_or_of_lt hb, Nat.shiftLeft_eq]
    omega

/-- A number is stored as its big-endian bytes. -/
theorem storeBeU64_eq (value : UInt64) : storeBeU64 value = toBe 8 value.toNat := by
  have hbyte (shift : Nat) (h : shift < 64) :
      (value >>> UInt64.ofNat shift).toUInt8 = UInt8.ofNat (value.toNat / 2 ^ shift) := by
    have hshift : (UInt64.ofNat shift).toNat % 64 = shift := by
      rw [UInt64.toNat_ofNat']
      omega
    rw [← UInt8.toNat_inj, UInt64.toNat_toUInt8, UInt64.toNat_shiftRight, hshift,
      UInt8.toNat_ofNat', Nat.shiftRight_eq_div_pow]
  have hrange : List.range 8 = [0, 1, 2, 3, 4, 5, 6, 7] := rfl
  unfold storeBeU64
  rw [hrange]
  simp only [List.map_cons, List.map_nil, toBe_succ, toBe_zero, List.nil_append, List.cons_append,
    Nat.div_div_eq_div_mul]
  rw [hbyte _ (by decide), hbyte _ (by decide), hbyte _ (by decide), hbyte _ (by decide),
    hbyte _ (by decide), hbyte _ (by decide), hbyte _ (by decide), hbyte _ (by decide)]
  norm_num

@[simp] theorem length_storeBeU64 (value : UInt64) : (storeBeU64 value).length = 8 := by
  rw [storeBeU64_eq, length_toBe]

theorem loadBeU64_storeBeU64 (value : UInt64) : loadBeU64 (storeBeU64 value) = value := by
  rw [← UInt64.toNat_inj, toNat_loadBeU64 (Nat.le_of_eq (length_storeBeU64 value)), storeBeU64_eq,
    ofBe_toBe]
  exact Nat.mod_eq_of_lt value.toNat_lt

theorem storeBeU64_loadBeU64 {block : Bytes} (h : block.length = 8) :
    storeBeU64 (loadBeU64 block) = block := by
  rw [storeBeU64_eq, toNat_loadBeU64 (Nat.le_of_eq h), toBe_ofBe h]

/-! ## The keys in the other order -/

/-- Two schedules in step with each other: the keys of the one stand in the other order in the
other. -/
structure Mirrored (s s' : Schedule) : Prop where
  c : s'.c = s.c
  d : s'.d = s.d
  subkeys : ∀ i (h : i < 16), s'.subkeys[15 - i] = s.subkeys[i]

theorem Mirrored.round {s s' : Schedule} (h : Mirrored s s') (round : Fin 16) :
    Mirrored (scheduleRound false s round) (scheduleRound true s' round) := by
  obtain ⟨hc, hd, hsubkeys⟩ := h
  refine ⟨?_, ?_, fun i hi => ?_⟩
  · show rotate28 s'.c _ = rotate28 s.c _
    rw [hc]
  · show rotate28 s'.d _ = rotate28 s.d _
    rw [hd]
  · have hround := round.isLt
    unfold scheduleRound
    simp only [hc, hd, if_true, Bool.false_eq_true, if_false]
    rw [Vector.getElem_set, Vector.getElem_set]
    by_cases hsame : round.val = i
    · rw [if_pos hsame, if_pos (by omega)]
    · rw [if_neg hsame, if_neg (by omega)]
      exact hsubkeys i hi

theorem Mirrored.rounds {s s' : Schedule} (h : Mirrored s s') (rounds : List (Fin 16)) :
    Mirrored (rounds.foldl (scheduleRound false) s) (rounds.foldl (scheduleRound true) s') := by
  induction rounds generalizing s s' with
  | nil => exact h
  | cons round rounds ih => exact ih (h.round round)

/-- **The keys for decryption** are those for encryption in the other order. -/
theorem deriveSubkeys_reverse (key : UInt64) :
    (deriveSubkeys key true).toList = (deriveSubkeys key false).toList.reverse := by
  have hstart : Mirrored (scheduleStart key) (scheduleStart key) := by
    refine ⟨rfl, rfl, fun i hi => ?_⟩
    unfold scheduleStart
    rw [Vector.getElem_replicate, Vector.getElem_replicate]
  have hmirrored := (hstart.rounds (List.finRange 16)).subkeys
  refine List.ext_getElem (by simp) fun i hi hi' => ?_
  rw [Vector.length_toList] at hi
  rw [List.getElem_reverse, Vector.getElem_toList, Vector.getElem_toList]
  have hkey := hmirrored (15 - i) (by omega)
  simp only [Vector.length_toList]
  have hback : 15 - (15 - i) = i := by omega
  simp only [hback] at hkey
  exact hkey

/-! ## One block -/

/-- **The rounds with the keys in the other order undo a block.** -/
theorem desCryptBlock_desCryptBlock {subkeys subkeys' : Vector UInt64 16}
    (h : subkeys'.toList = subkeys.toList.reverse) (block : UInt64) :
    desCryptBlock (desCryptBlock block subkeys) subkeys' = block := by
  have hxor (a b : UInt32) : a ^^^ b ^^^ b = a := by
    rw [UInt32.xor_assoc, UInt32.xor_self, UInt32.xor_zero]
  have hswap (halves : UInt32 × UInt32) : halves.swap = (halves.2, halves.1) := rfl
  have hrounds := feistelRounds_reverse feistel hxor (splitHalves (permute block 64 ipTable))
    subkeys.toList
  unfold desCryptBlock
  dsimp only
  rw [permute_permute rfl rfl inverse_fp_ip, splitHalves_joinHalves, h]
  rw [hswap] at hrounds
  rw [hrounds]
  show permute (joinHalves (splitHalves _).1 (splitHalves _).2) 64 fpTable = block
  rw [joinHalves_splitHalves, permute_permute rfl rfl inverse_ip_fp]

@[simp] theorem length_cryptBytes (subkeys : Vector UInt64 16) (block : Bytes) :
    (cryptBytes subkeys block).length = 8 := length_storeBeU64 _

/-- A block of bytes. -/
theorem cryptBytes_cryptBytes (key : UInt64) {block : Bytes} (h : block.length = 8) :
    cryptBytes (deriveSubkeys key true) (cryptBytes (deriveSubkeys key false) block) = block := by
  unfold cryptBytes
  rw [loadBeU64_storeBeU64, desCryptBlock_desCryptBlock (deriveSubkeys_reverse key),
    storeBeU64_loadBeU64 h]

/-! ## The modes -/

theorem undoes_ecb (key : UInt64) :
    Undoes 8 (fun _ => True) (ecbBlock (deriveSubkeys key false))
      (ecbBlock (deriveSubkeys key true)) where
  length := fun _ block _ _ => length_cryptBytes _ block
  invariant := fun _ _ _ _ => trivial
  undo := fun _ _ _ hblock => Prod.ext rfl (cryptBytes_cryptBytes key hblock)

theorem length_xorBytes {a b : Bytes} (ha : a.length = 8) (hb : b.length = 8) :
    (xorBytes a b).length = 8 := by
  rw [xorBytes, List.length_zipWith, ha, hb, Nat.min_self]

/-- **The chain backwards.** Both loops keep the last block of the ciphertext. -/
theorem undoes_cbc (key : UInt64) :
    Undoes 8 (fun feedback => feedback.length = 8) (cbcEncryptBlock (deriveSubkeys key false))
      (cbcDecryptBlock (deriveSubkeys key true)) where
  length := fun _ block _ _ => length_cryptBytes _ _
  invariant := fun _ block _ _ => length_cryptBytes _ _
  undo := fun feedback block hfeedback hblock => by
    unfold cbcEncryptBlock cbcDecryptBlock
    dsimp only
    rw [cryptBytes_cryptBytes key (length_xorBytes hblock hfeedback)]
    refine Prod.ext rfl ?_
    exact zipWith_zipWith_of_undo xor_cancel_right block feedback (by omega)

theorem desEcbCrypt_eq {key input : Bytes} (hkey : key.length = 8) (h : input.length % 8 = 0)
    (reverse : Bool) :
    desEcbCrypt key input reverse =
      .ok (blockwise 8 (ecbBlock (deriveSubkeys (loadBeU64 key) reverse)) () input) :=
  if_neg fun hinvalid => hinvalid.elim (· hkey) (· h)

theorem desCbcCrypt_eq {key iv input : Bytes} (hkey : key.length = 8) (hiv : iv.length = 8)
    (h : input.length % 8 = 0) (encrypt : Bool) :
    desCbcCrypt key iv input encrypt =
      .ok (blockwise 8 (if encrypt then cbcEncryptBlock (deriveSubkeys (loadBeU64 key) (!encrypt))
        else cbcDecryptBlock (deriveSubkeys (loadBeU64 key) (!encrypt))) iv input) :=
  if_neg fun hinvalid => hinvalid.elim (· hkey) fun hinvalid => hinvalid.elim (· hiv) (· h)

theorem desEcbDecrypt_desEcbEncrypt {key p : Bytes} (hkey : key.length = 8)
    (hp : p.length % 8 = 0) :
    ∃ c, desEcbEncrypt key p = .ok c ∧ desEcbDecrypt key c = .ok p := by
  have hundoes := undoes_ecb (loadBeU64 key)
  refine ⟨_, desEcbCrypt_eq hkey hp false, ?_⟩
  rw [desEcbDecrypt, desEcbCrypt_eq hkey (length_blockwise hundoes trivial hp),
    blockwise_blockwise (by decide) hundoes trivial hp]

theorem desCbcDecrypt_desCbcEncrypt {key iv p : Bytes} (hkey : key.length = 8) (hiv : iv.length = 8)
    (hp : p.length % 8 = 0) :
    ∃ c, desCbcEncrypt key iv p = .ok c ∧ desCbcDecrypt key iv c = .ok p := by
  have hundoes := undoes_cbc (loadBeU64 key)
  refine ⟨blockwise 8 (cbcEncryptBlock (deriveSubkeys (loadBeU64 key) false)) iv p,
    desCbcCrypt_eq hkey hiv hp true, ?_⟩
  rw [desCbcDecrypt, desCbcCrypt_eq hkey hiv (length_blockwise hundoes hiv hp)]
  exact congrArg Except.ok (blockwise_blockwise (by decide) hundoes hiv hp)

/-! ## The padding -/

/-- **What the padding accepts**: whole blocks that end with `n` bytes `n`, for an `n` up to eight.
-/
theorem pkcs5Unpad_eq_ok {padded p : Bytes} :
    pkcs5Unpad padded = .ok p ↔
      padded.length % 8 = 0 ∧ ∃ n, 0 < n ∧ n ≤ 8 ∧
        padded = p ++ List.replicate n (UInt8.ofNat n) := by
  constructor
  · intro h
    unfold pkcs5Unpad at h
    dsimp only at h
    split_ifs at h with hwhole hlen hpad
    have hlast : (padded.getLastD 0).toNat ≤ 8 := by
      have hle := UInt8.not_lt.mp fun hlt => hlen (.inr hlt)
      exact UInt8.le_iff_toNat_le.mp hle
    have hpos : 0 < (padded.getLastD 0).toNat := by
      refine Nat.pos_of_ne_zero fun hzero => hlen (.inl ?_)
      exact UInt8.toNat_inj.mp hzero
    have hsize : padded.length % 8 = 0 := by_contra fun hne => hwhole (.inr hne)
    have hle : 8 ≤ padded.length := by
      by_contra hlt
      exact hwhole (.inl (by omega))
    refine ⟨hsize, (padded.getLastD 0).toNat, hpos, hlast, ?_⟩
    have hall : padded.drop (padded.length - (padded.getLastD 0).toNat) =
        List.replicate (padded.getLastD 0).toNat (padded.getLastD 0) := by
      refine List.eq_replicate_iff.mpr ⟨?_, fun b hmem => ?_⟩
      · rw [List.length_drop]
        omega
      · by_contra hne
        exact hpad (List.any_eq_true.mpr ⟨b, hmem, by simpa using hne⟩)
    have hp := Except.ok.inj h
    rw [UInt8.ofNat_toNat, ← hall, ← hp, List.take_append_drop]
  · rintro ⟨hsize, n, hpos, hle, rfl⟩
    have htoNat : (UInt8.ofNat n).toNat = n := by
      rw [UInt8.toNat_ofNat']
      omega
    have hlast : (p ++ List.replicate n (UInt8.ofNat n)).getLastD 0 = UInt8.ofNat n := by
      obtain ⟨m, rfl⟩ := Nat.exists_eq_add_of_lt hpos
      rw [Nat.zero_add, List.replicate_succ', ← List.append_assoc, List.getLastD_concat]
    have hlength : (p ++ List.replicate n (UInt8.ofNat n)).length = p.length + n := by
      rw [List.length_append, List.length_replicate]
    have hrest : p.length + n - n = p.length := Nat.add_sub_cancel _ _
    unfold pkcs5Unpad
    dsimp only
    rw [hlast, htoNat, if_neg, if_neg, hlength, hrest, List.drop_left, if_neg, List.take_left]
    · rw [List.any_replicate]
      simp
    · rintro (hzero | hbig)
      · rw [hzero] at htoNat
        exact absurd htoNat (Nat.ne_of_lt hpos)
      · have hlt := UInt8.lt_iff_toNat_lt.mp hbig
        rw [htoNat] at hlt
        exact absurd hlt (Nat.not_lt.mpr hle)
    · rintro (hzero | hpart)
      · omega
      · exact hpart hsize

theorem pkcs5Unpad_pkcs5Pad (p : Bytes) : ∃ q, pkcs5Pad p = .ok q ∧ pkcs5Unpad q = .ok p := by
  refine ⟨_, rfl, pkcs5Unpad_eq_ok.mpr ⟨?_, _, ?_, ?_, rfl⟩⟩
  · rw [List.length_append, List.length_replicate]
    omega
  · omega
  · omega

theorem pkcs5Pad_of_pkcs5Unpad {q p : Bytes} (h : pkcs5Unpad q = .ok p) : pkcs5Pad p = .ok q := by
  obtain ⟨hsize, n, hpos, hle, rfl⟩ := pkcs5Unpad_eq_ok.mp h
  rw [List.length_append, List.length_replicate] at hsize
  have hn : 8 - p.length % 8 = n := by omega
  unfold pkcs5Pad
  dsimp only
  rw [hn]

theorem desDecryptBlock_desEncryptBlock {key b : Bytes} (hkey : key.length = 8)
    (hb : b.length = 8) :
    ∃ c, desEncryptBlock key b = .ok c ∧ desDecryptBlock key c = .ok b := by
  refine ⟨cryptBytes (deriveSubkeys (loadBeU64 key) false) b,
    if_neg fun hinvalid => hinvalid.elim (· hkey) (· hb), ?_⟩
  rw [desDecryptBlock, desBlock, if_neg (by simp [hkey]), cryptBytes_cryptBytes _ hb]

/-- **The modes of DES invert**, for every key of eight bytes; and the padding is a bijection with
what it accepts. -/
theorem des_modes_invert (key : Bytes) (hkey : key.length = 8) :
    (∀ b, b.length = 8 → ∃ c, desEncryptBlock key b = .ok c ∧ desDecryptBlock key c = .ok b) ∧
    (∀ p, p.length % 8 = 0 → ∃ c, desEcbEncrypt key p = .ok c ∧ desEcbDecrypt key c = .ok p) ∧
    (∀ iv p, iv.length = 8 → p.length % 8 = 0 →
      ∃ c, desCbcEncrypt key iv p = .ok c ∧ desCbcDecrypt key iv c = .ok p) ∧
    (∀ p, ∃ q, pkcs5Pad p = .ok q ∧ pkcs5Unpad q = .ok p) ∧
    (∀ q p, pkcs5Unpad q = .ok p → pkcs5Pad p = .ok q) := by
  refine ⟨?_, ?_, ?_, pkcs5Unpad_pkcs5Pad, ?_⟩
  · exact fun b hb => desDecryptBlock_desEncryptBlock hkey hb
  · exact fun p hp => desEcbDecrypt_desEcbEncrypt hkey hp
  · exact fun iv p hiv hp => desCbcDecrypt_desCbcEncrypt hkey hiv hp
  · exact fun q p h => pkcs5Pad_of_pkcs5Unpad h

/-- A weak key, three blocks in a chain and two padded bytes. -/
theorem des_modes_invert_weak :
    (∃ c, desEncryptBlock (List.replicate 8 1) (List.replicate 8 7) = .ok c ∧
      desDecryptBlock (List.replicate 8 1) c = .ok (List.replicate 8 7)) ∧
    (∃ c, desEcbEncrypt (List.replicate 8 1) (List.replicate 16 7) = .ok c ∧
      desEcbDecrypt (List.replicate 8 1) c = .ok (List.replicate 16 7)) ∧
    (∃ c, desCbcEncrypt (List.replicate 8 1) (List.replicate 8 2) (List.replicate 24 7) = .ok c ∧
      desCbcDecrypt (List.replicate 8 1) (List.replicate 8 2) c = .ok (List.replicate 24 7)) ∧
    pkcs5Pad [7, 7] = .ok [7, 7, 6, 6, 6, 6, 6, 6] :=
  have h := des_modes_invert (List.replicate 8 1) (by decide)
  ⟨h.1 (List.replicate 8 7) (by decide),
    h.2.1 (List.replicate 16 7) (by decide),
    h.2.2.1 (List.replicate 8 2) (List.replicate 24 7) (by decide) (by decide),
    h.2.2.2.2 [7, 7, 6, 6, 6, 6, 6, 6] [7, 7] (by decide)⟩

end Libca.Crypto.Des
