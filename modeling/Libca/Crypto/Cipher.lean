import Libca.Crypto.Aes

/-!
# The inverse cipher (`crypto/aes.cpp`)

* `invSbox_sbox`: the tables are inverse to each other.
* `invShiftRows_shiftRows`: the row shifts are.
* `invMixColumn_mixColumn`: the column matrices are; `xtime` is additive, so the product is the one
  of polynomials over GF(2).
* `decryptBlock_encryptBlock`: the inverse cipher undoes the cipher, with any round keys.
-/

namespace Libca.Crypto

open Common

/-! ## Bytes -/

theorem map_aesSbox : aesSbox.toList.map invSbox = (List.range 256).map UInt8.ofNat := by
  decide +kernel

theorem invSbox_sbox (b : UInt8) : invSbox (sbox b) = b := by
  have hb : b.toNat < 256 := b.toNat_lt
  have h : (aesSbox.toList.map invSbox)[b.toNat]? = some (invSbox (sbox b)) := by
    rw [List.getElem?_map, Vector.getElem?_toList, Vector.getElem?_eq_getElem hb]
    rfl
  rw [map_aesSbox, List.getElem?_map, List.getElem?_range hb] at h
  rw [← Option.some.inj h, UInt8.ofNat_toNat]

theorem xor_left_comm (a b c : UInt8) : a ^^^ (b ^^^ c) = b ^^^ (a ^^^ c) := by
  rw [← UInt8.xor_assoc, UInt8.xor_comm a b, UInt8.xor_assoc]

theorem xor_cancel_right (a b : UInt8) : a ^^^ b ^^^ b = a := by
  rw [UInt8.xor_assoc, UInt8.xor_self, UInt8.xor_zero]

/-- The bit that `xtime` shifts out. -/
theorem and_top (b : UInt8) : b &&& 0x80 = 0 ∨ b &&& 0x80 = 0x80 :=
  forall_byte (p := fun b => b &&& 0x80 = 0 ∨ b &&& 0x80 = 0x80) (by decide +kernel) b

theorem xor_and_top (a b : UInt8) : (a ^^^ b) &&& 0x80 = (a &&& 0x80) ^^^ (b &&& 0x80) := by
  rw [← UInt8.toBitVec_inj, UInt8.toBitVec_and, UInt8.toBitVec_xor, UInt8.toBitVec_xor,
    UInt8.toBitVec_and, UInt8.toBitVec_and]
  ext i hi
  simp only [BitVec.getElem_and, BitVec.getElem_xor, Bool.and_xor_distrib_right]

/-- **Multiplication by `2` is additive.** -/
theorem xtime_xor (a b : UInt8) : xtime (a ^^^ b) = xtime a ^^^ xtime b := by
  unfold xtime
  rw [xor_and_top, UInt8.shiftLeft_xor]
  rcases and_top a with ha | ha <;> rcases and_top b with hb | hb <;> rw [ha, hb] <;>
    simp [UInt8.xor_assoc, UInt8.xor_comm, xor_left_comm]

/-! ## The matrices of the columns -/

theorem gmulLoop_done {a b result : UInt8} (h : b = 0) : gmulLoop a b result = result := by
  rw [gmulLoop, if_pos h]

theorem gmulLoop_odd {a b result : UInt8} (h : b &&& 1 ≠ 0) :
    gmulLoop a b result = gmulLoop (xtime a) (b >>> 1) (result ^^^ a) := by
  have hb : b ≠ 0 := by
    rintro rfl
    exact h rfl
  rw [gmulLoop, if_neg hb, if_pos h]

theorem gmulLoop_even {a b result : UInt8} (hb : b ≠ 0) (h : b &&& 1 = 0) :
    gmulLoop a b result = gmulLoop (xtime a) (b >>> 1) result := by
  rw [gmulLoop, if_neg hb, if_neg (not_not.mpr h)]

theorem gmul_two (a : UInt8) : gmul a 2 = xtime a := by
  simp (disch := decide) only [gmul, gmulLoop_odd, gmulLoop_even, gmulLoop_done, UInt8.zero_xor]

theorem gmul_three (a : UInt8) : gmul a 3 = a ^^^ xtime a := by
  simp (disch := decide) only [gmul, gmulLoop_odd, gmulLoop_done, UInt8.zero_xor]

theorem gmul_nine (a : UInt8) : gmul a 9 = a ^^^ xtime (xtime (xtime a)) := by
  simp (disch := decide) only [gmul, gmulLoop_odd, gmulLoop_even, gmulLoop_done, UInt8.zero_xor]

theorem gmul_eleven (a : UInt8) : gmul a 11 = a ^^^ xtime a ^^^ xtime (xtime (xtime a)) := by
  simp (disch := decide) only [gmul, gmulLoop_odd, gmulLoop_even, gmulLoop_done, UInt8.zero_xor]

theorem gmul_thirteen (a : UInt8) :
    gmul a 13 = a ^^^ xtime (xtime a) ^^^ xtime (xtime (xtime a)) := by
  simp (disch := decide) only [gmul, gmulLoop_odd, gmulLoop_even, gmulLoop_done, UInt8.zero_xor]

theorem gmul_fourteen (a : UInt8) :
    gmul a 14 = xtime a ^^^ xtime (xtime a) ^^^ xtime (xtime (xtime a)) := by
  simp (disch := decide) only [gmul, gmulLoop_odd, gmulLoop_even, gmulLoop_done, UInt8.zero_xor]

/-- The product with the first row of the inverse matrix is additive. -/
theorem row_xor (a b c d a' b' c' d' : UInt8) :
    gmul (a ^^^ a') 14 ^^^ gmul (b ^^^ b') 11 ^^^ gmul (c ^^^ c') 13 ^^^ gmul (d ^^^ d') 9 =
      (gmul a 14 ^^^ gmul b 11 ^^^ gmul c 13 ^^^ gmul d 9) ^^^
        (gmul a' 14 ^^^ gmul b' 11 ^^^ gmul c' 13 ^^^ gmul d' 9) := by
  simp only [gmul_nine, gmul_eleven, gmul_thirteen, gmul_fourteen, xtime_xor]
  ac_rfl

/-! The first row of the inverse matrix times each column of the matrix. -/

theorem row_first (a : UInt8) :
    gmul (gmul a 2) 14 ^^^ gmul a 11 ^^^ gmul a 13 ^^^ gmul (gmul a 3) 9 = a := by
  simp only [gmul_two, gmul_three, gmul_nine, gmul_eleven, gmul_thirteen, gmul_fourteen, xtime_xor]
  simp [UInt8.xor_comm, xor_left_comm, UInt8.xor_assoc]

theorem row_second (b : UInt8) :
    gmul (gmul b 3) 14 ^^^ gmul (gmul b 2) 11 ^^^ gmul b 13 ^^^ gmul b 9 = 0 := by
  simp only [gmul_two, gmul_three, gmul_nine, gmul_eleven, gmul_thirteen, gmul_fourteen, xtime_xor]
  simp [UInt8.xor_comm, xor_left_comm, UInt8.xor_assoc]

theorem row_third (c : UInt8) :
    gmul c 14 ^^^ gmul (gmul c 3) 11 ^^^ gmul (gmul c 2) 13 ^^^ gmul c 9 = 0 := by
  simp only [gmul_two, gmul_three, gmul_nine, gmul_eleven, gmul_thirteen, gmul_fourteen, xtime_xor]
  simp [UInt8.xor_comm, xor_left_comm, UInt8.xor_assoc]

theorem row_fourth (d : UInt8) :
    gmul d 14 ^^^ gmul d 11 ^^^ gmul (gmul d 3) 13 ^^^ gmul (gmul d 2) 9 = 0 := by
  simp only [gmul_two, gmul_three, gmul_nine, gmul_eleven, gmul_thirteen, gmul_fourteen, xtime_xor]
  simp [UInt8.xor_comm, xor_left_comm, UInt8.xor_assoc]

theorem invMixColumn_mixColumn_zero (a : Column) : (invMixColumn (mixColumn a)).get 0 =
    a.get 0 := by
  show gmul (gmul a[0] 2 ^^^ gmul a[1] 3 ^^^ a[2] ^^^ a[3]) 14 ^^^
      gmul (a[0] ^^^ gmul a[1] 2 ^^^ gmul a[2] 3 ^^^ a[3]) 11 ^^^
      gmul (a[0] ^^^ a[1] ^^^ gmul a[2] 2 ^^^ gmul a[3] 3) 13 ^^^
      gmul (gmul a[0] 3 ^^^ a[1] ^^^ a[2] ^^^ gmul a[3] 2) 9 = a[0]
  rw [row_xor, row_xor, row_xor, row_first, row_second, row_third, row_fourth, UInt8.xor_zero,
    UInt8.xor_zero, UInt8.xor_zero]

/-- Both matrices are circulant. -/
def rotate (a : Column) : Column := #v[a.get 1, a.get 2, a.get 3, a.get 0]

theorem rotate_get_zero (a : Column) : (rotate a).get 0 = a.get 1 := rfl

theorem rotate_get_one (a : Column) : (rotate a).get 1 = a.get 2 := rfl

theorem rotate_get_two (a : Column) : (rotate a).get 2 = a.get 3 := rfl

theorem mk_column {a b c d a' b' c' d' : UInt8} (ha : a = a') (hb : b = b') (hc : c = c')
    (hd : d = d') : #v[a, b, c, d] = #v[a', b', c', d'] := by
  rw [ha, hb, hc, hd]

theorem mixColumn_rotate (a : Column) : mixColumn (rotate a) = rotate (mixColumn a) := by
  refine mk_column ?_ ?_ ?_ ?_
  · show gmul a[1] 2 ^^^ gmul a[2] 3 ^^^ a[3] ^^^ a[0] =
      a[0] ^^^ gmul a[1] 2 ^^^ gmul a[2] 3 ^^^ a[3]
    ac_rfl
  · show a[1] ^^^ gmul a[2] 2 ^^^ gmul a[3] 3 ^^^ a[0] =
      a[0] ^^^ a[1] ^^^ gmul a[2] 2 ^^^ gmul a[3] 3
    ac_rfl
  · show a[1] ^^^ a[2] ^^^ gmul a[3] 2 ^^^ gmul a[0] 3 =
      gmul a[0] 3 ^^^ a[1] ^^^ a[2] ^^^ gmul a[3] 2
    ac_rfl
  · show gmul a[1] 3 ^^^ a[2] ^^^ a[3] ^^^ gmul a[0] 2 =
      gmul a[0] 2 ^^^ gmul a[1] 3 ^^^ a[2] ^^^ a[3]
    ac_rfl

theorem invMixColumn_rotate (a : Column) : invMixColumn (rotate a) = rotate (invMixColumn a) := by
  refine mk_column ?_ ?_ ?_ ?_
  · show gmul a[1] 14 ^^^ gmul a[2] 11 ^^^ gmul a[3] 13 ^^^ gmul a[0] 9 =
      gmul a[0] 9 ^^^ gmul a[1] 14 ^^^ gmul a[2] 11 ^^^ gmul a[3] 13
    ac_rfl
  · show gmul a[1] 9 ^^^ gmul a[2] 14 ^^^ gmul a[3] 11 ^^^ gmul a[0] 13 =
      gmul a[0] 13 ^^^ gmul a[1] 9 ^^^ gmul a[2] 14 ^^^ gmul a[3] 11
    ac_rfl
  · show gmul a[1] 13 ^^^ gmul a[2] 9 ^^^ gmul a[3] 14 ^^^ gmul a[0] 11 =
      gmul a[0] 11 ^^^ gmul a[1] 13 ^^^ gmul a[2] 9 ^^^ gmul a[3] 14
    ac_rfl
  · show gmul a[1] 11 ^^^ gmul a[2] 13 ^^^ gmul a[3] 9 ^^^ gmul a[0] 14 =
      gmul a[0] 14 ^^^ gmul a[1] 11 ^^^ gmul a[2] 13 ^^^ gmul a[3] 9
    ac_rfl

theorem column_eta (a : Column) : #v[a.get 0, a.get 1, a.get 2, a.get 3] = a := by
  rcases a with ⟨⟨l⟩, h⟩
  match l, h with
  | [a, b, c, d], _ => rfl

/-- **The matrices are inverse to each other.** -/
theorem invMixColumn_mixColumn (a : Column) : invMixColumn (mixColumn a) = a := by
  have hrotate (a : Column) :
      invMixColumn (mixColumn (rotate a)) = rotate (invMixColumn (mixColumn a)) := by
    rw [mixColumn_rotate, invMixColumn_rotate]
  have hone (a : Column) : (invMixColumn (mixColumn a)).get 1 = a.get 1 := by
    have h := invMixColumn_mixColumn_zero (rotate a)
    rwa [hrotate, rotate_get_zero, rotate_get_zero] at h
  have htwo (a : Column) : (invMixColumn (mixColumn a)).get 2 = a.get 2 := by
    have h := hone (rotate a)
    rwa [hrotate, rotate_get_one, rotate_get_one] at h
  have hthree (a : Column) : (invMixColumn (mixColumn a)).get 3 = a.get 3 := by
    have h := htwo (rotate a)
    rwa [hrotate, rotate_get_two, rotate_get_two] at h
  rw [← column_eta (invMixColumn (mixColumn a)), invMixColumn_mixColumn_zero, hone, htwo, hthree,
    column_eta]

theorem column_onColumns (f : Column → Column) (state : Block) (c : Fin 4) :
    column (onColumns f state) c = f (column state c) := by
  ext r hr
  have hdiv : (4 * c.val + r) / 4 = c.val := by omega
  have hmod : (4 * c.val + r) % 4 = r := by omega
  simp only [column, onColumns, Vector.getElem_ofFn, hdiv, hmod]

theorem onColumns_column (state : Block) : onColumns (fun a => a) state = state := by
  ext i hi
  have hi' : 4 * (i / 4) + i % 4 = i := Nat.div_add_mod i 4
  simp [column, onColumns, hi']

theorem onColumns_onColumns (f g : Column → Column) (state : Block) :
    onColumns f (onColumns g state) = onColumns (fun a => f (g a)) state := by
  unfold onColumns
  congr 1
  funext i
  exact congrArg (fun a => (f a)[i.val % 4]) (column_onColumns g state _)

theorem invMixColumns_mixColumns (state : Block) : invMixColumns (mixColumns state) = state := by
  unfold invMixColumns mixColumns
  rw [onColumns_onColumns, funext invMixColumn_mixColumn, onColumns_column]

/-! ## The other steps of a round -/

theorem invSubBytes_subBytes (state : Block) : invSubBytes (subBytes state) = state := by
  ext i hi
  simp [invSubBytes, subBytes, invSbox_sbox]

theorem invShiftRows_shiftRows (state : Block) : invShiftRows (shiftRows state) = state := by
  rcases state with ⟨⟨l⟩, h⟩
  match l, h with
  | [_, _, _, _, _, _, _, _, _, _, _, _, _, _, _, _], _ => simp [invShiftRows, shiftRows]

theorem addRoundKey_addRoundKey {nr round : Nat} (roundKeys : RoundKeys nr) (h : round ≤ nr)
    (state : Block) :
    addRoundKey roundKeys round h (addRoundKey roundKeys round h state) = state := by
  ext i hi
  simp only [addRoundKey, Fin.getElem_fin, Vector.getElem_ofFn, xor_cancel_right]

/-! ## The cipher -/

variable {nr : Nat} (roundKeys : RoundKeys nr)

/-- **The inner rounds backwards.** They meet the rounds between the row shift and the columns. -/
theorem decryptRounds_encryptRounds {round : Nat} (h : round ≤ nr) (state : Block) :
    decryptRounds roundKeys round h (shiftRows (subBytes (encryptRounds roundKeys round h state))) =
      shiftRows (subBytes state) := by
  induction round with
  | zero => rfl
  | succ round ih =>
    rw [decryptRounds, invShiftRows_shiftRows, invSubBytes_subBytes, encryptRounds,
      addRoundKey_addRoundKey, invMixColumns_mixColumns]
    exact ih (Nat.le_of_succ_le h)

/-- **The inverse cipher undoes the cipher.** -/
theorem decryptBlock_encryptBlock (input : Block) :
    decryptBlock roundKeys (encryptBlock roundKeys input) = input := by
  unfold decryptBlock encryptBlock
  simp only [addRoundKey_addRoundKey, decryptRounds_encryptRounds, invShiftRows_shiftRows,
    invSubBytes_subBytes]

end Libca.Crypto
