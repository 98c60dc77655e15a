import Libca.Common.Keystream
import Libca.Crypto.Cipher

/-!
# The modes of AES (`crypto/aes.cpp`)

* `ofBlocks_toBlocks`, `toBlocks_ofBlocks`: a byte string of whole blocks and its blocks.
* `cbcDecrypt_cbcEncrypt`: decryption with the chained blocks undoes the encryption.
* `toList_incrementCounter`: the counter is a big-endian number modulo `2 ^ 128`;
  `incrementCounter_counterOf`.
* `ctrLoop_ctrLoop`, `ctrLoop_append`: the keystream is added twice, and goes on with the counter.
* `aes_modes_invert`: what the functions of the interface do with the builtin backend.
-/

namespace Libca.Crypto

open Common

variable {nr : Nat} (roundKeys : RoundKeys nr)

/-! ## Byte strings of blocks -/

theorem firstBlock_toList (data : Bytes) (h : 16 ≤ data.length) :
    (firstBlock data h).toList = data.take 16 := by
  refine List.ext_getElem ?_ fun i h₁ h₂ => ?_
  · rw [Vector.length_toList, List.length_take, Nat.min_eq_left h]
  · rw [Vector.getElem_toList, List.getElem_take]
    exact Vector.getElem_ofFn _

theorem firstBlock_append (block : Block) (data : Bytes)
    (h : 16 ≤ (block.toList ++ data).length) : firstBlock (block.toList ++ data) h = block := by
  rw [← Vector.toList_inj, firstBlock_toList, List.take_left' Vector.length_toList]

/-- **A byte string of whole blocks is its blocks.** -/
theorem ofBlocks_toBlocks (data : Bytes) (h : blockLenValid data.length = true) :
    ofBlocks (toBlocks data) = data := by
  fun_induction toBlocks data with
  | case1 data hlen ih =>
    have hvalid : blockLenValid (data.drop 16).length = true := by
      rw [blockLenValid, beq_iff_eq] at h ⊢
      rw [List.length_drop]
      omega
    have hrest := ih hvalid
    unfold ofBlocks at hrest ⊢
    rw [List.flatMap_cons, firstBlock_toList, hrest, List.take_append_drop]
  | case2 data hlen =>
    rw [blockLenValid, beq_iff_eq] at h
    have hnil : data = [] := List.length_eq_zero_iff.mp (by omega)
    rw [hnil]
    rfl

theorem toBlocks_ofBlocks (blocks : List Block) : toBlocks (ofBlocks blocks) = blocks := by
  induction blocks with
  | nil =>
    rw [toBlocks, dif_neg (by decide)]
  | cons block blocks ih =>
    have hcons : ofBlocks (block :: blocks) = block.toList ++ ofBlocks blocks := List.flatMap_cons
    have hlen : 16 ≤ (block.toList ++ ofBlocks blocks).length := by
      rw [List.length_append, Vector.length_toList]
      exact Nat.le_add_right _ _
    rw [hcons, toBlocks, dif_pos hlen, firstBlock_append,
      List.drop_left' Vector.length_toList, ih]

theorem blockLenValid_ofBlocks (blocks : List Block) :
    blockLenValid (ofBlocks blocks).length = true := by
  have hlen : (ofBlocks blocks).length = 16 * blocks.length := by
    induction blocks with
    | nil => rfl
    | cons block blocks ih =>
      have hcons : ofBlocks (block :: blocks) = block.toList ++ ofBlocks blocks := List.flatMap_cons
      rw [hcons, List.length_append, Vector.length_toList, ih, List.length_cons]
      omega
  rw [blockLenValid, hlen, beq_iff_eq]
  exact Nat.mul_mod_right 16 _

/-! ## Chained blocks -/

theorem xorBlock_xorBlock (a b : Block) : xorBlock (xorBlock a b) b = a := by
  ext i hi
  simp only [xorBlock, Vector.getElem_zipWith, xor_cancel_right]

/-- **Decryption gives the chain back.** -/
theorem cbcDecrypt_cbcEncrypt (feedback : Block) (blocks : List Block) :
    cbcDecrypt roundKeys feedback (cbcEncrypt roundKeys feedback blocks) = blocks := by
  induction blocks generalizing feedback with
  | nil => rfl
  | cons block blocks ih =>
    unfold cbcEncrypt cbcDecrypt
    rw [decryptBlock_encryptBlock, xorBlock_xorBlock, ih]

/-! ## Whole inputs -/

variable {input : Bytes}

theorem builtinEcb_builtinEcb (key : AesKey) (h : blockLenValid input.length = true) :
    builtinEcb key (builtinEcb key input true) false = input := by
  have hinverse (blocks : List Block) :
      (blocks.map (encryptBlock (keyExpansion key))).map (decryptBlock (keyExpansion key)) =
        blocks := by
    rw [List.map_map]
    exact List.map_id'' (decryptBlock_encryptBlock (keyExpansion key)) blocks
  show ofBlocks ((toBlocks (ofBlocks ((toBlocks input).map (encryptBlock (keyExpansion key))))).map
    (decryptBlock (keyExpansion key))) = input
  rw [toBlocks_ofBlocks, hinverse, ofBlocks_toBlocks input h]

theorem builtinCbc_builtinCbc (key : AesKey) (iv : Block) (h : blockLenValid input.length = true) :
    builtinCbc key iv (builtinCbc key iv input true) false = input := by
  show ofBlocks (cbcDecrypt (keyExpansion key) iv
    (toBlocks (ofBlocks (cbcEncrypt (keyExpansion key) iv (toBlocks input))))) = input
  rw [toBlocks_ofBlocks, cbcDecrypt_cbcEncrypt, ofBlocks_toBlocks input h]

/-! ## The counter -/

theorem toList_set (counter : Block) {i : Nat} (h : i < 16) (b : UInt8) :
    (counter.set i b).toList = counter.toList.take i ++ b :: counter.toList.drop (i + 1) := by
  rw [Vector.toList_set, List.set_eq_take_append_cons_drop, if_pos (by rwa [Vector.length_toList])]

/-- **The carry runs through the bytes below the index.** By induction on the index: the byte in
front of it is either the last one that changes, or it wraps around and is a zero. -/
theorem toList_incrementBelow {i : Nat} (h : i ≤ 16) (counter : Block) :
    (incrementBelow i h counter).toList =
      toBe i (ofBe (counter.toList.take i) + 1) ++ counter.toList.drop i := by
  induction i generalizing counter with
  | zero => rfl
  | succ i ih =>
    have hi : i < counter.toList.length := by
      rw [Vector.length_toList]
      exact h
    have htake : counter.toList.take (i + 1) = counter.toList.take i ++ [counter[i]] := by
      rw [List.take_succ_eq_append_getElem hi, Vector.getElem_toList]
    have hlength : (counter.toList.take i).length = i := by
      rw [List.length_take, Nat.min_eq_left hi.le]
    have hset := toList_set counter h (counter[i] + 1)
    have hbyte : counter[i].toNat < 256 := counter[i].toNat_lt
    have hlast : UInt8.ofNat (counter[i].toNat + 256 * ofBe (counter.toList.take i) + 1) =
        counter[i] + 1 := by
      rw [← UInt8.toNat_inj, UInt8.toNat_ofNat', UInt8.toNat_add]
      show (_ + 1) % 256 = (_ + 1) % 256
      omega
    rw [htake, ofBe_append_singleton, toBe_succ, hlast, incrementBelow]
    by_cases hwrap : counter[i] + 1 = 0
    · -- the byte was `0xff`
      have hff : counter[i].toNat = 255 := by
        have hsum := congrArg UInt8.toNat hwrap
        rw [UInt8.toNat_add] at hsum
        change (counter[i].toNat + 1) % 256 = 0 at hsum
        omega
      have hdiv : (counter[i].toNat + 256 * ofBe (counter.toList.take i) + 1) / 256 =
          ofBe (counter.toList.take i) + 1 := by omega
      have hkept : (counter.set i (counter[i] + 1)).toList.take i = counter.toList.take i := by
        rw [hset, List.take_left' hlength]
      have hrest : (counter.set i (counter[i] + 1)).toList.drop i =
          (counter[i] + 1) :: counter.toList.drop (i + 1) := by
        rw [hset, List.drop_left' hlength]
      rw [if_neg (by rw [Vector.getElem_set_self]; exact not_not.mpr hwrap), ih, hkept, hrest, hdiv,
        List.append_assoc, List.singleton_append]
    · have hlt : counter[i].toNat < 255 := by
        by_contra hge
        refine hwrap (UInt8.toNat_inj.mp ?_)
        rw [UInt8.toNat_add]
        show (counter[i].toNat + 1) % 256 = 0
        omega
      have hdiv : (counter[i].toNat + 256 * ofBe (counter.toList.take i) + 1) / 256 =
          ofBe (counter.toList.take i) := by omega
      rw [if_pos (by rw [Vector.getElem_set_self]; exact hwrap), hset, hdiv, toBe_ofBe hlength,
        List.append_assoc, List.singleton_append]

/-- **The counter is one big-endian number modulo `2 ^ 128`.** -/
theorem toList_incrementCounter (counter : Block) :
    (incrementCounter counter).toList = toBe 16 (ofBe counter.toList + 1) := by
  unfold incrementCounter
  have htake : counter.toList.take 16 = counter.toList :=
    List.take_of_length_le (by rw [Vector.length_toList])
  have hdrop : counter.toList.drop 16 = [] :=
    List.drop_of_length_le (by rw [Vector.length_toList])
  rw [toList_incrementBelow, htake, hdrop, List.append_nil]

/-- The block of a number. -/
def counterOf (n : Nat) : Block := firstBlock (toBe 16 n) (Nat.le_of_eq (length_toBe 16 n).symm)

theorem toList_counterOf (n : Nat) : (counterOf n).toList = toBe 16 n := by
  rw [counterOf, firstBlock_toList]
  exact List.take_of_length_le (Nat.le_of_eq (length_toBe 16 n))

theorem incrementCounter_counterOf (n : Nat) :
    incrementCounter (counterOf n) = counterOf (n + 1) := by
  rw [← Vector.toList_inj, toList_incrementCounter, toList_counterOf, toList_counterOf, ofBe_toBe,
    ← toBe_mod, Nat.mod_add_mod, toBe_mod]

/-! ## The keystream -/

/-- **The counter mode adds the keystream of the cipher.** -/
theorem ctrLoop_eq (counter : Block) (input : Bytes) :
    ctrLoop roundKeys counter input =
      addKeystream 16 (fun c => (encryptBlock roundKeys c).toList) incrementCounter
        (· ^^^ ·) counter input := by
  fun_induction ctrLoop roundKeys counter input with
  | case1 counter => rw [addKeystream_nil]
  | case2 counter input hne ih => rw [ih, addKeystream_of_ne_nil (by decide) counter hne]

/-- **The keystream added twice gives the input.** -/
theorem ctrLoop_ctrLoop (counter : Block) (input : Bytes) :
    ctrLoop roundKeys counter (ctrLoop roundKeys counter input) = input := by
  rw [ctrLoop_eq, ctrLoop_eq]
  exact addKeystream_addKeystream (by decide) (fun _ => Vector.length_toList) xor_cancel_right
    counter input

theorem iterate_incrementCounter (n k : Nat) :
    incrementCounter^[k] (counterOf n) = counterOf (n + k) := by
  induction k with
  | zero => rfl
  | succ k ih => rw [Function.iterate_succ_apply', ih, incrementCounter_counterOf, Nat.add_assoc]

/-- **The keystream goes on with the counter.** -/
theorem ctrLoop_append (n k : Nat) (a b : Bytes) (ha : a.length = 16 * k) :
    ctrLoop roundKeys (counterOf n) (a ++ b) =
      ctrLoop roundKeys (counterOf n) a ++ ctrLoop roundKeys (counterOf (n + k)) b := by
  rw [ctrLoop_eq, ctrLoop_eq, ctrLoop_eq, addKeystream_append (by decide) (counterOf n) k a b ha,
    iterate_incrementCounter]

/-! ## The interface -/

variable (build : AesBuild) {key : Bytes}

theorem dispatch_builtin (mode : AesMode) (iv input : Bytes) (direction : Bool) (builtin : Bytes) :
    dispatch build .builtin mode key iv input direction builtin = .ok builtin := rfl

theorem aesEcb_builtin (hkey : keyValid key = true)
    (hlen : blockLenValid input.length = true) (direction : Bool) :
    aesEcb build direction key input .builtin = .ok (builtinEcb ⟨key, hkey⟩ input direction) := by
  rw [aesEcb, dif_pos ⟨hkey, hlen⟩, dispatch_builtin]

theorem aesCbc_builtin (hkey : keyValid key = true) {iv : Bytes} (hiv : iv.length = 16)
    (hlen : blockLenValid input.length = true) (direction : Bool) :
    aesCbc build direction key iv input .builtin =
      .ok (builtinCbc ⟨key, hkey⟩ (firstBlock iv (Nat.le_of_eq hiv.symm)) input direction) := by
  rw [aesCbc, dif_pos ⟨hkey, hiv, hlen⟩, dispatch_builtin]

variable {counterBlock : Bytes}

theorem aesCtrCrypt_builtin (hkey : keyValid key = true)
    (hcounter : counterBlock.length = 16) (data : Bytes) :
    aesCtrCrypt build key counterBlock data .builtin =
      .ok (builtinCtr ⟨key, hkey⟩ (firstBlock counterBlock (Nat.le_of_eq hcounter.symm)) data) := by
  rw [aesCtrCrypt, dif_pos ⟨hkey, hcounter⟩, dispatch_builtin]

/-- A counter block is the one of its number. -/
theorem firstBlock_eq_counterOf (h : counterBlock.length = 16) :
    firstBlock counterBlock (Nat.le_of_eq h.symm) = counterOf (ofBe counterBlock) := by
  rw [← Vector.toList_inj, firstBlock_toList, toList_counterOf, toBe_ofBe h]
  exact List.take_of_length_le (Nat.le_of_eq h)

variable {p : Bytes}

theorem aesEcbDecrypt_aesEcbEncrypt (hkey : keyValid key = true)
    (hlen : blockLenValid p.length = true) :
    ∃ c, aesEcbEncrypt build key p .builtin = .ok c ∧ aesEcbDecrypt build key c .builtin =
      .ok p := by
  refine ⟨_, aesEcb_builtin build hkey hlen true, ?_⟩
  have hvalid : blockLenValid (builtinEcb ⟨key, hkey⟩ p true).length = true :=
    blockLenValid_ofBlocks _
  unfold aesEcbDecrypt
  rw [aesEcb_builtin build hkey hvalid false, builtinEcb_builtinEcb ⟨key, hkey⟩ hlen]

theorem aesCbcDecrypt_aesCbcEncrypt (hkey : keyValid key = true) {iv : Bytes} (hiv : iv.length = 16)
    (hlen : blockLenValid p.length = true) :
    ∃ c, aesCbcEncrypt build key iv p .builtin = .ok c ∧
      aesCbcDecrypt build key iv c .builtin = .ok p := by
  refine ⟨_, aesCbc_builtin build hkey hiv hlen true, ?_⟩
  have hvalid : blockLenValid (builtinCbc ⟨key, hkey⟩ (firstBlock iv (Nat.le_of_eq hiv.symm)) p
    true).length = true := blockLenValid_ofBlocks _
  unfold aesCbcDecrypt
  rw [aesCbc_builtin build hkey hiv hvalid false, builtinCbc_builtinCbc ⟨key, hkey⟩ _ hlen]

theorem aesCtrCrypt_aesCtrCrypt (hkey : keyValid key = true)
    (hcounter : counterBlock.length = 16) (data : Bytes) :
    ∃ c, aesCtrCrypt build key counterBlock data .builtin = .ok c ∧
      aesCtrCrypt build key counterBlock c .builtin = .ok data := by
  refine ⟨_, aesCtrCrypt_builtin build hkey hcounter data, ?_⟩
  rw [aesCtrCrypt_builtin build hkey hcounter]
  unfold builtinCtr
  rw [ctrLoop_ctrLoop]

theorem aesCtrCrypt_append (hkey : keyValid key = true) {a : Bytes} {k : Nat}
    (hcounter : counterBlock.length = 16) (ha : a.length = 16 * k) (b : Bytes) :
    ∃ ca cb, aesCtrCrypt build key counterBlock a .builtin = .ok ca ∧
      aesCtrCrypt build key (toBe 16 ((ofBe counterBlock + k) % 2 ^ 128)) b .builtin = .ok cb ∧
      aesCtrCrypt build key counterBlock (a ++ b) .builtin = .ok (ca ++ cb) := by
  have hnext : (toBe 16 ((ofBe counterBlock + k) % 2 ^ 128)).length = 16 := length_toBe 16 _
  refine ⟨_, _, aesCtrCrypt_builtin build hkey hcounter a, aesCtrCrypt_builtin build hkey hnext b,
    ?_⟩
  have hcounterOf : counterOf (ofBe (toBe 16 ((ofBe counterBlock + k) % 2 ^ 128))) =
      counterOf (ofBe counterBlock + k) := by
    rw [← Vector.toList_inj, toList_counterOf, toList_counterOf, toBe_ofBe hnext]
    exact toBe_mod 16 _
  rw [aesCtrCrypt_builtin build hkey hcounter]
  unfold builtinCtr
  rw [firstBlock_eq_counterOf hcounter, firstBlock_eq_counterOf hnext, hcounterOf,
    ctrLoop_append _ _ k a b ha]

/-- **Other lengths are rejected.** -/
theorem aes_rejects (hlen : p.length % 16 ≠ 0) (iv : Bytes) (backend : AesBackend) :
    aesEcbEncrypt build key p backend = .error .invalidArgument ∧
    aesEcbDecrypt build key p backend = .error .invalidArgument ∧
    aesCbcEncrypt build key iv p backend = .error .invalidArgument ∧
    aesCbcDecrypt build key iv p backend = .error .invalidArgument := by
  have hinvalid : blockLenValid p.length ≠ true := fun h => hlen (beq_iff_eq.mp h)
  have hecb (direction : Bool) : aesEcb build direction key p backend =
    .error .invalidArgument := by
    rw [aesEcb, dif_neg fun h => hinvalid h.2]
  have hcbc (direction : Bool) :
      aesCbc build direction key iv p backend = .error .invalidArgument := by
    rw [aesCbc, dif_neg fun h => hinvalid h.2.2]
  exact ⟨hecb true, hecb false, hcbc true, hcbc false⟩

/-- **The modes invert.** For every valid key, with the builtin backend in any build: the inverse
cipher undoes the cipher, decryption undoes encryption in both block modes and other lengths are
rejected, and the counter mode undoes itself and goes on with the counter. -/
theorem aes_modes_invert (key : AesKey) :
    (∀ block, decryptBlock (keyExpansion key) (encryptBlock (keyExpansion key) block) = block) ∧
    (∀ p, p.length % 16 = 0 → ∃ c, aesEcbEncrypt build key.bytes p .builtin = .ok c ∧
      aesEcbDecrypt build key.bytes c .builtin = .ok p) ∧
    (∀ iv p, iv.length = 16 → p.length % 16 = 0 →
      ∃ c, aesCbcEncrypt build key.bytes iv p .builtin = .ok c ∧
        aesCbcDecrypt build key.bytes iv c .builtin = .ok p) ∧
    (∀ iv p, p.length % 16 ≠ 0 →
      aesEcbEncrypt build key.bytes p .builtin = .error .invalidArgument ∧
      aesEcbDecrypt build key.bytes p .builtin = .error .invalidArgument ∧
      aesCbcEncrypt build key.bytes iv p .builtin = .error .invalidArgument ∧
      aesCbcDecrypt build key.bytes iv p .builtin = .error .invalidArgument) ∧
    (∀ counter p, counter.length = 16 →
      ∃ c, aesCtrCrypt build key.bytes counter p .builtin = .ok c ∧
        aesCtrCrypt build key.bytes counter c .builtin = .ok p) ∧
    (∀ counter a b k, counter.length = 16 → a.length = 16 * k →
      ∃ ca cb, aesCtrCrypt build key.bytes counter a .builtin = .ok ca ∧
        aesCtrCrypt build key.bytes (toBe 16 ((ofBe counter + k) % 2 ^ 128)) b .builtin = .ok cb ∧
        aesCtrCrypt build key.bytes counter (a ++ b) .builtin = .ok (ca ++ cb)) := by
  refine ⟨decryptBlock_encryptBlock _, ?_, ?_, ?_, ?_, ?_⟩
  · intro p hp
    exact aesEcbDecrypt_aesEcbEncrypt build key.valid (beq_iff_eq.mpr hp)
  · intro iv p hiv hp
    exact aesCbcDecrypt_aesCbcEncrypt build key.valid hiv (beq_iff_eq.mpr hp)
  · intro iv p hp
    exact aes_rejects build hp iv .builtin
  · intro counter p hcounter
    exact aesCtrCrypt_aesCtrCrypt build key.valid hcounter p
  · intro counter a b k hcounter ha
    exact aesCtrCrypt_append build key.valid hcounter ha b

/-- A build without other backends and the key of zeros. -/
theorem aes_modes_invert_zeros :
    (∃ c, aesEcbEncrypt ⟨none, none⟩ (List.replicate 16 0) (List.replicate 32 7) .builtin = .ok c ∧
      aesEcbDecrypt ⟨none, none⟩ (List.replicate 16 0) c .builtin = .ok (List.replicate 32 7)) ∧
    (∃ c, aesCbcEncrypt ⟨none, none⟩ (List.replicate 16 0) (List.replicate 16 1)
        (List.replicate 32 7) .builtin = .ok c ∧
      aesCbcDecrypt ⟨none, none⟩ (List.replicate 16 0) (List.replicate 16 1) c .builtin =
        .ok (List.replicate 32 7)) ∧
    aesEcbEncrypt ⟨none, none⟩ (List.replicate 16 0) [7] .builtin = .error .invalidArgument ∧
    (∃ c, aesCtrCrypt ⟨none, none⟩ (List.replicate 16 0) (List.replicate 16 0xff) [7] .builtin =
      .ok c ∧
      aesCtrCrypt ⟨none, none⟩ (List.replicate 16 0) (List.replicate 16 0xff) c .builtin =
        .ok [7]) ∧
    ∃ ca cb, aesCtrCrypt ⟨none, none⟩ (List.replicate 16 0) (List.replicate 16 0xff)
        (List.replicate 16 7) .builtin = .ok ca ∧
      aesCtrCrypt ⟨none, none⟩ (List.replicate 16 0)
        (toBe 16 ((ofBe (List.replicate 16 0xff) + 1) % 2 ^ 128)) [8] .builtin = .ok cb ∧
      aesCtrCrypt ⟨none, none⟩ (List.replicate 16 0) (List.replicate 16 0xff)
        (List.replicate 16 7 ++ [8]) .builtin = .ok (ca ++ cb) :=
  have h := aes_modes_invert ⟨none, none⟩ ⟨List.replicate 16 0, by decide⟩
  ⟨h.2.1 (List.replicate 32 7) (by decide),
    h.2.2.1 (List.replicate 16 1) (List.replicate 32 7) (by decide) (by decide),
    (h.2.2.2.1 [] [7] (by decide)).1,
    h.2.2.2.2.1 (List.replicate 16 0xff) [7] (by decide),
    h.2.2.2.2.2 (List.replicate 16 0xff) (List.replicate 16 7) [8] 1 (by decide) (by decide)⟩

end Libca.Crypto
