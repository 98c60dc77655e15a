import Libca.Core.WellFormed

/-!
# Varints (`core/bytes.cpp`)

* `VarintRead`: what reading at the front of some bytes ends with: a value whose numeral they begin
  with, `underflow` when they are a proper prefix of a numeral, `malformedVarint` otherwise. The end
  is unique (`VarintRead.unique`).
* `getVarLoop_read`: the loop of the four readers ends so.
* `varint_codec`: the codec is a bijection between values and numerals, in both classes and both
  widths, and composes with zigzag.
-/

namespace Libca.Core

open Common Fallible

/-! ## Zigzag -/

/-- `zigzag_encode32` and `zigzag_encode64`; `>>` of a signed value keeps its sign. -/
def zigzagEncode {bits : Nat} (val : BitVec bits) : BitVec bits :=
  (val <<< 1) ^^^ val.sshiftRight (bits - 1)

/-- `zigzag_decode32` and `zigzag_decode64`. -/
def zigzagDecode {bits : Nat} (val : BitVec bits) : BitVec bits :=
  (val >>> 1) ^^^ -(val &&& BitVec.ofNat bits 1)

/-! ## Numerals that fit -/

/-- What the numeral behind `i` digits may be: it fits in the bits that are left, and it is not that
of zero unless it is the whole numeral. -/
def Fits (w : VarintWidth) (i u : Nat) : Prop := u < 2 ^ (w.bits - 7 * i) ∧ (0 < i → u ≠ 0)

/-- One of two strings is a prefix of the other. -/
def Comparable (as bs : Bytes) : Prop := as <+: bs ∨ bs <+: as

/-- What reading at the front of `bs`, behind `i` digits of the value `result`, ends with. -/
inductive VarintRead (w : VarintWidth) (i result : Nat) (bs : Bytes) :
    Except Stop (Nat × Nat) → Prop
  | value (u : Nat) : Fits w i u → leb128 u <+: bs →
      VarintRead w i result bs (.ok (result + 2 ^ (7 * i) * u, i + (leb128 u).length))
  | underflow (u : Nat) : Fits w i u → bs <+: leb128 u → bs ≠ leb128 u →
      VarintRead w i result bs (.error (.error .underflow))
  | malformed : (∀ u, Fits w i u → ¬ Comparable (leb128 u) bs) →
      VarintRead w i result bs (.error (.error .malformedVarint))

variable {bs : Bytes} {u : Nat}

theorem VarintRead.not_value_underflow {v : Nat} (hu : leb128 u <+: bs)
    (hv : bs <+: leb128 v) (hne : bs ≠ leb128 v) : False := by
  have huv := eq_of_leb128_le (hu.trans hv)
  subst huv
  exact hne (hv.eq_of_length (Nat.le_antisymm hv.length_le hu.length_le))

variable {w : VarintWidth}

variable {i : Nat}

/-- **Reading ends in one way.** -/
theorem VarintRead.unique {result : Nat}
    {out out' : Except Stop (Nat × Nat)} (h : VarintRead w i result bs out)
    (h' : VarintRead w i result bs out') : out = out' := by
  cases h with
  | value u hfits hu =>
    cases h' with
    | value v _ hv => rw [leb128_unique hu hv]
    | underflow v _ hv hne => exact (not_value_underflow hu hv hne).elim
    | malformed hnone => exact absurd (.inl hu) (hnone u hfits)
  | underflow u hfits hu hne =>
    cases h' with
    | value v _ hv => exact (not_value_underflow hv hu hne).elim
    | underflow v _ hv hne => rfl
    | malformed hnone => exact absurd (.inr hu) (hnone u hfits)
  | malformed hnone =>
    cases h' with
    | value v hfits hv => exact absurd (.inl hv) (hnone v hfits)
    | underflow v hfits hv _ => exact absurd (.inr hv) (hnone v hfits)
    | malformed _ => rfl

/-! ## The loop -/

theorem toNat_and_low (b : UInt8) : (b &&& 0x7F).toNat = b.toNat % 128 := by
  rw [UInt8.toNat_and]
  exact Nat.and_two_pow_sub_one_eq_mod b.toNat 7

theorem and_high_eq_zero (b : UInt8) : b &&& 0x80 = 0 ↔ b.toNat < 128 :=
  forall_byte (p := fun b => b &&& 0x80 = 0 ↔ b.toNat < 128) (by decide +kernel) b

/-- The digit at `i`, put in its place. -/
theorem or_digit {result d : Nat} (hresult : result < 2 ^ (7 * i))
    (hd : 2 ^ (7 * i) * d < 2 ^ w.bits) :
    result ||| d <<< (7 * i) % 2 ^ w.bits = result + 2 ^ (7 * i) * d := by
  rw [Nat.shiftLeft_eq, Nat.mul_comm d, Nat.mod_eq_of_lt hd, Nat.or_comm,
    ← Nat.two_pow_add_eq_or_of_lt hresult, Nat.add_comm]

/-- Before the last digit, seven more bits are left. -/
theorem two_pow_bits_left (hi : i + 1 < w.maxBytes) :
    2 ^ (w.bits - 7 * i) = 128 * 2 ^ (w.bits - 7 * (i + 1)) := by
  have hbits : w.bits - 7 * i = w.bits - 7 * (i + 1) + 7 := by
    cases w <;> simp only [VarintWidth.bits, VarintWidth.maxBytes] at * <;> omega
  rw [hbits, Nat.pow_add, Nat.mul_comm]

/-- At the last digit, its largest value is what is left. -/
theorem lastMax_lt (w : VarintWidth) :
    w.lastMax.toNat + 1 = 2 ^ (w.bits - 7 * (w.maxBytes - 1)) ∧ w.lastMax.toNat < 128 := by
  cases w <;> decide

/-- What is left at `i` fits in the width behind the digits before. -/
theorem mul_lt_of_fits (hi : i < w.maxBytes)
    (hu : u < 2 ^ (w.bits - 7 * i)) : 2 ^ (7 * i) * u < 2 ^ w.bits := by
  have hbits : w.bits = 7 * i + (w.bits - 7 * i) := by
    cases w <;> simp only [VarintWidth.bits, VarintWidth.maxBytes] at * <;> omega
  calc 2 ^ (7 * i) * u < 2 ^ (7 * i) * 2 ^ (w.bits - 7 * i) :=
        Nat.mul_lt_mul_of_pos_left hu (Nat.two_pow_pos _)
    _ = 2 ^ w.bits := by rw [← Nat.pow_add, ← hbits]

/-- A numeral that is comparable with some bytes begins with the first of them. -/
theorem Comparable.cons {b : UInt8} (h : Comparable (leb128 u) (b :: bs)) :
    (b.toNat < 128 ∧ u = b.toNat) ∨
      ∃ m, m ≠ 0 ∧ 128 ≤ b.toNat ∧ u = b.toNat - 128 + 128 * m ∧ Comparable (leb128 m) bs := by
  cases hu : leb128 u with
  | nil => exact absurd hu (leb128_ne_nil u)
  | cons c rest =>
    rw [hu] at h
    have hc : c = b ∧ Comparable rest bs := by
      obtain h | h := h
      · exact ⟨(List.cons_prefix_cons.mp h).1, .inl (List.cons_prefix_cons.mp h).2⟩
      · exact ⟨(List.cons_prefix_cons.mp h).1.symm, .inr (List.cons_prefix_cons.mp h).2⟩
    obtain ⟨rfl, hrest⟩ := hc
    obtain ⟨hb, rfl, -⟩ | ⟨m, hm, hb, rfl, rfl⟩ := leb128_eq_cons hu
    · exact .inl ⟨hb, rfl⟩
    · exact .inr ⟨m, hm, hb, rfl, hrest⟩

/-- A numeral behind a digit with the high bit set. -/
theorem Fits.cons {m : Nat} (hi : i + 1 < w.maxBytes) (b : UInt8) :
    Fits w (i + 1) m ↔ m ≠ 0 ∧ Fits w i (b.toNat - 128 + 128 * m) := by
  have hb := b.toNat_lt
  have hbits := two_pow_bits_left hi
  unfold Fits
  rw [hbits]
  constructor
  · rintro ⟨hlt, hne⟩
    have hm := hne (Nat.succ_pos i)
    exact ⟨hm, by omega, fun _ => by omega⟩
  · rintro ⟨hm, hlt, -⟩
    exact ⟨by omega, fun _ => hm⟩

/-- Reading goes on behind a digit with the high bit set. -/
theorem VarintRead.cons {result : Nat} {b : UInt8}
    {out : Except Stop (Nat × Nat)} (hb : 128 ≤ b.toNat) (hi : i + 1 < w.maxBytes)
    (h : VarintRead w (i + 1) (result + 2 ^ (7 * i) * (b.toNat - 128)) bs out) :
    VarintRead w i result (b :: bs) out := by
  have hpow : 2 ^ (7 * (i + 1)) = 2 ^ (7 * i) * 128 := by
    rw [Nat.mul_add, Nat.pow_add]
  cases h with
  | value m hfits hm =>
    obtain ⟨hne, hfits'⟩ := (Fits.cons hi b).mp hfits
    have hread : VarintRead w i result (b :: bs) _ :=
      .value _ hfits' (by rw [leb128_cons hb hne]; exact List.cons_prefix_cons.mpr ⟨rfl, hm⟩)
    rw [leb128_cons hb hne, List.length_cons, Nat.mul_add, ← Nat.mul_assoc, ← hpow,
      ← Nat.add_assoc, ← Nat.add_assoc, Nat.add_right_comm i] at hread
    exact hread
  | underflow m hfits hm hne' =>
    obtain ⟨hne, hfits'⟩ := (Fits.cons hi b).mp hfits
    refine .underflow _ hfits' ?_ ?_ <;> rw [leb128_cons hb hne]
    · exact List.cons_prefix_cons.mpr ⟨rfl, hm⟩
    · exact fun h => hne' (List.cons.inj h).2
  | malformed hnone =>
    refine .malformed fun u hfits hcomp => ?_
    obtain ⟨hb', -⟩ | ⟨m, hm, -, rfl, hcomp'⟩ := hcomp.cons
    · omega
    · exact hnone m ((Fits.cons hi b).mpr ⟨hm, hfits⟩) hcomp'

variable {σ : Type}

/-- **The loop of the readers** ends as reading at the front of the bytes from the cursor does. -/
theorem getVarLoop_read {byteAt : Nat → Fallible σ Stop UInt8} {s : σ}
    {steps result : Nat} (hi : i + steps = w.maxBytes) (hlt : i < w.maxBytes)
    (hresult : result < 2 ^ (7 * i))
    (hbyte : ∀ j b, bs[j]? = some b → byteAt (i + j) s = (.ok b, s)) :
    ∃ out, getVarLoop w (i + bs.length) byteAt steps i result s = (out, s) ∧
      VarintRead w i result bs out := by
  induction steps generalizing i result bs with
  | zero => omega
  | succ steps ih =>
    unfold getVarLoop
    have hpos : 1 < 2 ^ (w.bits - 7 * i) :=
      Nat.one_lt_two_pow (by
        cases w <;> simp only [VarintWidth.bits, VarintWidth.maxBytes] at * <;> omega)
    cases bs with
    | nil =>
      refine ⟨.error (.error .underflow), ?_, .underflow 1 ⟨hpos, fun _ => by decide⟩
        List.nil_prefix (leb128_ne_nil 1).symm⟩
      rw [failIf_pos (by simp)]
      rfl
    | cons b bs =>
      rw [failIf_neg (by simp), pure_bind_apply,
        bind_ok (show byteAt i s = (.ok b, s) from hbyte 0 b rfl)]
      by_cases hzero : 0 < i ∧ b = 0
      · -- a last digit of zero
        obtain ⟨hi0, rfl⟩ := hzero
        refine ⟨.error (.error .malformedVarint), ?_, .malformed fun u hfits hcomp => ?_⟩
        · rw [failIf_pos ⟨hi0, rfl⟩]
          rfl
        · obtain ⟨-, hu⟩ | ⟨m, -, hb, -⟩ := hcomp.cons
          · exact hfits.2 hi0 hu
          · cases hb
      rw [failIf_neg hzero, pure_bind_apply]
      obtain ⟨hlast, hlast'⟩ := lastMax_lt w
      by_cases hrange : i = w.maxBytes - 1 ∧ w.lastMax < b
      · -- more bits than the type has
        refine ⟨.error (.error .malformedVarint), ?_, .malformed fun u hfits hcomp => ?_⟩
        · rw [failIf_pos hrange]
          rfl
        · have hmax := UInt8.lt_iff_toNat_lt.mp hrange.2
          have hu := hfits.1
          rw [hrange.1, ← hlast] at hu
          obtain ⟨-, rfl⟩ | ⟨m, hm, hb, rfl, -⟩ := hcomp.cons <;> omega
      rw [failIf_neg hrange, pure_bind_apply, toNat_and_low]
      by_cases hb : b.toNat < 128
      · -- the last digit
        have hfits : b.toNat < 2 ^ (w.bits - 7 * i) := by
          by_cases hend : i = w.maxBytes - 1
          · have hmax : ¬ w.lastMax < b := fun h => hrange ⟨hend, h⟩
            rw [UInt8.lt_iff_toNat_lt] at hmax
            rw [hend, ← hlast]
            omega
          · rw [two_pow_bits_left (by omega)]
            exact Nat.lt_of_lt_of_le hb (Nat.le_mul_of_pos_right _ (Nat.two_pow_pos _))
        have hne : 0 < i → b.toNat ≠ 0 := by
          intro hi0 h0
          exact hzero ⟨hi0, UInt8.toNat_inj.mp h0⟩
        have hread : VarintRead w i result (b :: bs)
            (.ok (result + 2 ^ (7 * i) * b.toNat, i + (leb128 b.toNat).length)) :=
          .value _ ⟨hfits, hne⟩ (by rw [leb128_toNat hb]; exact List.prefix_append [b] bs)
        rw [leb128_toNat hb] at hread
        refine ⟨_, ?_, hread⟩
        rw [if_pos ((and_high_eq_zero b).mpr hb), Nat.mod_eq_of_lt hb,
          or_digit hresult (mul_lt_of_fits hlt hfits)]
        rfl
      · -- a digit with more behind it
        have hlt' : i + 1 < w.maxBytes := by
          by_contra hend
          exact hrange ⟨by omega, UInt8.lt_iff_toNat_lt.mpr (by omega)⟩
        have hbits := two_pow_bits_left hlt'
        have hdigit : b.toNat % 128 = b.toNat - 128 := by
          have := b.toNat_lt
          omega
        have hd : b.toNat - 128 < 2 ^ (w.bits - 7 * i) := by
          rw [hbits]
          have := b.toNat_lt
          exact Nat.lt_of_lt_of_le (by omega) (Nat.le_mul_of_pos_right _ (Nat.two_pow_pos _))
        have hpow : 2 ^ (7 * (i + 1)) = 2 ^ (7 * i) * 128 := by
          rw [Nat.mul_add, Nat.pow_add]
        have hresult' : result + 2 ^ (7 * i) * (b.toNat - 128) < 2 ^ (7 * (i + 1)) := by
          have hb' : b.toNat - 128 + 1 ≤ 128 := by
            have := b.toNat_lt
            omega
          calc result + 2 ^ (7 * i) * (b.toNat - 128)
              < 2 ^ (7 * i) + 2 ^ (7 * i) * (b.toNat - 128) := Nat.add_lt_add_right hresult _
            _ = 2 ^ (7 * i) * (b.toNat - 128 + 1) := by rw [Nat.mul_add, Nat.mul_one, Nat.add_comm]
            _ ≤ 2 ^ (7 * i) * 128 := Nat.mul_le_mul_left _ hb'
            _ = 2 ^ (7 * (i + 1)) := hpow.symm
        have hrest : ∀ j c, bs[j]? = some c → byteAt (i + 1 + j) s = (.ok c, s) := by
          intro j c hc
          rw [Nat.add_assoc, Nat.add_comm 1]
          exact hbyte (j + 1) c hc
        obtain ⟨out, hout, hread⟩ := ih (by omega) hlt' hresult' hrest
        refine ⟨out, ?_, ?_⟩
        · rw [if_neg (fun h => hb ((and_high_eq_zero b).mp h)), hdigit,
            or_digit hresult (mul_lt_of_fits hlt hd), List.length_cons, Nat.add_comm bs.length,
            ← Nat.add_assoc]
          exact hout
        · exact hread.cons (by omega) hlt'

/-! ## The readers -/

/-- A class of byte strings: which objects are valid, the bytes from the cursor on, and the object
with its cursor moved. -/
structure Cursor (σ : Type) where
  valid : σ → Prop
  rest : σ → Bytes
  moved : σ → Nat → σ

/-- The cursor of a `Bytes`. -/
def FrozenBytes.cursor : Cursor FrozenBytes where
  valid := fun b => b.pos ≤ b.len ∧ b.len ≤ b.storage.length ∧ b.len ≤ sizeMax
  rest := fun b => (b.storage.take b.len).drop b.pos
  moved := fun b count => { b with pos := b.pos + count }

/-- The cursor of a `BytesMut`. -/
def BytesMut.cursor : Cursor BytesMut where
  valid := BytesMut.Sound
  rest := BytesMut.rest
  moved := fun m count => { m with pos := m.pos + count }

/-- What a reader returns when reading at its cursor ends with `out`. -/
def varintReply {σ : Type} (w : VarintWidth) (c : Cursor σ) (s : σ) :
    Except Stop (Nat × Nat) → Except Stop (BitVec w.bits) × σ
  | .ok (value, count) => (.ok (BitVec.ofNat w.bits value), c.moved s count)
  | .error stop => (.error stop, s)

/-- A reader returns what reading at its cursor ends with. -/
def ReadsAtCursor {σ : Type} (w : VarintWidth) (c : Cursor σ)
    (getVar : Fallible σ Stop (BitVec w.bits)) : Prop :=
  ∀ s, c.valid s → ∃ out, getVar s = varintReply w c s out ∧ VarintRead w 0 0 (c.rest s) out

/-- The bytes that `load` finds from the cursor on. -/
theorem load_rest {block : Bytes} {len pos : Nat} (hlen : len ≤ block.length) (s : σ)
    (j : Nat) (b : UInt8) (h : ((block.take len).drop pos)[j]? = some b) :
    load block (pos + (0 + j)) s = (.ok b, s) := by
  rw [List.getElem?_drop, List.getElem?_take] at h
  split_ifs at h with hj
  unfold load
  rw [Nat.zero_add, if_pos (by omega), List.getD_eq_getElem?_getD, h]
  rfl

theorem FrozenBytes.readsAtCursor (w : VarintWidth) :
    ReadsAtCursor w FrozenBytes.cursor (FrozenBytes.getVar w) := by
  rintro b ⟨hpos, hlen, hmax⟩
  have hremaining : b.remaining = 0 + (FrozenBytes.cursor.rest b).length := by
    change _ = 0 + ((b.storage.take b.len).drop b.pos).length
    rw [Nat.zero_add, List.length_drop, List.length_take, Nat.min_eq_left hlen]
    unfold sizeMax at hmax
    exact usizeSub_of_le hpos (by omega)
  have hloop : ∃ out, getVarLoop w (0 + (FrozenBytes.cursor.rest b).length)
      (fun i => load b.storage (b.pos + i)) w.maxBytes 0 0 b = (out, b) ∧
      VarintRead w 0 0 (FrozenBytes.cursor.rest b) out :=
    getVarLoop_read (Nat.zero_add _) (by cases w <;> decide) Nat.one_pos
      fun j c hc => load_rest hlen b j c hc
  obtain ⟨out, hout, hread⟩ := hloop
  refine ⟨out, ?_, hread⟩
  unfold FrozenBytes.getVar
  rw [getState_bind_apply, hremaining]
  cases out with
  | ok p => exact bind_ok hout
  | error stop => exact bind_error hout

theorem BytesMut.readsAtCursor (w : VarintWidth) :
    ReadsAtCursor w BytesMut.cursor (BytesMut.getVar w) := by
  intro m hm
  have hremaining : m.remaining = 0 + (BytesMut.cursor.rest m).length := by
    change _ = 0 + (m.written.drop m.pos).length
    rw [Nat.zero_add, List.length_drop, hm.length_written, hm.remaining_eq]
  have hloop : ∃ out, getVarLoop w (0 + (BytesMut.cursor.rest m).length)
      (fun i => load m.block (m.pos + i)) w.maxBytes 0 0 m = (out, m) ∧
      VarintRead w 0 0 (BytesMut.cursor.rest m) out :=
    getVarLoop_read (Nat.zero_add _) (by cases w <;> decide) Nat.one_pos
      fun j c hc => load_rest (Nat.le_trans hm.len_le hm.capacity_le) m j c hc
  obtain ⟨out, hout, hread⟩ := hloop
  refine ⟨out, ?_, hread⟩
  unfold BytesMut.getVar
  rw [getState_bind_apply, hremaining]
  cases out with
  | ok p => exact bind_ok hout
  | error stop => exact bind_error hout

/-! ## The codec -/

/-- The bytes are a proper prefix of the encoding of a value. -/
def Truncated (w : VarintWidth) (bs : Bytes) : Prop :=
  ∃ val : BitVec w.bits, bs <+: leb128 val.toNat ∧ bs ≠ leb128 val.toNat

/-- The bytes begin with the encoding of a value. -/
def Encoded (w : VarintWidth) (bs : Bytes) : Prop :=
  ∃ val : BitVec w.bits, leb128 val.toNat <+: bs

/-- A reader of varints is the inverse of the encoding, and tells truncated bytes from malformed
ones. -/
structure Decodes {σ : Type} (w : VarintWidth) (c : Cursor σ)
    (getVar : Fallible σ Stop (BitVec w.bits)) : Prop where
  reads_back : ∀ s, c.valid s → ∀ (val : BitVec w.bits) (after : Bytes),
    c.rest s = leb128 val.toNat ++ after →
      getVar s = (.ok val, c.moved s (leb128 val.toNat).length)
  canonical : ∀ s, c.valid s → ∀ val s', getVar s = (.ok val, s') →
    leb128 val.toNat <+: c.rest s ∧ s' = c.moved s (leb128 val.toNat).length
  underflow : ∀ s, c.valid s →
    (getVar s = (.error (.error .underflow), s) ↔ Truncated w (c.rest s))
  malformed : ∀ s, c.valid s → (getVar s = (.error (.error .malformedVarint), s) ↔
    ¬ Encoded w (c.rest s) ∧ ¬ Truncated w (c.rest s))
  unmoved : ∀ s, c.valid s → ∀ stop s', getVar s = (.error stop, s') → s' = s

theorem fits_zero : Fits w 0 u ↔ u < 2 ^ w.bits := by
  unfold Fits
  simp

theorem toNat_ofNat_of_fits (h : Fits w 0 u) :
    (BitVec.ofNat w.bits u).toNat = u := by
  rw [BitVec.toNat_ofNat, Nat.mod_eq_of_lt (fits_zero.mp h)]

/-- The values of the width are what fits at the front. -/
theorem fits_toNat (val : BitVec w.bits) : Fits w 0 val.toNat :=
  fits_zero.mpr val.isLt

/-- **A reader at its cursor decodes.** -/
theorem ReadsAtCursor.decodes {c : Cursor σ}
    {getVar : Fallible σ Stop (BitVec w.bits)} (h : ReadsAtCursor w c getVar) :
    Decodes w c getVar where
  reads_back := by
    intro s hs val after hrest
    obtain ⟨out, hget, hread⟩ := h s hs
    have hval : VarintRead w 0 0 (leb128 val.toNat ++ after) _ :=
      .value val.toNat (fits_toNat val) (List.prefix_append _ after)
    rw [← hrest] at hval
    rw [hget, ← hval.unique hread]
    simp [varintReply]
  canonical := by
    intro s hs val s' hok
    obtain ⟨out, hget, hread⟩ := h s hs
    rw [hget] at hok
    cases hread with
    | value u hfits hu =>
      unfold varintReply at hok
      obtain ⟨hval, rfl⟩ := Prod.mk.inj hok
      cases hval
      simp only [Nat.mul_zero, Nat.pow_zero, Nat.one_mul, Nat.zero_add]
      rw [toNat_ofNat_of_fits hfits]
      exact ⟨hu, rfl⟩
    | underflow u hfits hu hne => cases hok
    | malformed hnone => cases hok
  underflow := by
    intro s hs
    obtain ⟨out, hget, hread⟩ := h s hs
    rw [hget]
    constructor
    · intro herror
      cases hread with
      | value u hfits hu => cases herror
      | underflow u hfits hu hne =>
        refine ⟨BitVec.ofNat w.bits u, ?_⟩
        rw [toNat_ofNat_of_fits hfits]
        exact ⟨hu, hne⟩
      | malformed hnone => cases herror
    · rintro ⟨val, hval, hne⟩
      rw [← (VarintRead.underflow _ (fits_toNat val) hval hne).unique hread]
      rfl
  malformed := by
    intro s hs
    obtain ⟨out, hget, hread⟩ := h s hs
    rw [hget]
    constructor
    · intro herror
      cases hread with
      | value u hfits hu => cases herror
      | underflow u hfits hu hne => cases herror
      | malformed hnone =>
        refine ⟨?_, ?_⟩
        · rintro ⟨val, hval⟩
          exact hnone _ (fits_toNat val) (.inl hval)
        · rintro ⟨val, hval, -⟩
          exact hnone _ (fits_toNat val) (.inr hval)
    · rintro ⟨hencoded, htruncated⟩
      refine congrArg (varintReply w c s) (VarintRead.unique hread (.malformed ?_))
      rintro u hfits (hu | hu)
      · refine hencoded ⟨BitVec.ofNat w.bits u, ?_⟩
        rwa [toNat_ofNat_of_fits hfits]
      · by_cases hne : c.rest s = leb128 u
        · refine hencoded ⟨BitVec.ofNat w.bits u, ?_⟩
          rw [toNat_ofNat_of_fits hfits, hne]
        · refine htruncated ⟨BitVec.ofNat w.bits u, ?_⟩
          rw [toNat_ofNat_of_fits hfits]
          exact ⟨hu, hne⟩
  unmoved := by
    intro s hs stop s' herror
    obtain ⟨out, hget, -⟩ := h s hs
    rw [hget] at herror
    cases out with
    | ok p => cases herror
    | error e => exact (congrArg Prod.snd herror).symm

/-- What was written behind a buffer's bytes is read back there. -/
theorem getVar_written {val : BitVec w.bits} {m m' : BytesMut} {pos : Nat}
    (hm : m.Sound) (h : Holds (m.written ++ leb128 val.toNat) pos 0 m') :
    BytesMut.getVar w { m' with pos := m.len } = (.ok val, { m' with pos := m'.len }) := by
  have hlen : m'.len = m.len + (leb128 val.toNat).length := by
    rw [h.len, List.length_append, hm.length_written]
  have hsound : BytesMut.Sound { m' with pos := m.len } :=
    ⟨⟨hlen ▸ Nat.le_add_right _ _, h.sound.len_le, h.sound.capacity_le⟩, h.sound.block_le⟩
  have hrest : BytesMut.cursor.rest { m' with pos := m.len } = leb128 val.toNat ++ [] := by
    change m'.written.drop m.len = _
    rw [h.written, ← hm.length_written, List.drop_left, List.append_nil]
  rw [(BytesMut.readsAtCursor w).decodes.reads_back _ hsound val [] hrest, hlen]
  rfl

/-! ## Zigzag is undone -/

/-- The low bit of an encoded value is its sign. -/
theorem zigzagEncode_and_one {bits : Nat} (val : BitVec (bits + 1)) :
    zigzagEncode val &&& 1#(bits + 1) = if val.msb then 1#(bits + 1) else 0#(bits + 1) := by
  have hmsb : val.getLsbD bits = val.msb := (BitVec.msb_eq_getLsbD_last val).symm
  have hsign : (val.sshiftRight bits).getLsbD 0 = val.msb := by
    rw [BitVec.getLsbD_sshiftRight, if_pos (show bits + 0 < bits + 1 from Nat.lt_succ_self bits)]
    exact (Bool.true_and _).trans hmsb
  refine BitVec.eq_of_getLsbD_eq fun i hi => ?_
  unfold zigzagEncode
  by_cases h0 : i = 0
  · subst h0
    rw [BitVec.getLsbD_and, BitVec.getLsbD_xor, Nat.add_sub_cancel, hsign]
    cases h : val.msb <;> simp
  · cases h : val.msb <;> simp [h0, BitVec.getLsbD_one]

/-- **Zigzag is undone.** -/
theorem zigzagDecode_zigzagEncode {bits : Nat} (val : BitVec (bits + 1)) :
    zigzagDecode (zigzagEncode val) = val := by
  have hmsb : val.getLsbD bits = val.msb := (BitVec.msb_eq_getLsbD_last val).symm
  refine BitVec.eq_of_getLsbD_eq fun i hi => ?_
  unfold zigzagDecode
  rw [zigzagEncode_and_one]
  unfold zigzagEncode
  rw [BitVec.getLsbD_xor, BitVec.getLsbD_ushiftRight, BitVec.getLsbD_xor,
    BitVec.getLsbD_sshiftRight, BitVec.getLsbD_shiftLeft]
  by_cases hlast : i = bits
  · subst hlast
    rw [hmsb]
    cases h : val.msb <;> simp [BitVec.neg_one_eq_allOnes]
  · have hle : 1 + i ≤ bits := by omega
    have hnot : ¬ bits < 1 + i := by omega
    cases h : val.msb <;> simp [hle, hnot, hi, BitVec.neg_one_eq_allOnes]

/-- **The varint codec.** In both widths the readers of `Bytes` and of `BytesMut` decode what the
writer appends and nothing else, they read the same bytes alike, the writer appends where there is
room or memory for it, and zigzag is undone. -/
theorem varint_codec (w : VarintWidth) :
    Decodes w FrozenBytes.cursor (FrozenBytes.getVar w) ∧
      Decodes w BytesMut.cursor (BytesMut.getVar w) ∧
      (∀ b m, FrozenBytes.cursor.valid b → BytesMut.cursor.valid m →
        FrozenBytes.cursor.rest b = BytesMut.cursor.rest m →
          (FrozenBytes.getVar w b).1 = (BytesMut.getVar w m).1) ∧
      (∀ memory (val : BitVec w.bits) m, m.Sound →
        ((∃ m', BytesMut.putVar w memory val m = (.ok (), m')) ↔ m.Writable memory w.maxBytes) ∧
          ∀ m', BytesMut.putVar w memory val m = (.ok (), m') →
            m'.Sound ∧ m'.written = m.written ++ leb128 val.toNat ∧ m'.pos = m.pos ∧
              BytesMut.getVar w { m' with pos := m.len } = (.ok val, { m' with pos := m'.len })) ∧
      ∀ val : BitVec w.bits, zigzagDecode (zigzagEncode val) = val := by
  refine ⟨(FrozenBytes.readsAtCursor w).decodes, (BytesMut.readsAtCursor w).decodes, ?_, ?_, ?_⟩
  · intro b m hb hm hrest
    obtain ⟨out, hget, hread⟩ := FrozenBytes.readsAtCursor w b hb
    obtain ⟨out', hget', hread'⟩ := BytesMut.readsAtCursor w m hm
    rw [hrest] at hread
    rw [hget, hget', hread.unique hread']
    cases out' <;> rfl
  · refine fun memory val m hm => ⟨putVar_ok_iff hm, fun m' hput => ?_⟩
    have h := (triple_putVar w memory val).ok hm.holds hput
    exact ⟨h.sound, h.written, h.pos, getVar_written hm h⟩
  · intro val
    cases w with
    | u32 => exact zigzagDecode_zigzagEncode val
    | u64 => exact zigzagDecode_zigzagEncode val

end Libca.Core
