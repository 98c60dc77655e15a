import Libca.Common.Bytes

/-!
# Little-endian numbers in a byte string

* `toLe w n`: the `w` low bytes of `n`, the least significant first; `ofLe`: their value.
  `ofLe_toLe`: together they reduce `n` modulo `256 ^ w`.
* `readLe`: the number of a given width at an offset of a byte string, when it lies in the string.
  `readLe_of_prefix`: it is the number that was written there.
-/

namespace Libca.Common

/-- The `w` low bytes of a number, the least significant first. -/
def toLe : Nat → Nat → Bytes
  | 0, _ => []
  | w + 1, n => UInt8.ofNat n :: toLe w (n / 256)

/-- The number that bytes stand for. -/
def ofLe : Bytes → Nat
  | [] => 0
  | b :: bs => b.toNat + 256 * ofLe bs

@[simp] theorem length_toLe (w n : Nat) : (toLe w n).length = w := by
  induction w generalizing n with
  | zero => rfl
  | succ w ih => rw [toLe, List.length_cons, ih]

/-- **Writing a number and reading it** reduces it to its width. -/
theorem ofLe_toLe (w n : Nat) : ofLe (toLe w n) = n % 256 ^ w := by
  induction w generalizing n with
  | zero => rw [toLe, ofLe, Nat.pow_zero, Nat.mod_one]
  | succ w ih =>
    have hsplit : n % (256 * 256 ^ w) = n % 256 + 256 * (n / 256 % 256 ^ w) := Nat.mod_mul
    rw [toLe, ofLe, ih, UInt8.toNat_ofNat', Nat.pow_succ (n := 256), Nat.mul_comm (256 ^ w), hsplit]

theorem ofLe_lt (bs : Bytes) : ofLe bs < 256 ^ bs.length := by
  induction bs with
  | nil => exact Nat.one_pos
  | cons b bs ih =>
    have hb : b.toNat < 256 := b.toNat_lt
    rw [ofLe, List.length_cons, Nat.pow_succ]
    omega

/-- **Reading a number and writing it** gives the bytes back. -/
theorem toLe_ofLe (bs : Bytes) : toLe bs.length (ofLe bs) = bs := by
  induction bs with
  | nil => rfl
  | cons b bs ih =>
    have hb : b.toNat < 256 := b.toNat_lt
    have hhigh : (b.toNat + 256 * ofLe bs) / 256 = ofLe bs := by omega
    have hlow : UInt8.ofNat (b.toNat + 256 * ofLe bs) = b := by
      rw [← UInt8.toNat_inj, UInt8.toNat_ofNat']
      omega
    rw [List.length_cons, ofLe, toLe, hhigh, hlow, ih]

/-- The number of `w` bytes at the offset `p`. -/
def readLe (w : Nat) (data : Bytes) (p : Nat) : Option Nat :=
  if p + w ≤ data.length then some (ofLe ((data.drop p).take w)) else none

theorem readLe_lt {w p v : Nat} {data : Bytes} (h : readLe w data p = some v) : v < 256 ^ w := by
  unfold readLe at h
  split_ifs at h with hfits
  cases h
  have hlength : ((data.drop p).take w).length = w := by
    rw [List.length_take, List.length_drop]
    omega
  have hlt := ofLe_lt ((data.drop p).take w)
  rwa [hlength] at hlt

/-- **A number is read where it was written.** -/
theorem readLe_of_prefix {w n p : Nat} {data rest : Bytes}
    (h : toLe w n ++ rest <+: data.drop p) (hw : 0 < w) : readLe w data p = some (n % 256 ^ w) := by
  obtain ⟨after, hafter⟩ := h
  have hlength := congrArg List.length hafter
  rw [List.length_append, List.length_append, length_toLe, List.length_drop] at hlength
  unfold readLe
  rw [if_pos (by omega), ← hafter, List.append_assoc, List.take_left' (length_toLe w n), ofLe_toLe]

/-- A field of a record that stands at an offset. -/
theorem readLe_field {w n p k : Nat} {data record rest : Bytes} (h : record <+: data.drop p)
    (hfield : record.drop k = toLe w n ++ rest) (hw : 0 < w) :
    readLe w data (p + k) = some (n % 256 ^ w) := by
  have hdrop : toLe w n ++ rest <+: data.drop (p + k) := by
    rw [← hfield, ← List.drop_drop]
    exact h.drop k
  exact readLe_of_prefix hdrop hw

end Libca.Common
