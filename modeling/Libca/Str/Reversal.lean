import Libca.Str.Utf16

/-!
# Reversing UTF-16 strings (`str/utf16_string.cpp` 623-642)

`Utf16StringBuilder::reverse` walks over its code units backwards and looks two of them behind, so
that a pair of surrogates keeps its order.

* `reverseLoop_utf16OfChars`: on the code units of characters the walk goes character by character.
* `reverseLoop_perm`: on any code units it takes each of them once.
* `reverse_characters`: **characters are reversed**, and code units of any kind are permuted.
-/

namespace Libca.Str

/-- The loop of `Utf16StringBuilder::reverse`, from the position `i` down. -/
def reverseLoop (buffer : List Nat) : Nat → List Nat → List Nat
  | 0, reversed => reversed
  | 1, reversed => reversed ++ [buffer.getD 0 0]
  | i + 2, reversed =>
    let current := buffer.getD (i + 1) 0
    if isTrailSurrogate current && isLeadSurrogate (buffer.getD i 0) then
      reverseLoop buffer i (reversed ++ [buffer.getD i 0, current])
    else reverseLoop buffer (i + 1) (reversed ++ [current])

/-- `Utf16StringBuilder::reverse`. -/
def reverse (buffer : List Nat) : List Nat := reverseLoop buffer buffer.length []

example : reverse [0x61, 0xD83D, 0xDE00, 0xDE00] = [0xDE00, 0xD83D, 0xDE00, 0x61] := by decide

/-- The code units of a character are one that is no trail surrogate, or a pair of surrogates. -/
theorem utf16Units_cases (c : Char) :
    (∃ unit, utf16Units c.toNat = [unit] ∧ isTrailSurrogate unit = false) ∨
      ∃ high low, utf16Units c.toNat = [high, low] ∧ isLeadSurrogate high = true ∧
        isTrailSurrogate low = true := by
  have hc := toNat_scalar c
  unfold utf16Units
  by_cases hpair : 0x10000 ≤ c.toNat
  · obtain ⟨hlead, htrail, -⟩ := decodePair_encodePair hpair (by omega)
    rw [if_pos hpair]
    exact .inr ⟨_, _, rfl, hlead, htrail⟩
  · rw [if_neg hpair]
    refine .inl ⟨_, rfl, ?_⟩
    simp only [isTrailSurrogate, decide_eq_false_iff_not]
    omega

section

variable {before after reversed : List Nat}

/-- A code unit that is no trail surrogate is taken alone. -/
theorem reverseLoop_unit {unit : Nat} (hunit : isTrailSurrogate unit = false) :
    reverseLoop (before ++ unit :: after) (before.length + 1) reversed =
      reverseLoop (before ++ unit :: after) before.length (reversed ++ [unit]) := by
  have hget : (before ++ unit :: after).getD before.length 0 = unit := by simp
  cases hlength : before.length with
  | zero =>
    obtain rfl := List.length_eq_zero_iff.mp hlength
    rfl
  | succ n =>
    rw [hlength] at hget
    rw [reverseLoop, hget, hunit, Bool.false_and, if_neg Bool.false_ne_true]

/-- A pair of surrogates is taken together. -/
theorem reverseLoop_pair {high low : Nat} (hlead : isLeadSurrogate high = true)
    (htrail : isTrailSurrogate low = true) :
    reverseLoop (before ++ high :: low :: after) (before.length + 2) reversed =
      reverseLoop (before ++ high :: low :: after) before.length (reversed ++ [high, low]) := by
  have hhigh : (before ++ high :: low :: after).getD before.length 0 = high := by simp
  have hlow : (before ++ high :: low :: after).getD (before.length + 1) 0 = low := by simp
  rw [reverseLoop, hlow, hhigh, htrail, hlead, Bool.and_true, if_pos rfl]

end

/-- **The walk goes character by character.** -/
theorem reverseLoop_utf16OfChars (cs : List Char) (after reversed : List Nat) :
    reverseLoop (utf16OfChars cs ++ after) (utf16OfChars cs).length reversed =
      reversed ++ utf16OfChars cs.reverse := by
  induction cs using List.reverseRecOn generalizing after reversed with
  | nil => simp [utf16OfChars, reverseLoop]
  | append_singleton cs c ih =>
    have hsplit : utf16OfChars (cs ++ [c]) = utf16OfChars cs ++ utf16Units c.toNat := by
      simp [utf16OfChars]
    have hreverse : utf16OfChars (cs ++ [c]).reverse = utf16Units c.toNat ++
      utf16OfChars cs.reverse := by
      rw [List.reverse_append]
      rfl
    rw [hsplit, hreverse]
    rcases utf16Units_cases c with ⟨unit, hunits, hunit⟩ | ⟨high, low, hunits, hlead, htrail⟩
    · rw [hunits, List.append_assoc, List.length_append]
      exact (reverseLoop_unit hunit).trans ((ih _ _).trans (List.append_assoc ..))
    · rw [hunits, List.append_assoc, List.length_append]
      exact (reverseLoop_pair hlead htrail).trans ((ih _ _).trans (List.append_assoc ..))

/-- **The walk takes each code unit once.** -/
theorem reverseLoop_perm (buffer : List Nat) (i : Nat) (reversed : List Nat)
    (hi : i ≤ buffer.length) :
    (reverseLoop buffer i reversed).Perm (reversed ++ buffer.take i) := by
  have htake : ∀ j < buffer.length, buffer.take (j + 1) = buffer.take j ++ [buffer.getD j 0] := by
    intro j hj
    rw [List.take_succ_eq_append_getElem hj, List.getD_eq_getElem?_getD,
      List.getElem?_eq_getElem hj, Option.getD_some]
  fun_induction reverseLoop buffer i reversed with
  | case1 reversed => simp
  | case2 reversed => rw [htake 0 hi, List.take_zero, List.nil_append]
  | case3 i reversed current hpair ih =>
    refine (ih (by omega)).trans ?_
    rw [htake (i + 1) (by omega), htake i (by omega), List.append_assoc, List.append_assoc]
    exact List.perm_append_comm.append_left reversed
  | case4 i reversed current hpair ih =>
    refine (ih (by omega)).trans ?_
    rw [htake (i + 1) (by omega), List.append_assoc]
    exact List.perm_append_comm.append_left reversed

/-- **Reversing reverses characters**: the code units of a string become those of the reversed
string. Whatever the code units are, they stay as many and the same. -/
theorem reverse_characters :
    (∀ cs : List Char, reverse (utf16OfChars cs) = utf16OfChars cs.reverse) ∧
      ∀ units : List Nat, (reverse units).length = units.length ∧ (reverse units).Perm units := by
  constructor
  · intro cs
    have hwalk := reverseLoop_utf16OfChars cs [] []
    rwa [List.append_nil, List.nil_append] at hwalk
  · intro units
    have hperm := reverseLoop_perm units units.length [] (le_rfl)
    rw [List.take_length, List.nil_append] at hperm
    exact ⟨hperm.length_eq, hperm⟩

end Libca.Str
