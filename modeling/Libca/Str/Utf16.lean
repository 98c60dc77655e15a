import Libca.Str.Conversion

/-!
# UTF-16 and UTF-8 are converted both ways (`str/conversion.cpp`)

* `ProperlyPaired`: code units in which every surrogate stands in a pair.
* `properlyPaired_iff`: these are the code units of the strings of characters.
* `properlyPaired_of_utf16Loop`: the loops over code units succeed on no others.
* `utf16_utf8_inverse`: the conversions between UTF-16 and UTF-8 are inverse to each other, and
  each writes the number of units that its length function says.
-/

namespace Libca.Str

open Common

/-- Every surrogate is properly paired: a lead surrogate stands before a trail surrogate, which has
no other place. -/
inductive ProperlyPaired : List Nat → Prop
  | nil : ProperlyPaired []
  | unit {unit : Nat} {rest : List Nat} : isLeadSurrogate unit = false →
      isTrailSurrogate unit = false → ProperlyPaired rest → ProperlyPaired (unit :: rest)
  | pair {high low : Nat} {rest : List Nat} : isLeadSurrogate high = true →
      isTrailSurrogate low = true → ProperlyPaired rest → ProperlyPaired (high :: low :: rest)

/-! ## The loops -/

variable {units : List Nat}

theorem properlyPaired_of_utf16Loop {α : Type} {emit : α → Nat → α} {out out' : α}
    (h : utf16Loop emit out units = some out') : ProperlyPaired units := by
  induction out, units using utf16Loop.induct emit with
  | case1 out => exact .nil
  | case2 out unit hlead =>
    rw [utf16Loop, if_pos hlead] at h
    cases h
  | case3 out unit hlead htrail =>
    rw [utf16Loop, if_neg hlead, if_pos htrail] at h
    cases h
  | case4 out unit hlead htrail =>
    exact .unit (Bool.eq_false_of_not_eq_true hlead) (Bool.eq_false_of_not_eq_true htrail) .nil
  | case5 out unit next rest hlead htrail ih =>
    rw [utf16Loop, if_pos hlead, if_pos htrail] at h
    exact .pair hlead htrail (ih h)
  | case6 out unit next rest hlead htrail =>
    rw [utf16Loop, if_pos hlead, if_neg htrail] at h
    cases h
  | case7 out unit next rest hlead htrail =>
    rw [utf16Loop, if_neg hlead, if_pos htrail] at h
    cases h
  | case8 out unit next rest hlead htrail ih =>
    rw [utf16Loop, if_neg hlead, if_neg htrail] at h
    exact .unit (Bool.eq_false_of_not_eq_true hlead) (Bool.eq_false_of_not_eq_true htrail) (ih h)

/-! ## Characters -/

theorem utf16OfChars_cons (c : Char) (cs : List Char) :
    utf16OfChars (c :: cs) = utf16Units c.toNat ++ utf16OfChars cs := rfl

/-- A code unit that is no surrogate is a character. -/
theorem exists_char_unit {unit : Nat} (hunit : unit < 0x10000)
    (hlead : isLeadSurrogate unit = false) (htrail : isTrailSurrogate unit = false) :
    ∃ c : Char, utf16Units c.toNat = [unit] := by
  unfold isLeadSurrogate at hlead
  unfold isTrailSurrogate at htrail
  simp only [decide_eq_false_iff_not] at hlead htrail
  refine ⟨Char.ofNat unit, ?_⟩
  rw [toNat_ofNat (by omega), utf16Units, if_neg (by omega)]

/-- A pair of surrogates is a character. -/
theorem exists_char_pair {high low : Nat} (hlead : isLeadSurrogate high = true)
    (htrail : isTrailSurrogate low = true) : ∃ c : Char, utf16Units c.toNat = [high, low] := by
  unfold isLeadSurrogate at hlead
  unfold isTrailSurrogate at htrail
  simp only [decide_eq_true_eq] at hlead htrail
  obtain ⟨cp, hcp⟩ : ∃ cp, cp = 0x10000 + (high - 0xD800) * 2 ^ 10 + (low - 0xDC00) := ⟨_, rfl⟩
  have hhigh : (cp - 0x10000) >>> 10 = (cp - 0x10000) / 1024 := Nat.shiftRight_eq_div_pow _ 10
  have hlow : (cp - 0x10000) &&& 0x03FF = (cp - 0x10000) % 1024 :=
    Nat.and_two_pow_sub_one_eq_mod _ 10
  refine ⟨Char.ofNat cp, ?_⟩
  rw [toNat_ofNat (by omega), utf16Units, if_pos (by omega)]
  unfold encodePair
  simp only [hhigh, hlow, List.cons.injEq, and_true]
  omega

theorem exists_chars_of_properlyPaired (h : ProperlyPaired units)
    (hunits : ∀ unit ∈ units, unit < 0x10000) : ∃ cs, units = utf16OfChars cs := by
  induction h with
  | nil => exact ⟨[], rfl⟩
  | unit hlead htrail _ ih =>
    obtain ⟨hunit, hrest⟩ := List.forall_mem_cons.mp hunits
    obtain ⟨cs, rfl⟩ := ih hrest
    obtain ⟨c, hc⟩ := exists_char_unit hunit hlead htrail
    refine ⟨c :: cs, ?_⟩
    rw [utf16OfChars_cons, hc]
    rfl
  | pair hlead htrail _ ih =>
    obtain ⟨-, hrest⟩ := List.forall_mem_cons.mp hunits
    obtain ⟨cs, rfl⟩ := ih (List.forall_mem_cons.mp hrest).2
    obtain ⟨c, hc⟩ := exists_char_pair hlead htrail
    refine ⟨c :: cs, ?_⟩
    rw [utf16OfChars_cons, hc]
    rfl

/-- **Properly paired code units are those of the strings of characters.** -/
theorem properlyPaired_iff (hunits : ∀ unit ∈ units, unit < 0x10000) :
    ProperlyPaired units ↔ ∃ cs, units = utf16OfChars cs := by
  refine ⟨fun h => exists_chars_of_properlyPaired h hunits, ?_⟩
  rintro ⟨cs, rfl⟩
  exact properlyPaired_of_utf16Loop (utf16Loop_utf16OfChars (fun _ _ => ()) cs ())

/-- The code units of characters are 16 bits wide. -/
theorem utf16OfChars_lt (cs : List Char) : ∀ unit ∈ utf16OfChars cs, unit < 0x10000 := by
  intro unit hunit
  obtain ⟨c, -, hc⟩ := List.mem_flatMap.mp hunit
  have hscalar := toNat_scalar c
  unfold utf16Units encodePair at hc
  split_ifs at hc with h
  · have hhigh : (c.toNat - 0x10000) >>> 10 = (c.toNat - 0x10000) / 1024 :=
      Nat.shiftRight_eq_div_pow _ 10
    have hlow : (c.toNat - 0x10000) &&& 0x03FF = (c.toNat - 0x10000) % 1024 :=
      Nat.and_two_pow_sub_one_eq_mod _ 10
    simp only [hhigh, hlow, List.mem_cons, List.not_mem_nil, or_false] at hc
    omega
  · obtain rfl := List.mem_singleton.mp hc
    omega

/-- Code units that are not properly paired are refused, with and without a status. -/
theorem utf16ToUtf8_unpaired (h : ¬ ProperlyPaired units) :
    utf16ToUtf8 units = [] ∧ utf16ToUtf8Length units = 0 ∧
      utf16ToUtf8Owned units =
        .error (invalidSequence (ascii "utf16_to_utf8: unpaired surrogate")) := by
  have hloop : ∀ {α : Type} (emit : α → Nat → α) (out : α), utf16Loop emit out units = none := by
    intro α emit out
    cases hrun : utf16Loop emit out units with
    | none => rfl
    | some out' => exact absurd (properlyPaired_of_utf16Loop hrun) h
  have hlen : utf16ToUtf8Length units = 0 := by
    rw [utf16ToUtf8Length, hloop, Option.getD_none]
  have hne : units.isEmpty = false := by
    cases units with
    | nil => exact absurd .nil h
    | cons unit units => rfl
  refine ⟨by rw [utf16ToUtf8, hloop, Option.getD_none], hlen, ?_⟩
  unfold utf16ToUtf8Owned
  rw [hne, if_neg Bool.false_ne_true, if_pos hlen]

/-- The conversion of `units` to UTF-8 is one that is undone. -/
structure ToUtf8 (units : List Nat) (bytes : Bytes) : Prop where
  raw : utf16ToUtf8 units = bytes
  owned : utf16ToUtf8Owned units = .ok bytes
  length : utf16ToUtf8Length units = bytes.length
  valid : IsUtf8 bytes

/-- The conversion of `bytes` to UTF-16 is one that is undone. -/
structure ToUtf16 (bytes : Bytes) (units : List Nat) : Prop where
  raw : utf8ToUtf16 bytes = units
  owned : utf8ToUtf16Owned bytes = .ok units
  length : utf8ToUtf16Length bytes = units.length
  wide : ∀ unit ∈ units, unit < 0x10000

theorem toUtf8_utf16OfChars (cs : List Char) : ToUtf8 (utf16OfChars cs) (encode cs) :=
  ⟨utf16ToUtf8_utf16OfChars cs, utf16ToUtf8Owned_utf16OfChars cs, utf16ToUtf8Length_utf16OfChars cs,
    isUtf8_encode cs⟩

theorem toUtf16_encode (cs : List Char) : ToUtf16 (encode cs) (utf16OfChars cs) where
  raw := utf8ToUtf16_encode cs
  owned := utf8ToUtf16Owned_encode cs
  length := by
    rw [← flatten_utf8EncodeChar, utf8ToUtf16Length_flatten (sequences_encode notScalar_toNat cs),
      utf16OfSequences_utf8EncodeChar]
  wide := utf16OfChars_lt cs

/-- **UTF-16 and UTF-8 are converted both ways.** Code units are converted to UTF-8 if and only if
every surrogate is properly paired, and back to the same units; valid UTF-8 is converted to code
units, and back to the same bytes. What is written is as long as the length functions say. -/
theorem utf16_utf8_inverse :
    (∀ units : List UInt16,
      ((∃ bytes, utf16ToUtf8Owned (units.map UInt16.toNat) = .ok bytes) ↔
          ProperlyPaired (units.map UInt16.toNat)) ∧
        (units ≠ [] → (utf16ToUtf8 (units.map UInt16.toNat) ≠ [] ↔
          ProperlyPaired (units.map UInt16.toNat))) ∧
        (ProperlyPaired (units.map UInt16.toNat) →
          ∃ bytes, ToUtf8 (units.map UInt16.toNat) bytes ∧
            ToUtf16 bytes (units.map UInt16.toNat))) ∧
      ∀ text : Bytes, IsUtf8 text → ∃ units, ToUtf16 text units ∧ ToUtf8 units text := by
  refine ⟨fun units => ?_, ?_⟩
  · have hunits : ∀ unit ∈ units.map UInt16.toNat, unit < 0x10000 := by
      intro unit hunit
      obtain ⟨u, -, rfl⟩ := List.mem_map.mp hunit
      exact u.toNat_lt
    have hback : ProperlyPaired (units.map UInt16.toNat) →
        ∃ bytes, ToUtf8 (units.map UInt16.toNat) bytes ∧
          ToUtf16 bytes (units.map UInt16.toNat) := by
      intro h
      obtain ⟨cs, hcs⟩ := (properlyPaired_iff hunits).mp h
      rw [hcs]
      exact ⟨encode cs, toUtf8_utf16OfChars cs, toUtf16_encode cs⟩
    refine ⟨⟨?_, fun h => ?_⟩, fun hne => ⟨?_, fun h => ?_⟩, hback⟩
    · rintro ⟨bytes, hbytes⟩
      by_contra h
      rw [(utf16ToUtf8_unpaired h).2.2] at hbytes
      cases hbytes
    · obtain ⟨bytes, hto, -⟩ := hback h
      exact ⟨bytes, hto.owned⟩
    · intro hbytes
      by_contra h
      exact hbytes (utf16ToUtf8_unpaired h).1
    · obtain ⟨bytes, hto, hfrom⟩ := hback h
      rw [hto.raw]
      rintro rfl
      have hnil : units.map UInt16.toNat = [] := hfrom.raw.symm
      exact hne (List.map_eq_nil_iff.mp hnil)
  · rintro text ⟨cs, rfl⟩
    exact ⟨utf16OfChars cs, toUtf16_encode cs, toUtf8_utf16OfChars cs⟩

end Libca.Str
