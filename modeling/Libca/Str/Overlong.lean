import Libca.Str.Conversion

/-!
# Overlong sequences (`str/utf8_util.cpp`)

The conversions look at the first byte of a sequence, its continuation bytes and its value. They do
not see that a sequence is longer than its value needs, which `utf8_is_valid` does.

* `utf8ToUtf32Length_ne_zero`: what `utf8_to_utf32_length` accepts.
* `sequences_unique`: a text is made of sequences in one way.
* `isUtf8_iff`: **valid UTF-8 is what the conversions accept, without overlong sequences**.
-/

namespace Libca.Str

open Common

/-- A sequence that is longer than the encoding of its value. -/
def Overlong (p : Bytes) : Prop := encoded (decodeCodePoint p) ≠ p

/-- A text of sequences with scalar values, one of which is overlong. -/
def OverlongText (text : Bytes) : Prop :=
  ∃ ps, text = ps.flatten ∧ Sequences notScalar ps ∧ ∃ p ∈ ps, Overlong p

/-- **What `utf8_to_utf32_length` accepts.** -/
theorem utf8ToUtf32Length_ne_zero {s : Bytes} (hs : s ≠ []) :
    utf8ToUtf32Length s ≠ 0 ↔ ScansTo notScalar s := by
  constructor
  · intro h
    cases hscan : scanLoop notScalar (fun (count : Nat) _ => count + 1) 0 0 s with
    | none => exact absurd (by rw [utf8ToUtf32Length, hscan, Option.getD_none]) h
    | some count => exact exists_sequences hscan
  · rintro ⟨ps, rfl, hps⟩
    have hcount : ∀ n, ps.foldl (fun count _ => count + 1) n = n + ps.length := by
      intro n
      have hfold := foldl_add_length (fun p : Bytes => [p]) ps n
      rwa [List.flatMap_singleton'] at hfold
    rw [utf8ToUtf32Length, scanLoop_flatten hps, Option.getD_some, hcount, Nat.zero_add]
    exact List.length_pos_iff.mpr (ne_nil_of_flatten hs) |>.ne'

/-- **A text is made of sequences in one way.** -/
theorem sequences_unique {ps qs : List Bytes} (hps : ∀ p ∈ ps, IsSequence p)
    (hqs : ∀ q ∈ qs, IsSequence q) (h : ps.flatten = qs.flatten) : ps = qs := by
  induction ps generalizing qs with
  | nil =>
    cases qs with
    | nil => rfl
    | cons q qs =>
      have hq := hqs q (.head _)
      rw [List.flatten_nil, List.flatten_cons] at h
      exact absurd (List.append_eq_nil_iff.mp h.symm).1 hq.1
  | cons p ps ih =>
    cases qs with
    | nil =>
      have hp := hps p (.head _)
      rw [List.flatten_nil, List.flatten_cons] at h
      exact absurd (List.append_eq_nil_iff.mp h).1 hp.1
    | cons q qs =>
      have hp := hps p (.head _)
      have hq := hqs q (.head _)
      rw [List.flatten_cons, List.flatten_cons] at h
      -- the first byte says how long the first sequence is
      have hlength : p.length = q.length := by
        have hnext := nextSequence_append hp ps.flatten
        rw [h, nextSequence_append hq qs.flatten] at hnext
        exact (Option.some.inj hnext).symm
      obtain ⟨rfl, hrest⟩ := List.append_inj h hlength
      rw [ih (fun r hr => hps r (.tail _ hr))
        (fun r hr => hqs r (.tail _ hr)) hrest]

/-- A sequence with a scalar value that is not overlong is an encoded character. -/
theorem exists_char_of_shortest {p : Bytes} (hvalue : notScalar (decodeCodePoint p) = false)
    (hshort : ¬ Overlong p) : ∃ c : Char, String.utf8EncodeChar c = p := by
  simp only [notScalar, decide_eq_false_iff_not] at hvalue
  refine ⟨Char.ofNat (decodeCodePoint p), ?_⟩
  rw [← encoded_toNat, toNat_ofNat (by omega)]
  exact not_not.mp hshort

/-- An encoded character is not overlong. -/
theorem not_overlong_utf8EncodeChar (c : Char) : ¬ Overlong (String.utf8EncodeChar c) := by
  have hdecode := decodeCodePoint_utf8EncodeChar c []
  rw [List.append_nil] at hdecode
  rw [Overlong, hdecode, encoded_toNat]
  exact not_not.mpr rfl

/-- **Valid UTF-8 is made of sequences with scalar values, none of them overlong.** -/
theorem isUtf8_iff {s : Bytes} : IsUtf8 s ↔ ScansTo notScalar s ∧ ¬ OverlongText s := by
  constructor
  · rintro ⟨cs, rfl⟩
    have hcs := sequences_encode notScalar_toNat cs
    have hflatten := flatten_utf8EncodeChar cs
    refine ⟨⟨_, hflatten.symm, hcs⟩, ?_⟩
    rintro ⟨ps, htext, hps, p, hp, hlong⟩
    obtain rfl := sequences_unique (fun q hq => (hcs q hq).1) (fun q hq => (hps q hq).1)
      (hflatten.trans htext)
    obtain ⟨c, -, rfl⟩ := List.mem_map.mp hp
    exact not_overlong_utf8EncodeChar c hlong
  · rintro ⟨⟨ps, rfl, hps⟩, hshort⟩
    have hchars : ∀ p ∈ ps, ∃ c : Char, String.utf8EncodeChar c = p := fun p hp =>
      exists_char_of_shortest (hps p hp).2 fun hlong => hshort ⟨ps, rfl, hps, p, hp, hlong⟩
    clear hshort hps
    induction ps with
    | nil => exact isUtf8_nil
    | cons p ps ih =>
      obtain ⟨c, rfl⟩ := hchars p (.head _)
      have hrest := ih fun q hq => hchars q (.tail _ hq)
      exact (show IsUtf8 (String.utf8EncodeChar c) from ⟨[c], by simp⟩).append hrest

end Libca.Str
