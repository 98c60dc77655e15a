import Libca.Str.Lossy
import Libca.Str.Conversion

/-!
# Which strings are decoded lossily (`str/os_string.cpp`)

The scan of `OsString::from_utf8_lossy` keeps every first byte with the continuation bytes it asks
for. The string is built from the result when all of these encode characters, and only then.

* `isUtf8_sequence_append`: valid text starts with the encoding of a character.
* `isUtf8_lossyScan`: **the scan leaves valid text just when every such sequence in it encodes a
  character.**
* `decodesLossily_iff`: **so the function returns a valid string, and the string itself when that is
  valid, just then.** `not_decodesLossily`: it throws on an overlong form.
-/

namespace Libca.Str

open Common

/-- What a lossy conversion is for: there is a string, it is valid, and a valid one stays as it is.
-/
def DecodesLossily (utf8 : Bytes) : Prop :=
  ∃ text, fromUtf8Lossy utf8 = some text ∧ isValid text = true ∧ (isValid utf8 = true → text = utf8)

/-- Every sequence in a string encodes a character. -/
def SequencesEncode (data : Bytes) : Prop :=
  ∀ seq, IsSequence seq → seq <:+: data → ∃ c, seq = String.utf8EncodeChar c

variable {seq rest data : Bytes} {b : UInt8}

/-! ## Sequences -/

theorem isSequence_iff : IsSequence seq ↔ ∃ lead continuation, seq = lead :: continuation ∧
    codePointBytes lead = continuation.length + 1 ∧ ∀ b ∈ continuation, 0x80 ≤ b.toNat ∧
      b.toNat < 0xC0 := by
  constructor
  · rintro ⟨hne, hlen, hcont⟩
    obtain ⟨lead, continuation, rfl⟩ := List.exists_cons_of_ne_nil hne
    exact ⟨lead, continuation, rfl, hlen, hcont⟩
  · rintro ⟨lead, continuation, rfl, hlen, hcont⟩
    exact ⟨List.cons_ne_nil _ _, hlen, hcont⟩

/-- What the scan keeps is a sequence. -/
theorem sequenceOk_iff :
    sequenceOk data = true ↔ ∃ seq rest, IsSequence seq ∧ data = seq ++ rest := by
  constructor
  · intro h
    cases data with
    | nil => cases h
    | cons b rest =>
      obtain ⟨hlen, hall⟩ := Bool.and_eq_true_iff.mp h
      obtain ⟨hpos, hle⟩ := of_decide_eq_true hlen
      rw [List.length_cons] at hle
      refine ⟨b :: rest.take (codePointBytes b - 1), rest.drop (codePointBytes b - 1),
        isSequence_iff.mpr ⟨b, _, rfl, ?_, ?_⟩, ?_⟩
      · rw [List.length_take]
        omega
      · intro c hc
        have hcont := List.all_eq_true.mp hall c hc
        exact (continuation_iff c).mp (by rw [bne, hcont]; rfl)
      · rw [List.cons_append, List.take_append_drop]
  · rintro ⟨seq, rest, hseq, rfl⟩
    obtain ⟨lead, continuation, rfl, hlen, hcont⟩ := isSequence_iff.mp hseq
    refine Bool.and_eq_true_iff.mpr ⟨decide_eq_true ⟨by omega, ?_⟩, List.all_eq_true.mpr fun c hc =>
      ?_⟩
    · rw [hlen, List.cons_append, List.length_cons, List.length_append]
      omega
    · change c ∈ (continuation ++ rest).take (codePointBytes lead - 1) at hc
      rw [hlen, Nat.add_sub_cancel, List.take_left] at hc
      have heq := (continuation_iff c).mpr (hcont c hc)
      rw [bne] at heq
      simpa using heq

/-- One sequence is at the front of a text at most. -/
theorem IsSequence.unique {seq' rest' : Bytes} (h : IsSequence seq) (h' : IsSequence seq')
    (heq : seq ++ rest = seq' ++ rest') : seq = seq' ∧ rest = rest' := by
  obtain ⟨lead, continuation, rfl, hlen, -⟩ := isSequence_iff.mp h
  obtain ⟨lead', continuation', rfl, hlen', -⟩ := isSequence_iff.mp h'
  obtain ⟨rfl, -⟩ := List.cons_eq_cons.mp heq
  exact List.append_inj heq (by rw [List.length_cons, List.length_cons]; omega)

/-- **Valid text starts with the encoding of a character.** -/
theorem isUtf8_sequence_append (hseq : IsSequence seq) :
    IsUtf8 (seq ++ rest) ↔ (∃ c, seq = String.utf8EncodeChar c) ∧ IsUtf8 rest := by
  constructor
  · rintro ⟨cs, hcs⟩
    cases cs with
    | nil =>
      exact absurd (List.append_eq_nil_iff.mp hcs).1 hseq.1
    | cons c cs =>
      obtain ⟨hc, hrest⟩ := hseq.unique (isSequence_utf8EncodeChar c) hcs
      exact ⟨⟨c, hc⟩, cs, hrest⟩
  · rintro ⟨⟨c, rfl⟩, cs, rfl⟩
    exact ⟨c :: cs, rfl⟩

/-- A sequence lies at the front of a text that starts with one, or behind that. -/
theorem IsSequence.infix_append {seq' : Bytes} (h : IsSequence seq) (h' : IsSequence seq')
    (hin : seq <:+: seq' ++ rest) : seq = seq' ∨ seq <:+: rest := by
  obtain ⟨lead', continuation', rfl, hlen', hcont'⟩ := isSequence_iff.mp h'
  change seq <:+: lead' :: (continuation' ++ rest) at hin
  rcases List.infix_cons_iff.mp hin with ⟨tail, htail⟩ | hbehind
  · exact .inl (h.unique h' htail).1
  · -- A first byte is no continuation byte.
    refine .inr ?_
    obtain ⟨lead, continuation, rfl, hlen, -⟩ := isSequence_iff.mp h
    have hlead : ∀ b ∈ continuation', lead ≠ b := by
      rintro b hb rfl
      have hrange := hcont' _ hb
      rw [codePointBytes_eq, if_neg (by omega), if_pos hrange.2] at hlen
      omega
    clear hin hlen' hcont' h'
    induction continuation' with
    | nil => exact hbehind
    | cons b bs ih =>
      obtain ⟨hne, hlead⟩ := List.forall_mem_cons.mp hlead
      rcases List.infix_cons_iff.mp hbehind with hstarts | hbehind
      · exact absurd (List.cons_prefix_cons.mp hstarts).1 hne
      · exact ih hbehind hlead

/-! ## The scan -/

/-- **The scan leaves valid text just when every sequence in it encodes a character.** -/
theorem isUtf8_lossyScan (data : Bytes) : IsUtf8 (lossyScan data) ↔ SequencesEncode data := by
  fun_induction lossyScan data with
  | case1 =>
    exact iff_of_true isUtf8_nil fun seq hseq hin => absurd (List.infix_nil.mp hin) hseq.1
  | case2 b rest hok ih =>
    obtain ⟨seq, tail, hseq, hdata⟩ := sequenceOk_iff.mp hok
    have hlen : codePointBytes b = seq.length := by
      obtain ⟨lead, continuation, rfl, hlen, -⟩ := isSequence_iff.mp hseq
      rw [(List.cons_eq_cons.mp hdata).1]
      exact hlen
    rw [hdata, hlen, List.drop_left] at ih
    rw [hdata, hlen, List.take_left, List.drop_left, isUtf8_sequence_append hseq, ih]
    constructor
    · rintro ⟨hchar, h⟩ seq' hseq' hin
      rcases hseq'.infix_append hseq hin with rfl | hin
      · exact hchar
      · exact h seq' hseq' hin
    · intro h
      exact ⟨h seq hseq (List.prefix_append ..).isInfix,
        fun seq' hseq' hin => h seq' hseq' (hin.trans (List.suffix_append ..).isInfix)⟩
  | case3 b rest hok ih =>
    have hreplacement : replacementBytes = String.utf8EncodeChar (Char.ofNat 0xFFFD) := by decide
    rw [hreplacement, isUtf8_sequence_append (isSequence_utf8EncodeChar _), and_iff_right ⟨_, rfl⟩,
      ih]
    constructor
    · intro h seq hseq hin
      rcases List.infix_cons_iff.mp hin with ⟨tail, htail⟩ | hin
      · exact absurd (sequenceOk_iff.mpr ⟨seq, tail, hseq, htail.symm⟩) hok
      · exact h seq hseq hin
    · exact fun h seq hseq hin => h seq hseq (List.infix_cons hin)

/-- **The function returns a valid string, and the string itself when that is valid, just when every
sequence in the string encodes a character.** -/
theorem decodesLossily_iff (utf8 : Bytes) : DecodesLossily utf8 ↔ SequencesEncode utf8 := by
  rw [← isUtf8_lossyScan]
  constructor
  · rintro ⟨text, htext, -⟩
    exact (fromUtf8Lossy_eq_some.mp htext).1
  · intro h
    refine ⟨lossyScan utf8, fromUtf8Lossy_eq_some.mpr ⟨h, rfl⟩, isValid_iff.mpr h, fun hvalid => ?_⟩
    exact (fromUtf8Lossy_eq_some.mp (fromUtf8Lossy_of_isUtf8 (isValid_iff.mp hvalid))).2

/-- An overlong form of NUL. -/
theorem not_decodesLossily : ¬ ∀ utf8, DecodesLossily utf8 := by
  intro h
  obtain ⟨text, htext, -⟩ := h [0xC0, 0x80]
  have hencode := (isUtf8_lossyScan [0xC0, 0x80]).mp (fromUtf8Lossy_eq_some.mp htext).1
  obtain ⟨c, hc⟩ := hencode [0xC0, 0x80] ⟨by decide, by decide, by decide⟩ (List.infix_refl _)
  have hvalid : IsUtf8 [0xC0, 0x80] := ⟨[c], by rw [hc, encode_cons, encode_nil, List.append_nil]⟩
  exact absurd (isValid_iff.mpr hvalid) (by decide)

end Libca.Str
