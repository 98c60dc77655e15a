import Libca.Str.Utf8

/-!
# Lossy decoding

Model of `OsString::from_utf8_lossy` (`str/os_string.cpp`) where the native encoding is UTF-8. The
scan replaces a byte that begins no sequence; it does not look at the value of a sequence, but the
string that is built from its result does, and throws.

* `lossyScan`: the scan; valid text is left as it is, and an ASCII byte separates what is replaced.
* `fromUtf8Lossy`: the string, or nothing where it throws.
-/

namespace Libca.Str

open Common

/-- `ok`: the bytes at the front are a first byte and as many continuation bytes as it asks for. -/
def sequenceOk (data : Bytes) : Bool :=
  match data with
  | [] => false
  | b :: rest =>
    decide (0 < codePointBytes b ∧ codePointBytes b ≤ data.length) &&
      (rest.take (codePointBytes b - 1)).all fun b => b &&& 0xC0 == 0x80

/-- U+FFFD. -/
def replacementBytes : Bytes := [0xEF, 0xBF, 0xBD]

/-- The loop of the slow path. -/
def lossyScan (data : Bytes) : Bytes :=
  match data with
  | [] => []
  | b :: rest =>
    if _h : sequenceOk (b :: rest) = true then
      (b :: rest).take (codePointBytes b) ++ lossyScan ((b :: rest).drop (codePointBytes b))
    else replacementBytes ++ lossyScan rest
termination_by data.length
decreasing_by
  · have hpos := (of_decide_eq_true (Bool.and_eq_true_iff.mp _h).1).1
    rw [List.length_drop, List.length_cons]
    omega
  · exact Nat.lt_succ_self _

/-- `Utf8String::from_data`; nothing where it throws. -/
def fromData (data : Bytes) : Option Bytes := if isValid data then some data else none

/-- `OsString::from_utf8_lossy`. -/
def fromUtf8Lossy (utf8 : Bytes) : Option Bytes :=
  if isValid utf8 then fromData utf8 else fromData (lossyScan utf8)

/-! ## What the scan leaves -/

theorem lossyScan_nil : lossyScan [] = [] := by rw [lossyScan]

variable {b : UInt8}

theorem lossyScan_ok {rest : Bytes} (h : sequenceOk (b :: rest) = true) :
    lossyScan (b :: rest) =
      (b :: rest).take (codePointBytes b) ++ lossyScan ((b :: rest).drop (codePointBytes b)) := by
  rw [lossyScan, dif_pos h]

theorem lossyScan_replaced {rest : Bytes} (h : ¬ sequenceOk (b :: rest) = true) :
    lossyScan (b :: rest) = replacementBytes ++ lossyScan rest := by
  rw [lossyScan, dif_neg h]

theorem continuation_of_eq (h : (b &&& 0xC0 == 0x80) = true) : 0x80 ≤ b.toNat :=
  ((continuation_iff b).mp (by rw [bne, h]; rfl)).1

variable {data : Bytes}

theorem sequenceOk_of_sequenceLength {len : Nat} (h : sequenceLength data = some len) :
    sequenceOk data = true ∧ len = codePointBytes data.headI := by
  obtain ⟨hne, hlen, hpos, hle, hall, -⟩ := sequenceLength_eq_some.mp h
  obtain ⟨b, rest, rfl⟩ := List.exists_cons_of_ne_nil hne
  rw [List.headI_cons] at hlen ⊢
  rw [List.tail_cons, hlen] at hall
  refine ⟨Bool.and_eq_true_iff.mpr ⟨decide_eq_true ⟨by omega, by omega⟩,
    List.all_eq_true.mpr fun c hc => ?_⟩, hlen⟩
  have hcont := (continuation_iff c).mpr (hall c hc)
  rw [bne] at hcont
  simpa using hcont

/-- **Valid text is left as it is.** -/
theorem lossyScan_encode (cs : List Char) : lossyScan (encode cs) = encode cs := by
  induction cs with
  | nil => rw [encode_nil, lossyScan_nil]
  | cons c cs ih =>
    obtain ⟨b, rest, hcons⟩ := List.exists_cons_of_ne_nil (utf8EncodeChar_ne_nil c)
    obtain ⟨hok, hlen⟩ := sequenceOk_of_sequenceLength (sequenceLength_utf8EncodeChar c (encode cs))
    have hhead : codePointBytes b = (String.utf8EncodeChar c).length := by
      rw [hlen, hcons]
      rfl
    have hcode : encode (c :: cs) = b :: (rest ++ encode cs) := by
      rw [encode_cons, hcons, List.cons_append]
    rw [← encode_cons, hcode] at hok
    rw [hcode, lossyScan_ok hok, hhead, ← hcode, encode_cons, List.take_left, List.drop_left, ih]

variable {c : UInt8}

/-- What is ok in front of an ASCII byte is ok without it, and the other way round. -/
theorem sequenceOk_append {a : UInt8} {as bs : Bytes} (hc : c.toNat < 0x80) :
    sequenceOk (a :: as ++ c :: bs) = sequenceOk (a :: as) := by
  unfold sequenceOk
  rw [List.cons_append]
  dsimp only
  by_cases hle : codePointBytes a ≤ as.length + 1
  · have hlong : codePointBytes a ≤ (a :: (as ++ c :: bs)).length := by
      simp only [List.length_cons, List.length_append]
      omega
    have htake : (as ++ c :: bs).take (codePointBytes a - 1) = as.take (codePointBytes a - 1) :=
      List.take_append_of_le_length (by omega)
    rw [htake]
    have hiff : (0 < codePointBytes a ∧ codePointBytes a ≤ (a :: (as ++ c :: bs)).length) ↔
        (0 < codePointBytes a ∧ codePointBytes a ≤ (a :: as).length) :=
      and_congr_right fun _ => iff_of_true hlong hle
    rw [decide_eq_decide.mpr hiff]
  · -- the sequence would go over the ASCII byte
    have hleft : ((as ++ c :: bs).take (codePointBytes a - 1)).all (fun b => b &&& 0xC0 == 0x80) =
      false := by
      refine List.all_eq_false.mpr ⟨c, ?_, fun h => ?_⟩
      · obtain ⟨n, hn⟩ : ∃ n, codePointBytes a - 1 - as.length = n + 1 :=
          ⟨codePointBytes a - 1 - as.length - 1, by omega⟩
        rw [List.take_append, hn, List.take_succ_cons]
        exact List.mem_append_right _ List.mem_cons_self
      · exact absurd (continuation_of_eq h) (by omega)
    have hright : ¬ (0 < codePointBytes a ∧ codePointBytes a ≤ (a :: as).length) := fun h => hle h.2
    rw [hleft, decide_eq_false hright, Bool.and_false, Bool.false_and]

theorem codePointBytes_ascii (hc : c.toNat < 0x80) : codePointBytes c = 1 := by
  rw [codePointBytes_eq, if_pos hc]

theorem lossyScan_ascii (hc : c.toNat < 0x80) (bs : Bytes) :
    lossyScan (c :: bs) = c :: lossyScan bs := by
  have hok : sequenceOk (c :: bs) = true := by
    unfold sequenceOk
    dsimp only
    rw [codePointBytes_ascii hc]
    simp
  rw [lossyScan_ok hok, codePointBytes_ascii hc]
  rfl

/-- **An ASCII byte separates what is replaced.** -/
theorem lossyScan_append (hc : c.toNat < 0x80) (as bs : Bytes) :
    lossyScan (as ++ c :: bs) = lossyScan as ++ c :: lossyScan bs := by
  induction hn : as.length using Nat.strong_induction_on generalizing as with
  | _ n ih =>
  cases as with
  | nil => rw [List.nil_append, lossyScan_nil, lossyScan_ascii hc, List.nil_append]
  | cons a as =>
    have hokAppend := @sequenceOk_append c a as bs hc
    by_cases hok : sequenceOk (a :: as) = true
    · obtain ⟨hpos, hle⟩ := of_decide_eq_true (Bool.and_eq_true_iff.mp hok).1
      rw [lossyScan_ok hok]
      rw [hok] at hokAppend
      rw [List.cons_append] at hokAppend ⊢
      rw [lossyScan_ok hokAppend, ← List.cons_append, List.take_append_of_le_length hle,
        List.drop_append_of_le_length hle, ih _ (by rw [List.length_drop]; omega) _ rfl,
          List.append_assoc]
    · have hokAppend' : ¬ sequenceOk (a :: (as ++ c :: bs)) = true := by
        rw [← List.cons_append, hokAppend]
        exact hok
      rw [List.cons_append, lossyScan_replaced hokAppend', lossyScan_replaced hok,
        ih as.length (by rw [← hn]; exact Nat.lt_succ_self _) as rfl, List.append_assoc]

/-- The scan brings in no ASCII byte. -/
theorem mem_of_mem_lossyScan (hc : c.toNat < 0x80) (h : c ∈ lossyScan data) : c ∈ data := by
  fun_induction lossyScan data with
  | case1 => exact h
  | case2 b rest hok ih =>
    rcases List.mem_append.mp h with h | h
    · exact List.mem_of_mem_take h
    · exact List.mem_of_mem_drop (ih h)
  | case3 b rest hok ih =>
    rcases List.mem_append.mp h with h | h
    · have hreplacement : ∀ d ∈ replacementBytes, ¬ d.toNat < 0x80 := by decide
      exact absurd hc (hreplacement c h)
    · exact .tail _ (ih h)

theorem lossyScan_eq_nil : lossyScan data = [] ↔ data = [] := by
  constructor
  · intro h
    cases data with
    | nil => rfl
    | cons b rest =>
      by_cases hok : sequenceOk (b :: rest) = true
      · obtain ⟨hpos, -⟩ := of_decide_eq_true (Bool.and_eq_true_iff.mp hok).1
        obtain ⟨n, hn⟩ : ∃ n, codePointBytes b = n + 1 := ⟨codePointBytes b - 1, by omega⟩
        rw [lossyScan_ok hok, hn, List.take_succ_cons] at h
        cases h
      · rw [lossyScan_replaced hok] at h
        cases h
  · rintro rfl
    exact lossyScan_nil

/-- **The lossy string is the scan, where that is valid.** -/
theorem fromUtf8Lossy_eq (utf8 : Bytes) : fromUtf8Lossy utf8 = fromData (lossyScan utf8) := by
  unfold fromUtf8Lossy
  split_ifs with hvalid
  · obtain ⟨cs, rfl⟩ := isValid_iff.mp hvalid
    rw [lossyScan_encode]
  · rfl

theorem fromUtf8Lossy_eq_some {utf8 text : Bytes} :
    fromUtf8Lossy utf8 = some text ↔ IsUtf8 (lossyScan utf8) ∧ lossyScan utf8 = text := by
  rw [fromUtf8Lossy_eq, fromData]
  split_ifs with hvalid
  · rw [Option.some.injEq, and_iff_right (isValid_iff.mp hvalid)]
  · exact iff_of_false nofun fun h => hvalid (isValid_iff.mpr h.1)

theorem fromUtf8Lossy_of_isUtf8 {utf8 : Bytes} (h : IsUtf8 utf8) :
    fromUtf8Lossy utf8 = some utf8 := by
  obtain ⟨cs, rfl⟩ := h
  rw [fromUtf8Lossy_eq_some, lossyScan_encode]
  exact ⟨isUtf8_encode cs, rfl⟩

end Libca.Str
