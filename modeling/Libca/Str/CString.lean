import Libca.Common.Usize
import Libca.Str.Splitting

/-!
# C strings

Slices, splitting and replacement of `cstring.cpp`. A string is the bytes that a `CStringRef` refers
to; a view or a comparison that would go past them has no result. Positions are `usize` sums and
differences, which wrap.

* `CStringRef.slice`, `CStringRef.substr`, `CStringRef.split`, `join`, `CStringRef.replaceAll`: the
  functions.
* `slice_eq`, `substr_eq_iff`: a slice is that of the list; a substring is, unless its end wraps
  around.
* `split_eq`: **the pieces are those between the leftmost occurrences of the delimiter.**
* `agreesWithLists_iff`: **all functions agree with lists, unless the end of a substring wraps
  around inside the string.** `not_agreesWithLists`: such a substring.
* `split_agrees`: on valid UTF-8 they agree with those of `Utf8StringRef`, which search by
  characters.
-/

namespace Libca.Str.CString

open Common

/-- The bytes that a `CStringRef` refers to. No object is larger than half of the address space. -/
structure CStringRef where
  bytes : Bytes
  small : bytes.length < 2 ^ 63

namespace CStringRef

/-- `length`. -/
def length (s : CStringRef) : Nat := s.bytes.length

/-- `is_empty`. -/
def isEmpty (s : CStringRef) : Bool := s.length = 0

/-- `CStringRef(data_ + start, len)`, where these are bytes of the string. -/
def view (s : CStringRef) (start len : Nat) : Option Bytes :=
  if start + len ≤ s.length then some ((s.bytes.drop start).take len) else none

/-- `slice`. -/
def slice (s : CStringRef) (start stop : UInt64) : Option Bytes :=
  if stop ≤ start ∨ s.length ≤ start.toNat then some []
  else
    let stop := if s.length < stop.toNat then s.length else stop.toNat
    s.view start.toNat (differenceUsize stop start.toNat)

/-- `substr`. -/
def substr (s : CStringRef) (start count : UInt64) : Option Bytes := s.slice start (start + count)

theorem length_lt (s : CStringRef) : s.length < 2 ^ 63 := s.small

theorem le_of_view {s : CStringRef} {start len : Nat} {piece : Bytes}
    (h : s.view start len = some piece) :
    start + len ≤ s.length := by
  unfold view at h
  split_ifs at h with hle
  exact hle

/-- The search of `split` for the delimiter from position `i` on; the end of the string where it is
not found. -/
def findLoop (s delimiter : CStringRef) (i : Nat) : Option Nat :=
  if sumUsize i delimiter.length ≤ s.length then
    match _h : s.view i delimiter.length with
    | none => none
    | some bytes => if bytes = delimiter.bytes then some i else findLoop s delimiter (i + 1)
  else some s.length
termination_by s.length + 1 - i
decreasing_by
  have hle := le_of_view _h
  omega

theorem le_of_findLoop {s delimiter : CStringRef} {i found : Nat}
    (h : findLoop s delimiter i = some found) :
    i ≤ found ∨ found = s.length := by
  fun_induction findLoop s delimiter i with
  | case1 => cases h
  | case2 i hsum hview => exact .inl (Option.some.inj h).le
  | case3 i hsum bytes hview hne ih => exact (ih h).imp Nat.le_of_succ_le id
  | case4 => exact .inr (Option.some.inj h).symm

/-- The outer loop of `split`, for a delimiter that is not empty. -/
def splitLoop (s delimiter : CStringRef) (hne : delimiter.isEmpty = false) (start : Nat) :
    Option (List Bytes) :=
  match _hfind : findLoop s delimiter start with
  | none => none
  | some found =>
    match _hview : s.view start (differenceUsize found start) with
    | none => none
    | some piece =>
      if found = s.length then some [piece]
      else (splitLoop s delimiter hne (found + delimiter.length)).map (piece :: ·)
termination_by s.length + 1 - start
decreasing_by
  have hle := le_of_view _hview
  have hfound := le_of_findLoop _hfind
  have hpos : delimiter.length ≠ 0 := of_decide_eq_false hne
  omega

/-- `split`. -/
def split (s delimiter : CStringRef) : Option (List Bytes) :=
  if s.isEmpty then some []
  else if hne : delimiter.isEmpty then some [s.bytes]
  else splitLoop s delimiter (Bool.eq_false_iff.mpr hne) 0

end CStringRef

/-- The loop of `join` and of `replace_all` on the buffer of the builder. -/
def joinLoop (separator : Bytes) : Nat → Bytes → List Bytes → Bytes
  | _, buffer, [] => buffer
  | i, buffer, part :: parts =>
    let buffer := if 0 < i then buffer ++ separator else buffer
    joinLoop separator (i + 1) (buffer ++ part) parts

/-- `join`. -/
def join (parts : List Bytes) (separator : CStringRef) : Bytes :=
  joinLoop separator.bytes 0 [] parts

/-- `replace_all`. -/
def CStringRef.replaceAll (s from_ to_ : CStringRef) : Option Bytes :=
  if from_.isEmpty then some s.bytes
  else (s.split from_).map fun parts => joinLoop to_.bytes 0 [] parts

/-! ## Agreement with lists -/

/-- What the functions are for. -/
structure AgreesWithLists (s d t : CStringRef) (start stop count : UInt64) : Prop where
  slice : s.slice start stop = some ((s.bytes.take stop.toNat).drop start.toNat)
  substr : s.substr start count = some ((s.bytes.drop start.toNat).take count.toNat)
  split : d.bytes ≠ [] → ∃ parts, s.split d = some parts ∧
    (s.bytes = [] → parts = []) ∧ (s.bytes ≠ [] → IsSplit d.bytes s.bytes parts ∧
      join parts d = s.bytes)
  replaceAll : s.bytes ≠ [] → d.bytes ≠ [] → ∃ parts, s.split d = some parts ∧
    s.replaceAll d t = some (join parts t)

/-! ## Slices -/

variable {s d t : CStringRef} {start stop count : UInt64}

theorem view_eq {start len : Nat} (h : start + len ≤ s.length) :
    s.view start len = some ((s.bytes.drop start).take len) := if_pos h

/-- **A slice is that of the list.** -/
theorem slice_eq (s : CStringRef) (start stop : UInt64) :
    s.slice start stop = some ((s.bytes.take stop.toNat).drop start.toNat) := by
  have hsmall := s.length_lt
  have hlength : s.length = s.bytes.length := rfl
  unfold CStringRef.slice
  by_cases hempty : stop ≤ start ∨ s.length ≤ start.toNat
  · -- Nothing is between the two positions.
    rw [if_pos hempty, List.drop_eq_nil_of_le]
    rw [List.length_take]
    rcases hempty with hle | hle
    · exact (Nat.min_le_left _ _).trans (UInt64.le_iff_toNat_le.mp hle)
    · exact (Nat.min_le_right _ _).trans hle
  · rw [if_neg hempty]
    obtain ⟨hlt, hstart⟩ := not_or.mp hempty
    rw [UInt64.le_iff_toNat_le] at hlt
    dsimp only
    split_ifs with hclip
    · have hall : s.bytes.length ≤ stop.toNat := hclip.le
      rw [differenceUsize_of_le (by omega) (by omega), view_eq (by omega),
        List.take_of_length_le hall]
      rw [List.take_of_length_le]
      rw [List.length_drop, hlength]
    · rw [differenceUsize_of_le (by omega) (by omega), view_eq (by omega), List.drop_take]

/-- **A substring is that of the list, unless its end wraps around inside the string.** -/
theorem substr_eq_iff : s.substr start count = some ((s.bytes.drop start.toNat).take count.toNat) ↔
    start.toNat + count.toNat < 2 ^ 64 ∨ s.length ≤ start.toNat := by
  rw [CStringRef.substr, slice_eq, Option.some_inj, UInt64.toNat_add]
  have hcount := count.toNat_lt
  have hlength : s.length = s.bytes.length := rfl
  constructor
  · intro h
    by_contra hwraps
    obtain ⟨hge, hstart⟩ := not_or.mp hwraps
    have hlt := start.toNat_lt
    have hstop : (start.toNat + count.toNat) % 2 ^ 64 ≤ start.toNat := by omega
    have hnil := congrArg List.length h
    rw [List.length_drop, List.length_take,
      Nat.sub_eq_zero_of_le ((Nat.min_le_left _ _).trans hstop),
      List.length_take, List.length_drop] at hnil
    omega
  · rintro (hlt | hle)
    · rw [Nat.mod_eq_of_lt hlt, List.drop_take, Nat.add_sub_cancel_left]
    · rw [@List.drop_eq_nil_of_le _ s.bytes _ hle, List.take_nil, List.drop_eq_nil_of_le]
      rw [List.length_take]
      exact (Nat.min_le_right _ _).trans hle

/-! ## Pieces -/

/-- **The search finds the first occurrence.** -/
theorem findLoop_spec (hd : d.bytes ≠ []) {i : Nat} (hi : i ≤ s.length) :
    ∃ found, s.findLoop d i = some found ∧ i ≤ found ∧ found ≤ s.length ∧
      (∀ j, i ≤ j → j < found → ¬ d.bytes <+: s.bytes.drop j) ∧
      (found < s.length → d.bytes <+: s.bytes.drop found) := by
  have hs := s.length_lt
  have hdsmall := d.length_lt
  have hdpos : 0 < d.length := List.length_pos_iff.mpr hd
  have hlength : s.length = s.bytes.length := rfl
  fun_induction CStringRef.findLoop s d i with
  | case1 i hsum hview =>
    rw [sumUsize_of_lt (by omega)] at hsum
    rw [view_eq hsum] at hview
    cases hview
  | case2 i hsum hview =>
    rw [sumUsize_of_lt (by omega)] at hsum
    refine ⟨i, rfl, Nat.le_refl i, hi, fun j hle hlt => absurd hle (Nat.not_le_of_lt hlt), fun _ =>
      ?_⟩
    rw [view_eq hsum] at hview
    exact Option.some.inj hview ▸ List.take_prefix ..
  | case3 i hsum bytes hview hne ih =>
    rw [sumUsize_of_lt (by omega)] at hsum
    obtain ⟨found, hfound, hle, hend, hbefore, hat⟩ := ih (by omega)
    refine ⟨found, hfound, by omega, hend, fun j hij hlt hstarts => ?_, hat⟩
    rcases Nat.eq_or_lt_of_le hij with rfl | hij
    · rw [view_eq hsum] at hview
      exact hne ((Option.some.inj hview).symm.trans (List.prefix_iff_eq_take.mp hstarts).symm)
    · exact hbefore j hij hlt hstarts
  | case4 i hsum =>
    rw [sumUsize_of_lt (by omega)] at hsum
    refine ⟨s.length, rfl, hi, le_rfl, fun j hij hlt hstarts => ?_, fun hlt =>
      absurd hlt (Nat.lt_irrefl _)⟩
    have hfits := hstarts.length_le
    rw [List.length_drop] at hfits
    have hdlength : d.length = d.bytes.length := rfl
    omega

/-- **The pieces are those between the leftmost occurrences of the delimiter.** -/
theorem splitLoop_spec (hne : d.isEmpty = false) {start : Nat} (hstart : start ≤ s.length) :
    ∃ parts, s.splitLoop d hne start = some parts ∧ IsSplit d.bytes (s.bytes.drop start) parts := by
  have hdpos : 0 < d.length := Nat.pos_of_ne_zero (of_decide_eq_false hne)
  have hd : d.bytes ≠ [] := List.length_pos_iff.mp hdpos
  have hs := s.length_lt
  have hlength : s.length = s.bytes.length := rfl
  obtain ⟨found, hfound, hle, hend, hbefore, hat⟩ := findLoop_spec hd hstart
  have hview : s.view start (differenceUsize found start) =
    some ((s.bytes.drop start).take (found - start)) := by
    rw [differenceUsize_of_le hle (by omega), view_eq (by omega)]
  have hdlength : d.length = d.bytes.length := rfl
  rw [CStringRef.splitLoop]
  split
  · next hnone => exact absurd (hfound.symm.trans hnone) nofun
  · next found' hfound' =>
    obtain rfl := Option.some.inj (hfound.symm.trans hfound')
    split
    · next hnone => exact absurd (hview.symm.trans hnone) nofun
    · next piece hpiece =>
      obtain rfl := Option.some.inj (hview.symm.trans hpiece)
      by_cases hlast : found = s.length
      · rw [if_pos hlast]
        refine ⟨_, rfl, ?_⟩
        rw [List.take_of_length_le (by rw [List.length_drop]; omega)]
        refine .last fun i hstarts => ?_
        rw [List.drop_drop] at hstarts
        have hfits := hstarts.length_le
        rw [List.length_drop] at hfits
        exact hbefore (start + i) (Nat.le_add_right _ _) (by omega) hstarts
      · rw [if_neg hlast]
        have hlt : found < s.length := Nat.lt_of_le_of_ne hend hlast
        obtain ⟨rest, hrest⟩ := hat hlt
        have hsum := congrArg List.length hrest
        rw [List.length_append, List.length_drop] at hsum
        have hnext : found + d.length ≤ s.length := by omega
        obtain ⟨parts, hparts, hsplit⟩ := splitLoop_spec hne hnext
        rw [hparts]
        refine ⟨_, rfl, ?_⟩
        have hbehind : s.bytes.drop (found + d.length) = rest := by
          rw [← List.drop_drop, ← hrest, hdlength, List.drop_left]
        have hpieces : s.bytes.drop start = (s.bytes.drop start).take (found - start) ++
          (d.bytes ++ rest) := by
          rw [hrest, show s.bytes.drop found = (s.bytes.drop start).drop (found - start) by
            rw [List.drop_drop, Nat.add_sub_cancel' hle], List.take_append_drop]
        rw [hbehind] at hsplit
        have hcut := IsSplit.cut (p := (s.bytes.drop start).take (found - start))
          (fun i hi hstarts => ?_) hsplit
        · rwa [← hpieces] at hcut
        · rw [← hpieces, List.drop_drop] at hstarts
          rw [List.length_take, List.length_drop] at hi
          exact hbefore (start + i) (Nat.le_add_right _ _) (by omega) hstarts
termination_by s.length + 1 - start

theorem split_eq (hs : s.bytes ≠ []) (hd : d.bytes ≠ []) :
    ∃ parts, s.split d = some parts ∧ IsSplit d.bytes s.bytes parts := by
  have hsEmpty : ¬ s.isEmpty = true :=
    fun h => hs (List.length_eq_zero_iff.mp (of_decide_eq_true h))
  have hdEmpty : ¬ d.isEmpty = true :=
    fun h => hd (List.length_eq_zero_iff.mp (of_decide_eq_true h))
  rw [CStringRef.split, if_neg hsEmpty, dif_neg hdEmpty]
  exact splitLoop_spec _ (Nat.zero_le _)

/-! ## Joining -/

theorem joinLoop_succ (separator : Bytes) (i : Nat) (buffer part : Bytes) (parts : List Bytes) :
    joinLoop separator (i + 1) buffer (part :: parts) =
      buffer ++ separator ++ separator.intercalate (part :: parts) := by
  induction parts generalizing i buffer part with
  | nil => rw [joinLoop, if_pos (Nat.succ_pos i), joinLoop, List.intercalate_singleton]
  | cons next parts ih =>
    rw [joinLoop, if_pos (Nat.succ_pos i), ih, List.intercalate_cons_cons]
    simp only [List.append_assoc]

/-- **The buffer holds the parts with the separator between them.** -/
theorem join_eq (parts : List Bytes) (separator : CStringRef) :
    join parts separator = separator.bytes.intercalate parts := by
  unfold join
  rcases parts with - | ⟨part, - | ⟨next, parts⟩⟩
  · rfl
  · rw [joinLoop, if_neg (Nat.lt_irrefl 0), joinLoop, List.intercalate_singleton, List.nil_append]
  · rw [joinLoop, if_neg (Nat.lt_irrefl 0), joinLoop_succ, List.intercalate_cons_cons,
      List.nil_append, List.append_assoc]

/-- **All functions agree with lists, unless the end of a substring wraps around inside the
string.** -/
theorem agreesWithLists_iff (s d t : CStringRef) (start stop count : UInt64) :
    AgreesWithLists s d t start stop count ↔ start.toNat + count.toNat < 2 ^ 64 ∨
      s.length ≤ start.toNat := by
  rw [← substr_eq_iff]
  constructor
  · exact AgreesWithLists.substr
  · intro hsubstr
    refine ⟨slice_eq s start stop, hsubstr, fun hd => ?_, fun hs hd => ?_⟩
    · by_cases hs : s.bytes = []
      · have hsEmpty : s.isEmpty = true := decide_eq_true (List.length_eq_zero_iff.mpr hs)
        exact ⟨[], by rw [CStringRef.split, if_pos hsEmpty], fun _ => rfl, fun hne => absurd hs hne⟩
      · obtain ⟨parts, hparts, hsplit⟩ := split_eq hs hd
        exact ⟨parts, hparts, fun hnil => absurd hnil hs,
          fun _ => ⟨hsplit, (join_eq parts d).trans hsplit.intercalate⟩⟩
    · obtain ⟨parts, hparts, -⟩ := split_eq hs hd
      have hdEmpty : ¬ d.isEmpty = true :=
        fun h => hd (List.length_eq_zero_iff.mp (of_decide_eq_true h))
      refine ⟨parts, hparts, ?_⟩
      rw [CStringRef.replaceAll, if_neg hdEmpty, hparts]
      rfl

/-- All characters from the second on. -/
theorem not_agreesWithLists : ¬ ∀ s d t start stop count,
    AgreesWithLists s d t start stop count := by
  intro h
  have hsubstr :=
    (h ⟨[97, 98], by decide⟩ ⟨[], by decide⟩ ⟨[], by decide⟩ 1 0 0xFFFFFFFFFFFFFFFF).substr
  exact absurd (substr_eq_iff.mp hsubstr) (by decide)

/-! ## Agreement with `Utf8StringRef` -/

/-- The reference to the same bytes. -/
def CStringRef.text (s : CStringRef) : Splitting.Utf8StringRef := .fromData s.bytes

theorem isEmpty_text (s : CStringRef) : s.text.isEmpty = s.isEmpty :=
  congrArg (decide <| List.length · = 0) (Splitting.bytes_fromData s.bytes)

/-- **C strings and UTF-8 strings are split and replaced alike**: at every byte in one, and by
characters in the other. -/
theorem split_agrees (s d t : CStringRef) (hs : IsUtf8 s.bytes) (hd : IsUtf8 d.bytes)
    (ht : IsUtf8 t.bytes) :
    s.split d = some ((Splitting.split s.text d.text).map Splitting.Utf8StringRef.bytes) ∧
      ∃ r, s.replaceAll d t = some r.bytes ∧ Splitting.replaceAll s.text d.text t.text = .ok r := by
  have hbytes (s : CStringRef) : s.text.bytes = s.bytes := Splitting.bytes_fromData s.bytes
  have hsplit : s.split d =
    some ((Splitting.split s.text d.text).map Splitting.Utf8StringRef.bytes) ∧
      (¬ d.isEmpty = true → ∀ p ∈ (Splitting.split s.text d.text).map Splitting.Utf8StringRef.bytes,
        IsUtf8 p) := by
    by_cases hsEmpty : s.isEmpty = true
    · rw [CStringRef.split, Splitting.split, isEmpty_text, if_pos hsEmpty, if_pos hsEmpty]
      exact ⟨rfl, fun _ p hp => absurd hp List.not_mem_nil⟩
    · by_cases hdEmpty : d.isEmpty = true
      · rw [CStringRef.split, Splitting.split, isEmpty_text, if_neg hsEmpty, if_neg hsEmpty,
          dif_pos hdEmpty, dif_pos ((isEmpty_text d).trans hdEmpty), List.map_singleton, hbytes]
        exact ⟨rfl, fun hne => absurd hdEmpty hne⟩
      · have hs0 : s.bytes ≠ [] := fun h => hsEmpty (decide_eq_true (List.length_eq_zero_iff.mpr h))
        have hd0 : d.bytes ≠ [] := fun h => hdEmpty (decide_eq_true (List.length_eq_zero_iff.mpr h))
        obtain ⟨parts, hparts, hpieces⟩ := split_eq hs0 hd0
        rw [← hbytes] at hs hs0 hd hd0
        obtain ⟨hpieces', hsound⟩ := Splitting.split_spec hs hd hs0 hd0
        rw [hbytes, hbytes] at hpieces'
        refine ⟨hparts.trans (congrArg some (hpieces.unique hpieces')), fun _ p hp => ?_⟩
        obtain ⟨part, hpart, rfl⟩ := List.mem_map.mp hp
        obtain ⟨cs, hcs, -⟩ := hsound part hpart
        exact ⟨cs, hcs⟩
  refine ⟨hsplit.1, ?_⟩
  rw [CStringRef.replaceAll, Splitting.replaceAll, isEmpty_text]
  split_ifs with hdEmpty
  · rw [← hbytes] at hs
    exact ⟨_, by rw [Splitting.bytes_fromData, hbytes], Splitting.init_of_isUtf8 hs⟩
  · have hvalid := Splitting.isUtf8_intercalate ht (hsplit.2 hdEmpty)
    refine ⟨_, ?_, Splitting.init_of_isUtf8 (by rw [Splitting.joinLoop_eq, hbytes]; exact hvalid)⟩
    rw [hsplit.1, Splitting.bytes_fromData, Splitting.joinLoop_eq, hbytes]
    exact congrArg some (join_eq _ t)

/-- `"a--b-"` at `"--"`, where the delimiter is replaced by `"é"`. -/
theorem split_agrees_dashes :
    ∃ r, CStringRef.replaceAll ⟨[97, 45, 45, 98, 45], by decide⟩ ⟨[45, 45], by decide⟩
      ⟨[0xC3, 0xA9], by decide⟩ = some r :=
  have hascii : ∀ bs : Bytes, (∀ b ∈ bs, b < 0x80) → IsUtf8 bs := fun _ => isUtf8_of_ascii
  have h := split_agrees ⟨[97, 45, 45, 98, 45], by decide⟩ ⟨[45, 45], by decide⟩
    ⟨[0xC3, 0xA9], by decide⟩
    (hascii _ (by decide)) (hascii _ (by decide)) (isValid_iff.mp (by decide))
  h.2.imp' _ fun _ hr => hr.1

end Libca.Str.CString
