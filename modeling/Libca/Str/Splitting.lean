import Libca.Common.Splitting
import Libca.Str.Scalars

/-!
# Splitting and joining (`str/utf8_string.cpp`)

`Utf8StringRef::slice`, `split` and `replace_all`, the free functions `split` and `join`, and the
part of `Utf8StringBuilder` and `Utf8String` that they use.

* `findLoop`, `splitLoop`: the two loops of `split`; the search compares bytes and advances by the
  length that a first byte promises.
* `encode_starts`: in valid UTF-8 the bytes of a text occur where its characters do.
* `find_eq`: so the search finds the leftmost occurrence among all byte positions.
* `split_join`: **splitting is leftmost byte matching, and joining undoes it.**
-/

namespace Libca.Str.Splitting

open Common

/-- The bytes a reference refers to, and the number of code points it caches. -/
structure Utf8StringRef where
  bytes : Bytes
  length : Nat
deriving DecidableEq

namespace Utf8StringRef

/-- `Utf8StringRef()`. -/
def empty : Utf8StringRef := ⟨[], 0⟩

/-- `from_data`, where no number of code points is given. -/
def fromData (data : Bytes) : Utf8StringRef :=
  if data.length = 0 then empty else ⟨data, countCodePoints data⟩

/-- `byte_length`. -/
def byteLength (s : Utf8StringRef) : Nat := s.bytes.length

/-- `is_empty`. -/
def isEmpty (s : Utf8StringRef) : Bool := s.byteLength = 0

end Utf8StringRef

/-- `utf8_code_point_bytes_safe`. -/
def codePointBytesSafe (firstByte : UInt8) : Nat :=
  let n := codePointBytes firstByte
  if 0 < n then n else 1

/-- The loop of `slice` on the bytes of the slice, where `skip` bytes are still ahead. -/
def sliceLoop : Nat → Bytes → Nat
  | _, [] => 0
  | skip + 1, _ :: rest => sliceLoop skip rest
  | 0, b :: rest => sliceLoop (codePointBytesSafe b - 1) rest + 1

/-- `Utf8StringRef::slice`. -/
def slice (s : Utf8StringRef) (byteStart byteEnd : Nat) : Utf8StringRef :=
  if byteEnd ≤ byteStart ∨ s.byteLength ≤ byteStart then .empty
  else
    let byteEnd := if s.byteLength < byteEnd then s.byteLength else byteEnd
    let data := (s.bytes.take byteEnd).drop byteStart
    ⟨data, sliceLoop 0 data⟩

/-- The search for the delimiter at position `i`, with what stands there and where `skip` bytes are
still ahead. -/
def findLoop (delimiter : Bytes) : Nat → Nat → Bytes → Option Nat
  | _ + 1, _, [] => none
  | skip + 1, i, _ :: rest => findLoop delimiter skip (i + 1) rest
  | 0, i, [] => if delimiter.length = 0 then some i else none
  | 0, i, b :: rest =>
    if (b :: rest).length < delimiter.length then none
    else if (b :: rest).take delimiter.length = delimiter then some i
    else findLoop delimiter (codePointBytesSafe b - 1) (i + 1) rest

/-- The delimiter from `start` on. -/
def find (s delimiter : Utf8StringRef) (start : Nat) : Option Nat :=
  findLoop delimiter.bytes 0 start (s.bytes.drop start)

variable {data : Bytes}

theorem le_of_findLoop {delimiter : Bytes} {skip i found : Nat}
    (h : findLoop delimiter skip i data = some found) : i ≤ found := by
  fun_induction findLoop delimiter skip i data with
  | case1 => cases h
  | case2 skip i b rest ih => exact Nat.le_of_succ_le (ih h)
  | case3 i hzero => exact (Option.some.inj h).le
  | case4 => cases h
  | case5 => cases h
  | case6 i b rest hlen htake => exact (Option.some.inj h).le
  | case7 i b rest hlen htake ih => exact Nat.le_of_succ_le (ih h)

/-- The loop of `split`, for a delimiter that is not empty. -/
def splitLoop (s delimiter : Utf8StringRef) (hne : delimiter.isEmpty = false) (start : Nat) :
    List Utf8StringRef :=
  if start ≤ s.byteLength then
    match hfind : find s delimiter start with
    | none => [slice s start s.byteLength]
    | some found =>
      slice s start found :: splitLoop s delimiter hne (found + delimiter.byteLength)
  else []
termination_by s.byteLength + 1 - start
decreasing_by
  have hle := le_of_findLoop hfind
  have hpos : delimiter.byteLength ≠ 0 := of_decide_eq_false hne
  omega

/-- `Utf8StringRef::split`. -/
def split (s delimiter : Utf8StringRef) : List Utf8StringRef :=
  if s.isEmpty then []
  else if hne : delimiter.isEmpty then [s]
  else splitLoop s delimiter (Bool.eq_false_iff.mpr hne) 0

/-- Where `utf8_count_code_points` stops, at position `pos` and where `skip` bytes of the current
sequence are still ahead: the start of a sequence, or the byte that does not continue it. -/
def invalidPosLoop : Nat → Nat → Bytes → Option Nat
  | _, _, [] => none
  | skip + 1, pos, _ :: rest => invalidPosLoop skip (pos + 1) rest
  | 0, pos, b :: rest =>
    let len := codePointBytes b
    if len = 0 ∨ (b :: rest).length < len then some pos
    else
      match (rest.take (len - 1)).findIdx? fun b => b &&& 0xC0 != 0x80 with
      | some i => some (pos + 1 + i)
      | none =>
        if !sequenceValid (sequenceValue (b :: rest) len) len then some pos
        else invalidPosLoop (len - 1) (pos + 1) rest

/-- `Utf8String::init`: the string of the bytes, or the text of the exception. -/
def init (data : Bytes) : Except Bytes Utf8StringRef :=
  if data.length = 0 then .ok .empty
  else
    let cpCount := countCodePoints data
    if cpCount = 0 then
      .error (ascii "Utf8String: invalid UTF-8 sequence at byte position " ++
        toChars 10 ((invalidPosLoop 0 0 data).getD 0))
    else .ok ⟨data, cpCount⟩

/-- The loop of `join` and of `replace_all` on the buffer of the builder. -/
def joinLoop (separator : Utf8StringRef) : Nat → Bytes → List Utf8StringRef → Bytes
  | _, buffer, [] => buffer
  | i, buffer, part :: parts =>
    let buffer := if 0 < i then buffer ++ separator.bytes else buffer
    joinLoop separator (i + 1) (buffer ++ part.bytes) parts

/-- `join`. -/
def join (parts : List Utf8StringRef) (separator : Utf8StringRef) : Except Bytes Utf8StringRef :=
  init (joinLoop separator 0 [] parts)

/-- `Utf8StringRef::replace_all`. -/
def replaceAll (s from_ to_ : Utf8StringRef) : Except Bytes Utf8StringRef :=
  if from_.isEmpty then init s.bytes
  else init (joinLoop to_ 0 [] (split s from_))

/-! ## Where characters start -/

variable {c : Char} {b : UInt8} {bs : Bytes}

/-- The first byte of a character is no continuation byte, and tells its length. -/
theorem codePointBytes_utf8EncodeChar (h : String.utf8EncodeChar c = b :: bs) :
    codePointBytes b = bs.length + 1 ∧ ¬ (0x80 ≤ b.toNat ∧ b.toNat < 0xC0) := by
  have hseq := sequenceLength_eq_some.mp (sequenceLength_utf8EncodeChar c [])
  rw [List.append_nil, h] at hseq
  have hlen : bs.length + 1 = codePointBytes b := hseq.2.1
  refine ⟨hlen.symm, fun hcont => ?_⟩
  rw [codePointBytes_eq, if_neg (by omega), if_pos hcont.2] at hlen
  exact absurd hlen (Nat.succ_ne_zero _)

/-- The other bytes of a character are continuation bytes. -/
theorem continuation_utf8EncodeChar
    (h : String.utf8EncodeChar c = b :: bs) : ∀ d ∈ bs, 0x80 ≤ d.toNat ∧ d.toNat < 0xC0 := by
  have hseq := sequenceLength_eq_some.mp (sequenceLength_utf8EncodeChar c [])
  rw [List.append_nil, h] at hseq
  have hcont := hseq.2.2.2.2.1
  rw [List.tail_cons, List.length_cons, Nat.add_one_sub_one, List.take_length] at hcont
  exact hcont

theorem codePointBytesSafe_utf8EncodeChar
    (h : String.utf8EncodeChar c = b :: bs) : codePointBytesSafe b = bs.length + 1 := by
  have hlen := (codePointBytes_utf8EncodeChar h).1
  rw [codePointBytesSafe, hlen, if_pos (Nat.succ_pos _)]

variable {ds : List Char}

/-- A text does not start inside a character. -/
theorem not_starts_inside (hds : ds ≠ []) (c : Char) (rest : Bytes) {i : Nat}
    (hpos : 0 < i) (hlt : i < (String.utf8EncodeChar c).length) :
    ¬ encode ds <+: (String.utf8EncodeChar c ++ rest).drop i := by
  obtain ⟨d, ds, rfl⟩ := List.exists_cons_of_ne_nil hds
  obtain ⟨b, bs, hb⟩ := List.exists_cons_of_ne_nil (utf8EncodeChar_ne_nil d)
  obtain ⟨e, es, he⟩ := List.exists_cons_of_ne_nil (utf8EncodeChar_ne_nil c)
  intro hpre
  rw [encode_cons, hb, List.drop_append_of_le_length hlt.le, List.drop_eq_getElem_cons hlt,
    List.cons_append, List.cons_append, List.cons_prefix_cons] at hpre
  -- the byte there continues a character, and the first byte of the text does not
  have hmem : (String.utf8EncodeChar c)[i] ∈ es := by
    obtain ⟨j, rfl⟩ := Nat.exists_eq_succ_of_ne_zero hpos.ne'
    simp only [he, List.getElem_cons_succ]
    exact List.getElem_mem _
  rw [← hpre.1] at hmem
  exact (codePointBytes_utf8EncodeChar hb).2 (continuation_utf8EncodeChar he b hmem)

/-- A text at the front of another is made of its first characters. -/
theorem encode_starts {cs : List Char} (h : encode ds <+: encode cs) : ∃ es, cs = ds ++ es := by
  induction ds generalizing cs with
  | nil => exact ⟨cs, rfl⟩
  | cons d ds ih =>
    obtain ⟨rest, hrest⟩ := h
    cases cs with
    | nil =>
      have hnil := (List.append_eq_nil_iff.mp hrest).1
      exact absurd hnil (encode_ne_nil (List.cons_ne_nil d ds))
    | cons c cs =>
      rw [encode_cons, encode_cons, List.append_assoc] at hrest
      have hdecode := congrArg decodeCodePoint hrest
      rw [decodeCodePoint_utf8EncodeChar, decodeCodePoint_utf8EncodeChar] at hdecode
      obtain rfl := Char.toNat_inj.mp hdecode
      obtain ⟨es, rfl⟩ := ih ⟨rest, List.append_cancel_left hrest⟩
      exact ⟨es, rfl⟩

/-- The text `ds` starts after the characters `as` of `cs`, and at no byte before. -/
structure FirstAt (ds cs as es : List Char) : Prop where
  eq : cs = as ++ (ds ++ es)
  first : ∀ i < (encode as).length, ¬ encode ds <+: (encode cs).drop i

theorem findLoop_skip (delimiter as : Bytes) (i : Nat) (rest : Bytes) :
    findLoop delimiter as.length i (as ++ rest) = findLoop delimiter 0 (i + as.length) rest := by
  induction as generalizing i with
  | nil => rfl
  | cons a as ih =>
    rw [List.length_cons, List.cons_append, findLoop, ih]
    congr 1
    omega

/-- The search stops at the first byte where the text starts, which is where a character starts. -/
theorem findLoop_encode (hds : ds ≠ []) (cs : List Char) (i : Nat) :
    match findLoop (encode ds) 0 i (encode cs) with
    | some found => ∃ as es, FirstAt ds cs as es ∧ found = i + (encode as).length
    | none => ∀ k, ¬ encode ds <+: (encode cs).drop k := by
  have hnil : ∀ k, ¬ encode ds <+: (encode []).drop k := fun k hpre => by
    rw [encode_nil, List.drop_nil, List.prefix_nil] at hpre
    exact encode_ne_nil hds hpre
  induction cs generalizing i with
  | nil =>
    have hlen : (encode ds).length ≠ 0 :=
      fun h0 => encode_ne_nil hds (List.length_eq_zero_iff.mp h0)
    rw [encode_nil, findLoop, if_neg hlen]
    exact hnil
  | cons c cs ih =>
    obtain ⟨b, bs, hb⟩ := List.exists_cons_of_ne_nil (utf8EncodeChar_ne_nil c)
    have hcons : encode (c :: cs) = b :: (bs ++ encode cs) := by
      rw [encode_cons, hb, List.cons_append]
    rw [hcons, findLoop]
    by_cases hlen : (b :: (bs ++ encode cs)).length < (encode ds).length
    · rw [if_pos hlen]
      intro k hpre
      have hle := hpre.length_le
      rw [List.length_drop] at hle
      omega
    · rw [if_neg hlen]
      by_cases htake : (b :: (bs ++ encode cs)).take (encode ds).length = encode ds
      · rw [if_pos htake]
        have hpre : encode ds <+: encode (c :: cs) := by
          rw [hcons, ← htake]
          exact List.take_prefix _ _
        obtain ⟨es, hes⟩ := encode_starts hpre
        exact ⟨[], es, ⟨hes, fun k hk => absurd hk (Nat.not_lt_zero k)⟩, rfl⟩
      · rw [if_neg htake, codePointBytesSafe_utf8EncodeChar hb, Nat.add_one_sub_one, findLoop_skip]
        have hbytes : (String.utf8EncodeChar c).length = bs.length + 1 := by
          rw [hb, List.length_cons]
        -- the text starts at no byte of the first character
        have hbefore : ∀ k < (String.utf8EncodeChar c).length,
            ¬ encode ds <+: (b :: (bs ++ encode cs)).drop k := by
          intro k hk hpre
          rcases Nat.eq_zero_or_pos k with rfl | hpos
          · exact htake (List.prefix_iff_eq_take.mp hpre).symm
          · rw [← hcons] at hpre
            exact not_starts_inside hds c (encode cs) hpos hk hpre
        have hafter : ∀ k, (b :: (bs ++ encode cs)).drop ((String.utf8EncodeChar c).length + k) =
            (encode cs).drop k := fun k => by
          rw [← hcons, encode_cons, List.drop_append]
          simp
        have hrest := ih (i + 1 + bs.length)
        cases hfind : findLoop (encode ds) 0 (i + 1 + bs.length) (encode cs) with
        | none =>
          rw [hfind] at hrest
          intro k
          by_cases hk : k < (String.utf8EncodeChar c).length
          · exact hbefore k hk
          · obtain ⟨j, rfl⟩ := Nat.exists_eq_add_of_le (Nat.le_of_not_lt hk)
            rw [hafter]
            exact hrest j
        | some found =>
          rw [hfind] at hrest
          obtain ⟨as, es, hfirst, rfl⟩ := hrest
          refine ⟨c :: as, es, ⟨by rw [hfirst.eq, List.cons_append], fun k hk => ?_⟩, ?_⟩
          · rw [hcons]
            by_cases hk' : k < (String.utf8EncodeChar c).length
            · exact hbefore k hk'
            · obtain ⟨j, rfl⟩ := Nat.exists_eq_add_of_le (Nat.le_of_not_lt hk')
              rw [hafter]
              rw [encode_cons, List.length_append] at hk
              exact hfirst.first j (by omega)
          · rw [encode_cons, List.length_append, hbytes]
            omega

/-! ## The pieces -/

/-- The reference refers to valid UTF-8 and caches the number of its code points. -/
def Sound (s : Utf8StringRef) : Prop := ∃ cs, s.bytes = encode cs ∧ s.length = cs.length

theorem sliceLoop_skip (as rest : Bytes) : sliceLoop as.length (as ++ rest) = sliceLoop 0 rest := by
  induction as with
  | nil => rfl
  | cons a as ih => exact ih

theorem sliceLoop_encode (cs : List Char) : sliceLoop 0 (encode cs) = cs.length := by
  induction cs with
  | nil => rfl
  | cons c cs ih =>
    obtain ⟨b, bs, hb⟩ := List.exists_cons_of_ne_nil (utf8EncodeChar_ne_nil c)
    rw [encode_cons, hb, List.cons_append, sliceLoop, codePointBytesSafe_utf8EncodeChar hb,
      Nat.add_one_sub_one, sliceLoop_skip, ih, List.length_cons]

/-- A slice between characters refers to them and caches their number. -/
theorem slice_encode {s : Utf8StringRef} {before after : Bytes} {cs : List Char}
    (h : s.bytes = before ++ (encode cs ++ after)) :
    slice s before.length (before.length + (encode cs).length) = ⟨encode cs, cs.length⟩ := by
  have hbytes : s.byteLength = before.length + ((encode cs).length + after.length) := by
    rw [Utf8StringRef.byteLength, h, List.length_append, List.length_append]
  unfold slice
  rcases cs with - | ⟨c, cs⟩
  · rw [if_pos (.inl le_rfl)]
    rfl
  · have hpos := List.length_pos_iff.mpr (encode_ne_nil (List.cons_ne_nil c cs))
    have hdata : (s.bytes.take (before.length + (encode (c :: cs)).length)).drop before.length =
        encode (c :: cs) := by
      rw [List.drop_take, h, List.drop_left, Nat.add_sub_cancel_left, List.take_left]
    rw [if_neg (by omega), if_neg (by omega)]
    simp only [hdata, sliceLoop_encode]

/-- What the loop of `split` makes of the rest of a text. -/
theorem splitLoop_spec {s delimiter : Utf8StringRef} (hne : delimiter.isEmpty = false)
    (hds : delimiter.bytes = encode ds) (before : Bytes) (cs : List Char)
    (h : s.bytes = before ++ encode cs) :
    IsSplit delimiter.bytes (encode cs)
        ((splitLoop s delimiter hne before.length).map Utf8StringRef.bytes) ∧
      ∀ p ∈ splitLoop s delimiter hne before.length, Sound p := by
  have hne' : ds ≠ [] := by
    rintro rfl
    rw [encode_nil] at hds
    rw [Utf8StringRef.isEmpty, Utf8StringRef.byteLength, hds] at hne
    cases hne
  have hdrop : s.bytes.drop before.length = encode cs := by rw [h, List.drop_left]
  have hbytes : s.byteLength = before.length + (encode cs).length := by
    rw [Utf8StringRef.byteLength, h, List.length_append]
  have hspec := findLoop_encode hne' cs before.length
  rw [← hds, ← hdrop] at hspec
  rw [splitLoop, if_pos (by omega)]
  split
  · next hfind =>
    have hlast : slice s before.length s.byteLength = ⟨encode cs, cs.length⟩ := by
      rw [hbytes]
      exact @slice_encode _ _ [] _ (by rw [h, List.append_nil])
    rw [find] at hfind
    rw [hfind, hdrop] at hspec
    rw [hlast]
    exact ⟨.last hspec, fun p hp => ⟨cs, by rw [List.mem_singleton.mp hp], by
      rw [List.mem_singleton.mp hp]⟩⟩
  · next found hfind =>
    rw [find] at hfind
    rw [hfind] at hspec
    obtain ⟨as, es, hfirst, rfl⟩ := hspec
    have hcs : encode cs = encode as ++ (delimiter.bytes ++ encode es) := by
      rw [hfirst.eq, encode_append, encode_append, hds]
    have hpiece : slice s before.length (before.length + (encode as).length) =
        ⟨encode as, as.length⟩ := slice_encode (by rw [h, hcs])
    have hstart : before.length + (encode as).length + delimiter.byteLength =
        (before ++ (encode as ++ delimiter.bytes)).length := by
      rw [List.length_append, List.length_append, Utf8StringRef.byteLength]
      omega
    -- what follows the delimiter is shorter
    have hshort : es.length < cs.length := by
      have hpos := List.length_pos_iff.mpr hne'
      rw [hfirst.eq, List.length_append, List.length_append]
      omega
    obtain ⟨hsplit, hsound⟩ := splitLoop_spec hne hds (before ++ (encode as ++ delimiter.bytes)) es
      (by rw [h, hcs, List.append_assoc, List.append_assoc])
    rw [hpiece, hstart]
    constructor
    · rw [List.map_cons, hcs]
      refine .cut (fun k hk => ?_) hsplit
      rw [← hcs, hds]
      exact hfirst.first k hk
    · intro p hp
      rcases List.mem_cons.mp hp with rfl | hmem
      · exact ⟨as, rfl, rfl⟩
      · exact hsound p hmem
termination_by cs.length

/-! ## Joining -/

theorem joinLoop_succ (separator : Utf8StringRef) (i : Nat) (buffer : Bytes)
    (part : Utf8StringRef) (parts : List Utf8StringRef) :
    joinLoop separator (i + 1) buffer (part :: parts) =
      buffer ++ separator.bytes ++ separator.bytes.intercalate
        ((part :: parts).map Utf8StringRef.bytes) := by
  induction parts generalizing i buffer part with
  | nil =>
    rw [joinLoop, if_pos (Nat.succ_pos i), joinLoop, List.map_cons, List.map_nil,
      List.intercalate_singleton]
  | cons next parts ih =>
    rw [joinLoop, if_pos (Nat.succ_pos i), ih, List.map_cons, List.map_cons, List.map_cons,
      List.intercalate_cons_cons]
    simp only [List.append_assoc]

/-- The buffer holds the parts with the separator between them. -/
theorem joinLoop_eq (separator : Utf8StringRef) (parts : List Utf8StringRef) :
    joinLoop separator 0 [] parts =
      separator.bytes.intercalate (parts.map Utf8StringRef.bytes) := by
  rcases parts with - | ⟨part, - | ⟨next, parts⟩⟩
  · rfl
  · rw [joinLoop, if_neg (Nat.lt_irrefl 0), joinLoop, List.map_cons, List.map_nil,
      List.intercalate_singleton, List.nil_append]
  · rw [joinLoop, if_neg (Nat.lt_irrefl 0), joinLoop_succ, List.map_cons, List.map_cons,
      List.map_cons, List.intercalate_cons_cons, List.nil_append]

theorem isUtf8_intercalate {d : Bytes} (hd : IsUtf8 d) {ps : List Bytes}
    (hps : ∀ p ∈ ps, IsUtf8 p) : IsUtf8 (d.intercalate ps) := by
  induction ps with
  | nil => exact isUtf8_nil
  | cons p ps ih =>
    have hp := hps p (.head _)
    have hrest := ih fun q hq => hps q (.tail _ hq)
    rcases ps with - | ⟨q, ps⟩
    · rw [List.intercalate_singleton]
      exact hp
    · rw [List.intercalate_cons_cons]
      exact (hp.append hd).append hrest

/-- A string is made of valid UTF-8 without an exception. -/
theorem init_of_isUtf8 (h : IsUtf8 data) : init data = .ok (.fromData data) := by
  unfold init Utf8StringRef.fromData
  by_cases h0 : data.length = 0
  · rw [if_pos h0, if_pos h0]
  · have hcount : countCodePoints data ≠ 0 := fun hzero =>
      (countCodePoints_eq_zero fun hnil => h0 (by rw [hnil]; rfl)).mp hzero h
    rw [if_neg h0, if_neg h0]
    exact if_neg hcount

@[simp] theorem bytes_fromData (data : Bytes) : (Utf8StringRef.fromData data).bytes = data := by
  unfold Utf8StringRef.fromData
  split_ifs with h
  · exact (List.length_eq_zero_iff.mp h).symm
  · rfl

/-- What is made of valid UTF-8 caches the number of its code points. -/
theorem sound_fromData (h : IsUtf8 data) : Sound (.fromData data) := by
  obtain ⟨cs, rfl⟩ := h
  refine ⟨cs, bytes_fromData _, ?_⟩
  unfold Utf8StringRef.fromData
  split_ifs with h0
  · rcases cs with - | ⟨c, cs⟩
    · rfl
    · exact absurd (List.length_eq_zero_iff.mp h0) (encode_ne_nil (List.cons_ne_nil c cs))
  · rw [countCodePoints, countLoop_encode, Option.getD_some]

/-- A reference that is not empty is split in its loop. -/
theorem split_spec {s delimiter : Utf8StringRef} (hs : IsUtf8 s.bytes)
    (hd : IsUtf8 delimiter.bytes) (hs0 : s.bytes ≠ []) (hd0 : delimiter.bytes ≠ []) :
    IsSplit delimiter.bytes s.bytes ((split s delimiter).map Utf8StringRef.bytes) ∧
      ∀ p ∈ split s delimiter, Sound p := by
  obtain ⟨cs, hcs⟩ := hs
  obtain ⟨ds, hds⟩ := hd
  have hsEmpty : ¬ s.isEmpty = true := fun h =>
    hs0 (List.length_eq_zero_iff.mp (of_decide_eq_true h))
  have hdEmpty : ¬ delimiter.isEmpty = true := fun h =>
    hd0 (List.length_eq_zero_iff.mp (of_decide_eq_true h))
  have hloop := splitLoop_spec (s := s) (Bool.eq_false_iff.mpr hdEmpty) hds [] cs hcs
  rw [← hcs] at hloop
  rw [split, if_neg hsEmpty, dif_neg hdEmpty]
  exact hloop

/-- **Splitting is leftmost byte matching, and joining undoes it.** For a valid text, a valid
delimiter that is not empty and a valid replacement: an empty text has no pieces; the pieces of any
other are those between the leftmost occurrences of the delimiter that do not overlap, at any byte
position; joining them with the delimiter gives the text back, and with the replacement what
`replace_all` gives; no piece contains the delimiter, and every piece is valid UTF-8 that caches the
number of its code points. -/
theorem split_join (s d t : Utf8StringRef) (hs : IsUtf8 s.bytes) (hd : IsUtf8 d.bytes)
    (hd0 : d.bytes ≠ []) (ht : IsUtf8 t.bytes) :
    (s.bytes = [] → split s d = []) ∧
      (s.bytes ≠ [] → IsSplit d.bytes s.bytes ((split s d).map Utf8StringRef.bytes)) ∧
      join (split s d) d = .ok (.fromData s.bytes) ∧
      (∀ p ∈ split s d, ¬ d.bytes <:+: p.bytes) ∧
      (∃ r, replaceAll s d t = .ok r ∧ join (split s d) t = .ok r ∧ Sound r ∧
        r.bytes = t.bytes.intercalate ((split s d).map Utf8StringRef.bytes)) ∧
      ∀ p ∈ split s d, Sound p := by
  have hdEmpty : ¬ d.isEmpty = true := fun h =>
    hd0 (List.length_eq_zero_iff.mp (of_decide_eq_true h))
  have hempty : s.bytes = [] → split s d = [] := fun h => by
    have hsEmpty : s.isEmpty = true := by
      rw [Utf8StringRef.isEmpty, Utf8StringRef.byteLength, h]
      rfl
    rw [split, if_pos hsEmpty]
  have hpieces : ∀ p ∈ split s d, s.bytes ≠ [] := fun p hp hs0 => by
    rw [hempty hs0] at hp
    exact List.not_mem_nil hp
  have hsound : ∀ p ∈ split s d, Sound p := fun p hp => (split_spec hs hd (hpieces p hp) hd0).2 p hp
  have hjoin : join (split s d) d = .ok (.fromData s.bytes) := by
    have hbytes : joinLoop d 0 [] (split s d) = s.bytes := by
      by_cases hs0 : s.bytes = []
      · rw [hempty hs0, hs0]
        rfl
      · rw [joinLoop_eq]
        exact (split_spec hs hd hs0 hd0).1.intercalate
    rw [join, hbytes, init_of_isUtf8 hs]
  have hreplaced : IsUtf8 (t.bytes.intercalate ((split s d).map Utf8StringRef.bytes)) := by
    refine isUtf8_intercalate ht fun b hb => ?_
    obtain ⟨p, hp, rfl⟩ := List.mem_map.mp hb
    obtain ⟨cs, hcs, -⟩ := hsound p hp
    exact ⟨cs, hcs⟩
  refine ⟨hempty, fun hs0 => (split_spec hs hd hs0 hd0).1, hjoin, fun p hp => ?_,
    ⟨_, ?_, ?_, sound_fromData hreplaced, bytes_fromData _⟩, hsound⟩
  · exact (split_spec hs hd (hpieces p hp) hd0).1.not_contained hd0 (List.mem_map_of_mem hp)
  · rw [replaceAll, if_neg hdEmpty, joinLoop_eq, init_of_isUtf8 hreplaced]
  · rw [join, joinLoop_eq, init_of_isUtf8 hreplaced]

/-- `"a--b-"` at `"--"`, where the delimiter is replaced by `"é"`. -/
theorem split_join_dashes :
    ∃ r, replaceAll ⟨[97, 45, 45, 98, 45], 5⟩ ⟨[45, 45], 2⟩ ⟨[0xC3, 0xA9], 1⟩ = .ok r ∧
      join (split ⟨[97, 45, 45, 98, 45], 5⟩ ⟨[45, 45], 2⟩) ⟨[0xC3, 0xA9], 1⟩ = .ok r :=
  have hascii : ∀ bs : Bytes, (∀ b ∈ bs, b < 0x80) → IsUtf8 bs := fun _ => isUtf8_of_ascii
  have h := split_join ⟨[97, 45, 45, 98, 45], 5⟩ ⟨[45, 45], 2⟩ ⟨[0xC3, 0xA9], 1⟩
    (hascii _ (by decide)) (hascii _ (by decide)) (by decide) (isValid_iff.mp (by decide))
  have ⟨r, hr, hr', _⟩ := h.2.2.2.2.1
  ⟨r, hr, hr'⟩

end Libca.Str.Splitting
