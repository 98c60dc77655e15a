import Libca.Common.Positions
import Libca.Ini.Lossless

/-!
# The forms of a line (`ini/ini_reader.cpp`)

What a line is read as under the default options, stated on its bytes.

* `scanComment_append`: a scan that finds no comment in a part of a text goes on behind it.
* `KeyHead`: a key with its separator; what follows has no part in it.
* `LineForm`: the forms; `parseLine_of_lineForm`, `parsedForm_of_parseLine`: a line that has one is
  read as it says, and a line that is read has one.
* `valueText_of_plain`: the value between spaces and a comment.
* `LineForm.prepend_spaces`: spaces before a line change nothing.
-/

namespace Libca.Ini

open Common Str

namespace IniReader

/-! ## Separators -/

/-- `=` and `:`. -/
def isSeparator (b : UInt8) : Bool := b == 61 || b == 58

theorem separatorPos_eq (region : Bytes) : separatorPos region = region.findIdx? isSeparator := by
  induction region with
  | nil => rfl
  | cons b region ih =>
    unfold separatorPos at ih ⊢
    rw [List.findIdx?_cons, List.findIdx?_cons, List.findIdx?_cons]
    unfold isSeparator at ih ⊢
    by_cases hequal : b = 61
    · subst hequal
      cases region.findIdx? (· == 58) <;> rfl
    by_cases hcolon : b = 58
    · subst hcolon
      cases region.findIdx? (· == 61) <;> rfl
    · simp only [beq_eq_false_iff_ne.mpr hequal, beq_eq_false_iff_ne.mpr hcolon, Bool.or_self,
        Bool.false_eq_true, if_false]
      rw [← ih]
      cases region.findIdx? (· == 61) <;> cases region.findIdx? (· == 58) <;> try rfl
      simp only [Option.map_some, Nat.add_lt_add_iff_right, Option.some.injEq]
      split_ifs <;> rfl

/-! ## The scan for a comment -/

/-- Only a space or the start of the text counts of what is before a byte. -/
theorem scanComment_prev (o : IniReaderOptions) (q : QuoteState) {prev prev' : Option UInt8}
    (h : prev.all isSpace = prev'.all isSpace) (s : Bytes) :
    scanComment o q prev s = scanComment o q prev' s := by
  cases s with
  | nil => rfl
  | cons ch rest =>
    have hstep : scanStep o q prev ch = scanStep o q prev' ch := by
      unfold scanStep
      rw [h]
    rw [scanComment_cons, scanComment_cons, hstep]

/-- **A scan that finds no comment in a part of a text goes on behind it.** -/
theorem scanComment_append (o : IniReaderOptions) (q : QuoteState) (prev : Option UInt8)
    (as bs : Bytes) (h : as.length ≤ scanComment o q prev (as ++ bs)) :
    ∃ q', ∀ cs, scanComment o q prev (as ++ cs) =
      as.length + scanComment o q' (as.getLast?.or prev) cs := by
  induction as generalizing q prev with
  | nil => exact ⟨q, fun cs => by simp⟩
  | cons a as ih =>
    rw [List.cons_append, scanComment_cons] at h
    cases hstep : scanStep o q prev a with
    | none =>
      rw [hstep] at h
      simp at h
    | some q1 =>
      rw [hstep] at h
      obtain ⟨q', hq'⟩ := ih q1 (some a) (by simpa using h)
      refine ⟨q', fun cs => ?_⟩
      have hlast : (a :: as).getLast?.or prev = as.getLast?.or (some a) := by
        rw [List.getLast?_cons]
        cases as.getLast? <;> rfl
      rw [List.cons_append, scanComment_cons, hstep, hlast, List.length_cons]
      change scanComment o q1 (some a) (as ++ cs) + 1 = _
      rw [hq', Nat.add_right_comm]

/-- A comment starts with its marker. -/
theorem scanComment_lt (o : IniReaderOptions) (q : QuoteState) (prev : Option UInt8) (s : Bytes) :
    scanComment o q prev s ≤ s.length ∧ (s.drop (scanComment o q prev s) = [] ∨
      ∃ m rest, s.drop (scanComment o q prev s) = m :: rest ∧ isCommentMarker o m = true) := by
  induction s generalizing q prev with
  | nil => exact ⟨le_rfl, .inl rfl⟩
  | cons ch rest ih =>
    rw [scanComment_cons]
    cases hstep : scanStep o q prev ch with
    | none =>
      refine ⟨Nat.zero_le _, .inr ⟨ch, rest, rfl, ?_⟩⟩
      unfold scanStep at hstep
      split_ifs at hstep with _ _ _ hmarker
      exact hmarker.2.2.2.1
    | some q1 =>
      obtain ⟨hle, hdrop⟩ := ih q1 (some ch)
      exact ⟨Nat.succ_le_succ hle, hdrop⟩

/-- No quote, no backslash and no marker of a comment. -/
def IsPlain (b : UInt8) : Prop := b ≠ 34 ∧ b ≠ 39 ∧ b ≠ 92 ∧ b ≠ 35 ∧ b ≠ 59

variable {b : UInt8}

theorem isPlain_of_isSpace (h : isSpace b = true) : IsPlain b := by
  unfold isSpace at h
  simp only [Bool.or_eq_true, beq_iff_eq] at h
  unfold IsPlain
  rcases h with ((rfl | rfl) | rfl) | rfl <;> decide

theorem isCommentMarker_default (b : UInt8) : isCommentMarker {} b = true ↔ b = 35 ∨ b = 59 := by
  simp [isCommentMarker]

theorem not_isSpace_of_marker (h : isCommentMarker {} b = true) : isSpace b = false := by
  rcases (isCommentMarker_default b).mp h with rfl | rfl <;> rfl

/-- A plain byte leaves the flags as they are. -/
theorem scanStep_plain {q : QuoteState} (hq : q.escaped = false) (prev : Option UInt8) {ch : UInt8}
    (hch : IsPlain ch) : scanStep {} q prev ch = some q := by
  obtain ⟨hdouble, hsingle, hbackslash, hhash, hsemicolon⟩ := hch
  unfold scanStep
  rw [if_neg fun h => hbackslash h.1, if_neg fun h => hsingle h.1, if_neg fun h => hdouble h.1,
    if_neg fun h => ?_, ← hq]
  rcases (isCommentMarker_default ch).mp h.2.2.2.1 with h | h
  · exact hhash h
  · exact hsemicolon h

theorem scanComment_plain {q : QuoteState} (hq : q.escaped = false) (prev : Option UInt8)
    {as : Bytes} (has : ∀ b ∈ as, IsPlain b) (bs : Bytes) :
    scanComment {} q prev (as ++ bs) =
      as.length + scanComment {} q (as.getLast?.or prev) bs := by
  induction as generalizing prev with
  | nil => simp
  | cons a as ih =>
    obtain ⟨ha, has⟩ := List.forall_mem_cons.mp has
    have hlast : (a :: as).getLast?.or prev = as.getLast?.or (some a) := by
      rw [List.getLast?_cons]
      cases as.getLast? <;> rfl
    rw [List.cons_append, scanComment_cons, scanStep_plain hq prev ha, hlast, List.length_cons]
    change scanComment {} q (some a) (as ++ bs) + 1 = _
    rw [ih (some a) has, Nat.add_right_comm]

/-! ## Keys -/

/-- A key with its separator, whatever follows. -/
structure KeyHead (keyPart : Bytes) (separator : UInt8) : Prop where
  scan : ∃ q, ∀ rest, findInlineComment {} (keyPart ++ separator :: rest) =
    keyPart.length + 1 + scanComment {} q (some separator) rest
  noSeparator : ∀ b ∈ keyPart, isSeparator b = false
  isSeparator : isSeparator separator = true
  start : ∀ b, ((keyPart ++ [separator]).dropWhile isSpace).head? = some b →
    b ≠ 91 ∧ isCommentMarker {} b = false

theorem head?_trimAscii (s : Bytes) : (trimAscii s).head? = (s.dropWhile isSpace).head? := by
  cases hdrop : s.dropWhile isSpace with
  | nil =>
    unfold trimAscii
    rw [hdrop]
    rfl
  | cons b rest =>
    have hb : isSpace b = false := by
      have hne : s.dropWhile isSpace ≠ [] := by
        rw [hdrop]
        exact List.cons_ne_nil _ _
      have hhead := List.head_dropWhile_not isSpace hne
      simp only [hdrop, List.head_cons] at hhead
      exact hhead
    cases htrim : trimAscii s with
    | nil =>
      have hall := trim_eq_nil_iff.mp htrim
      have hmem : b ∈ s := (List.dropWhile_suffix isSpace).subset (by rw [hdrop]; simp)
      rw [hall b hmem] at hb
      cases hb
    | cons b' rest' =>
      obtain ⟨t, ht⟩ := List.rdropWhile_prefix isSpace (s.dropWhile isSpace)
      rw [show (s.dropWhile isSpace).rdropWhile isSpace = b' :: rest' from htrim, hdrop,
        List.cons_append] at ht
      exact congrArg some (List.cons.inj ht).1

theorem not_isSpace_of_isSeparator (h : isSeparator b = true) : isSpace b = false := by
  unfold isSeparator at h
  simp only [Bool.or_eq_true, beq_iff_eq] at h
  rcases h with rfl | rfl <;> rfl

variable {keyPart : Bytes} {separator : UInt8}

/-- The first byte of a line with a key is not behind the separator. -/
theorem KeyHead.head?_trimAscii (h : KeyHead keyPart separator) (valuePart : Bytes) : ∃ b,
      (trimAscii (keyPart ++ separator :: valuePart)).head? = some b ∧ b ≠ 91 ∧
        isCommentMarker {} b = false := by
  have hnot : ∃ x ∈ keyPart ++ [separator], isSpace x = false :=
    ⟨separator, by simp, not_isSpace_of_isSeparator h.isSeparator⟩
  cases hdrop : (keyPart ++ [separator]).dropWhile isSpace with
  | nil =>
    obtain ⟨x, hx, hspace⟩ := hnot
    rw [List.dropWhile_eq_nil_iff.mp hdrop x hx] at hspace
    cases hspace
  | cons b rest =>
    refine ⟨b, ?_, h.start b (by rw [hdrop]; rfl)⟩
    rw [IniReader.head?_trimAscii, ← List.singleton_append, ← List.append_assoc,
      dropWhile_append_not hnot, hdrop]
    rfl

/-- Where the separator of a line with a key is found. -/
theorem KeyHead.separatorPos_eq (h : KeyHead keyPart separator) (valuePart : Bytes) :
    separatorPos ((keyPart ++ separator :: valuePart).take
      (findInlineComment {} (keyPart ++ separator :: valuePart))) = some keyPart.length := by
  obtain ⟨q, hq⟩ := h.scan
  rw [IniReader.separatorPos_eq, hq valuePart, List.take_append, Nat.add_assoc,
    List.take_of_length_le (Nat.le_add_right _ _), Nat.add_sub_cancel_left, Nat.add_comm 1,
    List.take_succ_cons]
  exact findIdx?_append_cons _ h.noSeparator h.isSeparator

/-! ## Forms -/

/-- What a line is read as behind a section header: the section that it starts, and its entry. -/
inductive LineForm (currentSection : Bytes) : Bytes → Option Bytes → Option Entry → Prop
  | blank {raw : Bytes} (h : (trimAscii raw).head? = none) : LineForm currentSection raw none none
  | comment {raw : Bytes} {first : UInt8} (h : (trimAscii raw).head? = some first)
      (hfirst : isCommentMarker {} first = true) : LineForm currentSection raw none none
  | header {raw : Bytes} {close : Nat} (h : (trimAscii raw).head? = some 91)
      (hclose : (trimAscii raw).findIdx? (· == 93) = some close) :
      LineForm currentSection raw
        (some (trimAscii (((trimAscii raw).drop 1).take (close - 1)))) none
  | key {keyPart valuePart : Bytes} {separator : UInt8} (h : KeyHead keyPart separator) :
      LineForm currentSection (keyPart ++ separator :: valuePart) none
        (some ⟨currentSection, trimAscii keyPart, valueText {} valuePart⟩)

variable {raw : Bytes}

/-- The separator of a line that is read as a key. -/
theorem keyHead_of_separatorPos {first : UInt8} {pos : Nat}
    (hfirst : (trimAscii raw).head? = some first) (hmarker : isCommentMarker {} first = false)
    (hheader : first ≠ 91) (hpos : separatorPos (raw.take (findInlineComment {} raw)) = some pos) :
    ∃ keyPart separator valuePart, raw = keyPart ++ separator :: valuePart ∧
      keyPart.length = pos ∧ KeyHead keyPart separator := by
  rw [separatorPos_eq] at hpos
  obtain ⟨keyPart, separator, rest, htake, hlength, hseparator, hno⟩ := exists_of_findIdx? hpos
  have hraw : raw = (keyPart ++ [separator]) ++ (rest ++ raw.drop (findInlineComment {} raw)) := by
    conv_lhs => rw [← List.take_append_drop (findInlineComment {} raw) raw, htake]
    simp
  have hle : (keyPart ++ [separator]).length ≤ findInlineComment {} raw := by
    have hlen := congrArg List.length htake
    rw [List.length_take] at hlen
    simp only [List.length_append, List.length_cons, List.length_nil] at hlen ⊢
    omega
  refine ⟨keyPart, separator, rest ++ raw.drop (findInlineComment {} raw), by simpa using hraw,
    hlength, ?_, hno, hseparator, ?_⟩
  · unfold findInlineComment at hle
    rw [hraw] at hle
    obtain ⟨q, hq⟩ := scanComment_append {} {} none _ _ hle
    refine ⟨q, fun cs => ?_⟩
    have hcs := hq cs
    rw [List.append_assoc, List.singleton_append, List.length_append] at hcs
    unfold findInlineComment
    rw [hcs]
    simp
  · intro b hb
    have hnot : ∃ x ∈ keyPart ++ [separator], isSpace x = false :=
      ⟨separator, by simp, not_isSpace_of_isSeparator hseparator⟩
    have hhead : (trimAscii raw).head? = some b := by
      rw [IniReader.head?_trimAscii, hraw, dropWhile_append_not hnot]
      cases hdrop : (keyPart ++ [separator]).dropWhile isSpace with
      | nil =>
        rw [hdrop] at hb
        cases hb
      | cons b' t =>
        rw [hdrop] at hb
        exact hb
    obtain rfl : first = b := Option.some.inj (hfirst.symm.trans hhead)
    exact ⟨hheader, hmarker⟩

/-! ## What has a form is read -/

theorem ascii_of_isSpace (h : isSpace b = true) : b < 0x80 := by
  unfold isSpace at h
  simp only [Bool.or_eq_true, beq_iff_eq] at h
  rcases h with ((rfl | rfl) | rfl) | rfl <;> decide

theorem ascii_of_isSeparator (h : isSeparator b = true) : b < 0x80 := by
  unfold isSeparator at h
  simp only [Bool.or_eq_true, beq_iff_eq] at h
  rcases h with rfl | rfl <;> decide

theorem ascii_of_marker (h : isCommentMarker {} b = true) : b < 0x80 := by
  rcases (isCommentMarker_default b).mp h with rfl | rfl <;> decide

variable {s : Bytes}

theorem isUtf8_spaces (h : ∀ b ∈ s, isSpace b = true) : IsUtf8 s :=
  isUtf8_of_ascii fun b hb => ascii_of_isSpace (h b hb)

theorem isSpace_takeWhile (s : Bytes) : ∀ b ∈ s.takeWhile isSpace, isSpace b = true :=
  fun _ hb => List.mem_takeWhile_imp hb

theorem isSpace_rtakeWhile (s : Bytes) : ∀ b ∈ s.rtakeWhile isSpace, isSpace b = true :=
  fun _ hb => List.mem_rtakeWhile_imp hb

/-- Trimming cuts valid UTF-8 between characters. -/
theorem isUtf8_trimAscii (h : IsUtf8 s) : IsUtf8 (trimAscii s) := by
  rw [← key_pieces s, List.append_assoc] at h
  refine (h.of_append_ascii fun b hb => ?_).of_append_ascii_right fun b hb => ?_
  · exact ascii_of_isSpace (isSpace_takeWhile s b hb)
  · exact ascii_of_isSpace (isSpace_rtakeWhile _ b hb)

/-- The comment of a value: nothing, or a marker with what follows. -/
def IsComment (s : Bytes) : Prop := s = [] ∨ ∃ m rest, s = m :: rest ∧ isCommentMarker {} m = true

theorem isComment_drop (valuePart : Bytes) :
    IsComment (valuePart.drop (findInlineComment {} valuePart)) :=
  (scanComment_lt {} {} none valuePart).2

theorem IsComment.takeWhile_eq_nil (h : IsComment s) : s.takeWhile isSpace = [] := by
  rcases h with rfl | ⟨m, rest, rfl, hm⟩
  · rfl
  · exact List.takeWhile_cons_of_neg (by simp [not_isSpace_of_marker hm])

/-- The text of a value is that before the comment; a comment and the spaces before it follow. -/
theorem value_comment (before : Bytes) {comment : Bytes} (h : IsComment comment) :
    (before ++ comment).takeWhile isSpace = before.takeWhile isSpace ∧
      (before ++ comment).drop
          ((before.takeWhile isSpace).length + (trimAscii before).length) =
        (before.dropWhile isSpace).rtakeWhile isSpace ++ comment := by
  constructor
  · rw [List.takeWhile_append, h.takeWhile_eq_nil, List.append_nil]
    split_ifs with hlen
    · exact ((List.takeWhile_prefix isSpace).eq_of_length hlen).symm
    · rfl
  · have hpieces := key_pieces before
    calc (before ++ comment).drop ((before.takeWhile isSpace).length + (trimAscii before).length)
        = ((before.takeWhile isSpace ++ trimAscii before) ++
            ((before.dropWhile isSpace).rtakeWhile isSpace ++ comment)).drop
              (before.takeWhile isSpace ++ trimAscii before).length := by
          rw [← List.append_assoc, hpieces, List.length_append]
      _ = (before.dropWhile isSpace).rtakeWhile isSpace ++ comment := List.drop_left

/-- A value with what is around it, cut at its comment. -/
theorem valuePart_cut (valuePart : Bytes) : ∃ before comment, valuePart = before ++ comment ∧
    IsComment comment ∧ valueText {} valuePart = trimAscii before ∧
    valuePart.takeWhile isSpace = before.takeWhile isSpace ∧
    valuePart.drop ((valuePart.takeWhile isSpace).length + (valueText {} valuePart).length) =
      (before.dropWhile isSpace).rtakeWhile isSpace ++ comment := by
  have hcut := List.take_append_drop (findInlineComment {} valuePart) valuePart
  have hcomment := isComment_drop valuePart
  have htext := valueText_eq {} valuePart
  obtain ⟨hstart, hdrop⟩ :=
    value_comment (valuePart.take (findInlineComment {} valuePart)) hcomment
  rw [hcut] at hstart hdrop
  refine ⟨_, _, hcut.symm, hcomment, htext, hstart, ?_⟩
  rw [hstart, htext, hdrop]

theorem IsComment.isUtf8 {before comment : Bytes} (h : IsComment comment)
    (hutf8 : IsUtf8 (before ++ comment)) : IsUtf8 before ∧ IsUtf8 comment := by
  rcases h with rfl | ⟨m, rest, rfl, hm⟩
  · exact ⟨by simpa using hutf8, isUtf8_nil⟩
  · obtain ⟨hbefore, hrest⟩ := hutf8.split (ascii_of_marker hm)
    refine ⟨hbefore, ?_⟩
    have hm' : IsUtf8 [m] := isUtf8_of_ascii (by simpa using ascii_of_marker hm)
    exact hm'.append hrest

variable {currentSection : Bytes}

/-- A key line of valid UTF-8 is cut into valid pieces. -/
theorem keyValueRecord_ok (record : LineRecord) {valuePart : Bytes}
    (hseparator : isSeparator separator = true)
    (hraw : IsUtf8 (keyPart ++ separator :: valuePart)) (hsection : IsUtf8 currentSection) :
    ∃ r, keyValueRecord {} record (keyPart ++ separator :: valuePart) currentSection
      keyPart.length = .ok r := by
  obtain ⟨hkeyPart, hvaluePart⟩ := hraw.split (ascii_of_isSeparator hseparator)
  obtain ⟨before, comment, hcut, hcomment, htext, hstart, hdrop⟩ := valuePart_cut valuePart
  rw [hcut] at hvaluePart
  obtain ⟨hbefore, hcommentUtf8⟩ := hcomment.isUtf8 hvaluePart
  have hseparatorUtf8 : IsUtf8 [separator] :=
    isUtf8_of_ascii (by simpa using ascii_of_isSeparator hseparator)
  have hvaluePrefix : valuePart.take (valuePart.takeWhile isSpace).length =
      valuePart.takeWhile isSpace :=
    (List.prefix_iff_eq_take.mp (List.takeWhile_prefix isSpace)).symm
  unfold keyValueRecord
  rw [List.take_left, ← List.drop_drop, List.drop_left]
  rw [htext] at hdrop
  simp only [List.drop_succ_cons, List.drop_zero, List.take_succ_cons, List.take_zero, hdrop, htext,
    hvaluePrefix]
  rw [internStd_ok hsection, except_ok_bind, internStd_ok (isUtf8_trimAscii hkeyPart),
    except_ok_bind, internStd_ok (isUtf8_trimAscii hbefore), except_ok_bind,
    internStd_ok (isUtf8_spaces (isSpace_takeWhile keyPart)), except_ok_bind,
    internStd_ok (isUtf8_spaces (isSpace_rtakeWhile _)), except_ok_bind,
    internStd_ok hseparatorUtf8, except_ok_bind,
    internStd_ok (isUtf8_spaces (isSpace_takeWhile valuePart)), except_ok_bind,
    internStd_ok ((isUtf8_spaces (isSpace_rtakeWhile _)).append hcommentUtf8), except_ok_bind]
  exact ⟨_, rfl⟩

/-- The name in a section header is valid UTF-8. -/
theorem isUtf8_header {close : Nat} (hraw : IsUtf8 raw) (hhead : (trimAscii raw).head? = some 91)
    (hclose : (trimAscii raw).findIdx? (· == 93) = some close) :
    IsUtf8 (trimAscii (((trimAscii raw).drop 1).take (close - 1))) := by
  obtain ⟨l, c, r, htrim, hlength, hc, -⟩ := exists_of_findIdx? hclose
  have hutf8 := isUtf8_trimAscii hraw
  rw [htrim] at hutf8 hhead ⊢
  obtain rfl : c = 93 := by simpa using hc
  have hl := (hutf8.split (by decide)).1
  cases l with
  | nil => cases hhead
  | cons b l =>
    obtain rfl : b = 91 := Option.some.inj hhead
    rw [← hlength]
    refine isUtf8_trimAscii ?_
    change IsUtf8 ((l ++ 93 :: r).take (l.length + 1 - 1))
    rw [Nat.add_sub_cancel, List.take_left]
    exact hl.of_cons (by decide)

/-- **A line that has a form is read as the form says.** -/
theorem parseLine_of_lineForm {lineEnding : Bytes} {next : Option Bytes}
    {entry : Option Entry} (h : LineForm currentSection raw next entry) (hraw : IsUtf8 raw)
    (hending : IsUtf8 lineEnding) (hsection : IsUtf8 currentSection) (lineNumber : Nat) :
    ∃ parsed, parseLine {} raw lineEnding currentSection lineNumber = .ok parsed ∧
      parsed.nextSection = next ∧ parsed.record.line.entry? = entry := by
  unfold parseLine
  rw [if_neg (by rw [isValid_iff.mpr hraw]; exact nofun), internStd_ok hraw, except_ok_bind,
    internStd_ok hending, except_ok_bind, internStd_ok hsection, except_ok_bind]
  dsimp only
  unfold parseRecord
  cases h with
  | blank h =>
    rw [h]
    exact ⟨_, rfl, rfl, rfl⟩
  | comment h hfirst =>
    rw [h]
    dsimp only
    rw [if_pos hfirst]
    exact ⟨_, rfl, rfl, rfl⟩
  | header h hclose =>
    rw [h]
    dsimp only
    rw [if_neg (by decide)]
    unfold parseContent
    rw [if_pos h, hclose]
    dsimp only
    rw [internStd_ok (isUtf8_header hraw h hclose), except_ok_bind]
    exact ⟨_, rfl, rfl, rfl⟩
  | key hkey =>
    rename_i keyPart valuePart separator
    obtain ⟨b, hhead, hheader, hmarker⟩ := hkey.head?_trimAscii valuePart
    rw [hhead]
    dsimp only
    rw [if_neg (by simp [hmarker])]
    unfold parseContent
    dsimp only
    rw [hhead, if_neg fun h => hheader (Option.some.inj h), hkey.separatorPos_eq]
    dsimp only
    rw [if_neg nofun]
    obtain ⟨r, hr⟩ := keyValueRecord_ok
      { line := { sectionName := currentSection }, raw := keyPart ++ separator :: valuePart,
        lineEnding := lineEnding } hkey.isSeparator hraw hsection
    rw [hr, except_ok_bind]
    refine ⟨_, rfl, rfl, ?_⟩
    have hline := (keyValueRecord_spec {} hr).1.line
    rw [List.take_left, ← List.drop_drop, List.drop_left] at hline
    change r.line.entry? = _
    rw [hline]
    rfl

/-! ## Spaces before a line -/

variable {spaces : Bytes}

theorem KeyHead.prepend_spaces
    (h : KeyHead keyPart separator) (hspaces : ∀ b ∈ spaces, isSpace b = true) :
    KeyHead (spaces ++ keyPart) separator := by
  obtain ⟨q, hq⟩ := h.scan
  refine ⟨⟨q, fun rest => ?_⟩, fun b hb => ?_, h.isSeparator, fun b hb => ?_⟩
  · unfold findInlineComment
    rw [List.append_assoc, scanComment_plain rfl none fun b hb => isPlain_of_isSpace (hspaces b hb)]
    have hprev : (spaces.getLast?.or none).all isSpace = (none : Option UInt8).all isSpace := by
      cases hlast : spaces.getLast? with
      | none => rfl
      | some b => exact hspaces b (List.mem_of_getLast? hlast)
    rw [scanComment_prev {} {} hprev]
    have hrest := hq rest
    unfold findInlineComment at hrest
    rw [hrest, List.length_append]
    omega
  · rcases List.mem_append.mp hb with hb | hb
    · cases hseparator : IniReader.isSeparator b with
      | false => rfl
      | true =>
        have hspace := hspaces b hb
        rw [not_isSpace_of_isSeparator hseparator] at hspace
        cases hspace
    · exact h.noSeparator b hb
  · rw [List.append_assoc, List.dropWhile_append_of_pos hspaces] at hb
    exact h.start b hb

/-- **Spaces before a line change nothing.** -/
theorem LineForm.prepend_spaces {next : Option Bytes}
    {entry : Option Entry} (h : LineForm currentSection raw next entry)
    (hspaces : ∀ b ∈ spaces, isSpace b = true) :
    LineForm currentSection (spaces ++ raw) next entry := by
  have htrim : trimAscii (spaces ++ raw) = trimAscii raw := trim_append_left hspaces raw
  cases h with
  | blank h => exact LineForm.blank (by rw [htrim, h])
  | comment h hfirst => exact LineForm.comment (by rw [htrim, h]) hfirst
  | header h hclose =>
    rw [← htrim] at h hclose ⊢
    exact LineForm.header h hclose
  | key hkey =>
    rename_i keyPart valuePart separator
    have hkeyPart : trimAscii (spaces ++ keyPart) = trimAscii keyPart :=
      trim_append_left hspaces keyPart
    rw [← hkeyPart, ← List.append_assoc]
    exact LineForm.key (hkey.prepend_spaces hspaces)

/-! ## What is read has a form -/

/-- A key line whose value can be changed: the pieces around the value. -/
structure Editable (r : LineRecord) : Prop where
  head : ∃ c, r.separator = [c] ∧ KeyHead (r.keyPrefix ++ r.line.key ++ r.keySuffix) c
  key : trimAscii (r.keyPrefix ++ r.line.key ++ r.keySuffix) = r.line.key
  valuePrefix : ∀ b ∈ r.valuePrefix, isSpace b = true
  comment : ∃ spaces comment, r.commentSuffix = spaces ++ comment ∧
    (∀ b ∈ spaces, isSpace b = true) ∧ IsComment comment
  utf8 : IsUtf8 (r.keyPrefix ++ r.line.key ++ r.keySuffix ++ r.separator ++ r.valuePrefix) ∧
    IsUtf8 r.commentSuffix

variable {r : LineRecord}

theorem KeyValueSpec.editable {valuePart : Bytes}
    (h : KeyValueSpec {} r (keyPart ++ separator :: valuePart) currentSection
      keyPart.length) (hkey : KeyHead keyPart separator) : Editable r := by
  obtain ⟨hline, hkeyPrefix, hkeySuffix, hseparator, hvaluePrefix, hcommentSuffix, -, hutf8⟩ := h
  have hdropKey : (keyPart ++ separator :: valuePart).drop (keyPart.length + 1) = valuePart := by
    rw [← List.drop_drop, List.drop_left]
    rfl
  rw [List.take_left] at hline hkeyPrefix hkeySuffix
  rw [hdropKey] at hline hvaluePrefix hcommentSuffix
  rw [List.drop_left] at hseparator
  have hparts : r.keyPrefix ++ r.line.key ++ r.keySuffix = keyPart := by
    rw [hline, hkeyPrefix, hkeySuffix]
    exact key_pieces keyPart
  obtain ⟨before, comment, -, hcomment, -, -, hdrop⟩ := valuePart_cut valuePart
  refine ⟨⟨separator, hseparator, hparts ▸ hkey⟩, ?_, ?_, ?_, ?_⟩
  · rw [hparts, hline]
  · rw [hvaluePrefix]
    intro b hb
    refine isSpace_takeWhile valuePart b ?_
    rw [List.prefix_iff_eq_take.mp (List.takeWhile_prefix isSpace)]
    exact hb
  · refine ⟨_, comment, ?_, isSpace_rtakeWhile (before.dropWhile isSpace), hcomment⟩
    rw [hcommentSuffix]
    exact hdrop
  · obtain ⟨h1, -, h3, h4, h5, h6, h7⟩ := hutf8
    exact ⟨(((h3.append h1).append h4).append h5).append h6, h7⟩

/-- What a line that is read gives under the default options. -/
structure ParsedForm (currentSection raw : Bytes) (parsed : LineParse) : Prop where
  form : LineForm currentSection raw parsed.nextSection parsed.record.line.entry?
  section_eq : parsed.nextSection = parsed.record.line.section?
  editable : parsed.record.line.kind = .keyValue → Editable parsed.record

/-- **A line that is read has a form.** -/
theorem parsedForm_of_parseLine {lineEnding : Bytes} {lineNumber : Nat}
    {parsed : LineParse} (h : parseLine {} raw lineEnding currentSection lineNumber = .ok parsed) :
    ParsedForm currentSection raw parsed := by
  obtain ⟨-, h⟩ := parseLine_eq_ok {} h
  unfold parseRecord at h
  cases hhead : (trimAscii raw).head? with
  | none =>
    rw [hhead] at h
    cases h
    exact ⟨LineForm.blank hhead, rfl, nofun⟩
  | some first =>
    rw [hhead] at h
    dsimp only at h
    by_cases hcomment : isCommentMarker {} first = true
    · rw [if_pos hcomment] at h
      cases h
      exact ⟨LineForm.comment hhead hcomment, rfl, nofun⟩
    rw [if_neg hcomment] at h
    unfold parseContent at h
    by_cases hheader : (trimAscii raw).head? = some 91
    · rw [if_pos hheader] at h
      cases hclose : (trimAscii raw).findIdx? (· == 93) with
      | none =>
        rw [hclose] at h
        exact absurd h lineError_ne_ok
      | some close =>
        rw [hclose] at h
        obtain ⟨name, hname, h⟩ := except_bind_eq_ok.mp h
        obtain ⟨rfl, -⟩ := internStd_eq_ok hname
        cases h
        exact ⟨LineForm.header hheader hclose, rfl, nofun⟩
    · rw [if_neg hheader] at h
      cases hpos : separatorPos (raw.take (findInlineComment {} raw)) with
      | none =>
        rw [hpos] at h
        exact absurd h lineError_ne_ok
      | some pos =>
        rw [hpos] at h
        dsimp only at h
        rw [if_neg nofun] at h
        obtain ⟨r, hr, h⟩ := except_bind_eq_ok.mp h
        cases h
        obtain ⟨hspec, -, -⟩ := keyValueRecord_spec {} hr
        obtain ⟨keyPart, separator, valuePart, rfl, rfl, hkey⟩ := keyHead_of_separatorPos hhead
          (by simpa using hcomment) (fun h91 => hheader (h91 ▸ hhead)) hpos
        have hentry : r.line.entry? =
            some ⟨currentSection, trimAscii keyPart, valueText {} valuePart⟩ := by
          rw [hspec.line, List.take_left, ← List.drop_drop, List.drop_left]
          rfl
        have hsection : r.line.section? = none := by
          rw [hspec.line]
          rfl
        refine ⟨?_, hsection.symm, fun _ => hspec.editable hkey⟩
        change LineForm currentSection _ none r.line.entry?
        rw [hentry]
        exact LineForm.key hkey

/-! ## A value that is put in place -/

/-- A comment that follows a space, or nothing, is found. -/
theorem scanComment_marker {prev : Option UInt8} (hprev : prev.all isSpace = true) {m : UInt8}
    (hm : isCommentMarker {} m = true) (rest : Bytes) : scanComment {} {} prev (m :: rest) = 0 := by
  have hne : m ≠ 92 ∧ m ≠ 39 ∧ m ≠ 34 := by
    rcases (isCommentMarker_default m).mp hm with rfl | rfl <;> decide
  have hstep : scanStep {} {} prev m = none := by
    unfold scanStep
    rw [if_neg fun h => hne.1 h.1, if_neg fun h => hne.2.1 h.1, if_neg fun h => hne.2.2 h.1,
      if_pos ⟨rfl, rfl, rfl, hm, .inr hprev⟩]
  rw [scanComment_cons, hstep]

variable {value : Bytes}

/-- **A plain value is read as it is**, between spaces and a comment that it does not touch. -/
theorem valueText_of_plain {before comment : Bytes}
    (hbefore : ∀ b ∈ before, isSpace b = true) (hplain : ∀ b ∈ value, IsPlain b)
    (htrim : trimAscii value = value) (hspaces : ∀ b ∈ spaces, isSpace b = true)
    (hcomment : IsComment comment) (happart : value = [] ∨ spaces ≠ [] ∨ comment = []) :
    valueText {} (before ++ value ++ spaces ++ comment) = value := by
  have hall : ∀ b ∈ before ++ value ++ spaces, IsPlain b := by
    refine List.forall_mem_append.mpr ⟨List.forall_mem_append.mpr ⟨?_, hplain⟩, ?_⟩
    · exact fun b hb => isPlain_of_isSpace (hbefore b hb)
    · exact fun b hb => isPlain_of_isSpace (hspaces b hb)
  have hscan := scanComment_plain (q := {}) rfl none hall comment
  have hstart : scanComment {} {} ((before ++ value ++ spaces).getLast?.or none) comment = 0 := by
    rcases hcomment with rfl | ⟨m, rest, rfl, hm⟩
    · rfl
    · refine scanComment_marker ?_ hm rest
      cases hlast : (before ++ value ++ spaces).getLast? with
      | none => rfl
      | some b =>
        have hmem := List.mem_of_getLast? hlast
        rcases happart with rfl | hne | hcomment
        · rw [List.append_nil] at hmem
          rcases List.mem_append.mp hmem with hb | hb
          · exact hbefore b hb
          · exact hspaces b hb
        · rw [List.getLast?_append_of_ne_nil _ hne] at hlast
          exact hspaces b (List.mem_of_getLast? hlast)
        · cases hcomment
  have htext : findInlineComment {} (before ++ value ++ spaces ++ comment) =
      (before ++ value ++ spaces).length := by
    unfold findInlineComment
    rw [hscan, hstart, Nat.add_zero]
  rw [valueText_eq, htext, List.take_left, trimAscii_eq, trim_append_right hspaces,
    trim_append_left hbefore]
  exact htrim

/-- The text of a key line with another value. -/
def LineRecord.withValue (r : LineRecord) (value : Bytes) : Bytes :=
  { r with line := { r.line with value := value } }.pieces

/-- A value of plain bytes, trimmed, on one line. -/
structure IsPlainValue (value : Bytes) : Prop where
  plain : ∀ b ∈ value, IsPlain b
  noBreak : NoBreak value
  trimmed : trimAscii value = value
  utf8 : IsUtf8 value

/-- A value put before a comment has to be empty, or to have a space behind it. -/
def Apart (r : LineRecord) (value : Bytes) : Prop :=
  value = [] ∨ ∀ b ∈ r.commentSuffix.head?, isSpace b = true

instance (r : LineRecord) (value : Bytes) : Decidable (Apart r value) :=
  inferInstanceAs (Decidable (value = [] ∨ ∀ b ∈ r.commentSuffix.head?, isSpace b = true))

/-- **A key line whose value is changed is read with the new value.** -/
theorem Editable.lineForm (h : Editable r)
    (hvalue : IsPlainValue value) (hapart : Apart r value) (currentSection : Bytes) :
    LineForm currentSection (LineRecord.withValue r value) none
      (some ⟨currentSection, r.line.key, value⟩) := by
  obtain ⟨c, hseparator, hkey⟩ := h.head
  obtain ⟨spaces, comment, hsuffix, hspaces, hcomment⟩ := h.comment
  have happart : value = [] ∨ spaces ≠ [] ∨ comment = [] := by
    refine hapart.imp_right fun hhead => ?_
    rw [hsuffix] at hhead
    rcases hcomment with rfl | ⟨m, rest, rfl, hm⟩
    · exact .inr rfl
    · refine .inl fun hnil => ?_
      have hm' := hhead m (by rw [hnil]; rfl)
      rw [not_isSpace_of_marker hm] at hm'
      cases hm'
  have htext :=
    valueText_of_plain h.valuePrefix hvalue.plain hvalue.trimmed hspaces hcomment happart
  have hform : LineForm currentSection
      (r.keyPrefix ++ r.line.key ++ r.keySuffix ++
        c :: (r.valuePrefix ++ value ++ spaces ++ comment)) none _ := LineForm.key hkey
  rw [htext, h.key] at hform
  have hraw : LineRecord.withValue r value = r.keyPrefix ++ r.line.key ++ r.keySuffix ++
      c :: (r.valuePrefix ++ value ++ spaces ++ comment) := by
    unfold LineRecord.withValue LineRecord.pieces
    rw [hseparator, hsuffix]
    simp
  rwa [hraw]

theorem Editable.isUtf8_withValue (h : Editable r)
    (hvalue : IsUtf8 value) : IsUtf8 (LineRecord.withValue r value) :=
  (h.utf8.1.append hvalue).append h.utf8.2

end IniReader

end Libca.Ini
