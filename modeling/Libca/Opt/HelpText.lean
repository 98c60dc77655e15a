import Libca.Common.Bytes
import Mathlib.Data.List.DropRight

/-!
# Lines of a help table

Model of the wrapping of one line in `HelpTable` (`opt/opt.cpp`): the decoder `help_utf8_next`, the
two widths, `help_wrap_tokenize` and `help_wrap_line`. A string view with an index is the rest of
the string.

* `helpUtf8Next`: one code point, or one byte that does not begin one.
* `helpStringWidth`: code points, or columns of a terminal.
* `helpWrapLine`: greedy wrapping, with a hard cut of what is wider than a line.
-/

namespace Libca.Opt

open Common

/-- `WidthMode`. -/
inductive WidthMode
  | codepoint
  | display
  deriving DecidableEq, Repr

/-! ## Code points -/

/-- `(c & 0xC0) == 0x80`. -/
def isContinuation (c : UInt8) : Bool := c &&& 0xC0 == 0x80

/-- `help_utf8_codepoint_count`. -/
def helpUtf8CodepointCount (text : Bytes) : Nat := text.countP fun c => !isContinuation c

/-- What `help_utf8_next` reads: a code point and its length. -/
structure HelpChar where
  cp : Nat
  length : Nat
  valid : Bool
  deriving DecidableEq, Repr

/-- A byte that does not begin a code point. -/
def HelpChar.replacement : HelpChar := ⟨0xFFFD, 1, false⟩

/-- The length that a lead byte tells, and its bits of the code point. -/
def helpLead (lead : UInt8) : Option (Nat × Nat) :=
  if lead < 0x80 then some (1, lead.toNat)
  else if lead &&& 0xE0 = 0xC0 then some (2, (lead &&& 0x1F).toNat)
  else if lead &&& 0xF0 = 0xE0 then some (3, (lead &&& 0x0F).toNat)
  else if lead &&& 0xF8 = 0xF0 then some (4, (lead &&& 0x07).toNat)
  else none

/-- `help_utf8_next`, which is called where there is a byte. -/
def helpUtf8Next (s : Bytes) : HelpChar :=
  match s with
  | [] => .replacement
  | lead :: rest =>
    match helpLead lead with
    | none => .replacement
    | some (len, value) =>
      if len ≤ rest.length + 1 ∧ (rest.take (len - 1)).all isContinuation = true then
        ⟨(rest.take (len - 1)).foldl (fun value cont => value * 64 + (cont &&& 0x3F).toNat) value,
          len, true⟩
      else .replacement

theorem helpLead_pos {lead : UInt8} {len value : Nat} (h : helpLead lead = some (len, value)) :
    1 ≤ len := by
  unfold helpLead at h
  split_ifs at h <;> cases h <;> decide

theorem helpUtf8Next_length_pos (s : Bytes) : 1 ≤ (helpUtf8Next s).length := by
  unfold helpUtf8Next
  split
  · exact le_rfl
  · split
    · exact le_rfl
    · next hlead =>
      split_ifs
      · exact helpLead_pos hlead
      · exact le_rfl

/-! ## Widths -/

/-- Code points without a width: combining marks, zero-width characters and variation selectors. -/
def zeroWidthRanges : List (Nat × Nat) :=
  [(0x0300, 0x036F), (0x200B, 0x200F), (0xFE00, 0xFE0F), (0xFEFF, 0xFEFF)]

/-- Code points of two columns. -/
def wideRanges : List (Nat × Nat) :=
  [(0x1100, 0x115F), (0x2E80, 0x303E), (0x3041, 0x33FF), (0x3400, 0x4DBF), (0x4E00, 0x9FFF),
    (0xA000, 0xA4CF),
    (0xA960, 0xA97F), (0xAC00, 0xD7A3), (0xF900, 0xFAFF), (0xFE10, 0xFE19), (0xFE30, 0xFE6F),
      (0xFF00, 0xFF60),
    (0xFFE0, 0xFFE6), (0x1F300, 0x1F64F), (0x1F680, 0x1F6FF), (0x1F900, 0x1F9FF),
      (0x20000, 0x2FFFD),
    (0x30000, 0x3FFFD)]

def inRanges (ranges : List (Nat × Nat)) (cp : Nat) : Bool := ranges.any fun range =>
    range.1 ≤ cp && cp ≤ range.2

/-- `help_codepoint_display_width`. -/
def helpCodepointDisplayWidth (cp : Nat) : Nat :=
  if cp < 0x20 ∨ 0x7F ≤ cp ∧ cp ≤ 0x9F then 0
  else if inRanges zeroWidthRanges cp then 0
  else if inRanges wideRanges cp then 2
  else 1

/-- The loop of `help_string_width`. -/
def helpDisplayWidth (text : Bytes) : Nat :=
  if text = [] then 0
  else helpCodepointDisplayWidth (helpUtf8Next text).cp + helpDisplayWidth
    (text.drop (helpUtf8Next text).length)
termination_by text.length
decreasing_by
  have hpos := helpUtf8Next_length_pos text
  have hlength := List.length_pos_iff.mpr ‹_›
  rw [List.length_drop]
  omega

/-- `help_string_width`. -/
def helpStringWidth (text : Bytes) : WidthMode → Nat
  | .codepoint => helpUtf8CodepointCount text
  | .display => helpDisplayWidth text

/-! ## Tokens -/

/-- `HelpWrapToken`: blanks, a word without wide code points, or one wide code point. -/
structure HelpWrapToken where
  text : Bytes
  width : Nat
  isSpace : Bool

def blank : UInt8 := 0x20

/-- `if (!cur.empty()) tokens.push_back(…)`. -/
def pushWord (cur : Bytes) (curW : Nat) (tokens : List HelpWrapToken) : List HelpWrapToken :=
  if cur = [] then tokens else ⟨cur, curW, false⟩ :: tokens

/-- The loops of `help_wrap_tokenize`, in a word that has begun with `cur`. -/
def tokenizeFrom (mode : WidthMode) (line cur : Bytes) (curW : Nat) : List HelpWrapToken :=
  match line with
  | [] => pushWord cur curW []
  | c :: rest =>
    if c = blank then
      let text := blank :: rest.takeWhile (· == blank)
      pushWord cur curW
        (⟨text, helpStringWidth text mode, true⟩ :: tokenizeFrom mode
          (rest.dropWhile (· == blank)) [] 0)
    else
      let next := helpUtf8Next (c :: rest)
      let w := helpCodepointDisplayWidth next.cp
      if w = 2 then
        pushWord cur curW
          (⟨(c :: rest).take next.length, w, false⟩ :: tokenizeFrom mode
            ((c :: rest).drop next.length) [] 0)
      else tokenizeFrom mode ((c :: rest).drop next.length) (cur ++ (c :: rest).take next.length)
        (curW + w)
termination_by line.length
decreasing_by
  · have h := List.length_dropWhile_le (· == blank) rest
    simp only [List.length_cons]
    omega
  all_goals
    have hpos := helpUtf8Next_length_pos (c :: rest)
    simp only [List.length_drop, List.length_cons]
    omega

/-- `help_wrap_tokenize`. -/
def helpWrapTokenize (line : Bytes) (mode : WidthMode) : List HelpWrapToken :=
  tokenizeFrom mode line [] 0

/-! ## Wrapping -/

/-- The lines that are done, and the one that is being filled, with its width. -/
structure HelpWrap where
  out : List Bytes := []
  cur : Bytes := []
  curW : Nat := 0

/-- The loop of `flush`. -/
def trimBlanks (cur : Bytes) : Bytes := cur.rdropWhile (· == blank)

/-- `flush`. -/
def HelpWrap.flush (st : HelpWrap) : HelpWrap :=
  { out := st.out ++ [trimBlanks st.cur], cur := [], curW := 0 }

/-- The width of a code point in a hard cut. -/
def cutWidth (mode : WidthMode) (cp : Nat) : Nat :=
  match mode with
  | .display => helpCodepointDisplayWidth cp
  | .codepoint => 1

/-- The loop of the hard cut; `piece` is what comes from `piece_begin` on. -/
def hardCut (mode : WidthMode) (avail : Nat) (text : Bytes) (out : List Bytes) (piece : Bytes)
    (pieceW : Nat) :
    HelpWrap :=
  if text = [] then { out := out, cur := piece, curW := pieceW }
  else
    let next := helpUtf8Next text
    let w := cutWidth mode next.cp
    if avail < pieceW + w ∧ 0 < pieceW then
      hardCut mode avail (text.drop next.length) (out ++ [piece]) (text.take next.length) w
    else hardCut mode avail (text.drop next.length) out (piece ++ text.take next.length)
      (pieceW + w)
termination_by text.length
decreasing_by
  all_goals
    have hpos := helpUtf8Next_length_pos text
    have hlength := List.length_pos_iff.mpr ‹_›
    rw [List.length_drop]
    omega

/-- The body of the loop over the tokens. -/
def HelpWrap.add (mode : WidthMode) (avail : Nat) (st : HelpWrap) (tok : HelpWrapToken) :
    HelpWrap :=
  if tok.isSpace then
    if st.curW + tok.width ≤ avail then { st with cur := st.cur ++ tok.text, curW :=
      st.curW + tok.width }
    else if 0 < st.curW then st.flush
    else st
  else if avail < tok.width then
    let st := if 0 < st.curW then st.flush else st
    hardCut mode avail tok.text st.out [] 0
  else
    let st := if avail < st.curW + tok.width ∧ 0 < st.curW then st.flush else st
    { st with cur := st.cur ++ tok.text, curW := st.curW + tok.width }

/-- The lines at the end. -/
def HelpWrap.lines (st : HelpWrap) : List Bytes :=
  if st.cur ≠ [] ∨ st.out = [] then st.flush.out else st.out

/-- `help_wrap_line`. -/
def helpWrapLine (line : Bytes) (avail : Nat) (mode : WidthMode) : List Bytes :=
  if avail = 0 ∨ helpStringWidth line mode ≤ avail then [line]
  else ((helpWrapTokenize line mode).foldl (HelpWrap.add mode avail) {}).lines

end Libca.Opt
