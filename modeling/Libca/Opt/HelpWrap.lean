import Libca.Opt.HelpChars

/-!
# Wrapping loses nothing and fits (`opt/opt.cpp` 635-728)

* `Tokens`, `helpWrapTokenize_tokens`: what the tokens of a line are.
* `Wraps`: the lines hold the text, and each of them fits.
-/

namespace Libca.Opt

open Common

/-! ## The tokens of a line -/

/-- The three kinds of tokens. -/
inductive HelpWrapToken.Shape : HelpWrapToken → Prop
  | blanks (n : Nat) : Shape ⟨List.replicate (n + 1) blank, n + 1, true⟩
  | wide {text : Bytes} (hsingle : Single text) (hblank : blank ∉ text)
    (hwidth : helpDisplayWidth text = 2) :
    Shape ⟨text, 2, false⟩
  | word {text : Bytes} (hne : text ≠ []) (hblank : blank ∉ text) (hnarrow : ∀ c ∈ helpChars text,
      charWidth c ≤ 1) :
    Shape ⟨text, helpDisplayWidth text, false⟩

/-- Tokens that make up a text, of which only a word may end within a code point. -/
inductive Tokens : Bytes → List HelpWrapToken → Prop
  | nil : Tokens [] []
  | cons {tok : HelpWrapToken} {line : Bytes} {tokens : List HelpWrapToken} (hshape : tok.Shape)
    (hend : tok.isSpace = true ∨ Single tok.text ∨ NonContinuation line)
    (hrest : Tokens line tokens) :
    Tokens (tok.text ++ line) (tok :: tokens)

theorem nonContinuation_blank (t : Bytes) : NonContinuation (blank :: t) := by
  intro c hc
  cases hc
  decide

theorem whole_blanks (n : Nat) : Whole (List.replicate n blank) := by
  induction n with
  | zero => exact whole_nil
  | succ n ih =>
    have hsingle : Single [blank] := by unfold Single; decide
    exact hsingle.whole.append ih

theorem helpDisplayWidth_blanks (n : Nat) : helpDisplayWidth (List.replicate n blank) = n := by
  induction n with
  | zero => rw [helpDisplayWidth, if_pos List.replicate_zero]
  | succ n ih =>
    have hsingle : Single [blank] := by unfold Single; decide
    have hblank : helpDisplayWidth [blank] = 1 := by
      rw [helpDisplayWidth_eq, hsingle.helpChars_eq]
      decide
    rw [List.replicate_succ, ← List.singleton_append,
      helpDisplayWidth_append_of_whole hsingle.whole, ih, hblank, Nat.add_comm]

theorem helpStringWidth_blanks (n : Nat) (mode : WidthMode) :
    helpStringWidth (List.replicate n blank) mode = n := by
  cases mode with
  | display => exact helpDisplayWidth_blanks n
  | codepoint =>
    unfold helpStringWidth helpUtf8CodepointCount
    rw [List.countP_replicate, if_pos (by decide)]

theorem helpCodepointDisplayWidth_le (cp : Nat) (h : helpCodepointDisplayWidth cp ≠ 2) :
    helpCodepointDisplayWidth cp ≤ 1 := by
  unfold helpCodepointDisplayWidth at h ⊢
  split_ifs at h ⊢ <;> omega

variable {tokens : List HelpWrapToken}

/-- A word goes before tokens that begin with a blank or with a code point. -/
theorem Tokens.push {cur line : Bytes} (h : Tokens line tokens) (hblank : blank ∉ cur)
    (hnarrow : ∀ c ∈ helpChars cur, charWidth c ≤ 1) (hstart : NonContinuation line) :
    Tokens (cur ++ line) (pushWord cur (helpDisplayWidth cur) tokens) := by
  unfold pushWord
  split_ifs with hcur
  · rw [hcur]
    exact h
  · exact .cons (.word hcur hblank hnarrow) (.inr (.inr hstart)) h

theorem tokenizeFrom_tokens (mode : WidthMode) (line cur : Bytes) (curW : Nat)
    (hblank : blank ∉ cur)
    (hwidth : curW = helpDisplayWidth cur) (hnarrow : ∀ c ∈ helpChars cur, charWidth c ≤ 1)
    (hreads : Reads cur line) :
    Tokens (cur ++ line) (tokenizeFrom mode line cur curW) := by
  have hnil : 0 = helpDisplayWidth [] := by rw [helpDisplayWidth, if_pos rfl]
  have hnone : ∀ c ∈ helpChars [], charWidth c ≤ 1 := by
    rw [helpChars_nil]
    exact List.forall_mem_nil _
  fun_induction tokenizeFrom mode line cur curW with
  | case1 cur curW =>
    rw [hwidth]
    exact Tokens.nil.push hblank hnarrow nonContinuation_nil
  | case2 cur curW rest text ih =>
    have hrest := ih List.not_mem_nil hnil hnone (reads_nil _)
    rw [List.nil_append] at hrest
    obtain ⟨n, hn⟩ : ∃ n, text = List.replicate (n + 1) blank := by
      have hrun : rest.takeWhile (· == blank) =
        List.replicate (rest.takeWhile (· == blank)).length blank :=
        List.eq_replicate_of_mem fun c hc => by simpa using List.mem_takeWhile_imp hc
      exact ⟨_, congrArg (blank :: ·) hrun⟩
    have htokens := Tokens.cons (.blanks n) (.inl rfl) hrest
    have hline : blank :: rest = List.replicate (n + 1) blank ++ rest.dropWhile (· == blank) := by
      rw [← hn, List.cons_append, List.takeWhile_append_dropWhile]
    rw [hwidth, hn, helpStringWidth_blanks, hline]
    exact htokens.push hblank hnarrow (nonContinuation_blank _)
  | case3 cur curW c rest hc next w hwide ih =>
    have hrest := ih List.not_mem_nil hnil hnone (reads_nil _)
    rw [List.nil_append] at hrest
    have hvalid : next.valid = true := by
      cases hvalid : next.valid with
      | true => rfl
      | false =>
        have hreplaced : next = .replacement := helpUtf8Next_of_not_valid hvalid
        have hw : w = helpCodepointDisplayWidth HelpChar.replacement.cp := by rw [← hreplaced]
        rw [replacement_displayWidth, hwide] at hw
        cases hw
    have hsingle := single_take hvalid
    have hdisplay : helpDisplayWidth ((c :: rest).take next.length) = 2 := by
      rw [helpDisplayWidth_eq, hsingle.helpChars_eq, List.map_singleton, List.sum_singleton,
        charWidth_take]
      exact hwide
    have htokens := Tokens.cons (.wide hsingle (blank_notMem_take hc) hdisplay)
      (.inr (.inl hsingle)) hrest
    rw [List.take_append_drop] at htokens
    have hstart : NonContinuation (c :: rest) := by
      obtain ⟨lead, rest', len, value, heq, hlead, -⟩ := helpUtf8Next_valid hvalid
      obtain ⟨rfl, -⟩ := List.cons.inj heq
      intro b hb
      cases hb
      exact helpLead_nonContinuation hlead
    rw [hwidth, hwide]
    exact htokens.push hblank hnarrow hstart
  | case4 cur curW c rest hc next w hwide ih =>
    have hne : c :: rest ≠ [] := List.cons_ne_nil c rest
    obtain ⟨hreads', hchars⟩ := hreads.step hne
    have hwidth' : curW + w = helpDisplayWidth (cur ++ (c :: rest).take next.length) := by
      rw [helpDisplayWidth_step hreads hne, hwidth]
    have hblank' : blank ∉ cur ++ (c :: rest).take next.length :=
      mt List.mem_append.mp (not_or.mpr ⟨hblank, blank_notMem_take hc⟩)
    have hnarrow' : ∀ piece ∈ helpChars (cur ++ (c :: rest).take next.length),
      charWidth piece ≤ 1 := by
      intro piece hpiece
      rw [hchars] at hpiece
      rcases List.mem_append.mp hpiece with hpiece | hpiece
      · exact hnarrow piece hpiece
      · rw [List.mem_singleton.mp hpiece, charWidth_take]
        exact helpCodepointDisplayWidth_le _ hwide
    have htokens := ih hblank' hwidth' hnarrow' hreads'
    rwa [List.append_assoc, List.take_append_drop] at htokens

/-- **The tokens of a line make up the line.** -/
theorem helpWrapTokenize_tokens (line : Bytes) (mode : WidthMode) :
    Tokens line (helpWrapTokenize line mode) :=
  tokenizeFrom_tokens mode line [] 0 List.not_mem_nil (by rw [helpDisplayWidth, if_pos rfl])
    (by simp [helpChars_nil]) (reads_nil line)

/-! ## What is kept -/

/-- A text without its blanks. -/
def noBlanks (s : Bytes) : Bytes := s.filter (· != blank)

theorem noBlanks_append (s t : Bytes) : noBlanks (s ++ t) = noBlanks s ++ noBlanks t :=
  List.filter_append s t

theorem noBlanks_blanks (n : Nat) : noBlanks (List.replicate n blank) = [] := by
  unfold noBlanks
  rw [List.filter_replicate, if_neg (by decide)]

theorem noBlanks_of_notMem {s : Bytes} (h : blank ∉ s) : noBlanks s = s := by
  refine List.filter_eq_self.mpr fun c hc => ?_
  simpa using ne_of_mem_of_not_mem hc h

/-- A text is what `flush` leaves of it, and blanks. -/
theorem trimBlanks_append (s : Bytes) : ∃ n, s = trimBlanks s ++ List.replicate n blank := by
  refine ⟨(s.rtakeWhile (· == blank)).length, ?_⟩
  have hrun : s.rtakeWhile (· == blank) = List.replicate (s.rtakeWhile (· == blank)).length blank :=
    List.eq_replicate_of_mem fun c hc => by simpa using List.mem_rtakeWhile_imp hc
  rw [← hrun]
  exact List.rdropWhile_append_rtakeWhile.symm

theorem noBlanks_trimBlanks (s : Bytes) : noBlanks (trimBlanks s) = noBlanks s := by
  obtain ⟨n, hn⟩ := trimBlanks_append s
  conv_rhs => rw [hn, noBlanks_append, noBlanks_blanks, List.append_nil]

theorem trimBlanks_append_blanks (s : Bytes) (n : Nat) :
    trimBlanks (s ++ List.replicate n blank) = trimBlanks s := by
  induction n with
  | zero => rw [List.replicate_zero, List.append_nil]
  | succ n ih =>
    rw [List.replicate_succ', ← List.append_assoc]
    exact (List.rdropWhile_concat_pos _ _ _ rfl).trans ih

/-- Nothing is trimmed where the last byte is no blank. -/
theorem trimBlanks_of_notMem {s t : Bytes} (hne : t ≠ []) (h : blank ∉ t) :
    trimBlanks (s ++ t) = s ++ t := by
  refine List.rdropWhile_eq_self_iff.mpr fun hst => ?_
  rw [List.getLast_append_of_ne_nil _ hne]
  simpa using ne_of_mem_of_not_mem (List.getLast_mem hne) h

theorem helpStringWidth_trimBlanks_le (s : Bytes) (mode : WidthMode) :
    helpStringWidth (trimBlanks s) mode ≤ helpStringWidth s mode := by
  obtain ⟨n, hn⟩ := trimBlanks_append s
  cases mode with
  | codepoint =>
    show helpUtf8CodepointCount _ ≤ helpUtf8CodepointCount s
    conv_rhs => rw [hn, helpUtf8CodepointCount_append]
    exact Nat.le_add_right _ _
  | display =>
    show helpDisplayWidth _ ≤ helpDisplayWidth s
    have hstart : NonContinuation (List.replicate n blank) := by
      cases n with
      | zero => exact nonContinuation_nil
      | succ n => exact nonContinuation_blank _
    conv_rhs => rw [hn, helpDisplayWidth_append hstart]
    exact Nat.le_add_right _ _

/-- A line that fits, or is one code point. -/
def Fits (mode : WidthMode) (avail : Nat) (line : Bytes) : Prop :=
  helpStringWidth line mode ≤ avail ∨ Single line

theorem fits_nil (mode : WidthMode) (avail : Nat) : Fits mode avail [] := by
  left
  cases mode with
  | codepoint => exact Nat.zero_le _
  | display =>
    show helpDisplayWidth [] ≤ avail
    rw [helpDisplayWidth, if_pos rfl]
    exact Nat.zero_le _

/-- The lines hold the text, and each of them fits. -/
structure Wraps (line : Bytes) (avail : Nat) (mode : WidthMode) (out : List Bytes) : Prop where
  kept : noBlanks out.flatten = noBlanks line
  fits : ∀ l ∈ out, Fits mode avail l

/-! ## The hard cut -/

variable {mode : WidthMode} {avail : Nat}

/-- The hard cut keeps its text, in order. -/
theorem hardCut_append (text : Bytes) (out : List Bytes) (piece : Bytes) (pieceW : Nat) :
    ∃ pieces, (hardCut mode avail text out piece pieceW).out = out ++ pieces ∧
      pieces.flatten ++ (hardCut mode avail text out piece pieceW).cur = piece ++ text := by
  fun_induction hardCut mode avail text out piece pieceW with
  | case1 out piece pieceW => exact ⟨[], (List.append_nil _).symm, (List.append_nil _).symm⟩
  | case2 text out piece pieceW htext next w hcut ih =>
    obtain ⟨pieces, hout, hpieces⟩ := ih
    refine ⟨piece :: pieces, by rw [hout, List.append_assoc, List.singleton_append], ?_⟩
    rw [List.flatten_cons, List.append_assoc, hpieces, List.take_append_drop]
  | case3 text out piece pieceW htext next w hcut ih =>
    obtain ⟨pieces, hout, hpieces⟩ := ih
    refine ⟨pieces, hout, ?_⟩
    rw [hpieces, List.append_assoc, List.take_append_drop]

/-- A piece of a hard cut that is being filled. -/
structure Piece (mode : WidthMode) (avail : Nat) (piece : Bytes) (pieceW : Nat) : Prop where
  width : helpStringWidth piece mode ≤ pieceW
  fits : pieceW ≤ avail
  display : mode = .display → pieceW = helpDisplayWidth piece

variable {text : Bytes}

/-- A piece with one more code point. -/
theorem Piece.step {piece : Bytes} {pieceW : Nat} (h : helpStringWidth piece mode ≤ pieceW)
    (hdisplay : mode = .display → pieceW = helpDisplayWidth piece) (hreads : Reads piece text)
    (htext : text ≠ []) (hfits : pieceW + cutWidth mode (helpUtf8Next text).cp ≤ avail) :
    Piece mode avail (piece ++ text.take (helpUtf8Next text).length)
      (pieceW + cutWidth mode (helpUtf8Next text).cp) := by
  have hstep := helpDisplayWidth_step hreads htext
  cases mode with
  | display =>
    have hwidth := hdisplay rfl
    exact ⟨by rw [hwidth]; exact hstep.le, hfits, fun _ => by rw [hwidth]; exact hstep.symm⟩
  | codepoint =>
    refine ⟨?_, hfits, nofun⟩
    unfold helpStringWidth at h ⊢
    rw [helpUtf8CodepointCount_append]
    exact Nat.add_le_add h (helpUtf8CodepointCount_take htext)

/-- **The hard cut of narrow code points fits.** -/
theorem hardCut_fits (havail : 0 < avail) (hnarrow : ∀ c ∈ helpChars text, charWidth c ≤ 1)
    {out : List Bytes} (hout : ∀ l ∈ out, Fits mode avail l) {piece : Bytes} {pieceW : Nat}
    (hreads : Reads piece text) (hpiece : Piece mode avail piece pieceW) :
    (∀ l ∈ (hardCut mode avail text out piece pieceW).out, Fits mode avail l) ∧
      Piece mode avail (hardCut mode avail text out piece pieceW).cur
        (hardCut mode avail text out piece pieceW).curW := by
  have hfirst {text : Bytes} (htext : text ≠ []) (hnarrow : ∀ c ∈ helpChars text, charWidth c ≤ 1) :
      cutWidth mode (helpUtf8Next text).cp ≤ 1 ∧
        ∀ c ∈ helpChars (text.drop (helpUtf8Next text).length), charWidth c ≤ 1 := by
    rw [helpChars_of_ne_nil htext] at hnarrow
    refine ⟨?_, fun c hc => hnarrow c (.tail _ hc)⟩
    cases mode with
    | codepoint => exact le_rfl
    | display =>
      have hwidth := hnarrow _ List.mem_cons_self
      rwa [charWidth_take] at hwidth
  fun_induction hardCut mode avail text out piece pieceW with
  | case1 out piece pieceW => exact ⟨hout, hpiece⟩
  | case2 text out piece pieceW htext next w hcut ih =>
    obtain ⟨hw, hrest⟩ := hfirst htext hnarrow
    have hreads' := ((reads_nil text).step htext).1
    have hbegun : Piece mode avail ([] ++ text.take next.length) (0 + w) :=
      Piece.step (by cases mode <;> simp [helpStringWidth, helpUtf8CodepointCount,
        helpDisplayWidth])
        (fun _ => by rw [helpDisplayWidth, if_pos rfl]) (reads_nil text) htext
        (by rw [Nat.zero_add]; exact hw.trans havail)
    rw [List.nil_append] at hreads' hbegun
    rw [Nat.zero_add] at hbegun
    refine ih hrest (fun l hl => ?_) hreads' hbegun
    rcases List.mem_append.mp hl with hl | hl
    · exact hout l hl
    · rw [List.mem_singleton.mp hl]
      exact .inl (hpiece.width.trans hpiece.fits)
  | case3 text out piece pieceW htext next w hcut ih =>
    obtain ⟨hw, hrest⟩ := hfirst htext hnarrow
    have hfits : pieceW + w ≤ avail := by
      rcases Nat.eq_zero_or_pos pieceW with hzero | hpos
      · rw [hzero, Nat.zero_add]
        exact hw.trans havail
      · exact Nat.le_of_not_lt fun h => hcut ⟨h, hpos⟩
    exact ih hrest hout (hreads.step htext).1
      (Piece.step hpiece.width hpiece.display hreads htext hfits)

/-- A single code point is not cut. -/
theorem hardCut_single (h : Single text) (out : List Bytes) :
    hardCut mode avail text out [] 0 =
      { out := out, cur := text, curW := cutWidth mode (helpUtf8Next text).cp } := by
  rw [hardCut, if_neg h.ne_nil]
  dsimp only
  rw [if_neg fun hcut => Nat.lt_irrefl 0 hcut.2, h.2, List.take_length, List.drop_length, hardCut,
    if_pos rfl,
    List.nil_append, Nat.zero_add]

/-! ## One step -/

/-- What holds of the lines after the tokens of `done`, in front of those of `rest`. -/
structure Good (mode : WidthMode) (avail : Nat) (done rest : Bytes) (st : HelpWrap) : Prop where
  kept : noBlanks (st.out.flatten ++ st.cur) = noBlanks done
  out : ∀ l ∈ st.out, Fits mode avail l
  cur : Fits mode avail (trimBlanks st.cur)
  display : mode = .display → st.curW = helpDisplayWidth st.cur ∧
    (Whole st.cur ∨ NonContinuation rest)

/-- A word wider than a line comes while the line holds bytes without a width. -/
def Overwrites (avail : Nat) (st : HelpWrap) (tok : HelpWrapToken) : Prop :=
  tok.isSpace = false ∧ avail < tok.width ∧ st.curW = 0 ∧ st.cur ≠ []

/-- The line that a word goes to. -/
def HelpWrap.target (avail : Nat) (st : HelpWrap) (tok : HelpWrapToken) : HelpWrap :=
  if avail < st.curW + tok.width ∧ 0 < st.curW then st.flush else st

/-- The line that a word goes to has too many code points then. -/
def Overfills (avail : Nat) (st : HelpWrap) (tok : HelpWrapToken) : Prop :=
  tok.isSpace = false ∧ tok.width ≤ avail ∧
    avail < helpUtf8CodepointCount ((st.target avail tok).cur ++ tok.text)

variable {done rest line : Bytes} {st : HelpWrap} {tok : HelpWrapToken}

theorem Good.flush (h : Good mode avail done rest st) (rest' : Bytes) :
    Good mode avail done rest' st.flush := by
  refine ⟨?_, fun l hl => ?_, fits_nil mode avail, fun _ => ⟨?_, .inl whole_nil⟩⟩
  · rw [← h.kept, HelpWrap.flush, List.flatten_append, List.append_nil, noBlanks_append,
      noBlanks_append, List.flatten_singleton, noBlanks_trimBlanks]
  · rcases List.mem_append.mp hl with hl | hl
    · exact h.out l hl
    · rw [List.mem_singleton.mp hl]
      exact h.cur
  · exact (by rw [helpDisplayWidth, if_pos rfl] : 0 = helpDisplayWidth [])

/-- Blanks after a text. -/
theorem Good.blanks (h : Good mode avail done rest st) (n : Nat) :
    Good mode avail (done ++ List.replicate n blank) rest st :=
  ⟨by rw [h.kept, noBlanks_append, noBlanks_blanks, List.append_nil], h.out, h.cur, h.display⟩

theorem Single.helpDisplayWidth_eq (h : Single text) :
    helpDisplayWidth text = helpCodepointDisplayWidth (helpUtf8Next text).cp := by
  rw [Libca.Opt.helpDisplayWidth_eq, h.helpChars_eq, List.map_singleton, List.sum_singleton]
  rfl

/-- A word wider than a line is cut, after the line before it. -/
theorem Good.cutWord (havail : 0 < avail) (hblank : blank ∉ text)
    (hnarrow : Single text ∨ ∀ c ∈ helpChars text, charWidth c ≤ 1)
    (hend : Single text ∨ NonContinuation line)
    (h : Good mode avail done rest st) (hcur : st.cur = []) :
    Good mode avail (done ++ text) line (hardCut mode avail text st.out [] 0) := by
  have hkept := h.kept
  rw [hcur, List.append_nil] at hkept
  by_cases hsingle : Single text
  · rw [hardCut_single hsingle]
    refine ⟨?_, h.out, ?_, ?_⟩
    · rw [noBlanks_append, hkept, noBlanks_append]
    · rw [show trimBlanks text = text from trimBlanks_of_notMem (s := []) hsingle.ne_nil hblank]
      exact .inr hsingle
    · rintro rfl
      exact ⟨hsingle.helpDisplayWidth_eq.symm, .inl hsingle.whole⟩
  · have hbegun : Piece mode avail [] 0 := by
      refine ⟨?_, Nat.zero_le _, fun _ => by rw [helpDisplayWidth, if_pos rfl]⟩
      cases mode <;> simp [helpStringWidth, helpUtf8CodepointCount, helpDisplayWidth]
    obtain ⟨hout, hpiece⟩ :=
      hardCut_fits havail (hnarrow.resolve_left hsingle) h.out (reads_nil text) hbegun
    obtain ⟨pieces, hpieces, hflatten⟩ := @hardCut_append mode avail text st.out [] 0
    refine ⟨?_, hout, ?_, fun hdisplay =>
      ⟨hpiece.display hdisplay, .inr (hend.resolve_left hsingle)⟩⟩
    · rw [hpieces, List.flatten_append, List.append_assoc, hflatten, List.nil_append,
        noBlanks_append, hkept, noBlanks_append]
    · exact .inl ((helpStringWidth_trimBlanks_le _ mode).trans (hpiece.width.trans hpiece.fits))

theorem nonContinuation_of_append {s t : Bytes} (hs : s ≠ []) (h : NonContinuation (s ++ t)) :
    NonContinuation s := by
  obtain ⟨c, s, rfl⟩ := List.exists_cons_of_ne_nil hs
  exact h

/-- **A word is kept, and the line that it goes to fits.** -/
theorem Good.addWord (havail : 0 < avail) (h : Good mode avail done (tok.text ++ line) st)
    (hword : tok.isSpace = false)
    (hne : tok.text ≠ []) (hblank : blank ∉ tok.text) (hwidth : tok.width = helpDisplayWidth tok.text)
    (hnarrow : Single tok.text ∨ ∀ c ∈ helpChars tok.text, charWidth c ≤ 1)
    (hend : Single tok.text ∨ NonContinuation line) (hkeeps : ¬ Overwrites avail st tok)
    (hfits : mode = .codepoint → ¬ Overfills avail st tok) :
    Good mode avail (done ++ tok.text) line (st.add mode avail tok) := by
  unfold HelpWrap.add
  rw [if_neg (by rw [hword]; exact Bool.false_ne_true)]
  by_cases hover : avail < tok.width
  · rw [if_pos hover]
    by_cases hpos : 0 < st.curW
    · rw [if_pos hpos]
      exact Good.cutWord havail hblank hnarrow hend (h.flush line) rfl
    · rw [if_neg hpos]
      have hcur : st.cur = [] := by
        by_contra hcur
        exact hkeeps ⟨hword, hover, Nat.eq_zero_of_not_pos hpos, hcur⟩
      exact Good.cutWord havail hblank hnarrow hend h hcur
  · rw [if_neg hover]
    have htarget : Good mode avail done (tok.text ++ line) (st.target avail tok) ∧
        (st.target avail tok).curW + tok.width ≤ avail := by
      unfold HelpWrap.target
      split_ifs with hfull
      · exact ⟨h.flush _, by simpa [HelpWrap.flush] using hover⟩
      · refine ⟨h, ?_⟩
        by_contra hlt
        exact hfull ⟨by omega, by omega⟩
    obtain ⟨hgood, hroom⟩ := htarget
    show Good mode avail (done ++ tok.text) line { st.target avail tok with
      cur := (st.target avail tok).cur ++ tok.text, curW := (st.target avail tok).curW + tok.width }
    have hlinked (hdisplay : mode = .display) :
        helpDisplayWidth ((st.target avail tok).cur ++ tok.text) = (st.target avail tok).curW +
          tok.width := by
      obtain ⟨hcurW, hwhole | hstart⟩ := hgood.display hdisplay
      · rw [helpDisplayWidth_append_of_whole hwhole, hcurW, hwidth]
      · rw [helpDisplayWidth_append (nonContinuation_of_append hne hstart), hcurW, hwidth]
    refine ⟨?_, hgood.out, ?_, fun hdisplay => ⟨(hlinked hdisplay).symm, ?_⟩⟩
    · rw [← List.append_assoc, noBlanks_append, hgood.kept, noBlanks_append]
    · refine .inl ((helpStringWidth_trimBlanks_le _ mode).trans ?_)
      cases mode with
      | display => exact (hlinked rfl).trans_le hroom
      | codepoint => exact Nat.le_of_not_lt fun hlt => hfits rfl ⟨hword, Nat.le_of_not_lt hover, hlt⟩
    · rcases hend with hsingle | hstart
      · left
        exact hsingle.whole.append_left hsingle.ne_nil hsingle.nonContinuation
      · exact .inr hstart

/-- Blanks are kept where they fit, and they are no loss where they do not. -/
theorem Good.addBlanks {n : Nat}
    (h : Good mode avail done (List.replicate (n + 1) blank ++ line) st) :
    Good mode avail (done ++ List.replicate (n + 1) blank) line
      (st.add mode avail ⟨List.replicate (n + 1) blank, n + 1, true⟩) := by
  unfold HelpWrap.add
  rw [if_pos rfl]
  dsimp only
  split_ifs with hroom hpos
  · refine ⟨?_, h.out, ?_, fun hdisplay => ?_⟩
    · rw [← List.append_assoc, noBlanks_append, h.kept, noBlanks_append]
    · rw [trimBlanks_append_blanks]
      exact h.cur
    · have hstart : NonContinuation (List.replicate (n + 1) blank) := nonContinuation_blank _
      refine ⟨?_, .inl ((whole_blanks (n + 1)).append_left nofun hstart)⟩
      rw [helpDisplayWidth_append hstart, helpDisplayWidth_blanks, (h.display hdisplay).1]
  · exact (h.flush line).blanks (n + 1)
  · have hrest : Good mode avail done line st := by
      refine ⟨h.kept, h.out, h.cur, fun hdisplay => ?_⟩
      have hcurW := (h.display hdisplay).1
      exact ⟨hcurW,
        .inl (whole_of_helpDisplayWidth_eq_zero (hcurW.symm.trans (Nat.eq_zero_of_not_pos hpos)))⟩
    exact hrest.blanks (n + 1)

/-- **One token.** -/
theorem Good.add (havail : 0 < avail) (h : Good mode avail done (tok.text ++ line) st)
    (hshape : tok.Shape)
    (hend : tok.isSpace = true ∨ Single tok.text ∨ NonContinuation line)
    (hkeeps : ¬ Overwrites avail st tok) (hfits : mode = .codepoint → ¬ Overfills avail st tok) :
    Good mode avail (done ++ tok.text) line (st.add mode avail tok) := by
  cases hshape with
  | blanks n => exact h.addBlanks
  | wide hsingle hblank hwidth =>
    exact h.addWord havail rfl hsingle.ne_nil hblank hwidth.symm (.inl hsingle)
      (.inl hsingle) hkeeps hfits
  | word hne hblank hnarrow =>
    exact h.addWord havail rfl hne hblank rfl (.inr hnarrow) (hend.resolve_left Bool.false_ne_true)
      hkeeps hfits

/-! ## The run -/

/-- The lines after some tokens. -/
def addAll (mode : WidthMode) (avail : Nat) (st : HelpWrap) (tokens : List HelpWrapToken) :
    HelpWrap :=
  tokens.foldl (HelpWrap.add mode avail) st

/-- Neither of the two branches that go wrong is taken: whenever a word comes, it overwrites
nothing, and in code points it does not overfill a line. -/
def Harmless (line : Bytes) (avail : Nat) (mode : WidthMode) : Prop :=
  ∀ before tok after, helpWrapTokenize line mode = before ++ tok :: after →
    ¬ Overwrites avail (addAll mode avail {} before) tok ∧
      (mode = .codepoint → ¬ Overfills avail (addAll mode avail {} before) tok)

/-- **All tokens.** -/
theorem Good.addAll (havail : 0 < avail) (htokens : Tokens line tokens)
    (h : Good mode avail done line st)
    (hsafe : ∀ before tok after, tokens = before ++ tok :: after →
      ¬ Overwrites avail (addAll mode avail st before) tok ∧
        (mode = .codepoint → ¬ Overfills avail (addAll mode avail st before) tok)) :
    Good mode avail (done ++ line) [] (addAll mode avail st tokens) := by
  induction htokens generalizing done st with
  | nil =>
    rw [List.append_nil]
    exact h
  | cons hshape hend _ ih =>
    obtain ⟨hkeeps, hfits⟩ := hsafe [] _ _ rfl
    have hnext := ih (h.add havail hshape hend hkeeps hfits) fun before tok after heq =>
      hsafe (_ :: before) tok after (by rw [heq, List.cons_append])
    rwa [List.append_assoc] at hnext

theorem noBlanks_lines (st : HelpWrap) :
    noBlanks st.lines.flatten = noBlanks (st.out.flatten ++ st.cur) := by
  unfold HelpWrap.lines
  split_ifs with hlast
  · rw [HelpWrap.flush, List.flatten_append, List.flatten_singleton, noBlanks_append,
      noBlanks_append, noBlanks_trimBlanks]
  · rw [not_not.mp (not_or.mp hlast).1, List.append_nil]

theorem Good.wraps (h : Good mode avail line rest st) : Wraps line avail mode st.lines := by
  refine ⟨(noBlanks_lines st).trans h.kept, fun l hl => ?_⟩
  unfold HelpWrap.lines at hl
  split_ifs at hl
  · exact (h.flush []).out l hl
  · exact h.out l hl

/-! ## What goes wrong -/

/-- The bytes that the lines hold. -/
def HelpWrap.held (st : HelpWrap) : Nat := (noBlanks (st.out.flatten ++ st.cur)).length

/-- There are no more blanks than columns. -/
def Covered (st : HelpWrap) : Prop := st.cur.count blank ≤ st.curW

theorem held_flush (st : HelpWrap) : st.flush.held = st.held := by
  unfold HelpWrap.held HelpWrap.flush
  rw [List.flatten_append, List.append_nil, List.flatten_singleton, noBlanks_append,
    noBlanks_append, noBlanks_trimBlanks]

/-- A hard cut holds its text, and no more. -/
theorem held_hardCut (text : Bytes) (out : List Bytes) :
    (hardCut mode avail text out [] 0).held = (noBlanks out.flatten).length +
    (noBlanks text).length := by
  obtain ⟨pieces, hpieces, hflatten⟩ := @hardCut_append mode avail text out [] 0
  unfold HelpWrap.held
  rw [hpieces, List.flatten_append, List.append_assoc, hflatten, List.nil_append, noBlanks_append,
    List.length_append]

theorem held_append (out : List Bytes) (cur text : Bytes) (curW : Nat) :
    HelpWrap.held { out := out, cur := cur ++ text, curW := curW } =
      HelpWrap.held { out := out, cur := cur, curW := curW } + (noBlanks text).length := by
  unfold HelpWrap.held
  rw [← List.append_assoc, noBlanks_append, List.length_append]

theorem held_target (st : HelpWrap) (tok : HelpWrapToken) : (st.target avail tok).held =
    st.held := by
  unfold HelpWrap.target
  split_ifs
  · exact held_flush st
  · rfl

/-- What is in the lines before a hard cut. -/
theorem length_out_le_held (st : HelpWrap) : (noBlanks st.out.flatten).length ≤ st.held := by
  unfold HelpWrap.held
  rw [noBlanks_append, List.length_append]
  exact Nat.le_add_right _ _

/-- What one token does to the lines. -/
inductive Added (mode : WidthMode) (avail : Nat) (st : HelpWrap) (tok : HelpWrapToken) :
    HelpWrap → Prop
  | blanks (hspace : tok.isSpace = true) :
    Added mode avail st tok { st with cur := st.cur ++ tok.text, curW := st.curW + tok.width }
  | blanksFlush (hspace : tok.isSpace = true) : Added mode avail st tok st.flush
  | blanksDrop (hspace : tok.isSpace = true) : Added mode avail st tok st
  | cutFlush (hword : tok.isSpace = false) : Added mode avail st tok
    (hardCut mode avail tok.text st.flush.out [] 0)
  | cut (hword : tok.isSpace = false) (hover : avail < tok.width) (hzero : st.curW = 0) :
    Added mode avail st tok (hardCut mode avail tok.text st.out [] 0)
  | append (hword : tok.isSpace = false) :
    Added mode avail st tok { st.target avail tok with
      cur := (st.target avail tok).cur ++ tok.text, curW := (st.target avail tok).curW + tok.width }

theorem added (mode : WidthMode) (avail : Nat) (st : HelpWrap) (tok : HelpWrapToken) :
    Added mode avail st tok (st.add mode avail tok) := by
  unfold HelpWrap.add
  cases hspace : tok.isSpace with
  | true =>
    rw [if_pos rfl]
    split_ifs
    · exact .blanks hspace
    · exact .blanksFlush hspace
    · exact .blanksDrop hspace
  | false =>
    rw [if_neg Bool.false_ne_true]
    by_cases hover : avail < tok.width
    · rw [if_pos hover]
      by_cases hpos : 0 < st.curW
      · rw [if_pos hpos]
        exact .cutFlush hspace
      · rw [if_neg hpos]
        exact .cut hspace hover (Nat.eq_zero_of_not_pos hpos)
    · rw [if_neg hover]
      exact .append hspace

/-- **A step holds no more than it is given.** -/
theorem held_add_le (st : HelpWrap) (tok : HelpWrapToken) :
    (st.add mode avail tok).held ≤ st.held + (noBlanks tok.text).length := by
  have h := added mode avail st tok
  generalize st.add mode avail tok = st' at h ⊢
  cases h with
  | blanks => exact (held_append _ _ _ _).le
  | blanksFlush =>
    rw [held_flush]
    exact Nat.le_add_right _ _
  | blanksDrop => exact Nat.le_add_right _ _
  | cutFlush =>
    rw [held_hardCut]
    exact Nat.add_le_add_right ((length_out_le_held _).trans (held_flush st).le) _
  | cut =>
    rw [held_hardCut]
    exact Nat.add_le_add_right (length_out_le_held _) _
  | append =>
    rw [held_append]
    exact Nat.add_le_add_right (held_target st tok).le _

/-- **A word that overwrites bytes loses them.** -/
theorem held_add_lt (hcovered : Covered st) (h : Overwrites avail st tok) :
    (st.add mode avail tok).held < st.held + (noBlanks tok.text).length := by
  obtain ⟨hword, hover, hzero, hcur⟩ := h
  have hblank : blank ∉ st.cur := List.count_eq_zero.mp (Nat.le_zero.mp (hcovered.trans hzero.le))
  unfold HelpWrap.add
  rw [if_neg (by rw [hword]; exact Bool.false_ne_true), if_pos hover, if_neg (by omega)]
  dsimp only
  rw [held_hardCut]
  refine Nat.add_lt_add_right ?_ _
  unfold HelpWrap.held
  rw [noBlanks_append, List.length_append, noBlanks_of_notMem hblank]
  exact Nat.lt_add_of_pos_right (List.length_pos_iff.mpr hcur)

theorem HelpWrapToken.Shape.count_le (h : tok.Shape) : tok.text.count blank ≤ tok.width := by
  cases h with
  | blanks n => exact (List.count_replicate_self).le
  | wide hsingle hblank hwidth => exact (List.count_eq_zero.mpr hblank).le.trans (Nat.zero_le _)
  | word hne hblank hnarrow => exact (List.count_eq_zero.mpr hblank).le.trans (Nat.zero_le _)

theorem HelpWrapToken.Shape.of_word (h : tok.Shape) (hword : tok.isSpace = false) :
    tok.text ≠ [] ∧ blank ∉ tok.text := by
  cases h with
  | blanks n => cases hword
  | wide hsingle hblank hwidth => exact ⟨hsingle.ne_nil, hblank⟩
  | word hne hblank hnarrow => exact ⟨hne, hblank⟩

theorem covered_flush (st : HelpWrap) : Covered st.flush := le_rfl

theorem covered_append (h : Covered st) (hshape : tok.Shape) :
    Covered { st with cur := st.cur ++ tok.text, curW := st.curW + tok.width } := by
  unfold Covered
  rw [List.count_append]
  exact Nat.add_le_add h hshape.count_le

theorem covered_hardCut (hblank : blank ∉ text) (out : List Bytes) :
    Covered (hardCut mode avail text out [] 0) := by
  obtain ⟨pieces, -, hflatten⟩ := @hardCut_append mode avail text out [] 0
  unfold Covered
  have hcur : blank ∉ (hardCut mode avail text out [] 0).cur := fun hmem =>
    hblank (by rw [← List.nil_append text, ← hflatten]; exact List.mem_append_right _ hmem)
  rw [List.count_eq_zero.mpr hcur]
  exact Nat.zero_le _

/-- There stay no more blanks than columns. -/
theorem Covered.add (h : Covered st) (hshape : tok.Shape) : Covered (st.add mode avail tok) := by
  have hadded := added mode avail st tok
  generalize st.add mode avail tok = st' at hadded ⊢
  cases hadded with
  | blanks => exact covered_append h hshape
  | blanksFlush => exact covered_flush st
  | blanksDrop => exact h
  | cutFlush hword => exact covered_hardCut (hshape.of_word hword).2 _
  | cut hword => exact covered_hardCut (hshape.of_word hword).2 _
  | append =>
    have htarget : Covered (st.target avail tok) := by
      unfold HelpWrap.target
      split_ifs
      · exact covered_flush st
      · exact h
    exact covered_append htarget hshape

theorem Covered.addAll (h : Covered st) (hshape : ∀ tok ∈ tokens, tok.Shape) :
    Covered (addAll mode avail st tokens) := by
  induction tokens generalizing st with
  | nil => exact h
  | cons tok tokens ih =>
    exact ih (h.add (hshape tok List.mem_cons_self)) fun t ht => hshape t (.tail _ ht)

/-- A line has too many code points, or bytes of the text are lost. -/
def Doomed (avail : Nat) (done : Bytes) (st : HelpWrap) : Prop :=
  (∃ l ∈ st.out, avail < helpUtf8CodepointCount l) ∨
    avail < helpUtf8CodepointCount (trimBlanks st.cur) ∨ st.held < (noBlanks done).length

theorem lost_add (h : st.held < (noBlanks done).length) (tok : HelpWrapToken) :
    (st.add mode avail tok).held < (noBlanks (done ++ tok.text)).length := by
  rw [noBlanks_append, List.length_append]
  exact (held_add_le st tok).trans_lt (Nat.add_lt_add_right h _)

theorem overwrites_lost (hcovered : Covered st) (hheld : st.held ≤ (noBlanks done).length)
    (h : Overwrites avail st tok) :
    (st.add mode avail tok).held < (noBlanks (done ++ tok.text)).length := by
  rw [noBlanks_append, List.length_append]
  exact (held_add_lt hcovered h).trans_le (Nat.add_le_add_right hheld _)

theorem helpUtf8CodepointCount_trim_le (s : Bytes) :
    helpUtf8CodepointCount (trimBlanks s) ≤ helpUtf8CodepointCount s :=
  helpStringWidth_trimBlanks_le s .codepoint

theorem out_prefix_hardCut (text : Bytes) (out : List Bytes) :
    out <+: (hardCut mode avail text out [] 0).out := by
  obtain ⟨pieces, hpieces, -⟩ := @hardCut_append mode avail text out [] 0
  exact ⟨pieces, hpieces.symm⟩

theorem out_prefix_flush (st : HelpWrap) : st.out <+: st.flush.out := List.prefix_append _ _

/-- The lines that are done stay. -/
theorem out_prefix_add (st : HelpWrap) (tok : HelpWrapToken) :
    st.out <+: (st.add mode avail tok).out := by
  have h := added mode avail st tok
  generalize st.add mode avail tok = st' at h ⊢
  cases h with
  | blanks => exact List.prefix_refl _
  | blanksFlush => exact out_prefix_flush st
  | blanksDrop => exact List.prefix_refl _
  | cutFlush => exact (out_prefix_flush st).trans (out_prefix_hardCut _ _)
  | cut => exact out_prefix_hardCut _ _
  | append =>
    unfold HelpWrap.target
    split_ifs
    · exact out_prefix_flush st
    · exact List.prefix_refl _

/-- **What went wrong stays wrong.** -/
theorem Doomed.add (h : Doomed avail done st) (hcovered : Covered st)
    (hheld : st.held ≤ (noBlanks done).length)
    (hshape : tok.Shape) : Doomed avail (done ++ tok.text) (st.add mode avail tok) := by
  rcases h with ⟨l, hl, hcount⟩ | hcount | hlost
  · exact .inl ⟨l, (out_prefix_add st tok).subset hl, hcount⟩
  · have hcur : st.cur ≠ [] := by
      intro hnil
      rw [hnil] at hcount
      exact Nat.not_lt_zero _ hcount
    have hlast : trimBlanks st.cur ∈ st.flush.out := List.mem_append_right _ List.mem_cons_self
    by_cases hover : Overwrites avail st tok
    · exact .inr (.inr (overwrites_lost hcovered hheld hover))
    have hadded := added mode avail st tok
    generalize st.add mode avail tok = st' at hadded ⊢
    cases hadded with
    | blanks hspace =>
      refine .inr (.inl ?_)
      cases hshape with
      | blanks n =>
        dsimp only
        rwa [trimBlanks_append_blanks]
      | wide => cases hspace
      | word => cases hspace
    | blanksFlush => exact .inl ⟨_, hlast, hcount⟩
    | blanksDrop => exact .inr (.inl hcount)
    | cutFlush => exact .inl ⟨_, (out_prefix_hardCut _ _).subset hlast, hcount⟩
    | cut hword hwide hzero => exact absurd ⟨hword, hwide, hzero, hcur⟩ hover
    | append hword =>
      obtain ⟨hne, hblank⟩ := hshape.of_word hword
      unfold HelpWrap.target
      split_ifs
      · exact .inl ⟨_, hlast, hcount⟩
      · refine .inr (.inl ?_)
        dsimp only
        rw [trimBlanks_of_notMem hne hblank, helpUtf8CodepointCount_append]
        exact Nat.lt_add_right _ (hcount.trans_le (helpUtf8CodepointCount_trim_le st.cur))
  · exact .inr (.inr (lost_add hlost tok))

theorem overfills_doomed (done : Bytes) (h : Overfills avail st tok) (hshape : tok.Shape) :
    Doomed avail done (st.add mode avail tok) := by
  obtain ⟨hword, hroom, hcount⟩ := h
  obtain ⟨hne, hblank⟩ := hshape.of_word hword
  unfold HelpWrap.add
  rw [if_neg (by rw [hword]; exact Bool.false_ne_true), if_neg (Nat.not_lt_of_le hroom)]
  refine .inr (.inl ?_)
  show avail < helpUtf8CodepointCount (trimBlanks ((st.target avail tok).cur ++ tok.text))
  rw [trimBlanks_of_notMem hne hblank]
  exact hcount

/-- The bytes of some tokens. -/
def texts (tokens : List HelpWrapToken) : Bytes := (tokens.map HelpWrapToken.text).flatten

theorem texts_append (as bs : List HelpWrapToken) : texts (as ++ bs) = texts as ++ texts bs := by
  unfold texts
  rw [List.map_append, List.flatten_append]

theorem texts_cons (tok : HelpWrapToken) (tokens : List HelpWrapToken) :
    texts (tok :: tokens) = tok.text ++ texts tokens := rfl

theorem Tokens.texts_eq (h : Tokens line tokens) : texts tokens = line := by
  induction h with
  | nil => rfl
  | cons _ _ _ ih => rw [texts_cons, ih]

theorem Tokens.shape (h : Tokens line tokens) : ∀ tok ∈ tokens, tok.Shape := by
  induction h with
  | nil => nofun
  | cons hshape _ _ ih => exact List.forall_mem_cons.mpr ⟨hshape, ih⟩

theorem addAll_append (st : HelpWrap) (as bs : List HelpWrapToken) :
    addAll mode avail st (as ++ bs) = addAll mode avail (addAll mode avail st as) bs :=
  List.foldl_append

theorem addAll_cons (st : HelpWrap) (tok : HelpWrapToken) (tokens : List HelpWrapToken) :
    addAll mode avail st (tok :: tokens) = addAll mode avail (st.add mode avail tok) tokens := rfl

theorem held_addAll_le (st : HelpWrap) (tokens : List HelpWrapToken)
    (h : st.held ≤ (noBlanks done).length) :
    (addAll mode avail st tokens).held ≤ (noBlanks (done ++ texts tokens)).length := by
  induction tokens generalizing done st with
  | nil =>
    rw [show texts [] = [] from rfl, List.append_nil]
    exact h
  | cons tok tokens ih =>
    rw [addAll_cons, texts_cons, ← List.append_assoc]
    refine ih (st.add mode avail tok) ((held_add_le st tok).trans ?_)
    rw [noBlanks_append, List.length_append]
    exact Nat.add_le_add_right h _

theorem lost_addAll (h : st.held < (noBlanks done).length) :
    (addAll mode avail st tokens).held < (noBlanks (done ++ texts tokens)).length := by
  induction tokens generalizing done st with
  | nil =>
    rw [show texts [] = [] from rfl, List.append_nil]
    exact h
  | cons tok tokens ih =>
    rw [addAll_cons, texts_cons, ← List.append_assoc]
    exact ih (lost_add h tok)

theorem Doomed.addAll (h : Doomed avail done st) (hcovered : Covered st)
    (hheld : st.held ≤ (noBlanks done).length) (hshape : ∀ tok ∈ tokens, tok.Shape) :
    Doomed avail (done ++ texts tokens) (addAll mode avail st tokens) := by
  induction tokens generalizing done st with
  | nil =>
    rw [show texts [] = [] from rfl, List.append_nil]
    exact h
  | cons tok tokens ih =>
    obtain ⟨hfirst, hrest⟩ := List.forall_mem_cons.mp hshape
    rw [addAll_cons, texts_cons, ← List.append_assoc]
    refine ih (h.add hcovered hheld hfirst) (hcovered.add hfirst)
      ((held_add_le st tok).trans ?_) hrest
    rw [noBlanks_append, List.length_append]
    exact Nat.add_le_add_right hheld _

theorem Wraps.held_eq (h : Wraps line avail mode st.lines) : st.held = (noBlanks line).length := by
  unfold HelpWrap.held
  rw [← noBlanks_lines, h.kept]

theorem Single.codepointCount_le (h : Single line) : helpUtf8CodepointCount line ≤ 1 := by
  have hcount := helpUtf8CodepointCount_take h.ne_nil
  rwa [h.2, List.take_length] at hcount

/-- **Lines with too many code points, or too few bytes, are no wrapping.** -/
theorem Doomed.not_wraps (havail : 0 < avail) (h : Doomed avail line st) :
    ¬ Wraps line avail .codepoint st.lines := by
  intro hwraps
  have hline (l : Bytes) (hl : l ∈ st.lines) : helpUtf8CodepointCount l ≤ avail := by
    rcases hwraps.fits l hl with hfits | hsingle
    · exact hfits
    · exact hsingle.codepointCount_le.trans havail
  have hout : st.out <+: st.lines := by
    unfold HelpWrap.lines
    split_ifs
    · exact out_prefix_flush st
    · exact List.prefix_refl _
  rcases h with ⟨l, hl, hcount⟩ | hcount | hlost
  · exact absurd (hline l (hout.subset hl)) (Nat.not_le_of_lt hcount)
  · have hcur : st.cur ≠ [] := by
      intro hnil
      rw [hnil] at hcount
      exact Nat.not_lt_zero _ hcount
    have hlast : trimBlanks st.cur ∈ st.lines := by
      unfold HelpWrap.lines
      rw [if_pos (.inl hcur)]
      exact List.mem_append_right _ List.mem_cons_self
    exact absurd (hline _ hlast) (Nat.not_le_of_lt hcount)
  · exact absurd hwraps.held_eq hlost.ne

/-! ## The lines of a text -/

theorem Good.start (line : Bytes) : Good mode avail [] line {} :=
  ⟨rfl, nofun, fits_nil mode avail, fun _ => ⟨by rw [helpDisplayWidth, if_pos rfl], .inl whole_nil⟩⟩

/-- **Wrapping loses nothing and fits exactly when the line fits as it is, or neither bad branch is
taken.** -/
theorem helpWrapLine_wraps_iff (line : Bytes) {avail : Nat} (havail : 0 < avail)
    (mode : WidthMode) :
    Wraps line avail mode (helpWrapLine line avail mode) ↔
      helpStringWidth line mode ≤ avail ∨ Harmless line avail mode := by
  unfold helpWrapLine
  by_cases hfits : helpStringWidth line mode ≤ avail
  · rw [if_pos (.inr hfits)]
    refine iff_of_true ⟨by rw [List.flatten_singleton], fun l hl => ?_⟩ (.inl hfits)
    rw [List.mem_singleton.mp hl]
    exact .inl hfits
  · rw [if_neg (not_or.mpr ⟨havail.ne', hfits⟩), or_iff_right hfits]
    have htokens := helpWrapTokenize_tokens line mode
    constructor
    · intro hwraps before tok after heq
      have hwraps' : Wraps line avail mode (addAll mode avail {} (before ++ tok :: after)).lines :=
        heq ▸ hwraps
      have hshape := htokens.shape
      have htexts := htokens.texts_eq
      rw [heq] at hshape htexts
      rw [addAll_append, addAll_cons] at hwraps'
      obtain ⟨hbefore, htoken⟩ := List.forall_mem_append.mp hshape
      obtain ⟨htok, hafter⟩ := List.forall_mem_cons.mp htoken
      have hcovered : Covered (addAll mode avail {} before) := Covered.addAll (le_rfl) hbefore
      have hstart : HelpWrap.held {} ≤ (noBlanks []).length := le_rfl
      have hheld : (addAll mode avail {} before).held ≤ (noBlanks (texts before)).length :=
        held_addAll_le {} before hstart
      have hheld' : ((addAll mode avail {} before).add mode avail tok).held ≤
          (noBlanks (texts before ++ tok.text)).length := by
        rw [noBlanks_append, List.length_append]
        exact (held_add_le _ tok).trans (Nat.add_le_add_right hheld _)
      rw [texts_append, texts_cons, ← List.append_assoc] at htexts
      refine ⟨fun hover => ?_, ?_⟩
      · have hlost :
          (addAll mode avail ((addAll mode avail {} before).add mode avail tok) after).held <
            (noBlanks (texts before ++ tok.text ++ texts after)).length :=
          lost_addAll (overwrites_lost hcovered hheld hover)
        rw [htexts] at hlost
        exact hlost.ne hwraps'.held_eq
      · rintro rfl hfull
        have hdoomed : Doomed avail (texts before ++ tok.text ++ texts after)
            (addAll .codepoint avail ((addAll .codepoint avail {} before).add .codepoint avail tok)
              after) :=
          (overfills_doomed _ hfull htok).addAll (hcovered.add htok) hheld' hafter
        rw [htexts] at hdoomed
        exact hdoomed.not_wraps havail hwraps'
    · intro hsafe
      exact ((Good.start line).addAll havail htokens hsafe).wraps

/-- Two words in two columns. -/
theorem helpWrapLine_wraps_words :
    Wraps (ascii "ab cd") 2 .display (helpWrapLine (ascii "ab cd") 2 .display) ↔
    helpStringWidth (ascii "ab cd") .display ≤ 2 ∨ Harmless (ascii "ab cd") 2 .display :=
  helpWrapLine_wraps_iff (ascii "ab cd") (by decide) .display

/-- A combining mark in front of a wide code point is lost in one column. -/
theorem not_helpWrapLine_wraps : ¬ Wraps [0xCC, 0x81, 0xE4, 0xB8, 0xAD] 1 .display
    (helpWrapLine [0xCC, 0x81, 0xE4, 0xB8, 0xAD] 1 .display) := by
  intro h
  have hkept := h.kept
  have hlines : helpWrapLine [0xCC, 0x81, 0xE4, 0xB8, 0xAD] 1 .display = [[0xE4, 0xB8, 0xAD]] := by
    decide +kernel
  rw [hlines] at hkept
  cases hkept

end Libca.Opt
