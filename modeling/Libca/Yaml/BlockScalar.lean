import Libca.Common.Bytes
import Libca.Common.Except
import Libca.Common.Trim

/-!
# Block scalars (`yaml/yaml_parser.cpp` 697-809)

`YamlParser::parse_block_scalar`, on the lines behind the one of the indicator.

* `parseBlockScalar`: the text of a scalar, and the lines that are left.
* `yamlFold`: what folding is to give, said of pairs of lines (`Gap`).
* `foldedText_eq`: the loop over the lines, said of the same pairs; it writes one line end less
  between lines of which one is indented deeper and that have empty lines between them.
* `parse_folded_iff`: **a folded scalar is read by the rule exactly when no such pair occurs.**
-/

namespace Libca.Yaml

open Common

/-! ## Lines -/

/-- `SourceLocation`. -/
structure SourceLocation where
  offset : Nat
  line : Nat
  column : Nat
  deriving DecidableEq, Repr

/-- `ParseError`. -/
structure ParseError where
  location : SourceLocation
  message : Bytes
  deriving DecidableEq, Repr

/-- `is_inline_ws`. -/
def isInlineWs (c : UInt8) : Bool := c == 32 || c == 9

/-- `YamlParser::Line`, without the line end. -/
structure Line where
  offset : Nat
  lineNo : Nat
  text : Bytes
  deriving DecidableEq, Repr

namespace Line

/-- `Line::indent`: the width of the white space in front. -/
def indent (L : Line) : Nat := (L.text.takeWhile isInlineWs).length

/-- `Line::blank`. -/
def blank (L : Line) : Bool := L.indent == L.text.length

/-- `loc_here` in a line. -/
def locHere (L : Line) (col : Nat) : SourceLocation := ⟨L.offset + col, L.lineNo, col + 1⟩

end Line

/-! ## The parser -/

/-- What is written behind the text. -/
inductive Chomp where
  | strip
  | clip
  | keep
  deriving DecidableEq, Repr

/-- The style of a scalar and its chomping, read from the indicator at a column on. -/
def blockScalarHeader (H : Line) (col : Nat) : Except ParseError (UInt8 × Chomp) :=
  let style := H.text.getD col 0
  let chomp :=
    match H.text[col + 1]? with
    | some 45 => .strip
    | some 43 => .keep
    | _ => .clip
  let col := if chomp = .clip then col + 1 else col + 2
  if H.text[col]?.any (fun c => 49 ≤ c && c ≤ 57) then
    .error ⟨H.locHere col, ascii "explicit indent indicator on block scalar is not supported"⟩
  else
    let col := col + ((H.text.drop col).takeWhile isInlineWs).length
    if H.text[col]?.any (· != 35) then
      .error ⟨H.locHere col, ascii "unexpected content after block scalar indicator"⟩
    else .ok (style, chomp)

/-- The loop over the lines of a scalar that is indented by `m`. Blank lines are pending until it is
known whether content follows; those that are left are only counted. -/
def contentLoop (m : Nat) (pending : List Line) (content : List Bytes) :
    List Line → List Bytes × Nat × List Line
  | [] => (content, pending.length, [])
  | L :: rest =>
    if L.blank then contentLoop m (pending ++ [L]) content rest
    else if L.indent < m then (content, pending.length, L :: rest)
    else contentLoop m [] (content ++ pending.map (·.text.drop m) ++ [L.text.drop m]) rest

/-- The state of the loop that folds. -/
structure Folding where
  text : Bytes
  prevContent : Bool
  prevMoreIndented : Bool
  blanks : Nat

/-- One turn of the loop that folds. -/
def Folding.step (s : Folding) (seg : Bytes) : Folding :=
  if seg.isEmpty then { s with blanks := s.blanks + 1 }
  else
    let more := isInlineWs (seg.headD 0)
    let lineBreak :=
      if s.prevContent then
        if 0 < s.blanks then List.replicate s.blanks 10
        else if s.prevMoreIndented || more then [10] else [32]
      else List.replicate s.blanks 10
    { text := s.text ++ lineBreak ++ seg, prevContent := true, prevMoreIndented := more, blanks :=
      0 }

/-- The text of a `'>'` scalar before chomping. -/
def foldedText (content : List Bytes) : Bytes :=
  (content.foldl Folding.step ⟨[], false, false, 0⟩).text

/-- The text of a `'|'` scalar before chomping. -/
def literalText (content : List Bytes) : Bytes := List.intercalate [10] content

/-- What chomping appends, for a number of blank lines at the end. -/
def chompSuffix (chomp : Chomp) (trailing : Nat) : Bytes :=
  match chomp with
  | .strip => []
  | .clip => [10]
  | .keep => 10 :: List.replicate trailing 10

/-- `parse_block_scalar`, in a context that is indented by `n`. The pieces of a text that is valid
UTF-8 are put together, so that the builder and the arena keep them as they are. -/
def parseBlockScalar (n : Nat) (H : Line) (col : Nat) (following : List Line) :
    Except ParseError (Bytes × List Line) := do
  let (style, chomp) ← blockScalarHeader H col
  let leading := following.takeWhile Line.blank
  match following.dropWhile Line.blank with
  | [] => .ok ([], following)
  | first :: more =>
    if first.indent ≤ n then .ok ([], following)
    else
      match leading.find? (first.indent < ·.indent) with
      | some L => .error ⟨L.locHere 0, ascii "leading empty line more indented than block scalar"⟩
      | none =>
        let (content, trailing, rest) :=
          contentLoop first.indent [] (leading.map fun _ => []) (first :: more)
        let text := if style = 124 then literalText content else foldedText content
        .ok (text ++ chompSuffix chomp trailing, rest)

/-! ## The rule -/

/-- A line starts with white space. -/
def spaced (line : Bytes) : Bool := line.head?.any isInlineWs

/-- Two nonempty lines with a number of empty ones between them. -/
structure Gap where
  prev : Bytes
  blanks : Nat
  next : Bytes
  deriving DecidableEq, Repr

/-- What stands between the two lines. -/
def Gap.separator (g : Gap) : Bytes :=
  if spaced g.prev || spaced g.next then List.replicate (g.blanks + 1) 10
  else if g.blanks = 0 then [32] else List.replicate g.blanks 10

/-- The pairs of consecutive nonempty lines, behind a line and `k` empty ones. -/
def gaps (prev : Bytes) (k : Nat) : List Bytes → List Gap
  | [] => []
  | line :: rest => if line.isEmpty then gaps prev (k + 1) rest
    else ⟨prev, k, line⟩ :: gaps line 0 rest

/-- The pairs of consecutive nonempty lines. -/
def consecutive (lines : List Bytes) : List Gap :=
  match lines.dropWhile List.isEmpty with
  | [] => []
  | first :: rest => gaps first 0 rest

/-- **Folding**: leading empty lines give a line end each, and each further line comes behind the
separator of its gap. -/
def yamlFold (lines : List Bytes) : Bytes :=
  List.replicate (lines.takeWhile List.isEmpty).length 10 ++
    (lines.dropWhile List.isEmpty).headD [] ++
    (consecutive lines).flatMap fun g => g.separator ++ g.next

/-- The number of empty lines at the end. -/
def trailingEmpty (lines : List Bytes) : Nat := (lines.rtakeWhile List.isEmpty).length

/-- The line does not end a scalar that is indented by `m`. -/
def inScalar (m : Nat) (L : Line) : Bool := L.blank || decide (m ≤ L.indent)

/-- The lines of a scalar that is indented by `m`. -/
def scalarLines (m : Nat) (following : List Line) : List Line := following.takeWhile (inScalar m)

/-- What stands in the lines of a scalar, behind the indentation. -/
def contents (m : Nat) (lines : List Line) : List Bytes := lines.map (·.text.drop m)

/-- The lines on which the parser keeps to the rule: where empty lines stand between two others,
neither of these is indented deeper, and the blank lines at the end are not wider than the
indentation. -/
structure FoldsPlainly (m : Nat) (lines : List Line) : Prop where
  gaps : ∀ g ∈ consecutive (contents m lines), 0 < g.blanks → spaced g.prev = false ∧
    spaced g.next = false
  trailing : ∀ L ∈ lines.rtakeWhile Line.blank, L.text.length ≤ m

/-! ## The loop over the lines -/

variable {m : Nat}

/-- **The loop takes the lines of the scalar, without the blank ones at their end.** -/
theorem contentLoop_eq {pending : List Line} (hpending : ∀ L ∈ pending, L.blank = true)
    (content : List Bytes) (following : List Line) :
    contentLoop m pending content following =
      (content ++ contents m ((pending ++ scalarLines m following).rdropWhile Line.blank),
        ((pending ++ scalarLines m following).rtakeWhile Line.blank).length,
        following.dropWhile (inScalar m)) := by
  have hall {xs : List Line} (hxs : ∀ L ∈ xs, L.blank = true) :
      xs.rdropWhile Line.blank = [] ∧ xs.rtakeWhile Line.blank = xs :=
    ⟨List.rdropWhile_eq_nil_iff.mpr hxs, List.rtakeWhile_eq_self_iff.mpr hxs⟩
  fun_induction contentLoop m pending content following with
  | case1 pending content => simp [scalarLines, contents, hall hpending]
  | case2 pending content L rest hblank ih =>
    have hmore : ∀ M ∈ pending ++ [L], M.blank = true :=
      List.forall_mem_append.mpr ⟨hpending, List.forall_mem_singleton.mpr hblank⟩
    have hgo : inScalar m L = true := by simp [inScalar, hblank]
    rw [ih hmore, scalarLines, scalarLines, List.takeWhile_cons_of_pos hgo,
      List.dropWhile_cons_of_pos hgo, List.append_assoc, List.singleton_append]
  | case3 pending content L rest hblank hindent =>
    have hstop : ¬ inScalar m L = true := by simp [inScalar, hblank, hindent]
    rw [scalarLines, List.takeWhile_cons_of_neg hstop, List.dropWhile_cons_of_neg hstop,
      List.append_nil, (hall hpending).1, (hall hpending).2]
    simp [contents]
  | case4 pending content L rest hblank hindent ih =>
    have hgo : inScalar m L = true := by simp [inScalar, Nat.le_of_not_lt hindent]
    have hcontent : L.blank = false := Bool.eq_false_iff.mpr hblank
    rw [ih nofun, scalarLines, scalarLines, List.takeWhile_cons_of_pos hgo,
      List.dropWhile_cons_of_pos hgo,
      rdropWhile_append_not hcontent, rtakeWhile_append_not hcontent]
    simp [contents]

/-- **What is read of a folded scalar**, when its first line is indented and no blank line in front
of it is wider. -/
theorem parseBlockScalar_eq {n col : Nat} {H first : Line} {following : List Line} {chomp : Chomp}
    (hheader : blockScalarHeader H col = .ok (62, chomp))
    (hfirst : following.find? (!·.blank) = some first) (hindent : n < first.indent)
    (hleading : ∀ L ∈ following.takeWhile Line.blank, L.indent ≤ first.indent) :
    parseBlockScalar n H col following =
      .ok (foldedText
      (contents first.indent ((scalarLines first.indent following).rdropWhile Line.blank)) ++
          chompSuffix chomp ((scalarLines first.indent following).rtakeWhile Line.blank).length,
        following.dropWhile (inScalar first.indent)) := by
  obtain ⟨hcontent, leading, more, rfl, hblank⟩ := List.find?_eq_some_iff_append.mp hfirst
  have hcontent : first.blank = false := by simpa using hcontent
  have hblank : ∀ L ∈ leading, L.blank = true := by simpa using hblank
  have hstop : ¬ first.blank = true := by simp [hcontent]
  have hgo : inScalar first.indent first = true := by simp [inScalar]
  have hleads : ∀ L ∈ leading, inScalar first.indent L = true :=
    fun L hL => by simp [inScalar, hblank L hL]
  have htake : (leading ++ first :: more).takeWhile Line.blank = leading := by
    rw [List.takeWhile_append_of_pos hblank, List.takeWhile_cons_of_neg hstop, List.append_nil]
  have hdrop : (leading ++ first :: more).dropWhile Line.blank = first :: more := by
    rw [List.dropWhile_append_of_pos hblank, List.dropWhile_cons_of_neg hstop]
  rw [htake] at hleading
  have hnarrow : leading.find? (first.indent < ·.indent) = none := by
    rw [List.find?_eq_none]
    intro L hL
    simpa using hleading L hL
  -- Blank lines that are not wider than the indentation have nothing behind it.
  have hempty : contents first.indent leading = leading.map fun _ => [] := by
    refine List.map_congr_left fun L hL => List.drop_eq_nil_iff.mpr ?_
    have hwidth : L.indent = L.text.length := beq_iff_eq.mp (hblank L hL)
    exact hwidth ▸ hleading L hL
  have hlines : scalarLines first.indent (leading ++ first :: more) =
      leading ++ first :: scalarLines first.indent more := by
    rw [scalarLines, List.takeWhile_append_of_pos hleads, List.takeWhile_cons_of_pos hgo,
      scalarLines]
  have hlines' : scalarLines first.indent (first :: more) = [] ++ first ::
    scalarLines first.indent more := by
    rw [scalarLines, List.takeWhile_cons_of_pos hgo, scalarLines, List.nil_append]
  rw [parseBlockScalar, hheader, htake, hdrop]
  simp only [except_ok_bind, if_neg (Nat.not_le.mpr hindent), hnarrow]
  rw [contentLoop_eq (List.forall_mem_nil _), List.nil_append, hlines, hlines',
    rdropWhile_append_not hcontent,
    rdropWhile_append_not hcontent, rtakeWhile_append_not hcontent, rtakeWhile_append_not hcontent,
    List.dropWhile_append_of_pos hleads, ← hempty]
  simp [contents]

/-! ## The loop that folds -/

/-- What the parser writes between the two lines. -/
def Gap.written (g : Gap) : Bytes :=
  if 0 < g.blanks then List.replicate g.blanks 10
  else if spaced g.prev || spaced g.next then [10] else [32]

/-- Empty lines stand between two others, of which one is indented deeper. -/
def Gap.shortened (g : Gap) : Bool := decide (0 < g.blanks) && (spaced g.prev || spaced g.next)

theorem Gap.length_separator (g : Gap) :
    g.separator.length = g.written.length + if g.shortened then 1 else 0 := by
  obtain ⟨prev, blanks, next⟩ := g
  unfold Gap.separator Gap.written Gap.shortened
  cases hspaced : spaced prev || spaced next with
  | true => cases blanks <;> simp
  | false => cases blanks <;> simp

theorem Gap.separator_eq {g : Gap} (h : g.shortened = false) : g.separator = g.written := by
  obtain ⟨prev, blanks, next⟩ := g
  unfold Gap.shortened at h
  unfold Gap.separator Gap.written
  cases hspaced : spaced prev || spaced next with
  | true =>
    cases blanks with
    | zero => rfl
    | succ k => simp [hspaced] at h
  | false =>
    cases blanks with
    | zero => rfl
    | succ k => simp

/-- **The rule writes one line end more at each gap that is shortened.** -/
theorem length_flatMap_separator (gs : List Gap) :
    (gs.flatMap fun g => g.separator ++ g.next).length =
      (gs.flatMap fun g => g.written ++ g.next).length + gs.countP Gap.shortened := by
  induction gs with
  | nil => rfl
  | cons g gs ih =>
    rw [List.flatMap_cons, List.flatMap_cons, List.length_append, List.length_append,
      List.length_append, List.length_append, List.countP_cons, ih, g.length_separator]
    omega

theorem flatMap_separator_eq {gs : List Gap} (h : ∀ g ∈ gs, g.shortened = false) :
    (gs.flatMap fun g => g.separator ++ g.next) = gs.flatMap fun g => g.written ++ g.next := by
  rw [List.flatMap_def, List.flatMap_def]
  exact congrArg List.flatten (List.map_congr_left fun g hg => by rw [Gap.separator_eq (h g hg)])

/-- **The loop over the lines behind a nonempty one.** -/
theorem foldl_step_gaps (text prev : Bytes) (k : Nat) (lines : List Bytes) :
    (lines.foldl Folding.step ⟨text, true, spaced prev, k⟩).text =
      text ++ (gaps prev k lines).flatMap fun g => g.written ++ g.next := by
  induction lines generalizing text prev k with
  | nil => simp [gaps]
  | cons line lines ih =>
    cases line with
    | nil => exact ih text prev (k + 1)
    | cons c cs =>
      refine (ih _ (c :: cs) 0).trans ?_
      simp only [gaps, List.isEmpty_cons, Bool.false_eq_true, if_false, List.flatMap_cons,
        List.append_assoc]
      rfl

variable {lines : List Bytes}

/-- The loop over empty lines. -/
theorem foldl_step_empty (hlines : ∀ line ∈ lines, line.isEmpty = true) (s : Folding) :
    lines.foldl Folding.step s = { s with blanks := s.blanks + lines.length } := by
  induction lines generalizing s with
  | nil => rfl
  | cons line lines ih =>
    obtain ⟨hline, hrest⟩ := List.forall_mem_cons.mp hlines
    rw [List.foldl_cons, ih hrest, Folding.step, if_pos hline, List.length_cons, Nat.add_assoc,
      Nat.add_comm 1]

/-- **What the loop writes**, said of the gaps. -/
theorem foldedText_eq (hsome : ∃ line ∈ lines, line.isEmpty = false) :
    foldedText lines =
      List.replicate (lines.takeWhile List.isEmpty).length 10 ++
        (lines.dropWhile List.isEmpty).headD [] ++
        (consecutive lines).flatMap fun g => g.written ++ g.next := by
  have hsplit : lines.takeWhile List.isEmpty ++ lines.dropWhile List.isEmpty = lines :=
    List.takeWhile_append_dropWhile
  unfold consecutive
  cases hdrop : lines.dropWhile List.isEmpty with
  | nil =>
    obtain ⟨line, hline, hne⟩ := hsome
    rw [List.dropWhile_eq_nil_iff.mp hdrop line hline] at hne
    cases hne
  | cons first rest =>
    have hfirst : first.isEmpty = false := by
      have hhead := List.head_dropWhile_not List.isEmpty (l := lines)
        (by rw [hdrop]; exact List.cons_ne_nil _ _)
      simpa only [hdrop, List.head_cons] using hhead
    conv_lhs => rw [foldedText, ← hsplit, hdrop, List.foldl_append,
      foldl_step_empty fun line hline => List.mem_takeWhile_imp hline]
    cases first with
    | nil => cases hfirst
    | cons c cs =>
      refine (foldl_step_gaps _ (c :: cs) 0 rest).trans ?_
      simp

/-! ## Lines at the end -/

variable {z : Bytes}

theorem gaps_append (hz : z.isEmpty = false) (prev : Bytes) (k : Nat) (xs ys : List Bytes) :
    gaps prev k (xs ++ z :: ys) = gaps prev k (xs ++ [z]) ++ gaps z 0 ys := by
  induction xs generalizing prev k with
  | nil => simp [gaps, hz]
  | cons x xs ih =>
    rw [List.cons_append, List.cons_append, gaps, gaps, ih, ih]
    split_ifs
    · rfl
    · rfl

theorem consecutive_append (hz : z.isEmpty = false) (xs ys : List Bytes) :
    consecutive (xs ++ z :: ys) = consecutive (xs ++ [z]) ++ gaps z 0 ys := by
  induction xs with
  | nil => simp [consecutive, gaps, hz]
  | cons x xs ih =>
    unfold consecutive at ih ⊢
    rw [List.cons_append, List.cons_append]
    by_cases hx : x.isEmpty = true
    · rw [List.dropWhile_cons_of_pos hx, List.dropWhile_cons_of_pos hx]
      exact ih
    · rw [List.dropWhile_cons_of_neg hx, List.dropWhile_cons_of_neg hx]
      exact gaps_append hz x 0 xs ys

theorem gaps_of_empty (hlines : ∀ line ∈ lines, line.isEmpty = true) (prev : Bytes)
    (k : Nat) : gaps prev k lines = [] := by
  induction lines generalizing k with
  | nil => rfl
  | cons line lines ih =>
    obtain ⟨hline, hrest⟩ := List.forall_mem_cons.mp hlines
    rw [gaps, if_pos hline, ih hrest]

/-- Further lines are folded behind the last nonempty one. -/
theorem yamlFold_append (hz : z.isEmpty = false) (xs ys : List Bytes) :
    yamlFold (xs ++ z :: ys) =
      yamlFold (xs ++ [z]) ++ (gaps z 0 ys).flatMap fun g => g.separator ++ g.next := by
  have hfront : (xs ++ z :: ys).takeWhile List.isEmpty = (xs ++ [z]).takeWhile List.isEmpty ∧
      ((xs ++ z :: ys).dropWhile List.isEmpty).headD [] =
        ((xs ++ [z]).dropWhile List.isEmpty).headD [] := by
    induction xs with
    | nil => simp [hz]
    | cons x xs ih =>
      by_cases hx : x.isEmpty = true
      · simpa [hx] using ih
      · simp [hx]
  obtain ⟨htake, hdrop⟩ := hfront
  unfold yamlFold
  rw [htake, hdrop, consecutive_append hz, List.flatMap_append, List.append_assoc,
    List.append_assoc, List.append_assoc]

theorem length_chompSuffix_le (chomp : Chomp) (k n : Nat) :
    (chompSuffix chomp (k + n)).length ≤ k + (chompSuffix chomp n).length := by
  cases chomp with
  | strip => exact Nat.zero_le _
  | clip => exact Nat.le_add_left 1 k
  | keep =>
    simp only [chompSuffix, List.length_cons, List.length_replicate]
    omega

/-- **White space at the end**: a line of it is content by the rule, and is longer than the line
ends that stand for it. -/
theorem chompSuffix_lt {ts : List Bytes} (hts : ∀ t ∈ ts, t.isEmpty = false → spaced t = true)
    (hwide : ∃ t ∈ ts, t.isEmpty = false) (chomp : Chomp) (prev : Bytes) (k : Nat) :
    (chompSuffix chomp (k + ts.length)).length <
      ((gaps prev k ts).flatMap fun g => g.separator ++ g.next).length +
        (chompSuffix chomp (trailingEmpty ts)).length := by
  induction ts generalizing prev k with
  | nil =>
    obtain ⟨t, ht, -⟩ := hwide
    cases ht
  | cons t ts ih =>
    obtain ⟨hspaced, hrest⟩ := List.forall_mem_cons.mp hts
    cases ht : t.isEmpty with
    | true =>
      have hmore : ∃ t ∈ ts, t.isEmpty = false := by
        obtain ⟨u, hu, hne⟩ := hwide
        rcases List.mem_cons.mp hu with rfl | hu
        · rw [ht] at hne
          cases hne
        · exact ⟨u, hu, hne⟩
      have htrailing : trailingEmpty (t :: ts) = trailingEmpty ts := by
        obtain ⟨as, u, bs, hne, rfl⟩ : ∃ as u bs, u.isEmpty = false ∧ ts = as ++ u :: bs := by
          obtain ⟨u, hu, hne⟩ := hmore
          obtain ⟨as, bs, rfl⟩ := List.append_of_mem hu
          exact ⟨as, u, bs, hne, rfl⟩
        rw [trailingEmpty, trailingEmpty, ← List.cons_append, rtakeWhile_append_not hne,
          rtakeWhile_append_not hne]
      have hlater := ih hrest hmore prev (k + 1)
      rw [Nat.add_assoc, Nat.add_comm 1] at hlater
      rwa [htrailing, gaps, if_pos ht]
    | false =>
      have htrailing : trailingEmpty (t :: ts) = trailingEmpty ts := by
        rw [trailingEmpty, trailingEmpty]
        exact congrArg List.length (rtakeWhile_append_not ht [] ts)
      have hseparator : (Gap.separator ⟨prev, k, t⟩).length = k + 1 := by
        simp [Gap.separator, hspaced ht]
      have hpos : 0 < t.length := List.length_pos_iff.mpr (by simpa using ht)
      have hsplit := length_chompSuffix_le chomp (k + 1) ts.length
      rw [Nat.add_assoc, Nat.add_comm 1] at hsplit
      rw [htrailing, gaps, if_neg (by simp [ht]), List.flatMap_cons, List.length_append,
        List.length_append, hseparator]
      dsimp only
      by_cases hmore : ∃ u ∈ ts, u.isEmpty = false
      · have hlater := ih hrest hmore t 0
        rw [Nat.zero_add] at hlater
        rw [List.length_cons]
        omega
      · have hall : ∀ u ∈ ts, u.isEmpty = true := fun u hu => by
          by_contra hne
          exact hmore ⟨u, hu, by simpa using hne⟩
        rw [trailingEmpty, List.rtakeWhile_eq_self_iff.mpr hall, List.length_cons]
        omega

/-! ## The rule is kept -/

theorem shortened_eq_false_iff {g : Gap} :
    g.shortened = false ↔ (0 < g.blanks → spaced g.prev = false ∧ spaced g.next = false) := by
  simp [Gap.shortened]

/-- Behind the indentation, the lines of a scalar that are not blank are not empty. -/
theorem isEmpty_drop_of_inScalar {L : Line} (h : inScalar m L = true) (hblank : L.blank = false) :
    (L.text.drop m).isEmpty = false := by
  have hindent : m ≤ L.indent := by simpa [inScalar, hblank] using h
  have hle : L.indent ≤ L.text.length := (List.takeWhile_sublist _).length_le
  have hne : L.indent ≠ L.text.length := by simpa [Line.blank] using hblank
  rw [List.isEmpty_eq_false_iff, ne_eq, List.drop_eq_nil_iff]
  omega

/-- What stands behind the indentation of a blank line is white space. -/
theorem spaced_drop_of_blank {L : Line} (hblank : L.blank = true)
    (hne : (L.text.drop m).isEmpty = false) : spaced (L.text.drop m) = true := by
  have hwidth : (L.text.takeWhile isInlineWs).length = L.text.length := beq_iff_eq.mp hblank
  have hall : ∀ c ∈ L.text, isInlineWs c = true :=
    List.takeWhile_eq_self_iff.mp ((List.takeWhile_prefix _).eq_of_length hwidth)
  cases hdrop : L.text.drop m with
  | nil =>
    rw [hdrop] at hne
    cases hne
  | cons c cs => exact hall c (List.mem_of_mem_drop (hdrop ▸ List.mem_cons_self ..))

/-- **The text is that of the rule exactly on lines that fold plainly.** -/
theorem foldedText_eq_iff {lines : List Line} (hlines : ∀ L ∈ lines, inScalar m L = true)
    (hsome : ∃ L ∈ lines, L.blank = false) (chomp : Chomp) :
    foldedText (contents m (lines.rdropWhile Line.blank)) ++
          chompSuffix chomp (lines.rtakeWhile Line.blank).length =
        yamlFold (contents m lines) ++ chompSuffix chomp (trailingEmpty (contents m lines)) ↔
      FoldsPlainly m lines := by
  obtain ⟨front, last, hlast, hfront⟩ : ∃ front last, last.blank = false ∧
      lines.rdropWhile Line.blank = front ++ [last] := by
    have hne : lines.rdropWhile Line.blank ≠ [] := fun hnil => by
      obtain ⟨L, hL, hblank⟩ := hsome
      rw [List.rdropWhile_eq_nil_iff.mp hnil L hL] at hblank
      cases hblank
    refine ⟨_, _, ?_, (List.dropLast_append_getLast hne).symm⟩
    simpa using List.rdropWhile_last_not Line.blank lines hne
  have hsplit : front ++ [last] ++ lines.rtakeWhile Line.blank = lines :=
    hfront ▸ List.rdropWhile_append_rtakeWhile
  generalize htail : lines.rtakeWhile Line.blank = tail at hsplit
  have hblank : ∀ L ∈ tail, L.blank = true := fun L hL => List.mem_rtakeWhile_imp (htail ▸ hL)
  have hz : (last.text.drop m).isEmpty = false :=
    isEmpty_drop_of_inScalar (hlines last (by simp [← hsplit])) hlast
  generalize hzdef : last.text.drop m = z at hz
  have hcontents : contents m lines = contents m front ++ z :: contents m tail := by
    simp [← hsplit, contents, hzdef]
  have hcore : contents m (front ++ [last]) = contents m front ++ [z] := by simp [contents, hzdef]
  have htrailing : trailingEmpty (contents m lines) = trailingEmpty (contents m tail) := by
    rw [trailingEmpty, hcontents, rtakeWhile_append_not hz, trailingEmpty]
  have hwritten : foldedText (contents m front ++ [z]) = _ := foldedText_eq ⟨z, by simp, hz⟩
  have hconsecutive := consecutive_append hz (contents m front) (contents m tail)
  have hrule := yamlFold_append hz (contents m front) (contents m tail)
  -- Blank lines that are not wider than the indentation add nothing by the rule.
  have hnarrow (h : ∀ t ∈ contents m tail, t.isEmpty = true) :
      gaps z 0 (contents m tail) = [] ∧ trailingEmpty (contents m tail) = tail.length := by
    refine ⟨gaps_of_empty h z 0, ?_⟩
    rw [trailingEmpty, List.rtakeWhile_eq_self_iff.mpr h, contents, List.length_map]
  have hwidths : (∀ t ∈ contents m tail, t.isEmpty = true) ↔ ∀ L ∈ tail, L.text.length ≤ m := by
    simp [contents, List.drop_eq_nil_iff]
  rw [hfront, hcore, hwritten, htrailing, hcontents, hrule, yamlFold]
  constructor
  · intro htext
    have hlength := congrArg List.length htext
    simp only [List.length_append, length_flatMap_separator (consecutive _)] at hlength
    have hempty : ∀ t ∈ contents m tail, t.isEmpty = true := by
      by_contra hwide
      have hcount : (contents m tail).length = tail.length := List.length_map _
      have hlt := chompSuffix_lt (fun t ht hne => ?_) (by simpa using hwide) chomp z 0
      · rw [Nat.zero_add, hcount] at hlt
        omega
      · obtain ⟨L, hL, rfl⟩ := List.mem_map.mp ht
        exact spaced_drop_of_blank (hblank L hL) hne
    obtain ⟨hgaps, hcount⟩ := hnarrow hempty
    rw [hgaps, hcount, List.flatMap_nil, List.length_nil] at hlength
    have hplain : (consecutive (contents m front ++ [z])).countP Gap.shortened = 0 := by omega
    refine ⟨fun g hg => ?_, htail ▸ hwidths.mp hempty⟩
    rw [hcontents, hconsecutive, hgaps, List.append_nil] at hg
    exact shortened_eq_false_iff.mp (Bool.eq_false_iff.mpr (List.countP_eq_zero.mp hplain g hg))
  · intro hplain
    obtain ⟨hgaps, hcount⟩ := hnarrow (hwidths.mpr (htail ▸ hplain.trailing))
    have hpairs : ∀ g ∈ consecutive (contents m front ++ [z]), g.shortened = false := by
      intro g hg
      refine shortened_eq_false_iff.mpr (hplain.gaps g ?_)
      rw [hcontents, hconsecutive]
      exact List.mem_append_left _ hg
    rw [hgaps, hcount, flatMap_separator_eq hpairs, List.flatMap_nil, List.append_nil]

/-- **A folded scalar is read by the rule of folding exactly when no empty lines stand next to a
line that is indented deeper**, and no blank line at the end is wider than the indentation. -/
theorem parse_folded_iff {n col : Nat} {H first : Line} {following : List Line} {chomp : Chomp}
    (hheader : blockScalarHeader H col = .ok (62, chomp))
    (hfirst : following.find? (!·.blank) = some first) (hindent : n < first.indent)
    (hleading : ∀ L ∈ following.takeWhile Line.blank, L.indent ≤ first.indent) :
    parseBlockScalar n H col following =
        .ok (yamlFold (contents first.indent (scalarLines first.indent following)) ++
            chompSuffix chomp
              (trailingEmpty (contents first.indent (scalarLines first.indent following))),
          following.dropWhile (inScalar first.indent)) ↔
      FoldsPlainly first.indent (scalarLines first.indent following) := by
  have hsome : ∃ L ∈ scalarLines first.indent following, L.blank = false := by
    obtain ⟨hcontent, leading, more, rfl, hblank⟩ := List.find?_eq_some_iff_append.mp hfirst
    have hleads : ∀ L ∈ leading, inScalar first.indent L = true := fun L hL => by
      simpa [inScalar] using Or.inl (hblank L hL)
    refine ⟨first, ?_, by simpa using hcontent⟩
    rw [scalarLines, List.takeWhile_append_of_pos hleads,
      List.takeWhile_cons_of_pos (by simp [inScalar])]
    simp
  have hlines : ∀ L ∈ scalarLines first.indent following, inScalar first.indent L = true :=
    fun L hL => List.mem_takeWhile_imp hL
  rw [parseBlockScalar_eq hheader hfirst hindent hleading, Except.ok.injEq, Prod.mk.injEq,
    ← foldedText_eq_iff hlines hsome chomp]
  exact and_iff_left rfl

/-- A paragraph of two lines with an empty one between them. -/
theorem parse_folded_iff_paragraph :
    parseBlockScalar 0 ⟨0, 1, ascii "a: >"⟩ 3 [⟨5, 2, ascii "  b"⟩, ⟨9, 3, []⟩,
      ⟨10, 4, ascii "  c"⟩] =
        .ok (yamlFold (contents 2 [⟨5, 2, ascii "  b"⟩, ⟨9, 3, []⟩, ⟨10, 4, ascii "  c"⟩]) ++
            chompSuffix .clip 0, []) ↔
      FoldsPlainly 2 [⟨5, 2, ascii "  b"⟩, ⟨9, 3, []⟩, ⟨10, 4, ascii "  c"⟩] := by
  have hfirst : [(⟨5, 2, ascii "  b"⟩ : Line), ⟨9, 3, []⟩, ⟨10, 4, ascii "  c"⟩].find? (!·.blank) =
      some ⟨5, 2, ascii "  b"⟩ := by
    decide
  exact parse_folded_iff (by decide) hfirst (by decide) (by decide)

/-- **One line end is missing between a line and one that is indented deeper, behind an empty
line.** -/
theorem not_parse_folded :
    ¬ ∀ (n col : Nat) (H first : Line) (following : List Line) (chomp : Chomp),
    blockScalarHeader H col = .ok (62, chomp) → following.find? (!·.blank) = some first →
      n < first.indent →
    (∀ L ∈ following.takeWhile Line.blank, L.indent ≤ first.indent) →
    parseBlockScalar n H col following =
      .ok (yamlFold (contents first.indent (scalarLines first.indent following)) ++
          chompSuffix chomp
            (trailingEmpty (contents first.indent (scalarLines first.indent following))),
        following.dropWhile (inScalar first.indent)) := by
  intro h
  have hparse := h 0 3 ⟨0, 1, ascii "a: >"⟩ ⟨5, 2, ascii "  b"⟩
    [⟨5, 2, ascii "  b"⟩, ⟨9, 3, []⟩, ⟨10, 4, ascii "   c"⟩] .clip (by decide) (by decide)
      (by decide) (by decide)
  revert hparse
  decide

end Libca.Yaml
