import Libca.Common.Except
import Libca.Str.Utf16
import Mathlib.Data.List.TakeWhile

/-!
# Command lines on Windows (`process/subprocess.cpp` 98-160)

* `quoteArgument`, `commandLine`: what `CreateProcessW` is given.
* `parseCommandLine`: how the C runtime takes a command line apart, by its own rules for the first
  token.
* `argToken_quoteArgument`: **an argument is read back**, whatever it holds.
* `programToken_quoteArgument`: the program is read back with the backslashes before its closing
  quote doubled.
* `roundTrips_iff`: **the program and the arguments are read back unless the program is quoted and
  ends with a backslash.** `not_roundTrips`: such a program.
-/

namespace Libca.Process

open Common Str

/-! ## Writing -/

/-- `quote_argument` looks for one of these. -/
def isSpecial (ch : Nat) : Bool := ch == 32 || ch == 9 || ch == 10 || ch == 11 || ch == 34

/-- The loop of `quote_argument`; the backslashes just read are not written yet. -/
def quoteLoop : Nat → List Nat → List Nat
  | slashes, [] => List.replicate (slashes * 2) 92 ++ [34]
  | slashes, ch :: value =>
    if ch = 92 then quoteLoop (slashes + 1) value
    else if ch = 34 then List.replicate (slashes * 2 + 1) 92 ++ ch :: quoteLoop 0 value
    else List.replicate slashes 92 ++ ch :: quoteLoop 0 value

/-- `quote_argument`. -/
def quoteArgument (value : List Nat) : List Nat :=
  if value ≠ [] ∧ value.any isSpecial = false then value else 34 :: quoteLoop 0 value

/-- `MultiByteToWideChar` for UTF-8 that has to be valid: the units it writes for bytes and a
length, none when it fails. -/
abbrev Converter := Bytes → Int → List Nat

/-- What is documented of the conversion of a text. -/
def Converter.Documented (convert : Converter) : Prop :=
  ∀ cs, convert (encode cs) (encode cs).length = utf16OfChars cs

/-- The cast of a size to `int`. -/
def sizeAsInt (n : Nat) : Int := Int.bmod n (2 ^ 32)

/-- `utf8_to_utf16`. -/
def utf8ToWide (convert : Converter) (value : Bytes) : Option (List Nat) :=
  let converted := convert value (sizeAsInt value.length)
  if converted.length = 0 ∧ value ≠ [] then none else some converted

/-- The loop of `command_line` over the arguments. -/
def appendArguments (convert : Converter) (result : List Nat) :
    List Bytes → Except Status (List Nat)
  | [] => .ok result
  | arg :: args =>
    match utf8ToWide convert arg with
    | none => .error ⟨.invalidArgument, ascii "argument is not valid UTF-8"⟩
    | some wideArg => appendArguments convert (result ++ 32 :: quoteArgument wideArg) args

/-- `command_line`. -/
def commandLine (convert : Converter) (programValue : Bytes) (args : List Bytes) :
    Except Status (List Nat) :=
  match utf8ToWide convert programValue with
  | none => .error ⟨.invalidArgument, ascii "program is not valid UTF-8"⟩
  | some program => appendArguments convert (quoteArgument program) args

/-! ## Reading -/

/-- A blank that ends a token outside of quotes. -/
def isBlank (ch : Nat) : Bool := ch == 32 || ch == 9

/-- The first token: quotes toggle, backslashes are literal. -/
def programToken : Bool → List Nat → List Nat × List Nat
  | _, [] => ([], [])
  | quoted, ch :: line =>
    if ch = 34 then programToken (!quoted) line
    else if quoted = false ∧ isBlank ch then ([], ch :: line)
    else
      let (token, rest) := programToken quoted line
      (ch :: token, rest)

/-- A later token, after some backslashes: an even number of them before a quote stands for half of
them and a delimiter, where two quotes inside of quotes are a literal one; an odd number stands for
half of them and a literal quote; elsewhere they are literal. -/
def argToken : Bool → Nat → List Nat → List Nat × List Nat
  | _, slashes, [] => (List.replicate slashes 92, [])
  | quoted, slashes, ch :: line =>
    if ch = 92 then argToken quoted (slashes + 1) line
    else if ch = 34 then
      if slashes % 2 = 1 then
        let (token, rest) := argToken quoted 0 line
        (List.replicate (slashes / 2) 92 ++ 34 :: token, rest)
      else
        match quoted, line with
        | true, 34 :: line =>
          let (token, rest) := argToken true 0 line
          (List.replicate (slashes / 2) 92 ++ 34 :: token, rest)
        | quoted, line =>
          let (token, rest) := argToken (!quoted) 0 line
          (List.replicate (slashes / 2) 92 ++ token, rest)
    else if quoted = false ∧ isBlank ch then (List.replicate slashes 92, ch :: line)
    else
      let (token, rest) := argToken quoted 0 line
      (List.replicate slashes 92 ++ ch :: token, rest)

theorem argToken_cons (quoted : Bool) (slashes ch : Nat) (line : List Nat) :
    argToken quoted slashes (ch :: line) = if ch = 92 then argToken quoted (slashes + 1) line
    else if ch = 34 then
      if slashes % 2 = 1 then
        (List.replicate (slashes / 2) 92 ++ 34 :: (argToken quoted 0 line).1,
      (argToken quoted 0 line).2)
      else
        match quoted, line with
        | true, 34 :: line =>
          (List.replicate (slashes / 2) 92 ++ 34 :: (argToken true 0 line).1,
      (argToken true 0 line).2)
        | quoted, line =>
          (List.replicate (slashes / 2) 92 ++ (argToken (!quoted) 0 line).1,
      (argToken (!quoted) 0 line).2)
    else if quoted = false ∧ isBlank ch then (List.replicate slashes 92, ch :: line)
    else (List.replicate slashes 92 ++ ch :: (argToken quoted 0 line).1,
      (argToken quoted 0 line).2) := by
  rw [argToken.eq_def]

theorem length_argToken (quoted : Bool) (slashes : Nat) (line : List Nat) :
    (argToken quoted slashes line).2.length ≤ line.length := by
  fun_induction argToken quoted slashes line <;> simp_all <;> omega

variable {ch : Nat}

/-- A token takes a character that is no blank. -/
theorem length_argToken_cons (h : isBlank ch = false) (line : List Nat) :
    (argToken false 0 (ch :: line)).2.length ≤ line.length := by
  rw [argToken_cons]
  by_cases hslash : ch = 92
  · rw [if_pos hslash]
    exact length_argToken ..
  · rw [if_neg hslash]
    by_cases hquote : ch = 34
    · rw [if_pos hquote, if_neg (by decide)]
      exact length_argToken ..
    · rw [if_neg hquote, if_neg (by simp [h])]
      exact length_argToken ..

/-- The tokens behind the first one. -/
def argTokens (line : List Nat) : List (List Nat) :=
  match h : line.dropWhile isBlank with
  | [] => []
  | ch :: rest => (argToken false 0 (ch :: rest)).1 :: argTokens (argToken false 0 (ch :: rest)).2
termination_by line.length
decreasing_by
  have hblank : isBlank ch = false := by
    have hhead := List.head_dropWhile_not isBlank (l := line) (by simp [h])
    simpa [h] using hhead
  have hdrop := (List.dropWhile_sublist isBlank (l := line)).length_le
  rw [h, List.length_cons] at hdrop
  exact Nat.lt_of_le_of_lt (length_argToken_cons hblank rest) hdrop

/-- How the C runtime takes a command line apart; it ends at the first NUL. -/
def parseCommandLine (line : List Nat) : List (List Nat) :=
  let (program, rest) := programToken false (line.takeWhile (· ≠ 0))
  program :: argTokens rest

/-! ## The arguments -/

/-- Nothing or a blank is left. -/
def AtBlank (rest : List Nat) : Prop := ∀ ch ∈ rest.head?, isBlank ch = true

theorem atBlank_nil : AtBlank [] := nofun

theorem atBlank_cons (rest : List Nat) : AtBlank (32 :: rest) := by
  intro ch h
  cases h
  rfl

theorem argToken_slashes (quoted : Bool) (slashes count : Nat) (line : List Nat) :
    argToken quoted slashes (List.replicate count 92 ++ line) =
      argToken quoted (slashes + count) line := by
  induction count generalizing slashes with
  | zero => rfl
  | succ count ih =>
    rw [List.replicate_succ, List.cons_append, argToken_cons]
    rw [if_pos rfl, ih, Nat.add_right_comm, Nat.add_assoc]

variable {rest : List Nat}

theorem argToken_atBlank (h : AtBlank rest) (slashes : Nat) :
    argToken false slashes rest = (List.replicate slashes 92, rest) := by
  cases rest with
  | nil => rfl
  | cons ch rest =>
    have hblank := h ch rfl
    rw [argToken_cons]
    rw [if_neg, if_neg, if_pos ⟨rfl, hblank⟩]
    · rintro rfl
      cases hblank
    · rintro rfl
      cases hblank

/-- An odd number of backslashes and a quote. -/
theorem argToken_odd (quoted : Bool) (k : Nat) (line : List Nat) :
    argToken quoted (k * 2 + 1) (34 :: line) =
      (List.replicate k 92 ++ 34 :: (argToken quoted 0 line).1, (argToken quoted 0 line).2) := by
  rw [argToken_cons]
  rw [if_neg (by decide), if_pos rfl, if_pos (by omega), show (k * 2 + 1) / 2 = k by omega]

/-- An even number of backslashes and the closing quote. -/
theorem argToken_even (h : AtBlank rest) (k : Nat) :
    argToken true (k * 2) (34 :: rest) = (List.replicate k 92, rest) := by
  rw [argToken_cons]
  rw [if_neg (by decide), if_pos rfl, if_neg (by omega), show k * 2 / 2 = k by omega]
  split
  · next line heq =>
    exact absurd (h 34 rfl) (by decide)
  · rw [Bool.not_true, argToken_atBlank h, List.replicate_zero, List.append_nil]

/-- A character that is neither a backslash nor a quote, and no blank outside of quotes. -/
theorem argToken_plain {quoted : Bool} (hslash : ch ≠ 92) (hquote : ch ≠ 34)
    (hblank : quoted = true ∨ isBlank ch = false) (k : Nat) (line : List Nat) :
    argToken quoted k (ch :: line) =
      (List.replicate k 92 ++ ch :: (argToken quoted 0 line).1, (argToken quoted 0 line).2) := by
  rw [argToken_cons]
  rw [if_neg hslash, if_neg hquote, if_neg]
  rintro ⟨rfl, h⟩
  rcases hblank with hquoted | hblank
  · cases hquoted
  · rw [hblank] at h
    cases h

/-- **What the loop writes is read back inside of quotes.** -/
theorem argToken_quoteLoop (h : AtBlank rest) (slashes : Nat) (value : List Nat) :
    argToken true 0 (quoteLoop slashes value ++ rest) = (List.replicate slashes 92 ++ value,
      rest) := by
  fun_induction quoteLoop slashes value with
  | case1 slashes =>
    rw [List.append_assoc, argToken_slashes, Nat.zero_add, List.singleton_append, argToken_even h,
      List.append_nil]
  | case2 slashes value ih =>
    rw [ih, List.replicate_succ', List.append_assoc]
    rfl
  | case3 slashes value hslash ih =>
    rw [List.append_assoc, argToken_slashes, Nat.zero_add, List.cons_append, argToken_odd, ih]
    rfl
  | case4 slashes ch value hslash hquote ih =>
    rw [List.append_assoc, argToken_slashes, Nat.zero_add, List.cons_append,
      argToken_plain hslash hquote (.inl rfl), ih]
    rfl

theorem not_isBlank (h : isSpecial ch = false) : isBlank ch = false := by
  unfold isSpecial at h
  unfold isBlank
  simp only [Bool.or_eq_false_iff] at h ⊢
  exact h.1.1.1

theorem ne_quote (h : isSpecial ch = false) : ch ≠ 34 := by
  rintro rfl
  cases h

variable {value : List Nat}

/-- What needs no quotes is read back outside of quotes. -/
theorem argToken_unquoted (h : AtBlank rest) (slashes : Nat)
    (hvalue : value.any isSpecial = false) :
    argToken false slashes (value ++ rest) = (List.replicate slashes 92 ++ value, rest) := by
  induction value generalizing slashes with
  | nil => rw [List.nil_append, argToken_atBlank h, List.append_nil]
  | cons ch value ih =>
    rw [List.any_cons, Bool.or_eq_false_iff] at hvalue
    by_cases hslash : ch = 92
    · rw [hslash, List.cons_append, argToken_cons]
      rw [if_pos rfl, ih _ hvalue.2, List.replicate_succ', List.append_assoc]
      rfl
    · rw [List.cons_append, argToken_plain hslash (ne_quote hvalue.1) (.inr (not_isBlank hvalue.1)),
        ih _ hvalue.2]
      rfl

/-- **An argument is read back.** -/
theorem argToken_quoteArgument (h : AtBlank rest) (value : List Nat) :
    argToken false 0 (quoteArgument value ++ rest) = (value, rest) := by
  unfold quoteArgument
  by_cases hplain : value ≠ [] ∧ value.any isSpecial = false
  · rw [if_pos hplain, argToken_unquoted h 0 hplain.2]
    rfl
  · rw [if_neg hplain, List.cons_append, argToken_cons,
      if_neg (by decide), if_pos rfl, if_neg (by decide)]
    dsimp only
    rw [Bool.not_false, argToken_quoteLoop h]
    rfl

/-- The arguments with the blanks before them. -/
def argumentsText (args : List (List Nat)) : List Nat := args.flatMap fun arg =>
    32 :: quoteArgument arg

theorem atBlank_argumentsText (args : List (List Nat)) : AtBlank (argumentsText args) := by
  cases args with
  | nil => exact atBlank_nil
  | cons arg args => exact atBlank_cons _

theorem quoteArgument_eq_cons (value : List Nat) :
    ∃ ch rest, quoteArgument value = ch :: rest ∧ isBlank ch = false := by
  unfold quoteArgument
  by_cases hplain : value ≠ [] ∧ value.any isSpecial = false
  · rw [if_pos hplain]
    obtain ⟨hne, hspecial⟩ := hplain
    obtain ⟨ch, rest, rfl⟩ := List.exists_cons_of_ne_nil hne
    refine ⟨ch, rest, rfl, ?_⟩
    rw [List.any_cons, Bool.or_eq_false_iff] at hspecial
    exact not_isBlank hspecial.1
  · rw [if_neg hplain]
    exact ⟨34, _, rfl, rfl⟩

theorem dropWhile_argumentsText (arg : List Nat) (args : List (List Nat)) :
    (argumentsText (arg :: args)).dropWhile isBlank = quoteArgument arg ++ argumentsText args := by
  obtain ⟨ch, rest, hquoted, hblank⟩ := quoteArgument_eq_cons arg
  unfold argumentsText
  rw [List.flatMap_cons, List.cons_append, List.dropWhile_cons_of_pos rfl, hquoted,
    List.cons_append, List.dropWhile_cons_of_neg (by simp [hblank])]

/-- **The arguments are read back.** -/
theorem argTokens_argumentsText (args : List (List Nat)) : argTokens (argumentsText args) =
    args := by
  induction args with
  | nil =>
    rw [argTokens]
    rfl
  | cons arg args ih =>
    have hdrop := dropWhile_argumentsText arg args
    rw [argTokens]
    split
    · next hnil =>
      obtain ⟨ch, rest, hquoted, -⟩ := quoteArgument_eq_cons arg
      rw [hdrop, hquoted] at hnil
      cases hnil
    · next ch rest hcons =>
      rw [← hcons, hdrop, argToken_quoteArgument (atBlank_argumentsText args)]
      dsimp only
      rw [ih]

/-! ## The program -/

/-- How many backslashes stand at the end, after some others. -/
def slashesAtEnd : Nat → List Nat → Nat
  | slashes, [] => slashes
  | slashes, ch :: value => if ch = 92 then slashesAtEnd (slashes + 1) value
    else slashesAtEnd 0 value

/-- What the first token is read as. -/
def readProgram (value : List Nat) : List Nat :=
  if value ≠ [] ∧ value.any isSpecial = false then value
  else value ++ List.replicate (slashesAtEnd 0 value) 92

theorem quoteLoop_eq (h : 34 ∉ value) (slashes : Nat) :
    quoteLoop slashes value =
      List.replicate slashes 92 ++
        (value ++ (List.replicate (slashesAtEnd slashes value) 92 ++ [34])) := by
  fun_induction quoteLoop slashes value with
  | case1 slashes =>
    rw [slashesAtEnd, List.nil_append, ← List.append_assoc, ← List.replicate_add, Nat.mul_two]
  | case2 slashes value ih =>
    rw [ih fun hmem => h (.tail _ hmem), slashesAtEnd, if_pos rfl, List.replicate_succ',
      List.append_assoc]
    rfl
  | case3 slashes value hslash ih => exact absurd List.mem_cons_self h
  | case4 slashes ch value hslash hquote ih =>
    rw [ih fun hmem => h (.tail _ hmem), slashesAtEnd, if_neg hslash]
    rfl

/-- Characters that are no quotes, and no blanks outside of quotes. -/
theorem programToken_append {quoted : Bool}
    (h : ∀ ch ∈ value, ch ≠ 34 ∧ (quoted = true ∨ isBlank ch = false)) (rest : List Nat) :
    programToken quoted (value ++ rest) = (value ++ (programToken quoted rest).1,
      (programToken quoted rest).2) := by
  induction value with
  | nil => rfl
  | cons ch value ih =>
    obtain ⟨hquote, hblank⟩ := h ch List.mem_cons_self
    have hrest := ih fun c hc => h c (.tail _ hc)
    rw [List.cons_append, programToken, if_neg hquote, if_neg, hrest]
    · rfl
    · rintro ⟨rfl, hch⟩
      rcases hblank with hfalse | hfalse
      · cases hfalse
      · rw [hfalse] at hch
        cases hch

theorem programToken_atBlank (h : AtBlank rest) : programToken false rest = ([], rest) := by
  cases rest with
  | nil => rfl
  | cons ch rest =>
    have hblank := h ch rfl
    rw [programToken, if_neg, if_pos ⟨rfl, hblank⟩]
    rintro rfl
    cases hblank

/-- **The program is read back with the backslashes before its closing quote doubled.** -/
theorem programToken_quoteArgument (h : AtBlank rest) (hquote : 34 ∉ value) :
    programToken false (quoteArgument value ++ rest) = (readProgram value, rest) := by
  unfold quoteArgument readProgram
  by_cases hplain : value ≠ [] ∧ value.any isSpecial = false
  · rw [if_pos hplain, if_pos hplain, programToken_append, programToken_atBlank h, List.append_nil]
    intro ch hch
    refine ⟨fun heq => hquote (heq ▸ hch), .inr (not_isBlank ?_)⟩
    exact Bool.eq_false_iff.mpr fun hspecial =>
      Bool.eq_false_iff.mp hplain.2 (List.any_eq_true.mpr ⟨ch, hch, hspecial⟩)
  · rw [if_neg hplain, if_neg hplain, quoteLoop_eq hquote, List.cons_append, programToken,
      if_pos rfl,
      Bool.not_false, List.replicate_zero, List.nil_append, ← List.append_assoc,
        List.append_assoc _ _ rest,
      programToken_append, List.singleton_append, programToken, if_pos rfl, Bool.not_true,
        programToken_atBlank h,
      List.append_nil]
    intro ch hch
    refine ⟨?_, .inl rfl⟩
    rcases List.mem_append.mp hch with hmem | hmem
    · exact fun heq => hquote (heq ▸ hmem)
    · rw [List.eq_of_mem_replicate hmem]
      decide

theorem slashesAtEnd_eq_zero (slashes : Nat) (value : List Nat) :
    slashesAtEnd slashes value = 0 ↔
      (if value = [] then slashes = 0 else value.getLast? ≠ some 92) := by
  fun_induction slashesAtEnd slashes value with
  | case1 slashes => simp
  | case2 slashes value ih =>
    rw [ih, if_neg (List.cons_ne_nil _ _)]
    cases value with
    | nil => simp
    | cons ch value => simp
  | case3 slashes ch value hslash ih =>
    rw [ih, if_neg (List.cons_ne_nil _ _)]
    cases value with
    | nil => simp [hslash]
    | cons ch' value => simp

/-- The program is quoted and ends with a backslash. -/
def LosesSlashes (value : List Nat) : Prop := value.any isSpecial = true ∧ value.getLast? = some 92

theorem readProgram_eq_iff (value : List Nat) : readProgram value = value ↔
    ¬ LosesSlashes value := by
  unfold readProgram LosesSlashes
  by_cases hplain : value ≠ [] ∧ value.any isSpecial = false
  · rw [if_pos hplain]
    simp [hplain.2]
  · rw [if_neg hplain, List.append_right_eq_self, List.replicate_eq_nil_iff, slashesAtEnd_eq_zero]
    by_cases hnil : value = []
    · simp [hnil]
    · rw [if_neg hnil]
      have hspecial : value.any isSpecial = true := by
        by_contra h
        exact hplain ⟨hnil, Bool.eq_false_iff.mpr h⟩
      simp [hspecial]

/-! ## The line -/

theorem mem_quoteLoop {slashes : Nat} (h : ch ∈ quoteLoop slashes value) :
    ch = 34 ∨ ch = 92 ∨ ch ∈ value := by
  fun_induction quoteLoop slashes value with
  | case1 slashes =>
    rcases List.mem_append.mp h with hslash | hquote
    · exact .inr (.inl (List.eq_of_mem_replicate hslash))
    · exact .inl (List.mem_singleton.mp hquote)
  | case2 slashes value ih => exact (ih h).imp_right (Or.imp_right (List.mem_cons_of_mem _))
  | case3 slashes value hslash ih =>
    rcases List.mem_append.mp h with hslash | hrest
    · exact .inr (.inl (List.eq_of_mem_replicate hslash))
    · rcases List.mem_cons.mp hrest with hquote | hrest
      · exact .inl hquote
      · exact (ih hrest).imp_right (Or.imp_right (List.mem_cons_of_mem _))
  | case4 slashes ch' value hslash hquote ih =>
    rcases List.mem_append.mp h with hslash | hrest
    · exact .inr (.inl (List.eq_of_mem_replicate hslash))
    · rcases List.mem_cons.mp hrest with rfl | hrest
      · exact .inr (.inr List.mem_cons_self)
      · exact (ih hrest).imp_right (Or.imp_right (List.mem_cons_of_mem _))

theorem mem_quoteArgument (h : ch ∈ quoteArgument value) : ch = 34 ∨ ch = 92 ∨ ch ∈ value := by
  unfold quoteArgument at h
  split_ifs at h with hplain
  · exact .inr (.inr h)
  · rcases List.mem_cons.mp h with hquote | hmem
    · exact .inl hquote
    · exact mem_quoteLoop hmem

/-- **A command line is taken apart.** -/
theorem parseCommandLine_line {program : List Nat} {args : List (List Nat)} (hquote : 34 ∉ program)
    (hnul : ∀ value ∈ program :: args, 0 ∉ value) :
    parseCommandLine (quoteArgument program ++ argumentsText args) = readProgram program ::
      args := by
  have hline : (quoteArgument program ++ argumentsText args).takeWhile (· ≠ 0) =
      quoteArgument program ++ argumentsText args := by
    rw [List.takeWhile_eq_self_iff]
    intro ch hch
    have hne {value : List Nat} (hvalue : value ∈ program :: args)
      (hmem : ch ∈ quoteArgument value) : ch ≠ 0 := by
      rintro rfl
      rcases mem_quoteArgument hmem with h | h | h
      · cases h
      · cases h
      · exact hnul value hvalue h
    rw [decide_eq_true_eq]
    rcases List.mem_append.mp hch with hmem | hmem
    · exact hne List.mem_cons_self hmem
    · obtain ⟨arg, harg, hmem⟩ := List.mem_flatMap.mp hmem
      rcases List.mem_cons.mp hmem with rfl | hmem
      · decide
      · exact hne (.tail _ harg) hmem
  unfold parseCommandLine
  rw [hline, programToken_quoteArgument (atBlank_argumentsText args) hquote]
  exact congrArg (readProgram program :: ·) (argTokens_argumentsText args)

/-! ## Texts -/

/-- A character is one code unit, or two that are no ASCII. -/
theorem utf16Units_cases (c : Char) :
    utf16Units c.toNat = [c.toNat] ∨ 0x10000 ≤ c.toNat ∧ ∃ high low, utf16Units c.toNat =
      [high, low] ∧ 0x80 ≤ high ∧ 0x80 ≤ low := by
  unfold utf16Units
  split_ifs with h
  · exact .inr ⟨h, _, _, rfl, Nat.le_trans (by decide) (Nat.le_add_right 0xD800 _),
      Nat.le_trans (by decide) (Nat.le_add_right 0xDC00 _)⟩
  · exact .inl rfl

variable {u : Nat}

/-- ASCII is found among the code units where it is found among the characters. -/
theorem mem_utf16OfChars (hu : u < 0x80) {cs : List Char} :
    u ∈ utf16OfChars cs ↔ ∃ c ∈ cs, c.toNat = u := by
  unfold utf16OfChars
  rw [List.mem_flatMap]
  refine exists_congr fun c => and_congr_right fun _ => ?_
  rcases utf16Units_cases c with hone | ⟨hlarge, high, low, htwo, hhigh, hlow⟩
  · rw [hone, List.mem_singleton, eq_comm]
  · rw [htwo, List.mem_pair]
    omega

theorem getLast?_utf16OfChars (hu : u < 0x80) (cs : List Char) :
    (utf16OfChars cs).getLast? = some u ↔ ∃ c, cs.getLast? = some c ∧ c.toNat = u := by
  rcases List.eq_nil_or_concat cs with rfl | ⟨before, c, rfl⟩
  · simp [utf16OfChars]
  · unfold utf16OfChars
    rw [List.concat_eq_append, List.flatMap_append, List.flatMap_singleton, List.getLast?_append]
    rcases utf16Units_cases c with hone | ⟨hlarge, high, low, htwo, hhigh, hlow⟩
    · rw [hone]
      simp
    · rw [htwo]
      simp
      omega

theorem isSpecial_lt (h : isSpecial u = true) : u < 0x80 := by
  unfold isSpecial at h
  simp only [Bool.or_eq_true, beq_iff_eq] at h
  omega

theorem any_isSpecial (cs : List Char) :
    (utf16OfChars cs).any isSpecial = cs.any fun c => isSpecial c.toNat := by
  rw [Bool.eq_iff_iff, List.any_eq_true, List.any_eq_true]
  constructor
  · rintro ⟨u, hu, hspecial⟩
    obtain ⟨c, hc, rfl⟩ := (mem_utf16OfChars (isSpecial_lt hspecial)).mp hu
    exact ⟨c, hc, hspecial⟩
  · rintro ⟨c, hc, hspecial⟩
    exact ⟨c.toNat, (mem_utf16OfChars (isSpecial_lt hspecial)).mpr ⟨c, hc, rfl⟩, hspecial⟩

variable {convert : Converter}

theorem utf8ToWide_encode (hconvert : convert.Documented) {cs : List Char}
    (hsize : (encode cs).length < 2 ^ 31) :
    utf8ToWide convert (encode cs) = some (utf16OfChars cs) := by
  have hint : sizeAsInt (encode cs).length = (encode cs).length := by
    unfold sizeAsInt
    rw [Int.bmod_eq_of_le] <;> omega
  unfold utf8ToWide
  dsimp only
  rw [hint, hconvert, if_neg]
  rintro ⟨hlength, hne⟩
  have hwide := List.length_eq_zero_iff.mp hlength
  cases cs with
  | nil => exact hne rfl
  | cons c cs =>
    rw [utf16OfChars_cons] at hwide
    rcases utf16Units_cases c with hone | ⟨-, high, low, htwo, -⟩
    · rw [hone] at hwide
      cases hwide
    · rw [htwo] at hwide
      cases hwide

theorem appendArguments_encode (hconvert : convert.Documented) {args : List (List Char)}
    (hsize : ∀ arg ∈ args, (encode arg).length < 2 ^ 31) (result : List Nat) :
    appendArguments convert result (args.map encode) =
      .ok (result ++ argumentsText (args.map utf16OfChars)) := by
  induction args generalizing result with
  | nil =>
    rw [List.map_nil, List.map_nil, appendArguments]
    exact congrArg Except.ok (List.append_nil result).symm
  | cons arg args ih =>
    rw [List.map_cons, appendArguments, utf8ToWide_encode hconvert (hsize arg List.mem_cons_self)]
    dsimp only
    rw [ih fun a ha => hsize a (.tail _ ha), List.append_assoc]
    rfl

/-- **The line of some texts, and what is read.** -/
theorem exists_line (hconvert : convert.Documented) {program : List Char}
    {args : List (List Char)} (hquote : Char.ofNat 34 ∉ program)
    (hnul : ∀ text ∈ program :: args, Char.ofNat 0 ∉ text)
    (hsize : ∀ text ∈ program :: args, (encode text).length < 2 ^ 31) :
    ∃ line, commandLine convert (encode program) (args.map encode) = .ok line ∧
      parseCommandLine line = readProgram (utf16OfChars program) :: args.map utf16OfChars := by
  have hmem {u : Nat} (hu : u < 0x80) {cs : List Char} (h : u ∈ utf16OfChars cs) : Char.ofNat u ∈
    cs := by
    obtain ⟨c, hc, rfl⟩ := (mem_utf16OfChars hu).mp h
    rwa [Char.ofNat_toNat]
  refine ⟨quoteArgument (utf16OfChars program) ++ argumentsText (args.map utf16OfChars), ?_, ?_⟩
  · unfold commandLine
    rw [utf8ToWide_encode hconvert (hsize program List.mem_cons_self)]
    exact appendArguments_encode hconvert (fun a ha => hsize a (.tail _ ha)) _
  · refine parseCommandLine_line (fun h => hquote (hmem (by decide) h)) ?_
    intro value hvalue hzero
    rw [← List.map_cons] at hvalue
    obtain ⟨text, htext, rfl⟩ := List.mem_map.mp hvalue
    exact hnul text htext (hmem (by decide) hzero)

/-- The command line is read back as the program and the arguments. -/
def RoundTrips (convert : Converter) (program : List Char) (args : List (List Char)) : Prop :=
  ∃ line, commandLine convert (encode program) (args.map encode) = .ok line ∧
    parseCommandLine line = (program :: args).map utf16OfChars

/-- The program is quoted and ends with a backslash. -/
def QuotedBackslash (program : List Char) : Prop :=
  (program.any fun c => isSpecial c.toNat) = true ∧ program.getLast? = some (Char.ofNat 92)

theorem losesSlashes_iff (program : List Char) :
    LosesSlashes (utf16OfChars program) ↔ QuotedBackslash program := by
  unfold LosesSlashes QuotedBackslash
  rw [any_isSpecial, getLast?_utf16OfChars (by decide)]
  refine and_congr_right fun _ => ⟨?_, fun h => ⟨_, h, rfl⟩⟩
  rintro ⟨c, hlast, hc⟩
  rw [hlast, ← Char.ofNat_toNat c, hc]

/-- **The program and the arguments are read back unless the program is quoted and ends with a
backslash.** -/
theorem roundTrips_iff {convert : Converter} (hconvert : convert.Documented) {program : List Char}
    {args : List (List Char)} (hquote : Char.ofNat 34 ∉ program)
    (hnul : ∀ text ∈ program :: args, Char.ofNat 0 ∉ text)
    (hsize : ∀ text ∈ program :: args, (encode text).length < 2 ^ 31) :
    RoundTrips convert program args ↔ ¬ QuotedBackslash program := by
  obtain ⟨line, hline, hparse⟩ := exists_line hconvert hquote hnul hsize
  unfold RoundTrips
  rw [hline, ← losesSlashes_iff, ← readProgram_eq_iff]
  constructor
  · rintro ⟨line', hok, hread⟩
    rw [← Except.ok.inj hok, hparse, List.map_cons] at hread
    exact (List.cons.inj hread).1
  · intro hprogram
    exact ⟨line, rfl, by rw [hparse, hprogram, List.map_cons]⟩

/-- The conversion of the repository in the place of `MultiByteToWideChar`. -/
def wideConverter : Converter := fun utf8 length => if length = utf8.length then utf8ToUtf16 utf8
else []

theorem wideConverter_documented : wideConverter.Documented := by
  intro cs
  unfold wideConverter
  rw [if_pos rfl, utf8ToUtf16_encode]

/-- A program with a blank, and arguments with quotes, backslashes and nothing. -/
theorem roundTrips_quoted :
    RoundTrips wideConverter ['a', ' ', 'b'] [[], [Char.ofNat 92, Char.ofNat 34],
      [' ', Char.ofNat 92]] ↔ ¬ QuotedBackslash ['a', ' ', 'b'] :=
  roundTrips_iff wideConverter_documented (by decide) (by decide) (by decide)

/-- The closing quote of a program in a directory is preceded by two backslashes, and both are read.
-/
theorem not_roundTrips : ¬ RoundTrips wideConverter ['a', ' ', 'b', Char.ofNat 92] [] := by
  rintro ⟨line, hline, hread⟩
  have hquote : Char.ofNat 34 ∉ ['a', ' ', 'b', Char.ofNat 92] := by decide
  have hnul : ∀ text ∈ [['a', ' ', 'b', Char.ofNat 92]], Char.ofNat 0 ∉ text := by decide
  have hsize : ∀ text ∈ [['a', ' ', 'b', Char.ofNat 92]], (encode text).length < 2 ^ 31 := by decide
  obtain ⟨line', hline', hparse⟩ := exists_line wideConverter_documented hquote hnul hsize
  obtain rfl := Except.ok.inj (hline.symm.trans hline')
  rw [hparse] at hread
  exact absurd (List.cons.inj hread).1 (by decide)

end Libca.Process
