import Libca.Common.FromChars

/-!
# Decimal numbers of TOML (`toml/toml_parser.cpp` 1144-1232)

`TomlParser::parse_number_decimal` on the token of a number.

* `leadingZero`, `copyLoop`, `parseNumberDecimal`: the checks, the loop that copies the token
  without its underscores, and the conversion by `std::from_chars`.
* `DecInt`, `FloatToken`: the integers and floats of TOML 1.0.
* `Slips`: two signs `+-`, an underscore behind a leading zero, and the NaNs of C.
* `parses_toml_iff`: **exactly these are accepted against the grammar.**
-/

namespace Libca.Toml

open Common

/-! ## The parser -/

/-- The value of a number token. -/
inductive Number (F : Type) where
  | integer (v : Int)
  | float (d : F)

/-- The check for a leading zero, behind one sign. -/
def leadingZero (token : Bytes) : Bool :=
  match dropSign token with
  | 48 :: nc :: _ => nc ≠ 46 && nc ≠ 101 && nc ≠ 69 && nc ≠ 95
  | _ => false

/-- `is_float`, `saw_exp` and `saw_dot`. -/
structure Flags where
  isFloat : Bool := false
  sawExp : Bool := false
  sawDot : Bool := false

/-- The loop over the token, with the byte before. -/
def copyLoop : Option UInt8 → Flags → Bytes → Bytes → Except Bytes (Bytes × Bool)
  | _, flags, buf, [] => .ok (buf, flags.isFloat)
  | prev, flags, buf, c :: rest =>
    if c = 95 then
      match prev, rest with
      | some p, n :: _ =>
        if decimalDigit p && decimalDigit n then copyLoop (some c) flags buf rest
        else .error (ascii "invalid underscore placement in number")
      | _, _ => .error (ascii "invalid underscore in number")
    else if c = 46 then
      if flags.sawDot || flags.sawExp then .error (ascii "invalid number: multiple dots")
      else if prev.any decimalDigit && rest.head?.any decimalDigit then
        copyLoop (some c) { flags with sawDot := true, isFloat := true } (buf ++ [c]) rest
      else .error (ascii "invalid float: '.' must be surrounded by digits")
    else if c = 101 ∨ c = 69 then
      if flags.sawExp then .error (ascii "invalid number: multiple exponents")
      else
        match rest with
        | s :: rest =>
          if s = 43 ∨ s = 45 then
            copyLoop (some s) { flags with sawExp := true, isFloat := true } (buf ++ [c, s]) rest
          else
            copyLoop (some c) { flags with sawExp := true, isFloat := true } (buf ++ [c])
              (s :: rest)
        | [] => .ok (buf ++ [c], true)
    else copyLoop (some c) flags (buf ++ [c]) rest

/-- A plus sign, which `std::from_chars` does not accept, is passed. -/
def dropPlus (buf : Bytes) : Bytes :=
  match buf with
  | 43 :: rest => rest
  | _ => buf

/-- The conversion of the copy. -/
def convert {F : Type} (nearest : Bytes → Option F) (buf : Bytes) (isFloat : Bool) :
    Except Bytes (Number F) :=
  if buf.length = 0 then .error (ascii "invalid number")
  else if isFloat then
    match fromCharsDouble nearest (dropPlus buf) with
    | .resultOutOfRange => .error (ascii "float out of range")
    | .invalidArgument => .error (ascii "invalid float")
    | .value d rest =>
      if rest.length ≠ 0 then .error (ascii "invalid float") else .ok (.float d)
  else
    match fromCharsInteger (dropPlus buf) with
    | .resultOutOfRange => .error (ascii "integer out of range (i64)")
    | .invalidArgument => .error (ascii "invalid integer")
    | .value v rest =>
      if rest.length ≠ 0 then .error (ascii "invalid integer") else .ok (.integer v)

/-- `parse_number_decimal`: the value, or the message of the error at the start of the token. -/
def parseNumberDecimal {F : Type} (nearest : Bytes → Option F) (token : Bytes) :
    Except Bytes (Number F) :=
  if token.length = 0 then .error (ascii "invalid number")
  else if leadingZero token then .error (ascii "leading zeros not allowed in number")
  else
    match copyLoop none {} [] token with
    | .error message => .error message
    | .ok (buf, isFloat) => convert nearest buf isFloat

/-! ## The grammar -/

/-- `*( DIGIT / underscore DIGIT )`. -/
inductive MoreDigits : Bytes → Prop where
  | nil : MoreDigits []
  | digit {d : UInt8} {rest : Bytes} (hd : decimalDigit d = true) (hrest : MoreDigits rest) :
      MoreDigits (d :: rest)
  | underscore {d : UInt8} {rest : Bytes} (hd : decimalDigit d = true) (hrest : MoreDigits rest) :
      MoreDigits (95 :: d :: rest)

/-- `zero-prefixable-int`. -/
def ZeroPrefixable (token : Bytes) : Prop :=
  ∃ d rest, decimalDigit d = true ∧ MoreDigits rest ∧ token = d :: rest

/-- `unsigned-dec-int`: no leading zero. -/
def UnsignedDecInt (token : Bytes) : Prop :=
  ∃ d rest, decimalDigit d = true ∧ MoreDigits rest ∧ token = d :: rest ∧ (d = 48 → rest = [])

/-- `[ minus / plus ]`. -/
def IsSign (sign : Bytes) : Prop := sign = [] ∨ sign = [43] ∨ sign = [45]

/-- `frac`. -/
def Fraction (token : Bytes) : Prop := ∃ digits, ZeroPrefixable digits ∧ token = 46 :: digits

/-- `exp`. -/
def Exponent (token : Bytes) : Prop :=
  ∃ e sign digits, (e = 101 ∨ e = 69) ∧ IsSign sign ∧ ZeroPrefixable digits ∧
    token = e :: (sign ++ digits)

/-- `exp / frac [ exp ]`. -/
def FloatEnd (token : Bytes) : Prop :=
  ∃ fraction exponent, (fraction = [] ∨ Fraction fraction) ∧ (exponent = [] ∨ Exponent exponent) ∧
    (fraction ≠ [] ∨ exponent ≠ []) ∧ token = fraction ++ exponent

/-- The token without its underscores. -/
def withoutUnderscores (token : Bytes) : Bytes := token.filter fun b => b ≠ 95

/-- The numeral that is converted: the copy without a plus sign. -/
def numeral (token : Bytes) : Bytes := dropPlus (withoutUnderscores token)

/-- The value of digits behind a sign. -/
def signedValue (sign digits : Bytes) : Int :=
  if sign.getLast? = some 45 then -(ofChars 10 (withoutUnderscores digits) : Int)
  else ofChars 10 (withoutUnderscores digits)

/-- The range of `i64`. -/
def FitsI64 (v : Int) : Prop := -2 ^ 63 ≤ v ∧ v < 2 ^ 63

/-- `dec-int`, and its value. -/
def DecInt (token : Bytes) (v : Int) : Prop :=
  ∃ sign digits, IsSign sign ∧ UnsignedDecInt digits ∧ token = sign ++ digits ∧
    v = signedValue sign digits

/-- `float`. -/
def FloatToken (token : Bytes) : Prop :=
  ∃ sign rest, IsSign sign ∧ token = sign ++ rest ∧
    (rest = ascii "inf" ∨ rest = ascii "nan" ∨
      ∃ digits fe, UnsignedDecInt digits ∧ FloatEnd fe ∧ rest = digits ++ fe)

/-- What the parser makes of a token is what the grammar says: the integers are those of the grammar
that fit into `i64`, with their values, and the floats are of the grammar. -/
def ParsesToml {F : Type} (nearest : Bytes → Option F) (token : Bytes) : Prop :=
  (∀ v, parseNumberDecimal nearest token = .ok (.integer v) ↔ DecInt token v ∧ FitsI64 v) ∧
    ∀ d, parseNumberDecimal nearest token = .ok (.float d) → FloatToken token

/-! ## The copy of a token -/

/-- A point, or the letter of an exponent. -/
def isMark (c : UInt8) : Bool := c == 46 || c == 101 || c == 69

/-- Every underscore and every point stands between digits. -/
def Spaced : Option UInt8 → Bytes → Prop
  | _, [] => True
  | prev, c :: rest =>
    (c = 95 ∨ c = 46 → prev.any decimalDigit = true ∧ rest.head?.any decimalDigit = true) ∧
      Spaced (some c) rest

/-- One point at most, and one exponent behind it at most. -/
def Marked : Bool → Bool → Bytes → Prop
  | _, _, [] => True
  | sawDot, sawExp, c :: rest =>
    if c = 46 then sawDot = false ∧ sawExp = false ∧ Marked true sawExp rest
    else if c = 101 ∨ c = 69 then sawExp = false ∧ Marked sawDot true rest
    else Marked sawDot sawExp rest

variable {c : UInt8}

theorem withoutUnderscores_cons (hc : c ≠ 95) (rest : Bytes) :
    withoutUnderscores (c :: rest) = c :: withoutUnderscores rest :=
  List.filter_cons_of_pos (decide_eq_true hc)

theorem withoutUnderscores_underscore (rest : Bytes) :
    withoutUnderscores (95 :: rest) = withoutUnderscores rest :=
  List.filter_cons_of_neg (by decide)

@[simp] theorem withoutUnderscores_append (as bs : Bytes) :
    withoutUnderscores (as ++ bs) = withoutUnderscores as ++ withoutUnderscores bs :=
  List.filter_append ..

variable {prev : Option UInt8}

/-- What is no underscore, no point and no exponent is copied without a condition. -/
theorem spaced_cons {rest : Bytes} (h95 : c ≠ 95) (h46 : c ≠ 46) :
    Spaced prev (c :: rest) ↔ Spaced (some c) rest := by
  rw [Spaced]
  exact ⟨fun h => h.2, fun h => ⟨fun hc => absurd hc (not_or.mpr ⟨h95, h46⟩), h⟩⟩

theorem marked_cons {sawDot sawExp : Bool} {rest : Bytes} (h46 : c ≠ 46)
    (he : ¬ (c = 101 ∨ c = 69)) : Marked sawDot sawExp (c :: rest) ↔ Marked sawDot sawExp rest := by
  rw [Marked, if_neg h46, if_neg he]

theorem isMark_of_ne (h46 : c ≠ 46) (he : ¬ (c = 101 ∨ c = 69)) : isMark c = false := by
  unfold isMark
  rw [beq_eq_false_iff_ne.mpr h46, beq_eq_false_iff_ne.mpr fun h => he (.inl h),
    beq_eq_false_iff_ne.mpr fun h => he (.inr h)]
  rfl

/-- **What the loop copies**: the token without its underscores, when they and the marks stand where
they may. -/
theorem copyLoop_eq_ok {flags : Flags} {buf token : Bytes} {r : Bytes × Bool} :
    copyLoop prev flags buf token = .ok r ↔
      Spaced prev token ∧ Marked flags.sawDot flags.sawExp token ∧
        r = (buf ++ withoutUnderscores token, flags.isFloat || token.any isMark) := by
  fun_induction copyLoop prev flags buf token with
  | case1 prev flags buf =>
    rw [Except.ok.injEq, List.any_nil, Bool.or_false]
    simp only [Spaced, Marked, withoutUnderscores, List.filter_nil, List.append_nil, true_and]
    exact eq_comm
  | case2 flags buf p n rest hdigits ih =>
    rw [Bool.and_eq_true] at hdigits
    rw [ih, withoutUnderscores_underscore, marked_cons (c := 95) (by decide) (by decide),
      List.any_cons (a := 95), show isMark 95 = false from rfl, Bool.false_or]
    exact and_congr_left fun _ => ⟨fun h => ⟨fun _ => hdigits, h⟩, fun h => h.2⟩
  | case3 flags buf p n rest hdigits =>
    refine ⟨nofun, fun h => absurd ?_ hdigits⟩
    rw [Bool.and_eq_true]
    exact h.1.1 (.inl rfl)
  | case4 prev flags buf rest hends =>
    refine ⟨nofun, fun h => ?_⟩
    obtain ⟨hprev, hnext⟩ := h.1.1 (.inl rfl)
    obtain ⟨p, hp, -⟩ := (Option.any_eq_true _ _).mp hprev
    obtain ⟨n, hn, -⟩ := (Option.any_eq_true _ _).mp hnext
    obtain ⟨tail, htail⟩ := List.head?_eq_some_iff.mp hn
    exact absurd htail fun htail => hends p n tail hp htail
  | case5 prev flags buf rest hsaw =>
    refine ⟨nofun, fun h => ?_⟩
    have hmarked := h.2.1
    rw [Marked, if_pos rfl] at hmarked
    rw [hmarked.1, hmarked.2.1] at hsaw
    cases hsaw
  | case6 prev flags buf rest hsaw hdigits h95 ih =>
    rw [Bool.and_eq_true] at hdigits
    rw [Bool.or_eq_true, not_or, Bool.not_eq_true, Bool.not_eq_true] at hsaw
    rw [ih, Spaced, Marked, if_pos rfl, withoutUnderscores_cons h95, List.any_cons,
      List.append_assoc, show isMark 46 = true from rfl]
    simp only [Bool.true_or, Bool.or_true]
    exact ⟨fun h => ⟨⟨fun _ => hdigits, h.1⟩, ⟨hsaw.1, hsaw.2, h.2.1⟩, h.2.2⟩,
      fun h => ⟨h.1.2, h.2.1.2.2, h.2.2⟩⟩
  | case7 prev flags buf rest hsaw hdigits =>
    refine ⟨nofun, fun h => absurd ?_ hdigits⟩
    rw [Bool.and_eq_true]
    exact h.1.1 (.inr rfl)
  | case8 prev flags buf c rest h95 h46 he hsaw =>
    refine ⟨nofun, fun h => ?_⟩
    have hmarked := h.2.1
    rw [Marked, if_neg h46, if_pos he, hsaw] at hmarked
    cases hmarked.1
  | case9 prev flags buf c h95 h46 he hsaw sign rest hsign ih =>
    have hmark : isMark c = true := by rcases he with rfl | rfl <;> rfl
    have hs95 : sign ≠ 95 := by rcases hsign with rfl | rfl <;> decide
    have hs46 : sign ≠ 46 := by rcases hsign with rfl | rfl <;> decide
    have hse : ¬ (sign = 101 ∨ sign = 69) := by rcases hsign with rfl | rfl <;> decide
    rw [ih, spaced_cons h95 h46, spaced_cons hs95 hs46, Marked, if_neg h46, if_pos he,
      marked_cons hs46 hse, withoutUnderscores_cons h95, withoutUnderscores_cons hs95,
        List.any_cons,
      hmark, List.append_assoc]
    simp only [Bool.true_or, Bool.or_true]
    exact ⟨fun h => ⟨h.1, ⟨Bool.eq_false_iff.mpr hsaw, h.2.1⟩, h.2.2⟩, fun h =>
      ⟨h.1, h.2.1.2, h.2.2⟩⟩
  | case10 prev flags buf c h95 h46 he hsaw next rest hsign ih =>
    have hmark : isMark c = true := by rcases he with rfl | rfl <;> rfl
    rw [ih, spaced_cons h95 h46, Marked.eq_def flags.sawDot flags.sawExp (c :: next :: rest)]
    dsimp only
    rw [if_neg h46, if_pos he, withoutUnderscores_cons h95, List.any_cons (a := c), hmark,
      List.append_assoc]
    simp only [Bool.true_or, Bool.or_true]
    exact ⟨fun h => ⟨h.1, ⟨Bool.eq_false_iff.mpr hsaw, h.2.1⟩, h.2.2⟩, fun h =>
      ⟨h.1, h.2.1.2, h.2.2⟩⟩
  | case11 prev flags buf c h95 h46 he hsaw =>
    have hmark : isMark c = true := by rcases he with rfl | rfl <;> rfl
    rw [Except.ok.injEq, spaced_cons h95 h46, Marked, if_neg h46, if_pos he,
      withoutUnderscores_cons h95, List.any_cons, hmark, Bool.true_or, Bool.or_true]
    exact ⟨fun h => ⟨trivial, ⟨Bool.eq_false_iff.mpr hsaw, trivial⟩, h.symm⟩, fun h => h.2.2.symm⟩
  | case12 prev flags buf c rest h95 h46 he ih =>
    rw [ih, spaced_cons h95 h46, marked_cons h46 he, withoutUnderscores_cons h95, List.any_cons,
      isMark_of_ne h46 he, Bool.false_or, List.append_assoc]
    rfl

/-- A token that passes the checks before the conversion. -/
structure Copied (token : Bytes) : Prop where
  noLeadingZero : leadingZero token = false
  spaced : Spaced none token
  marked : Marked false false token

section

variable {F : Type} {nearest : Bytes → Option F} {token buf : Bytes} {isFloat : Bool}

theorem convert_eq_integer {v : Int} : convert nearest buf isFloat = .ok (.integer v) ↔
    isFloat = false ∧ fromCharsInteger (dropPlus buf) = .value v [] := by
  unfold convert
  constructor
  · intro h
    split_ifs at h with hlen hfloat
    · split at h <;> try cases h
      split_ifs at h
      cases h
    · split at h <;> try cases h
      next v' rest hconv =>
      split_ifs at h with hrest
      cases h
      rw [hconv, List.length_eq_zero_iff.mp (not_not.mp hrest)]
      exact ⟨Bool.eq_false_iff.mpr hfloat, rfl⟩
  · rintro ⟨rfl, hconv⟩
    have hlen : buf.length ≠ 0 := fun h0 => by
      rw [List.length_eq_zero_iff.mp h0] at hconv
      cases hconv
    rw [if_neg hlen, if_neg Bool.false_ne_true, hconv]
    rfl

theorem convert_eq_float {d : F} : convert nearest buf isFloat = .ok (.float d) ↔
    isFloat = true ∧ doubleRest (dropPlus buf) = some [] ∧ nearest (dropPlus buf) = some d := by
  rw [← fromCharsDouble_eq_value]
  unfold convert
  constructor
  · intro h
    split_ifs at h with hlen hfloat
    · split at h <;> try cases h
      next d' rest hconv =>
      split_ifs at h with hrest
      cases h
      rw [hconv, List.length_eq_zero_iff.mp (not_not.mp hrest)]
      exact ⟨hfloat, rfl⟩
    · split at h <;> try cases h
      split_ifs at h
      cases h
  · rintro ⟨rfl, hconv⟩
    have hlen : buf.length ≠ 0 := fun h0 => by
      rw [List.length_eq_zero_iff.mp h0] at hconv
      cases hconv
    rw [if_neg hlen, if_pos rfl, hconv]
    rfl

/-- The token passes the checks, and its copy is converted. -/
theorem parse_eq_ok {n : Number F} (hne : token ≠ []) : parseNumberDecimal nearest token = .ok n ↔
    Copied token ∧
      convert nearest (withoutUnderscores token) (token.any isMark) = .ok n := by
  have hloop : ∀ r, copyLoop none {} [] token = .ok r ↔ _ := fun r => copyLoop_eq_ok
  have hlen : token.length ≠ 0 := fun h0 => hne (List.length_eq_zero_iff.mp h0)
  unfold parseNumberDecimal
  rw [if_neg hlen]
  constructor
  · intro h
    split_ifs at h with hzero
    cases hcopy : copyLoop none {} [] token with
    | error message =>
      rw [hcopy] at h
      cases h
    | ok r =>
      rw [hcopy] at h
      obtain ⟨hspaced, hmarked, rfl⟩ := (hloop r).mp hcopy
      exact ⟨⟨Bool.eq_false_iff.mpr hzero, hspaced, hmarked⟩, h⟩
  · rintro ⟨⟨hzero, hspaced, hmarked⟩, hconvert⟩
    have hcopy := (hloop _).mpr ⟨hspaced, hmarked, rfl⟩
    rw [List.nil_append, Bool.false_or] at hcopy
    rw [hzero, if_neg Bool.false_ne_true, hcopy]
    exact hconvert

theorem parse_nil {n : Number F} : parseNumberDecimal nearest [] ≠ .ok n := by
  unfold parseNumberDecimal
  rw [if_pos List.length_nil]
  exact nofun

theorem parse_eq_integer {v : Int} : parseNumberDecimal nearest token = .ok (.integer v) ↔
    Copied token ∧ token.any isMark = false ∧
      fromCharsInteger (numeral token) = .value v [] := by
  by_cases hne : token = []
  · rw [hne]
    refine ⟨fun h => absurd h parse_nil, fun h => ?_⟩
    cases h.2.2
  · rw [parse_eq_ok hne, convert_eq_integer, numeral]

theorem parse_eq_float {d : F} : parseNumberDecimal nearest token = .ok (.float d) ↔
    Copied token ∧ token.any isMark = true ∧
      doubleRest (numeral token) = some [] ∧
      nearest (numeral token) = some d := by
  by_cases hne : token = []
  · rw [hne]
    refine ⟨fun h => absurd h parse_nil, fun h => ?_⟩
    cases h.2.1
  · rw [parse_eq_ok hne, convert_eq_float, numeral]

end

/-! ## From the copy to the token -/

/-- What is left of a token at the end of its digits, and of its copy. -/
def Ends (rest copied : Bytes) : Prop :=
  rest = [] ∧ copied = [] ∨
    ∃ c behind, rest = c :: behind ∧ copied = c :: withoutUnderscores behind ∧
      Spaced (some c) behind ∧ (c = 46 → behind.head?.any decimalDigit = true)

theorem digit_ne {b : UInt8} (hb : decimalDigit b = true) (hc : decimalDigit c = false) : b ≠
    c := by
  rintro rfl
  rw [hc] at hb
  cases hb

/-- A byte behind one that is no digit is no underscore. -/
theorem split_cons {token copied : Bytes}
    (hprev : prev.any decimalDigit = false) (h : Spaced prev token)
    (hcopied : withoutUnderscores token = c :: copied) :
    ∃ rest, token = c :: rest ∧ withoutUnderscores rest = copied ∧ Spaced (some c) rest ∧
      c ≠ 46 := by
  cases token with
  | nil => cases hcopied
  | cons b rest =>
    have hplain : ¬ (b = 95 ∨ b = 46) := fun hb => by
      have hdigit := (h.1 hb).1
      rw [hprev] at hdigit
      cases hdigit
    rw [not_or] at hplain
    rw [withoutUnderscores_cons hplain.1] at hcopied
    obtain ⟨rfl, rfl⟩ := List.cons.inj hcopied
    exact ⟨rest, rfl, rfl, h.2, hplain.2⟩

/-- The digits behind a digit. -/
theorem split_digits {p : UInt8} {token digits copied : Bytes}
    (h : Spaced (some p) token) (hdigits : ∀ b ∈ digits, decimalDigit b = true)
    (hend : ∀ b ∈ copied.head?, decimalDigit b = false)
    (hcopied : withoutUnderscores token = digits ++ copied) :
    ∃ more rest, token = more ++ rest ∧ MoreDigits more ∧ withoutUnderscores more = digits ∧
      Ends rest copied := by
  -- what is read first is a digit, so that it is the first of the digits
  have hfirst : ∀ {d : UInt8} {as : Bytes}, decimalDigit d = true → d :: as = digits ++ copied →
      ∃ ds, digits = d :: ds ∧ as = ds ++ copied := by
    intro d as hd heq
    cases digits with
    | nil =>
      rw [List.nil_append] at heq
      have hd' := hend d (by rw [← heq]; rfl)
      rw [hd] at hd'
      cases hd'
    | cons b ds =>
      obtain ⟨rfl, rfl⟩ := List.cons.inj heq
      exact ⟨ds, rfl, rfl⟩
  match token, h, hcopied with
  | [], _, hcopied =>
    obtain ⟨rfl, rfl⟩ := List.append_eq_nil_iff.mp hcopied.symm
    exact ⟨[], [], rfl, .nil, rfl, .inl ⟨rfl, rfl⟩⟩
  | c :: rest, h, hcopied =>
    by_cases h95 : c = 95
    · subst h95
      have hnext := (h.1 (.inl rfl)).2
      cases rest with
      | nil => cases hnext
      | cons d rest =>
        have hd : decimalDigit d = true := hnext
        rw [withoutUnderscores_underscore,
          withoutUnderscores_cons (digit_ne hd (by decide))] at hcopied
        obtain ⟨ds, rfl, hds⟩ := hfirst hd hcopied
        obtain ⟨more, left, rfl, hmore, hcopy, hleft⟩ := split_digits h.2.2
          (fun b hb => hdigits b (List.mem_cons_of_mem d hb)) hend hds
        refine ⟨95 :: d :: more, left, rfl, .underscore hd hmore, ?_, hleft⟩
        rw [withoutUnderscores_underscore, withoutUnderscores_cons (digit_ne hd (by decide)), hcopy]
    · by_cases hc : decimalDigit c = true
      · rw [withoutUnderscores_cons h95] at hcopied
        obtain ⟨ds, rfl, hds⟩ := hfirst hc hcopied
        obtain ⟨more, left, rfl, hmore, hcopy, hleft⟩ := split_digits h.2
          (fun b hb => hdigits b (List.mem_cons_of_mem c hb)) hend hds
        refine ⟨c :: more, left, rfl, .digit hc hmore, ?_, hleft⟩
        rw [withoutUnderscores_cons h95, hcopy]
      · rw [withoutUnderscores_cons h95] at hcopied
        have hnil : digits = [] := by
          cases digits with
          | nil => rfl
          | cons b ds =>
            have hb := hdigits b (.head _)
            rw [← (List.cons.inj hcopied).1] at hb
            exact absurd hb hc
        subst hnil
        rw [List.nil_append] at hcopied
        exact ⟨[], c :: rest, rfl, .nil, rfl, .inr ⟨c, rest, rfl, hcopied.symm, h.2,
          fun h46 => (h.1 (.inr h46)).2⟩⟩
termination_by token.length

/-- The digits behind what is no digit. -/
theorem split_zeroPrefixable {token digits copied : Bytes}
    (hprev : prev.any decimalDigit = false) (h : Spaced prev token) (hne : digits ≠ [])
    (hdigits : ∀ b ∈ digits, decimalDigit b = true)
    (hend : ∀ b ∈ copied.head?, decimalDigit b = false)
    (hcopied : withoutUnderscores token = digits ++ copied) :
    ∃ first rest, token = first ++ rest ∧ ZeroPrefixable first ∧
      withoutUnderscores first = digits ∧ Ends rest copied := by
  obtain ⟨d, ds, rfl⟩ := List.exists_cons_of_ne_nil hne
  have hd := hdigits d (.head _)
  obtain ⟨rest, rfl, hrest, hspaced, -⟩ := split_cons hprev h hcopied
  obtain ⟨more, left, rfl, hmore, hcopy, hleft⟩ := split_digits hspaced
    (fun b hb => hdigits b (List.mem_cons_of_mem d hb)) hend hrest
  refine ⟨d :: more, left, rfl, ⟨d, more, hd, hmore, rfl⟩, ?_, hleft⟩
  rw [withoutUnderscores_cons (digit_ne hd (by decide)), hcopy]

/-! ## Signs -/

/-- The signs that the parser accepts: it drops a plus sign, and `std::from_chars` takes a minus
sign. -/
def CodeSign (sign : Bytes) : Prop := IsSign sign ∨ sign = [43, 45]

/-- The minus sign that is left. -/
def minusOf (sign : Bytes) : Bytes := if sign.getLast? = some 45 then [45] else []

variable {text : Bytes}

theorem dropPlus_of_head (h : text.head? ≠ some 43) : dropPlus text = text := by
  unfold dropPlus
  split
  · exact absurd rfl h
  · rfl

variable {sign : Bytes}

theorem dropPlus_sign {body : Bytes} (hsign : CodeSign sign) (hbody : body.head? ≠ some 43) :
    dropPlus (sign ++ body) = minusOf sign ++ body := by
  rcases hsign with (rfl | rfl | rfl) | rfl
  · exact dropPlus_of_head hbody
  · rfl
  · rfl
  · rfl

theorem exists_codeSign {minus body : Bytes} (hminus : minus = [] ∨ minus = [45])
    (h : dropPlus text = minus ++ body) :
    ∃ sign, CodeSign sign ∧ minusOf sign = minus ∧ text = sign ++ body := by
  unfold dropPlus at h
  split at h
  · next rest =>
    rcases hminus with rfl | rfl
    · exact ⟨[43], .inl (.inr (.inl rfl)), rfl, by rw [h]; rfl⟩
    · exact ⟨[43, 45], .inr rfl, rfl, by rw [h]; rfl⟩
  · rcases hminus with rfl | rfl
    · exact ⟨[], .inl (.inl rfl), rfl, h⟩
    · exact ⟨[45], .inl (.inr (.inr rfl)), rfl, h⟩

theorem minusOf_eq (sign : Bytes) : minusOf sign = [] ∨ minusOf sign = [45] := by
  unfold minusOf
  split_ifs
  · exact .inr rfl
  · exact .inl rfl

theorem signedValue_eq (sign digits : Bytes) : signedValue sign digits =
    if minusOf sign = [] then (ofChars 10 (withoutUnderscores digits) : Int)
    else -ofChars 10 (withoutUnderscores digits) := by
  unfold signedValue minusOf
  by_cases h : sign.getLast? = some 45
  · rw [if_pos h, if_pos h, if_neg (List.cons_ne_nil 45 [])]
  · rw [if_neg h, if_neg h, if_pos rfl]

variable {word : Bytes}

/-- Bytes that are no digits, behind what is none. -/
theorem split_word (hword : ∀ b ∈ word, decimalDigit b = false)
    {token copied : Bytes} (hprev : prev.any decimalDigit = false) (h : Spaced prev token)
    (hcopied : withoutUnderscores token = word ++ copied) :
    ∃ before rest, before.any decimalDigit = false ∧ token = word ++ rest ∧
      withoutUnderscores rest = copied ∧ Spaced before rest := by
  induction word generalizing prev token with
  | nil => exact ⟨prev, token, hprev, rfl, hcopied, h⟩
  | cons b word ih =>
    obtain ⟨rest, rfl, hrest, hspaced, -⟩ := split_cons hprev h hcopied
    have hb : (some b).any decimalDigit = false := hword b (.head _)
    obtain ⟨before, left, hbefore, rfl, hleft, hspaced'⟩ :=
      ih (fun c hc => hword c (List.mem_cons_of_mem b hc)) hb hspaced hrest
    exact ⟨before, left, hbefore, rfl, hleft, hspaced'⟩

theorem digit_sign (hsign : CodeSign sign) : ∀ b ∈ sign, decimalDigit b = false := by
  rcases hsign with (rfl | rfl | rfl) | rfl <;> decide

/-! ## From the token to the copy -/

theorem withoutUnderscores_moreDigits {digits : Bytes} (h : MoreDigits digits) :
    ∀ b ∈ withoutUnderscores digits, decimalDigit b = true := by
  induction h with
  | nil => exact List.forall_mem_nil _
  | digit hd hrest ih =>
    rw [withoutUnderscores_cons (digit_ne hd (by decide))]
    exact List.forall_mem_cons.mpr ⟨hd, ih⟩
  | underscore hd hrest ih =>
    rw [withoutUnderscores_underscore, withoutUnderscores_cons (digit_ne hd (by decide))]
    exact List.forall_mem_cons.mpr ⟨hd, ih⟩

theorem withoutUnderscores_zeroPrefixable {digits : Bytes} (h : ZeroPrefixable digits) :
    withoutUnderscores digits ≠ [] ∧ ∀ b ∈ withoutUnderscores digits, decimalDigit b = true := by
  obtain ⟨d, rest, hd, hrest, rfl⟩ := h
  rw [withoutUnderscores_cons (digit_ne hd (by decide))]
  exact ⟨List.cons_ne_nil _ _,
    List.forall_mem_cons.mpr ⟨hd, withoutUnderscores_moreDigits hrest⟩⟩

/-- Digits are spaced when what follows them is, behind a digit. -/
theorem spaced_zeroPrefixable {digits rest : Bytes} (h : ZeroPrefixable digits)
    (hrest : ∀ q, decimalDigit q = true → Spaced (some q) rest) (prev : Option UInt8) :
    Spaced prev (digits ++ rest) := by
  have hmore : ∀ more, MoreDigits more → ∀ q, decimalDigit q = true →
    Spaced (some q) (more ++ rest) := by
    intro more hmore
    induction hmore with
    | nil => exact hrest
    | digit hd _ ih =>
      intro q _
      exact (spaced_cons (digit_ne hd (by decide)) (digit_ne hd (by decide))).mpr (ih _ hd)
    | underscore hd _ ih =>
      intro q hq
      exact ⟨fun _ => ⟨hq, hd⟩,
        (spaced_cons (digit_ne hd (by decide)) (digit_ne hd (by decide))).mpr (ih _ hd)⟩
  obtain ⟨d, more, hd, hm, rfl⟩ := h
  exact (spaced_cons (digit_ne hd (by decide)) (digit_ne hd (by decide))).mpr (hmore more hm d hd)

theorem spaced_sign {rest : Bytes} (hsign : CodeSign sign) (hrest : ∀ prev, Spaced prev rest)
    (prev : Option UInt8) : Spaced prev (sign ++ rest) := by
  rcases hsign with (rfl | rfl | rfl) | rfl
  · exact hrest prev
  · exact (spaced_cons (by decide) (by decide)).mpr (hrest _)
  · exact (spaced_cons (by decide) (by decide)).mpr (hrest _)
  · exact (spaced_cons (by decide) (by decide)).mpr ((spaced_cons (by decide) (by decide)).mpr
      (hrest _))

/-- What holds no mark does not count. -/
theorem marked_append (h : ∀ b ∈ text, isMark b = false) (sawDot sawExp : Bool)
    (rest : Bytes) : Marked sawDot sawExp (text ++ rest) ↔ Marked sawDot sawExp rest := by
  induction text with
  | nil => rfl
  | cons b text ih =>
    have hb := h b (.head _)
    rw [isMark, Bool.or_eq_false_iff, Bool.or_eq_false_iff, beq_eq_false_iff_ne,
      beq_eq_false_iff_ne, beq_eq_false_iff_ne] at hb
    rw [List.cons_append, marked_cons hb.1.1 (not_or.mpr ⟨hb.1.2, hb.2⟩)]
    exact ih fun c hc => h c (List.mem_cons_of_mem b hc)

theorem isMark_digit {d : UInt8} (hd : decimalDigit d = true) : isMark d = false :=
  isMark_of_ne (digit_ne hd (by decide))
    (not_or.mpr ⟨digit_ne hd (by decide), digit_ne hd (by decide)⟩)

theorem isMark_zeroPrefixable {digits : Bytes} (h : ZeroPrefixable digits) :
    ∀ b ∈ digits, isMark b = false := by
  have hmore : ∀ more, MoreDigits more → ∀ b ∈ more, isMark b = false := by
    intro more hmore
    induction hmore with
    | nil => exact List.forall_mem_nil _
    | digit hd _ ih => exact List.forall_mem_cons.mpr ⟨isMark_digit hd, ih⟩
    | underscore hd _ ih =>
      exact List.forall_mem_cons.mpr ⟨rfl, List.forall_mem_cons.mpr ⟨isMark_digit hd, ih⟩⟩
  obtain ⟨d, more, hd, hm, rfl⟩ := h
  exact List.forall_mem_cons.mpr ⟨isMark_digit hd, hmore more hm⟩

theorem isMark_sign (hsign : CodeSign sign) : ∀ b ∈ sign, isMark b = false := by
  rcases hsign with (rfl | rfl | rfl) | rfl <;> decide

theorem withoutUnderscores_sign (hsign : CodeSign sign) :
    withoutUnderscores sign = sign := by
  rcases hsign with (rfl | rfl | rfl) | rfl <;> rfl

/-! ## Leading zeros -/

/-- A leading zero is the only digit, or an underscore follows it. -/
def LeadOk (digits : Bytes) : Prop := ∀ d rest, digits = 48 :: d :: rest → d = 95

theorem leadingZero_sign {digits rest : Bytes} (hsign : IsSign sign)
    (hdigits : ZeroPrefixable digits) (hrest : ∀ b ∈ rest.head?, isMark b = true) :
    leadingZero (sign ++ (digits ++ rest)) = false ↔ LeadOk digits := by
  obtain ⟨d, more, hd, hmore, rfl⟩ := hdigits
  have hdrop : dropSign (sign ++ (d :: more ++ rest)) = d :: (more ++ rest) := by
    rcases hsign with rfl | rfl | rfl
    · rw [List.nil_append, List.cons_append]
      unfold dropSign
      split
      · next heq =>
        rw [(List.cons.inj heq).1] at hd
        cases hd
      · next heq =>
        rw [(List.cons.inj heq).1] at hd
        cases hd
      · rfl
    · rfl
    · rfl
  unfold leadingZero LeadOk
  rw [hdrop]
  by_cases h48 : d = 48
  · subst h48
    cases more with
    | nil =>
      have hok : ∀ e behind, [(48 : UInt8)] = 48 :: e :: behind → e = 95 := fun e behind h => by
        cases (List.cons.inj h).2
      cases rest with
      | nil => exact ⟨fun _ => hok, fun _ => rfl⟩
      | cons c rest =>
        refine ⟨fun _ => hok, fun _ => ?_⟩
        have hc := hrest c rfl
        unfold isMark at hc
        simp only [Bool.or_eq_true, beq_iff_eq] at hc
        rcases hc with (rfl | rfl) | rfl <;> rfl
    | cons e more =>
      have he : decimalDigit e = true ∨ e = 95 := by
        cases hmore with
        | digit hd _ => exact .inl hd
        | underscore _ _ => exact .inr rfl
      constructor
      · intro hzero f behind h
        obtain ⟨-, h⟩ := List.cons.inj h
        obtain ⟨rfl, -⟩ := List.cons.inj h
        rcases he with he | he
        · have h1 : e ≠ 46 := digit_ne he (by decide)
          have h2 : e ≠ 101 := digit_ne he (by decide)
          have h3 : e ≠ 69 := digit_ne he (by decide)
          have h4 : e ≠ 95 := digit_ne he (by decide)
          simp [h1, h2, h3, h4] at hzero
        · exact he
      · intro hok
        rw [hok e more rfl]
        rfl
  · refine ⟨fun _ e behind h => absurd (List.cons.inj h).1 h48, fun _ => ?_⟩
    split
    · next heq => exact absurd (List.cons.inj heq).1 h48
    · rfl

/-! ## Fractions and exponents -/

/-- `[ frac ] [ exp ]`. -/
def Tail (token : Bytes) : Prop :=
  ∃ fraction exponent, (fraction = [] ∨ Fraction fraction) ∧ (exponent = [] ∨ Exponent exponent) ∧
    token = fraction ++ exponent

theorem floatEnd_iff {token : Bytes} : FloatEnd token ↔ Tail token ∧ token ≠ [] := by
  constructor
  · rintro ⟨fraction, exponent, hfraction, hexponent, hne, rfl⟩
    refine ⟨⟨fraction, exponent, hfraction, hexponent, rfl⟩, fun hnil => ?_⟩
    obtain ⟨h, h'⟩ := List.append_eq_nil_iff.mp hnil
    exact hne.elim (fun hf => hf h) fun he => he h'
  · rintro ⟨⟨fraction, exponent, hfraction, hexponent, rfl⟩, hne⟩
    refine ⟨fraction, exponent, hfraction, hexponent, ?_, rfl⟩
    by_contra hnil
    rw [not_or, not_not, not_not] at hnil
    exact hne (by rw [hnil.1, hnil.2, List.append_nil])

theorem Ends.eq_nil {rest : Bytes} (h : Ends rest []) : rest = [] := by
  rcases h with ⟨rfl, -⟩ | ⟨c, behind, -, hcopied, -⟩
  · rfl
  · cases hcopied

/-- The exponent of a token whose copy ends with one. -/
theorem split_exponent {rest copied : Bytes} (h : Ends rest copied)
    (hcopied : copied = [] ∨ ExponentText copied) : rest = [] ∨ Exponent rest := by
  rcases hcopied with rfl | ⟨e, sign, digits, he, hsign, hne, hdigits, rfl⟩
  · exact .inl h.eq_nil
  · rcases h with ⟨-, hnil⟩ | ⟨c, behind, rfl, hcopied, hspaced, -⟩
    · cases hnil
    · obtain ⟨rfl, hbehind⟩ := List.cons.inj hcopied
      have he' : (some e).any decimalDigit = false := by rcases he with rfl | rfl <;> rfl
      obtain ⟨before, left, hbefore, rfl, hleft, hspaced'⟩ :=
        split_word (digit_sign (.inl hsign)) he' hspaced hbehind.symm
      obtain ⟨first, left', rfl, hfirst, -, hend⟩ := @split_zeroPrefixable _ _ _ [] hbefore hspaced'
        hne hdigits (fun b hb => by cases hb) (by rw [hleft, List.append_nil])
      rw [hend.eq_nil, List.append_nil]
      exact .inr ⟨e, sign, first, he, hsign, hfirst, rfl⟩

/-- The fraction and the exponent of a token whose copy ends with them. -/
theorem split_tail {rest fraction exponent : Bytes} (h : Ends rest (fraction ++ exponent))
    (hfraction : fraction = [] ∨
      ∃ digits, (∀ b ∈ digits, decimalDigit b = true) ∧ fraction = 46 :: digits)
    (hexponent : exponent = [] ∨ ExponentText exponent) : Tail rest := by
  rcases hfraction with rfl | ⟨digits, hdigits, rfl⟩
  · exact ⟨[], rest, .inl rfl, split_exponent h hexponent, rfl⟩
  · rcases h with ⟨-, hnil⟩ | ⟨c, behind, rfl, hcopied, hspaced, hnext⟩
    · cases hnil
    · obtain ⟨rfl, hbehind⟩ := List.cons.inj hcopied
      have hhead := head_exponent hexponent
      -- a digit follows the point, so that there are digits in the copy
      have hne : digits ≠ [] := by
        rintro rfl
        cases behind with
        | nil => cases hnext rfl
        | cons d behind =>
          have hd : decimalDigit d = true := hnext rfl
          rw [withoutUnderscores_cons (digit_ne hd (by decide))] at hbehind
          change exponent = d :: withoutUnderscores behind at hbehind
          have hd' := (hhead d (by rw [hbehind]; rfl)).1
          rw [hd] at hd'
          cases hd'
      obtain ⟨first, left, rfl, hfirst, -, hend⟩ :=
        @split_zeroPrefixable (some 46) _ _ _ rfl hspaced
        hne hdigits (fun b hb => (hhead b hb).1) hbehind.symm
      exact ⟨46 :: first, left, .inr ⟨first, hfirst, rfl⟩, split_exponent hend hexponent, rfl⟩

theorem exponent_spec {token : Bytes} (h : token = [] ∨ Exponent token) :
    (∀ q, decimalDigit q = true → Spaced (some q) token) ∧ (∀ sawDot, Marked sawDot false token) ∧
      (withoutUnderscores token = [] ∨ ExponentText (withoutUnderscores token)) ∧
      (∀ b ∈ token.head?, isMark b = true) := by
  rcases h with rfl | ⟨e, sign, digits, he, hsign, hdigits, rfl⟩
  · exact ⟨fun _ _ => trivial, fun _ => trivial, .inl rfl, fun b hb => by cases hb⟩
  · have h95 : e ≠ 95 := by rcases he with rfl | rfl <;> decide
    have h46 : e ≠ 46 := by rcases he with rfl | rfl <;> decide
    have hplain : ∀ sawDot, Marked sawDot true (sign ++ digits) := fun sawDot => by
      rw [marked_append (isMark_sign (.inl hsign)), ← List.append_nil digits,
        marked_append (isMark_zeroPrefixable hdigits)]
      trivial
    obtain ⟨hne, hall⟩ := withoutUnderscores_zeroPrefixable hdigits
    refine ⟨fun q _ => (spaced_cons h95 h46).mpr (spaced_sign (.inl hsign) (fun prev => ?_) _),
      fun sawDot => ?_, .inr ⟨e, sign, withoutUnderscores digits, he, hsign, hne, hall, ?_⟩,
      fun b hb => ?_⟩
    · rw [← List.append_nil digits]
      exact @spaced_zeroPrefixable _ [] hdigits (fun _ _ => trivial) prev
    · rw [Marked, if_neg h46, if_pos he]
      exact ⟨rfl, hplain sawDot⟩
    · rw [withoutUnderscores_cons h95, withoutUnderscores_append,
        withoutUnderscores_sign (.inl hsign)]
    · rw [← Option.some.inj hb]
      rcases he with rfl | rfl <;> rfl

/-- A fraction and an exponent are copied. -/
theorem tail_spec {token : Bytes} (h : Tail token) :
    (∀ q, decimalDigit q = true → Spaced (some q) token) ∧ Marked false false token ∧
      (∀ b ∈ token.head?, isMark b = true) ∧
      ∃ fraction exponent, withoutUnderscores token = fraction ++ exponent ∧
        (fraction = [] ∨
          ∃ digits, (∀ b ∈ digits, decimalDigit b = true) ∧ digits ≠ [] ∧ fraction = 46 :: digits) ∧
        (exponent = [] ∨ ExponentText exponent) := by
  obtain ⟨fraction, exponent, hfraction, hexponent, rfl⟩ := h
  obtain ⟨hspaced, hmarked, htext, hhead⟩ := exponent_spec hexponent
  rcases hfraction with rfl | ⟨digits, hdigits, rfl⟩
  · exact ⟨hspaced, hmarked false, hhead, [], _, rfl, .inl rfl, htext⟩
  · obtain ⟨hne, hall⟩ := withoutUnderscores_zeroPrefixable hdigits
    refine ⟨fun q hq => ⟨fun _ => ⟨hq, ?_⟩, spaced_zeroPrefixable hdigits hspaced _⟩, ?_,
      fun b hb => ?_,
      46 :: withoutUnderscores digits, withoutUnderscores exponent, ?_, .inr ⟨_, hall, hne, rfl⟩,
        htext⟩
    · obtain ⟨d, more, hd, -, rfl⟩ := hdigits
      exact hd
    · exact ⟨rfl, rfl, (marked_append (isMark_zeroPrefixable hdigits) true false exponent).mpr
        (hmarked true)⟩
    · rw [← Option.some.inj hb]
      rfl
    · rw [List.cons_append, withoutUnderscores_cons (by decide), withoutUnderscores_append,
        List.cons_append]

/-! ## Numbers -/

/-- What the parser takes for a number of digits. -/
structure CodeNumber (sign digits fe token : Bytes) : Prop where
  codeSign : CodeSign sign
  zeroPrefixable : ZeroPrefixable digits
  lead : IsSign sign → LeadOk digits
  tail : Tail fe
  eq : token = sign ++ (digits ++ fe)

theorem any_isMark (h : ∀ b ∈ text, isMark b = false) : text.any isMark = false := by
  rw [List.any_eq_false]
  intro b hb
  rw [h b hb]
  exact Bool.false_ne_true

theorem CodeNumber.copied {digits fe token : Bytes} (h : CodeNumber sign digits fe token) :
    Copied token ∧ token.any isMark = (fe ≠ [] : Bool) ∧
      numeral token = minusOf sign ++ (withoutUnderscores digits ++ withoutUnderscores fe) := by
  obtain ⟨hsign, hdigits, hlead, htail, rfl⟩ := h
  obtain ⟨hspaced, hmarked, hhead, -⟩ := tail_spec htail
  refine ⟨⟨?_, ?_, ?_⟩, ?_, ?_⟩
  · rcases hsign with hsign | rfl
    · exact (leadingZero_sign hsign hdigits hhead).mpr (hlead hsign)
    · rfl
  · exact spaced_sign hsign (spaced_zeroPrefixable hdigits hspaced) none
  · rw [marked_append (isMark_sign hsign), marked_append (isMark_zeroPrefixable hdigits)]
    exact hmarked
  · rw [List.any_append, List.any_append, any_isMark (isMark_sign hsign),
      any_isMark (isMark_zeroPrefixable hdigits), Bool.false_or, Bool.false_or]
    cases fe with
    | nil => rfl
    | cons b fe =>
      rw [List.any_cons, hhead b rfl]
      rfl
  · obtain ⟨hne, hall⟩ := withoutUnderscores_zeroPrefixable hdigits
    obtain ⟨d, rest, hcopy⟩ := List.exists_cons_of_ne_nil hne
    rw [numeral, withoutUnderscores_append, withoutUnderscores_append,
      withoutUnderscores_sign hsign]
    refine dropPlus_sign hsign fun hplus => ?_
    rw [hcopy, List.cons_append, List.head?_cons, Option.some.injEq] at hplus
    have hd := hall d (by rw [hcopy]; exact .head _)
    rw [hplus] at hd
    cases hd

/-- A token whose copy is a number of digits. -/
theorem exists_codeNumber {token minus whole fraction exponent : Bytes} (h : Copied token)
    (hminus : minus = [] ∨ minus = [45]) (hwhole : ∀ b ∈ whole, decimalDigit b = true)
    (hfraction : fraction = [] ∧ whole ≠ [] ∨
      ∃ digits, (∀ b ∈ digits, decimalDigit b = true) ∧ fraction = 46 :: digits)
    (hexponent : exponent = [] ∨ ExponentText exponent)
    (hcopy : numeral token = minus ++ (whole ++ (fraction ++ exponent))) :
    ∃ sign digits fe, CodeNumber sign digits fe token ∧ minusOf sign = minus ∧
      withoutUnderscores digits = whole ∧ Ends fe (fraction ++ exponent) := by
  obtain ⟨sign, hsign, hleft, htext⟩ := exists_codeSign hminus hcopy
  obtain ⟨before, rest, hbefore, rfl, hrest, hspaced⟩ :=
    split_word (digit_sign hsign) rfl h.spaced htext
  have hfraction' : fraction = [] ∨
      ∃ digits, (∀ b ∈ digits, decimalDigit b = true) ∧ fraction = 46 :: digits :=
    hfraction.imp_left fun hf => hf.1
  have hhead : ∀ b ∈ (fraction ++ exponent).head?, decimalDigit b = false := by
    rcases hfraction' with rfl | ⟨digits, -, rfl⟩
    · exact fun b hb => (head_exponent hexponent b hb).1
    · intro b hb
      rw [← Option.some.inj hb]
      rfl
  -- a point has a digit in front of it
  have hne : whole ≠ [] := by
    rintro rfl
    rcases hfraction with ⟨-, hne⟩ | ⟨digits, -, rfl⟩
    · exact hne rfl
    · obtain ⟨behind, -, -, -, hpoint⟩ := split_cons hbefore hspaced hrest
      exact hpoint rfl
  obtain ⟨digits, fe, rfl, hdigits, hwholeEq, hend⟩ :=
    split_zeroPrefixable hbefore hspaced hne hwhole hhead hrest
  have htail := split_tail hend hfraction' hexponent
  obtain ⟨-, -, hmark, -⟩ := tail_spec htail
  refine ⟨sign, digits, fe, ⟨hsign, hdigits, fun hs => ?_, htail, rfl⟩, hleft, hwholeEq, hend⟩
  exact (leadingZero_sign hs hdigits hmark).mp h.noLeadingZero

theorem parse_integer_iff {F : Type} {nearest : Bytes → Option F} {token : Bytes} {v : Int} :
    parseNumberDecimal nearest token = .ok (.integer v) ↔
      ∃ sign digits, CodeNumber sign digits [] token ∧ v = signedValue sign digits ∧ FitsI64 v := by
  rw [parse_eq_integer]
  constructor
  · rintro ⟨hcopied, -, hconv⟩
    obtain ⟨minus, whole, hminus, hne, hwhole, htext, hv, hlow, hhigh⟩ :=
      fromCharsInteger_eq_value.mp hconv
    obtain ⟨sign, digits, fe, hnumber, hleft, hdigits, hend⟩ := @exists_codeNumber _ _ _ [] []
      hcopied hminus hwhole (.inl ⟨rfl, hne⟩) (.inl rfl) (by simpa using htext)
    obtain rfl := hend.eq_nil
    refine ⟨sign, digits, hnumber, ?_, hlow, hhigh⟩
    rw [hv, signedValue_eq, hleft, hdigits]
  · rintro ⟨sign, digits, hnumber, rfl, hlow, hhigh⟩
    obtain ⟨hcopied, hmarks, htext⟩ := hnumber.copied
    obtain ⟨hne, hall⟩ := withoutUnderscores_zeroPrefixable hnumber.zeroPrefixable
    refine ⟨hcopied, hmarks.trans rfl, fromCharsInteger_eq_value.mpr ⟨minusOf sign, _,
      minusOf_eq sign, hne, hall, htext.trans ?_, signedValue_eq sign digits, hlow, hhigh⟩⟩
    rw [show withoutUnderscores [] = [] from rfl, List.append_nil]

/-! ## NaNs -/

/-- A NaN of C with characters between parentheses, with underscores between digits only and with
the letter of one exponent among them, so that the parser takes it for a float. -/
def NanToken (token : Bytes) : Prop :=
  ∃ sign word chars, CodeSign sign ∧ word.map lowerCase = ascii "nan" ∧
    (∀ b ∈ chars, nanChar b = true) ∧ Spaced none chars ∧ Marked false false chars ∧
    chars.any isMark = true ∧ token = sign ++ (word ++ 40 :: (chars ++ [41]))

/-- A byte before that is no digit does not matter. -/
theorem spaced_none {token : Bytes} (hprev : prev.any decimalDigit = false) :
    Spaced prev token ↔ Spaced none token := by
  cases token with
  | nil => rfl
  | cons c rest => rw [Spaced, Spaced, hprev, Option.any_none]

/-- A byte that is no digit, no underscore, no point and no letter of an exponent. -/
def Plain (b : UInt8) : Prop := decimalDigit b = false ∧ b ≠ 95 ∧ isMark b = false

theorem Plain.ne_point {b : UInt8} (h : Plain b) : b ≠ 46 := by
  rintro rfl
  cases h.2.2

theorem plain_of_lowerCase (h : word.map lowerCase = ascii "nan") :
    ∀ b ∈ word, Plain b := by
  have hall : ∀ b : UInt8, lowerCase b ∈ ascii "nan" →
      decimalDigit b = false ∧ b ≠ 95 ∧ isMark b = false :=
    forall_byte (p := fun b => lowerCase b ∈ ascii "nan" →
      decimalDigit b = false ∧ b ≠ 95 ∧ isMark b = false) (by decide +kernel)
  intro b hb
  refine hall b ?_
  rw [← h]
  exact List.mem_map_of_mem hb

theorem plain_sign (hsign : CodeSign sign) : ∀ b ∈ sign, Plain b := by
  rcases hsign with (rfl | rfl | rfl) | rfl <;> unfold Plain <;> decide

theorem spaced_plain {rest : Bytes} (hword : ∀ b ∈ word, Plain b) (hrest : Spaced none rest)
    (hprev : prev.any decimalDigit = false) : Spaced prev (word ++ rest) := by
  induction word generalizing prev with
  | nil => exact (spaced_none hprev).mpr hrest
  | cons b word ih =>
    have hb := hword b (.head _)
    exact (spaced_cons hb.2.1 hb.ne_point).mpr
      (ih (fun c hc => hword c (List.mem_cons_of_mem b hc)) hb.1)

theorem withoutUnderscores_plain (hword : ∀ b ∈ word, Plain b) :
    withoutUnderscores word = word :=
  List.filter_eq_self.mpr fun b hb => decide_eq_true (hword b hb).2.1

/-- A last byte that is no digit does not matter. -/
theorem spaced_last (hc : Plain c) {chars : Bytes} :
    Spaced prev (chars ++ [c]) ↔ Spaced prev chars := by
  induction chars generalizing prev with
  | nil => exact iff_of_true ((spaced_cons hc.2.1 hc.ne_point).mpr trivial) trivial
  | cons b chars ih =>
    rw [List.cons_append, Spaced, Spaced, ih]
    cases chars with
    | nil =>
      have hnext : ([] ++ [c]).head?.any decimalDigit = ([] : Bytes).head?.any decimalDigit := hc.1
      rw [hnext]
    | cons d chars => rfl

/-- The last byte of a token is the last of its copy. -/
theorem split_last {token copied : Bytes}
    (h : Spaced prev token) (hcopied : withoutUnderscores token = copied ++ [c]) :
    ∃ chars, token = chars ++ [c] ∧ withoutUnderscores chars = copied := by
  have hne : token ≠ [] := by
    rintro rfl
    exact List.cons_ne_nil _ _ (List.append_eq_nil_iff.mp hcopied.symm).2
  have htoken := List.dropLast_append_getLast hne
  have hlast : token.getLast hne ≠ 95 := by
    intro h95
    rw [h95] at htoken
    rw [← htoken] at h
    have hno : ∀ (chars : Bytes) (prev : Option UInt8), ¬ Spaced prev (chars ++ [95]) := by
      intro chars
      induction chars with
      | nil => exact fun prev hs => Bool.false_ne_true (hs.1 (.inl rfl)).2
      | cons b chars ih => exact fun prev hs => ih _ hs.2
    exact hno _ _ h
  rw [← htoken, withoutUnderscores_append, withoutUnderscores_cons hlast] at hcopied
  obtain ⟨hchars, hc'⟩ := List.append_inj' hcopied rfl
  refine ⟨token.dropLast, ?_, hchars⟩
  rw [← (List.cons.inj hc').1]
  exact htoken.symm

theorem marked_append_right (h : ∀ b ∈ text, isMark b = false) (chars : Bytes)
    (sawDot sawExp : Bool) : Marked sawDot sawExp (chars ++ text) ↔ Marked sawDot sawExp chars := by
  induction chars generalizing sawDot sawExp with
  | nil =>
    have hnil := marked_append h sawDot sawExp []
    rw [List.append_nil] at hnil
    exact hnil
  | cons b chars ih => rw [List.cons_append, Marked, Marked, ih, ih, ih]

theorem any_isMark_copied (token : Bytes) :
    (withoutUnderscores token).any isMark = token.any isMark := by
  induction token with
  | nil => rfl
  | cons b token ih =>
    by_cases h95 : b = 95
    · rw [h95, withoutUnderscores_underscore, ih]
      rfl
    · rw [withoutUnderscores_cons h95, List.any_cons, List.any_cons, ih]

/-- Marks are marks in letters of either case. -/
theorem any_isMark_lowerCase (text : Bytes) : (text.map lowerCase).any isMark =
    text.any isMark := by
  have hall : ∀ b, isMark (lowerCase b) = isMark b :=
    forall_byte (p := fun b => isMark (lowerCase b) = isMark b) (by decide +kernel)
  rw [List.any_map]
  exact congrArg _ (funext hall)

/-- The special numerals with a mark are NaNs with characters between parentheses. -/
theorem nanToken_of_copied {token minus body : Bytes} (h : Copied token)
    (hmarks : token.any isMark = true) (hminus : minus = [] ∨ minus = [45])
    (hbody : SpecialText body) (hcopy : numeral token = minus ++ body) : NanToken token := by
  obtain ⟨sign, hsign, -, htext⟩ := exists_codeSign hminus hcopy
  have hbodyMarks : body.any isMark = true := by
    rw [← any_isMark_copied, htext, List.any_append, any_isMark (isMark_sign hsign), Bool.false_or]
      at hmarks
    exact hmarks
  rcases hbody with hword | hword | hword | ⟨word, copied, hword, hcopied, rfl⟩
  · rw [← any_isMark_lowerCase, hword] at hbodyMarks
    cases hbodyMarks
  · rw [← any_isMark_lowerCase, hword] at hbodyMarks
    cases hbodyMarks
  · rw [← any_isMark_lowerCase, hword] at hbodyMarks
    cases hbodyMarks
  · have hplain := plain_of_lowerCase hword
    obtain ⟨before, rest, hbefore, rfl, hrest, hspaced⟩ :=
      split_word (digit_sign hsign) rfl h.spaced htext
    obtain ⟨before', rest', hbefore', rfl, hrest', hspaced'⟩ :=
      split_word (fun b hb => (hplain b hb).1) hbefore hspaced hrest
    obtain ⟨behind, rfl, hbehind, hspaced'', -⟩ := split_cons hbefore' hspaced' hrest'
    obtain ⟨chars, rfl, rfl⟩ := split_last hspaced'' hbehind
    have hchars : Spaced (some 40) chars := (spaced_last ⟨rfl, by decide, rfl⟩).mp hspaced''
    refine ⟨sign, word, chars, hsign, hword, fun b hb => ?_, ?_, ?_, ?_, rfl⟩
    · by_cases h95 : b = 95
      · rw [h95]
        rfl
      · exact hcopied b (List.mem_filter.mpr ⟨hb, decide_eq_true h95⟩)
    · exact (@spaced_none (some 40) _ rfl).mp hchars
    · have hmarked := h.marked
      rw [marked_append (isMark_sign hsign), marked_append fun b hb => (hplain b hb).2.2,
        marked_cons (by decide) (by decide), marked_append_right (by decide)] at hmarked
      exact hmarked
    · rw [List.any_append, any_isMark fun b hb => (hplain b hb).2.2, Bool.false_or, List.any_cons,
        List.any_append, any_isMark_copied] at hbodyMarks
      simpa [isMark] using hbodyMarks

/-- A NaN with characters is copied, and all of it is converted. -/
theorem NanToken.copied {token : Bytes} (h : NanToken token) :
    Copied token ∧ token.any isMark = true ∧ doubleRest (numeral token) = some [] := by
  obtain ⟨sign, word, chars, hsign, hword, hchars, hspaced, hmarked, hmarks, rfl⟩ := h
  have hplain := plain_of_lowerCase hword
  have hopen : Plain 40 := ⟨rfl, by decide, rfl⟩
  have hclose : Plain 41 := ⟨rfl, by decide, rfl⟩
  obtain ⟨b, letters, rfl⟩ : ∃ b letters, word = b :: letters := by
    cases word with
    | nil => cases hword
    | cons b letters => exact ⟨b, letters, rfl⟩
  have hb := hplain b (.head _)
  have hletter : lowerCase b = 110 := (List.cons.inj hword).1
  have hb48 : b ≠ 48 := by
    rintro rfl
    cases hletter
  have hb43 : b ≠ 43 := by
    rintro rfl
    cases hletter
  have hb45 : b ≠ 45 := by
    rintro rfl
    cases hletter
  refine ⟨⟨?_, ?_, ?_⟩, ?_, ?_⟩
  · have hzero : ∀ rest, leadingZero (b :: rest) = false := fun rest => by
      unfold leadingZero dropSign
      split
      · next heq =>
        split at heq
        · next h43 => exact absurd (List.cons.inj h43).1 hb43
        · next h45 => exact absurd (List.cons.inj h45).1 hb45
        · exact absurd (List.cons.inj heq).1 hb48
      · rfl
    have hzero' : ∀ c rest, c = 43 ∨ c = 45 → leadingZero (c :: b :: rest) = false := by
      intro c rest hc
      have hdrop : dropSign (c :: b :: rest) = b :: rest := by rcases hc with rfl | rfl <;> rfl
      unfold leadingZero
      rw [hdrop]
      split
      · next heq => exact absurd (List.cons.inj heq).1 hb48
      · rfl
    rcases hsign with (rfl | rfl | rfl) | rfl
    · exact hzero _
    · exact hzero' 43 _ (.inl rfl)
    · exact hzero' 45 _ (.inr rfl)
    · rfl
  · refine spaced_plain (plain_sign hsign) (spaced_plain hplain ?_ rfl) rfl
    refine (spaced_cons (by decide) (by decide)).mpr ((spaced_last hclose).mpr ?_)
    exact (@spaced_none (some 40) _ rfl).mpr hspaced
  · rw [marked_append (isMark_sign hsign), marked_append fun c hc => (hplain c hc).2.2,
      marked_cons (by decide) (by decide), marked_append_right (by decide)]
    exact hmarked
  · simp only [List.any_append, List.any_cons, hmarks, Bool.true_or, Bool.or_true]
  · have hcopy : numeral (sign ++ (b :: letters ++ 40 :: (chars ++ [41]))) =
        minusOf sign ++ (b :: letters ++ 40 :: (withoutUnderscores chars ++ [41])) := by
      rw [numeral, withoutUnderscores_append, withoutUnderscores_append,
        withoutUnderscores_sign hsign, withoutUnderscores_plain hplain,
        withoutUnderscores_cons (by decide), withoutUnderscores_append]
      refine dropPlus_sign hsign fun hplus => hb43 ?_
      exact Option.some.inj hplus
    refine doubleRest_eq_nil.mpr ⟨minusOf sign, _, minusOf_eq sign, .inr ?_, hcopy⟩
    exact .inr (.inr (.inr ⟨b :: letters, withoutUnderscores chars, hword,
      fun c hc => hchars c (List.mem_filter.mp hc).1, rfl⟩))

theorem parse_float_iff {F : Type} {nearest : Bytes → Option F} {token : Bytes} {d : F} :
    parseNumberDecimal nearest token = .ok (.float d) ↔
      ((∃ sign digits fe, CodeNumber sign digits fe token ∧ fe ≠ []) ∨ NanToken token) ∧
        nearest (numeral token) = some d := by
  rw [parse_eq_float]
  constructor
  · rintro ⟨hcopied, hmarks, hrest, hnearest⟩
    refine ⟨?_, hnearest⟩
    obtain ⟨minus, body, hminus, hbody, htext⟩ := doubleRest_eq_nil.mp hrest
    rcases hbody with ⟨whole, fraction, exponent, hwhole, hfraction, hexponent, rfl⟩ | hbody
    · have hfraction' : fraction = [] ∧ whole ≠ [] ∨
          ∃ digits, (∀ b ∈ digits, decimalDigit b = true) ∧ fraction = 46 :: digits :=
        hfraction.imp_right fun ⟨digits, hdigits, _, h⟩ => ⟨digits, hdigits, h⟩
      obtain ⟨sign, digits, fe, hnumber, -, -, -⟩ :=
        exists_codeNumber hcopied hminus hwhole hfraction' hexponent htext
      have hmark := hnumber.copied.2.1
      rw [hmarks] at hmark
      exact .inl ⟨sign, digits, fe, hnumber, of_decide_eq_true hmark.symm⟩
    · exact .inr (nanToken_of_copied hcopied hmarks hminus hbody htext)
  · rintro ⟨⟨sign, digits, fe, hnumber, hne⟩ | hnan, hnearest⟩
    · obtain ⟨hcopied, hmarks, htext⟩ := hnumber.copied
      obtain ⟨hdigitsNe, hall⟩ := withoutUnderscores_zeroPrefixable hnumber.zeroPrefixable
      obtain ⟨-, -, -, fraction, exponent, hcopy, hfraction, hexponent⟩ := tail_spec hnumber.tail
      refine ⟨hcopied, hmarks.trans (decide_eq_true hne), ?_, hnearest⟩
      refine doubleRest_eq_nil.mpr ⟨minusOf sign, _, minusOf_eq sign, .inl
        ⟨_, fraction, exponent, hall, ?_, hexponent, congrArg _ hcopy⟩, htext⟩
      rcases hfraction with rfl | ⟨ds, hds, -, rfl⟩
      · exact .inl ⟨rfl, hdigitsNe⟩
      · exact .inr ⟨ds, hds, .inl hdigitsNe, rfl⟩
    · obtain ⟨hcopied, hmarks, hrest⟩ := hnan.copied
      exact ⟨hcopied, hmarks, hrest, hnearest⟩

/-! ## The tokens that slip through -/

/-- Two signs, or an underscore behind a leading zero. -/
def Slipped (sign digits : Bytes) : Prop := sign = [43, 45] ∨ ∃ rest, digits = 48 :: 95 :: rest

/-- The tokens that are accepted against the grammar: integers and floats with two signs or with an
underscore behind a leading zero, and NaNs of C; all of them in range. -/
def Slips {F : Type} (nearest : Bytes → Option F) (token : Bytes) : Prop :=
  (∃ sign digits, CodeSign sign ∧ ZeroPrefixable digits ∧ Slipped sign digits ∧
    token = sign ++ digits ∧ FitsI64 (signedValue sign digits)) ∨
  ((∃ sign digits fe, CodeSign sign ∧ ZeroPrefixable digits ∧ Slipped sign digits ∧ FloatEnd fe ∧
    token = sign ++ (digits ++ fe)) ∨ NanToken token) ∧ (nearest (numeral token)).isSome = true

theorem CodeNumber.of_slipped {digits fe : Bytes} (hsign : CodeSign sign)
    (hdigits : ZeroPrefixable digits) (hslipped : Slipped sign digits) (htail : Tail fe) :
    CodeNumber sign digits fe (sign ++ (digits ++ fe)) where
  codeSign := hsign
  zeroPrefixable := hdigits
  lead hs := by
    rcases hslipped with rfl | ⟨rest, rfl⟩
    · rcases hs with hs | hs | hs <;> cases hs
    · intro d behind h
      exact (List.cons.inj (List.cons.inj h).2).1.symm
  tail := htail
  eq := rfl

theorem CodeNumber.of_unsigned {digits fe : Bytes} (hsign : IsSign sign)
    (hdigits : UnsignedDecInt digits) (htail : Tail fe) :
    CodeNumber sign digits fe (sign ++ (digits ++ fe)) := by
  obtain ⟨d, rest, hd, hrest, rfl, hzero⟩ := hdigits
  refine ⟨.inl hsign, ⟨d, rest, hd, hrest, rfl⟩, fun _ e behind h => ?_, htail, rfl⟩
  obtain ⟨rfl, rfl⟩ := List.cons.inj h
  cases hzero rfl

/-- What does not slip is a number of the grammar. -/
theorem CodeNumber.of_not_slipped {digits fe token : Bytes}
    (h : CodeNumber sign digits fe token) (hnot : ¬ Slipped sign digits) :
    IsSign sign ∧ UnsignedDecInt digits := by
  have hsign : IsSign sign := h.codeSign.resolve_right fun hs => hnot (.inl hs)
  obtain ⟨d, rest, hd, hrest, rfl⟩ := h.zeroPrefixable
  refine ⟨hsign, d, rest, hd, hrest, rfl, ?_⟩
  rintro rfl
  cases rest with
  | nil => rfl
  | cons e rest =>
    have he := h.lead hsign e rest rfl
    exact absurd (.inr ⟨rest, by rw [he]⟩) hnot

/-- A sign. -/
def signByte (b : UInt8) : Bool := b == 43 || b == 45

/-- A token has one sign. -/
theorem sign_unique {rest sign' rest' : Bytes} (hsign : CodeSign sign) (hsign' : CodeSign sign')
    (hrest : ∀ b ∈ rest.head?, signByte b = false) (hrest' : ∀ b ∈ rest'.head?, signByte b = false)
    (h : sign ++ rest = sign' ++ rest') : sign = sign' ∧ rest = rest' := by
  have htake : ∀ {s r : Bytes}, CodeSign s → (∀ b ∈ r.head?, signByte b = false) →
      (s ++ r).takeWhile signByte = s := by
    intro s r hs hr
    have hall : ∀ b ∈ s, signByte b = true := by
      rcases hs with (rfl | rfl | rfl) | rfl <;> decide
    rw [List.takeWhile_append_of_pos hall]
    cases r with
    | nil => exact List.append_nil s
    | cons b r =>
      rw [List.takeWhile_cons_of_neg (by rw [hr b rfl]; decide), List.append_nil]
  have hs : sign = sign' := by
    rw [← htake hsign hrest, h, htake hsign' hrest']
  rw [hs] at h
  exact ⟨hs, List.append_cancel_left h⟩

theorem signByte_digit {d : UInt8} (hd : decimalDigit d = true) : signByte d = false := by
  have h43 : d ≠ 43 := digit_ne hd (by decide)
  have h45 : d ≠ 45 := digit_ne hd (by decide)
  rw [signByte, beq_eq_false_iff_ne.mpr h43, beq_eq_false_iff_ne.mpr h45]
  rfl

theorem head_zeroPrefixable {digits rest : Bytes} (h : ZeroPrefixable digits) :
    ∀ b ∈ (digits ++ rest).head?, signByte b = false := by
  obtain ⟨d, more, hd, -, rfl⟩ := h
  intro b hb
  rw [← Option.some.inj hb]
  exact signByte_digit hd

theorem UnsignedDecInt.zeroPrefixable {digits : Bytes} (h : UnsignedDecInt digits) :
    ZeroPrefixable digits := by
  obtain ⟨d, rest, hd, hrest, rfl, -⟩ := h
  exact ⟨d, rest, hd, hrest, rfl⟩

/-- A number that slips is none of the grammar. -/
theorem not_slipped {digits fe sign' digits' fe' : Bytes} (hsign : CodeSign sign)
    (hdigits : ZeroPrefixable digits) (hslipped : Slipped sign digits) (hsign' : IsSign sign')
    (hdigits' : UnsignedDecInt digits') (htail' : Tail fe')
    (h : sign ++ (digits ++ fe) = sign' ++ (digits' ++ fe')) : False := by
  obtain ⟨rfl, hrest⟩ := sign_unique hsign (.inl hsign') (head_zeroPrefixable hdigits)
    (head_zeroPrefixable hdigits'.zeroPrefixable) h
  rcases hslipped with rfl | ⟨rest, rfl⟩
  · rcases hsign' with hs | hs | hs <;> cases hs
  · obtain ⟨d, more, -, -, rfl, hzero⟩ := hdigits'
    obtain ⟨rfl, hmore⟩ := List.cons.inj hrest
    -- nothing follows the zero but a point or the letter of an exponent
    rw [hzero rfl] at hmore
    have hfe : 95 :: (rest ++ fe) = fe' := hmore
    exact absurd ((tail_spec htail').2.2.1 95 (by rw [← hfe]; rfl)) (by decide)

/-- A number of digits is no word. -/
theorem not_word {digits fe sign' : Bytes} (hsign : CodeSign sign)
    (hdigits : ZeroPrefixable digits) (hsign' : IsSign sign') (hc : signByte c = false)
    (hdigit : decimalDigit c = false) (h : sign ++ (digits ++ fe) = sign' ++ c :: word) :
      False := by
  obtain ⟨-, hrest⟩ := sign_unique hsign (.inl hsign') (head_zeroPrefixable hdigits)
    (fun b hb => by rw [← Option.some.inj hb]; exact hc) h
  obtain ⟨d, more, hd, -, rfl⟩ := hdigits
  rw [(List.cons.inj hrest).1, hdigit] at hd
  cases hd

/-- The NaNs of C that the parser accepts are no floats of the grammar. -/
theorem NanToken.not_float {token : Bytes} (h : NanToken token) : ¬ FloatToken token := by
  rintro ⟨sign', rest', hsign', htoken, hrest'⟩
  obtain ⟨sign, word, chars, hsign, hword, -, -, -, -, rfl⟩ := h
  obtain ⟨b, letters, rfl⟩ : ∃ b letters, word = b :: letters := by
    cases word with
    | nil => cases hword
    | cons b letters => exact ⟨b, letters, rfl⟩
  have hletter : lowerCase b = 110 := (List.cons.inj hword).1
  have hb := plain_of_lowerCase hword b (.head _)
  have hbsign : signByte b = false := by
    rw [signByte, Bool.or_eq_false_iff, beq_eq_false_iff_ne, beq_eq_false_iff_ne]
    constructor <;> rintro rfl <;> cases hletter
  have hhead' : ∀ c ∈ rest'.head?, signByte c = false := by
    rcases hrest' with rfl | rfl | ⟨digits, fe, hdigits, -, rfl⟩
    · exact fun c hc => by rw [← Option.some.inj hc]; rfl
    · exact fun c hc => by rw [← Option.some.inj hc]; rfl
    · exact head_zeroPrefixable hdigits.zeroPrefixable
  obtain ⟨-, rfl⟩ := sign_unique hsign (.inl hsign')
    (fun c hc => by rw [← Option.some.inj hc]; exact hbsign) hhead' htoken
  have hlen : (b :: letters).length = 3 := length_map_ascii hword
  rcases hrest' with hrest | hrest | ⟨digits, fe, ⟨d, more, hd, -, rfl, -⟩, -, hrest⟩
  · have hall := congrArg List.length hrest
    rw [List.length_append, hlen, List.length_cons] at hall
    exact absurd hall (by simp [ascii])
  · have hall := congrArg List.length hrest
    rw [List.length_append, hlen, List.length_cons] at hall
    exact absurd hall (by simp [ascii])
  · obtain ⟨rfl, -⟩ := List.cons.inj hrest
    rw [hb.1] at hd
    cases hd

theorem tail_nil : Tail [] := ⟨[], [], .inl rfl, .inl rfl, rfl⟩

/-- **Exactly these are accepted against the grammar**: on every other token the parser gives an
integer when the token is one of TOML that fits into `i64`, with its value, and a float only when
the token is one of TOML. -/
theorem parses_toml_iff {F : Type} (nearest : Bytes → Option F) (token : Bytes) :
    ParsesToml nearest token ↔ ¬ Slips nearest token := by
  constructor
  · rintro ⟨hint, hfloat⟩ (⟨sign, digits, hsign, hdigits, hslipped, rfl, hfits⟩ |
      ⟨⟨sign, digits, fe, hsign, hdigits, hslipped, hend, rfl⟩ | hnan, hsome⟩)
    · have hnumber := CodeNumber.of_slipped hsign hdigits hslipped tail_nil
      rw [List.append_nil] at hnumber
      have hparse := (@parse_integer_iff F nearest _ _).mpr ⟨sign, digits, hnumber, rfl, hfits⟩
      obtain ⟨⟨sign', digits', hsign', hdigits', htoken, -⟩, -⟩ := (hint _).mp hparse
      refine @not_slipped _ _ [] _ _ _ hsign hdigits hslipped hsign' hdigits' tail_nil ?_
      rw [List.append_nil, List.append_nil]
      exact htoken
    · obtain ⟨htail, hne⟩ := floatEnd_iff.mp hend
      obtain ⟨d, hd⟩ := Option.isSome_iff_exists.mp hsome
      have hnumber := CodeNumber.of_slipped hsign hdigits hslipped htail
      have hparse := parse_float_iff.mpr ⟨.inl ⟨sign, digits, fe, hnumber, hne⟩, hd⟩
      obtain ⟨sign', rest', hsign', htoken, hrest'⟩ := hfloat d hparse
      rcases hrest' with rfl | rfl | ⟨digits', fe', hdigits', hend', rfl⟩
      · exact not_word (c := 105) hsign hdigits hsign' rfl rfl htoken
      · exact not_word (c := 110) hsign hdigits hsign' rfl rfl htoken
      · exact not_slipped hsign hdigits hslipped hsign' hdigits' (floatEnd_iff.mp hend').1 htoken
    · obtain ⟨d, hd⟩ := Option.isSome_iff_exists.mp hsome
      exact hnan.not_float (hfloat d (parse_float_iff.mpr ⟨.inr hnan, hd⟩))
  · intro hnot
    refine ⟨fun v => ⟨fun hparse => ?_, ?_⟩, fun d hparse => ?_⟩
    · obtain ⟨sign, digits, hnumber, rfl, hfits⟩ := parse_integer_iff.mp hparse
      have heq : token = sign ++ digits := by
        have happend := hnumber.eq
        rw [List.append_nil] at happend
        exact happend
      have hslipped : ¬ Slipped sign digits := fun hs =>
        hnot (.inl ⟨sign, digits, hnumber.codeSign, hnumber.zeroPrefixable, hs, heq, hfits⟩)
      obtain ⟨hsign, hdigits⟩ := hnumber.of_not_slipped hslipped
      exact ⟨⟨sign, digits, hsign, hdigits, heq, rfl⟩, hfits⟩
    · rintro ⟨⟨sign, digits, hsign, hdigits, rfl, rfl⟩, hfits⟩
      have hnumber := CodeNumber.of_unsigned hsign hdigits tail_nil
      rw [List.append_nil] at hnumber
      exact parse_integer_iff.mpr ⟨sign, digits, hnumber, rfl, hfits⟩
    · obtain ⟨⟨sign, digits, fe, hnumber, hne⟩ | hnan, hnearest⟩ := parse_float_iff.mp hparse
      · have hend := floatEnd_iff.mpr ⟨hnumber.tail, hne⟩
        have hslipped : ¬ Slipped sign digits := fun hs => hnot (.inr ⟨.inl ⟨sign, digits, fe,
          hnumber.codeSign, hnumber.zeroPrefixable, hs, hend, hnumber.eq⟩, by rw [hnearest]; rfl⟩)
        obtain ⟨hsign, hdigits⟩ := hnumber.of_not_slipped hslipped
        exact ⟨sign, digits ++ fe, hsign, hnumber.eq, .inr (.inr ⟨digits, fe, hdigits, hend, rfl⟩)⟩
      · exact absurd (.inr ⟨.inr hnan, by rw [hnearest]; rfl⟩) hnot

/-- **`0_1` is accepted as an integer**, although it has a leading zero. -/
theorem not_parses_toml : ¬ ∀ token, ParsesToml (fun _ => (none : Option Unit)) token := by
  intro h
  have hparse : parseNumberDecimal (fun _ => (none : Option Unit)) (ascii "0_1") =
    .ok (.integer 1) := by
    rfl
  obtain ⟨⟨sign, digits, hsign, hdigits, htoken, -⟩, -⟩ := ((h (ascii "0_1")).1 1).mp hparse
  have hone : ZeroPrefixable [48, 95, 49] :=
    ⟨48, [95, 49], by decide, .underscore (by decide) .nil, rfl⟩
  refine @not_slipped [] _ [] _ _ _ (.inl (.inl rfl)) hone (.inr ⟨[49], rfl⟩) hsign hdigits
    tail_nil ?_
  rw [List.append_nil digits, ← htoken]
  rfl

end Libca.Toml
