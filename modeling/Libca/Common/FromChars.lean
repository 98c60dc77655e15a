import Libca.Common.Bytes
import Mathlib.Data.List.TakeWhile

/-!
# `std::from_chars`

What `std::from_chars` matches in base ten for a signed 64-bit integer, an unsigned 32-bit integer,
and for a double in the general format, where the double nearest to a numeral is a parameter. A
numeral is the longest one that the function `strtol` or `strtod` of the C library accepts, without
white space and without a plus sign.

* `fromCharsInteger`, `fromCharsInteger_eq_value`: integers.
* `fromCharsU32`, `fromCharsU32_eq_value`: unsigned integers.
* `fromCharsDouble`, `doubleRest_eq_nil`: doubles; all of a text is matched when it is a decimal
  numeral, or an infinity or a NaN in letters of either case.
-/

namespace Libca.Common

/-- What `std::from_chars` reports: no numeral, a value out of range, or a value and what follows
the numeral. -/
inductive FromChars (α : Type) where
  | invalidArgument
  | resultOutOfRange
  | value (v : α) (rest : Bytes)

/-- A decimal digit. -/
def decimalDigit (b : UInt8) : Bool := 48 ≤ b && b ≤ 57

/-- The sign of a numeral is passed. -/
def dropMinus (text : Bytes) : Bytes :=
  match text with
  | 45 :: rest => rest
  | _ => text

/-! ## Integers -/

/-- `std::from_chars(first, last, v)` for `long long`. -/
def fromCharsInteger (text : Bytes) : FromChars Int :=
  let digits := (dropMinus text).takeWhile decimalDigit
  if digits = [] then .invalidArgument
  else
    let v : Int := if text.head? = some 45 then -(ofChars 10 digits : Int) else ofChars 10 digits
    if v < -2 ^ 63 ∨ 2 ^ 63 ≤ v then .resultOutOfRange
    else .value v ((dropMinus text).dropWhile decimalDigit)

/-- `std::from_chars(first, last, v)` for `u32`; unsigned numerals have no sign. -/
def fromCharsU32 (text : Bytes) : FromChars Nat :=
  let digits := text.takeWhile decimalDigit
  if digits = [] then .invalidArgument
  else if 2 ^ 32 ≤ ofChars 10 digits then .resultOutOfRange
  else .value (ofChars 10 digits) (text.dropWhile decimalDigit)

variable {text : Bytes}

/-- **All of a text is an unsigned integer**: digits. -/
theorem fromCharsU32_eq_value {v : Nat} : fromCharsU32 text = .value v [] ↔
    text ≠ [] ∧ (∀ b ∈ text, decimalDigit b = true) ∧ ofChars 10 text = v ∧ v < 2 ^ 32 := by
  unfold fromCharsU32
  dsimp only
  constructor
  · intro h
    split_ifs at h with hnil hlarge
    obtain ⟨hv, hrest⟩ := FromChars.value.inj h
    have hall : text.takeWhile decimalDigit = text := by
      rw [← List.append_nil (text.takeWhile decimalDigit), ← hrest, List.takeWhile_append_dropWhile]
    rw [hall] at hnil hlarge hv
    exact ⟨hnil, fun b hb => List.mem_takeWhile_imp (hall.symm ▸ hb), hv, by omega⟩
  · rintro ⟨hne, hdigits, hv, hlt⟩
    have hall : text.takeWhile decimalDigit = text := List.takeWhile_eq_self_iff.mpr hdigits
    rw [hall, if_neg hne, hv, if_neg (by omega), List.dropWhile_eq_nil_iff.mpr hdigits]

theorem dropMinus_of_head (h : text.head? ≠ some 45) : dropMinus text = text := by
  unfold dropMinus
  split
  · exact absurd rfl h
  · rfl

theorem head_ne_minus (h : ∀ b ∈ text, decimalDigit b = true) : text.head? ≠ some 45 := by
  intro hhead
  have hminus := h 45 (List.mem_of_head? hhead)
  cases hminus

/-- **All of a text is an integer**: digits behind a minus sign or behind none. -/
theorem fromCharsInteger_eq_value {v : Int} :
    fromCharsInteger text = .value v [] ↔
      ∃ minus digits, (minus = [] ∨ minus = [45]) ∧ digits ≠ [] ∧
        (∀ b ∈ digits, decimalDigit b = true) ∧ text = minus ++ digits ∧
        v = (if minus = [] then (ofChars 10 digits : Int) else -ofChars 10 digits) ∧
        -2 ^ 63 ≤ v ∧ v < 2 ^ 63 := by
  constructor
  · intro h
    simp only [fromCharsInteger] at h
    split_ifs at h with hnil hminus hrange hrange
    all_goals
      obtain ⟨hv, hrest⟩ := FromChars.value.inj h
      have hdigits := List.dropWhile_eq_nil_iff.mp hrest
      have hall : (dropMinus text).takeWhile decimalDigit = dropMinus text :=
        List.takeWhile_eq_self_iff.mpr hdigits
      rw [hall] at hv hnil hrange
    · obtain ⟨rest, rfl⟩ : ∃ rest, text = 45 :: rest := by
        cases text with
        | nil => cases hminus
        | cons b rest => exact ⟨rest, by rw [Option.some.inj hminus]⟩
      rw [hv] at hrange
      exact ⟨[45], rest, .inr rfl, hnil, hdigits, rfl, hv.symm, by omega, by omega⟩
    · rw [dropMinus_of_head hminus] at hnil hdigits hv hrange
      rw [hv] at hrange
      exact ⟨[], text, .inl rfl, hnil, hdigits, rfl, hv.symm, by omega, by omega⟩
  · rintro ⟨minus, digits, hminus, hne, hdigits, rfl, rfl, hlow, hhigh⟩
    have hall : digits.takeWhile decimalDigit = digits := List.takeWhile_eq_self_iff.mpr hdigits
    have hrest : digits.dropWhile decimalDigit = [] := List.dropWhile_eq_nil_iff.mpr hdigits
    rcases hminus with rfl | rfl
    · have hhead := head_ne_minus hdigits
      rw [if_pos rfl] at hlow hhigh ⊢
      simp only [fromCharsInteger, List.nil_append, dropMinus_of_head hhead, hall, hrest]
      rw [if_neg hne, if_neg hhead, if_neg (by omega)]
    · rw [if_neg (List.cons_ne_nil 45 [])] at hlow hhigh ⊢
      simp only [fromCharsInteger, List.singleton_append, dropMinus, hall, hrest, List.head?_cons]
      rw [if_neg hne, if_pos trivial, if_neg (by omega)]

/-! ## Doubles -/

/-- The lower-case letter. -/
def lowerCase (b : UInt8) : UInt8 := if 65 ≤ b ∧ b ≤ 90 then b + 32 else b

/-- A character between the parentheses of a NaN. -/
def nanChar (b : UInt8) : Bool :=
  decimalDigit b || (65 ≤ b && b ≤ 90) || (97 ≤ b && b ≤ 122) || b == 95

/-- What follows an infinity or a NaN. -/
def specialRest (text : Bytes) : Option Bytes :=
  if (text.take 8).map lowerCase = ascii "infinity" then some (text.drop 8)
  else if (text.take 3).map lowerCase = ascii "inf" then some (text.drop 3)
  else if (text.take 3).map lowerCase = ascii "nan" then
    match text.drop 3 with
    | 40 :: rest =>
      match rest.dropWhile nanChar with
      | 41 :: behind => some behind
      | _ => some (text.drop 3)
    | _ => some (text.drop 3)
  else none

/-- The sign of an exponent is passed. -/
def dropSign (text : Bytes) : Bytes :=
  match text with
  | 43 :: rest => rest
  | 45 :: rest => rest
  | _ => text

/-- What follows an exponent, or all of the text when there is none. -/
def exponentRest (text : Bytes) : Bytes :=
  match text with
  | c :: rest =>
    if c = 101 ∨ c = 69 then
      if (dropSign rest).takeWhile decimalDigit = [] then text
      else (dropSign rest).dropWhile decimalDigit
    else text
  | [] => []

/-- What follows a decimal numeral. -/
def decimalRest (text : Bytes) : Option Bytes :=
  match text.dropWhile decimalDigit with
  | 46 :: rest =>
    if text.takeWhile decimalDigit = [] ∧ rest.takeWhile decimalDigit = [] then none
    else some (exponentRest (rest.dropWhile decimalDigit))
  | rest => if text.takeWhile decimalDigit = [] then none else some (exponentRest rest)

/-! ### Exponents -/

/-- An exponent. -/
def ExponentText (text : Bytes) : Prop :=
  ∃ e sign digits, (e = 101 ∨ e = 69) ∧ (sign = [] ∨ sign = [43] ∨ sign = [45]) ∧ digits ≠ [] ∧
    (∀ b ∈ digits, decimalDigit b = true) ∧ text = e :: (sign ++ digits)

/-- What is behind a sign does not start with one. -/
theorem dropSign_append_of_head {sign : Bytes} (hsign : sign = [] ∨ sign = [43] ∨ sign = [45])
    (hhead : ∀ b ∈ text.head?, b ≠ 43 ∧ b ≠ 45) : dropSign (sign ++ text) = text := by
  rcases hsign with rfl | rfl | rfl
  · rw [List.nil_append]
    unfold dropSign
    split
    · exact absurd rfl (hhead 43 rfl).1
    · exact absurd rfl (hhead 45 rfl).2
    · rfl
  · rfl
  · rfl

theorem dropSign_append {sign digits : Bytes} (hsign : sign = [] ∨ sign = [43] ∨ sign = [45])
    (hdigits : ∀ b ∈ digits, decimalDigit b = true) : dropSign (sign ++ digits) = digits := by
  refine dropSign_append_of_head hsign fun b hb => ⟨?_, ?_⟩ <;>
    exact fun h => absurd (hdigits b (List.mem_of_head? hb)) (h ▸ by decide)

theorem exists_sign (text : Bytes) :
    ∃ sign, (sign = [] ∨ sign = [43] ∨ sign = [45]) ∧ text = sign ++ dropSign text := by
  unfold dropSign
  split
  · exact ⟨[43], .inr (.inl rfl), rfl⟩
  · exact ⟨[45], .inr (.inr rfl), rfl⟩
  · exact ⟨[], .inl rfl, rfl⟩

theorem exponentRest_eq_nil : exponentRest text = [] ↔ text = [] ∨ ExponentText text := by
  constructor
  · intro h
    unfold exponentRest at h
    split at h
    · next c rest =>
      split_ifs at h with hc hnil
      obtain ⟨sign, hsign, hrest⟩ := exists_sign rest
      have hdigits := List.dropWhile_eq_nil_iff.mp h
      refine .inr ⟨c, sign, dropSign rest, hc, hsign, fun h0 => hnil ?_, hdigits, by rw [← hrest]⟩
      rw [h0, List.takeWhile_nil]
    · exact .inl rfl
  · rintro (rfl | ⟨e, sign, digits, he, hsign, hne, hdigits, rfl⟩)
    · rfl
    · have hall : digits.takeWhile decimalDigit = digits := List.takeWhile_eq_self_iff.mpr hdigits
      rw [exponentRest, if_pos he, dropSign_append hsign hdigits, hall, if_neg hne]
      exact List.dropWhile_eq_nil_iff.mpr hdigits

/-! ### Decimal numerals -/

/-- A decimal numeral without a sign. -/
def DecimalText (text : Bytes) : Prop :=
  ∃ whole fraction exponent, (∀ b ∈ whole, decimalDigit b = true) ∧
    (fraction = [] ∧ whole ≠ [] ∨
      ∃ digits, (∀ b ∈ digits, decimalDigit b = true) ∧ (whole ≠ [] ∨ digits ≠ []) ∧
        fraction = 46 :: digits) ∧
    (exponent = [] ∨ ExponentText exponent) ∧ text = whole ++ (fraction ++ exponent)

/-- Digits in front of what is none. -/
theorem takeWhile_digits {digits rest : Bytes} (hdigits : ∀ b ∈ digits, decimalDigit b = true)
    (hrest : ∀ b ∈ rest.head?, decimalDigit b = false) :
    (digits ++ rest).takeWhile decimalDigit = digits ∧
      (digits ++ rest).dropWhile decimalDigit = rest := by
  rw [List.takeWhile_append_of_pos hdigits, List.dropWhile_append_of_pos hdigits]
  cases rest with
  | nil => simp
  | cons b rest =>
    have hb : ¬ decimalDigit b = true := by
      rw [hrest b rfl]
      decide
    rw [List.takeWhile_cons_of_neg hb, List.dropWhile_cons_of_neg hb, List.append_nil]
    exact ⟨rfl, rfl⟩

theorem head_exponent {exponent : Bytes} (h : exponent = [] ∨ ExponentText exponent) :
    ∀ b ∈ exponent.head?, decimalDigit b = false ∧ b ≠ 46 := by
  rcases h with rfl | ⟨e, sign, digits, he, -, -, -, rfl⟩
  · intro b hb
    cases hb
  · intro b hb
    cases hb
    rcases he with rfl | rfl <;> decide

theorem decimalRest_eq_nil : decimalRest text = some [] ↔ DecimalText text := by
  constructor
  · intro h
    have hsplit := (List.takeWhile_append_dropWhile (p := decimalDigit) (l := text)).symm
    have hwhole : ∀ b ∈ text.takeWhile decimalDigit, decimalDigit b = true := fun b hb =>
      List.mem_takeWhile_imp hb
    unfold decimalRest at h
    split at h
    · next rest hrest =>
      split_ifs at h with hnil
      rw [hrest] at hsplit
      have hdigits : ∀ b ∈ rest.takeWhile decimalDigit, decimalDigit b = true := fun b hb =>
        List.mem_takeWhile_imp hb
      refine ⟨_, 46 :: rest.takeWhile decimalDigit, rest.dropWhile decimalDigit, hwhole,
        .inr ⟨_, hdigits, not_and_or.mp hnil, rfl⟩, exponentRest_eq_nil.mp (Option.some.inj h), ?_⟩
      rw [List.cons_append, List.takeWhile_append_dropWhile]
      exact hsplit
    · split_ifs at h with hnil
      exact ⟨_, [], _, hwhole, .inl ⟨rfl, hnil⟩, exponentRest_eq_nil.mp (Option.some.inj h), hsplit⟩
  · rintro ⟨whole, fraction, exponent, hwhole, hfraction, hexponent, rfl⟩
    have hend := exponentRest_eq_nil.mpr hexponent
    have hhead := head_exponent hexponent
    unfold decimalRest
    rcases hfraction with ⟨rfl, hne⟩ | ⟨digits, hdigits, hne, rfl⟩
    · obtain ⟨htake, hdrop⟩ := takeWhile_digits hwhole fun b hb => (hhead b hb).1
      rw [List.nil_append, htake, hdrop]
      split
      · exact absurd rfl (hhead 46 rfl).2
      · rw [if_neg hne, hend]
    · obtain ⟨htake, hdrop⟩ := @takeWhile_digits _ (46 :: (digits ++ exponent)) hwhole
        fun b hb => by rw [← Option.some.inj hb]; decide
      obtain ⟨htake', hdrop'⟩ := takeWhile_digits hdigits fun b hb => (hhead b hb).1
      rw [List.cons_append, htake, hdrop]
      simp only [htake', hdrop']
      rw [if_neg (not_and_or.mpr hne), hend]

/-! ### Infinities and NaNs -/

/-- An infinity or a NaN without a sign. -/
def SpecialText (text : Bytes) : Prop :=
  text.map lowerCase = ascii "infinity" ∨ text.map lowerCase = ascii "inf" ∨
    text.map lowerCase = ascii "nan" ∨
    ∃ word chars, word.map lowerCase = ascii "nan" ∧ (∀ b ∈ chars, nanChar b = true) ∧
      text = word ++ 40 :: (chars ++ [41])

/-- What follows a numeral of a double. -/
def doubleRest (text : Bytes) : Option Bytes :=
  match specialRest (dropMinus text) with
  | some rest => some rest
  | none => decimalRest (dropMinus text)

/-- `std::from_chars(first, last, d)`. `nearest` is the double nearest to a numeral, unless that is
out of range. -/
def fromCharsDouble {F : Type} (nearest : Bytes → Option F) (text : Bytes) : FromChars F :=
  match doubleRest text with
  | none => .invalidArgument
  | some rest =>
    match nearest (text.take (text.length - rest.length)) with
    | none => .resultOutOfRange
    | some d => .value d rest

theorem length_map_ascii {word : Bytes} (h : text.map lowerCase = word) :
    text.length = word.length := by
  rw [← h, List.length_map]

/-- The first bytes of a text are a word, and nothing follows. -/
theorem take_drop_eq_nil {word : Bytes} {n : Nat}
    (htake : (text.take n).map lowerCase = word) (hdrop : text.drop n = []) :
    text.map lowerCase = word := by
  have hall : text.take n = text := by
    rw [← List.append_nil (text.take n), ← hdrop, List.take_append_drop]
  rw [← hall]
  exact htake

theorem specialRest_eq_nil : specialRest text = some [] ↔ SpecialText text := by
  constructor
  · intro h
    unfold specialRest at h
    split_ifs at h with hinfinity hinf hnan
    · exact .inl (take_drop_eq_nil hinfinity (Option.some.inj h))
    · exact .inr (.inl (take_drop_eq_nil hinf (Option.some.inj h)))
    · refine .inr (.inr ?_)
      split at h
      · next rest hrest =>
        split at h
        · next behind hbehind =>
          cases h
          refine .inr ⟨text.take 3, rest.takeWhile nanChar, hnan,
            fun b hb => List.mem_takeWhile_imp hb, ?_⟩
          rw [← hbehind, List.takeWhile_append_dropWhile, ← hrest, List.take_append_drop]
        · rw [hrest] at h
          cases h
      · exact .inl (take_drop_eq_nil hnan (Option.some.inj h))
  · have hshort : ∀ {n}, text.length ≤ n → text.take n = text ∧ text.drop n = [] := fun hle =>
      ⟨List.take_of_length_le hle, List.drop_eq_nil_of_le hle⟩
    rintro (h | h | h | ⟨word, chars, hword, hchars, rfl⟩)
    · obtain ⟨htake, hdrop⟩ := hshort (n := 8) (by rw [length_map_ascii h]; decide)
      rw [specialRest, htake, if_pos h, hdrop]
    · have hlen : text.length = 3 := length_map_ascii h
      obtain ⟨htake, -⟩ := hshort (n := 8) (by omega)
      obtain ⟨htake', hdrop⟩ := hshort (n := 3) (by omega)
      rw [specialRest, htake, htake', h, if_neg (by decide), if_pos rfl, hdrop]
    · have hlen : text.length = 3 := length_map_ascii h
      obtain ⟨htake, -⟩ := hshort (n := 8) (by omega)
      obtain ⟨htake', hdrop⟩ := hshort (n := 3) (by omega)
      rw [specialRest, htake, htake', h, if_neg (by decide), if_neg (by decide), if_pos rfl, hdrop]
    · have hlen : word.length = 3 := length_map_ascii hword
      have htake : (word ++ 40 :: (chars ++ [41])).take 3 = word := by
        rw [← hlen, List.take_left]
      have hdrop : (word ++ 40 :: (chars ++ [41])).drop 3 = 40 :: (chars ++ [41]) := by
        rw [← hlen, List.drop_left]
      -- the fourth byte is no letter, so that this is no infinity
      have hno : ((word ++ 40 :: (chars ++ [41])).take 8).map lowerCase ≠ ascii "infinity" := by
        intro heq
        have hthree := congrArg (List.take 3) heq
        rw [← List.map_take, List.take_take, show min 3 8 = 3 from rfl, htake, hword] at hthree
        cases hthree
      have hbehind : (chars ++ [41]).dropWhile nanChar = [41] := by
        rw [List.dropWhile_append_of_pos hchars]
        rfl
      rw [specialRest, if_neg hno, htake, hword, if_neg (by decide), if_pos rfl, hdrop]
      simp only [hbehind]

/-! ### Doubles -/

theorem fromCharsDouble_eq_value {F : Type} {nearest : Bytes → Option F} {d : F} :
    fromCharsDouble nearest text = .value d [] ↔
      doubleRest text = some [] ∧ nearest text = some d := by
  unfold fromCharsDouble
  cases hrest : doubleRest text with
  | none => simp
  | some rest =>
    constructor
    · intro h
      dsimp only at h
      cases hnear : nearest (text.take (text.length - rest.length)) with
      | none =>
        rw [hnear] at h
        cases h
      | some d' =>
        rw [hnear] at h
        obtain ⟨rfl, rfl⟩ := FromChars.value.inj h
        rw [List.length_nil, Nat.sub_zero, List.take_length] at hnear
        exact ⟨rfl, hnear⟩
    · rintro ⟨hnil, hnear⟩
      cases hnil
      dsimp only
      rw [List.length_nil, Nat.sub_zero, List.take_length, hnear]

/-- What starts with a digit or a point is no infinity and no NaN. -/
theorem specialRest_of_decimal (h : DecimalText text) : specialRest text = none := by
  have hhead : ∃ b rest, text = b :: rest ∧ (decimalDigit b = true ∨ b = 46) := by
    obtain ⟨whole, fraction, exponent, hwhole, hfraction, -, rfl⟩ := h
    cases whole with
    | cons b whole => exact ⟨b, _, rfl, .inl (hwhole b (.head _))⟩
    | nil =>
      rcases hfraction with ⟨-, hne⟩ | ⟨digits, -, -, rfl⟩
      · exact absurd rfl hne
      · exact ⟨46, _, rfl, .inr rfl⟩
  obtain ⟨b, rest, rfl, hb⟩ := hhead
  have hlower : lowerCase b = b := by
    unfold lowerCase
    rcases hb with hb | rfl
    · unfold decimalDigit at hb
      rw [Bool.and_eq_true, decide_eq_true_eq, decide_eq_true_eq] at hb
      refine if_neg fun hupper => absurd (UInt8.le_trans hupper.1 hb.2) (by decide)
    · rfl
  have hno : ∀ n, ∀ c word, c ≠ b → ((b :: rest).take (n + 1)).map lowerCase ≠ c :: word := by
    intro n c word hc heq
    rw [List.take_succ_cons, List.map_cons, hlower] at heq
    exact hc (List.cons.inj heq).1.symm
  have hletter : ∀ c, decimalDigit c = false → c ≠ 46 → c ≠ b := by
    rintro c hc hpoint rfl
    rcases hb with hb | hb
    · rw [hc] at hb
      cases hb
    · exact hpoint hb
  have hi : (105 : UInt8) ≠ b := hletter 105 (by decide) (by decide)
  have hn : (110 : UInt8) ≠ b := hletter 110 (by decide) (by decide)
  have hinfinity : ((b :: rest).take 8).map lowerCase ≠ ascii "infinity" := hno 7 105 _ hi
  have hinf : ((b :: rest).take 3).map lowerCase ≠ ascii "inf" := hno 2 105 _ hi
  have hnan : ((b :: rest).take 3).map lowerCase ≠ ascii "nan" := hno 2 110 _ hn
  rw [specialRest, if_neg hinfinity, if_neg hinf, if_neg hnan]

/-- A numeral does not start with a minus sign behind its own. -/
theorem dropMinus_append {minus : Bytes} (hminus : minus = [] ∨ minus = [45])
    (hhead : text.head? ≠ some 45) : dropMinus (minus ++ text) = text := by
  rcases hminus with rfl | rfl
  · exact dropMinus_of_head hhead
  · rfl

theorem exists_minus (text : Bytes) :
    ∃ minus, (minus = [] ∨ minus = [45]) ∧ text = minus ++ dropMinus text := by
  unfold dropMinus
  split
  · exact ⟨[45], .inr rfl, rfl⟩
  · exact ⟨[], .inl rfl, rfl⟩

theorem head_decimalText (h : DecimalText text) : text.head? ≠ some 45 := by
  obtain ⟨whole, fraction, exponent, hwhole, hfraction, -, rfl⟩ := h
  cases whole with
  | cons b whole =>
    intro hhead
    have hb := hwhole b (.head _)
    rw [List.cons_append, List.head?_cons, Option.some.injEq] at hhead
    rw [hhead] at hb
    cases hb
  | nil =>
    rcases hfraction with ⟨-, hne⟩ | ⟨digits, -, -, rfl⟩
    · exact absurd rfl hne
    · intro hhead
      exact absurd (Option.some.inj hhead) (by decide)

theorem head_specialText (h : SpecialText text) : text.head? ≠ some 45 := by
  intro hhead
  obtain ⟨rest, rfl⟩ : ∃ rest, text = 45 :: rest := by
    cases text with
    | nil => cases hhead
    | cons b rest => exact ⟨rest, by rw [Option.some.inj hhead]⟩
  have hno : ∀ c word, c ≠ 45 → (45 :: rest : Bytes).map lowerCase ≠ c :: word := by
    intro c word hc heq
    exact hc (List.cons.inj heq).1.symm
  rcases h with h | h | h | ⟨word, chars, hword, -, htext⟩
  · exact hno 105 _ (by decide) h
  · exact hno 105 _ (by decide) h
  · exact hno 110 _ (by decide) h
  · cases word with
    | nil => cases hword
    | cons b word =>
      obtain rfl := (List.cons.inj htext).1
      exact absurd (List.cons.inj hword).1 (by decide)

/-- **All of a text is a double**: a decimal numeral, an infinity or a NaN behind a minus sign or
behind none. -/
theorem doubleRest_eq_nil : doubleRest text = some [] ↔
    ∃ minus body, (minus = [] ∨ minus = [45]) ∧ (DecimalText body ∨ SpecialText body) ∧
      text = minus ++ body := by
  constructor
  · intro h
    obtain ⟨minus, hminus, htext⟩ := exists_minus text
    refine ⟨minus, dropMinus text, hminus, ?_, htext⟩
    unfold doubleRest at h
    cases hspecial : specialRest (dropMinus text) with
    | none =>
      rw [hspecial] at h
      exact .inl (decimalRest_eq_nil.mp h)
    | some rest =>
      rw [hspecial] at h
      cases h
      exact .inr (specialRest_eq_nil.mp hspecial)
  · rintro ⟨minus, body, hminus, hbody | hbody, rfl⟩
    · rw [doubleRest, dropMinus_append hminus (head_decimalText hbody),
        specialRest_of_decimal hbody]
      exact decimalRest_eq_nil.mpr hbody
    · rw [doubleRest, dropMinus_append hminus (head_specialText hbody),
        specialRest_eq_nil.mpr hbody]

end Libca.Common
