import Libca.Http.Message

/-!
# What frames a body (`http/http1_codec.cpp`)

`body_framing` and the fields that it reads.

* `Announces`: what the fields say, over the tokens of all of them.
* `Respelling`: the order of the fields, the casing of names and values, a list split over two
  lines.
* `bodyFraming_iff`: **`body_framing` succeeds exactly with what the fields announce.**
* `announces_of_respelling`: what is announced does not depend on how it is spelled.
* `framing_unambiguous`: both together.
-/

namespace Libca.Http

open Common

/-! ## What the fields say -/

/-- The tokens of all the fields of a name. -/
def fieldTokens (headers : HttpHeaders) (name : Bytes) : List Bytes := tokens (headers.getAll name)

/-- A nonempty decimal number below `2^64`. -/
structure IsLength (token : Bytes) (n : Nat) : Prop where
  nonempty : token ≠ []
  digits : ∀ b ∈ token, 48 ≤ b ∧ b ≤ 57
  value : ofChars 10 token = n
  lt : n < 2 ^ 64

/-- What the framing fields of a header list announce. -/
inductive Announces (headers : HttpHeaders) (closeDelimited : Bool) : HttpBodyInfo → Prop
  | unframed : headers.getAll (ascii "Transfer-Encoding") = [] →
      headers.getAll (ascii "Content-Length") = [] →
      Announces headers closeDelimited (if closeDelimited then .closeDelimited else .none)
  | length (n : Nat) : headers.getAll (ascii "Transfer-Encoding") = [] →
      headers.getAll (ascii "Content-Length") ≠ [] →
      (∀ token ∈ fieldTokens headers (ascii "Content-Length"), IsLength token n) →
      Announces headers closeDelimited (.contentLength n)
  | chunked (coding : Bytes) : headers.getAll (ascii "Content-Length") = [] →
      fieldTokens headers (ascii "Transfer-Encoding") = [coding] →
      asciiEquals coding (ascii "chunked") = true → Announces headers closeDelimited .chunked

/-! ## What `body_framing` accepts -/

theorem tokens_eq_nil_iff {values : List Bytes} : tokens values = [] ↔ values = [] := by
  unfold tokens
  rw [List.map_eq_nil_iff]
  cases values with
  | nil => exact ⟨fun _ => rfl, fun _ => rfl⟩
  | cons value values =>
    rw [List.flatMap_cons, List.append_eq_nil_iff]
    exact ⟨fun h => absurd h.1 (splitAt_ne_nil 44 value), fun h => absurd h (List.cons_ne_nil _ _)⟩

theorem decimalDigit_eq_some {b : UInt8} {d : Nat} (h : decimalDigit b = some d) :
    (48 ≤ b ∧ b ≤ 57) ∧ d = digitVal b ∧ d < 10 := by
  unfold decimalDigit at h
  split_ifs at h with hdigit
  cases h
  have hle : b.toNat ≤ 57 := UInt8.le_iff_toNat_le.mp hdigit.2
  unfold digitVal
  rw [if_pos hdigit.2]
  exact ⟨hdigit, rfl, by omega⟩

variable {n : Nat}

/-- The decimal numbers that the loop reads. -/
theorem parseNumeral_eq_ok (notDigit overflow : HttpError) {text : Bytes} {value : Nat} :
    parseNumeral 10 decimalDigit notDigit overflow value text = .ok n ↔
      (∀ b ∈ text, 48 ≤ b ∧ b ≤ 57) ∧ text.foldl (fun acc b => acc * 10 + digitVal b) value = n ∧
        (text ≠ [] → n ≤ usizeMax) := by
  induction text generalizing value with
  | nil =>
    rw [parseNumeral, Except.ok.injEq]
    exact ⟨fun h => ⟨List.forall_mem_nil _, h, fun hne => absurd rfl hne⟩, fun h => h.2.1⟩
  | cons b text ih =>
    rw [parseNumeral, List.foldl_cons]
    cases hdigit : decimalDigit b with
    | none =>
      constructor
      · intro h
        cases h
      · rintro ⟨hdigits, -⟩
        unfold decimalDigit at hdigit
        rw [if_pos (hdigits b (.head _))] at hdigit
        cases hdigit
    | some d =>
      obtain ⟨hb, rfl, hlt⟩ := decimalDigit_eq_some hdigit
      have hmax : usizeMax = 18446744073709551615 := rfl
      dsimp only
      by_cases hfits : value > (usizeMax - digitVal b) / 10
      · rw [if_pos hfits]
        constructor
        · intro h
          cases h
        · rintro ⟨-, rfl, hle⟩
          have hle := Nat.le_trans (le_foldl_digits (by decide) text _) (hle (List.cons_ne_nil _ _))
          omega
      · rw [if_neg hfits, ih, List.forall_mem_cons]
        constructor
        · rintro ⟨hdigits, rfl, hle⟩
          refine ⟨⟨hb, hdigits⟩, rfl, fun _ => ?_⟩
          cases text with
          | nil => rw [List.foldl_nil]; omega
          | cons c text => exact hle (List.cons_ne_nil _ _)
        · rintro ⟨⟨-, hdigits⟩, rfl, hle⟩
          exact ⟨hdigits, rfl, fun _ => hle (List.cons_ne_nil _ _)⟩

theorem parseLength_iff {token : Bytes} (hne : token ≠ []) :
    parseLength token = .ok n ↔ IsLength token n := by
  unfold parseLength
  rw [parseNumeral_eq_ok]
  constructor
  · rintro ⟨hdigits, hvalue, hle⟩
    exact ⟨hne, hdigits, hvalue, Nat.lt_of_le_of_lt (hle hne) (by decide)⟩
  · rintro ⟨-, hdigits, hvalue, hlt⟩
    exact ⟨hdigits, hvalue, fun _ => Nat.le_of_lt_succ hlt⟩

/-- The tokens behind a length repeat it. -/
theorem contentLengthLoop_some {rest : List Bytes} {result : Option Nat} :
    contentLengthLoop (some n) rest = .ok result ↔
      result = some n ∧ ∀ token ∈ rest, IsLength token n := by
  induction rest with
  | nil =>
    rw [contentLengthLoop, Except.ok.injEq]
    exact ⟨fun h => ⟨h.symm, List.forall_mem_nil _⟩, fun h => h.1.symm⟩
  | cons token rest ih =>
    rw [contentLengthLoop, List.forall_mem_cons]
    by_cases hempty : token = []
    · rw [hempty, if_pos List.isEmpty_nil]
      constructor
      · intro h
        cases h
      · exact fun h => absurd rfl h.2.1.nonempty
    · rw [if_neg (by rwa [List.isEmpty_iff])]
      cases hread : parseLength token with
      | error e =>
        constructor
        · intro h
          cases h
        · rintro ⟨-, hlength, -⟩
          rw [(parseLength_iff hempty).mpr hlength] at hread
          cases hread
      | ok length =>
        have hlength := (parseLength_iff hempty).mp hread
        dsimp only
        by_cases hsame : length = n
        · obtain rfl := hsame
          rw [if_neg (fun h => h.2 rfl), ih]
          exact ⟨fun h => ⟨h.1, hlength, h.2⟩, fun h => ⟨h.1, h.2.2⟩⟩
        · rw [if_pos ⟨rfl, fun h => hsame (Option.some.inj h).symm⟩]
          constructor
          · intro h
            cases h
          · exact fun h => absurd (hlength.value.symm.trans h.2.1.value) hsame

variable {headers : HttpHeaders}

/-- **When there is a content length.** -/
theorem parseContentLength_eq_some :
    parseContentLength headers = .ok (some n) ↔ headers.getAll (ascii "Content-Length") ≠ [] ∧
      ∀ token ∈ fieldTokens headers (ascii "Content-Length"), IsLength token n := by
  unfold parseContentLength fieldTokens
  have hpresent : headers.getAll (ascii "Content-Length") ≠ [] ↔
      tokens (headers.getAll (ascii "Content-Length")) ≠ [] := not_iff_not.mpr tokens_eq_nil_iff.symm
  rw [hpresent]
  cases tokens (headers.getAll (ascii "Content-Length")) with
  | nil =>
    constructor
    · intro h
      cases h
    · exact fun h => absurd rfl h.1
  | cons token rest =>
    rw [contentLengthLoop, List.forall_mem_cons]
    by_cases hempty : token = []
    · rw [hempty, if_pos List.isEmpty_nil]
      constructor
      · intro h
        cases h
      · exact fun h => absurd rfl h.2.1.nonempty
    · rw [if_neg (by rwa [List.isEmpty_iff])]
      cases hread : parseLength token with
      | error e =>
        constructor
        · intro h
          cases h
        · rintro ⟨-, hlength, -⟩
          rw [(parseLength_iff hempty).mpr hlength] at hread
          cases hread
      | ok length =>
        have hlength := (parseLength_iff hempty).mp hread
        dsimp only
        rw [if_neg (fun h => Bool.false_ne_true h.1), contentLengthLoop_some, Option.some.injEq]
        constructor
        · rintro ⟨rfl, hrest⟩
          exact ⟨List.cons_ne_nil _ _, hlength, hrest⟩
        · rintro ⟨-, hn, hrest⟩
          obtain rfl : n = length := hn.value.symm.trans hlength.value
          exact ⟨rfl, hrest⟩

/-- **When the body is chunked.** -/
theorem parseChunked_eq_true :
    parseChunkedTransferEncoding headers = .ok true ↔
      ∃ coding, fieldTokens headers (ascii "Transfer-Encoding") = [coding] ∧
        asciiEquals coding (ascii "chunked") = true := by
  unfold parseChunkedTransferEncoding fieldTokens
  dsimp only
  by_cases habsent : headers.getAll (ascii "Transfer-Encoding") = []
  · rw [habsent, if_pos List.isEmpty_nil]
    constructor
    · intro h
      cases h
    · rintro ⟨coding, h, -⟩
      cases h
  · rw [if_neg (by rwa [List.isEmpty_iff])]
    cases tokens (headers.getAll (ascii "Transfer-Encoding")) with
    | nil =>
      constructor
      · intro h
        cases h
      · rintro ⟨coding, h, -⟩
        cases h
    | cons coding rest =>
      constructor
      · intro h
        split_ifs at h with hempty hcoding
        rw [not_or, Classical.not_not, Bool.not_eq_true', Bool.not_eq_false] at hcoding
        obtain rfl := List.length_eq_zero_iff.mp (Nat.succ.inj hcoding.1)
        exact ⟨coding, rfl, hcoding.2⟩
      · rintro ⟨coding', hcodings, hchunked⟩
        obtain ⟨rfl, rfl⟩ := List.cons.inj hcodings
        have hne : coding ≠ [] := by
          rintro rfl
          cases hchunked
        have hany : ¬ [coding].any List.isEmpty = true := by
          rw [List.any_cons, List.any_nil, Bool.or_false, List.isEmpty_iff]
          exact hne
        rw [if_neg hany, if_neg]
        rintro (h | h)
        · exact h rfl
        · rw [List.headD_cons, hchunked] at h
          exact Bool.false_ne_true h

variable {closeDelimited : Bool} {framing : HttpBodyInfo}

/-- **`body_framing` succeeds exactly with what the fields announce.** -/
theorem bodyFraming_iff :
    bodyFraming headers closeDelimited = .ok framing ↔
      Announces headers closeDelimited framing := by
  rw [bodyFraming_eq_ok]
  constructor
  · rintro (⟨rfl, hlength, hchunked⟩ | ⟨length, rfl, hlength, hchunked⟩ | ⟨rfl, hlength, hchunked⟩)
    · obtain ⟨coding, hcodings, hcoding⟩ := parseChunked_eq_true.mp hchunked
      exact .chunked coding (getAll_of_parseContentLength_none hlength) hcodings hcoding
    · obtain ⟨hpresent, htokens⟩ := parseContentLength_eq_some.mp hlength
      exact .length length (parseChunked_eq_false_iff.mp hchunked) hpresent htokens
    · exact .unframed (parseChunked_eq_false_iff.mp hchunked)
        (getAll_of_parseContentLength_none hlength)
  · intro h
    cases h with
    | unframed hchunked hlength =>
      exact .inr (.inr ⟨rfl, parseContentLength_of_absent hlength,
        parseChunked_eq_false_iff.mpr hchunked⟩)
    | length n hchunked hpresent htokens =>
      exact .inr (.inl ⟨n, rfl, parseContentLength_eq_some.mpr ⟨hpresent, htokens⟩,
        parseChunked_eq_false_iff.mpr hchunked⟩)
    | chunked coding hlength hcodings hcoding =>
      exact .inl ⟨rfl, parseContentLength_of_absent hlength,
        parseChunked_eq_true.mpr ⟨coding, hcodings, hcoding⟩⟩

/-! ## Other spellings -/

/-- One change of the spelling: the order of the fields, the casing of a name and a value, or a list
that is split over two lines. -/
inductive Respelled : HttpHeaders → HttpHeaders → Prop
  | reordered {headers headers' : HttpHeaders} : headers.Perm headers' → Respelled headers headers'
  | recased (before after : HttpHeaders) (h h' : HttpHeader) : asciiEquals h.name h'.name = true →
      asciiEquals h.value h'.value = true → Respelled (before ++ h :: after) (before ++ h' :: after)
  | split (before after : HttpHeaders) (h h₁ h₂ : HttpHeader) : asciiEquals h.name h₁.name = true →
      asciiEquals h.name h₂.name = true → h.value = h₁.value ++ 44 :: h₂.value →
      Respelled (before ++ h :: after) (before ++ h₁ :: h₂ :: after)

/-- A header list spelled differently. -/
def Respelling : HttpHeaders → HttpHeaders → Prop := Relation.EqvGen Respelled

theorem asciiEquals_iff {lhs rhs : Bytes} :
    asciiEquals lhs rhs = true ↔ lhs.map asciiLower = rhs.map asciiLower := by
  unfold asciiEquals
  rw [beq_iff_eq]

/-- The casing keeps what separates tokens, and the digits. -/
def CasingKeeps (b : UInt8) : Prop :=
  (asciiLower b = 44 ↔ b = 44) ∧ isOws (asciiLower b) = isOws b ∧
    (48 ≤ asciiLower b ∧ asciiLower b ≤ 57 ↔ 48 ≤ b ∧ b ≤ 57) ∧ (48 ≤ b ∧ b ≤ 57 → asciiLower b = b)

instance (b : UInt8) : Decidable (CasingKeeps b) := inferInstanceAs (Decidable (_ ∧ _))

theorem casingKeeps (b : UInt8) : CasingKeeps b := forall_byte (by decide +kernel) b

theorem asciiLower_eq_comma (b : UInt8) : asciiLower b = 44 ↔ b = 44 := (casingKeeps b).1

theorem isOws_asciiLower (b : UInt8) : isOws (asciiLower b) = isOws b := (casingKeeps b).2.1

/-- The casing is not seen by the list syntax. -/
theorem splitAt_map_asciiLower (text : Bytes) :
    splitAt 44 (text.map asciiLower) = (splitAt 44 text).map (·.map asciiLower) := by
  induction text with
  | nil => rfl
  | cons b text ih =>
    obtain ⟨piece, pieces, hsplit⟩ := List.exists_cons_of_ne_nil (splitAt_ne_nil 44 text)
    rw [List.map_cons, splitAt, splitAt, ih, hsplit]
    by_cases hb : b = 44
    · rw [if_pos hb, if_pos ((asciiLower_eq_comma b).mpr hb)]
      rfl
    · rw [if_neg hb, if_neg (mt (asciiLower_eq_comma b).mp hb)]
      rfl

theorem trimOws_map_asciiLower (value : Bytes) :
    trimOws (value.map asciiLower) = (trimOws value).map asciiLower := by
  have hows : isOws ∘ asciiLower = isOws := funext isOws_asciiLower
  unfold trimOws
  rw [List.dropWhile_map, hows, List.rdropWhile, ← List.map_reverse, List.dropWhile_map, hows,
    ← List.map_reverse]
  rfl

/-- A separator splits the text in any case. -/
theorem splitAt_append_cons (sep : UInt8) (a b : Bytes) :
    splitAt sep (a ++ sep :: b) = splitAt sep a ++ splitAt sep b := by
  induction a with
  | nil =>
    rw [List.nil_append]
    conv_lhs => rw [splitAt, if_pos rfl]
    rfl
  | cons c a ih =>
    rw [List.cons_append, splitAt, splitAt, ih]
    by_cases hc : c = sep
    · rw [if_pos hc, if_pos hc]
      rfl
    · rw [if_neg hc, if_neg hc]
      obtain ⟨piece, pieces, hsplit⟩ := List.exists_cons_of_ne_nil (splitAt_ne_nil sep a)
      rw [hsplit]
      rfl

/-- The tokens of all the fields of a name, in lower case. -/
def lowerTokens (headers : HttpHeaders) (name : Bytes) : List Bytes :=
  (fieldTokens headers name).map (·.map asciiLower)

/-- The tokens of one field. -/
def valueTokens (value : Bytes) : List Bytes :=
  ((splitAt 44 value).map trimOws).map (·.map asciiLower)

theorem lowerTokens_eq (headers : HttpHeaders) (name : Bytes) :
    lowerTokens headers name =
      headers.flatMap fun h => if asciiEquals h.name name then valueTokens h.value else [] := by
  unfold lowerTokens fieldTokens tokens HttpHeaders.getAll
  induction headers with
  | nil => rfl
  | cons h headers ih =>
    rw [List.filter_cons, List.flatMap_cons, ← ih]
    by_cases hname : asciiEquals h.name name = true
    · rw [if_pos hname, if_pos hname, List.map_cons, List.flatMap_cons, List.map_append,
        List.map_append]
      rfl
    · rw [if_neg hname, if_neg hname]
      rfl

theorem valueTokens_of_asciiEquals {v v' : Bytes} (h : asciiEquals v v' = true) :
    valueTokens v = valueTokens v' := by
  have hlower (w : Bytes) : valueTokens w = (splitAt 44 (w.map asciiLower)).map trimOws := by
    unfold valueTokens
    rw [splitAt_map_asciiLower, List.map_map, List.map_map]
    exact List.map_congr_left fun piece _ => (trimOws_map_asciiLower piece).symm
  rw [hlower, hlower, asciiEquals_iff.mp h]

theorem valueTokens_append_cons (v v' : Bytes) :
    valueTokens (v ++ 44 :: v') = valueTokens v ++ valueTokens v' := by
  unfold valueTokens
  rw [splitAt_append_cons, List.map_append, List.map_append]

theorem asciiEquals_congr {a b : Bytes} (h : asciiEquals a b = true) (name : Bytes) :
    asciiEquals a name = asciiEquals b name := by
  unfold asciiEquals
  rw [asciiEquals_iff.mp h]

variable {headers' : HttpHeaders}

/-- **The tokens of a name are the same in every spelling**, up to their order. -/
theorem lowerTokens_of_respelled (h : Respelled headers headers')
    (name : Bytes) : (lowerTokens headers name).Perm (lowerTokens headers' name) := by
  rw [lowerTokens_eq, lowerTokens_eq]
  cases h with
  | reordered hperm => exact hperm.flatMap_right _
  | recased before after h h' hname hvalue =>
    rw [List.flatMap_append, List.flatMap_append, List.flatMap_cons, List.flatMap_cons,
      asciiEquals_congr hname, valueTokens_of_asciiEquals hvalue]
  | split before after h h₁ h₂ hname₁ hname₂ hvalue =>
    rw [List.flatMap_append, List.flatMap_append, List.flatMap_cons, List.flatMap_cons,
      List.flatMap_cons,
      ← asciiEquals_congr hname₁, ← asciiEquals_congr hname₂, hvalue, valueTokens_append_cons]
    split
    · rw [List.append_assoc]
    · rfl

theorem lowerTokens_of_respelling (h : Respelling headers headers')
    (name : Bytes) : (lowerTokens headers name).Perm (lowerTokens headers' name) := by
  induction h with
  | rel _ _ h => exact lowerTokens_of_respelled h name
  | refl _ => exact List.Perm.refl _
  | symm _ _ _ ih => exact ih.symm
  | trans _ _ _ _ _ ih ih' => exact ih.trans ih'

theorem isLength_map_asciiLower {token : Bytes} :
    IsLength (token.map asciiLower) n ↔ IsLength token n := by
  have hdigit (b : UInt8) : 48 ≤ asciiLower b ∧ asciiLower b ≤ 57 ↔ 48 ≤ b ∧ b ≤ 57 :=
    (casingKeeps b).2.2.1
  have hsame (b : UInt8) : 48 ≤ b ∧ b ≤ 57 → asciiLower b = b := (casingKeeps b).2.2.2
  have hdigits : (∀ b ∈ token.map asciiLower, 48 ≤ b ∧ b ≤ 57) ↔ ∀ b ∈ token, 48 ≤ b ∧ b ≤ 57 := by
    rw [List.forall_mem_map]
    exact forall₂_congr fun b _ => hdigit b
  have hmap (h : ∀ b ∈ token, 48 ≤ b ∧ b ≤ 57) : token.map asciiLower = token :=
    List.map_congr_left (fun b hb => hsame b (h b hb)) |>.trans (List.map_id token)
  constructor
  · rintro ⟨hne, hall, hvalue, hlt⟩
    have hall := hdigits.mp hall
    rw [hmap hall] at hne hvalue
    exact ⟨hne, hall, hvalue, hlt⟩
  · intro h
    rwa [hmap h.digits]

/-- What is announced, by the tokens in lower case. -/
theorem announces_iff :
    Announces headers closeDelimited framing ↔
      (lowerTokens headers (ascii "Transfer-Encoding") = [] ∧
        lowerTokens headers (ascii "Content-Length") = [] ∧
        framing = if closeDelimited then .closeDelimited else .none) ∨
      (∃ n, lowerTokens headers (ascii "Transfer-Encoding") = [] ∧
        lowerTokens headers (ascii "Content-Length") ≠ [] ∧
        (∀ token ∈ lowerTokens headers (ascii "Content-Length"), IsLength token n) ∧
        framing = .contentLength n) ∨
      (lowerTokens headers (ascii "Content-Length") = [] ∧
        lowerTokens headers (ascii "Transfer-Encoding") = [ascii "chunked"] ∧
          framing = .chunked) := by
  have habsent (name : Bytes) : lowerTokens headers name = [] ↔ headers.getAll name = [] := by
    unfold lowerTokens fieldTokens
    rw [List.map_eq_nil_iff, tokens_eq_nil_iff]
  have hlengths (n : Nat) : (∀ token ∈ lowerTokens headers (ascii "Content-Length"),
    IsLength token n) ↔
      ∀ token ∈ fieldTokens headers (ascii "Content-Length"), IsLength token n := by
    unfold lowerTokens
    rw [List.forall_mem_map]
    exact forall₂_congr fun token _ => isLength_map_asciiLower
  have hchunked : lowerTokens headers (ascii "Transfer-Encoding") = [ascii "chunked"] ↔
      ∃ coding, fieldTokens headers (ascii "Transfer-Encoding") = [coding] ∧
        asciiEquals coding (ascii "chunked") = true := by
    unfold lowerTokens
    rw [List.map_eq_singleton_iff]
    have hlower : (ascii "chunked").map asciiLower = ascii "chunked" := by decide
    exact exists_congr fun coding => and_congr_right fun _ => by rw [asciiEquals_iff, hlower]
  rw [habsent, hchunked, ne_eq, habsent]
  constructor
  · intro h
    cases h with
    | unframed hte hcl => exact .inl ⟨hte, hcl, rfl⟩
    | length n hte hcl htokens => exact .inr (.inl ⟨n, hte, hcl, (hlengths n).mpr htokens, rfl⟩)
    | chunked coding hcl hcodings hcoding =>
      exact .inr (.inr ⟨hcl, ⟨coding, hcodings, hcoding⟩, rfl⟩)
  · rintro (⟨hte, hcl, rfl⟩ | ⟨n, hte, hcl, htokens, rfl⟩ | ⟨hcl, ⟨coding, hcodings, hcoding⟩, rfl⟩)
    · exact .unframed hte hcl
    · exact .length n hte hcl ((hlengths n).mp htokens)
    · exact .chunked coding hcl hcodings hcoding

/-- **What is announced does not depend on the spelling.** -/
theorem announces_of_respelling (h : Respelling headers headers')
    (hannounces : Announces headers closeDelimited framing) :
    Announces headers' closeDelimited framing := by
  have hte := lowerTokens_of_respelling h (ascii "Transfer-Encoding")
  have hcl := lowerTokens_of_respelling h (ascii "Content-Length")
  rw [announces_iff] at hannounces ⊢
  rcases hannounces with ⟨hnone, hnone', rfl⟩ | ⟨n, hnone, hsome, htokens, rfl⟩ | ⟨hnone, hone, rfl⟩
  · rw [hnone] at hte
    rw [hnone'] at hcl
    exact .inl ⟨List.nil_perm.mp hte, List.nil_perm.mp hcl, rfl⟩
  · rw [hnone] at hte
    refine .inr (.inl ⟨n, List.nil_perm.mp hte, ?_, fun token hmem =>
      htokens token (hcl.mem_iff.mpr hmem), rfl⟩)
    rintro hnil
    rw [hnil] at hcl
    exact hsome (List.perm_nil.mp hcl)
  · rw [hone] at hte
    rw [hnone] at hcl
    exact .inr (.inr ⟨List.nil_perm.mp hcl, List.perm_singleton.mp hte.symm, rfl⟩)

/-- **Body framing is unambiguous**: it succeeds exactly with what the fields announce, whatever
their order, their casing and their lines. -/
theorem framing_unambiguous (headers : HttpHeaders) (closeDelimited : Bool)
    (framing : HttpBodyInfo) :
    (bodyFraming headers closeDelimited = .ok framing ↔ Announces headers closeDelimited framing) ∧
      ∀ headers', Respelling headers headers' →
        (bodyFraming headers' closeDelimited = .ok framing ↔
          bodyFraming headers closeDelimited = .ok framing) := by
  refine ⟨bodyFraming_iff, fun headers' h => ?_⟩
  rw [bodyFraming_iff, bodyFraming_iff]
  exact ⟨announces_of_respelling (h.symm _ _), announces_of_respelling h⟩

/-- A length that is repeated in one field, and in two. -/
theorem framing_unambiguous_repeated :
    bodyFraming [⟨ascii "content-length", ascii "5 ", by decide, by decide⟩,
      ⟨ascii "CONTENT-LENGTH", ascii " 5", by decide, by decide⟩] false = .ok (.contentLength 5) :=
  ((framing_unambiguous [⟨ascii "Content-Length", ascii "5 , 5", by decide, by decide⟩] false
    (.contentLength 5)).2 _ (.rel _ _ (.split [] [] _ _ _ (by decide) (by decide) (by decide)))).mpr
    (by decide)

end Libca.Http
