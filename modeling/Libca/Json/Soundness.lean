import Libca.Json.Completeness

/-!
# What is accepted is derived from the grammar (`json/json_parser.cpp`)

Each function of the parser, started in front of valid UTF-8 with no error reported, either has read
the bytes of a derivation, or has failed with exactly one error reported. The loops never run out.

* `At`, `Reported`: the state before and after, and the state of a failure.
* `parseNumber_sound`, `parseStringInto_sound`: the tokens.
* `parseValue_sound`: the values, by induction on the nesting that is left.
* `parse_iff`: the parser accepts the JSON texts of RFC 8259 whose nesting is in bounds and whose
  numbers `std::from_chars` accepts, reports the events of the derivation, and otherwise reports
  one error.
-/

namespace Libca.Json

open Common Fallible Str

/-- A report of an error. -/
def Event.isError : Event → Bool
  | .onError _ => true
  | _ => false

namespace JsonParser

/-- The parser stands in front of `bs`, at depth `k`, with no error reported. -/
structure At (bs : Bytes) (k : Nat) (s : State) : Prop where
  rest : s.rest = bs
  utf8 : IsUtf8 bs
  depth : s.depth = k
  clean : s.events.countP Event.isError = 0

/-- The parser has failed, and has reported exactly one error. -/
def Reported (e : Stop) (s : State) : Prop :=
  (∃ err, e = .failed err) ∧ s.events.countP Event.isError = 1

section Steps

variable {α : Type} {bs : Bytes} {k : Nat} {Q : α → State → Prop}

/-- One step of a computation from a state in front of `bs`. -/
theorem at_peek {f : UInt8 → Parser α} (h : Triple (At bs k) (f (bs.headD 0)) Q Reported) :
    Triple (At bs k) (peek >>= f) Q Reported := by
  rintro ⟨r, l, d, e⟩ hs
  obtain rfl : r = bs := hs.rest
  exact h _ hs

theorem at_peekNext {f : UInt8 → Parser α} (h : Triple (At bs k) (f (bs.tail.headD 0)) Q Reported) :
    Triple (At bs k) (peekNext >>= f) Q Reported := by
  rintro ⟨r, l, d, e⟩ hs
  obtain rfl : r = bs := hs.rest
  exact h _ hs

theorem at_atEnd {f : Bool → Parser α} (h : Triple (At bs k) (f bs.isEmpty) Q Reported) :
    Triple (At bs k) (atEnd >>= f) Q Reported := by
  rintro ⟨r, l, d, e⟩ hs
  obtain rfl : r = bs := hs.rest
  exact h _ hs

theorem at_remaining {f : Bytes → Parser α} (h : Triple (At bs k) (f bs) Q Reported) :
    Triple (At bs k) (remaining >>= f) Q Reported := by
  rintro ⟨r, l, d, e⟩ hs
  obtain rfl : r = bs := hs.rest
  exact h _ hs

theorem at_location {f : SourceLocation → Parser α} (h : ∀ l, Triple (At bs k) (f l) Q Reported) :
    Triple (At bs k) (location >>= f) Q Reported := by
  rintro ⟨r, l, d, e⟩ hs
  exact h l _ hs

/-- Passing an ASCII byte. -/
theorem at_advance {c : UInt8} (hc : c < 0x80) {f : Unit → Parser α}
    (h : Triple (At bs k) (f ()) Q Reported) :
    Triple (At (c :: bs) k) (advance 1 >>= f) Q Reported := by
  rintro ⟨r, l, d, e⟩ hs
  obtain rfl : r = c :: bs := hs.rest
  exact h _ ⟨rfl, hs.utf8.of_cons (UInt8.lt_iff_toNat_lt.mp hc), hs.depth, hs.clean⟩

theorem at_emit {ev : Event} (hev : ev.isError = false) {f : Unit → Parser α}
    (h : Triple (At bs k) (f ()) Q Reported) : Triple (At bs k) (emit ev >>= f) Q Reported := by
  rintro ⟨r, l, d, e⟩ hs
  refine h _ ⟨hs.rest, hs.utf8, hs.depth, ?_⟩
  simp only [List.countP_append, List.countP_singleton, hev]
  simpa using hs.clean

theorem at_fail (l : SourceLocation) (m : Bytes) : Triple (At bs k) (fail l m) Q Reported := by
  rintro s hs
  refine ⟨⟨_, rfl⟩, ?_⟩
  simp only [List.countP_append, hs.clean]
  rfl

/-- Started in front of `bs`, `x` leaves the parser in front of some rest with `S`. -/
abbrev Reads (bs : Bytes) (k : Nat) (x : Parser α) (S : α → Bytes → Prop) : Prop :=
  Triple (At bs k) x (fun a s => ∃ r, S a r ∧ At r k s) Reported

theorem reads_pure {S : α → Bytes → Prop} {a : α} (h : S a bs) : Reads bs k (pure a) S :=
  triple_pure fun _ hs => ⟨bs, h, hs⟩

theorem reads_advance {S : Unit → Bytes → Prop} {c : UInt8} (hc : c < 0x80) (h : S () bs) :
    Reads (c :: bs) k (advance 1) S := by
  rintro ⟨r, l, d, e⟩ hs
  obtain rfl : r = c :: bs := hs.rest
  exact ⟨bs, h, rfl, hs.utf8.of_cons (UInt8.lt_iff_toNat_lt.mp hc), hs.depth, hs.clean⟩

theorem reads_emit {S : Unit → Bytes → Prop} {ev : Event} (hev : ev.isError = false) (h : S () bs) :
    Reads bs k (emit ev) S := by
  rintro ⟨r, l, d, e⟩ hs
  refine ⟨bs, h, hs.rest, hs.utf8, hs.depth, ?_⟩
  simp only [List.countP_append, List.countP_singleton, hev]
  simpa using hs.clean

/-- The rule of sequencing. -/
theorem reads_bind {β : Type} {x : Parser β} {f : β → Parser α} {S : β → Bytes → Prop}
    (hx : Reads bs k x S) (hf : ∀ b r, S b r → Triple (At r k) (f b) Q Reported) :
    Triple (At bs k) (x >>= f) Q Reported := by
  refine triple_bind hx fun b s => ?_
  rintro ⟨r, hS, hs⟩
  exact hf b r hS s hs

theorem Reads.mono {S S' : α → Bytes → Prop} {x : Parser α} (h : Reads bs k x S)
    (hS : ∀ a r, S a r → S' a r) : Reads bs k x S' :=
  Triple.mono h (fun _ hs => hs) (fun a _ ⟨r, hr, hs⟩ => ⟨r, hS a r hr, hs⟩) fun _ _ h => h

/-- A computation that is known to succeed. -/
theorem reads_of_ok {S : α → Bytes → Prop} {x : Parser α}
    (h : ∀ l e, ∃ a r l', x ⟨bs, l, k, e⟩ = (.ok a, ⟨r, l', k, e⟩) ∧ S a r ∧
      (IsUtf8 bs → IsUtf8 r)) : Reads bs k x S := by
  rintro ⟨r, l, d, e⟩ hs
  obtain rfl : r = bs := hs.rest
  obtain rfl : d = k := hs.depth
  obtain ⟨a, r', l', hx, hS, hutf8⟩ := h l e
  rw [hx]
  exact ⟨r', hS, rfl, hutf8 hs.utf8, rfl, hs.clean⟩

end Steps

/-! ## Whitespace and literals -/

/-- The whitespace in front of a text. -/
def leadingWs (bs : Bytes) : Ws :=
  ⟨bs.takeWhile isWs, fun b hb => by
    have hws := List.all_eq_true.mp List.all_takeWhile b hb
    unfold isWs at hws
    grind⟩

theorem headD_dropWhile {p : UInt8 → Bool} (hp : p 0 = false) (bs : Bytes) :
    p ((bs.dropWhile p).headD 0) = false := by
  induction bs with
  | nil => exact hp
  | cons b bs ih =>
    by_cases hb : p b = true
    · rw [List.dropWhile_cons_of_pos hb]
      exact ih
    · rw [List.dropWhile_cons_of_neg hb]
      exact Bool.eq_false_iff.mpr hb

theorem skipWsAndComments_sound {options : JsonParserOptions} (hopt : options.allowComments = false)
    {bs : Bytes} {k : Nat} : Reads bs k (skipWsAndComments options) fun _ r =>
      ∃ w : Ws, bs = w.bytes ++ r ∧ isWs (r.headD 0) = false := by
  refine reads_of_ok fun l e => ⟨_, _, _, skipWsAndComments_apply hopt bs, ?_, ?_⟩
  · exact ⟨leadingWs bs, List.takeWhile_append_dropWhile.symm, headD_dropWhile rfl bs⟩
  · intro h
    rw [← List.takeWhile_append_dropWhile (p := isWs) (l := bs)] at h
    refine h.of_append_ascii fun b hb => ?_
    rcases (leadingWs bs).space b hb with rfl | rfl | rfl | rfl <;> decide

theorem parseLiteral_sound {bs : Bytes} {k : Nat} {text : Bytes} (v : Bool) (kind : Bytes)
    (htext : ∀ b ∈ text, b < 0x80) :
    Reads bs k (parseLiteral text v kind) fun _ r => bs = text ++ r := by
  unfold parseLiteral
  refine at_location fun l => at_remaining (triple_ite (fun hpre => ?_) fun _ => at_fail _ _)
  obtain ⟨r, rfl⟩ := List.isPrefixOf_iff_prefix.mp hpre
  have hadvance : Reads (text ++ r) k (advance text.length) fun _ r' => r' = r := by
    refine reads_of_ok fun l e => ⟨(), r, l.after text, ?_, rfl, fun h => h.of_append_ascii htext⟩
    have happ := advance_append (l := l) (d := k) (e := e) r text (fun _ => (pure () : Parser Unit))
    exact happ
  refine reads_bind hadvance fun _ r' hr => ?_
  subst hr
  exact triple_ite (fun _ => reads_emit rfl rfl) fun _ => reads_emit rfl rfl

/-! ## Numbers -/

section Numbers

variable {bs : Bytes} {k : Nat}

/-- The digits in front of a text that starts with one. -/
def leadingDigits (bs : Bytes) (h : isDigit (bs.headD 0) = true) : Digits :=
  ⟨bs.takeWhile isDigit, by
    cases bs with
    | nil => cases h
    | cons b bs =>
      rw [List.headD_cons] at h
      rw [List.takeWhile_cons_of_pos h]
      exact List.cons_ne_nil _ _,
    fun b hb => List.all_eq_true.mp List.all_takeWhile b hb⟩

theorem digits_lt {b : UInt8} (h : isDigit b = true) : b < 0x80 := by
  have hrange := isDigit_iff.mp h
  grind

theorem advanceWhile_isDigit_sound (h : isDigit (bs.headD 0) = true) :
    Reads bs k (advanceWhile isDigit) fun _ r => ∃ ds : Digits, bs = ds.bytes ++ r ∧
      ds.bytes.head? = bs.head? := by
  have hsplit : bs = bs.takeWhile isDigit ++ bs.dropWhile isDigit :=
    List.takeWhile_append_dropWhile.symm
  refine reads_of_ok fun l e => ⟨bs.takeWhile isDigit, bs.dropWhile isDigit,
    l.after (bs.takeWhile isDigit), ?_, ⟨leadingDigits bs h, hsplit, ?_⟩, ?_⟩
  · conv_lhs => rw [hsplit]
    exact advanceWhile_append (leadingDigits bs h).digit (headD_dropWhile rfl bs)
  · cases bs with
    | nil => cases h
    | cons b bs =>
      rw [List.headD_cons] at h
      show ((b :: bs).takeWhile isDigit).head? = some b
      rw [List.takeWhile_cons_of_pos h]
      rfl
  · intro hutf8
    rw [hsplit] at hutf8
    exact hutf8.of_append_ascii fun b hb => digits_lt ((leadingDigits bs h).digit b hb)

theorem minusSign_sound : Reads bs k minusSign fun _ r =>
    ∃ minus : Bool, bs = Number.minusText minus ++ r := by
  unfold minusSign
  refine at_peek (triple_ite (fun hc => ?_) fun _ => reads_pure ⟨false, rfl⟩)
  cases bs with
  | nil => cases hc
  | cons c bs =>
    obtain rfl : c = 45 := hc
    exact reads_advance (by decide) ⟨true, rfl⟩

theorem integerPart_sound (start : SourceLocation) : Reads bs k (integerPart start) fun _ r =>
    ∃ ds : Digits, (ds.bytes.head? = some 48 → ds.bytes = [48]) ∧ bs = ds.bytes ++ r := by
  unfold integerPart
  refine at_peek (triple_ite (fun hc => ?_) fun hc0 => triple_ite (fun hc => ?_) fun _ =>
    at_fail _ _)
  · cases bs with
    | nil => cases hc
    | cons c bs =>
      obtain rfl : c = 48 := hc
      refine at_advance (by decide) (at_peek (triple_ite (fun _ => at_fail _ _) fun _ => ?_))
      exact reads_pure ⟨⟨[48], by decide, by decide⟩, fun _ => rfl, rfl⟩
  · refine reads_bind (advanceWhile_isDigit_sound (by unfold isDigit; grind)) fun _ r hr => ?_
    obtain ⟨ds, hds, hhead⟩ := hr
    refine reads_pure ⟨ds, fun h48 => absurd ?_ hc0, hds⟩
    rw [hhead] at h48
    cases bs with
    | nil => cases h48
    | cons c bs => exact Option.some.inj h48

/-- The digits that a fraction or an exponent needs. -/
theorem someDigits_sound {m : Bytes} (start : SourceLocation) {f : Bool} :
    Reads bs k (do
      let d ← peek
      if !isDigit d then fail start m
      else
        let _ ← advanceWhile isDigit
        return f) fun b r => b = f ∧ ∃ ds : Digits, bs = ds.bytes ++ r := by
  refine at_peek (triple_ite (fun _ => at_fail _ _) fun hd => ?_)
  refine reads_bind (advanceWhile_isDigit_sound (by simpa using hd)) fun _ r hr => ?_
  obtain ⟨ds, hds, -⟩ := hr
  exact reads_pure ⟨rfl, ds, hds⟩

theorem fractionPart_sound (start : SourceLocation) : Reads bs k (fractionPart start) fun b r =>
    ∃ frac : Option Digits, b = frac.isSome ∧
      bs = Number.fracText frac ++ r := by
  unfold fractionPart
  refine at_peek (triple_ite (fun hc => ?_) fun _ => reads_pure ⟨none, rfl, rfl⟩)
  cases bs with
  | nil => cases hc
  | cons c bs =>
    obtain rfl : c = 46 := hc
    refine at_advance (by decide) ((someDigits_sound start).mono ?_)
    rintro b r ⟨rfl, ds, rfl⟩
    exact ⟨some ds, rfl, rfl⟩

theorem exponentSign_sound : Reads bs k exponentSign fun _ r =>
    ∃ sign : Option Bool, bs = Exponent.signText sign ++ r := by
  unfold exponentSign
  refine at_peek (triple_ite (fun hc => ?_) fun _ => reads_pure ⟨none, rfl⟩)
  cases bs with
  | nil => exact absurd hc (by decide)
  | cons c bs =>
    rw [List.headD_cons] at hc
    obtain rfl | rfl := hc
    · exact reads_advance (by decide) ⟨some false, rfl⟩
    · exact reads_advance (by decide) ⟨some true, rfl⟩

theorem exponentPart_sound (start : SourceLocation) : Reads bs k (exponentPart start) fun b r =>
    ∃ exp : Option Exponent, b = exp.isSome ∧
      bs = Number.expText exp ++ r := by
  unfold exponentPart
  refine at_peek (triple_ite (fun hc => ?_) fun _ => reads_pure ⟨none, rfl, rfl⟩)
  cases bs with
  | nil => exact absurd hc (by decide)
  | cons c bs =>
    rw [List.headD_cons] at hc
    refine at_advance (by grind) (reads_bind exponentSign_sound fun _ r hr => ?_)
    obtain ⟨sign, rfl⟩ := hr
    refine (someDigits_sound start).mono ?_
    rintro b r ⟨rfl, ds, rfl⟩
    obtain rfl | rfl := hc
    · exact ⟨some ⟨false, sign, ds⟩, rfl, by simp [Number.expText, Exponent.text]⟩
    · exact ⟨some ⟨true, sign, ds⟩, rfl, by simp [Number.expText, Exponent.text]⟩

theorem parseNumber_sound (std : DoubleChars) : Reads bs k (parseNumber std) fun _ r =>
    ∃ n : Number, (n.value std).isSome = true ∧ bs = n.text ++ r := by
  unfold parseNumber
  refine at_location fun l => at_remaining (reads_bind minusSign_sound fun _ r hr => ?_)
  obtain ⟨minus, hminus⟩ := hr
  refine reads_bind (integerPart_sound l) fun _ r₁ hr => ?_
  obtain ⟨int, hlead, rfl⟩ := hr
  refine reads_bind (fractionPart_sound l) fun _ r₂ hr => ?_
  obtain ⟨frac, rfl, rfl⟩ := hr
  refine reads_bind (exponentPart_sound l) fun _ r₃ hr => ?_
  obtain ⟨exp, rfl, rfl⟩ := hr
  have htext : bs = (Number.mk minus int hlead frac exp).text ++ r₃ := by
    rw [hminus]
    simp [Number.text]
  have htake : bs.take (bs.length - r₃.length) = (Number.mk minus int hlead frac exp).text := by
    rw [htext, List.length_append, Nat.add_sub_cancel, List.take_left]
  refine at_remaining ?_
  rw [htake]
  obtain ⟨v, hv, hevent⟩ | ⟨-, m, hevent⟩ := numberEvent_text std ⟨minus, int, hlead, frac, exp⟩ l
  · rw [hevent]
    refine reads_emit (by cases v <;> rfl) ⟨_, ?_, htext⟩
    rw [hv]
    rfl
  · rw [hevent]
    exact at_fail _ _

end Numbers

/-! ## Strings -/

section Strings

variable {bs : Bytes} {k : Nat}

theorem isPlain_of_le {b : UInt8} (h : 0x80 ≤ b.toNat) : isPlain b = true := by
  simp only [isPlain, Bool.and_eq_true, bne_iff_ne, ne_eq, decide_eq_true_eq,
    ← UInt8.toNat_inj, UInt8.le_iff_toNat_le]
  refine ⟨⟨fun h34 => ?_, fun h92 => ?_⟩, Nat.le_trans (by decide) h⟩
  · rw [h34] at h
    exact absurd h (by decide)
  · rw [h92] at h
    exact absurd h (by decide)

/-- A character whose bytes may stand in a string as they are. -/
theorem plain_of_isPlain {c : Char} (h : ∀ b ∈ String.utf8EncodeChar c, isPlain b = true) :
    0x20 ≤ c.toNat ∧ c ≠ '"' ∧ c ≠ '\\' := by
  obtain ⟨hascii, hone⟩ | ⟨hascii, -⟩ := utf8EncodeChar_ascii_or c
  · have hplain := h (UInt8.ofNat c.toNat) (by rw [hone]; exact .head _)
    simp only [isPlain, Bool.and_eq_true, bne_iff_ne, ne_eq, decide_eq_true_eq,
      ← UInt8.toNat_inj, UInt8.le_iff_toNat_le, toNat_ofNat_byte (Nat.lt_trans hascii (by decide))]
      at hplain
    refine ⟨hplain.2, ?_, ?_⟩
    · rintro rfl
      exact hplain.1.1 rfl
    · rintro rfl
      exact hplain.1.2 rfl
  · refine ⟨by omega, ?_, ?_⟩
    · rintro rfl
      exact absurd hascii (by decide)
    · rintro rfl
      exact absurd hascii (by decide)

/-- Encoded characters that may stand as they are, as characters of a string. -/
theorem exists_items_of_isPlain {cs : List Char} (h : ∀ b ∈ encode cs, isPlain b = true) :
    ∃ items : List Item, items.flatMap Item.text = encode cs := by
  induction cs with
  | nil => exact ⟨[], rfl⟩
  | cons c cs ih =>
    rw [encode_cons] at h
    obtain ⟨items, hitems⟩ := ih fun b hb => h b (List.mem_append_right _ hb)
    refine ⟨.plain c (plain_of_isPlain fun b hb => h b (List.mem_append_left _ hb)) :: items, ?_⟩
    rw [List.flatMap_cons, hitems, encode_cons]
    rfl

theorem advanceWhile_isPlain_sound : Reads bs k (advanceWhile isPlain) fun run r =>
    run = bs.takeWhile isPlain ∧ (∃ items : List Item, bs = items.flatMap Item.text ++ r) ∧
      isPlain (r.headD 0) = false := by
  rintro ⟨rest, l, d, e⟩ hs
  obtain rfl : rest = bs := hs.rest
  obtain rfl : d = k := hs.depth
  obtain ⟨cs, hcs⟩ := hs.utf8
  obtain ⟨ds, es, -, htake, hdrop⟩ := takeWhile_encode isPlain (fun b => isPlain_of_le) cs
  rw [← hcs] at htake hdrop
  have hall : ∀ b ∈ rest.takeWhile isPlain, isPlain b = true := fun b hb =>
    List.all_eq_true.mp List.all_takeWhile b hb
  have hsplit : rest = rest.takeWhile isPlain ++ rest.dropWhile isPlain :=
    List.takeWhile_append_dropWhile.symm
  have hhead := headD_dropWhile (p := isPlain) rfl rest
  have hrun := advanceWhile_append (l := l) (d := d) (e := e) hall hhead
  rw [← hsplit] at hrun
  rw [hrun]
  obtain ⟨items, hitems⟩ := exists_items_of_isPlain (by rw [← htake]; exact hall)
  refine ⟨rest.dropWhile isPlain, ⟨rfl, ⟨items, ?_⟩, hhead⟩, rfl, ⟨es, hdrop⟩, rfl, hs.clean⟩
  rw [hitems, ← htake]
  exact hsplit

/-- The digits that `parse_hex4` accepts. -/
theorem parseHex4_eq_some {v : Nat} (hlen : 4 ≤ bs.length) (h : parseHex4 bs = some v) :
    ∃ q : HexQuad, q.value = v ∧ bs = q.bytes ++ bs.drop 4 := by
  have hhex : ∀ b ∈ bs.take 4, IsHexDigit b := by
    unfold parseHex4 at h
    generalize bs.take 4 = ds at h
    generalize (0 : Nat) = acc at h
    induction ds generalizing acc with
    | nil => simp
    | cons c ds ih =>
      rw [List.foldlM_cons, hexDigit_eq] at h
      by_cases hc : IsHexDigit c
      · rw [if_pos hc] at h
        simp only [Option.map_some, Option.bind_eq_bind, Option.bind_some] at h
        intro b hb
        obtain rfl | hb := List.mem_cons.mp hb
        · exact hc
        · exact ih _ h b hb
      · rw [if_neg hc] at h
        cases h
  have hq : (bs.take 4).length = 4 := List.length_take_of_le hlen
  refine ⟨⟨bs.take 4, hq, hhex⟩, ?_, (List.take_append_drop 4 bs).symm⟩
  have htext := parseHex4_text ⟨bs.take 4, hq, hhex⟩ (bs.drop 4)
  rw [List.take_append_drop, h] at htext
  exact (Option.some.inj htext).symm

theorem hex4_sound (start : SourceLocation) (m m' : Bytes) :
    Reads bs k (hex4 start m m') fun v r => ∃ q : HexQuad, q.value = v ∧ bs = q.bytes ++ r := by
  unfold hex4
  refine at_remaining (triple_ite (fun _ => at_fail _ _) fun hlen => ?_)
  cases hhex : parseHex4 bs with
  | none => exact at_fail _ _
  | some v =>
    obtain ⟨q, hv, hq⟩ := parseHex4_eq_some (Nat.not_lt.mp hlen) hhex
    have hadvance : Reads bs k (advance 4) fun _ r => r = bs.drop 4 := by
      refine reads_of_ok fun l e => ⟨(), bs.drop 4, _, rfl, rfl, fun h => ?_⟩
      rw [hq] at h
      exact h.of_append_ascii (hexQuad_lt q)
    refine reads_bind hadvance fun _ r hr => ?_
    subst hr
    exact reads_pure ⟨q, hv, hq⟩

theorem appendCodePoint_sound (start : SourceLocation) (cp : Nat) (m : Bytes) :
    Reads bs k (appendCodePoint start cp m) fun _ r => r = bs := by
  unfold appendCodePoint
  cases encodeCodePoint cp with
  | none => exact at_fail _ _
  | some bytes => exact reads_pure rfl

theorem lowSurrogate_sound (start : SourceLocation) (cp : Nat) :
    Reads bs k (lowSurrogate start cp) fun _ r => ∃ low : HexQuad,
      (0xDC00 ≤ low.value ∧ low.value ≤ 0xDFFF) ∧ bs = [92, 117] ++ (low.bytes ++ r) := by
  unfold lowSurrogate
  refine at_peek (at_peekNext (triple_ite (fun hc => ?_) fun _ => at_fail _ _))
  obtain ⟨hc, hd⟩ := hc
  have hbs : ∃ r, bs = [92, 117] ++ r := by
    cases bs with
    | nil => cases hc
    | cons c bs =>
      cases bs with
      | nil => exact absurd hd (show ¬ (0 : UInt8) = 117 by decide)
      | cons d bs =>
        obtain rfl : c = 92 := hc
        obtain rfl : d = 117 := hd
        exact ⟨bs, rfl⟩
  obtain ⟨r, rfl⟩ := hbs
  have hadvance : Reads ([92, 117] ++ r) k (advance 2) fun _ r' => r' = r :=
    reads_of_ok fun l e => ⟨(), r, _, rfl, rfl, fun h => h.of_append_ascii (by decide)⟩
  refine reads_bind hadvance fun _ r' hr => ?_
  subst hr
  refine reads_bind (hex4_sound _ _ _) fun v r' hr => ?_
  obtain ⟨low, rfl, rfl⟩ := hr
  refine triple_ite (fun hlow => ?_) fun _ => at_fail _ _
  refine (appendCodePoint_sound _ _ _).mono ?_
  rintro _ r rfl
  exact ⟨low, hlow, rfl⟩

theorem escape_sound (start : SourceLocation) (esc : UInt8) : Reads bs k (escape start esc)
    fun _ r => ∃ i t, IsEscape i esc t ∧ bs = t ++ r := by
  unfold escape
  cases hesc : shortEscape esc with
  | some c =>
    have hletter : ∃ x : ShortEscape, x.letter = esc := by
      unfold shortEscape at hesc
      split_ifs at hesc with h34 h92 h47 h98 h102 h110 h114 h116
      · exact ⟨.quote, h34.symm⟩
      · exact ⟨.backslash, h92.symm⟩
      · exact ⟨.slash, h47.symm⟩
      · exact ⟨.b, h98.symm⟩
      · exact ⟨.f, h102.symm⟩
      · exact ⟨.n, h110.symm⟩
      · exact ⟨.r, h114.symm⟩
      · exact ⟨.t, h116.symm⟩
    obtain ⟨x, rfl⟩ := hletter
    exact reads_pure ⟨_, _, .short x, rfl⟩
  | none =>
    refine triple_ite (fun h117 => ?_) fun _ => at_fail _ _
    subst h117
    unfold unicodeEscape
    refine reads_bind (hex4_sound _ _ _) fun v r hr => ?_
    obtain ⟨q, rfl, rfl⟩ := hr
    refine triple_ite (fun hhigh => ?_) fun hhigh => triple_ite (fun _ => at_fail _ _) fun hlow =>
      ?_
    · refine (lowSurrogate_sound _ _).mono ?_
      rintro _ r ⟨low, hlow, rfl⟩
      exact ⟨_, _, .pair q low hhigh hlow, by simp⟩
    · refine (appendCodePoint_sound _ _ _).mono ?_
      rintro _ r rfl
      exact ⟨_, _, .unicode q (by omega), rfl⟩

/-- No escape starts with a byte outside ASCII. -/
theorem escape_of_le {esc : UInt8} (hesc : ¬ esc < 0x80) (start : SourceLocation) :
    escape start esc = fail start (ascii "invalid escape character") := by
  have hne : shortEscape esc = none := by
    unfold shortEscape
    grind
  have h117 : esc ≠ 117 := by
    rintro rfl
    exact hesc (by decide)
  unfold escape
  rw [hne]
  exact if_neg h117

/-- An escape behind its backslash. -/
theorem advance_escape_sound (start : SourceLocation) {esc : UInt8} {α : Type}
    {f : Bytes → Parser α} {Q : α → State → Prop}
    (h : ∀ i t r b, IsEscape i esc t → bs = t ++ r → Triple (At r k) (f b) Q Reported) :
    Triple (At (esc :: bs) k) (advance 1 >>= fun _ => escape start esc >>= f) Q Reported := by
  by_cases hesc : esc < 0x80
  · refine at_advance hesc (reads_bind (escape_sound start esc) fun b r hr => ?_)
    obtain ⟨i, t, hi, hbs⟩ := hr
    exact h i t r b hi hbs
  · rintro ⟨r, l, d, e⟩ hs
    obtain rfl : r = esc :: bs := hs.rest
    have hfail : (fail start (ascii "invalid escape character") : Parser Bytes)
        ⟨bs, l.next esc, d, e⟩ = (.error (.failed ⟨start, ascii "invalid escape character"⟩),
          ⟨bs, l.next esc, d, e ++ [.onError ⟨start, ascii "invalid escape character"⟩]⟩) := rfl
    rw [advance_cons, escape_of_le hesc, bind_error hfail]
    refine ⟨⟨_, rfl⟩, ?_⟩
    rw [List.countP_append, hs.clean]
    rfl

/-- The slow path reads characters up to a quotation mark. -/
theorem stringLoop_sound (start : SourceLocation) {fuel : Nat} (hfuel : bs.length < fuel)
    (sb : Bytes) : Reads bs k (stringLoop start fuel sb) fun _ r =>
      ∃ items : List Item, bs = items.flatMap Item.text ++ 34 :: r := by
  induction fuel generalizing bs sb with
  | zero => exact absurd hfuel (Nat.not_lt_zero _)
  | succ n ih =>
    rw [stringLoop]
    refine at_atEnd (triple_ite (fun _ => at_fail _ _) fun hend => ?_)
    cases bs with
    | nil => exact absurd rfl hend
    | cons c bs =>
      rw [List.length_cons] at hfuel
      refine at_peek (triple_ite (fun hc => ?_) fun h34 => triple_ite (fun hc => ?_) fun h92 =>
        triple_ite (fun _ => at_fail _ _) fun hctl => ?_)
      · obtain rfl : c = 34 := hc
        refine at_advance (by decide) ?_
        exact reads_pure ⟨[], rfl⟩
      · obtain rfl : c = 92 := hc
        refine at_advance (by decide) (at_atEnd (triple_ite (fun _ => at_fail _ _) fun hend => ?_))
        cases bs with
        | nil => exact absurd rfl hend
        | cons esc bs =>
          rw [List.length_cons] at hfuel
          refine at_peek (advance_escape_sound start fun i t r b hi hbs => ?_)
          subst hbs
          rw [List.length_append] at hfuel
          refine (ih (by omega) (sb ++ b)).mono ?_
          rintro _ r' ⟨items, rfl⟩
          exact ⟨i :: items, by rw [List.flatMap_cons, hi.text_eq]; simp⟩
      · have hplain : isPlain c = true := by
          rw [List.headD_cons] at h34 h92 hctl
          unfold isPlain
          grind
        refine reads_bind advanceWhile_isPlain_sound fun run r hr => ?_
        obtain ⟨-, ⟨items, hitems⟩, hhead⟩ := hr
        have hlen : r.length < n := by
          have hsum := congrArg List.length hitems
          rw [List.length_cons, List.length_append] at hsum
          cases htext : items.flatMap Item.text with
          | nil =>
            rw [htext, List.nil_append] at hitems
            rw [← hitems, List.headD_cons, hplain] at hhead
            cases hhead
          | cons b bs' =>
            rw [htext, List.length_cons] at hsum
            omega
        refine (ih hlen (sb ++ run)).mono ?_
        rintro _ r' ⟨items', rfl⟩
        exact ⟨items ++ items', by rw [hitems, List.flatMap_append, List.append_assoc]⟩

/-- A string is read up to its closing quotation mark. -/
theorem parseStringInto_sound : Reads (34 :: bs) k parseStringInto fun _ r =>
    ∃ s : StringLit, 34 :: bs = s.text ++ r := by
  have hlit : ∀ (items : List Item) (r : Bytes),
      34 :: (items.flatMap Item.text ++ 34 :: r) = (StringLit.mk items).text ++ r := by
    intro items r
    simp [StringLit.text, StringLit.body]
  unfold parseStringInto
  refine at_location fun l => at_advance (by decide) (reads_bind advanceWhile_isPlain_sound
    fun run r hr => ?_)
  obtain ⟨-, ⟨items, rfl⟩, -⟩ := hr
  refine at_atEnd (triple_ite (fun _ => at_fail _ _) fun hend => ?_)
  cases r with
  | nil => exact absurd rfl hend
  | cons c r =>
    refine at_peek (triple_ite (fun hc => ?_) fun h34 => triple_ite (fun hc => ?_) fun _ =>
      at_fail _ _)
    · obtain rfl : c = 34 := hc
      exact at_advance (by decide) (reads_pure ⟨⟨items⟩, hlit items r⟩)
    · refine at_remaining (reads_bind (stringLoop_sound l (Nat.lt_succ_self _) run)
        fun sb r' hr => ?_)
      obtain ⟨items', hitems'⟩ := hr
      refine reads_pure ⟨⟨items ++ items'⟩, ?_⟩
      rw [← hlit, List.flatMap_append, hitems', List.append_assoc]

end Strings

/-! ## Values -/

/-- Whitespace followed by whitespace. -/
def appendWs (w w' : Ws) : Ws :=
  ⟨w.bytes ++ w'.bytes, fun b hb => (List.mem_append.mp hb).elim (w.space b) (w'.space b)⟩

section Values

variable {std : DoubleChars} {options : JsonParserOptions} {bs : Bytes} {k : Nat}

/-- A value in front of the rest `r`, nested within the bound. -/
def ReadValue (std : DoubleChars) (options : JsonParserOptions) (bs : Bytes) (k : Nat)
    (r : Bytes) : Prop :=
  ∃ (w : Ws) (v : Value), bs = w.bytes ++ (v.text ++ r) ∧ v.Accepted std ∧
    k + v.depth ≤ options.maxDepth

theorem trailingComma_sound (hopt : options.allowTrailingComma = false)
    (close : SourceLocation → Event) (m : Bytes) (S : Unit → Bytes → Prop) :
    Reads bs k (trailingComma options close m) S := by
  unfold trailingComma
  rw [hopt, if_neg Bool.false_ne_true]
  exact at_location fun l => at_fail _ _

theorem headD_eq {c : UInt8} (h : bs.headD 0 = c) (hc : c ≠ 0) : ∃ r, bs = c :: r := by
  cases bs with
  | nil => exact absurd h.symm hc
  | cons b bs => exact ⟨bs, by rw [← h, List.headD_cons]⟩

/-- The closing bracket of an array or an object. -/
theorem close_sound {c : UInt8} (hc : c < 0x80) {close : SourceLocation → Event}
    (hclose : ∀ l, (close l).isError = false) {S : Unit → Bytes → Prop} (hS : S () bs) :
    Reads (c :: bs) k (do
      advance 1
      let loc ← location
      emit (close loc)) S :=
  at_advance hc (at_location fun l => reads_emit (hclose l) hS)

variable {value : Parser Unit}

theorem arrayLoop_sound (hcomments : options.allowComments = false)
    (hcomma : options.allowTrailingComma = false)
    (hvalue : ∀ bs, Reads bs k value fun _ => ReadValue std options bs k) {fuel : Nat}
    (hfuel : bs.length < fuel) : Reads bs k (arrayLoop options value fuel) fun _ r =>
      ∃ (w : Ws) (es : Elements), bs = w.bytes ++ (es.text ++ 93 :: r) ∧ es.Accepted std ∧
        k + es.depth ≤ options.maxDepth := by
  induction fuel generalizing bs with
  | zero => exact absurd hfuel (Nat.not_lt_zero _)
  | succ n ih =>
    rw [arrayLoop]
    refine reads_bind (hvalue bs) fun _ r hr => ?_
    obtain ⟨w, v, rfl, hacc, hdepth⟩ := hr
    refine reads_bind (skipWsAndComments_sound hcomments) fun _ r' hr => ?_
    obtain ⟨after, rfl, -⟩ := hr
    refine at_peek (triple_ite (fun hc => ?_) fun _ => triple_ite (fun hc => ?_) fun _ =>
      at_location fun l => at_fail _ _)
    · obtain ⟨r, rfl⟩ := headD_eq hc (by decide)
      refine at_advance (by decide) (reads_bind (skipWsAndComments_sound hcomments)
        fun _ r' hr => ?_)
      obtain ⟨before, rfl, -⟩ := hr
      refine at_peek (triple_ite (fun _ => trailingComma_sound hcomma _ _ _) fun _ => ?_)
      simp only [List.length_append, List.length_cons] at hfuel
      refine (ih (by omega)).mono ?_
      rintro _ r ⟨w', es, rfl, haccs, hdepths⟩
      refine ⟨w, .cons v after (appendWs before w') es, ?_, ⟨hacc, haccs⟩, ?_⟩
      · simp [Elements.text, appendWs]
      · rw [Elements.depth]
        omega
    · obtain ⟨r, rfl⟩ := headD_eq hc (by decide)
      refine close_sound (by decide) (fun _ => rfl) ⟨w, .one v after, ?_, hacc, ?_⟩
      · simp [Elements.text]
      · rw [Elements.depth]
        exact hdepth

theorem memberKey_sound (hcomments : options.allowComments = false) :
    Reads bs k (memberKey options) fun _ r => ∃ (key : StringLit) (w : Ws),
      bs = key.text ++ (w.bytes ++ 58 :: r) := by
  unfold memberKey
  refine at_peek (triple_ite (fun hc => ?_) fun _ => at_location fun l => at_fail _ _)
  obtain ⟨r, rfl⟩ := headD_eq hc (by decide)
  refine at_location fun l => reads_bind parseStringInto_sound fun b r' hr => ?_
  obtain ⟨key, hkey⟩ := hr
  refine at_emit rfl (reads_bind (skipWsAndComments_sound hcomments) fun _ r'' hr => ?_)
  obtain ⟨w, rfl, -⟩ := hr
  refine at_peek (triple_ite (fun hc => ?_) fun _ => at_location fun l => at_fail _ _)
  obtain ⟨r, rfl⟩ := headD_eq hc (by decide)
  exact reads_advance (by decide) ⟨key, w, hkey⟩

theorem objectLoop_sound (hcomments : options.allowComments = false)
    (hcomma : options.allowTrailingComma = false)
    (hvalue : ∀ bs, Reads bs k value fun _ => ReadValue std options bs k) {fuel : Nat}
    (hfuel : bs.length < fuel) : Reads bs k (objectLoop options value fuel) fun _ r =>
      ∃ (w : Ws) (ms : Members), bs = w.bytes ++ (ms.text ++ 125 :: r) ∧ ms.Accepted std ∧
        k + ms.depth ≤ options.maxDepth := by
  induction fuel generalizing bs with
  | zero => exact absurd hfuel (Nat.not_lt_zero _)
  | succ n ih =>
    rw [objectLoop]
    refine reads_bind (skipWsAndComments_sound hcomments) fun _ r hr => ?_
    obtain ⟨w, rfl, -⟩ := hr
    refine reads_bind (memberKey_sound hcomments) fun _ r' hr => ?_
    obtain ⟨key, w₁, rfl⟩ := hr
    refine reads_bind (hvalue r') fun _ r hr => ?_
    obtain ⟨w₂, v, rfl, hacc, hdepth⟩ := hr
    refine reads_bind (skipWsAndComments_sound hcomments) fun _ r' hr => ?_
    obtain ⟨after, rfl, -⟩ := hr
    refine at_peek (triple_ite (fun hc => ?_) fun _ => triple_ite (fun hc => ?_) fun _ =>
      at_location fun l => at_fail _ _)
    · obtain ⟨r, rfl⟩ := headD_eq hc (by decide)
      refine at_advance (by decide) (reads_bind (skipWsAndComments_sound hcomments)
        fun _ r' hr => ?_)
      obtain ⟨before, rfl, -⟩ := hr
      refine at_peek (triple_ite (fun _ => trailingComma_sound hcomma _ _ _) fun _ => ?_)
      simp only [List.length_append, List.length_cons] at hfuel
      refine (ih (by omega)).mono ?_
      rintro _ r ⟨w', ms, rfl, haccs, hdepths⟩
      refine ⟨w, .cons key w₁ w₂ v after (appendWs before w') ms, ?_, ⟨hacc, haccs⟩, ?_⟩
      · simp [Members.text, appendWs]
      · rw [Members.depth]
        omega
    · obtain ⟨r, rfl⟩ := headD_eq hc (by decide)
      refine close_sound (by decide) (fun _ => rfl) ⟨w, .one key w₁ w₂ v after, ?_, hacc, ?_⟩
      · simp [Members.text]
      · rw [Members.depth]
        exact hdepth

theorem enter_sound (start : SourceLocation) :
    Triple (At bs k) (enter options start)
      (fun _ s => k + 1 ≤ options.maxDepth ∧ At bs (k + 1) s) Reported := by
  rintro ⟨r, l, d, e⟩ hs
  obtain rfl : d = k := hs.depth
  unfold enter
  rw [modify_bind_apply, gets_bind_apply]
  by_cases hdepth : options.maxDepth < d + 1
  · rw [if_pos hdepth]
    refine ⟨⟨_, rfl⟩, ?_⟩
    simp only [List.countP_append, hs.clean]
    rfl
  · rw [if_neg hdepth]
    exact ⟨Nat.not_lt.mp hdepth, hs.rest, hs.utf8, rfl, hs.clean⟩

/-- Leaving a level. -/
theorem leave_sound {S : Unit → Bytes → Prop} (hS : S () bs) :
    Triple (At bs (k + 1)) leave (fun a s => ∃ r, S a r ∧ At r k s) Reported := by
  rintro ⟨r, l, d, e⟩ hs
  obtain rfl : d = k + 1 := hs.depth
  exact ⟨bs, hS, hs.rest, hs.utf8, rfl, hs.clean⟩

theorem parseArray_sound (hcomments : options.allowComments = false)
    (hcomma : options.allowTrailingComma = false) (hvalue : k + 1 ≤ options.maxDepth →
      ∀ bs, Reads bs (k + 1) value fun _ => ReadValue std options bs (k + 1)) :
    Reads (91 :: bs) k (parseArray options value) fun _ r => ∃ v : Value,
      91 :: bs = v.text ++ r ∧ v.Accepted std ∧ k + v.depth ≤ options.maxDepth := by
  unfold parseArray
  refine at_location fun l => at_advance (by decide) (triple_bind (enter_sound l) fun _ => ?_)
  rintro s ⟨hdepth, hs⟩
  revert s
  refine at_emit rfl (reads_bind (skipWsAndComments_sound hcomments) fun _ r hr => ?_)
  obtain ⟨w, rfl, -⟩ := hr
  refine at_peek (triple_ite (fun hc => ?_) fun _ => ?_)
  · obtain ⟨r, rfl⟩ := headD_eq hc (by decide)
    refine at_advance (by decide) (at_location fun l => at_emit rfl (leave_sound ?_))
    exact ⟨.emptyArray w, by simp [Value.text], trivial, by rw [Value.depth]; exact hdepth⟩
  · refine at_remaining (reads_bind
      (arrayLoop_sound hcomments hcomma (hvalue hdepth) (Nat.lt_succ_self _)) fun _ r' hr => ?_)
    obtain ⟨w', es, rfl, hacc, hdepths⟩ := hr
    refine leave_sound ⟨.array (appendWs w w') es, by simp [Value.text, appendWs], hacc, ?_⟩
    rw [Value.depth]
    omega

theorem parseObject_sound (hcomments : options.allowComments = false)
    (hcomma : options.allowTrailingComma = false) (hvalue : k + 1 ≤ options.maxDepth →
      ∀ bs, Reads bs (k + 1) value fun _ => ReadValue std options bs (k + 1)) :
    Reads (123 :: bs) k (parseObject options value) fun _ r => ∃ v : Value,
      123 :: bs = v.text ++ r ∧ v.Accepted std ∧ k + v.depth ≤ options.maxDepth := by
  unfold parseObject
  refine at_location fun l => at_advance (by decide) (triple_bind (enter_sound l) fun _ => ?_)
  rintro s ⟨hdepth, hs⟩
  revert s
  refine at_emit rfl (reads_bind (skipWsAndComments_sound hcomments) fun _ r hr => ?_)
  obtain ⟨w, rfl, -⟩ := hr
  refine at_peek (triple_ite (fun hc => ?_) fun _ => ?_)
  · obtain ⟨r, rfl⟩ := headD_eq hc (by decide)
    refine at_advance (by decide) (at_location fun l => at_emit rfl (leave_sound ?_))
    exact ⟨.emptyObject w, by simp [Value.text], trivial, by rw [Value.depth]; exact hdepth⟩
  · refine at_remaining (reads_bind
      (objectLoop_sound hcomments hcomma (hvalue hdepth) (Nat.lt_succ_self _)) fun _ r' hr => ?_)
    obtain ⟨w', ms, rfl, hacc, hdepths⟩ := hr
    refine leave_sound ⟨.object (appendWs w w') ms, by simp [Value.text, appendWs], hacc, ?_⟩
    rw [Value.depth]
    omega

/-- **What is read as a value is derived from the grammar.** -/
theorem parseValue_sound (hcomments : options.allowComments = false)
    (hcomma : options.allowTrailingComma = false) {n : Nat} (hn : k + n = options.maxDepth + 1)
    (hk : k ≤ options.maxDepth) : Reads bs k (parseValue std options n) fun _ =>
      ReadValue std options bs k := by
  induction n generalizing bs k with
  | zero => omega
  | succ n ih =>
    have hscalar : ∀ {w : Ws} {v : Value} {r : Bytes}, v.depth = 0 → v.Accepted std →
        ReadValue std options (w.bytes ++ (v.text ++ r)) k r := fun hv hacc =>
      ⟨_, _, rfl, hacc, by omega⟩
    rw [parseValue]
    refine reads_bind (skipWsAndComments_sound hcomments) fun _ r hr => ?_
    obtain ⟨w, rfl, -⟩ := hr
    refine at_atEnd (triple_ite (fun _ => at_location fun l => at_fail _ _) fun _ => at_peek ?_)
    have hinner : k + 1 ≤ options.maxDepth → ∀ bs, Reads bs (k + 1) (parseValue std options n)
        fun _ => ReadValue std options bs (k + 1) := fun hdepth bs => ih (by omega) hdepth
    unfold dispatch
    refine triple_ite (fun hc => ?_) fun _ => triple_ite (fun hc => ?_) fun _ =>
      triple_ite (fun hc => ?_) fun _ => triple_ite (fun hc => ?_) fun _ =>
      triple_ite (fun hc => ?_) fun _ => triple_ite (fun hc => ?_) fun _ =>
      triple_ite (fun hc => ?_) fun _ => at_location fun l => at_fail _ _
    · obtain ⟨r, rfl⟩ := headD_eq hc (by decide)
      refine (parseObject_sound hcomments hcomma hinner).mono ?_
      rintro _ r' ⟨v, hv, hacc, hdepth⟩
      exact ⟨w, v, by rw [hv], hacc, hdepth⟩
    · obtain ⟨r, rfl⟩ := headD_eq hc (by decide)
      refine (parseArray_sound hcomments hcomma hinner).mono ?_
      rintro _ r' ⟨v, hv, hacc, hdepth⟩
      exact ⟨w, v, by rw [hv], hacc, hdepth⟩
    · obtain ⟨r, rfl⟩ := headD_eq hc (by decide)
      unfold parseStringValue
      refine at_location fun l => reads_bind parseStringInto_sound fun b r' hr => ?_
      obtain ⟨s, hs⟩ := hr
      rw [hs]
      exact reads_emit rfl (hscalar (v := .string s) rfl trivial)
    · refine (parseLiteral_sound true _ (by decide)).mono ?_
      rintro _ r rfl
      exact hscalar (v := .bool true) rfl trivial
    · refine (parseLiteral_sound false _ (by decide)).mono ?_
      rintro _ r rfl
      exact hscalar (v := .bool false) rfl trivial
    · refine (parseLiteral_sound false _ (by decide)).mono ?_
      rintro _ r rfl
      exact hscalar (v := .null) rfl trivial
    · refine (parseNumber_sound std).mono ?_
      rintro _ r ⟨x, hx, rfl⟩
      exact hscalar (v := .number x) rfl hx

/-- Run on a whole input, the parser has read a JSON text, or has reported one error. -/
theorem run_sound (hcomments : options.allowComments = false)
    (hcomma : options.allowTrailingComma = false) (data : Bytes) :
    match run std options data with
    | (.ok _, _) => ∃ t : JsonText, data = t.text ∧ t.value.Accepted std ∧
        t.value.depth ≤ options.maxDepth
    | (.error e, s) => Reported e s := by
  by_cases hvalid : IsUtf8 data
  · have htext : Triple (At data 0) (parseText std options data)
        (fun _ _ => ∃ t : JsonText, data = t.text ∧ t.value.Accepted std ∧
          t.value.depth ≤ options.maxDepth) Reported := by
      unfold parseText
      rw [isValid_iff.mpr hvalid, Bool.not_true, if_neg Bool.false_ne_true]
      refine reads_bind (skipWsAndComments_sound hcomments) fun _ r hr => ?_
      obtain ⟨before, hbefore, -⟩ := hr
      refine at_atEnd (triple_ite (fun _ => at_location fun l => at_fail _ _) fun _ =>
        triple_ite (fun _ => at_fail _ _) fun _ => ?_)
      refine reads_bind (parseValue_sound hcomments hcomma (Nat.zero_add _) (Nat.zero_le _))
        fun _ r' hr => ?_
      obtain ⟨w, v, rfl, hacc, hdepth⟩ := hr
      refine reads_bind (skipWsAndComments_sound hcomments) fun _ r'' hr => ?_
      obtain ⟨after, rfl, -⟩ := hr
      refine at_atEnd (triple_ite (fun hend => ?_) fun _ => at_location fun l => at_fail _ _)
      obtain rfl : r'' = [] := List.isEmpty_iff.mp hend
      refine triple_pure fun s _ => ⟨⟨appendWs before w, v, after⟩, ?_, hacc, by simpa using hdepth⟩
      rw [hbefore]
      simp [JsonText.text, appendWs]
    have hinit : At data 0 (init data) := ⟨rfl, hvalid, rfl, rfl⟩
    unfold run
    cases hres : parseText std options data (init data) with
    | mk res s =>
      cases res with
      | ok _ => exact htext.ok hinit hres
      | error _ => exact htext.error hinit hres
  · have hbad : isValid data = false := Bool.eq_false_iff.mpr fun h => hvalid (isValid_iff.mp h)
    unfold run parseText
    rw [hbad, Bool.not_false, if_pos rfl]
    exact ⟨⟨_, rfl⟩, rfl⟩

end Values

/-! ## The parser and the grammar -/

/-- **The parser accepts the JSON texts of RFC 8259, and nothing else.** With the default options
but any bound on the nesting, `parse` returns true exactly when the bytes are valid UTF-8 and derive
from the grammar, nested within the bound and with numbers that `std::from_chars` accepts. The
events are then those of the derivation; otherwise exactly one error is reported. -/
theorem parse_iff (std : DoubleChars) (maxDepth : Nat) (data : Bytes) :
    (parse std { maxDepth := maxDepth } data = true ↔
      IsUtf8 data ∧ ∃ t : JsonText, t.text = data ∧ t.value.depth ≤ maxDepth ∧
        t.value.Accepted std) ∧
    (∀ t : JsonText, t.text = data → t.value.depth ≤ maxDepth → t.value.Accepted std →
      events std { maxDepth := maxDepth } data = t.events std) ∧
    (parse std { maxDepth := maxDepth } data = false →
      (events std { maxDepth := maxDepth } data).countP Event.isError = 1) := by
  have hsound : ∀ s, run std { maxDepth := maxDepth } data = (.ok (), s) →
      ∃ t : JsonText, data = t.text ∧ t.value.Accepted std ∧ t.value.depth ≤ maxDepth := by
    intro s hres
    have hrun := @run_sound std { maxDepth := maxDepth } rfl rfl data
    rwa [hres] at hrun
  have hreported : ∀ e s, run std { maxDepth := maxDepth } data = (.error e, s) → Reported e s := by
    intro e s hres
    have hrun := @run_sound std { maxDepth := maxDepth } rfl rfl data
    rwa [hres] at hrun
  have hcomplete : ∀ t : JsonText, t.text = data → t.value.depth ≤ maxDepth → t.value.Accepted std →
      run std { maxDepth := maxDepth } data =
        (.ok (), ⟨[], SourceLocation.start.after t.text, 0, t.events std⟩) := by
    rintro t rfl hdepth hacc
    exact run_text rfl t hacc hdepth
  unfold parse events
  refine ⟨⟨fun hparse => ?_, ?_⟩, fun t ht hdepth hacc => ?_, fun hparse => ?_⟩
  · cases hres : run std { maxDepth := maxDepth } data with
    | mk res s =>
      rw [hres] at hparse
      cases res with
      | ok _ =>
        obtain ⟨t, rfl, hacc, hdepth⟩ := hsound s hres
        exact ⟨t.isUtf8, t, rfl, hdepth, hacc⟩
      | error _ => cases hparse
  · rintro ⟨-, t, ht, hdepth, hacc⟩
    rw [hcomplete t ht hdepth hacc]
  · rw [hcomplete t ht hdepth hacc]
  · cases hres : run std { maxDepth := maxDepth } data with
    | mk res s =>
      rw [hres] at hparse
      cases res with
      | ok _ => cases hparse
      | error e => exact (hreported e s hres).2

end JsonParser

end Libca.Json
