import Libca.Json.Grammar

/-!
# What the tokens of the grammar are read as (`json/json_parser.cpp`)

Each scanner of the parser is run on the bytes of a token, followed by what may follow it: it stops
behind them, at the location behind them, with what the token stands for.

* `skipWsAndComments_text`: whitespace.
* `parseNumber_text`: numbers; `fromCharsI64_text`, `numberEvent_text` say what they are converted
  to.
* `stringLoop_text`, `parseStringInto_text`: strings, on the slow path and on either path.
-/

namespace Libca.Json

open Common Fallible Str

namespace JsonParser

variable {α : Type} {l : SourceLocation} {d : Nat} {e : List Event}

/-! ## The cursor -/

section Cursor

variable (c : UInt8) (r t : Bytes) (ev : Event)

theorem peek_bind (f : UInt8 → Parser α) :
    (peek >>= f) ⟨r, l, d, e⟩ = f (r.headD 0) ⟨r, l, d, e⟩ := rfl

@[simp] theorem peek_cons (f : UInt8 → Parser α) :
    (peek >>= f) ⟨c :: r, l, d, e⟩ = f c ⟨c :: r, l, d, e⟩ := rfl

@[simp] theorem peekNext_cons (c' : UInt8) (f : UInt8 → Parser α) :
    (peekNext >>= f) ⟨c :: c' :: r, l, d, e⟩ = f c' ⟨c :: c' :: r, l, d, e⟩ := rfl

@[simp] theorem atEnd_nil (f : Bool → Parser α) :
    (atEnd >>= f) ⟨[], l, d, e⟩ = f true ⟨[], l, d, e⟩ := rfl

@[simp] theorem atEnd_cons (f : Bool → Parser α) :
    (atEnd >>= f) ⟨c :: r, l, d, e⟩ = f false ⟨c :: r, l, d, e⟩ := rfl

@[simp] theorem location_bind (f : SourceLocation → Parser α) :
    (location >>= f) ⟨r, l, d, e⟩ = f l ⟨r, l, d, e⟩ := rfl

@[simp] theorem remaining_bind (f : Bytes → Parser α) :
    (remaining >>= f) ⟨r, l, d, e⟩ = f r ⟨r, l, d, e⟩ := rfl

@[simp] theorem emit_bind (f : Unit → Parser α) :
    (emit ev >>= f) ⟨r, l, d, e⟩ = f () ⟨r, l, d, e ++ [ev]⟩ := rfl

@[simp] theorem emit_apply : emit ev ⟨r, l, d, e⟩ = (.ok (), ⟨r, l, d, e ++ [ev]⟩) := rfl

@[simp] theorem advance_cons (f : Unit → Parser α) :
    (advance 1 >>= f) ⟨c :: r, l, d, e⟩ = f () ⟨r, l.next c, d, e⟩ := rfl

theorem advance_append (f : Unit → Parser α) :
    (advance t.length >>= f) ⟨t ++ r, l, d, e⟩ = f () ⟨r, l.after t, d, e⟩ := by
  unfold advance
  rw [modify_bind_apply, List.drop_left, List.take_left]

end Cursor

variable {p : UInt8 → Bool}

/-- Bytes with `p` in front of one without it. -/
theorem takeWhile_append_stop {as r : Bytes} (has : ∀ b ∈ as, p b = true)
    (hr : p (r.headD 0) = false) : (as ++ r).takeWhile p = as := by
  rw [List.takeWhile_append_of_pos has]
  cases r with
  | nil => rw [List.takeWhile_nil, List.append_nil]
  | cons c r =>
    rw [List.headD_cons] at hr
    rw [List.takeWhile_cons_of_neg (by simp [hr]), List.append_nil]

theorem dropWhile_append_stop {as r : Bytes} (has : ∀ b ∈ as, p b = true)
    (hr : p (r.headD 0) = false) : (as ++ r).dropWhile p = r := by
  rw [List.dropWhile_append_of_pos has]
  cases r with
  | nil => rfl
  | cons c r =>
    rw [List.headD_cons] at hr
    rw [List.dropWhile_cons_of_neg (by simp [hr])]

theorem advanceWhile_append {as r : Bytes} (has : ∀ b ∈ as, p b = true)
    (hr : p (r.headD 0) = false) :
    advanceWhile p ⟨as ++ r, l, d, e⟩ = (.ok as, ⟨r, l.after as, d, e⟩) := by
  unfold advanceWhile
  rw [gets_bind_apply]
  simp only [takeWhile_append_stop has hr]
  rw [advance_append, pure_apply]

/-! ## Whitespace -/

variable {options : JsonParserOptions}

/-- Without comments, whitespace is all that is skipped. -/
theorem skipLoop_apply (hopt : options.allowComments = false)
    {fuel : Nat} {bs : Bytes} (hfuel : bs.length < fuel) : skipLoop options fuel ⟨bs, l, d, e⟩ =
      (.ok (), ⟨bs.dropWhile isWs, l.after (bs.takeWhile isWs), d, e⟩) := by
  induction bs generalizing fuel l with
  | nil =>
    obtain ⟨n, rfl⟩ := Nat.exists_eq_add_of_lt hfuel
    rfl
  | cons c bs ih =>
    obtain ⟨n, rfl⟩ := Nat.exists_eq_add_of_lt hfuel
    rw [skipLoop, atEnd_cons]
    simp only [Bool.false_eq_true, if_false, peek_cons]
    by_cases hc : isWs c = true
    · rw [if_pos hc, advance_cons, List.dropWhile_cons_of_pos hc, List.takeWhile_cons_of_pos hc]
      exact ih (by rw [List.length_cons]; omega)
    · rw [if_neg hc, hopt, Bool.false_and, if_neg Bool.false_ne_true, pure_apply,
        List.dropWhile_cons_of_neg hc, List.takeWhile_cons_of_neg hc]
      rfl

theorem skipWsAndComments_apply (hopt : options.allowComments = false) (bs : Bytes) :
    skipWsAndComments options ⟨bs, l, d, e⟩ =
      (.ok (), ⟨bs.dropWhile isWs, l.after (bs.takeWhile isWs), d, e⟩) := by
  unfold skipWsAndComments
  rw [remaining_bind]
  exact skipLoop_apply hopt (Nat.lt_succ_self _)

theorem skipWsAndComments_text (hopt : options.allowComments = false)
    (w : Ws) {r : Bytes} (hr : isWs (r.headD 0) = false) :
    skipWsAndComments options ⟨w.bytes ++ r, l, d, e⟩ = (.ok (), ⟨r, l.after w.bytes, d, e⟩) := by
  rw [skipWsAndComments_apply hopt, takeWhile_append_stop w.isWs hr,
    dropWhile_append_stop w.isWs hr]

/-- Nothing is skipped in front of something else. -/
theorem skipWsAndComments_none (hopt : options.allowComments = false)
    {r : Bytes} (hr : isWs (r.headD 0) = false) :
    skipWsAndComments options ⟨r, l, d, e⟩ = (.ok (), ⟨r, l, d, e⟩) :=
  skipWsAndComments_text hopt ⟨[], by simp⟩ hr

/-! ## Literals -/

theorem parseLiteral_text (text : Bytes) (v : Bool) (kind r : Bytes) :
    parseLiteral text v kind ⟨text ++ r, l, d, e⟩ = (.ok (), ⟨r, l.after text, d, e ++
      [if kind.head? = some 116 ∨ kind.head? = some 102 then .onBool v l else .onNull l]⟩) := by
  unfold parseLiteral
  rw [location_bind, remaining_bind,
    if_pos (List.isPrefixOf_iff_prefix.mpr (List.prefix_append ..)), advance_append]
  split_ifs <;> rfl

/-! ## Numbers -/

/-- What may follow a number: nothing that continues it. -/
structure EndsNumber (r : Bytes) : Prop where
  digit : isDigit (r.headD 0) = false
  point : r.headD 0 ≠ 46
  exponent : ¬ (r.headD 0 = 101 ∨ r.headD 0 = 69)

theorem isDigit_iff {c : UInt8} : isDigit c = true ↔ 48 ≤ c ∧ c ≤ 57 := by
  simp [isDigit]

theorem exists_cons_digits (ds : Digits) : ∃ c cs, ds.bytes = c :: cs ∧ isDigit c = true := by
  obtain ⟨c, cs, hcs⟩ := List.exists_cons_of_ne_nil ds.ne_nil
  exact ⟨c, cs, hcs, ds.digit c (by rw [hcs]; exact .head _)⟩

theorem minusSign_text (n : Number) {c : UInt8} {r : Bytes} (hc : c ≠ 45) :
    minusSign ⟨Number.minusText n.minus ++ c :: r, l, d, e⟩ =
      (.ok (), ⟨c :: r, l.after (Number.minusText n.minus), d, e⟩) := by
  unfold minusSign Number.minusText
  cases n.minus with
  | false =>
    simp only [Bool.false_eq_true, if_false, List.nil_append, peek_cons]
    rw [if_neg hc]
    rfl
  | true => rfl

theorem integerPart_text (start : SourceLocation) (n : Number) {r : Bytes}
    (hr : isDigit (r.headD 0) = false) : integerPart start ⟨n.int.bytes ++ r, l, d, e⟩ =
      (.ok (), ⟨r, l.after n.int.bytes, d, e⟩) := by
  obtain ⟨c, cs, hcs, hc⟩ := exists_cons_digits n.int
  unfold integerPart
  by_cases h0 : c = 48
  · have hzero : n.int.bytes = [48] := n.lead (by rw [hcs, h0]; rfl)
    rw [hzero, List.singleton_append, peek_cons, if_pos rfl, advance_cons, peek_bind, hr,
      if_neg Bool.false_ne_true]
    rfl
  · have hrange := isDigit_iff.mp hc
    rw [hcs, List.cons_append, peek_cons, if_neg h0, if_pos (by grind), ← List.cons_append,
      ← hcs, bind_ok (advanceWhile_append n.int.digit hr)]
    rfl

theorem fractionPart_text (start : SourceLocation) (n : Number) {r : Bytes}
    (hr : isDigit (r.headD 0) = false) (hpoint : n.frac = none → r.headD 0 ≠ 46) :
    fractionPart start ⟨Number.fracText n.frac ++ r, l, d, e⟩ =
      (.ok n.frac.isSome, ⟨r, l.after (Number.fracText n.frac), d, e⟩) := by
  unfold fractionPart Number.fracText
  cases hfrac : n.frac with
  | none =>
    simp only [List.nil_append, peek_bind]
    rw [if_neg (hpoint hfrac)]
    rfl
  | some ds =>
    obtain ⟨c, cs, hcs, hc⟩ := exists_cons_digits ds
    simp only [List.cons_append, peek_cons, if_true, advance_cons]
    rw [hcs, List.cons_append, peek_cons, hc, Bool.not_true, if_neg Bool.false_ne_true,
      ← List.cons_append, ← hcs, bind_ok (advanceWhile_append ds.digit hr)]
    rfl

theorem exponentSign_text (x : Exponent) {c : UInt8} {r : Bytes} (hc : isDigit c = true) :
    exponentSign ⟨Exponent.signText x.sign ++ c :: r, l, d, e⟩ =
      (.ok (), ⟨c :: r, l.after (Exponent.signText x.sign), d, e⟩) := by
  have hrange := isDigit_iff.mp hc
  unfold exponentSign Exponent.signText
  cases x.sign with
  | none =>
    simp only [List.nil_append, peek_cons]
    rw [if_neg (by grind)]
    rfl
  | some minus => cases minus <;> rfl

theorem exponentPart_text (start : SourceLocation) (n : Number) {r : Bytes}
    (hr : isDigit (r.headD 0) = false) (hexp : ¬ (r.headD 0 = 101 ∨ r.headD 0 = 69)) :
    exponentPart start ⟨Number.expText n.exp ++ r, l, d, e⟩ =
      (.ok n.exp.isSome, ⟨r, l.after (Number.expText n.exp), d, e⟩) := by
  unfold exponentPart Number.expText
  cases n.exp with
  | none =>
    simp only [List.nil_append, peek_bind]
    rw [if_neg hexp]
    rfl
  | some x =>
    obtain ⟨c, cs, hcs, hc⟩ := exists_cons_digits x.digits
    have hletter : (if x.upper then 69 else 101 : UInt8) = 101 ∨
        (if x.upper then 69 else 101 : UInt8) = 69 := by
      cases x.upper <;> decide
    simp only [Exponent.text, List.cons_append, peek_cons]
    rw [if_pos hletter, advance_cons, List.append_assoc, hcs, List.cons_append,
      bind_ok (exponentSign_text x hc), peek_cons, hc, Bool.not_true, if_neg Bool.false_ne_true,
      ← List.cons_append, ← hcs, bind_ok (advanceWhile_append x.digits.digit hr)]
    simp

theorem takeWhile_digits (ds : Digits) : ds.bytes.takeWhile isDigit = ds.bytes := by
  simpa using takeWhile_append_stop (r := []) ds.digit rfl

variable {n : Number}

theorem text_of_isInteger (h : n.isInteger = true) :
    n.text = Number.minusText n.minus ++ n.int.bytes := by
  unfold Number.isInteger at h
  rw [Bool.and_eq_true, Option.isNone_iff_eq_none, Option.isNone_iff_eq_none] at h
  unfold Number.text Number.fracText Number.expText
  rw [h.1, h.2, List.append_nil, List.append_nil]

/-- An integer literal is converted to its value, unless that is out of range. -/
theorem fromCharsI64_text (h : n.isInteger = true) : fromCharsI64 n.text =
    if -2 ^ 63 ≤ n.intValue ∧ n.intValue < 2 ^ 63 then .ok (Int64.ofInt n.intValue)
    else .error .resultOutOfRange := by
  rw [text_of_isInteger h]
  unfold fromCharsI64 Number.minusText Number.intValue
  cases n.minus with
  | true =>
    simp only [if_true, List.singleton_append, List.head?_cons, List.tail_cons, takeWhile_digits]
    rw [if_neg n.int.ne_nil]
  | false =>
    obtain ⟨c, cs, hcs, hc⟩ := exists_cons_digits n.int
    have hhead : n.int.bytes.head? ≠ some 45 := by
      rw [hcs, List.head?_cons]
      rintro h45
      rw [Option.some.inj h45] at hc
      cases hc
    simp only [Bool.false_eq_true, if_false, List.nil_append, hhead, takeWhile_digits]
    rw [if_neg n.int.ne_nil]

/-- The conversion of a literal gives the event of its value, or an error if it has none. -/
theorem numberEvent_text (std : DoubleChars) (n : Number) (loc : SourceLocation) :
    (∃ v, n.value std = some v ∧
      numberEvent std (n.frac.isSome || n.exp.isSome) n.text loc = .ok (v.event loc)) ∨
    (n.value std = none ∧
      ∃ m, numberEvent std (n.frac.isSome || n.exp.isSome) n.text loc = .error m) := by
  have hfloat : (n.frac.isSome || n.exp.isSome) = !n.isInteger := by
    unfold Number.isInteger
    cases n.frac <;> cases n.exp <;> rfl
  rw [hfloat]
  unfold Number.value
  by_cases hrange : n.isInteger = true ∧ -2 ^ 63 ≤ n.intValue ∧ n.intValue < 2 ^ 63
  · obtain ⟨hint, hbounds⟩ := hrange
    unfold numberEvent
    rw [fromCharsI64_text hint, if_pos ⟨hint, hbounds⟩, if_pos hbounds, hint]
    exact .inl ⟨_, rfl, rfl⟩
  · -- neither path has converted the literal yet: the double decides
    have hdouble : numberEvent std (!n.isInteger) n.text loc = doubleEvent std n.text loc := by
      unfold numberEvent
      by_cases hint : n.isInteger = true
      · rw [fromCharsI64_text hint, hint, if_neg fun hb => hrange ⟨hint, hb⟩]
        rfl
      · rw [Bool.not_eq_true] at hint
        rw [hint]
        rfl
    rw [hdouble, if_neg hrange]
    unfold doubleEvent
    cases std.fromChars n.text with
    | error ec => cases ec <;> exact .inr ⟨rfl, _, rfl⟩
    | ok res =>
      obtain ⟨v, consumed⟩ := res
      by_cases hconsumed : consumed = n.text.length
      · simp only [if_pos hconsumed]
        exact .inl ⟨_, rfl, rfl⟩
      · simp only [if_neg hconsumed]
        exact .inr ⟨trivial, _, rfl⟩

/-- What follows the integer part is no digit. -/
theorem isDigit_headD_frac (n : Number) {r : Bytes} (hr : EndsNumber r) :
    isDigit ((Number.fracText n.frac ++ (Number.expText n.exp ++ r)).headD 0) = false := by
  unfold Number.fracText Number.expText Exponent.text
  cases n.frac with
  | some ds => rfl
  | none =>
    cases n.exp with
    | some x => cases hx : x.upper <;> simp [hx] <;> rfl
    | none => exact hr.digit

/-- What follows the fraction is no digit, and no point if there is none. -/
theorem headD_exp (n : Number) {r : Bytes} (hr : EndsNumber r) :
    isDigit ((Number.expText n.exp ++ r).headD 0) = false ∧ (Number.expText n.exp ++ r).headD 0 ≠
      46 := by
  unfold Number.expText Exponent.text
  cases n.exp with
  | some x => cases hx : x.upper <;> simp [hx] <;> rfl
  | none => exact ⟨hr.digit, hr.point⟩

/-- The scan of a number stops behind it. -/
theorem parseNumber_text {std : DoubleChars} {v : NumberValue}
    (hv : n.value std = some v) {r : Bytes} (hr : EndsNumber r) :
    parseNumber std ⟨n.text ++ r, l, d, e⟩ =
      (.ok (), ⟨r, l.after n.text, d, e ++ [v.event l]⟩) := by
  obtain ⟨c, cs, hcs, hc⟩ := exists_cons_digits n.int
  have hc45 : c ≠ 45 := by
    rintro rfl
    cases hc
  have htext : n.text ++ r = Number.minusText n.minus ++
    (n.int.bytes ++ (Number.fracText n.frac ++ (Number.expText n.exp ++ r))) := by
    simp [Number.text]
  have hminus : minusSign ⟨n.text ++ r, l, d, e⟩ = (.ok (),
      ⟨n.int.bytes ++ (Number.fracText n.frac ++ (Number.expText n.exp ++ r)),
        l.after (Number.minusText n.minus), d, e⟩) := by
    rw [htext, hcs]
    exact minusSign_text n hc45
  have hloc : (((l.after (Number.minusText n.minus)).after n.int.bytes).after
    (Number.fracText n.frac)).after (Number.expText n.exp) = l.after n.text := by
    simp [Number.text]
  have htake : (n.text ++ r).take ((n.text ++ r).length - r.length) = n.text := by
    rw [List.length_append, Nat.add_sub_cancel, List.take_left]
  unfold parseNumber
  rw [location_bind, remaining_bind, bind_ok hminus,
    bind_ok (integerPart_text l n (isDigit_headD_frac n hr)),
    bind_ok (fractionPart_text l n (headD_exp n hr).1 fun _ => (headD_exp n hr).2),
    bind_ok (exponentPart_text l n hr.digit hr.exponent), remaining_bind, htake, hloc]
  obtain ⟨v', hv', hevent⟩ | ⟨hnone, -⟩ := numberEvent_text std n l
  · rw [hv] at hv'
    rw [hevent, ← Option.some.inj hv']
    rfl
  · rw [hv] at hnone
    cases hnone

/-! ## Strings -/

/-- An unescaped character is scanned as it is. -/
theorem isPlain_utf8EncodeChar {c : Char} (h : 0x20 ≤ c.toNat ∧ c ≠ '"' ∧ c ≠ '\\') :
    ∀ b ∈ String.utf8EncodeChar c, isPlain b = true := by
  obtain ⟨hctl, hquote, hback⟩ := h
  intro b hb
  have hplain : b.toNat ≠ 34 ∧ b.toNat ≠ 92 ∧ 32 ≤ b.toNat := by
    obtain ⟨hascii, hone⟩ | ⟨-, hall⟩ := utf8EncodeChar_ascii_or c
    · rw [hone, List.mem_singleton] at hb
      rw [hb, toNat_ofNat_byte (by omega)]
      refine ⟨fun h34 => hquote ?_, fun h92 => hback ?_, hctl⟩
      · exact Char.toNat_inj.mp h34
      · exact Char.toNat_inj.mp h92
    · have hb' := hall b hb
      omega
  simp only [isPlain, Bool.and_eq_true, bne_iff_ne, ne_eq, decide_eq_true_eq,
    ← UInt8.toNat_inj, UInt8.le_iff_toNat_le]
  exact ⟨⟨hplain.1, hplain.2.1⟩, hplain.2.2⟩

theorem hexDigit_values (c : UInt8) :
    hexDigit c = (if IsHexDigit c then some (digitVal c) else none) ∧
      (IsHexDigit c → digitVal c < 16) := by
  revert c
  exact forall_byte (by decide +kernel)

theorem hexDigit_eq (c : UInt8) : hexDigit c = if IsHexDigit c then some (digitVal c) else none :=
  (hexDigit_values c).1

theorem digitVal_lt {c : UInt8} (h : IsHexDigit c) : digitVal c < 16 := (hexDigit_values c).2 h

/-- Hexadecimal digits are shifted in as the value of a numeral is. -/
theorem foldlM_hexDigit {bs : Bytes} (h : ∀ b ∈ bs, IsHexDigit b) (v : Nat) :
    bs.foldlM (fun v c => (hexDigit c).map fun d => v <<< 4 ||| d) v =
      some (bs.foldl (fun acc b => acc * 16 + digitVal b) v) := by
  induction bs generalizing v with
  | nil => rfl
  | cons c bs ih =>
    have hc := h c (.head _)
    have hor : v <<< 4 ||| digitVal c = v * 16 + digitVal c :=
      (Nat.shiftLeft_add_eq_or_of_lt (digitVal_lt hc) v).symm.trans (by rw [Nat.shiftLeft_eq])
    rw [List.foldlM_cons, hexDigit_eq, if_pos hc]
    simp only [Option.map_some, Option.bind_eq_bind, Option.bind_some, List.foldl_cons, hor]
    exact ih (fun b hb => h b (.tail _ hb)) _

theorem hexQuad_lt (q : HexQuad) : ∀ b ∈ q.bytes, b < 0x80 := by
  intro b hb
  have hhex := q.hex b hb
  unfold IsHexDigit at hhex
  grind

theorem parseHex4_text (q : HexQuad) (r : Bytes) : parseHex4 (q.bytes ++ r) = some q.value := by
  unfold parseHex4
  rw [List.take_append_of_le_length (Nat.le_of_eq q.length_eq.symm),
    List.take_of_length_le (Nat.le_of_eq q.length_eq)]
  exact foldlM_hexDigit q.hex 0

theorem hex4_text (start : SourceLocation) (m m' : Bytes) (q : HexQuad) (r : Bytes) :
    hex4 start m m' ⟨q.bytes ++ r, l, d, e⟩ = (.ok q.value, ⟨r, l.after q.bytes, d, e⟩) := by
  unfold hex4
  rw [remaining_bind, if_neg (by rw [List.length_append, q.length_eq]; omega), parseHex4_text]
  simp only []
  rw [← q.length_eq, advance_append, pure_apply]

theorem appendCodePoint_ofNat (start : SourceLocation) (m : Bytes) {cp : Nat}
    (h : cp < 0xD800 ∨ 0xDFFF < cp ∧ cp < 0x110000) (s : State) :
    appendCodePoint start cp m s = (.ok (String.utf8EncodeChar (Char.ofNat cp)), s) := by
  have henc := encodeCodePoint_toNat (Char.ofNat cp)
  rw [toNat_ofNat h] at henc
  unfold appendCodePoint
  rw [henc]
  rfl

theorem HexQuad.value_lt (q : HexQuad) : q.value < 0x10000 := by
  have hbound : ∀ (bs : Bytes) (v : Nat), (∀ b ∈ bs, IsHexDigit b) →
      bs.foldl (fun acc b => acc * 16 + digitVal b) v < (v + 1) * 16 ^ bs.length := by
    intro bs
    induction bs with
    | nil => intro v _; simp
    | cons c bs ih =>
      intro v h
      have hc := digitVal_lt (h c (.head _))
      have hstep : v * 16 + digitVal c + 1 ≤ (v + 1) * 16 := by omega
      refine lt_of_lt_of_le (ih _ fun b hb => h b (.tail _ hb)) ?_
      rw [List.length_cons, pow_succ', ← Nat.mul_assoc]
      exact Nat.mul_le_mul_right _ hstep
  have hq := hbound q.bytes 0 q.hex
  rw [q.length_eq] at hq
  exact hq

/-- The escape of a code point outside the surrogates. -/
theorem unicodeEscape_text (start : SourceLocation) (q : HexQuad)
    (h : ¬ (0xD800 ≤ q.value ∧ q.value ≤ 0xDFFF)) (r : Bytes) :
    unicodeEscape start ⟨q.bytes ++ r, l, d, e⟩ =
      (.ok (String.utf8EncodeChar (Char.ofNat q.value)), ⟨r, l.after q.bytes, d, e⟩) := by
  have hlt := HexQuad.value_lt q
  unfold unicodeEscape
  rw [bind_ok (hex4_text ..), if_neg (by omega), if_neg (by omega),
    appendCodePoint_ofNat _ _ (by omega)]

/-- The escape of a pair of surrogates. -/
theorem unicodeEscape_pair (start : SourceLocation) (high low : HexQuad)
    (hhigh : 0xD800 ≤ high.value ∧ high.value ≤ 0xDBFF)
    (hlow : 0xDC00 ≤ low.value ∧ low.value ≤ 0xDFFF) (r : Bytes) :
    unicodeEscape start ⟨high.bytes ++ ([92, 117] ++ (low.bytes ++ r)), l, d, e⟩ =
      (.ok (String.utf8EncodeChar
          (Char.ofNat (0x10000 + (high.value - 0xD800) * 0x400 + (low.value - 0xDC00)))),
        ⟨r, l.after (high.bytes ++ ([92, 117] ++ low.bytes)), d, e⟩) := by
  unfold unicodeEscape
  rw [bind_ok (hex4_text ..), if_pos hhigh]
  unfold lowSurrogate
  simp only [List.cons_append, List.nil_append, peek_cons, peekNext_cons]
  have hadvance : ∀ (f : Unit → Parser Bytes) (l : SourceLocation),
      (advance 2 >>= f) ⟨92 :: 117 :: (low.bytes ++ r), l, d, e⟩ =
        f () ⟨low.bytes ++ r, l.after [92, 117], d, e⟩ := fun f l =>
    advance_append (low.bytes ++ r) [92, 117] f
  rw [if_pos (by decide), hadvance, bind_ok (hex4_text ..), if_pos hlow, Nat.shiftLeft_eq,
    appendCodePoint_ofNat _ _ (by omega)]
  simp

theorem shortEscape_letter (x : ShortEscape) :
    ∃ c, shortEscape x.letter = some c ∧ [c] = String.utf8EncodeChar x.char := by
  cases x <;> exact ⟨_, rfl, rfl⟩

/-- An escape is what is left of a character once the backslash is read. -/
inductive IsEscape : Item → UInt8 → Bytes → Prop
  | short (x : ShortEscape) : IsEscape (.short x) x.letter []
  | unicode (q : HexQuad) (h) : IsEscape (.unicode q h) 117 q.bytes
  | pair (high low : HexQuad) (hhigh hlow) :
    IsEscape (.pair high low hhigh hlow) 117 (high.bytes ++ ([92, 117] ++ low.bytes))

theorem IsEscape.text_eq {i : Item} {esc : UInt8} {t : Bytes} (h : IsEscape i esc t) :
    i.text = 92 :: esc :: t := by
  cases h <;> rfl

theorem escape_text (start : SourceLocation) {i : Item} {esc : UInt8} {t : Bytes}
    (h : IsEscape i esc t) (r : Bytes) : escape start esc ⟨t ++ r, l, d, e⟩ =
      (.ok (String.utf8EncodeChar i.char), ⟨r, l.after t, d, e⟩) := by
  unfold escape
  cases h with
  | short x =>
    obtain ⟨c, hc, henc⟩ := shortEscape_letter x
    rw [hc]
    simp only [Item.char, ← henc]
    rfl
  | unicode q h =>
    rw [show shortEscape 117 = none from rfl]
    simp only [if_true]
    exact unicodeEscape_text start q h r
  | pair high low hhigh hlow =>
    rw [show shortEscape 117 = none from rfl]
    simp only [if_true, List.append_assoc]
    exact unicodeEscape_pair start high low hhigh hlow r

/-- A string is a run of unescaped characters, and then ends or goes on with an escape. -/
theorem exists_run (items : List Item) : ∃ run rest, items = run ++ rest ∧
    (∀ b ∈ run.flatMap Item.text, isPlain b = true) ∧
    run.flatMap Item.text = encode (run.map Item.char) ∧
    (rest = [] ∨ ∃ i rest' esc t, rest = i :: rest' ∧ IsEscape i esc t) := by
  induction items with
  | nil => exact ⟨[], [], rfl, by simp, rfl, .inl rfl⟩
  | cons i items ih =>
    obtain ⟨run, rest, rfl, hplain, henc, hrest⟩ := ih
    cases i with
    | plain c h =>
      refine ⟨.plain c h :: run, rest, rfl, ?_, ?_, hrest⟩
      · intro b hb
        rw [List.flatMap_cons, List.mem_append] at hb
        exact hb.elim (isPlain_utf8EncodeChar h b) (hplain b)
      · rw [List.flatMap_cons, henc]
        rfl
    | short x => exact ⟨[], _, rfl, by simp, rfl, .inr ⟨_, _, _, _, rfl, .short x⟩⟩
    | unicode q h => exact ⟨[], _, rfl, by simp, rfl, .inr ⟨_, _, _, _, rfl, .unicode q h⟩⟩
    | pair high low hhigh hlow =>
      exact ⟨[], _, rfl, by simp, rfl, .inr ⟨_, _, _, _, rfl, .pair high low hhigh hlow⟩⟩

theorem isPlain_cases {c : UInt8} (h : isPlain c = true) : c ≠ 34 ∧ c ≠ 92 ∧ ¬ c < 32 := by
  unfold isPlain at h
  grind

/-- The slow path reads the characters up to the quotation mark. -/
theorem stringLoop_text (start : SourceLocation) {fuel : Nat} (items : List Item) (sb : Bytes)
    (hfuel : (items.flatMap Item.text).length < fuel) (r : Bytes) :
    stringLoop start fuel sb ⟨items.flatMap Item.text ++ 34 :: r, l, d, e⟩ =
      (.ok (sb ++ encode (items.map Item.char)),
        ⟨r, l.after (items.flatMap Item.text ++ [34]), d, e⟩) := by
  induction fuel generalizing items sb l with
  | zero => exact absurd hfuel (Nat.not_lt_zero _)
  | succ n ih =>
    obtain ⟨run, rest, rfl, hplain, henc, hrest⟩ := exists_run items
    cases hrun : run.flatMap Item.text with
    | cons c cs =>
      -- an unescaped run is passed at once
      obtain ⟨h34, h92, hctl⟩ := isPlain_cases (hplain c (by rw [hrun]; exact .head _))
      have hnext : isPlain ((rest.flatMap Item.text ++ 34 :: r).headD 0) = false := by
        obtain rfl | ⟨i, rest', esc, t, rfl, hi⟩ := hrest
        · rfl
        · rw [List.flatMap_cons, hi.text_eq]
          rfl
      have hlen : (rest.flatMap Item.text).length < n := by
        rw [List.flatMap_append, hrun, List.length_append, List.length_cons] at hfuel
        omega
      rw [List.flatMap_append, List.append_assoc, hrun, List.cons_append, stringLoop, atEnd_cons,
        if_neg Bool.false_ne_true, peek_cons, if_neg h34, if_neg h92, if_neg hctl,
        ← List.cons_append, ← hrun, bind_ok (advanceWhile_append hplain hnext), ih _ _ hlen,
        List.map_append, encode_append, henc, List.append_assoc, SourceLocation.after_append,
        SourceLocation.after_append, SourceLocation.after_append]
    | nil =>
      have hchars : encode (run.map Item.char) = [] := by rw [← henc, hrun]
      rw [List.flatMap_append, hrun, List.nil_append, List.map_append, encode_append, hchars,
        List.nil_append]
      obtain rfl | ⟨i, rest', esc, t, rfl, hi⟩ := hrest
      · simp only [List.flatMap_nil, List.nil_append, stringLoop, atEnd_cons, peek_cons,
          advance_cons, Bool.false_eq_true, if_false, if_true, List.map_nil, encode_nil,
          List.append_nil]
        rfl
      · have hlen : (rest'.flatMap Item.text).length < n := by
          rw [List.flatMap_append, hrun, List.flatMap_cons, hi.text_eq, List.nil_append,
            List.length_append, List.length_cons, List.length_cons] at hfuel
          omega
        have h34 : ¬ (92 : UInt8) = 34 := by decide
        rw [List.flatMap_cons, hi.text_eq, List.append_assoc, List.cons_append, List.cons_append,
          stringLoop, atEnd_cons, if_neg Bool.false_ne_true, peek_cons, if_neg h34, if_pos rfl,
          advance_cons, atEnd_cons, if_neg Bool.false_ne_true, peek_cons, advance_cons,
          bind_ok (escape_text start hi _), ih _ _ hlen, List.map_cons, encode_cons,
          List.append_assoc]
        simp

/-- A string is read to its closing quotation mark, on either path. -/
theorem parseStringInto_text (s : StringLit) (r : Bytes) :
    parseStringInto ⟨s.text ++ r, l, d, e⟩ = (.ok s.value, ⟨r, l.after s.text, d, e⟩) := by
  obtain ⟨run, rest, hitems, hplain, henc, hrest⟩ := exists_run s.items
  unfold parseStringInto StringLit.text StringLit.value StringLit.body
  rw [hitems, List.flatMap_append, List.map_append, encode_append, ← henc, location_bind,
    List.cons_append, advance_cons, List.append_assoc, List.append_assoc]
  obtain rfl | ⟨i, rest', esc, t, rfl, hi⟩ := hrest
  · simp only [List.flatMap_nil, List.nil_append, List.singleton_append, List.map_nil, encode_nil,
      List.append_nil]
    rw [bind_ok (advanceWhile_append hplain rfl), atEnd_cons, if_neg Bool.false_ne_true, peek_cons,
      if_pos rfl, advance_cons, pure_apply, henc, intern_encode]
    simp
  · have hnext : isPlain (((i :: rest').flatMap Item.text ++ ([34] ++ r)).headD 0) = false := by
      rw [List.flatMap_cons, hi.text_eq]
      rfl
    have hhead : (i :: rest').flatMap Item.text ++ ([34] ++ r) =
        92 :: (esc :: (t ++ (rest'.flatMap Item.text ++ 34 :: r))) := by
      rw [List.flatMap_cons, hi.text_eq]
      simp
    have hlen : ((i :: rest').flatMap Item.text).length <
        ((i :: rest').flatMap Item.text ++ ([34] ++ r)).length + 1 := by
      rw [List.length_append]
      omega
    have hloop := stringLoop_text (l := (l.next 34).after (run.flatMap Item.text)) (d := d) (e := e)
      l (i :: rest') (run.flatMap Item.text) hlen r
    rw [← List.singleton_append (l := r)] at hloop
    have h34 : ¬ (92 : UInt8) = 34 := by decide
    rw [bind_ok (advanceWhile_append hplain hnext), hhead, atEnd_cons, if_neg Bool.false_ne_true,
      peek_cons, if_neg h34, if_pos rfl, remaining_bind, ← hhead, bind_ok hloop, henc,
      ← encode_append, pure_apply, buildOrEmpty_eq_intern, intern_encode, intern_encode]
    simp

theorem parseStringValue_text (s : StringLit) (r : Bytes) :
    parseStringValue ⟨s.text ++ r, l, d, e⟩ =
      (.ok (), ⟨r, l.after s.text, d, e ++ [.onString s.value l]⟩) := by
  unfold parseStringValue
  rw [location_bind, bind_ok (parseStringInto_text s r), emit_apply]

end JsonParser

end Libca.Json
