import Libca.Json.Tokens

/-!
# What the grammar derives is accepted (`json/json_parser.cpp`)

* `parseValue_text`, `arrayLoop_text`, `objectLoop_text`: the parser reads a value, the elements of
  an array and the members of an object, and reports their events; by induction on the derivation.
* `run_text`: the whole text.
-/

namespace Libca.Json

open Common Fallible Str

namespace JsonParser

variable {l : SourceLocation} {d : Nat} {e : List Event}

/-! ## Values -/

/-- The first byte of a number. -/
theorem exists_cons_number (n : Number) :
    ∃ c t, n.text = c :: t ∧ isWs c = false ∧ (c = 45 ∨ isDigit c = true) := by
  rw [Number.text, Number.minusText]
  cases n.minus with
  | true => exact ⟨45, _, rfl, by decide, .inl rfl⟩
  | false =>
    obtain ⟨c, cs, hcs, hc⟩ := exists_cons_digits n.int
    rw [hcs]
    refine ⟨c, _, rfl, ?_, .inr hc⟩
    unfold isDigit at hc
    unfold isWs
    grind

/-- The first byte of a value: neither whitespace nor a closing bracket. -/
theorem exists_cons_text (v : Value) :
    ∃ c t, v.text = c :: t ∧ isWs c = false ∧ c ≠ 93 ∧ c < 0x80 := by
  cases v with
  | null => exact ⟨_, _, by rw [Value.text]; rfl, by decide, by decide, by decide⟩
  | bool v =>
    cases v with
    | true => exact ⟨_, _, by rw [Value.text]; rfl, by decide, by decide, by decide⟩
    | false => exact ⟨_, _, by rw [Value.text]; rfl, by decide, by decide, by decide⟩
  | number n =>
    obtain ⟨c, t, ht, hws, hc⟩ := exists_cons_number n
    refine ⟨c, t, by rw [Value.text, ht], hws, ?_⟩
    unfold isDigit at hc
    grind
  | string s => exact ⟨34, _, by rw [Value.text, StringLit.text], by decide, by decide, by decide⟩
  | emptyArray w => exact ⟨91, _, by rw [Value.text], by decide, by decide, by decide⟩
  | array before elements => exact ⟨91, _, by rw [Value.text], by decide, by decide, by decide⟩
  | emptyObject w => exact ⟨123, _, by rw [Value.text], by decide, by decide, by decide⟩
  | object before members => exact ⟨123, _, by rw [Value.text], by decide, by decide, by decide⟩

theorem exists_cons_elements (es : Elements) :
    ∃ c t, es.text = c :: t ∧ isWs c = false ∧ c ≠ 93 := by
  cases es with
  | one v after =>
    obtain ⟨c, t, ht, hws, hc, -⟩ := exists_cons_text v
    exact ⟨c, t ++ after.bytes, by rw [Elements.text, ht]; rfl, hws, hc⟩
  | cons v after before rest =>
    obtain ⟨c, t, ht, hws, hc, -⟩ := exists_cons_text v
    exact ⟨c, t ++ (after.bytes ++ 44 :: (before.bytes ++ rest.text)),
      by rw [Elements.text, ht]; rfl, hws, hc⟩

theorem exists_cons_members (ms : Members) : ∃ t, ms.text = 34 :: t := by
  cases ms with
  | one key w₁ w₂ v after => exact ⟨_, by rw [Members.text, StringLit.text]; rfl⟩
  | cons key w₁ w₂ v after before rest => exact ⟨_, by rw [Members.text, StringLit.text]; rfl⟩

theorem endsNumber_cons {c : UInt8} (r : Bytes)
    (h : isDigit c = false ∧ c ≠ 46 ∧ ¬ (c = 101 ∨ c = 69)) : EndsNumber (c :: r) :=
  ⟨h.1, h.2.1, h.2.2⟩

theorem endsNumber_nil : EndsNumber [] := ⟨rfl, by decide, by decide⟩

/-- Whitespace and the byte behind it end a number, when the byte does. -/
theorem endsNumber_ws (w : Ws) {r : Bytes} (hr : EndsNumber r) : EndsNumber (w.bytes ++ r) := by
  cases hw : w.bytes with
  | nil => exact hr
  | cons c cs =>
    have hspace := w.space c (by rw [hw]; exact .head _)
    rw [List.cons_append]
    rcases hspace with rfl | rfl | rfl | rfl <;> exact endsNumber_cons _ (by decide)

theorem enter_apply {options : JsonParserOptions} (start : SourceLocation) (r : Bytes)
    (h : d + 1 ≤ options.maxDepth) :
    enter options start ⟨r, l, d, e⟩ = (.ok (), ⟨r, l, d + 1, e⟩) := by
  unfold enter
  rw [modify_bind_apply, gets_bind_apply, if_neg (Nat.not_lt.mpr h)]
  rfl

theorem leave_apply (r : Bytes) : leave ⟨r, l, d + 1, e⟩ = (.ok (), ⟨r, l, d, e⟩) := rfl

/-- The key of a member, up to the value. -/
theorem memberKey_text {options : JsonParserOptions} (hopt : options.allowComments = false)
    (key : StringLit) (w : Ws) (r : Bytes) :
    memberKey options ⟨key.text ++ (w.bytes ++ 58 :: r), l, d, e⟩ =
      (.ok (), ⟨r, l.after (key.text ++ (w.bytes ++ [58])), d,
      e ++ [.onObjectKey key.value l]⟩) := by
  have hquote : key.text ++ (w.bytes ++ 58 :: r) =
      34 :: (key.body ++ [34] ++ (w.bytes ++ 58 :: r)) := by
    simp [StringLit.text]
  unfold memberKey
  rw [hquote, peek_cons, if_pos rfl, location_bind, ← hquote, bind_ok (parseStringInto_text key _),
    emit_bind, bind_ok (skipWsAndComments_text hopt w rfl), peek_cons, if_pos rfl]
  simp [advance]

section Values

variable {std : DoubleChars} {options : JsonParserOptions}

variable {c : UInt8}

/-- A value is dispatched on its first byte. -/
theorem parseValue_cons (hopt : options.allowComments = false) (w : Ws)
    (hc : isWs c = false) (r : Bytes) (nesting : Nat) :
    parseValue std options (nesting + 1) ⟨w.bytes ++ c :: r, l, d, e⟩ =
      dispatch std options (parseValue std options nesting) c
        ⟨c :: r, l.after w.bytes, d, e⟩ := by
  rw [parseValue, bind_ok (skipWsAndComments_text hopt w (r := c :: r) hc), atEnd_cons,
    if_neg Bool.false_ne_true, peek_cons]

theorem parseValue_literal (hopt : options.allowComments = false) (w : Ws) {text t : Bytes}
    (htext : text = c :: t) (hc : isWs c = false) (v : Bool) (r : Bytes) (nesting : Nat)
    (hdispatch : dispatch std options (parseValue std options nesting) c =
      parseLiteral text v text) :
    parseValue std options (nesting + 1) ⟨w.bytes ++ (text ++ r), l, d, e⟩ =
      (.ok (), ⟨r, (l.after w.bytes).after text, d, e ++
        [if text.head? = some 116 ∨ text.head? = some 102 then .onBool v (l.after w.bytes)
          else .onNull (l.after w.bytes)]⟩) := by
  rw [← parseLiteral_text text v text r, ← hdispatch, htext]
  exact parseValue_cons hopt w hc _ nesting

theorem dispatch_number (value : Parser Unit) (hc : c = 45 ∨ isDigit c = true) :
    dispatch std options value c = parseNumber std := by
  have hne : c ≠ 123 ∧ c ≠ 91 ∧ c ≠ 34 ∧ c ≠ 116 ∧ c ≠ 102 ∧ c ≠ 110 := by
    unfold isDigit at hc
    grind
  obtain ⟨h123, h91, h34, h116, h102, h110⟩ := hne
  unfold dispatch
  rw [if_neg h123, if_neg h91, if_neg h34, if_neg h116, if_neg h102, if_neg h110, if_pos hc]

theorem parseArray_empty (hopt : options.allowComments = false) (value : Parser Unit) (w : Ws)
    (r : Bytes) (hdepth : d + 1 ≤ options.maxDepth) :
    parseArray options value ⟨91 :: (w.bytes ++ 93 :: r), l, d, e⟩ =
      (.ok (), ⟨r, l.after (91 :: (w.bytes ++ [93])), d,
        e ++ [.onArrayStart l, .onArrayEnd (l.after (91 :: (w.bytes ++ [93])))]⟩) := by
  unfold parseArray
  rw [location_bind, advance_cons, bind_ok (enter_apply l _ hdepth), emit_bind,
    bind_ok (skipWsAndComments_text hopt w rfl), peek_cons, if_pos rfl, advance_cons,
    location_bind, emit_bind, leave_apply]
  simp

theorem parseObject_empty (hopt : options.allowComments = false) (value : Parser Unit) (w : Ws)
    (r : Bytes) (hdepth : d + 1 ≤ options.maxDepth) :
    parseObject options value ⟨123 :: (w.bytes ++ 125 :: r), l, d, e⟩ =
      (.ok (), ⟨r, l.after (123 :: (w.bytes ++ [125])), d,
        e ++ [.onObjectStart l, .onObjectEnd (l.after (123 :: (w.bytes ++ [125])))]⟩) := by
  unfold parseObject
  rw [location_bind, advance_cons, bind_ok (enter_apply l _ hdepth), emit_bind,
    bind_ok (skipWsAndComments_text hopt w rfl), peek_cons, if_pos rfl, advance_cons,
    location_bind, emit_bind, leave_apply]
  simp

mutual

/-- **A value is read, and its events are reported.** -/
theorem parseValue_text (hopt : options.allowComments = false) (v : Value)
    (hacc : v.Accepted std) (w : Ws) {r : Bytes} (hr : EndsNumber r) {n : Nat}
    (hnest : v.depth < n) {l : SourceLocation} {d : Nat} {e : List Event}
    (hdepth : d + v.depth ≤ options.maxDepth) :
    parseValue std options n ⟨w.bytes ++ (v.text ++ r), l, d, e⟩ =
      (.ok (), ⟨r, l.after (w.bytes ++ v.text), d, e ++ v.events std (l.after w.bytes)⟩) := by
  obtain ⟨n, rfl⟩ := Nat.exists_eq_succ_of_ne_zero (Nat.ne_zero_of_lt hnest)
  rw [SourceLocation.after_append]
  cases v with
  | null =>
    rw [Value.text, Value.events]
    exact parseValue_literal hopt w (c := 110) (t := [117, 108, 108]) (by decide) rfl false r n rfl
  | bool v =>
    rw [Value.text, Value.events]
    cases v with
    | true =>
      rw [if_pos rfl]
      exact parseValue_literal hopt w (c := 116) (t := [114, 117, 101]) (by decide) rfl true r n rfl
    | false =>
      rw [if_neg Bool.false_ne_true]
      exact parseValue_literal hopt w (c := 102) (t := [97, 108, 115, 101])
        (by decide) rfl false r n
        rfl
  | number x =>
    obtain ⟨v, hv⟩ := Option.isSome_iff_exists.mp hacc
    obtain ⟨c, t, ht, hws, hc⟩ := exists_cons_number x
    rw [Value.text, Value.events, hv, Option.toList_some, List.map_singleton]
    rw [ht, List.cons_append, parseValue_cons hopt w hws, dispatch_number _ hc,
      ← List.cons_append, ← ht, parseNumber_text hv hr]
  | string s =>
    rw [Value.text, Value.events]
    exact (parseValue_cons hopt w rfl _ n).trans (parseStringValue_text s r)
  | emptyArray w' =>
    rw [Value.depth] at hdepth
    rw [Value.text, Value.events, List.cons_append, List.append_assoc]
    exact (parseValue_cons hopt w rfl _ n).trans (parseArray_empty hopt _ w' r hdepth)
  | array before elements =>
    rw [Value.depth] at hdepth hnest
    rw [Value.text, Value.events, List.cons_append, List.append_assoc, List.append_assoc]
    refine (parseValue_cons hopt w rfl _ n).trans ?_
    obtain ⟨c, t, ht, hws, hc⟩ := exists_cons_elements elements
    have hloop := arrayLoop_text hopt elements hacc (n := n) (by omega)
      (m := (elements.text ++ 93 :: r).length + 1) (by rw [List.length_append]; omega) r
      (l := (l.after w.bytes).after (91 :: before.bytes)) (d := d + 1)
      (e := e ++ [.onArrayStart (l.after w.bytes)]) (by omega)
    have hskip := skipWsAndComments_text (l := (l.after w.bytes).next 91) (d := d + 1)
      (e := e ++ [.onArrayStart (l.after w.bytes)]) hopt before (r := elements.text ++ 93 :: r)
      (by rw [ht]; exact hws)
    show parseArray options (parseValue std options n) _ = _
    unfold parseArray
    rw [location_bind, advance_cons, bind_ok (enter_apply _ _ (by omega)), emit_bind,
      List.singleton_append, bind_ok hskip, ht, List.cons_append, peek_cons, if_neg hc,
      ← List.cons_append, ← ht, remaining_bind]
    rw [SourceLocation.after_cons] at hloop
    rw [bind_ok hloop, leave_apply]
    simp
  | emptyObject w' =>
    rw [Value.depth] at hdepth
    rw [Value.text, Value.events, List.cons_append, List.append_assoc]
    exact (parseValue_cons hopt w rfl _ n).trans (parseObject_empty hopt _ w' r hdepth)
  | object before members =>
    rw [Value.depth] at hdepth hnest
    rw [Value.text, Value.events, List.cons_append, List.append_assoc, List.append_assoc]
    refine (parseValue_cons hopt w rfl _ n).trans ?_
    obtain ⟨t, ht⟩ := exists_cons_members members
    have hloop := objectLoop_text hopt members hacc (n := n) (by omega)
      (m := (members.text ++ 125 :: r).length + 1) (by rw [List.length_append]; omega) r
      (l := (l.after w.bytes).after (123 :: before.bytes)) (d := d + 1)
      (e := e ++ [.onObjectStart (l.after w.bytes)]) (by omega)
    have hskip := skipWsAndComments_text (l := (l.after w.bytes).next 123) (d := d + 1)
      (e := e ++ [.onObjectStart (l.after w.bytes)]) hopt before (r := members.text ++ 125 :: r)
      (by rw [ht]; rfl)
    have hc : ¬ (34 : UInt8) = 125 := by decide
    show parseObject options (parseValue std options n) _ = _
    unfold parseObject
    rw [location_bind, advance_cons, bind_ok (enter_apply _ _ (by omega)), emit_bind,
      List.singleton_append, bind_ok hskip, ht, List.cons_append, peek_cons, if_neg hc,
      ← List.cons_append, ← ht, remaining_bind]
    rw [SourceLocation.after_cons] at hloop
    rw [bind_ok hloop, leave_apply]
    simp

/-- The loop over the elements of an array, up to its bracket. -/
theorem arrayLoop_text (hopt : options.allowComments = false) (es : Elements)
    (hacc : es.Accepted std) {n : Nat} (hnest : es.depth < n) {m : Nat}
    (hfuel : es.text.length < m) (r : Bytes) {l : SourceLocation} {d : Nat} {e : List Event}
    (hdepth : d + es.depth ≤ options.maxDepth) :
    arrayLoop options (parseValue std options n) m ⟨es.text ++ 93 :: r, l, d, e⟩ =
      (.ok (), ⟨r, l.after (es.text ++ [93]), d,
        e ++ (es.events std l ++ [.onArrayEnd (l.after (es.text ++ [93]))])⟩) := by
  obtain ⟨m, rfl⟩ := Nat.exists_eq_succ_of_ne_zero (Nat.ne_zero_of_lt hfuel)
  cases es with
  | one v after =>
    have hvalue : parseValue std options n ⟨v.text ++ (after.bytes ++ 93 :: r), l, d, e⟩ =
        (.ok (), ⟨after.bytes ++ 93 :: r, l.after v.text, d, e ++ v.events std l⟩) :=
      parseValue_text hopt v hacc ⟨[], by simp⟩
        (endsNumber_ws after (endsNumber_cons (c := 93) r (by decide))) hnest hdepth
    have hc : ¬ (93 : UInt8) = 44 := by decide
    rw [Elements.text, Elements.events, arrayLoop, List.append_assoc, bind_ok hvalue,
      bind_ok (skipWsAndComments_text hopt after rfl), peek_cons, if_neg hc, if_pos rfl,
      advance_cons, location_bind, emit_apply]
    simp
  | cons v after before rest =>
    rw [Elements.depth] at hnest hdepth
    obtain ⟨hv, hrest⟩ := hacc
    obtain ⟨c, t, ht, hws, hc⟩ := exists_cons_elements rest
    have hvalue : parseValue std options n
        ⟨v.text ++ (after.bytes ++ 44 :: (before.bytes ++ (rest.text ++ 93 :: r))), l, d, e⟩ =
        (.ok (), ⟨after.bytes ++ 44 :: (before.bytes ++ (rest.text ++ 93 :: r)), l.after v.text, d,
          e ++ v.events std l⟩) :=
      parseValue_text hopt v hv ⟨[], by simp⟩
        (endsNumber_ws after (endsNumber_cons (c := 44) _ (by decide))) (by omega) (by omega)
    have hlen : rest.text.length < m := by
      rw [Elements.text] at hfuel
      simp only [List.length_append, List.length_cons] at hfuel
      omega
    have hskip := skipWsAndComments_text (l := ((l.after v.text).after after.bytes).next 44) (d :=
      d)
      (e := e ++ v.events std l) hopt before (r := rest.text ++ 93 :: r) (by rw [ht]; exact hws)
    rw [Elements.text, Elements.events, arrayLoop, List.append_assoc, List.append_assoc,
      List.cons_append, List.append_assoc, bind_ok hvalue,
      bind_ok (skipWsAndComments_text hopt after rfl), peek_cons, if_pos rfl, advance_cons,
      bind_ok hskip, ht, List.cons_append, peek_cons, if_neg hc, ← List.cons_append, ← ht,
      arrayLoop_text hopt rest hrest (by omega) hlen r (by omega)]
    simp

/-- The loop over the members of an object, up to its bracket. -/
theorem objectLoop_text (hopt : options.allowComments = false) (ms : Members)
    (hacc : ms.Accepted std) {n : Nat} (hnest : ms.depth < n) {m : Nat}
    (hfuel : ms.text.length < m) (r : Bytes) {l : SourceLocation} {d : Nat} {e : List Event}
    (hdepth : d + ms.depth ≤ options.maxDepth) :
    objectLoop options (parseValue std options n) m ⟨ms.text ++ 125 :: r, l, d, e⟩ =
      (.ok (), ⟨r, l.after (ms.text ++ [125]), d,
        e ++ (ms.events std l ++ [.onObjectEnd (l.after (ms.text ++ [125]))])⟩) := by
  obtain ⟨m, rfl⟩ := Nat.exists_eq_succ_of_ne_zero (Nat.ne_zero_of_lt hfuel)
  cases ms with
  | one key w₁ w₂ v after =>
    have hvalue := parseValue_text (l := (l.after (key.text ++ (w₁.bytes ++ [58])))) (d := d)
      (e := e ++ [.onObjectKey key.value l]) hopt v hacc w₂
      (endsNumber_ws after (endsNumber_cons (c := 125) r (by decide))) hnest hdepth
    have hkey := memberKey_text (l := l) (d := d) (e := e) hopt key w₁
      (w₂.bytes ++ (v.text ++ (after.bytes ++ 125 :: r)))
    have hskip := skipWsAndComments_none (l := l) (d := d) (e := e) hopt
      (r := key.text ++ (w₁.bytes ++ 58 :: (w₂.bytes ++ (v.text ++ (after.bytes ++ 125 :: r))))) rfl
    have hc : ¬ (125 : UInt8) = 44 := by decide
    rw [Members.text, Members.events, objectLoop, List.append_assoc, List.append_assoc,
      List.cons_append, List.append_assoc, List.append_assoc, bind_ok hskip, bind_ok hkey,
      bind_ok hvalue, bind_ok (skipWsAndComments_text hopt after rfl), peek_cons, if_neg hc,
      if_pos rfl, advance_cons, location_bind, emit_apply]
    simp
  | cons key w₁ w₂ v after before rest =>
    rw [Members.depth] at hnest hdepth
    obtain ⟨hv, hrest⟩ := hacc
    obtain ⟨t, ht⟩ := exists_cons_members rest
    have hvalue := parseValue_text (l := (l.after (key.text ++ (w₁.bytes ++ [58])))) (d := d)
      (e := e ++ [.onObjectKey key.value l]) (n := n) hopt v hv w₂
      (endsNumber_ws after (endsNumber_cons (c := 44) (before.bytes ++ (rest.text ++ 125 :: r))
        (by decide))) (by omega) (by omega)
    have hkey := memberKey_text (l := l) (d := d) (e := e) hopt key w₁ (w₂.bytes ++ (v.text ++
      (after.bytes ++ 44 :: (before.bytes ++ (rest.text ++ 125 :: r)))))
    have hskip := skipWsAndComments_none (l := l) (d := d) (e := e) hopt
      (r := key.text ++ (w₁.bytes ++ 58 :: (w₂.bytes ++ (v.text ++
        (after.bytes ++ 44 :: (before.bytes ++ (rest.text ++ 125 :: r))))))) rfl
    have hlen : rest.text.length < m := by
      rw [Members.text] at hfuel
      simp only [List.length_append, List.length_cons] at hfuel
      omega
    have hc : ¬ (34 : UInt8) = 125 := by decide
    rw [Members.text, Members.events, objectLoop]
    simp only [List.append_assoc, List.cons_append]
    rw [bind_ok hskip, bind_ok hkey, bind_ok hvalue,
      bind_ok (skipWsAndComments_text hopt after rfl), peek_cons, if_pos rfl, advance_cons,
      bind_ok (skipWsAndComments_text hopt before (by rw [ht]; rfl)), ht, List.cons_append,
      peek_cons, if_neg hc, ← List.cons_append, ← ht,
      objectLoop_text hopt rest hrest (by omega) hlen r (by omega)]
    simp

end

end Values

end JsonParser

/-! ## Derivations are valid UTF-8 -/

section IsUtf8

theorem Ws.isUtf8 (w : Ws) : IsUtf8 w.bytes :=
  isUtf8_of_ascii fun b hb => by rcases w.space b hb with rfl | rfl | rfl | rfl <;> decide

theorem Digits.isUtf8 (ds : Digits) : IsUtf8 ds.bytes :=
  isUtf8_of_ascii fun b hb => by
    have hdigit := JsonParser.isDigit_iff.mp (ds.digit b hb)
    grind

theorem HexQuad.isUtf8 (q : HexQuad) : IsUtf8 q.bytes := isUtf8_of_ascii (JsonParser.hexQuad_lt q)

theorem isUtf8_cons {c : UInt8} {bs : Bytes} (hc : c < 0x80) (hbs : IsUtf8 bs) : IsUtf8 (c :: bs) :=
  (isUtf8_of_ascii (show ∀ b ∈ [c], b < 0x80 by simpa using hc)).append hbs

theorem Number.isUtf8 (n : Number) : IsUtf8 n.text := by
  unfold Number.text Number.minusText Number.fracText Number.expText
  refine IsUtf8.append ?_ (n.int.isUtf8.append (IsUtf8.append ?_ ?_))
  · cases n.minus <;> exact isUtf8_of_ascii (by decide)
  · cases n.frac with
    | none => exact isUtf8_nil
    | some ds => exact isUtf8_cons (by decide) ds.isUtf8
  · cases n.exp with
    | none => exact isUtf8_nil
    | some x =>
      refine isUtf8_cons (by cases x.upper <;> decide) (IsUtf8.append ?_ x.digits.isUtf8)
      unfold Exponent.signText
      cases x.sign with
      | none => exact isUtf8_nil
      | some minus => cases minus <;> exact isUtf8_of_ascii (by decide)

theorem Item.isUtf8 (i : Item) : IsUtf8 i.text := by
  cases i with
  | plain c h => exact ⟨[c], by simp [Item.text]⟩
  | short x => cases x <;> exact isUtf8_of_ascii (by decide)
  | unicode q h => exact isUtf8_cons (by decide) (isUtf8_cons (by decide) q.isUtf8)
  | pair high low _ _ =>
    exact isUtf8_cons (by decide) (isUtf8_cons (by decide) (high.isUtf8.append
      (isUtf8_cons (by decide) (isUtf8_cons (by decide) low.isUtf8))))

theorem StringLit.isUtf8 (s : StringLit) : IsUtf8 s.text := by
  have hbody : ∀ items : List Item, IsUtf8 (items.flatMap Item.text) := by
    intro items
    induction items with
    | nil => exact isUtf8_nil
    | cons i items ih =>
      rw [List.flatMap_cons]
      exact i.isUtf8.append ih
  exact isUtf8_cons (by decide) ((hbody s.items).append (isUtf8_of_ascii (by decide)))

mutual

theorem Value.isUtf8 (v : Value) : IsUtf8 v.text := by
  cases v with
  | null =>
    rw [Value.text]
    exact isUtf8_of_ascii (by decide)
  | bool v => cases v <;> exact isUtf8_of_ascii (by rw [Value.text]; decide)
  | number n =>
    rw [Value.text]
    exact n.isUtf8
  | string s =>
    rw [Value.text]
    exact s.isUtf8
  | emptyArray w =>
    rw [Value.text]
    exact isUtf8_cons (by decide) (w.isUtf8.append (isUtf8_of_ascii (by decide)))
  | array before elements =>
    rw [Value.text]
    exact isUtf8_cons (by decide) (before.isUtf8.append
      (elements.isUtf8.append (isUtf8_of_ascii (by decide))))
  | emptyObject w =>
    rw [Value.text]
    exact isUtf8_cons (by decide) (w.isUtf8.append (isUtf8_of_ascii (by decide)))
  | object before members =>
    rw [Value.text]
    exact isUtf8_cons (by decide) (before.isUtf8.append
      (members.isUtf8.append (isUtf8_of_ascii (by decide))))

theorem Elements.isUtf8 (es : Elements) : IsUtf8 es.text := by
  cases es with
  | one v after =>
    rw [Elements.text]
    exact v.isUtf8.append after.isUtf8
  | cons v after before rest =>
    rw [Elements.text]
    exact v.isUtf8.append (after.isUtf8.append
      (isUtf8_cons (by decide) (before.isUtf8.append rest.isUtf8)))

theorem Members.isUtf8 (ms : Members) : IsUtf8 ms.text := by
  cases ms with
  | one key w₁ w₂ v after =>
    rw [Members.text]
    exact key.isUtf8.append (w₁.isUtf8.append (isUtf8_cons (by decide)
      (w₂.isUtf8.append (v.isUtf8.append after.isUtf8))))
  | cons key w₁ w₂ v after before rest =>
    rw [Members.text]
    exact key.isUtf8.append (w₁.isUtf8.append (isUtf8_cons (by decide)
      (w₂.isUtf8.append (v.isUtf8.append (after.isUtf8.append
        (isUtf8_cons (by decide) (before.isUtf8.append rest.isUtf8)))))))

end

theorem JsonText.isUtf8 (t : JsonText) : IsUtf8 t.text :=
  t.before.isUtf8.append (t.value.isUtf8.append t.after.isUtf8)

end IsUtf8

namespace JsonParser

/-- A byte order mark is no whitespace, and no value starts with one. -/
theorem take_three_text (t : JsonText) : t.text.take 3 ≠ [0xEF, 0xBB, 0xBF] := by
  intro hbom
  obtain ⟨rest, hrest⟩ : ∃ rest, t.text = 0xEF :: 0xBB :: 0xBF :: rest :=
    ⟨t.text.drop 3, by rw [← List.take_append_drop 3 t.text, hbom]; simp⟩
  have hfirst : ∀ c u, t.text = c :: u → c < 0x80 := by
    unfold JsonText.text
    intro c u hcu
    cases hw : t.before.bytes with
    | cons b bs =>
      rw [hw, List.cons_append] at hcu
      have hspace := t.before.space b (by rw [hw]; exact .head _)
      rw [← (List.cons.inj hcu).1]
      grind
    | nil =>
      obtain ⟨c', u', hu, -, -, hlt⟩ := exists_cons_text t.value
      rw [hw, List.nil_append, hu] at hcu
      rw [← (List.cons.inj hcu).1]
      exact hlt
  exact absurd (hfirst _ _ hrest) (by decide)

variable {std : DoubleChars} {options : JsonParserOptions}

/-- **The whole text of a derivation is accepted, with its events.** -/
theorem run_text (hopt : options.allowComments = false) (t : JsonText)
    (hacc : t.value.Accepted std) (hdepth : t.value.depth ≤ options.maxDepth) :
    run std options t.text =
      (.ok (), ⟨[], SourceLocation.start.after t.text, 0, t.events std⟩) := by
  obtain ⟨c, u, hu, hws, -⟩ := exists_cons_text t.value
  have hhead : isWs ((t.value.text ++ t.after.bytes).headD 0) = false := by
    rw [hu]
    exact hws
  have hskip := skipWsAndComments_text (l := .start) (d := 0) (e := []) hopt t.before hhead
  have hvalue : parseValue std options (options.maxDepth + 1)
      ⟨t.value.text ++ t.after.bytes, SourceLocation.start.after t.before.bytes, 0, []⟩ =
      (.ok (), ⟨t.after.bytes, (SourceLocation.start.after t.before.bytes).after t.value.text, 0,
        t.events std⟩) :=
    parseValue_text hopt t.value hacc ⟨[], by simp⟩
      (by simpa using endsNumber_ws t.after endsNumber_nil) (by omega) (by omega)
  have hend : skipWsAndComments options ⟨t.after.bytes,
      (SourceLocation.start.after t.before.bytes).after t.value.text, 0, t.events std⟩ =
      (.ok (), ⟨[], SourceLocation.start.after t.text, 0, t.events std⟩) := by
    have hskip := skipWsAndComments_text (l := (SourceLocation.start.after t.before.bytes).after
      t.value.text) (d := 0) (e := t.events std) hopt t.after (r := []) rfl
    rw [List.append_nil] at hskip
    rw [hskip, JsonText.text, SourceLocation.after_append, SourceLocation.after_append]
  unfold run parseText init
  rw [isValid_iff.mpr t.isUtf8, Bool.not_true, if_neg Bool.false_ne_true,
    if_neg (take_three_text t)]
  rw [show t.text = t.before.bytes ++ (t.value.text ++ t.after.bytes) from rfl] at hend ⊢
  rw [bind_ok hskip, hu, List.cons_append, atEnd_cons, if_neg Bool.false_ne_true,
    ← List.cons_append, ← hu, bind_ok hvalue, bind_ok hend, atEnd_nil, if_pos rfl, pure_apply]

end JsonParser

end Libca.Json
