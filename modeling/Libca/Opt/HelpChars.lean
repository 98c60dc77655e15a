import Libca.Opt.HelpText

/-!
# Code points of a text that is cut and joined (`opt/opt.cpp`)

* `helpChars`: the pieces that the decoder makes of a text; the display width is the sum of theirs.
* `Whole`: a text whose pieces do not depend on what comes after it.
* `helpChars_append`, `helpDisplayWidth_append`: texts that may be joined without new code points.
-/

namespace Libca.Opt

open Common

/-! ## One code point -/

theorem helpUtf8Next_of_lead {lead : UInt8} {len value : Nat}
    (h : helpLead lead = some (len, value)) (rest : Bytes) :
    helpUtf8Next (lead :: rest) =
      if len ≤ rest.length + 1 ∧ (rest.take (len - 1)).all isContinuation = true then
        ⟨(rest.take (len - 1)).foldl (fun value cont => value * 64 + (cont &&& 0x3F).toNat) value,
      len, true⟩
      else .replacement := by
  unfold helpUtf8Next
  simp only [h]

/-- Either a byte is replaced, or there is a code point. -/
theorem helpUtf8Next_cases (s : Bytes) : helpUtf8Next s = .replacement ∨ ∃ lead rest len value,
    s = lead :: rest ∧ helpLead lead = some (len, value) ∧ len ≤ rest.length + 1 ∧
      (rest.take (len - 1)).all isContinuation = true ∧ (helpUtf8Next s).length = len ∧
        (helpUtf8Next s).valid = true := by
  cases s with
  | nil => exact .inl rfl
  | cons lead rest =>
    cases hlead : helpLead lead with
    | none =>
      left
      unfold helpUtf8Next
      simp only [hlead]
    | some begun =>
      obtain ⟨len, value⟩ := begun
      rw [helpUtf8Next_of_lead hlead]
      split_ifs with hrest
      · exact .inr ⟨lead, rest, len, value, rfl, hlead, hrest.1, hrest.2, rfl, rfl⟩
      · exact .inl rfl

theorem helpUtf8Next_of_not_valid {s : Bytes} (h : (helpUtf8Next s).valid = false) :
    helpUtf8Next s = .replacement := by
  rcases helpUtf8Next_cases s with hreplaced | ⟨_, _, _, _, _, _, _, _, _, hvalid⟩
  · exact hreplaced
  · rw [h] at hvalid
    cases hvalid

/-- What a valid code point is made of. -/
theorem helpUtf8Next_valid {s : Bytes} (h : (helpUtf8Next s).valid = true) : ∃ lead rest len value,
    s = lead :: rest ∧ helpLead lead = some (len, value) ∧ len ≤ rest.length + 1 ∧
      (rest.take (len - 1)).all isContinuation = true ∧ (helpUtf8Next s).length = len := by
  rcases helpUtf8Next_cases s with hreplaced | ⟨lead, rest, len, value, hs, hlead, hle, hall, hlen,
    -⟩
  · rw [hreplaced] at h
    cases h
  · exact ⟨lead, rest, len, value, hs, hlead, hle, hall, hlen⟩

theorem helpUtf8Next_length_le {s : Bytes} (h : s ≠ []) : (helpUtf8Next s).length ≤ s.length := by
  cases hvalid : (helpUtf8Next s).valid with
  | false =>
    rw [helpUtf8Next_of_not_valid hvalid]
    exact List.length_pos_iff.mpr h
  | true =>
    obtain ⟨lead, rest, len, value, rfl, -, hle, -, hlen⟩ := helpUtf8Next_valid hvalid
    rw [hlen]
    exact hle

/-- A valid code point does not depend on what comes after it. -/
theorem helpUtf8Next_take_append {s : Bytes} (h : (helpUtf8Next s).valid = true) (t : Bytes) :
    helpUtf8Next (s.take (helpUtf8Next s).length ++ t) = helpUtf8Next s := by
  obtain ⟨lead, rest, len, value, rfl, hlead, hle, hall, hlen⟩ := helpUtf8Next_valid h
  obtain ⟨n, rfl⟩ : ∃ n, len = n + 1 := ⟨len - 1, by have := helpLead_pos hlead; omega⟩
  have htake : (rest.take n ++ t).take n = rest.take n := by
    rw [List.take_append_of_le_length (by rw [List.length_take]; omega), List.take_take,
      Nat.min_self]
  have hsize : n + 1 ≤ (rest.take n ++ t).length + 1 := by
    rw [List.length_append, List.length_take]
    omega
  rw [Nat.add_sub_cancel] at hall
  rw [hlen, List.take_succ_cons, List.cons_append, helpUtf8Next_of_lead hlead,
    helpUtf8Next_of_lead hlead, Nat.add_sub_cancel, htake, if_pos ⟨hsize, hall⟩, if_pos ⟨hle, hall⟩]

theorem helpUtf8Next_append {s : Bytes} (h : (helpUtf8Next s).valid = true) (t : Bytes) :
    helpUtf8Next (s ++ t) = helpUtf8Next s := by
  have hsplit := helpUtf8Next_take_append h (s.drop (helpUtf8Next s).length ++ t)
  rwa [← List.append_assoc, List.take_append_drop] at hsplit

/-- A text that begins with no continuation byte. -/
def NonContinuation (t : Bytes) : Prop := ∀ c ∈ t.head?, isContinuation c = false

theorem nonContinuation_nil : NonContinuation [] := nofun

theorem helpLead_nonContinuation {lead : UInt8} {begun : Nat × Nat}
    (h : helpLead lead = some begun) :
    isContinuation lead = false := by
  have hall : isContinuation lead = true → helpLead lead = none :=
    forall_byte (p := fun b => isContinuation b = true → helpLead b = none) (by decide +kernel) lead
  cases hcontinuation : isContinuation lead with
  | false => rfl
  | true =>
    rw [hall hcontinuation] at h
    cases h

/-- A replaced byte is replaced before any text that begins with no continuation byte. -/
theorem helpUtf8Next_append_replacement {s t : Bytes} (hs : s ≠ [])
    (h : helpUtf8Next s = .replacement)
    (ht : NonContinuation t) : helpUtf8Next (s ++ t) = .replacement := by
  rcases helpUtf8Next_cases (s ++ t) with hreplaced | ⟨lead, rest', len, value, hst, hlead, hle,
    hall, -, -⟩
  · exact hreplaced
  · exfalso
    obtain ⟨first, rest, rfl⟩ := List.exists_cons_of_ne_nil hs
    rw [List.cons_append] at hst
    obtain ⟨rfl, rfl⟩ := List.cons.inj hst
    rw [helpUtf8Next_of_lead hlead] at h
    split_ifs at h with hrest
    · cases congrArg HelpChar.valid h
    · rcases Nat.lt_or_ge rest.length (len - 1) with hshort | hlong
      · -- the text ends within the code point
        rw [List.length_append] at hle
        obtain ⟨c, t, rfl⟩ := List.exists_cons_of_length_pos (l := t) (by omega)
        have hmem : c ∈ (rest ++ c :: t).take (len - 1) := by
          rw [List.take_append, List.take_of_length_le hshort.le]
          obtain ⟨n, hn⟩ : ∃ n, len - 1 - rest.length = n + 1 :=
            ⟨len - 1 - rest.length - 1, by omega⟩
          rw [hn, List.take_succ_cons]
          exact List.mem_append_right _ List.mem_cons_self
        have hcontinuation := List.all_eq_true.mp hall c hmem
        rw [ht c rfl] at hcontinuation
        cases hcontinuation
      · rw [List.take_append_of_le_length hlong] at hall
        exact hrest ⟨by omega, hall⟩

/-- A replaced byte is replaced where the text ends earlier. -/
theorem helpUtf8Next_of_append_replacement {s t : Bytes}
    (h : helpUtf8Next (s ++ t) = .replacement) :
    helpUtf8Next s = .replacement := by
  cases hvalid : (helpUtf8Next s).valid with
  | false => exact helpUtf8Next_of_not_valid hvalid
  | true => rw [← helpUtf8Next_append hvalid t, h]

/-! ## The code points of a text -/

/-- The pieces that the decoder makes of a text. -/
def helpChars (s : Bytes) : List Bytes :=
  if s = [] then []
  else s.take (helpUtf8Next s).length :: helpChars (s.drop (helpUtf8Next s).length)
termination_by s.length
decreasing_by
  have hpos := helpUtf8Next_length_pos s
  have hlength := List.length_pos_iff.mpr ‹_›
  rw [List.length_drop]
  omega

@[simp] theorem helpChars_nil : helpChars [] = [] := by
  rw [helpChars, if_pos rfl]

theorem helpChars_of_ne_nil {s : Bytes} (h : s ≠ []) :
    helpChars s = s.take (helpUtf8Next s).length :: helpChars (s.drop (helpUtf8Next s).length) := by
  rw [helpChars, if_neg h]

/-- The display width of a piece. -/
def charWidth (c : Bytes) : Nat := helpCodepointDisplayWidth (helpUtf8Next c).cp

theorem helpUtf8Next_take (s : Bytes) :
    (helpUtf8Next (s.take (helpUtf8Next s).length)).cp = (helpUtf8Next s).cp := by
  cases hvalid : (helpUtf8Next s).valid with
  | true =>
    have h := helpUtf8Next_take_append hvalid []
    rw [List.append_nil] at h
    rw [h]
  | false =>
    have hreplaced := helpUtf8Next_of_not_valid hvalid
    have h : helpUtf8Next (s.take (helpUtf8Next s).length) = .replacement := by
      refine helpUtf8Next_of_append_replacement (t := s.drop (helpUtf8Next s).length) ?_
      rw [List.take_append_drop, hreplaced]
    rw [h, hreplaced]

theorem helpDisplayWidth_eq (s : Bytes) : helpDisplayWidth s =
    ((helpChars s).map charWidth).sum := by
  fun_induction helpDisplayWidth s with
  | case1 => rw [helpChars_nil, List.map_nil, List.sum_nil]
  | case2 s h ih =>
    rw [helpChars_of_ne_nil h, List.map_cons, List.sum_cons, ih]
    unfold charWidth
    rw [helpUtf8Next_take]

/-- Texts that may be joined. -/
theorem helpChars_append {s t : Bytes} (ht : NonContinuation t) :
    helpChars (s ++ t) = helpChars s ++ helpChars t := by
  induction hn : s.length using Nat.strong_induction_on generalizing s with
  | _ n ih =>
  by_cases hs : s = []
  · rw [hs, helpChars_nil, List.nil_append, List.nil_append]
  · have hnext : helpUtf8Next (s ++ t) = helpUtf8Next s := by
      cases hvalid : (helpUtf8Next s).valid with
      | true => exact helpUtf8Next_append hvalid t
      | false =>
        have hreplaced := helpUtf8Next_of_not_valid hvalid
        rw [hreplaced, helpUtf8Next_append_replacement hs hreplaced ht]
    have hle := helpUtf8Next_length_le hs
    have hpos := helpUtf8Next_length_pos s
    have hst : s ++ t ≠ [] := fun h => hs (List.append_eq_nil_iff.mp h).1
    rw [helpChars_of_ne_nil hst, helpChars_of_ne_nil hs, hnext, List.take_append_of_le_length hle,
      List.drop_append_of_le_length hle, List.cons_append,
      ih (s.drop (helpUtf8Next s).length).length (by rw [List.length_drop]; omega) rfl]

/-- A text whose pieces do not depend on what comes after it. -/
def Whole (s : Bytes) : Prop := ∀ t, helpChars (s ++ t) = helpChars s ++ helpChars t

theorem whole_nil : Whole [] := fun t => by rw [helpChars_nil, List.nil_append, List.nil_append]

theorem Whole.append {s t : Bytes} (hs : Whole s) (ht : Whole t) : Whole (s ++ t) := by
  intro u
  rw [List.append_assoc, hs, hs, ht, List.append_assoc]

/-- A whole text after one that it does not go on. -/
theorem Whole.append_left {s t : Bytes} (ht : Whole t) (hne : t ≠ []) (hstart : NonContinuation t) :
    Whole (s ++ t) := by
  obtain ⟨c, rest, rfl⟩ := List.exists_cons_of_ne_nil hne
  intro u
  rw [List.append_assoc, helpChars_append (t := c :: rest ++ u) hstart, ht, helpChars_append hstart,
    List.append_assoc]

/-- A text that is one valid code point. -/
def Single (s : Bytes) : Prop := (helpUtf8Next s).valid = true ∧ (helpUtf8Next s).length = s.length

theorem single_take {s : Bytes} (h : (helpUtf8Next s).valid = true) :
    Single (s.take (helpUtf8Next s).length) := by
  have htake := helpUtf8Next_take_append h []
  rw [List.append_nil] at htake
  have hne : s ≠ [] := by
    rintro rfl
    cases h
  refine ⟨by rw [htake, h], ?_⟩
  rw [htake, List.length_take, Nat.min_eq_left (helpUtf8Next_length_le hne)]

variable {s t : Bytes}

theorem Single.ne_nil (h : Single s) : s ≠ [] := by
  rintro rfl
  cases h.1

theorem Single.nonContinuation (h : Single s) : NonContinuation s := by
  obtain ⟨lead, rest, len, value, rfl, hlead, -⟩ := helpUtf8Next_valid h.1
  intro c hc
  cases hc
  exact helpLead_nonContinuation hlead

theorem Single.helpChars_append (h : Single s) (t : Bytes) :
    helpChars (s ++ t) = s :: helpChars t := by
  have hst : s ++ t ≠ [] := fun heq => h.ne_nil (List.append_eq_nil_iff.mp heq).1
  rw [helpChars_of_ne_nil hst, helpUtf8Next_append h.1, h.2, List.take_left, List.drop_left]

theorem Single.helpChars_eq (h : Single s) : helpChars s = [s] := by
  have happend := h.helpChars_append []
  rwa [List.append_nil, helpChars_nil] at happend

theorem Single.whole (h : Single s) : Whole s :=
  fun t => by rw [h.helpChars_append, h.helpChars_eq, List.singleton_append]

theorem replacement_displayWidth : helpCodepointDisplayWidth HelpChar.replacement.cp = 1 := by
  decide

theorem charWidth_take (s : Bytes) :
    charWidth (s.take (helpUtf8Next s).length) = helpCodepointDisplayWidth (helpUtf8Next s).cp := by
  unfold charWidth
  rw [helpUtf8Next_take]

theorem helpDisplayWidth_of_ne_nil (h : s ≠ []) : helpDisplayWidth s =
    helpCodepointDisplayWidth (helpUtf8Next s).cp + helpDisplayWidth
      (s.drop (helpUtf8Next s).length) := by
  rw [helpDisplayWidth, if_neg h]

/-- A text without a width has only valid code points. -/
theorem whole_of_helpDisplayWidth_eq_zero (h : helpDisplayWidth s = 0) : Whole s := by
  induction hn : s.length using Nat.strong_induction_on generalizing s with
  | _ n ih =>
  by_cases hs : s = []
  · rw [hs]
    exact whole_nil
  · rw [helpDisplayWidth_of_ne_nil hs] at h
    obtain ⟨hfirst, hrest⟩ := Nat.add_eq_zero_iff.mp h
    have hvalid : (helpUtf8Next s).valid = true := by
      cases hvalid : (helpUtf8Next s).valid with
      | true => rfl
      | false =>
        rw [helpUtf8Next_of_not_valid hvalid, replacement_displayWidth] at hfirst
        cases hfirst
    have hpos := helpUtf8Next_length_pos s
    have hlength := List.length_pos_iff.mpr hs
    have hwhole :=
      (single_take hvalid).whole.append (ih _ (by rw [List.length_drop]; omega) hrest rfl)
    rwa [List.take_append_drop] at hwhole

theorem helpDisplayWidth_append_of_whole (h : Whole s) (t : Bytes) :
    helpDisplayWidth (s ++ t) = helpDisplayWidth s + helpDisplayWidth t := by
  rw [helpDisplayWidth_eq, h, List.map_append, List.sum_append, ← helpDisplayWidth_eq,
    ← helpDisplayWidth_eq]

theorem helpDisplayWidth_append (ht : NonContinuation t) :
    helpDisplayWidth (s ++ t) = helpDisplayWidth s + helpDisplayWidth t := by
  rw [helpDisplayWidth_eq, helpChars_append ht, List.map_append, List.sum_append,
    ← helpDisplayWidth_eq, ← helpDisplayWidth_eq]

/-! ## A text that is read piece by piece -/

/-- The pieces of `s` are those that it has before any beginning of `rest`. -/
def Reads (s rest : Bytes) : Prop := ∀ u, u <+: rest → helpChars (s ++ u) = helpChars s ++
    helpChars u

theorem reads_nil (rest : Bytes) : Reads [] rest := fun u _ => whole_nil u

/-- The next piece of a text, in front of a part of what follows. -/
theorem helpChars_take_append {u : Bytes} (hs : s ≠ [])
    (hu : u <+: s.drop (helpUtf8Next s).length) :
    helpChars (s.take (helpUtf8Next s).length ++ u) = s.take (helpUtf8Next s).length ::
      helpChars u := by
  cases hvalid : (helpUtf8Next s).valid with
  | true => exact (single_take hvalid).helpChars_append u
  | false =>
    have hreplaced := helpUtf8Next_of_not_valid hvalid
    obtain ⟨v, hv⟩ := hu
    have hnext : helpUtf8Next (s.take (helpUtf8Next s).length ++ u) = .replacement := by
      refine helpUtf8Next_of_append_replacement (t := v) ?_
      rw [List.append_assoc, hv, List.take_append_drop, hreplaced]
    have hlength : (s.take (helpUtf8Next s).length).length = 1 := by
      rw [List.length_take, Nat.min_eq_left (helpUtf8Next_length_le hs), hreplaced]
      rfl
    have hne : s.take (helpUtf8Next s).length ++ u ≠ [] := by
      intro h
      rw [(List.append_eq_nil_iff.mp h).1] at hlength
      cases hlength
    rw [helpChars_of_ne_nil hne, hnext]
    exact congrArg₂ (fun a b => a :: helpChars b) (List.take_left' hlength)
      (List.drop_left' hlength)

/-- One more piece is read. -/
theorem Reads.step {cur : Bytes} (h : Reads cur s) (hs : s ≠ []) :
    Reads (cur ++ s.take (helpUtf8Next s).length) (s.drop (helpUtf8Next s).length) ∧
      helpChars (cur ++ s.take (helpUtf8Next s).length) = helpChars cur ++
        [s.take (helpUtf8Next s).length] := by
  have hread {u : Bytes} (hu : u <+: s.drop (helpUtf8Next s).length) :
      helpChars (cur ++ (s.take (helpUtf8Next s).length ++ u)) =
        helpChars cur ++ s.take (helpUtf8Next s).length :: helpChars u := by
    have hbegins := (List.prefix_append_right_inj (s.take (helpUtf8Next s).length)).mpr hu
    rw [List.take_append_drop] at hbegins
    rw [h _ hbegins, helpChars_take_append hs hu]
  have hnil := hread List.nil_prefix
  rw [List.append_nil, helpChars_nil] at hnil
  refine ⟨fun u hu => ?_, hnil⟩
  rw [List.append_assoc, hread hu, hnil, List.append_assoc, List.singleton_append]

theorem helpDisplayWidth_step {cur : Bytes} (h : Reads cur s) (hs : s ≠ []) :
    helpDisplayWidth (cur ++ s.take (helpUtf8Next s).length) =
      helpDisplayWidth cur + helpCodepointDisplayWidth (helpUtf8Next s).cp := by
  rw [helpDisplayWidth_eq, (h.step hs).2, List.map_append, List.sum_append, ← helpDisplayWidth_eq,
    List.map_singleton, List.sum_singleton, charWidth_take]

/-- A piece has one byte that is no continuation byte, at most. -/
theorem helpUtf8CodepointCount_take (hs : s ≠ []) :
    helpUtf8CodepointCount (s.take (helpUtf8Next s).length) ≤ 1 := by
  rcases helpUtf8Next_cases s with hreplaced | ⟨lead, rest, len, value, rfl, hlead, -, hall, hlen,
    -⟩
  · rw [hreplaced]
    exact List.countP_le_length.trans (List.length_take_le _ _)
  · obtain ⟨n, rfl⟩ : ∃ n, len = n + 1 := ⟨len - 1, by have := helpLead_pos hlead; omega⟩
    rw [Nat.add_sub_cancel] at hall
    rw [hlen, List.take_succ_cons]
    unfold helpUtf8CodepointCount
    have hzero : (rest.take n).countP (fun c => !isContinuation c) = 0 := by
      rw [List.countP_eq_zero]
      intro c hc
      rw [List.all_eq_true.mp hall c hc]
      exact Bool.false_ne_true
    rw [List.countP_cons, hzero, Nat.zero_add]
    split_ifs <;> simp

theorem helpUtf8CodepointCount_append (s t : Bytes) :
    helpUtf8CodepointCount (s ++ t) = helpUtf8CodepointCount s + helpUtf8CodepointCount t :=
  List.countP_append

/-- A piece that begins with no blank has none. -/
theorem blank_notMem_take {c : UInt8} {rest : Bytes} (hc : c ≠ blank) :
    blank ∉ (c :: rest).take (helpUtf8Next (c :: rest)).length := by
  rcases helpUtf8Next_cases (c :: rest) with hreplaced | ⟨lead, rest', len, value, heq, hlead, -,
    hall, hlen, -⟩
  · rw [hreplaced]
    exact fun hmem => hc (List.mem_singleton.mp hmem).symm
  · obtain ⟨rfl, rfl⟩ := List.cons.inj heq
    obtain ⟨n, rfl⟩ : ∃ n, len = n + 1 := ⟨len - 1, by have := helpLead_pos hlead; omega⟩
    rw [Nat.add_sub_cancel] at hall
    rw [hlen, List.take_succ_cons]
    intro hmem
    rcases List.mem_cons.mp hmem with heq | hmem
    · exact hc heq.symm
    · exact absurd (List.all_eq_true.mp hall blank hmem) (by decide)

end Libca.Opt
