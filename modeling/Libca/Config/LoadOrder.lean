import Libca.Config.Registry
import Libca.Json.RoundTrip

/-!
# Lookups and loads in another order (`config/config.cpp`)

Loads apply every member of a name to a variable in the order of the document; a lookup after them
finds the first member of the last document.

* `slot_calls`: a name in a sequence of calls that do not look it up.
* `foldl_apply`: **the last value that converts** is what a variable is left with.
* `lookup_load_order`: exactly when a lookup can be moved past loads; no name is both registered and
  pending.
* `not_lookup_load_order`: a repeated member.
-/

namespace Libca.Config

open Common Json Str

variable {floats : Floats} (std : DoubleChars)

/-- A call of the interface. -/
inductive ConfigCall (floats : Floats)
  | load (text : Bytes)
  | lookup (t : Ty) (name : Bytes) (defaultValue : t.Val floats)

/-- The call looks up the name. -/
def ConfigCall.LooksUp (name : Bytes) : ConfigCall floats → Prop
  | .load _ => False
  | .lookup _ other _ => other = name

namespace ConfigState

def call (s : ConfigState floats) : ConfigCall floats → ConfigState floats
  | .load text => (s.load std text).2
  | .lookup t name defaultValue => (s.lookup t name defaultValue).2

def calls (s : ConfigState floats) (cs : List (ConfigCall floats)) : ConfigState floats :=
  cs.foldl (call std) s

end ConfigState

/-- The documents that a sequence of calls loads. -/
def documents (cs : List (ConfigCall floats)) : List Members :=
  cs.filterMap fun
    | .load text => documentOf std text
    | .lookup _ _ _ => none

variable {std} {name : Bytes} {t : Ty}

namespace Slot

/-- The documents one after the other. -/
def loads (name : Bytes) (slot : Slot floats) (docs : List Members) : Slot floats :=
  docs.foldl (fun slot document => slot.load name document) slot

/-- A name that nothing has claimed. -/
def waiting : Option Members → Slot floats
  | none => .unclaimed
  | some document => .pending document

theorem lookup_waiting (defaultValue : t.Val floats) (p : Option Members) :
    (waiting p : Slot floats).lookup t name defaultValue =
      .registered ⟨t, materialize t name defaultValue p⟩ := by
  cases p <;> rfl

theorem loads_registered (var : Var floats) (docs : List Members) :
    (Slot.registered var).loads name docs =
      .registered ((docs.flatMap (valuesOf name)).foldl Var.apply var) := by
  induction docs generalizing var with
  | nil => rfl
  | cons document docs ih =>
    rw [List.flatMap_cons, List.foldl_append]
    exact ih _

end Slot

/-- The last document that has the name. -/
def lastDocument (name : Bytes) (docs : List Members) (p : Option Members) : Option Members :=
  docs.foldl (fun p document => if valuesOf name document = [] then p else some document) p

theorem loads_waiting (p : Option Members) (docs : List Members) :
    (Slot.waiting p : Slot floats).loads name docs = .waiting (lastDocument name docs p) := by
  induction docs generalizing p with
  | nil => rfl
  | cons document docs ih =>
    have hone : (Slot.waiting p : Slot floats).load name document =
        .waiting (if valuesOf name document = [] then p else some document) := by
      cases p with
      | none =>
        show (if valuesOf name document = [] then Slot.unclaimed else .pending document) = _
        split_ifs <;> rfl
      | some old =>
        show (if valuesOf name document = [] then Slot.pending old else .pending document) = _
        split_ifs <;> rfl
    show ((Slot.waiting p : Slot floats).load name document).loads name docs = _
    rw [hone, ih]
    rfl

/-- **A name in calls that do not look it up.** -/
theorem slot_calls (s : ConfigState floats) {cs : List (ConfigCall floats)}
    (h : ∀ c ∈ cs, ¬ c.LooksUp name) :
    (s.calls std cs).slot name = (s.slot name).loads name (documents std cs) := by
  induction cs generalizing s with
  | nil => rfl
  | cons c cs ih =>
    have hrest := ih (s.call std c) fun c hmem => h c (.tail _ hmem)
    show ((s.call std c).calls std cs).slot name = _
    rw [hrest]
    cases c with
    | load text =>
      cases hdocument : documentOf std text with
      | none =>
        have hdocs : documents std (.load text :: cs : List (ConfigCall floats)) =
          documents std cs :=
          List.filterMap_cons_none hdocument
        rw [hdocs, ConfigState.call, ConfigState.load_of_refused hdocument]
      | some document =>
        have hdocs : documents std (.load text :: cs : List (ConfigCall floats)) =
            document :: documents std cs :=
          List.filterMap_cons_some hdocument
        rw [hdocs, ConfigState.call, ConfigState.slot_load hdocument]
        rfl
    | lookup t other defaultValue =>
      have hne : name ≠ other := fun heq => h _ List.mem_cons_self heq.symm
      have hdocs : documents std (.lookup t other defaultValue :: cs) = documents std cs :=
        List.filterMap_cons_none rfl
      rw [hdocs, ConfigState.call, ConfigState.slot_lookup_of_ne hne]

/-! ## The values of a variable -/

/-- One value. -/
theorem apply_spec (v : t.Val floats) (value : JsonValue) :
    ∃ w, Var.apply ⟨t, v⟩ value = ⟨t, w⟩ ∧
      t.Same w ((convert t value).getD v) := by
  unfold Var.apply Var.setFromJson convert
  dsimp only
  cases JsonCast.fromJson floats t value with
  | error e => exact ⟨v, rfl, .inl rfl⟩
  | ok converted =>
    dsimp only
    by_cases hequal : t.equal floats v converted = true
    · rw [if_pos hequal]
      exact ⟨v, rfl, .inr hequal⟩
    · rw [if_neg hequal]
      exact ⟨converted, rfl, .inl rfl⟩

/-- **The last value that converts.** -/
theorem foldl_apply (v : t.Val floats) (values : List JsonValue) :
    ∃ w, values.foldl Var.apply ⟨t, v⟩ = ⟨t, w⟩ ∧
      t.Same w ((values.filterMap (convert t)).getLast?.getD v) := by
  induction values generalizing v with
  | nil => exact ⟨v, rfl, .inl rfl⟩
  | cons value values ih =>
    obtain ⟨v₁, hfirst, hsame₁⟩ := apply_spec v value
    obtain ⟨w, hrest, hsame⟩ := ih v₁
    refine ⟨w, ?_, (Ty.same_equivalence t).trans hsame ?_⟩
    · rw [List.foldl_cons, hfirst, hrest]
    · cases hconvert : (convert t value : Option (t.Val floats)) with
      | none =>
        rw [List.filterMap_cons_none hconvert]
        rw [hconvert] at hsame₁
        cases (values.filterMap (convert t) : List (t.Val floats)).getLast? with
        | none => exact hsame₁
        | some last => exact .inl rfl
      | some converted =>
        rw [List.filterMap_cons_some hconvert, List.getLast?_cons]
        rw [hconvert] at hsame₁
        cases (values.filterMap (convert t) : List (t.Val floats)).getLast? with
        | none => exact hsame₁
        | some last => exact .inl rfl

/-! ## The order -/

/-- The value of the last member of a name that converts; the default where none does. -/
def lastValue (t : Ty) (name : Bytes) (defaultValue : t.Val floats) (document : Members) :
    t.Val floats :=
  (((valuesOf name document).filterMap (convert t)).getLast?).getD defaultValue

/-- The value of the first member of a name; the default where it does not convert. -/
def firstValue (t : Ty) (name : Bytes) (defaultValue : t.Val floats) (document : Members) :
    t.Val floats :=
  (((valuesOf name document).head?).bind (convert t)).getD defaultValue

/-- The members of a name agree: the last that converts has the value of the first, where the
default stands for a first one that does not convert. -/
def Agrees (t : Ty) (name : Bytes) (defaultValue : t.Val floats) (document : Members) : Prop :=
  t.Same (lastValue t name defaultValue document) (firstValue t name defaultValue document)

theorem find_eq (members : Members) (name : Bytes) :
    find members name = (valuesOf name members).head? := by
  unfold find valuesOf
  rw [List.head?_map, List.head?_filter]

theorem materialize_some (defaultValue : t.Val floats) (document : Members) :
    Slot.materialize t name defaultValue (some document) =
      firstValue t name defaultValue document := by
  unfold Slot.materialize firstValue
  rw [Option.bind_some, find_eq]

/-- The last document of a name has it, and the documents behind it have not. -/
theorem lastDocument_spec (name : Bytes) (docs : List Members) :
    ((∀ p, lastDocument name docs p = p) ∧ docs.flatMap (valuesOf name) = []) ∨
      ∃ document values, (∀ p, lastDocument name docs p = some document) ∧
        valuesOf name document ≠ [] ∧ document ∈ docs ∧
        docs.flatMap (valuesOf name) = values ++ valuesOf name document := by
  induction docs with
  | nil => exact .inl ⟨fun _ => rfl, rfl⟩
  | cons first docs ih =>
    have hcons (p : Option Members) : lastDocument name (first :: docs) p =
        lastDocument name docs (if valuesOf name first = [] then p else some first) := rfl
    rw [List.flatMap_cons]
    rcases ih with ⟨hlast, hnil⟩ | ⟨document, values, hlast, hne, hmem, happend⟩
    · rw [hnil, List.append_nil]
      by_cases hvalues : valuesOf name first = []
      · exact .inl ⟨fun p => by rw [hcons, hlast, if_pos hvalues], hvalues⟩
      · exact .inr ⟨first, [], fun p => by rw [hcons, hlast, if_neg hvalues], hvalues,
          List.mem_cons_self, rfl⟩
    · exact .inr ⟨document, valuesOf name first ++ values, fun p => by rw [hcons, hlast], hne,
        .tail _ hmem, by rw [happend, List.append_assoc]⟩

variable (std)

/-- The name with its type and value in the registry. -/
def Holds (s : ConfigState floats) (name : Bytes) (t : Ty) (v : t.Val floats) : Prop :=
  s.vars.lookup name = some ⟨t, v⟩

theorem holds_of_slot {s : ConfigState floats} {v : t.Val floats}
    (h : s.slot name = .registered ⟨t, v⟩) : Holds s name t v := by
  unfold ConfigState.slot at h
  split at h
  · next var hvar =>
    cases h
    exact hvar
  · split at h <;> cases h

/-- A lookup between calls that do not look up its name. -/
theorem lookup_between (before after : List (ConfigCall floats))
    (hbefore : ∀ c ∈ before, ¬ c.LooksUp name) (hafter : ∀ c ∈ after, ¬ c.LooksUp name)
    (defaultValue : t.Val floats) :
    ∃ v, Holds (ConfigState.calls std {} (before ++ .lookup t name defaultValue :: after)) name t
      v ∧
      t.Same v
        ((((documents std after).flatMap (valuesOf name)).filterMap (convert t)).getLast?.getD
        (Slot.materialize t name defaultValue
      (lastDocument name (documents std before) none))) := by
  obtain ⟨v, hv, hsame⟩ := foldl_apply
    (Slot.materialize t name defaultValue (lastDocument name (documents std before) none))
    ((documents std after).flatMap (valuesOf name))
  refine ⟨v, holds_of_slot ?_, hsame⟩
  have hstart : ({} : ConfigState floats).slot name = .waiting none := rfl
  have hrun : ConfigState.calls std {} (before ++ .lookup t name defaultValue :: after) =
      ((ConfigState.calls std {} before).lookup t name defaultValue).2.calls std after :=
    List.foldl_append
  rw [hrun, slot_calls _ hafter, ConfigState.slot_lookup, slot_calls {} hbefore, hstart,
    loads_waiting, Slot.lookup_waiting, Slot.loads_registered, hv]

theorem documents_append (before after : List (ConfigCall floats)) :
    documents std (before ++ after) = documents std before ++ documents std after :=
  List.filterMap_append

theorem lastDocument_append (docs docs' : List Members) (p : Option Members) :
    lastDocument name (docs ++ docs') p = lastDocument name docs' (lastDocument name docs p) :=
  List.foldl_append

/-- Values that are the same as two others are the same when those are. -/
theorem same_congr {v w v' w' : t.Val floats} (hv : t.Same v v') (hw : t.Same w w') :
    t.Same v w ↔ t.Same v' w' := by
  have hequiv : Equivalence fun a b : t.Val floats => t.Same a b := Ty.same_equivalence t
  constructor
  · exact fun h => hequiv.trans (hequiv.symm hv) (hequiv.trans h hw)
  · exact fun h => hequiv.trans hv (hequiv.trans h (hequiv.symm hw))

/-- A load and a lookup, in both orders. -/
theorem lookup_load_one {text : Bytes} {document : Members}
    (h : documentOf std text = some document)
    (name : Bytes) (t : Ty) (defaultValue : t.Val floats) :
    ∃ v w, Holds (ConfigState.calls std {} [.lookup t name defaultValue, .load text]) name t v ∧
      Holds (ConfigState.calls std {} [.load text, .lookup t name defaultValue]) name t w ∧
      (t.Same v w ↔ Agrees t name defaultValue document) := by
  have hload : documents std [(.load text : ConfigCall floats)] = [document] :=
    List.filterMap_cons_some h
  obtain ⟨v, hv, hsame⟩ := lookup_between std [] [.load text] (by simp)
    (by simp [ConfigCall.LooksUp]) defaultValue
  obtain ⟨w, hw, hsame'⟩ := lookup_between std [.load text] [] (by simp [ConfigCall.LooksUp])
    (by simp) defaultValue
  refine ⟨v, w, hv, hw, same_congr ?_ ?_⟩
  · rw [hload, List.flatMap_cons, List.flatMap_nil, List.append_nil] at hsame
    exact hsame
  · rw [hload] at hsame'
    refine (Ty.same_equivalence t).trans hsame' (.inl ?_)
    show Slot.materialize t name defaultValue (if valuesOf name document = [] then
      none else some document) = _
    by_cases hvalues : valuesOf name document = []
    · rw [if_pos hvalues, firstValue, hvalues]
      rfl
    · rw [if_neg hvalues, materialize_some]

/-- **Moving a lookup** past calls whose documents convert. -/
theorem lookup_move {before between after : List (ConfigCall floats)}
    (hbefore : ∀ c ∈ before, ¬ c.LooksUp name) (hbetween : ∀ c ∈ between, ¬ c.LooksUp name)
    (hafter : ∀ c ∈ after, ¬ c.LooksUp name) (defaultValue : t.Val floats)
    (hconverts : ∀ document ∈ documents std between, ∀ value ∈ valuesOf name document,
      (convert t value : Option (t.Val floats)) ≠ none) :
    ∃ v w,
      Holds (ConfigState.calls std {} (before ++ .lookup t name defaultValue :: (between ++ after)))
        name t v ∧
      Holds (ConfigState.calls std {} (before ++ between ++ .lookup t name defaultValue :: after))
        name t w ∧
      (t.Same v w ↔
        (((documents std after).flatMap (valuesOf name)).filterMap (convert t) : List
      (t.Val floats)) ≠ [] ∨
        ∀ document, lastDocument name (documents std between) none = some document →
          Agrees t name defaultValue document) := by
  obtain ⟨v, hv, hsame⟩ := lookup_between std before (between ++ after) hbefore
    (fun c hmem => (List.mem_append.mp hmem).elim (hbetween c) (hafter c)) defaultValue
  obtain ⟨w, hw, hsame'⟩ := lookup_between std (before ++ between) after
    (fun c hmem => (List.mem_append.mp hmem).elim (hbefore c) (hbetween c)) hafter defaultValue
  refine ⟨v, w, hv, hw, (same_congr hsame hsame').trans ?_⟩
  rw [documents_append, documents_append, lastDocument_append, List.flatMap_append,
    List.filterMap_append, List.getLast?_append]
  have hrefl (a : t.Val floats) : t.Same a a := (Ty.same_equivalence t).refl a
  cases hlast : (((documents std after).flatMap (valuesOf name)).filterMap (convert t) :
      List (t.Val floats)).getLast? with
  | some last =>
    -- a later value decides
    have hne : (((documents std after).flatMap (valuesOf name)).filterMap (convert t) :
        List (t.Val floats)) ≠ [] := by
      intro hnil
      rw [hnil] at hlast
      cases hlast
    exact iff_of_true (hrefl last) (.inl hne)
  | none =>
    have hnil := List.getLast?_eq_none_iff.mp hlast
    rw [Option.none_or, Option.getD_none]
    rcases lastDocument_spec name (documents std between) with
      ⟨hkept, hvalues⟩ | ⟨document, values, hfound, hne, hmem, happend⟩
    · rw [hkept, hvalues]
      refine iff_of_true (hrefl _) (.inr fun document hdocument => ?_)
      rw [hkept] at hdocument
      cases hdocument
    · -- the last document in between decides
      obtain ⟨last, hconverted⟩ : ∃ last,
          ((valuesOf name document).filterMap (convert t) : List (t.Val floats)).getLast? =
            some last := by
        obtain ⟨value, hvalue⟩ := List.exists_mem_of_ne_nil _ hne
        obtain ⟨c, hc⟩ := Option.ne_none_iff_exists'.mp (hconverts document hmem value hvalue)
        have hpos := List.length_pos_of_mem (List.mem_filterMap.mpr ⟨value, hvalue, hc⟩)
        exact ⟨_, List.getLast?_eq_some_getLast (List.length_pos_iff.mp hpos)⟩
      rw [hfound, hfound, happend, List.filterMap_append, List.getLast?_append, hconverted,
        Option.some_or, Option.getD_some, materialize_some]
      have hagrees : Agrees t name defaultValue document ↔
          t.Same last (firstValue t name defaultValue document) := by
        unfold Agrees lastValue
        rw [hconverted, Option.getD_some]
      rw [← hagrees]
      constructor
      · intro h
        refine .inr ?_
        rintro _ ⟨⟩
        exact h
      · rintro (h | h)
        · exact absurd hnil h
        · exact h document rfl

/-- No name is both registered and pending. -/
theorem separate_calls
    (cs : List (ConfigCall floats)) : (ConfigState.calls std {} cs).Separate := by
  have hrun (s : ConfigState floats) (hs : s.Separate) : (s.calls std cs).Separate := by
    induction cs generalizing s with
    | nil => exact hs
    | cons c cs ih =>
      refine ih (s.call std c) ?_
      cases c with
      | load text => exact hs.load text
      | lookup t name defaultValue => exact hs.lookup t name defaultValue
  exact hrun {} fun name hmem => absurd hmem Finmap.notMem_empty

/-- **The order of lookups and loads**: exactly when it does not matter. -/
theorem lookup_load_order (floats : Floats) (std : DoubleChars) :
    (∀ (text : Bytes) (document : Members) (name : Bytes) (t : Ty) (defaultValue : t.Val floats),
      documentOf std text = some document →
      ∃ v w, Holds (ConfigState.calls std {} [.lookup t name defaultValue, .load text]) name t v ∧
        Holds (ConfigState.calls std {} [.load text, .lookup t name defaultValue]) name t w ∧
        (t.Same v w ↔ Agrees t name defaultValue document)) ∧
    (∀ (before between after : List (ConfigCall floats)) (name : Bytes) (t : Ty)
      (defaultValue : t.Val floats),
      (∀ c ∈ before ++ between ++ after, ¬ c.LooksUp name) →
      (∀ document ∈ documents std between, ∀ value ∈ valuesOf name document,
        (convert t value : Option (t.Val floats)) ≠ none) →
      ∃ v w,
        Holds (ConfigState.calls std {} (before ++ .lookup t name defaultValue ::
      (between ++ after)))
          name t v ∧
        Holds (ConfigState.calls std {} (before ++ between ++ .lookup t name defaultValue :: after))
          name t w ∧
        (t.Same v w ↔
          (((documents std after).flatMap (valuesOf name)).filterMap (convert t) :
            List (t.Val floats)) ≠ [] ∨
          ∀ document, lastDocument name (documents std between) none = some document →
            Agrees t name defaultValue document)) ∧
    ∀ (cs : List (ConfigCall floats)) (name : Bytes),
      name ∈ (ConfigState.calls std {} cs).vars → name ∉ (ConfigState.calls std {} cs).pending := by
  refine ⟨?_, ?_, ?_⟩
  · exact fun text document name t defaultValue h => lookup_load_one std h name t defaultValue
  · intro before between after name t defaultValue hother hconverts
    refine lookup_move std (fun c hmem => ?_) (fun c hmem => ?_) (fun c hmem =>
      ?_) defaultValue hconverts
    · exact hother c (List.mem_append_left _ (List.mem_append_left _ hmem))
    · exact hother c (List.mem_append_left _ (List.mem_append_right _ hmem))
    · exact hother c (List.mem_append_right _ hmem)
  · exact fun cs name => separate_calls std cs name

/-! ## A repeated member -/

/-- What `operator==` of doubles compares: a NaN equals nothing, and the zeros are equal. -/
def doubleKey (v : F64) : Option UInt64 :=
  if v.isNan then none else if v.bits.toNat % 2 ^ 63 = 0 then some 0 else some v.bits

/-- `double`; its conversion from integers is left to zero. -/
def sampleDouble : FloatType where
  Val := F64
  equal a b := (doubleKey a).isSome && doubleKey a == doubleKey b
  symm a b h := by
    rw [Bool.and_eq_true, beq_iff_eq] at h ⊢
    exact ⟨h.2 ▸ h.1, h.2.symm⟩
  trans a b c h h' := by
    rw [Bool.and_eq_true, beq_iff_eq] at h h' ⊢
    exact ⟨h.1, h.2.trans h'.2⟩
  toF64 := id
  ofF64 := id
  ofI64 _ := ⟨0⟩

def sampleFloats : Floats where
  type _ := sampleDouble
  f64OfU64 _ := ⟨0⟩

/-- The text of an object. -/
def sampleText (members : Members) : Bytes := JsonWriter.write sampleChars {} (.object members)

theorem documentOf_sampleText {members : Members} (hvalid : (JsonValue.object members).Valid)
    (hdepth : (JsonValue.object members).depth ≤ 1000) :
    documentOf sampleChars (sampleText members) = some members := by
  unfold documentOf sampleText
  rw [read_written (fun v _ => inverse_sampleChars v) {} _ hvalid hdepth]

/-- `{"b":true}`. -/
def once : Members := [([98], .bool true)]

theorem documentOf_once : documentOf sampleChars (sampleText once) = some once :=
  documentOf_sampleText ⟨isUtf8_of_ascii (by decide), trivial, trivial⟩ (by decide)

/-- `{"k":1,"k":2}`. -/
def repeated : Members := [([107], .int 1), ([107], .int 2)]

theorem documentOf_repeated : documentOf sampleChars (sampleText repeated) = some repeated :=
  documentOf_sampleText
    ⟨isUtf8_of_ascii (by decide), trivial, isUtf8_of_ascii (by decide), trivial, trivial⟩
      (by decide)

/-- One member, and a lookup on both sides of it. -/
theorem lookup_load_order_once :
    (∃ v w : Ty.bool.Val sampleFloats,
      Holds (ConfigState.calls sampleChars {} [.lookup .bool [98] false, .load (sampleText once)])
          [98] .bool v ∧
        Holds (ConfigState.calls sampleChars {} [.load (sampleText once), .lookup .bool [98] false])
          [98] .bool w ∧ Ty.bool.Same v w) ∧
    ∃ v w : Ty.bool.Val sampleFloats,
      Holds (ConfigState.calls sampleChars {} ([] ++ .lookup .bool [98] false ::
          ([.load (sampleText once)] ++ []))) [98] .bool v ∧
        Holds (ConfigState.calls sampleChars {} ([] ++ [.load (sampleText once)] ++
          [.lookup .bool [98] false])) [98] .bool w ∧ Ty.bool.Same v w := by
  have hagrees : @Agrees sampleFloats .bool [98] false once := .inl rfl
  have hdocs : documents sampleChars [(.load (sampleText once) : ConfigCall sampleFloats)] =
    [once] :=
    List.filterMap_cons_some documentOf_once
  obtain ⟨hone, hmove, -⟩ := lookup_load_order sampleFloats sampleChars
  obtain ⟨v, w, hv, hw, hiff⟩ := hone (sampleText once) once [98] .bool false documentOf_once
  obtain ⟨v', w', hv', hw', hiff'⟩ := hmove [] [.load (sampleText once)] [] [98] .bool false
    (by simp [ConfigCall.LooksUp]) (by
      intro document hmem value hvalue
      rw [hdocs, List.mem_singleton] at hmem
      subst hmem
      rw [show valuesOf [98] once = [.bool true] from rfl, List.mem_singleton] at hvalue
      subst hvalue
      exact Option.some_ne_none _)
  refine ⟨⟨v, w, hv, hw, hiff.mpr hagrees⟩, v', w', hv', hw',
    hiff'.mpr (.inr fun document hlast => ?_)⟩
  rw [hdocs] at hlast
  cases hlast
  exact hagrees

/-- **A repeated member**: the lookup in front of the load ends with the last value, the lookup
behind it with the first. -/
theorem not_lookup_load_order :
    ¬ ∀ (floats : Floats) (std : DoubleChars) (text : Bytes) (document : Members) (name : Bytes) (t : Ty)
      (defaultValue : t.Val floats), documentOf std text = some document →
      ∃ v w, Holds (ConfigState.calls std {} [.lookup t name defaultValue, .load text]) name t v ∧
        Holds (ConfigState.calls std {} [.load text, .lookup t name defaultValue]) name t w ∧
        t.Same v w := by
  intro hclaim
  obtain ⟨v, w, hv, hw, hsame⟩ :=
    hclaim sampleFloats sampleChars (sampleText repeated) repeated [107]
    (.integer true .w32) ⟨0, by decide⟩ documentOf_repeated
  obtain ⟨v', w', hv', hw', hiff⟩ := lookup_load_one sampleChars documentOf_repeated [107]
    (.integer true .w32) (⟨0, by decide⟩ : IntVal true .w32)
  have hv := hv.symm.trans hv'
  have hw := hw.symm.trans hw'
  cases hv
  cases hw
  rcases hiff.mp hsame with hidentical | hequal
  · exact absurd (congrArg Subtype.val hidentical : (2 : Int) = 1) (by decide)
  · cases hequal

end Libca.Config
