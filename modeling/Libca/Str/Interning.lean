import Libca.Common.Run
import Libca.Str.Arena

/-!
# Interning in runs of arenas (`str/utf8_string_arena.cpp`)

A program interns strings in arenas, moves arenas and destroys them. `intern` and `intern_raw` share
the index of an arena but not the length that they record, so a string keeps the length that the
first of the two recorded.

* `Interning`: what the views of an arena promise, over all calls to it.
* `arena_interning`: every run keeps the promise in which no `intern` is given bytes that
  `intern_raw` stored first, unless they are ASCII; and any other `intern` breaks it.
-/

namespace Libca.Str

open Common

/-! ## Counting code points -/

theorem length_le_length_encode (cs : List Char) : cs.length ≤ (encode cs).length := by
  induction cs with
  | nil => exact le_rfl
  | cons c cs ih =>
    have hpos : 0 < (String.utf8EncodeChar c).length :=
      List.length_pos_iff.mpr (utf8EncodeChar_ne_nil c)
    rw [encode_cons, List.length_append, List.length_cons]
    omega

/-- A string has as many code points as bytes when it is ASCII, and only then. -/
theorem length_encode_eq_iff (cs : List Char) :
    (encode cs).length = cs.length ↔ ∀ b ∈ encode cs, b < 0x80 := by
  induction cs with
  | nil => simp
  | cons c cs ih =>
    have hle := length_le_length_encode cs
    have hc := toNat_scalar c
    rw [encode_cons, List.length_append, List.length_cons]
    obtain ⟨hlt, hone⟩ | ⟨hge, hhigh⟩ := utf8EncodeChar_ascii_or c
    · rw [hone, List.length_singleton, Nat.add_comm, Nat.add_right_cancel_iff, ih,
        List.forall_mem_append]
      constructor
      · refine fun h => ⟨fun b hb => ?_, h⟩
        obtain rfl := List.mem_singleton.mp hb
        rw [UInt8.lt_iff_toNat_lt, UInt8.toNat_ofNat']
        exact (Nat.mod_le _ _).trans_lt hlt
      · exact fun h => h.2
    · have htwo : 2 ≤ (String.utf8EncodeChar c).length := by
        rcases toNat_cases c with h | ⟨h, h'⟩ | ⟨h, h'⟩ | h
        · omega
        · rw [utf8EncodeChar_two h h']
          exact le_rfl
        · rw [utf8EncodeChar_three h h']
          exact Nat.le_succ _
        · rw [utf8EncodeChar_four h]
          simp
      constructor
      · intro h
        omega
      · intro h
        obtain ⟨b, hb⟩ := List.exists_mem_of_ne_nil _ (utf8EncodeChar_ne_nil c)
        have hlow := UInt8.lt_iff_toNat_lt.mp (h b (List.mem_append_left _ hb))
        exact absurd (hhigh b hb) (Nat.not_le.mpr hlow)

namespace Utf8StringArena

theorem checkedLength_eq_some {data : Bytes} (hne : data ≠ []) {n : Nat} :
    checkedLength data = some n ↔ ∃ cs, data = encode cs ∧ n = cs.length := by
  unfold checkedLength
  split_ifs with h
  · have hnot := (countCodePoints_eq_zero hne).mp h
    constructor
    · intro h'
      cases h'
    · rintro ⟨cs, rfl, -⟩
      exact absurd (isUtf8_encode cs) hnot
  · obtain ⟨cs, rfl⟩ := not_not.mp fun hnot => h ((countCodePoints_eq_zero hne).mpr hnot)
    have hcount : countCodePoints (encode cs) = cs.length := by
      unfold countCodePoints
      rw [countLoop_encode]
      rfl
    rw [hcount]
    constructor
    · intro h'
      exact ⟨cs, rfl, (Option.some.inj h').symm⟩
    · rintro ⟨ds, hds, rfl⟩
      rw [← hcount, hds]
      unfold countCodePoints
      rw [countLoop_encode]
      rfl

end Utf8StringArena

open Utf8StringArena

/-! ## What the calls return -/

/-- A call of `intern` or `intern_raw` and the view that it returned. -/
structure Interned where
  raw : Bool
  bytes : Bytes
  view : Utf8StringRef

namespace Utf8StringRef

/-- The bytes that a view shows. -/
def bytes (m : Blocks) (v : Utf8StringRef) : Option Bytes :=
  match v.data with
  | none => some []
  | some address => m.read address v.byteLength

/-- Two views show no common byte. -/
def Disjoint (v w : Utf8StringRef) : Prop :=
  ∀ p q, v.data = some p → w.data = some q → Blocks.Disjoint p v.byteLength q w.byteLength

end Utf8StringRef

/-- What a call promises, as long as the storage lives. -/
structure Interned.Sound (m : Blocks) (r : Interned) : Prop where
  bytes : r.raw = true ∨ IsUtf8 r.bytes → r.view.bytes m = some r.bytes
  length : r.raw = false → ∀ cs, r.bytes = encode cs → r.view.length = cs.length
  invalid : r.raw = false → ¬ IsUtf8 r.bytes → r.view = {}

/-- What all calls to an arena promise together. -/
structure Interning (m : Blocks) (log : List Interned) : Prop where
  sound : ∀ r ∈ log, r.Sound m
  sameAddress : ∀ r ∈ log, ∀ r' ∈ log, r.raw = r'.raw → r.bytes = r'.bytes →
    r.view.data = r'.view.data
  disjoint : ∀ r ∈ log, ∀ r' ∈ log, r.bytes ≠ r'.bytes → r.view.Disjoint r'.view

/-- The call that stored a string: the first one that did not refuse it. -/
def firstStored (log : List Interned) (data : Bytes) : Option Interned :=
  log.find? fun r => r.bytes == data && (r.raw || isValid data)

/-- An `intern` of `data` meets no length that `intern_raw` recorded, or the right one. -/
def MeetsNoRaw (log : List Interned) (data : Bytes) : Prop :=
  ∀ r, firstStored log data = some r → r.raw = true → ∀ b ∈ data, b < 0x80

/-- A call returned the view of an item, or nothing. -/
def Returned (items : List Stored) (r : Interned) : Prop :=
  (r.view = {} ∧ (r.bytes = [] ∨ r.raw = false ∧ ¬ IsUtf8 r.bytes)) ∨
    ∃ x ∈ items, x.bytes = r.bytes ∧ r.view = x.view ∧
      (r.raw = false → checkedLength x.bytes = some x.length)

/-- The items of an arena are those that its calls stored. -/
structure Logged (items : List Stored) (log : List Interned) : Prop where
  item : ∀ x ∈ items, ∃ r, firstStored log x.bytes = some r ∧
    (r.raw = true → x.length = x.bytes.length) ∧
    (r.raw = false → checkedLength x.bytes = some x.length)
  stored : ∀ data r, data ≠ [] → firstStored log data = some r → ∃ x ∈ items, x.bytes = data
  returned : ∀ r ∈ log, Returned items r

variable {a : Utf8StringArena} {m : Blocks} {items : List Stored} {log : List Interned}
  {x y : Stored} {data : Bytes} {r : Interned}

theorem logged_nil : Logged [] [] where
  item _ hx := absurd hx List.not_mem_nil
  stored _ _ _ h := by cases h
  returned _ hr := absurd hr List.not_mem_nil

theorem Holds.ne_nil (h : Holds a m items) (hx : x ∈ items) : x.bytes ≠ [] := by
  obtain ⟨_, _, _, hentry⟩ := h.exists_entry hx
  exact hentry.ne_nil

theorem Holds.bytes_view (h : Holds a m items) (hx : x ∈ items) : x.view.bytes m =
    some x.bytes := by
  obtain ⟨_, _, _, hentry⟩ := h.exists_entry hx
  exact hentry.reads

/-- **What the log records is what the calls promise.** -/
theorem Logged.interning (hlog : Logged items log) (h : Holds a m items) : Interning m log := by
  refine ⟨fun r hr => ?_, fun r hr r' hr' hraw hbytes => ?_, fun r hr r' hr' hne p q hp hq => ?_⟩
  · obtain ⟨hview, hempty⟩ | ⟨x, hx, hbytes, hview, hchecked⟩ := hlog.returned r hr
    · refine ⟨fun h => ?_, fun hraw cs hcs => ?_, fun _ _ => hview⟩
      · obtain hnil | ⟨hraw, hnot⟩ := hempty
        · rw [hview, hnil]
          rfl
        · obtain htrue | hutf := h
          · rw [hraw] at htrue
            cases htrue
          · exact absurd hutf hnot
      · obtain hnil | ⟨-, hnot⟩ := hempty
        · have hcsnil : cs = [] := by
            by_contra hcons
            exact encode_ne_nil hcons (hcs.symm.trans hnil)
          rw [hview, hcsnil]
          rfl
        · exact absurd ⟨cs, hcs⟩ hnot
    · have hxne := Holds.ne_nil h hx
      refine ⟨fun _ => ?_, fun hraw cs hcs => ?_, fun hraw hnot => ?_⟩
      · rw [hview, ← hbytes]
        exact Holds.bytes_view h hx
      · have hcount := (checkedLength_eq_some hxne).mpr ⟨cs, hbytes.trans hcs, rfl⟩
        rw [hview]
        exact Option.some.inj ((hchecked hraw).symm.trans hcount)
      · obtain ⟨ds, hds, -⟩ := (checkedLength_eq_some hxne).mp (hchecked hraw)
        exact absurd ⟨ds, hbytes ▸ hds⟩ hnot
  · -- a string of the same kind that was refused once is not an item
    have hmixed : ∀ {q q' : Interned}, (q.bytes = [] ∨ q.raw = false ∧ ¬ IsUtf8 q.bytes) →
        q.raw = q'.raw → q.bytes = q'.bytes → ∀ x ∈ items, x.bytes = q'.bytes →
        (q'.raw = false → checkedLength x.bytes = some x.length) → False := by
      intro q q' hempty hraw hbytes x hx hxbytes hchecked
      have hxne := Holds.ne_nil h hx
      obtain hnil | ⟨hfalse, hnot⟩ := hempty
      · exact hxne (hxbytes.trans (hbytes.symm.trans hnil))
      · obtain ⟨ds, hds, -⟩ := (checkedLength_eq_some hxne).mp (hchecked (hraw ▸ hfalse))
        exact hnot ⟨ds, hbytes.trans (hxbytes.symm.trans hds)⟩
    obtain ⟨hview, hempty⟩ | ⟨x, hx, hxbytes, hview, hchecked⟩ := hlog.returned r hr
    · obtain ⟨hview', -⟩ | ⟨y, hy, hybytes, -, hchecked'⟩ := hlog.returned r' hr'
      · rw [hview, hview']
      · exact (hmixed hempty hraw hbytes y hy hybytes hchecked').elim
    · obtain ⟨-, hempty'⟩ | ⟨y, hy, hybytes, hview', -⟩ := hlog.returned r' hr'
      · exact (hmixed hempty' hraw.symm hbytes.symm x hx hxbytes hchecked).elim
      · rw [hview, hview', h.eq_of_bytes hx hy (hxbytes.trans (hbytes.trans hybytes.symm))]
  · obtain ⟨hview, -⟩ | ⟨x, hx, hxbytes, hview, -⟩ := hlog.returned r hr
    · rw [hview] at hp
      cases hp
    · obtain ⟨hview', -⟩ | ⟨y, hy, hybytes, hview', -⟩ := hlog.returned r' hr'
      · rw [hview'] at hq
        cases hq
      · rw [hview] at hp ⊢
        rw [hview'] at hq ⊢
        cases hp
        cases hq
        have hxy : x ≠ y := fun hxy => hne (hxbytes.symm.trans (hxy ▸ hybytes))
        exact (h.distinct.forall hx hy hxy).2

/-! ## One more call -/

theorem firstStored_append (log : List Interned) (r : Interned) (data : Bytes) :
    firstStored (log ++ [r]) data =
      (firstStored log data).or
        (if r.bytes = data ∧ (r.raw = true ∨ isValid data = true) then some r else none) := by
  unfold firstStored
  rw [List.find?_append]
  congr 1
  rw [List.find?_singleton]
  simp only [Bool.and_eq_true, Bool.or_eq_true, beq_iff_eq]

/-- A string of the log stays the one that was stored first. -/
theorem firstStored_append_of_some {log : List Interned} (r : Interned) {data : Bytes}
    {first : Interned} (h : firstStored log data = some first) :
    firstStored (log ++ [r]) data = some first := by
  rw [firstStored_append, h]
  rfl

theorem firstStored_append_of_none {log : List Interned} {data : Bytes}
    (h : firstStored log data = none) (r : Interned) : firstStored (log ++ [r]) data =
      if r.bytes = data ∧ (r.raw = true ∨ isValid data = true) then some r else none := by
  rw [firstStored_append, h]
  rfl

theorem Returned.mono {items' : List Stored} (h : Returned items r)
    (hsub : ∀ x ∈ items, x ∈ items') : Returned items' r :=
  Or.imp_right (fun ⟨x, hx, hview⟩ => ⟨x, hsub x hx, hview⟩) h

/-- The first call for a string stores it with the length of its kind. -/
structure StoredBy (r : Interned) (x : Stored) : Prop where
  bytes : r.bytes = x.bytes
  accepted : r.raw = true ∨ isValid x.bytes = true
  rawLength : r.raw = true → x.length = x.bytes.length
  length : r.raw = false → checkedLength x.bytes = some x.length

/-- The log after one more call, when that call stored what is new. -/
theorem Logged.append {items' : List Stored} (hlog : Logged items log)
    (hsub : ∀ x ∈ items, x ∈ items')
    (hitem : ∀ x ∈ items', x ∈ items ∨ firstStored log x.bytes = none ∧ StoredBy r x)
    (hstored : r.bytes ≠ [] → (r.raw = true ∨ isValid r.bytes = true) →
      ∃ x ∈ items', x.bytes = r.bytes)
    (hreturned : Returned items' r) : Logged items' (log ++ [r]) := by
  refine ⟨fun x hx => ?_, fun data first hne hfirst => ?_, fun q hq => ?_⟩
  · obtain hx | ⟨hnone, hby⟩ := hitem x hx
    · obtain ⟨first, hfirst, hlength⟩ := hlog.item x hx
      exact ⟨first, firstStored_append_of_some r hfirst, hlength⟩
    · refine ⟨r, ?_, hby.rawLength, hby.length⟩
      rw [firstStored_append_of_none hnone, if_pos ⟨hby.bytes, hby.accepted⟩]
  · cases hlast : firstStored log data with
    | some first' =>
      obtain ⟨x, hx, hbytes⟩ := hlog.stored data first' hne hlast
      exact ⟨x, hsub x hx, hbytes⟩
    | none =>
      rw [firstStored_append_of_none hlast] at hfirst
      split_ifs at hfirst with hmatch
      obtain ⟨rfl, haccepted⟩ := hmatch
      exact hstored hne haccepted
  · obtain hq | hq := List.mem_append.mp hq
    · exact (hlog.returned q hq).mono hsub
    · obtain rfl := List.mem_singleton.mp hq
      exact hreturned

/-- The length that a kind of call records. -/
def newLength (raw : Bool) : Bytes → Option Nat :=
  if raw then fun data => some data.length else checkedLength

/-- An ASCII string counts as many code points as it has bytes. -/
theorem checkedLength_of_ascii (hne : data ≠ []) (h : ∀ b ∈ data, b < 0x80) :
    checkedLength data = some data.length := by
  obtain ⟨cs, rfl⟩ := isUtf8_of_ascii h
  exact (checkedLength_eq_some hne).mpr ⟨cs, rfl, (length_encode_eq_iff cs).mpr h⟩

/-- **A call keeps the log and the items in step**, unless an `intern` meets a length of
`intern_raw`. -/
theorem Logged.call (hlog : Logged items log) (h : Holds a m items) {raw : Bool} {data : Bytes}
    (hmeets : raw = false → MeetsNoRaw log data) {result : Utf8StringRef × Utf8StringArena × Blocks}
    (hresult : Outcome (newLength raw) data items a m result) :
    ∃ items', Holds result.2.1 result.2.2 items' ∧ Confined a m result.2.1 result.2.2 ∧
      Logged items' (log ++ [{ raw := raw, bytes := data, view := result.1 }]) := by
  cases hresult with
  | empty hnil =>
    refine ⟨items, h, .refl a m, hlog.append (fun _ hx => hx) (fun _ hx => .inl hx)
      (fun hne => absurd hnil hne) (.inl ⟨rfl, .inl hnil⟩)⟩
  | refused hne hnot hnone =>
    have hraw : raw = false := by
      cases raw with
      | false => rfl
      | true => cases hnone
    subst hraw
    have hinvalid : ¬ IsUtf8 data := by
      rintro ⟨cs, hcs⟩
      have hcount := (checkedLength_eq_some hne).mpr ⟨cs, hcs, rfl⟩
      cases hcount.symm.trans hnone
    refine ⟨items, h, .refl a m, hlog.append (fun _ hx => hx) (fun _ hx => .inl hx)
      (fun _ haccepted => ?_) (.inl ⟨rfl, .inr ⟨rfl, hinvalid⟩⟩)⟩
    obtain hfalse | hvalid := haccepted
    · cases hfalse
    · exact absurd (isValid_iff.mp hvalid) hinvalid
  | found x hx hbytes =>
    refine ⟨items, h, .refl a m, hlog.append (fun _ hx => hx) (fun _ hx => .inl hx)
      (fun _ _ => ⟨x, hx, hbytes⟩) (.inr ⟨x, hx, hbytes, rfl, fun hraw => ?_⟩)⟩
    obtain ⟨first, hfirst, hrawLength, hlength⟩ := hlog.item x hx
    cases hkind : first.raw with
    | false => exact hlength hkind
    | true =>
      have hascii := hmeets hraw first (hbytes ▸ hfirst) hkind
      rw [hrawLength hkind]
      exact checkedLength_of_ascii (Holds.ne_nil h hx) (hbytes ▸ hascii)
  | stored x hne hnot hlength hbytes hholds hconfined =>
    have hfresh : firstStored log x.bytes = none := by
      cases hfirst : firstStored log x.bytes with
      | none => rfl
      | some first =>
        obtain ⟨y, hy, hybytes⟩ := hlog.stored x.bytes first (hbytes ▸ hne) hfirst
        exact absurd (hybytes.trans hbytes) (hnot y hy)
    have hchecked : raw = false → checkedLength x.bytes = some x.length := by
      rintro rfl
      rw [hbytes]
      exact hlength
    refine ⟨items ++ [x], hholds, hconfined, hlog.append (fun y hy => List.mem_append_left _ hy)
      (fun y hy => ?_) (fun _ _ => ⟨x, List.mem_append_right _ List.mem_cons_self, hbytes⟩)
      (.inr ⟨x, List.mem_append_right _ List.mem_cons_self, hbytes, rfl, hchecked⟩)⟩
    obtain hy | hy := List.mem_append.mp hy
    · exact .inl hy
    · obtain rfl := List.mem_singleton.mp hy
      refine .inr ⟨hfresh, hbytes.symm, ?_, fun hraw => ?_, hchecked⟩
      · cases raw with
        | true => exact .inl rfl
        | false =>
          obtain ⟨cs, hcs, -⟩ := (checkedLength_eq_some (hbytes ▸ hne)).mp (hchecked rfl)
          exact .inr (isValid_iff.mpr ⟨cs, hcs⟩)
      · obtain rfl : raw = true := hraw
        rw [hbytes]
        exact (Option.some.inj hlength).symm

/-- **An `intern` that meets a length of `intern_raw` breaks the promise.** -/
theorem Logged.not_sound (hlog : Logged items log)
    (hmeets : ¬ MeetsNoRaw log data) {result : Utf8StringRef × Utf8StringArena × Blocks}
    (hresult : Outcome checkedLength data items a m result) (m' : Blocks) :
    ¬ Interned.Sound m' { raw := false, bytes := data, view := result.1 } := by
  obtain ⟨first, hrest⟩ := not_forall.mp hmeets
  obtain ⟨hfirst, hrest⟩ := Classical.not_imp.mp hrest
  obtain ⟨hraw, hascii⟩ := Classical.not_imp.mp hrest
  have hne : data ≠ [] := by
    rintro rfl
    exact hascii fun b hb => absurd hb List.not_mem_nil
  obtain ⟨y, hy, hybytes⟩ := hlog.stored data first hne hfirst
  intro hsound
  cases hresult with
  | empty hnil => exact hne hnil
  | refused _ hnot _ => exact hnot y hy hybytes
  | stored _ _ hnot _ _ _ _ => exact hnot y hy hybytes
  | found x hx hbytes =>
    obtain ⟨first', hfirst', hrawLength, -⟩ := hlog.item x hx
    rw [hbytes, hfirst] at hfirst'
    cases hfirst'
    by_cases hutf : IsUtf8 data
    · obtain ⟨cs, hcs⟩ := hutf
      have hlength : x.length = cs.length := hsound.length rfl cs hcs
      rw [hrawLength hraw, hbytes, hcs] at hlength
      exact hascii (hcs ▸ (length_encode_eq_iff cs).mp hlength)
    · have hview : x.view = {} := hsound.invalid rfl hutf
      cases hview

/-! ## Runs -/

/-- The memory and the arenas that exist, by name, each with the calls to what it owns: a move takes
them along, and what an arena owned before a move assignment to it is gone with them. -/
structure Arenas where
  memory : Blocks := {}
  arena : Nat → Option (Utf8StringArena × List Interned) := fun _ => none

/-- An operation of the program. A constructor makes an arena of a new name. -/
inductive ArenaAction
  | construct (x : Nat)
  | intern (x : Nat) (data : Bytes)
  | internRaw (x : Nat) (data : Bytes)
  | moveConstruct (x source : Nat)
  | moveAssign (x source : Nat)
  | destroy (x : Nat)

namespace Arenas

/-- A call of `intern` or `intern_raw`. -/
def call (s : Arenas) (x : Nat) (raw : Bool) (data : Bytes) : Option Arenas :=
  (s.arena x).map fun p =>
    let result :=
      if raw then Utf8StringArena.internRaw data (p.1, s.memory)
      else Utf8StringArena.intern data (p.1, s.memory)
    { memory := result.2.2
      arena := Function.update s.arena x
        (some (result.2.1, p.2 ++ [{ raw := raw, bytes := data, view := result.1 }])) }

/-- The chunks of an arena are freed. -/
def release (s : Arenas) (x : Nat) : Arenas :=
  match s.arena x with
  | none => s
  | some p =>
    { memory := freeChunks p.1.chunks s.memory
      arena := Function.update s.arena x none }

/-- What the arena `source` has goes to `x`; it is left without chunks. -/
def move (s : Arenas) (x source : Nat) (p : Utf8StringArena × List Interned) : Arenas :=
  { s with
    arena := Function.update (Function.update s.arena source (some ({}, []))) x (some p) }

/-- Run one operation; `none` when an arena that it needs does not exist, or one that it makes
does. -/
def step (s : Arenas) : ArenaAction → Option Arenas
  | .construct x =>
    if (s.arena x).isNone then
      let p := Utf8StringArena.create s.memory
      some { memory := p.2, arena := Function.update s.arena x (some (p.1, [])) }
    else none
  | .intern x data => s.call x false data
  | .internRaw x data => s.call x true data
  | .moveConstruct x source =>
    if (s.arena x).isNone then (s.arena source).map (s.move x source) else none
  | .moveAssign x source =>
    if (s.arena x).isNone then none
    else if x = source then some s
    else (s.arena source).map ((s.release x).move x source)
  | .destroy x => if (s.arena x).isNone then none else some (s.release x)

/-- The calls to every arena keep their promise. -/
def Interns (s : Arenas) : Prop :=
  ∀ x a log, s.arena x = some (a, log) → Interning s.memory log

/-- An `intern` meets no length that `intern_raw` recorded. -/
def MeetsNoRaw (s : Arenas) : ArenaAction → Prop
  | .intern x data => ∀ a log, s.arena x = some (a, log) → Str.MeetsNoRaw log data
  | _ => True

/-- Every arena holds what its calls stored, in blocks of its own. -/
structure Inv (s : Arenas) : Prop where
  holds : ∀ x a log, s.arena x = some (a, log) → ∃ items, Holds a s.memory items ∧ Logged items log
  apart : ∀ x y p q, x ≠ y → s.arena x = some p → s.arena y = some q →
    ∀ c ∈ p.1.chunks, ∀ d ∈ q.1.chunks, c.data ≠ d.data

variable {s s' : Arenas}

theorem Inv.interns (h : s.Inv) : s.Interns := fun x a log hx => by
  obtain ⟨items, hholds, hlog⟩ := h.holds x a log hx
  exact hlog.interning hholds

theorem inv_empty : Inv {} where
  holds _ _ _ h := by cases h
  apart _ _ _ _ _ h := by cases h

/-- **One arena changes**, within its own blocks. -/
theorem Inv.update (h : s.Inv) {x : Nat} {a a' : Utf8StringArena} {m' : Blocks}
    {items : List Stored} {log : List Interned}
    (hapart : ∀ y q, x ≠ y → s.arena y = some q → ∀ c ∈ a.chunks, ∀ d ∈ q.1.chunks, c.data ≠ d.data)
    (hconfined : Confined a s.memory a' m') (hholds : Holds a' m' items) (hlog : Logged items log) :
    Inv { memory := m', arena := Function.update s.arena x (some (a', log)) } := by
  have hother : ∀ y q, x ≠ y → s.arena y = some q → ∀ c ∈ a'.chunks, ∀ d ∈ q.1.chunks,
      c.data ≠ d.data := by
    intro y q hne hq c hc d hd hdata
    obtain ⟨items', hholds', -⟩ := h.holds y q.1 q.2 hq
    obtain ⟨c₀, hc₀, hdata₀⟩ | hnew := hconfined.blocks c hc
    · exact hapart y q hne hq c₀ hc₀ d hd (hdata₀.trans hdata)
    · exact absurd (hholds'.chunk d hd).2.2 (Nat.not_lt.mpr (hdata ▸ hnew))
  refine ⟨fun y b log' hy => ?_, fun y z p q hne hp hq => ?_⟩
  · change Function.update s.arena x _ y = _ at hy
    by_cases hxy : y = x
    · subst hxy
      rw [Function.update_self] at hy
      cases hy
      exact ⟨items, hholds, hlog⟩
    · rw [Function.update_of_ne hxy] at hy
      obtain ⟨items', hholds', hlog'⟩ := h.holds y b log' hy
      refine ⟨items', hholds'.frame (fun d hd => ?_) hconfined.next, hlog'⟩
      exact hconfined.agree d.data (hholds'.chunk d hd).2.2 fun c hc =>
        hapart y (b, log') (Ne.symm hxy) hy c hc d hd
  · change Function.update s.arena x _ y = _ at hp
    change Function.update s.arena x _ z = _ at hq
    by_cases hxy : y = x
    · subst hxy
      rw [Function.update_self] at hp
      rw [Function.update_of_ne (Ne.symm hne)] at hq
      cases hp
      exact hother z q hne hq
    · rw [Function.update_of_ne hxy] at hp
      by_cases hxz : z = x
      · subst hxz
        rw [Function.update_self] at hq
        cases hq
        exact fun c hc d hd => (hother y p (Ne.symm hxy) hp d hd c hc).symm
      · rw [Function.update_of_ne hxz] at hq
        exact h.apart y z p q hne hp hq

theorem Inv.release (h : s.Inv) (x : Nat) : (s.release x).Inv := by
  unfold Arenas.release
  cases hx : s.arena x with
  | none => exact h
  | some p =>
    have hold : ∀ y q, Function.update s.arena x none y = some q → y ≠ x ∧ s.arena y = some q := by
      intro y q hy
      by_cases hxy : y = x
      · subst hxy
        rw [Function.update_self] at hy
        cases hy
      · rw [Function.update_of_ne hxy] at hy
        exact ⟨hxy, hy⟩
    refine ⟨fun y b log hy => ?_, fun y z q r hne hq hr => ?_⟩
    · obtain ⟨hxy, hy⟩ := hold y _ hy
      obtain ⟨items, hholds, hlog⟩ := h.holds y b log hy
      refine ⟨items, hholds.frame (fun d hd => ?_) (Nat.le_of_eq (next_freeChunks _ _).symm), hlog⟩
      exact agree_freeChunks (fun c hc => h.apart x y p (b, log) (Ne.symm hxy) hx hy c hc d hd) _
    · exact h.apart y z q r hne (hold y q hq).2 (hold z r hr).2

theorem Inv.move (h : s.Inv) {x source : Nat} {p : Utf8StringArena × List Interned}
    (hx : s.arena x = none) (hsource : s.arena source = some p) : (s.move x source p).Inv := by
  have hne : x ≠ source := by
    rintro rfl
    cases hx.symm.trans hsource
  -- every arena afterwards is empty or one of those before, under one name
  have hold : ∀ y q, (s.move x source p).arena y = some q →
      q = ({}, []) ∨ ∃ z, s.arena z = some q ∧
        (if y = x then z = source else z = y ∧ y ≠ source) := by
    intro y q hy
    change Function.update (Function.update s.arena source _) x _ y = _ at hy
    by_cases hxy : y = x
    · subst hxy
      rw [Function.update_self] at hy
      cases hy
      exact .inr ⟨source, hsource, by rw [if_pos rfl]⟩
    · rw [Function.update_of_ne hxy] at hy
      by_cases hys : y = source
      · subst hys
        rw [Function.update_self] at hy
        exact .inl (Option.some.inj hy).symm
      · rw [Function.update_of_ne hys] at hy
        exact .inr ⟨y, hy, by rw [if_neg hxy]; exact ⟨rfl, hys⟩⟩
  refine ⟨fun y b log hy => ?_, fun y z q r hyz hq hr c hc d hd => ?_⟩
  · obtain hempty | ⟨z, hz, -⟩ := hold y _ hy
    · cases hempty
      exact ⟨[], holds_nil _, logged_nil⟩
    · exact h.holds z b log hz
  · obtain rfl | ⟨y', hy', hname⟩ := hold y q hq
    · cases hc
    · obtain rfl | ⟨z', hz', hname'⟩ := hold z r hr
      · cases hd
      · refine h.apart y' z' q r ?_ hy' hz' c hc d hd
        grind

theorem call_eq_some {x : Nat} {raw : Bool} {data : Bytes} (h : s.call x raw data = some s') :
    ∃ a log result, s.arena x = some (a, log) ∧
      internWith (newLength raw) data (a, s.memory) = result ∧
      s' =
        { memory := result.2.2
          arena := Function.update s.arena x
            (some (result.2.1, log ++ [⟨raw, data, result.1⟩])) } := by
  obtain ⟨p, hp, rfl⟩ := Option.map_eq_some_iff.mp h
  refine ⟨p.1, p.2, _, hp, rfl, ?_⟩
  cases raw <;> rfl

/-- A call keeps the invariant, unless an `intern` meets a length of `intern_raw`. -/
theorem Inv.call (h : s.Inv) {x : Nat} {raw : Bool} {data : Bytes}
    (hmeets : raw = false → ∀ a log, s.arena x = some (a, log) → Str.MeetsNoRaw log data)
    (hcall : s.call x raw data = some s') : s'.Inv := by
  obtain ⟨a, log, _, hx, rfl, rfl⟩ := call_eq_some hcall
  obtain ⟨items, hholds, hlog⟩ := h.holds x a log hx
  obtain ⟨items', hholds', hconfined, hlog'⟩ :=
    hlog.call hholds (fun hraw => hmeets hraw a log hx)
      (outcome_internWith hholds (newLength raw) data)
  exact h.update (fun y q hne hq => h.apart x y (a, log) q hne hx hq) hconfined hholds' hlog'

/-- **One operation keeps the invariant**, unless an `intern` meets a length of `intern_raw`. -/
theorem step_inv {action : ArenaAction} (h : s.Inv) (ha : s.MeetsNoRaw action)
    (hstep : s.step action = some s') : s'.Inv := by
  cases action with
  | construct x =>
    simp only [step] at hstep
    split_ifs at hstep with hx
    cases hstep
    exact h.update (fun _ _ _ _ c hc => absurd hc List.not_mem_nil)
      (confined_allocChunk {} s.memory _) (holds_create s.memory) logged_nil
  | intern x data => exact h.call (fun _ => ha) hstep
  | internRaw x data => exact h.call (fun hraw => absurd hraw (by decide)) hstep
  | moveConstruct x source =>
    simp only [step] at hstep
    split_ifs at hstep with hx
    obtain ⟨p, hp, rfl⟩ := Option.map_eq_some_iff.mp hstep
    exact h.move (Option.isNone_iff_eq_none.mp hx) hp
  | moveAssign x source =>
    simp only [step] at hstep
    split_ifs at hstep with hx hsame
    · obtain rfl := Option.some.inj hstep
      exact h
    · obtain ⟨p, hp, rfl⟩ := Option.map_eq_some_iff.mp hstep
      obtain ⟨q, hq⟩ := Option.ne_none_iff_exists'.mp fun hnone =>
        hx (Option.isNone_iff_eq_none.mpr hnone)
      have hgone : (s.release x).arena x = none := by
        unfold Arenas.release
        rw [hq]
        exact Function.update_self x none s.arena
      have hkept : (s.release x).arena source = some p := by
        unfold Arenas.release
        rw [hq]
        exact (Function.update_of_ne (Ne.symm hsame) none s.arena).trans hp
      exact (h.release x).move hgone hkept
  | destroy x =>
    simp only [step] at hstep
    split_ifs at hstep with hx
    cases hstep
    exact h.release x

/-- An `intern` that meets a length of `intern_raw` breaks the promise of its arena. -/
theorem step_not_interns {action : ArenaAction} (h : s.Inv) (ha : ¬ s.MeetsNoRaw action)
    (hstep : s.step action = some s') : ¬ s'.Interns := by
  cases action with
  | intern x data =>
    obtain ⟨a, log, _, hx, rfl, rfl⟩ := call_eq_some hstep
    obtain ⟨items, hholds, hlog⟩ := h.holds x a log hx
    have hmeets : ¬ Str.MeetsNoRaw log data := by
      refine fun hlogged => ha fun a' log' hx' => ?_
      obtain ⟨rfl, rfl⟩ := Prod.mk.inj (Option.some.inj (hx.symm.trans hx'))
      exact hlogged
    intro hinterns
    have hsound := (hinterns x _ _ (Function.update_self x _ s.arena)).sound _
      (List.mem_append_right _ List.mem_cons_self)
    exact hlog.not_sound hmeets (outcome_internWith hholds checkedLength data) _ hsound
  | _ => exact absurd trivial ha

end Arenas

/-- **Arenas intern** in every run in which no `intern` is given bytes that `intern_raw` stored
first, unless they are ASCII, and any other `intern` breaks the promise. -/
theorem arena_interning (s : Arenas) (hs : Reach Arenas.step Arenas.MeetsNoRaw {} s) :
    s.Interns ∧ ∀ action s', s.step action = some s' → (s'.Interns ↔ s.MeetsNoRaw action) := by
  have hinv : s.Inv :=
    hs.invariant Arenas.Inv Arenas.inv_empty fun _ _ _ h ha hstep => Arenas.step_inv h ha hstep
  refine ⟨hinv.interns, fun action s' hstep => ⟨fun h => ?_, fun ha => ?_⟩⟩
  · by_contra ha
    exact Arenas.step_not_interns hinv ha hstep h
  · exact (Arenas.step_inv hinv ha hstep).interns

/-- An arena is moved after an `intern`, and the target finds the string again. -/
theorem arena_interning_moved :
    ∃ s : Arenas, (s.arena 1).any (fun p => p.2.length == 2) = true ∧ s.Interns := by
  -- an `intern` of ASCII is always allowed
  have hok : ∀ (s : Arenas) (a : ArenaAction),
      (match a with
        | .intern _ data => data.all fun b => b < 0x80
        | _ => true) = true → s.MeetsNoRaw a := by
    intro s a ha
    cases a with
    | intern x data =>
      exact fun _ _ _ _ _ _ b hb => of_decide_eq_true (List.all_eq_true.mp ha b hb)
    | _ => trivial
  have hrun : (run Arenas.step
      (fun _ a =>
        match a with
        | .intern _ data => data.all fun b => b < 0x80
        | _ => true)
      [.construct 0, .intern 0 [97], .moveConstruct 1 0, .intern 1 [97]] {}).any
        (fun s => (s.arena 1).any fun p => p.2.length == 2) = true := by
    decide
  obtain ⟨s, hs, hlog⟩ := Reach.exists_of_run hok hrun
  exact ⟨s, hlog, (arena_interning s hs).1⟩

/-- The letter é is interned raw and then as text: its view counts two code points. -/
theorem not_arena_interning : ¬ ∀ s, Reach Arenas.step (fun _ _ => True) {} s → s.Interns := by
  intro h
  have hrun : (run Arenas.step (fun _ _ => true)
      [.construct 0, .internRaw 0 [0xC3, 0xA9], .intern 0 [0xC3, 0xA9]] {}).any
        (fun s => (s.arena 0).any fun p => p.2.any fun r =>
          !r.raw && r.bytes == [0xC3, 0xA9] && r.view.length == 2) = true := by
    decide
  obtain ⟨s, hs, hlength⟩ := Reach.exists_of_run (fun _ _ _ => trivial) hrun
  obtain ⟨⟨a, log⟩, hx, hany⟩ := (Option.any_eq_true _ _).mp hlength
  obtain ⟨r, hr, hmatch⟩ := List.any_eq_true.mp hany
  rw [Bool.and_eq_true, Bool.and_eq_true, Bool.not_eq_true', beq_iff_eq, beq_iff_eq] at hmatch
  obtain ⟨⟨hraw, hbytes⟩, htwo⟩ := hmatch
  have hone := ((h s hs 0 a log hx).sound r hr).length hraw ['é'] (hbytes.trans (by decide))
  rw [htwo] at hone
  cases hone

end Libca.Str
