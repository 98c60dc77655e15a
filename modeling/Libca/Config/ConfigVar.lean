import Libca.Common.Run
import Mathlib.Algebra.Group.Nat.Defs
import Mathlib.Data.List.Nodup
import Mathlib.Data.List.Perm.Basic
import Mathlib.Data.Option.Basic

/-!
# `ConfigVar` (`config/config_var.hpp` 74-169)

A value, its listeners, and one thread that sets it, also from inside the listeners. A `set` that
changes the value copies the listeners and calls them one after the other; a `set` inside such a
call starts a round of its own, which ends before the round it came from goes on. Changes are
numbered in the order they took effect.

Left out: exceptions of listeners and of copies of `T`, other threads.

* `step`, `Effect`, `step_effect`: the steps, and what each of them does.
* `told`: the changes that a listener was called for, and behind them those it waits to be called
  for.
* `listeners_told`: in every run a listener is called once for each change made since it was added,
  and in the order of the changes when no change is made while it waits for a call.
* `not_listeners_told`: a listener that sets the value makes those behind it see the changes in the
  wrong order.
-/

namespace Libca.Config

open Common

/-- An entry of the map of listeners. `callable` is false for an empty `std::function`. The last two
are not in the source: the number of the call of `add_listener`, and of changes before it. -/
structure Listener where
  id : Nat
  callable : Bool
  tag : Nat
  since : Nat
deriving DecidableEq, Repr

/-- A `set` that changed the value: the number of the change, the two values, the listeners it has
yet to call, and the one it is calling. -/
structure Round (T : Type) where
  change : Nat
  old : T
  new : T
  pending : List Nat
  calling : Option Nat := none
deriving DecidableEq, Repr

/-- A call of a listener. -/
structure Call (T : Type) where
  listener : Nat
  change : Nat
  old : T
  new : T
deriving DecidableEq, Repr

/-- The object and the calls of `set` in progress, the last one first. `added`, `changes` and
`calls` are not in the source: the calls of `add_listener`, the changes of the value, and the calls
of listeners, in their order. -/
structure ConfigVar (T : Type) where
  value : T
  listeners : List Listener := []
  nextListenerId : Nat := 0
  rounds : List (Round T) := []
  added : Nat := 0
  changes : List (T × T) := []
  calls : List (Call T) := []

/-- The steps of the thread: the calls it makes outside of listeners and in them (`setFromJson` with
the value that the conversion gave, if it gave one), the calls of the listeners and their returns,
and the return of a `set` that changed the value. -/
inductive Action (T : Type)
  | set (value : T)
  | setFromJson (value : Option T)
  | addListener (callable : Bool)
  | removeListener (id : Nat)
  | call
  | callReturned
  | setReturned
deriving DecidableEq, Repr

namespace ConfigVar

variable {T : Type}

/-- The constructor. -/
def init (value : T) : ConfigVar T where
  value := value

/-- The thread runs code of the user: no `set` is in progress, or one is calling a listener. -/
def outside (s : ConfigVar T) : Bool :=
  match s.rounds with
  | [] => true
  | r :: _ => r.calling.isSome

/-- The listeners that a `set` copies. -/
def copied (s : ConfigVar T) : List Nat := (s.listeners.filter (·.callable)).map (·.tag)

/-- `set`, to the end of its section. -/
def set [BEq T] (s : ConfigVar T) (value : T) : ConfigVar T :=
  if s.value == value then s
  else
    { s with
      value := value
      changes := s.changes ++ [(s.value, value)]
      rounds :=
        { change := s.changes.length, old := s.value, new := value, pending := s.copied } ::
          s.rounds }

/-- `emplace` into a map that is ordered by id. -/
def emplace (l : Listener) : List Listener → List Listener
  | [] => [l]
  | m :: listeners =>
    if l.id = m.id then m :: listeners
    else if l.id < m.id then l :: m :: listeners
    else m :: emplace l listeners

def addListener (s : ConfigVar T) (callable : Bool) : ConfigVar T :=
  let id := (s.nextListenerId + 1) % 2 ^ 64
  { s with
    listeners :=
      emplace { id := id, callable := callable, tag := s.added, since :=
        s.changes.length } s.listeners
    nextListenerId := id
    added := s.added + 1 }

def removeListener (s : ConfigVar T) (id : Nat) : ConfigVar T :=
  { s with listeners := s.listeners.filter (·.id ≠ id) }

/-- What the innermost `set` does: it calls the next listener, comes back from one, or returns. -/
def notify (s : ConfigVar T) : Action T → Option (ConfigVar T)
  | .call =>
    match s.rounds with
    | { change, old, new, pending := tag :: pending, calling := none } :: rounds =>
      some { s with
        rounds := { change, old, new, pending := pending, calling := some tag } :: rounds
        calls := s.calls ++ [{ listener := tag, change, old, new }] }
    | _ => none
  | .callReturned =>
    match s.rounds with
    | { change, old, new, pending, calling := some _ } :: rounds =>
      some { s with rounds := { change, old, new, pending, calling := none } :: rounds }
    | _ => none
  | .setReturned =>
    match s.rounds with
    | { change := _, old := _, new := _, pending := [], calling := none } :: rounds =>
      some { s with rounds := rounds }
    | _ => none
  | _ => none

def step [BEq T] (s : ConfigVar T) (a : Action T) : Option (ConfigVar T) :=
  match a with
  | .set value => if s.outside then some (s.set value) else none
  | .setFromJson none => if s.outside then some s else none
  | .setFromJson (some value) => if s.outside then some (s.set value) else none
  | .addListener callable => if s.outside then some (s.addListener callable) else none
  | .removeListener id => if s.outside then some (s.removeListener id) else none
  | a => s.notify a

/-! ## What a step does -/

/-- The value that a call sets. -/
def target : Action T → Option T
  | .set value => some value
  | .setFromJson value => value
  | _ => none

/-- The step changes the value. -/
def Changes [BEq T] (s : ConfigVar T) (a : Action T) : Prop :=
  ∃ value, target a = some value ∧ (s.value == value) = false

/-- The effects of the steps. -/
inductive Effect [BEq T] (s : ConfigVar T) (a : Action T) : ConfigVar T → Prop
  | idle : Effect s a s
  | change (value : T) : target a = some value → (s.value == value) = false →
      Effect s a { s with
        value := value
        changes := s.changes ++ [(s.value, value)]
        rounds :=
          { change := s.changes.length, old := s.value, new := value, pending := s.copied } ::
            s.rounds }
  | add (l : Listener) (id : Nat) : l.tag = s.added → l.since = s.changes.length →
      Effect s a { s with
        listeners := emplace l s.listeners, nextListenerId := id, added := s.added + 1 }
  | remove (id : Nat) : Effect s a (s.removeListener id)
  | call (r : Round T) (tag : Nat) (pending : List Nat) (rounds : List (Round T)) :
      s.rounds = r :: rounds → r.pending = tag :: pending →
      Effect s a { s with
        rounds := { r with pending := pending, calling := some tag } :: rounds
        calls := s.calls ++ [{ listener := tag, change := r.change, old := r.old, new := r.new }] }
  | back (r : Round T) (rounds : List (Round T)) : s.rounds = r :: rounds →
      Effect s a { s with rounds := { r with calling := none } :: rounds }
  | done (r : Round T) (rounds : List (Round T)) : s.rounds = r :: rounds → r.pending = [] →
      Effect s a { s with rounds := rounds }

variable {s s' : ConfigVar T} {a : Action T}

theorem set_effect [BEq T] {value : T} (h : target a = some value) : Effect s a (s.set value) := by
  unfold set
  by_cases heq : (s.value == value) = true
  · rw [if_pos heq]
    exact .idle
  · rw [if_neg heq]
    exact .change value h (Bool.eq_false_iff.mpr heq)

theorem notify_effect [BEq T] (h : s.notify a = some s') : Effect s a s' := by
  unfold notify at h
  split at h
  · split at h
    · next hrounds =>
      cases h
      exact .call _ _ _ _ hrounds rfl
    · cases h
  · split at h
    · next hrounds =>
      cases h
      exact .back _ _ hrounds
    · cases h
  · split at h
    · next hrounds =>
      cases h
      exact .done _ _ hrounds rfl
    · cases h
  · cases h

/-- **What a step does.** -/
theorem step_effect [BEq T] (h : step s a = some s') : Effect s a s' := by
  unfold step at h
  split at h
  · split_ifs at h
    cases h
    exact set_effect rfl
  · split_ifs at h
    cases h
    exact .idle
  · split_ifs at h
    cases h
    exact set_effect rfl
  · split_ifs at h
    cases h
    exact .add _ _ rfl rfl
  · split_ifs at h
    cases h
    exact .remove _
  · exact notify_effect h

/-! ## What the listeners are told -/

/-- The changes that a listener was called for, in the order of the calls. -/
def heard (s : ConfigVar T) (tag : Nat) : List Nat :=
  (s.calls.filter (·.listener = tag)).map (·.change)

/-- The changes of the rounds that have yet to call a listener. -/
def waits (rounds : List (Round T)) (tag : Nat) : List Nat :=
  (rounds.filter (tag ∈ ·.pending)).map (·.change)

/-- The changes that a listener waits to be called for. -/
def waiting (s : ConfigVar T) (tag : Nat) : List Nat := waits s.rounds tag

def told (s : ConfigVar T) (tag : Nat) : List Nat := s.heard tag ++ s.waiting tag

/-- The changes made since a listener was added. -/
def due (s : ConfigVar T) (l : Listener) : List Nat :=
  List.range' l.since (s.changes.length - l.since)

/-! ## The invariant -/

/-- Each change starts from the value that the one before it set. -/
def Linked (initial : T) : List (T × T) → T → Prop
  | [], value => value = initial
  | (old, new) :: changes, value => old = initial ∧ Linked new changes value

theorem Linked.append {initial value : T} {changes : List (T × T)}
    (h : Linked initial changes value)
    (new : T) : Linked initial (changes ++ [(value, new)]) new := by
  induction changes generalizing initial with
  | nil => exact ⟨h, rfl⟩
  | cons change changes ih => exact ⟨h.1, ih h.2⟩

/-- The last change set the value. -/
theorem Linked.getLast {initial value : T} {changes : List (T × T)}
    (h : Linked initial changes value)
    {last : T × T} (hlast : changes.getLast? = some last) : last.2 = value := by
  induction changes generalizing initial with
  | nil => cases hlast
  | cons change changes ih =>
    cases changes with
    | nil =>
      cases hlast
      exact h.2.symm
    | cons next changes => exact ih h.2 (by rwa [List.getLast?_cons_cons] at hlast)

/-- A map that refuses an id it has, or takes the entry in. -/
theorem emplace_cases (l : Listener) (listeners : List Listener) :
    emplace l listeners = listeners ∨ (emplace l listeners).Perm (l :: listeners) := by
  induction listeners with
  | nil => exact .inr (.refl _)
  | cons m listeners ih =>
    unfold emplace
    split_ifs
    · exact .inl rfl
    · exact .inr (.refl _)
    · rcases ih with ih | ih
      · exact .inl (congrArg _ ih)
      · exact .inr ((ih.cons m).trans (.swap _ _ _))

/-- What holds in every state. -/
structure Good (initial : T) (s : ConfigVar T) : Prop where
  linked : Linked initial s.changes s.value
  tags : (s.listeners.map (·.tag)).Nodup
  listeners : ∀ l ∈ s.listeners, l.tag < s.added ∧ l.since ≤ s.changes.length
  rounds : ∀ r ∈ s.rounds, r.pending.Nodup ∧ (∀ tag ∈ r.pending, tag < s.added) ∧
    s.changes[r.change]? = some (r.old, r.new)
  calls : ∀ c ∈ s.calls, c.listener < s.added ∧ s.changes[c.change]? = some (c.old, c.new)

theorem good_init (initial : T) : Good initial (init initial) where
  linked := rfl
  tags := List.nodup_nil
  listeners := by rintro l ⟨⟩
  rounds := by rintro r ⟨⟩
  calls := by rintro c ⟨⟩

variable {k : Nat}

theorem getElem?_append_of_some {α : Type} {xs : List α} {x : α} (h : xs[k]? = some x)
    (ys : List α) : (xs ++ ys)[k]? = some x := by
  rw [List.getElem?_append_left (List.getElem?_eq_some_iff.mp h).1, h]

variable {initial : T}

theorem Good.copied (hg : Good initial s) : s.copied.Nodup ∧ ∀ tag ∈ s.copied, tag < s.added := by
  refine ⟨hg.tags.sublist (List.filter_sublist.map _), fun tag hmem => ?_⟩
  obtain ⟨l, hl, rfl⟩ := List.mem_map.mp hmem
  exact (hg.listeners l (List.mem_of_mem_filter hl)).1

theorem Good.effect [BEq T] (hg : Good initial s) (h : Effect s a s') : Good initial s' := by
  cases h with
  | idle => exact hg
  | change value _ _ =>
    refine ⟨hg.linked.append value, hg.tags, fun l hl => ?_, fun r hr => ?_, fun c hc => ?_⟩
    · rw [List.length_append]
      exact ⟨(hg.listeners l hl).1, Nat.le_trans (hg.listeners l hl).2 (Nat.le_add_right _ _)⟩
    · rcases List.mem_cons.mp hr with rfl | hr
      · exact ⟨hg.copied.1, hg.copied.2, List.getElem?_concat_length⟩
      · obtain ⟨hnodup, hfresh, hchange⟩ := hg.rounds r hr
        exact ⟨hnodup, hfresh, getElem?_append_of_some hchange _⟩
    · exact ⟨(hg.calls c hc).1, getElem?_append_of_some (hg.calls c hc).2 _⟩
  | add l id htag hsince =>
    have hrounds : ∀ r ∈ s.rounds, r.pending.Nodup ∧ (∀ tag ∈ r.pending, tag < s.added + 1) ∧
        s.changes[r.change]? = some (r.old, r.new) := fun r hr =>
      ⟨(hg.rounds r hr).1, fun tag hmem => Nat.lt_succ_of_lt ((hg.rounds r hr).2.1 tag hmem),
        (hg.rounds r hr).2.2⟩
    have hcalls : ∀ c ∈ s.calls, c.listener < s.added + 1 ∧
        s.changes[c.change]? = some (c.old, c.new) := fun c hc =>
      ⟨Nat.lt_succ_of_lt (hg.calls c hc).1, (hg.calls c hc).2⟩
    have hlisteners : ∀ m ∈ l :: s.listeners, m.tag < s.added + 1 ∧ m.since ≤ s.changes.length := by
      intro m hm
      rcases List.mem_cons.mp hm with rfl | hm
      · exact ⟨htag ▸ Nat.lt_succ_self _, Nat.le_of_eq hsince⟩
      · exact ⟨Nat.lt_succ_of_lt (hg.listeners m hm).1, (hg.listeners m hm).2⟩
    rcases emplace_cases l s.listeners with hsame | hperm
    · refine ⟨hg.linked, ?_, fun m hm => hlisteners m (.tail _ ?_), hrounds, hcalls⟩
      · rw [hsame]
        exact hg.tags
      · rwa [hsame] at hm
    · refine ⟨hg.linked, ?_, fun m hm => hlisteners m (hperm.mem_iff.mp hm), hrounds, hcalls⟩
      refine (hperm.map _).nodup_iff.mpr (List.nodup_cons.mpr ⟨fun hmem => ?_, hg.tags⟩)
      obtain ⟨m, hm, heq⟩ := List.mem_map.mp hmem
      have hlt := (hg.listeners m hm).1
      dsimp only at heq
      omega
  | remove id =>
    exact ⟨hg.linked, hg.tags.sublist (List.filter_sublist.map _),
      fun l hl => hg.listeners l (List.mem_of_mem_filter hl), hg.rounds, hg.calls⟩
  | call r tag pending rounds hrounds hpending =>
    obtain ⟨hnodup, hfresh, hchange⟩ := hg.rounds r (hrounds ▸ List.mem_cons_self)
    rw [hpending] at hnodup hfresh
    refine ⟨hg.linked, hg.tags, hg.listeners, fun q hq => ?_, fun c hc => ?_⟩
    · rcases List.mem_cons.mp hq with rfl | hq
      · exact ⟨(List.nodup_cons.mp hnodup).2, fun t ht => hfresh t (.tail _ ht), hchange⟩
      · exact hg.rounds q (hrounds ▸ .tail _ hq)
    · rcases List.mem_append.mp hc with hc | hc
      · exact hg.calls c hc
      · obtain rfl := List.mem_singleton.mp hc
        exact ⟨hfresh tag List.mem_cons_self, hchange⟩
  | back r rounds hrounds =>
    refine ⟨hg.linked, hg.tags, hg.listeners, fun q hq => ?_, hg.calls⟩
    rcases List.mem_cons.mp hq with rfl | hq
    · exact hg.rounds r (hrounds ▸ List.mem_cons_self)
    · exact hg.rounds q (hrounds ▸ .tail _ hq)
  | done r rounds hrounds _ =>
    exact ⟨hg.linked, hg.tags, hg.listeners,
      fun q hq => hg.rounds q (hrounds ▸ .tail _ hq), hg.calls⟩

/-! ## Listeners and changes -/

theorem waits_cons (r : Round T) (rounds : List (Round T)) (tag : Nat) :
    waits (r :: rounds) tag =
      if tag ∈ r.pending then r.change :: waits rounds tag else waits rounds tag := by
  unfold waits
  by_cases hmem : tag ∈ r.pending
  · rw [List.filter_cons_of_pos (by simpa using hmem), if_pos hmem, List.map_cons]
  · rw [List.filter_cons_of_neg (by simpa using hmem), if_neg hmem]

variable {rounds : List (Round T)} {tag : Nat}

theorem waits_eq_nil (h : ∀ r ∈ rounds, tag ∉ r.pending) : waits rounds tag = [] := by
  rw [waits, List.map_eq_nil_iff, List.filter_eq_nil_iff]
  exact fun r hr => by simpa using h r hr

/-- A listener that was just added has been told nothing. -/
theorem Good.told_eq_nil (hg : Good initial s) : s.told s.added = [] := by
  have hheard : s.heard s.added = [] := by
    rw [heard, List.map_eq_nil_iff, List.filter_eq_nil_iff]
    intro c hc
    have hlt := (hg.calls c hc).1
    simpa using Nat.ne_of_lt hlt
  have hwaits : waits s.rounds s.added = [] :=
    waits_eq_nil fun r hr hmem => Nat.lt_irrefl _ ((hg.rounds r hr).2.1 _ hmem)
  rw [told, waiting, hheard, hwaits, List.append_nil]

/-- The call of a listener moves one change from those it waits for to those it heard of. -/
theorem Good.told_call (hg : Good initial s) {r : Round T} {pending : List Nat}
    (hrounds : s.rounds = r :: rounds) (hpending : r.pending = tag :: pending) (t : Nat) :
    told { s with
        rounds := { r with pending := pending, calling := some tag } :: rounds
        calls := s.calls ++ [{ listener := tag, change := r.change, old := r.old, new := r.new }] }
          t =
      s.told t := by
  have hnodup := (hg.rounds r (hrounds ▸ List.mem_cons_self)).1
  rw [hpending, List.nodup_cons] at hnodup
  rw [told, told, waiting, waiting, heard, heard, hrounds, waits_cons, waits_cons, hpending,
    List.filter_append, List.map_append]
  by_cases ht : tag = t
  · subst ht
    rw [if_neg hnodup.1, if_pos List.mem_cons_self,
      List.filter_cons_of_pos (by simp), List.filter_nil, List.map_singleton, List.append_assoc,
      List.singleton_append]
  · have hmem : t ∈ tag :: pending ↔ t ∈ pending :=
      ⟨fun h => (List.mem_cons.mp h).resolve_left (Ne.symm ht), List.mem_cons_of_mem _⟩
    rw [List.filter_cons_of_neg (by simpa using ht), List.filter_nil, List.map_nil, List.append_nil]
    simp only [hmem]

variable {l : Listener}

/-- **What a step does to what a listener is told**: nothing; or it is to be told of a change; or
the listener is new. -/
theorem told_effect [BEq T] (hg : Good initial s) (h : Effect s a s')
    (hl : l ∈ s'.listeners) (hcallable : l.callable = true) :
    (l ∈ s.listeners ∧ s'.changes.length = s.changes.length ∧ s'.told l.tag = s.told l.tag) ∨
    (l ∈ s.listeners ∧ Changes s a ∧ s'.changes.length = s.changes.length + 1 ∧
      s'.heard l.tag = s.heard l.tag ∧ s'.waiting l.tag = s.changes.length :: s.waiting l.tag) ∨
    (l.since = s'.changes.length ∧ s'.told l.tag = []) := by
  cases h with
  | idle => exact .inl ⟨hl, rfl, rfl⟩
  | change value htarget hne =>
    refine .inr (.inl ⟨hl, ⟨value, htarget, hne⟩, List.length_append, rfl, ?_⟩)
    have hmem : l.tag ∈ s.copied := List.mem_map_of_mem (List.mem_filter.mpr ⟨hl, hcallable⟩)
    rw [waiting, waits_cons, if_pos hmem]
    rfl
  | add m id htag hsince =>
    rcases emplace_cases m s.listeners with hsame | hperm
    · exact .inl ⟨hsame ▸ hl, rfl, rfl⟩
    · rcases List.mem_cons.mp (hperm.mem_iff.mp hl) with rfl | hl
      · refine .inr (.inr ⟨hsince, ?_⟩)
        rw [htag]
        exact hg.told_eq_nil
      · exact .inl ⟨hl, rfl, rfl⟩
  | remove id => exact .inl ⟨List.mem_of_mem_filter hl, rfl, rfl⟩
  | call r tag pending rounds hrounds hpending =>
    exact .inl ⟨hl, rfl, hg.told_call hrounds hpending l.tag⟩
  | back r rounds hrounds =>
    refine .inl ⟨hl, rfl, ?_⟩
    rw [told, told, waiting, waiting, hrounds, waits_cons, waits_cons]
    rfl
  | done r rounds hrounds hpending =>
    refine .inl ⟨hl, rfl, ?_⟩
    rw [told, told, waiting, waiting, hrounds, waits_cons, hpending, if_neg List.not_mem_nil]
    rfl

/-- One more change is due. -/
theorem due_succ (hlength : s'.changes.length = s.changes.length + 1)
    (hsince : l.since ≤ s.changes.length) : s'.due l = s.due l ++ [s.changes.length] := by
  rw [due, due, hlength, Nat.succ_sub hsince, List.range'_concat, Nat.one_mul,
    Nat.add_sub_cancel' hsince]

theorem due_eq_nil (hsince : l.since = s.changes.length) : s.due l = [] := by
  rw [due, hsince, Nat.sub_self, List.range'_zero]

theorem due_congr (hlength : s'.changes.length = s.changes.length) : s'.due l = s.due l := by
  rw [due, due, hlength]

/-- **Each listener is told of each change since it was added, once.** -/
theorem told_perm [BEq T] (hg : Good initial s) (h : Effect s a s')
    (hs : ∀ l ∈ s.listeners, l.callable = true → (s.told l.tag).Perm (s.due l))
    (hl : l ∈ s'.listeners) (hcallable : l.callable = true) : (s'.told l.tag).Perm (s'.due l) := by
  obtain ⟨hl, hlength, htold⟩ | ⟨hl, -, hlength, hheard, hwaiting⟩ | ⟨hsince, htold⟩ :=
    told_effect hg h hl hcallable
  · rw [htold, due_congr hlength]
    exact hs l hl hcallable
  · rw [told, hheard, hwaiting, due_succ hlength (hg.listeners l hl).2]
    exact List.perm_middle.trans
      (((hs l hl hcallable).cons _).trans (List.perm_append_singleton _ _).symm)
  · rw [htold, due_eq_nil hsince]

/-- The value does not change while the listener waits to be called for an earlier change. -/
def InStep [BEq T] (tag : Nat) (s : ConfigVar T) (a : Action T) : Prop :=
  Changes s a → s.waiting tag = []

/-- **A listener that is told of each change in time** is told of them in their order. -/
theorem told_eq [BEq T] (hg : Good initial s) (h : Effect s a s') (hstep : InStep tag s a)
    (hs : ∀ l ∈ s.listeners, l.callable = true → l.tag = tag → s.told l.tag = s.due l)
    (hl : l ∈ s'.listeners) (hcallable : l.callable = true) (htag : l.tag = tag) :
    s'.told l.tag = s'.due l := by
  obtain ⟨hl, hlength, htold⟩ | ⟨hl, hchanges, hlength, hheard, hwaiting⟩ | ⟨hsince, htold⟩ :=
    told_effect hg h hl hcallable
  · rw [htold, due_congr hlength]
    exact hs l hl hcallable htag
  · have hnone : s.waiting l.tag = [] := htag ▸ hstep hchanges
    have htold := hs l hl hcallable htag
    rw [told, hnone, List.append_nil] at htold
    rw [told, hheard, hwaiting, hnone, due_succ hlength (hg.listeners l hl).2, htold]
  · rw [htold, due_eq_nil hsince]

/-! ## Every run -/

/-- The values that a listener was called with, in the order of the calls. -/
def pairs (s : ConfigVar T) (tag : Nat) : List (T × T) :=
  (s.calls.filter (·.listener = tag)).map fun c => (c.old, c.new)

/-- What holds in every run: the changes are linked, from the initial value to the value; a call is
given the values of its change; and a listener was called once for each change since it was added
whose `set` has returned. -/
structure Coherent (initial : T) (s : ConfigVar T) : Prop where
  linked : Linked initial s.changes s.value
  call : ∀ c ∈ s.calls, s.changes[c.change]? = some (c.old, c.new)
  once : ∀ l ∈ s.listeners, l.callable = true → ∀ k, l.since ≤ k → k < s.changes.length →
    (∀ r ∈ s.rounds, r.change ≠ k) → (s.heard l.tag).count k = 1

/-- The listener was called with the changes since it was added, in their order, and the last one
set the value. -/
structure InOrder (s : ConfigVar T) (l : Listener) : Prop where
  pairs : s.pairs l.tag = s.changes.drop l.since
  last : ∀ p, (s.pairs l.tag).getLast? = some p → p.2 = s.value

/-- No change that is due more than once. -/
theorem count_due (hsince : l.since ≤ k) (hk : k < s.changes.length) : (s.due l).count k = 1 := by
  refine List.count_eq_one_of_mem List.nodup_range' ?_
  rw [due, List.mem_range'_1]
  omega

theorem count_waits_eq_zero (h : ∀ r ∈ rounds, r.change ≠ k) : (waits rounds tag).count k = 0 := by
  rw [List.count_eq_zero]
  intro hmem
  obtain ⟨r, hr, hk⟩ := List.mem_map.mp hmem
  exact h r (List.mem_of_mem_filter hr) hk

/-- The calls of a listener are given the values of the changes it heard of. -/
theorem Good.pairs_eq (hg : Good initial s) (tag : Nat) :
    (s.pairs tag).map some = (s.heard tag).map (s.changes[·]?) := by
  rw [pairs, heard, List.map_map, List.map_map]
  refine List.map_congr_left fun c hc => ?_
  exact (hg.calls c (List.mem_of_mem_filter hc)).2.symm

theorem map_getElem?_due (l : Listener) :
    (s.due l).map (s.changes[·]?) = (s.changes.drop l.since).map some := by
  refine List.ext_getElem ?_ fun i h₁ h₂ => ?_
  · rw [List.length_map, List.length_map, due, List.length_range', List.length_drop]
  · rw [List.length_map, List.length_drop] at h₂
    rw [List.getElem_map, List.getElem_map, List.getElem_drop]
    simp only [due, List.getElem_range', Nat.one_mul]
    exact List.getElem?_eq_getElem _

theorem inOrder_of_told (hg : Good initial s) (hrounds : s.rounds = [])
    (htold : s.told l.tag = s.due l) : InOrder s l := by
  have hheard : s.heard l.tag = s.due l := by
    rw [← htold, told, waiting, hrounds]
    exact (List.append_nil _).symm
  have hpairs : s.pairs l.tag = s.changes.drop l.since := by
    refine List.map_injective_iff.mpr (Option.some_injective _) ?_
    rw [hg.pairs_eq, hheard, map_getElem?_due]
  refine ⟨hpairs, fun p hp => hg.linked.getLast ?_⟩
  rw [hpairs, List.getLast?_drop] at hp
  split_ifs at hp
  exact hp

/-- **Listeners are told of every change, once**, in every run. And a listener whose calls are all
made before the next change hears of the changes in their order, and of the value last, when no
`set` is in progress. -/
theorem listeners_told [BEq T] (initial : T) (s : ConfigVar T)
    (h : Reach step (fun _ _ => True) (init initial) s) :
    Coherent initial s ∧
      ∀ l ∈ s.listeners, l.callable = true → s.rounds = [] →
        Reach step (InStep l.tag) (init initial) s → InOrder s l := by
  have hg : ∀ {ok : ConfigVar T → Action T → Prop} {s : ConfigVar T},
      Reach step ok (init initial) s → Good initial s := fun h =>
    h.invariant (Good initial) (good_init initial) fun _ _ _ hg _ hstep =>
      hg.effect (step_effect hstep)
  refine ⟨⟨(hg h).linked, fun c hc => ((hg h).calls c hc).2,
    fun l hl hcallable k hsince hk hrounds => ?_⟩, fun l hl hcallable hrounds hin => ?_⟩
  · have htold : Good initial s ∧ ∀ l ∈ s.listeners, l.callable = true →
        (s.told l.tag).Perm (s.due l) :=
      h.invariant (fun s => Good initial s ∧ ∀ l ∈ s.listeners, l.callable = true →
        (s.told l.tag).Perm (s.due l)) ⟨good_init initial, by rintro l ⟨⟩⟩
        fun _ _ _ hs _ hstep => ⟨hs.1.effect (step_effect hstep), fun _ hl hc =>
          told_perm hs.1 (step_effect hstep) hs.2 hl hc⟩
    have hcount := (htold.2 l hl hcallable).count_eq k
    rw [count_due hsince hk, told, List.count_append, waiting,
      count_waits_eq_zero hrounds] at hcount
    exact hcount
  · have htold : Good initial s ∧ ∀ m ∈ s.listeners, m.callable = true → m.tag = l.tag →
        s.told m.tag = s.due m :=
      hin.invariant (fun s => Good initial s ∧ ∀ m ∈ s.listeners, m.callable = true →
        m.tag = l.tag → s.told m.tag = s.due m) ⟨good_init initial, by rintro m ⟨⟩⟩
        fun _ _ _ hs hok hstep => ⟨hs.1.effect (step_effect hstep), fun _ hm hc ht =>
          told_eq hs.1 (step_effect hstep) hok hs.2 hm hc ht⟩
    exact inOrder_of_told htold.1 hrounds (htold.2 l hl hcallable rfl)

/-- The first of two listeners sets the value when it is called for the first time. -/
def nested : List (Action Nat) :=
  [.addListener true, .addListener true, .set 1, .call, .set 2, .call, .callReturned, .call,
    .callReturned, .setReturned, .callReturned, .call, .callReturned, .setReturned]

/-- The listener that sets the value hears of the changes in their order. -/
theorem listeners_told_nested :
    ∃ (s : ConfigVar Nat) (l : Listener), s.pairs l.tag = [(0, 1), (1, 2)] ∧
      Coherent 0 s ∧ InOrder s l := by
  have hok : ∀ (s : ConfigVar Nat) (a : Action Nat),
      ((s.waiting 0).isEmpty || (target a).isNone) = true → InStep 0 s a := by
    rintro s a hcheck ⟨value, htarget, -⟩
    rw [htarget, Option.isNone_some, Bool.or_false] at hcheck
    exact List.isEmpty_iff.mp hcheck
  obtain ⟨s, hs⟩ : ∃ s, run step (fun s a => (s.waiting 0).isEmpty || (target a).isNone) nested
      (init 0) = some s := ⟨_, rfl⟩
  have hin : Reach step (InStep 0) (init 0) s := Reach.run hok .init hs
  have htold := listeners_told 0 s (hin.mono fun _ _ _ => trivial)
  refine ⟨s, { id := 1, callable := true, tag := 0, since := 0 }, ?_, htold.1,
    htold.2 _ ?_ rfl ?_ hin⟩
  · cases hs
    rfl
  · cases hs
    exact List.mem_cons_self
  · cases hs
    rfl

/-- **A listener that sets the value**: the one behind it hears of its change first, and of the
value that is gone last. -/
theorem not_listeners_told :
    ¬ ∀ (initial : Nat) (s : ConfigVar Nat), Reach step (fun _ _ => True) (init initial) s →
      s.rounds = [] → ∀ l ∈ s.listeners, l.callable = true → l.since = 0 → InOrder s l := by
  intro hclaim
  obtain ⟨s, hs⟩ : ∃ s, run step (fun _ _ => true) nested (init 0) = some s := ⟨_, rfl⟩
  have hreach : Reach step (fun _ _ => True) (init 0) s := Reach.run (fun _ _ _ => trivial) .init hs
  have hlast := fun hrounds hl =>
    (hclaim 0 s hreach hrounds { id := 2, callable := true, tag := 1, since := 0 } hl rfl rfl).last
      (0, 1)
  cases hs
  exact absurd (hlast rfl (by decide) rfl) (by decide)

end ConfigVar

end Libca.Config
