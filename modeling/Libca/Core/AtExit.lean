import Libca.Common.Ledger
import Libca.Common.Run

/-!
# `AtExitManager` (`core/at_exit.hpp` 24-122)

The managers, the thread that constructs and destroys them, which is thread `0`, and other threads
that register callbacks and run them. A section under the mutex and an access to `g_top_manager_`
are one step each; a callback may make every call that its thread may make.

Left out: exceptions of callbacks, managers destroyed out of their order.

* `step`, `Effect`, `step_effect`: the steps, and what each of them does.
* `Nested`: the use of the managers that the header allows.
* `Sound`: where the managers and the calls are; `Books`: where the callbacks are.
* `Quiet`: no registration is on its way to a manager when the destructor finds no callback any
  more, and none begins before the manager is unregistered.
* `lossless`: **in runs with quiet destructors no callback is lost.**
-/

namespace Libca.Core.AtExit

open Common Function

/-- A `std::function<void()>`, with the number of its registration. -/
structure Callback where
  ticket : Nat
  isEmpty : Bool
deriving DecidableEq, Repr

structure Manager where
  nextManager : Option Nat
  callbacks : List Callback := []
deriving DecidableEq, Repr

/-- A call of `process_callbacks` is in front of the section that takes a batch, in the loop over
one, or in a callback of one; the destructor that made it is behind the loop, or behind the pop. -/
inductive Phase
  | taking
  | iterating (batch : Nat)
  | running (batch : Nat) (callback : Callback)
  | emptied
  | unregistered
deriving DecidableEq, Repr

/-- A callback is running. -/
def Phase.isRunning : Phase → Bool
  | .running .. => true
  | _ => false

/-- A call of `run`, or of the destructor. -/
structure Activation where
  manager : Nat
  destructing : Bool
  phase : Phase
deriving DecidableEq, Repr

/-- The vector `batch` of a call, and what its iterator has still ahead. -/
structure Batch where
  taken : List Callback
  rest : List Callback
deriving DecidableEq, Repr

/-- `g_top_manager_`, the managers by their addresses, and for each thread its calls, the innermost
first, and the registration it is in: the manager it loaded and whether the callback is empty. The
vectors of all calls are kept in `batches`. `registered`, `executed` and `stray` are not in the
source: the callbacks whose registration returned true and those that were called, in this order,
and those that were pushed to a manager whose destructor had returned. -/
structure State where
  top : Option Nat := none
  managers : Nat → Option Manager := fun _ => none
  frames : Nat → List Activation := fun _ => []
  pending : Nat → Option (Nat × Bool) := fun _ => none
  batches : List Batch := []
  registered : List Callback := []
  executed : List Callback := []
  stray : List Callback := []

/-- `callbacks_` of the manager at an address. -/
def State.callbacksOf (s : State) (m : Nat) : List Callback :=
  match s.managers m with
  | none => []
  | some manager => manager.callbacks

/-- The calls of a thread change. -/
def State.setStack (s : State) (k : Nat) (stack : List Activation) : State :=
  { s with frames := update s.frames k stack }

theorem frames_setStack (s : State) (k : Nat) (stack : List Activation) (j : Nat) :
    (s.setStack k stack).frames j = if j = k then stack else s.frames j :=
  Function.update_apply ..

/-- The thread is in no call, or in a callback. -/
def State.free (s : State) (k : Nat) : Bool :=
  (s.pending k).isNone &&
    match s.frames k with
    | [] => true
    | a :: _ => a.phase.isRunning

/-- The steps. `load` and `push` are the two of `register_callback`, `run` is the load of `run`. -/
inductive Action
  | load (k : Nat) (isEmpty : Bool)
  | push (k : Nat)
  | run (k : Nat)
  | take (k : Nat)
  | next (k : Nat)
  | return_ (k : Nat)
  | construct (address : Nat)
  | destroy (m : Nat)
  | unregister
  | destroyed
deriving DecidableEq, Repr

/-- `push` of the manager at an address. -/
def State.push (s : State) (m : Nat) (callback : Callback) : State :=
  match s.managers m with
  | none => { s with stray := s.stray ++ [callback], registered := s.registered ++ [callback] }
  | some manager =>
    { s with
      managers := update s.managers m
        (some { manager with callbacks := manager.callbacks ++ [callback] })
      registered := s.registered ++ [callback] }

/-- `batch.swap(callbacks_)`, and what is done with the batch. -/
def State.take (s : State) (k : Nat) (a : Activation) (stack : List Activation) : State :=
  match s.callbacksOf a.manager with
  | [] => s.setStack k (if a.destructing then { a with phase := .emptied } :: stack else stack)
  | c :: cs =>
    { s with
      managers := update s.managers a.manager
        ((s.managers a.manager).map fun manager => { manager with callbacks := [] })
      batches := s.batches ++ [⟨c :: cs, (c :: cs).reverse⟩]
      frames := update s.frames k ({ a with phase := .iterating s.batches.length } :: stack) }

/-- One turn of the loop over a batch. -/
def State.next (s : State) (k : Nat) (a : Activation) (i : Nat) (b : Batch)
    (stack : List Activation) :
    State :=
  match b.rest with
  | [] => s.setStack k ({ a with phase := .taking } :: stack)
  | c :: rest =>
    let batches := s.batches.set i { b with rest := rest }
    if c.isEmpty then { s with batches := batches }
    else
      { s with
        batches := batches
        executed := s.executed ++ [c]
        frames := update s.frames k ({ a with phase := .running i c } :: stack) }

def step (s : State) : Action → Option State
  | .load k isEmpty =>
    if s.free k then
      match s.top with
      | none => some s
      | some m => some { s with pending := update s.pending k (some (m, isEmpty)) }
    else none
  | .push k =>
    match s.pending k with
    | none => none
    | some (m, isEmpty) =>
      some { s.push m ⟨s.registered.length, isEmpty⟩ with
        pending := update s.pending k none }
  | .run k =>
    if s.free k then
      match s.top with
      | none => some s
      | some m => some (s.setStack k (⟨m, false, .taking⟩ :: s.frames k))
    else none
  | .take k =>
    match s.frames k with
    | ⟨m, destructing, .taking⟩ :: stack => some (s.take k ⟨m, destructing, .taking⟩ stack)
    | _ => none
  | .next k =>
    match s.frames k with
    | ⟨m, destructing, .iterating i⟩ :: stack =>
      match s.batches[i]? with
      | none => none
      | some b => some (s.next k ⟨m, destructing, .iterating i⟩ i b stack)
    | _ => none
  | .return_ k =>
    match s.frames k with
    | ⟨m, destructing, .running i _⟩ :: stack =>
      if s.pending k = none then some (s.setStack k (⟨m, destructing, .iterating i⟩ :: stack))
      else none
    | _ => none
  | .construct address =>
    if s.free 0 && (s.managers address).isNone then
      some { s with
        managers := update s.managers address (some { nextManager := s.top })
        top := some address }
    else none
  | .destroy m =>
    if s.free 0 && (s.managers m).isSome then
      some (s.setStack 0 (⟨m, true, .taking⟩ :: s.frames 0))
    else none
  | .unregister =>
    match s.frames 0 with
    | ⟨m, destructing, .emptied⟩ :: stack =>
      some { s.setStack 0 (⟨m, destructing, .unregistered⟩ :: stack) with
        top := if s.top = some m then (s.managers m).bind Manager.nextManager else s.top }
    | _ => none
  | .destroyed =>
    match s.frames 0 with
    | ⟨m, _, .unregistered⟩ :: stack =>
      some { s.setStack 0 stack with managers := update s.managers m none }
    | _ => none

/-- The use that the header allows: the manager that is destroyed is the current one and in no call
of the thread that destroys it, and what was constructed over it meanwhile was destroyed before. -/
def Nested (s : State) : Action → Prop
  | .destroy m => s.top = some m ∧ ∀ a ∈ s.frames 0, a.manager ≠ m
  | .unregister => ∀ a ∈ (s.frames 0).head?, s.top = some a.manager
  | _ => True

/-- The destructor of the manager has found no callback any more. -/
def State.Closing (s : State) (m : Nat) : Prop :=
  ∃ a ∈ s.frames 0, a.manager = m ∧ (a.phase = .emptied ∨ a.phase = .unregistered)

/-- When the destructor finds no callback any more, no registration is on its way to the manager;
none begins with it until it is unregistered; and the destructor does not return while another
thread runs the callbacks of the manager. -/
def Quiet (s : State) : Action → Prop
  | .load _ _ => ∀ m, s.top = some m → ¬ s.Closing m
  | .take k => ∀ a ∈ (s.frames k).head?, a.destructing = true → s.callbacksOf a.manager = [] →
      ∀ j isEmpty, s.pending j ≠ some (a.manager, isEmpty)
  | .destroyed => ∀ a ∈ (s.frames 0).head?, ∀ k, k ≠ 0 → ∀ b ∈ s.frames k, b.manager ≠ a.manager
  | _ => True

/-- What the manager promises of its callbacks: none is pushed to a destroyed manager; none is
called twice, and what is called was registered and is not empty; when all managers are destroyed,
no callback is running and every one that is not empty was called; and a batch is taken in the order
of registration and called in the reverse order. -/
structure Lossless (s : State) : Prop where
  none_stray : s.stray = []
  executed_once : s.executed.Nodup
  executed_registered : ∀ c ∈ s.executed, c ∈ s.registered ∧ c.isEmpty = false
  all_executed : (∀ m, s.managers m = none) →
    (∀ k, s.frames k = []) ∧ ∀ c ∈ s.registered, c.isEmpty = false → c ∈ s.executed
  reversed : ∀ b ∈ s.batches, b.taken.Sublist s.registered ∧
    s.executed.filter (· ∈ b.taken) <+: (b.taken.filter fun c => !c.isEmpty).reverse

/-! ## What the steps do -/

/-- What each step does. -/
inductive Effect (s : State) : Action → State → Prop
  | refused {k : Nat} {isEmpty : Bool} (htop : s.top = none) : Effect s (.load k isEmpty) s
  | nothing {k : Nat} (htop : s.top = none) : Effect s (.run k) s
  | loaded {k m : Nat} {isEmpty : Bool} (hfree : s.free k = true) (htop : s.top = some m) :
      Effect s (.load k isEmpty) { s with pending := update s.pending k (some (m, isEmpty)) }
  | pushed {k m : Nat} {isEmpty : Bool} (hpending : s.pending k = some (m, isEmpty)) :
      Effect s (.push k) { s.push m ⟨s.registered.length, isEmpty⟩ with
        pending := update s.pending k none }
  | ran {k m : Nat} (hfree : s.free k = true) (htop : s.top = some m) :
      Effect s (.run k) (s.setStack k (⟨m, false, .taking⟩ :: s.frames k))
  | took {k : Nat} {a : Activation} {stack : List Activation} (hphase : a.phase = .taking)
      (hstack : s.frames k = a :: stack) : Effect s (.take k) (s.take k a stack)
  | turned {k i : Nat} {a : Activation} {b : Batch} {stack : List Activation}
      (hphase : a.phase = .iterating i) (hstack : s.frames k = a :: stack)
      (hbatch : s.batches[i]? = some b) : Effect s (.next k) (s.next k a i b stack)
  | returned {k i : Nat} {c : Callback} {a : Activation} {stack : List Activation}
      (hphase : a.phase = .running i c) (hstack : s.frames k = a :: stack)
      (hpending : s.pending k = none) :
      Effect s (.return_ k) (s.setStack k ({ a with phase := .iterating i } :: stack))
  | constructed {address : Nat} (hnone : s.managers address = none) :
      Effect s (.construct address) { s with
        managers := update s.managers address (some { nextManager := s.top })
        top := some address }
  | destroying {m : Nat} (hfree : s.free 0 = true) (halive : (s.managers m).isSome = true) :
      Effect s (.destroy m) (s.setStack 0 (⟨m, true, .taking⟩ :: s.frames 0))
  | unregistered {a : Activation} {stack : List Activation} (hphase : a.phase = .emptied)
      (hstack : s.frames 0 = a :: stack) :
      Effect s .unregister { s.setStack 0 ({ a with phase := .unregistered } :: stack) with
        top := if s.top = some a.manager then (s.managers a.manager).bind Manager.nextManager
          else s.top }
  | destroyed {a : Activation} {stack : List Activation} (hphase : a.phase = .unregistered)
      (hstack : s.frames 0 = a :: stack) :
      Effect s .destroyed { s.setStack 0 stack with
        managers := update s.managers a.manager none }

theorem step_effect {s s' : State} {act : Action} (h : step s act = some s') : Effect s act s' := by
  cases act with
  | load k isEmpty =>
    rw [step] at h
    split_ifs at h with hfree
    split at h
    · next htop =>
      cases h
      exact .refused htop
    · next m htop =>
      cases h
      exact .loaded hfree htop
  | push k =>
    rw [step] at h
    split at h
    · cases h
    · next m isEmpty hpending =>
      cases h
      exact .pushed hpending
  | run k =>
    rw [step] at h
    split_ifs at h with hfree
    split at h
    · next htop =>
      cases h
      exact .nothing htop
    · next m htop =>
      cases h
      exact .ran hfree htop
  | take k =>
    rw [step] at h
    split at h
    · next m destructing stack hstack =>
      cases h
      exact .took rfl hstack
    · cases h
  | next k =>
    rw [step] at h
    split at h
    · next m destructing i stack hstack =>
      split at h
      · cases h
      · next b hbatch =>
        cases h
        exact .turned rfl hstack hbatch
    · cases h
  | return_ k =>
    rw [step] at h
    split at h
    · next m destructing i c stack hstack =>
      split_ifs at h with hpending
      cases h
      exact .returned rfl hstack hpending
    · cases h
  | construct address =>
    rw [step] at h
    split_ifs at h with hfree
    cases h
    rw [Bool.and_eq_true, Option.isNone_iff_eq_none] at hfree
    exact .constructed hfree.2
  | destroy m =>
    rw [step] at h
    split_ifs at h with hfree
    cases h
    rw [Bool.and_eq_true] at hfree
    exact .destroying hfree.1 hfree.2
  | unregister =>
    rw [step] at h
    split at h
    · next m destructing stack hstack =>
      cases h
      exact .unregistered (a := ⟨m, destructing, .emptied⟩) rfl hstack
    · cases h
  | destroyed =>
    rw [step] at h
    split at h
    · next m destructing stack hstack =>
      cases h
      exact .destroyed (a := ⟨m, destructing, .unregistered⟩) rfl hstack
    · cases h

/-! ## The managers and the calls -/

/-- The list of the managers from one on. -/
inductive Chain (managers : Nat → Option Manager) : Option Nat → List Nat → Prop
  | nil : Chain managers none []
  | cons {m : Nat} {manager : Manager} {ms : List Nat} (hmanager : managers m = some manager)
      (hrest : Chain managers manager.nextManager ms) : Chain managers (some m) (m :: ms)

namespace Chain

variable {managers managers' : Nat → Option Manager} {t : Option Nat} {ms : List Nat}

theorem alive (h : Chain managers t ms) {m : Nat} (hm : m ∈ ms) : (managers m).isSome = true := by
  induction h with
  | nil => cases hm
  | cons hmanager hrest ih =>
    rcases List.mem_cons.mp hm with rfl | hm
    · rw [hmanager]
      rfl
    · exact ih hm

/-- The list depends on the pointers of its members only. -/
theorem congr (h : Chain managers t ms)
    (hsame : ∀ m ∈ ms, (managers' m).map Manager.nextManager =
      (managers m).map Manager.nextManager) :
    Chain managers' t ms := by
  induction h with
  | nil => exact .nil
  | @cons m manager ms hmanager hrest ih =>
    have hm := hsame m (.head _)
    rw [hmanager, Option.map_some, Option.map_eq_some_iff] at hm
    obtain ⟨manager', hmanager', hnext⟩ := hm
    refine .cons hmanager' ?_
    rw [hnext]
    exact ih fun m' hm' => hsame m' (.tail _ hm')

theorem top_mem {m : Nat} (h : Chain managers (some m) ms) : m ∈ ms := by
  cases h with
  | cons hmanager hrest => exact .head _

end Chain

/-- The calls of a thread: callbacks of all but the innermost are running; destructors run in thread
`0`, none in a callback of its own manager. -/
structure Stacked (k : Nat) (stack : List Activation) : Prop where
  below : ∀ a ∈ stack.tail, a.phase.isRunning = true
  owner : ∀ a ∈ stack, a.destructing = true → k = 0
  closing : ∀ a ∈ stack, a.phase = .emptied ∨ a.phase = .unregistered → a.destructing = true
  nested : stack.Pairwise fun a b => a.destructing = true → b.manager ≠ a.manager

namespace Stacked

variable {k : Nat} {a : Activation} {stack : List Activation}

theorem nil : Stacked k [] where
  below _ ha := absurd ha List.not_mem_nil
  owner _ ha := absurd ha List.not_mem_nil
  closing _ ha := absurd ha List.not_mem_nil
  nested := List.Pairwise.nil

/-- A call begins. -/
theorem cons (h : Stacked k stack) (hrunning : ∀ b ∈ stack, b.phase.isRunning = true)
    (hphase : a.phase = .taking)
    (hdestructing : a.destructing = true → k = 0 ∧ ∀ b ∈ stack, b.manager ≠ a.manager) :
    Stacked k (a :: stack) where
  below := hrunning
  owner b hb hdes := by
    rcases List.mem_cons.mp hb with rfl | hb
    · exact (hdestructing hdes).1
    · exact h.owner b hb hdes
  closing b hb hclose := by
    rcases List.mem_cons.mp hb with rfl | hb
    · rw [hphase] at hclose
      rcases hclose with hclose | hclose <;> cases hclose
    · exact h.closing b hb hclose
  nested := List.pairwise_cons.mpr ⟨fun b hb hdes => (hdestructing hdes).2 b hb, h.nested⟩

/-- A call ends. -/
theorem of_cons (h : Stacked k (a :: stack)) : Stacked k stack where
  below b hb := h.below b (List.mem_of_mem_tail hb)
  owner b hb := h.owner b (List.mem_cons_of_mem a hb)
  closing b hb := h.closing b (List.mem_cons_of_mem a hb)
  nested := (List.pairwise_cons.mp h.nested).2

/-- The innermost call goes on. -/
theorem setPhase (h : Stacked k (a :: stack)) (p : Phase)
    (hp : p = .emptied ∨ p = .unregistered → a.destructing = true) :
    Stacked k ({ a with phase := p } :: stack) where
  below := h.below
  owner b hb hdes := by
    rcases List.mem_cons.mp hb with rfl | hb
    · exact h.owner a (.head _) hdes
    · exact h.owner b (List.mem_cons_of_mem a hb) hdes
  closing b hb hclose := by
    rcases List.mem_cons.mp hb with rfl | hb
    · exact hp hclose
    · exact h.closing b (List.mem_cons_of_mem a hb) hclose
  nested := List.pairwise_cons.mpr (List.pairwise_cons.mp h.nested)

/-- The destructor of the innermost call is of no other call of the thread. -/
theorem ne_of_mem (h : Stacked k (a :: stack)) (hdes : a.destructing = true) {b : Activation}
    (hb : b ∈ stack) : b.manager ≠ a.manager :=
  (List.pairwise_cons.mp h.nested).1 b hb hdes

theorem not_closing (h : Stacked k (a :: stack)) {b : Activation} (hb : b ∈ stack) :
    ¬ (b.phase = .emptied ∨ b.phase = .unregistered) := by
  intro hclose
  have hrunning := h.below b hb
  rcases hclose with hclose | hclose <;> rw [hclose] at hrunning <;> cases hrunning

end Stacked

/-- The managers form a list, the calls and the registrations are of managers that exist, and the
destructor that found no callback is of a manager that has none and gets none. -/
structure Sound (s : State) : Prop where
  chain : ∃ ms, Chain s.managers s.top ms ∧ ms.Nodup ∧
    ∀ a ∈ s.frames 0, a.phase = .unregistered → a.manager ∉ ms
  stacked : ∀ k, Stacked k (s.frames k)
  active : ∀ k, ∀ a ∈ s.frames k, (s.managers a.manager).isSome = true
  bound : ∀ k m isEmpty, s.pending k = some (m, isEmpty) →
    (s.managers m).isSome = true ∧ ¬ s.Closing m
  emptied : ∀ m, s.Closing m → s.callbacksOf m = []

theorem sound_init : Sound {} where
  chain := ⟨[], .nil, List.nodup_nil, fun _ ha => absurd ha List.not_mem_nil⟩
  stacked _ := .nil
  active _ _ ha := absurd ha List.not_mem_nil
  bound _ _ _ h := by cases h
  emptied _ _ := rfl

namespace Sound

variable {s : State} {k : Nat} {a : Activation} {stack : List Activation}

/-- Only the managers, the calls and the registrations matter. -/
theorem of_eq {s' : State} (h : Sound s) (htop : s'.top = s.top)
    (hmanagers : s'.managers = s.managers)
    (hframes : s'.frames = s.frames) (hpending : s'.pending = s.pending) : Sound s' := by
  obtain ⟨hchain, hstacked, hactive, hbound, hemptied⟩ := h
  have hclosing : ∀ m, s'.Closing m ↔ s.Closing m := fun m => by
    rw [State.Closing, State.Closing, hframes]
  refine ⟨?_, ?_, ?_, ?_, ?_⟩
  · rw [htop, hmanagers, hframes]
    exact hchain
  · rw [hframes]
    exact hstacked
  · rw [hframes, hmanagers]
    exact hactive
  · intro k m isEmpty hp
    rw [hpending] at hp
    rw [hmanagers, hclosing]
    exact hbound k m isEmpty hp
  · intro m hm
    rw [State.callbacksOf, hmanagers]
    exact hemptied m ((hclosing m).mp hm)

theorem running_of_free (h : Sound s) (hfree : s.free k = true) :
    ∀ b ∈ s.frames k, b.phase.isRunning = true := by
  have hbelow := (h.stacked k).below
  rw [State.free, Bool.and_eq_true] at hfree
  cases hstack : s.frames k with
  | nil => exact List.forall_mem_nil _
  | cons a stack =>
    rw [hstack] at hfree hbelow
    intro b hb
    rcases List.mem_cons.mp hb with rfl | hb
    · exact hfree.2
    · exact hbelow b hb

theorem alive_top (h : Sound s) {m : Nat} (htop : s.top = some m) : (s.managers m).isSome =
    true := by
  obtain ⟨ms, hchain, -, -⟩ := h.chain
  rw [htop] at hchain
  exact hchain.alive hchain.top_mem

/-- The calls of a thread change, and no destructor comes to the end of its loop. -/
theorem setStack (h : Sound s) (hstack : Stacked k stack)
    (hactive : ∀ b ∈ stack, (s.managers b.manager).isSome = true)
    (hclosing : ∀ b ∈ stack, b.phase = .emptied ∨ b.phase = .unregistered → b ∈ s.frames k) :
    Sound (s.setStack k stack) := by
  have hmem : ∀ b ∈ (s.setStack k stack).frames 0, b.phase = .emptied ∨ b.phase = .unregistered →
      b ∈ s.frames 0 := by
    intro b hb hphase
    rw [frames_setStack] at hb
    split_ifs at hb with h0
    · rw [h0]
      exact hclosing b hb hphase
    · exact hb
  have hclose : ∀ m, (s.setStack k stack).Closing m → s.Closing m := by
    rintro m ⟨b, hb, hm, hphase⟩
    exact ⟨b, hmem b hb hphase, hm, hphase⟩
  refine ⟨?_, fun j => ?_, fun j => ?_, fun j m isEmpty hp => ?_, fun m hm =>
    h.emptied m (hclose m hm)⟩
  · obtain ⟨ms, hchain, hnodup, hout⟩ := h.chain
    exact ⟨ms, hchain, hnodup, fun b hb hphase => hout b (hmem b hb (.inr hphase)) hphase⟩
  · rw [frames_setStack]
    split_ifs with hj
    · rw [hj]
      exact hstack
    · exact h.stacked j
  · rw [frames_setStack]
    split_ifs with hj
    · exact hactive
    · exact h.active j
  · obtain ⟨halive, hnot⟩ := h.bound j m isEmpty hp
    exact ⟨halive, fun hm => hnot (hclose m hm)⟩

/-- The innermost call of a thread goes on. -/
theorem setPhase (h : Sound s) (hstack : s.frames k = a :: stack) (p : Phase)
    (hp : ¬ (p = .emptied ∨ p = .unregistered)) :
    Sound (s.setStack k ({ a with phase := p } :: stack)) := by
  have hstacked := h.stacked k
  have hactive := h.active k
  rw [hstack] at hstacked hactive
  refine h.setStack (hstacked.setPhase p fun hclose => absurd hclose hp) (fun b hb => ?_)
    fun b hb hclose => ?_
  · rcases List.mem_cons.mp hb with rfl | hb
    · exact hactive a (.head _)
    · exact hactive b (List.mem_cons_of_mem a hb)
  · rcases List.mem_cons.mp hb with rfl | hb
    · exact absurd hclose hp
    · exact absurd hclose (hstacked.not_closing hb)

/-- The callbacks of a manager change; a destructor that has found none is not of it, or they are
none. -/
theorem setCallbacks (h : Sound s) (m : Nat) (f : Manager → List Callback)
    (hf : s.Closing m → ∀ manager, f manager = []) :
    Sound { s with
      managers := update s.managers m
        ((s.managers m).map fun manager => { manager with callbacks := f manager }) } := by
  have hsome : ∀ m', (update s.managers m ((s.managers m).map
      fun manager => { manager with callbacks := f manager }) m').isSome =
        (s.managers m').isSome := by
    intro m'
    by_cases hm : m' = m
    · rw [hm, update_self, Option.isSome_map]
    · rw [update_of_ne hm]
  refine ⟨?_, h.stacked, fun k b hb => ?_, fun k m' isEmpty hp => ?_, fun m' hm' => ?_⟩
  · obtain ⟨ms, hchain, hnodup, hout⟩ := h.chain
    refine ⟨ms, hchain.congr fun m' _ => ?_, hnodup, hout⟩
    by_cases hm : m' = m
    · rw [hm]
      dsimp only
      rw [update_self, Option.map_map]
      rfl
    · dsimp only
      rw [update_of_ne hm]
  · dsimp only
    rw [hsome]
    exact h.active k b hb
  · dsimp only
    rw [hsome]
    exact h.bound k m' isEmpty hp
  · have hold := h.emptied m' hm'
    rw [State.callbacksOf] at hold ⊢
    dsimp only
    by_cases hm : m' = m
    · rw [hm] at hm' ⊢
      rw [update_self]
      cases hmanager : s.managers m with
      | none => rfl
      | some manager => exact hf hm' manager
    · rw [update_of_ne hm]
      exact hold

/-- A registration is pushed. -/
theorem push (h : Sound s) {m : Nat} (halive : (s.managers m).isSome = true) (hnot : ¬ s.Closing m)
    (c : Callback) : Sound (s.push m c) := by
  obtain ⟨manager, hmanager⟩ := Option.isSome_iff_exists.mp halive
  have hset := h.setCallbacks m (fun manager => manager.callbacks ++ [c]) fun hm => absurd hm hnot
  rw [hmanager] at hset
  rw [State.push, hmanager]
  exact hset.of_eq rfl rfl rfl rfl

/-- A destructor finds no callback any more. -/
theorem take_nil (h : Sound s) (hstack : s.frames k = a :: stack) (hdes : a.destructing = true)
    (hnil : s.callbacksOf a.manager = [])
    (hquiet : ∀ j isEmpty, s.pending j ≠ some (a.manager, isEmpty)) :
    Sound (s.setStack k ({ a with phase := .emptied } :: stack)) := by
  have hstacked := h.stacked k
  rw [hstack] at hstacked
  obtain rfl := hstacked.owner a (.head _) hdes
  have hmem : ∀ b ∈ (s.setStack 0 ({ a with phase := .emptied } :: stack)).frames 0,
      b = { a with phase := .emptied } ∨ b ∈ stack := fun b hb => by
    rw [frames_setStack, if_pos rfl] at hb
    exact List.mem_cons.mp hb
  -- the only manager that is closing is the one of this destructor
  have hclose : ∀ m, (s.setStack 0 ({ a with phase := .emptied } :: stack)).Closing m →
      m = a.manager := by
    rintro m ⟨b, hb, rfl, hphase⟩
    rcases hmem b hb with rfl | hb
    · rfl
    · exact absurd hphase (hstacked.not_closing hb)
  refine ⟨?_, fun j => ?_, fun j b hb => ?_, fun j m isEmpty hp => ?_, fun m hm => ?_⟩
  · obtain ⟨ms, hchain, hnodup, hout⟩ := h.chain
    refine ⟨ms, hchain, hnodup, fun b hb hphase => ?_⟩
    rcases hmem b hb with rfl | hb
    · cases hphase
    · exact absurd (.inr hphase) (hstacked.not_closing hb)
  · rw [frames_setStack]
    split_ifs with hj
    · rw [hj]
      exact hstacked.setPhase .emptied fun _ => hdes
    · exact h.stacked j
  · have hactive := h.active 0
    rw [hstack] at hactive
    rw [frames_setStack] at hb
    split_ifs at hb with hj
    · rcases List.mem_cons.mp hb with rfl | hb
      · exact hactive a (.head _)
      · exact hactive b (List.mem_cons_of_mem a hb)
    · exact h.active j b hb
  · refine ⟨(h.bound j m isEmpty hp).1, fun hm => ?_⟩
    rw [hclose m hm] at hp
    exact hquiet j isEmpty hp
  · rw [hclose m hm]
    exact hnil

/-- A manager is constructed. -/
theorem construct (h : Sound s) {address : Nat} (hnone : s.managers address = none) :
    Sound { s with
      managers := update s.managers address (some { nextManager := s.top })
      top := some address } := by
  have hne : ∀ {m}, (s.managers m).isSome = true → m ≠ address := by
    rintro m hm rfl
    rw [hnone] at hm
    cases hm
  have hsame : ∀ {m}, (s.managers m).isSome = true →
      update s.managers address (some { nextManager := s.top }) m = s.managers m :=
    fun hm => update_of_ne (hne hm) ..
  refine ⟨?_, h.stacked, fun k b hb => ?_, fun k m isEmpty hp => ?_, fun m hm => ?_⟩
  · obtain ⟨ms, hchain, hnodup, hout⟩ := h.chain
    refine ⟨address :: ms, @Chain.cons _ _ { nextManager := s.top } _ (update_self ..) ?_,
      List.nodup_cons.mpr ⟨fun hmem => hne (hchain.alive hmem) rfl, hnodup⟩, fun b hb hphase hmem =>
        ?_⟩
    · exact hchain.congr fun m hm => congrArg _ (hsame (hchain.alive hm))
    · rcases List.mem_cons.mp hmem with heq | hmem
      · exact hne (h.active 0 b hb) heq
      · exact hout b hb hphase hmem
  · dsimp only
    rw [hsame (h.active k b hb)]
    exact h.active k b hb
  · obtain ⟨halive, hnot⟩ := h.bound k m isEmpty hp
    dsimp only
    rw [hsame halive]
    exact ⟨halive, hnot⟩
  · obtain ⟨b, hb, hbm, -⟩ := id hm
    have halive : (s.managers m).isSome = true := by
      rw [← hbm]
      exact h.active 0 b hb
    have hold := h.emptied m hm
    rw [State.callbacksOf] at hold ⊢
    dsimp only
    rw [hsame halive]
    exact hold

/-- The current manager is unregistered by its destructor. -/
theorem unregister (h : Sound s) (hstack : s.frames 0 = a :: stack) (hphase : a.phase = .emptied)
    (htop : s.top = some a.manager) :
    Sound { s.setStack 0 ({ a with phase := .unregistered } :: stack) with
      top := (s.managers a.manager).bind Manager.nextManager } := by
  have hstacked := h.stacked 0
  have hactive := h.active 0
  rw [hstack] at hstacked hactive
  have hclosing := hstacked.closing a (.head _) (.inl hphase)
  have hmem : ∀ b ∈ (s.setStack 0 ({ a with phase := .unregistered } :: stack)).frames 0,
      b = { a with phase := .unregistered } ∨ b ∈ stack := fun b hb => by
    rw [frames_setStack, if_pos rfl] at hb
    exact List.mem_cons.mp hb
  have hclose : ∀ m, (s.setStack 0 ({ a with phase := .unregistered } :: stack)).Closing m →
      s.Closing m := by
    rintro m ⟨b, hb, rfl, hbphase⟩
    rcases hmem b hb with rfl | hb
    · exact ⟨a, by rw [hstack]; exact .head _, rfl, .inl hphase⟩
    · exact absurd hbphase (hstacked.not_closing hb)
  refine ⟨?_, fun j => ?_, fun j b hb => ?_, fun j m isEmpty hp => ?_, fun m hm => ?_⟩
  · obtain ⟨ms, hchain, hnodup, -⟩ := h.chain
    rw [htop] at hchain
    cases hchain with
    | @cons m manager ms hmanager hrest =>
      refine ⟨ms, ?_, (List.nodup_cons.mp hnodup).2, fun b hb hbphase => ?_⟩
      · dsimp only
        rw [hmanager]
        exact hrest
      · rcases hmem b hb with rfl | hb
        · exact (List.nodup_cons.mp hnodup).1
        · exact absurd (.inr hbphase) (hstacked.not_closing hb)
  · dsimp only
    rw [frames_setStack]
    split_ifs with hj
    · rw [hj]
      exact hstacked.setPhase .unregistered fun _ => hclosing
    · exact h.stacked j
  · dsimp only at hb
    rw [frames_setStack] at hb
    split_ifs at hb with hj
    · rcases List.mem_cons.mp hb with rfl | hb
      · exact hactive a (.head _)
      · exact hactive b (List.mem_cons_of_mem a hb)
    · exact h.active j b hb
  · obtain ⟨halive, hnot⟩ := h.bound j m isEmpty hp
    exact ⟨halive, fun hm => hnot (hclose m hm)⟩
  · exact h.emptied m (hclose m hm)

/-- A destructor returns. -/
theorem destroyed (h : Sound s) (hstack : s.frames 0 = a :: stack)
    (hphase : a.phase = .unregistered)
    (hquiet : ∀ k, k ≠ 0 → ∀ b ∈ s.frames k, b.manager ≠ a.manager) :
    Sound { s.setStack 0 stack with managers := update s.managers a.manager none } := by
  have hstacked := h.stacked 0
  have hactive := h.active 0
  rw [hstack] at hstacked hactive
  have hdes := hstacked.closing a (.head _) (.inr hphase)
  have hclosing : s.Closing a.manager :=
    ⟨a, by rw [hstack]; exact .head _, rfl, .inr hphase⟩
  have hnone : ∀ m, ¬ (s.setStack 0 stack).Closing m := by
    rintro m ⟨b, hb, -, hbphase⟩
    rw [frames_setStack, if_pos rfl] at hb
    exact hstacked.not_closing hb hbphase
  refine ⟨?_, fun j => ?_, fun j b hb => ?_, fun j m isEmpty hp => ?_, fun m hm =>
    absurd hm (hnone m)⟩
  · obtain ⟨ms, hchain, hnodup, hout⟩ := h.chain
    have hnot : a.manager ∉ ms := hout a (by rw [hstack]; exact .head _) hphase
    refine ⟨ms, hchain.congr fun m hm => ?_, hnodup, fun b hb hbphase => ?_⟩
    · dsimp only
      rw [update_of_ne fun heq => hnot (by rw [← heq]; exact hm)]
    · exact absurd ⟨b, hb, rfl, .inr hbphase⟩ (hnone b.manager)
  · dsimp only
    rw [frames_setStack]
    split_ifs with hj
    · rw [hj]
      exact hstacked.of_cons
    · exact h.stacked j
  · dsimp only at hb ⊢
    rw [frames_setStack] at hb
    split_ifs at hb with hj
    · rw [update_of_ne (hstacked.ne_of_mem hdes hb)]
      exact hactive b (List.mem_cons_of_mem a hb)
    · rw [update_of_ne (hquiet j hj b hb)]
      exact h.active j b hb
  · obtain ⟨halive, hnot⟩ := h.bound j m isEmpty hp
    dsimp only
    rw [update_of_ne fun heq => hnot (by rw [heq]; exact hclosing)]
    exact ⟨halive, hnone m⟩

/-- The registrations change. -/
theorem setPending (h : Sound s) (k : Nat) (p : Option (Nat × Bool))
    (hp : ∀ m isEmpty, p = some (m, isEmpty) → (s.managers m).isSome = true ∧ ¬ s.Closing m) :
    Sound { s with pending := update s.pending k p } := by
  refine ⟨h.chain, h.stacked, h.active, fun j m isEmpty hj => ?_, h.emptied⟩
  dsimp only at hj
  by_cases hjk : j = k
  · rw [hjk, update_self] at hj
    exact hp m isEmpty hj
  · rw [update_of_ne hjk] at hj
    exact h.bound j m isEmpty hj

/-- **Every step keeps the managers and the calls sound.** -/
theorem step {s' : State} {act : Action} (h : Sound s) (hnested : Nested s act)
    (hquiet : Quiet s act) (heffect : Effect s act s') : Sound s' := by
  cases heffect with
  | refused htop | nothing htop => exact h
  | loaded hfree htop =>
    refine h.setPending _ _ fun m isEmpty hp => ?_
    cases hp
    exact ⟨h.alive_top htop, hquiet _ htop⟩
  | @pushed k m isEmpty hpending =>
    obtain ⟨halive, hnot⟩ := h.bound k m isEmpty hpending
    have hpush := h.push halive hnot ⟨s.registered.length, isEmpty⟩
    have hsame : ∀ m c, (s.push m c).pending = s.pending := fun m c => by
      unfold State.push
      split <;> rfl
    rw [← hsame]
    exact hpush.setPending _ none fun _ _ hp => by cases hp
  | @ran k m hfree htop =>
    refine h.setStack ((h.stacked k).cons (h.running_of_free hfree) rfl fun hdes => by cases hdes)
      (fun b hb => ?_) fun b hb hclose => ?_
    · rcases List.mem_cons.mp hb with rfl | hb
      · exact h.alive_top htop
      · exact h.active k b hb
    · rcases List.mem_cons.mp hb with rfl | hb
      · rcases hclose with hclose | hclose <;> cases hclose
      · exact hb
  | @took k a stack hphase hstack =>
    unfold State.take
    cases hcallbacks : s.callbacksOf a.manager with
    | nil =>
      by_cases hdes : a.destructing = true
      · have hno := hquiet a (by rw [hstack]; rfl) hdes hcallbacks
        simp only [if_pos hdes]
        exact h.take_nil hstack hdes hcallbacks hno
      · have hstacked := h.stacked k
        have hactive := h.active k
        rw [hstack] at hstacked hactive
        simp only [if_neg hdes]
        refine h.setStack hstacked.of_cons (fun b hb => hactive b (List.mem_cons_of_mem a hb))
          fun b hb hclose => absurd hclose (hstacked.not_closing hb)
    | cons c cs =>
      have hset := h.setCallbacks a.manager (fun _ => []) fun _ _ => rfl
      have hgo := hset.setPhase hstack (.iterating s.batches.length) (by simp)
      exact hgo.of_eq rfl rfl rfl rfl
  | @turned k i a b stack hphase hstack hbatch =>
    unfold State.next
    cases b.rest with
    | nil => exact h.setPhase hstack .taking (by simp)
    | cons c rest =>
      dsimp only
      split_ifs
      · exact h.of_eq rfl rfl rfl rfl
      · exact (h.setPhase hstack (.running i c) (by simp)).of_eq rfl rfl rfl rfl
  | @returned k i c a stack hphase hstack hpending =>
    exact h.setPhase hstack (.iterating i) (by simp)
  | constructed hnone => exact h.construct hnone
  | @destroying m hfree halive =>
    refine h.setStack ((h.stacked 0).cons (h.running_of_free hfree) rfl fun _ => ⟨rfl, hnested.2⟩)
      (fun b hb => ?_) fun b hb hclose => ?_
    · rcases List.mem_cons.mp hb with rfl | hb
      · exact halive
      · exact h.active 0 b hb
    · rcases List.mem_cons.mp hb with rfl | hb
      · rcases hclose with hclose | hclose <;> cases hclose
      · exact hb
  | @unregistered a stack hphase hstack =>
    have htop := hnested a (by rw [hstack]; rfl)
    rw [if_pos htop]
    exact h.unregister hstack hphase htop
  | @destroyed a stack hphase hstack =>
    exact h.destroyed hstack hphase (hquiet a (by rw [hstack]; rfl))

end Sound

/-! ## The callbacks -/

/-- A place of a callback: a manager or a batch. -/
def State.slot (s : State) : Nat ⊕ Nat → List Callback
  | .inl m => s.callbacksOf m
  | .inr i => (s.batches[i]?.map Batch.taken).getD []

/-- The batch that a call is in. -/
def Phase.batch : Phase → Option Nat
  | .iterating i | .running i _ => some i
  | _ => none

/-- Some call is in the batch. -/
def State.InCall (s : State) (i : Nat) : Prop := ∃ k, ∃ a ∈ s.frames k, a.phase.batch = some i

/-- What was called of a batch is what its iterator has passed. -/
def Progress (executed : List Callback) (b : Batch) : Prop :=
  ∃ done, b.taken.reverse = done ++ b.rest ∧
    executed.filter (· ∈ b.taken) = done.filter fun c => !c.isEmpty

namespace Progress

variable {executed : List Callback} {b : Batch} {c : Callback} {taken rest : List Callback}

/-- A call of another batch. -/
theorem other (h : Progress executed b) (hc : c ∉ b.taken) : Progress (executed ++ [c]) b := by
  obtain ⟨done, hdone, hfilter⟩ := h
  refine ⟨done, hdone, ?_⟩
  rw [List.filter_append, hfilter, List.filter_singleton, decide_eq_false hc]
  exact List.append_nil _

/-- The iterator passes an empty callback. -/
theorem skip (h : Progress executed ⟨taken, c :: rest⟩) (hempty : c.isEmpty = true) :
    Progress executed ⟨taken, rest⟩ := by
  obtain ⟨done, hdone, hfilter⟩ := h
  refine ⟨done ++ [c], by rw [hdone, List.append_assoc]; rfl, ?_⟩
  rw [hfilter, List.filter_append, List.filter_singleton, hempty]
  exact (List.append_nil _).symm

theorem mem_taken (h : Progress executed ⟨taken, c :: rest⟩) : c ∈ taken := by
  obtain ⟨done, hdone, -⟩ := h
  have hmem : c ∈ taken.reverse := by
    rw [hdone]
    exact List.mem_append_right done (.head _)
  exact List.mem_reverse.mp hmem

/-- The callback that is next was not called before. -/
theorem not_mem (h : Progress executed ⟨taken, c :: rest⟩) (hnodup : taken.Nodup) : c ∉
    executed := by
  intro hmem
  have hc := h.mem_taken
  obtain ⟨done, hdone, hfilter⟩ := h
  have hdone' : c ∈ done := by
    have hin : c ∈ executed.filter (· ∈ taken) := List.mem_filter.mpr ⟨hmem, decide_eq_true hc⟩
    rw [hfilter] at hin
    exact (List.mem_filter.mp hin).1
  have hreverse := List.nodup_reverse.mpr hnodup
  rw [hdone] at hreverse
  exact (List.nodup_append.mp hreverse).2.2 c hdone' c (.head _) rfl

/-- The callback that is next is called. -/
theorem call (h : Progress executed ⟨taken, c :: rest⟩) (hempty : c.isEmpty = false) :
    Progress (executed ++ [c]) ⟨taken, rest⟩ := by
  have hc := h.mem_taken
  obtain ⟨done, hdone, hfilter⟩ := h
  refine ⟨done ++ [c], by rw [hdone, List.append_assoc]; rfl, ?_⟩
  rw [List.filter_append, hfilter, List.filter_append, List.filter_singleton, List.filter_singleton,
    decide_eq_true hc, hempty]
  rfl

end Progress

/-- Every callback that was registered is in one manager or one batch, and was called when the
iterator of its batch has passed it; the iterator that is not at its end is the one of a call. -/
structure Books (s : State) : Prop where
  ledger : Ledger s.slot s.registered
  tickets : ∀ c ∈ s.registered, c.ticket < s.registered.length
  none_stray : s.stray = []
  progress : ∀ b ∈ s.batches, Progress s.executed b
  executed_once : s.executed.Nodup
  executed_taken : ∀ c ∈ s.executed, c.isEmpty = false ∧ ∃ b ∈ s.batches, c ∈ b.taken
  called : ∀ i b, s.batches[i]? = some b → b.rest ≠ [] → s.InCall i

theorem slot_init : State.slot {} = fun _ => [] := by
  funext p
  cases p with
  | inl m => rfl
  | inr i => rfl

theorem books_init : Books {} where
  ledger := by
    rw [slot_init]
    exact .nil
  tickets _ hc := absurd hc List.not_mem_nil
  none_stray := rfl
  progress _ hb := absurd hb List.not_mem_nil
  executed_once := List.nodup_nil
  executed_taken _ hc := absurd hc List.not_mem_nil
  called _ _ hb := by cases hb

/-- A call that is in no batch, or in one whose iterator is at its end, may go. -/
theorem inCall_setStack {s : State} {k i : Nat} {stack : List Activation} (h : s.InCall i)
    (hk : ∀ a ∈ s.frames k, a.phase.batch = some i → ∃ b ∈ stack, b.phase.batch = some i) :
    (s.setStack k stack).InCall i := by
  obtain ⟨j, a, ha, hi⟩ := h
  by_cases hj : j = k
  · rw [hj] at ha
    obtain ⟨b, hb, hbi⟩ := hk a ha hi
    refine ⟨k, b, ?_, hbi⟩
    rw [frames_setStack, if_pos rfl]
    exact hb
  · refine ⟨j, a, ?_, hi⟩
    rw [frames_setStack, if_neg hj]
    exact ha

/-- The innermost call of a thread is replaced, and is in the same batch or in none before. -/
theorem inCall_cons {s : State} {k i : Nat} {a a' : Activation} {stack : List Activation}
    (h : s.InCall i) (hstack : s.frames k = a :: stack)
    (ha : a.phase.batch = some i → a'.phase.batch = some i) :
    (s.setStack k (a' :: stack)).InCall i := by
  refine inCall_setStack h fun b hb hi => ?_
  rw [hstack] at hb
  rcases List.mem_cons.mp hb with rfl | hb
  · exact ⟨a', .head _, ha hi⟩
  · exact ⟨b, List.mem_cons_of_mem a' hb, hi⟩

namespace Books

variable {s s' : State} {k : Nat} {a : Activation} {stack : List Activation}

/-- The calls change, and no callback moves. -/
theorem of_eq (h : Books s) (hslot : s'.slot = s.slot) (hregistered : s'.registered = s.registered)
    (hstray : s'.stray = s.stray) (hbatches : s'.batches = s.batches)
    (hexecuted : s'.executed = s.executed)
    (hcalled : ∀ i b, s.batches[i]? = some b → b.rest ≠ [] → s.InCall i → s'.InCall i) :
    Books s' where
  ledger := by
    rw [hslot, hregistered]
    exact h.ledger
  tickets := by
    rw [hregistered]
    exact h.tickets
  none_stray := hstray.trans h.none_stray
  progress := by
    rw [hbatches, hexecuted]
    exact h.progress
  executed_once := by
    rw [hexecuted]
    exact h.executed_once
  executed_taken := by
    rw [hbatches, hexecuted]
    exact h.executed_taken
  called i b hb hrest := by
    rw [hbatches] at hb
    exact hcalled i b hb hrest (h.called i b hb hrest)

/-- A registration is pushed. -/
theorem push (h : Books s) {m : Nat} (halive : (s.managers m).isSome = true) (isEmpty : Bool) :
    Books (s.push m ⟨s.registered.length, isEmpty⟩) := by
  obtain ⟨manager, hmanager⟩ := Option.isSome_iff_exists.mp halive
  have hcallbacks : s.slot (.inl m) = manager.callbacks := by
    rw [State.slot, State.callbacksOf, hmanager]
  have hnew : (⟨s.registered.length, isEmpty⟩ : Callback) ∉ s.registered := fun hmem =>
    Nat.lt_irrefl _ (h.tickets _ hmem)
  rw [State.push, hmanager]
  refine ⟨h.ledger.add hnew (p := .inl m) ?_ fun r hr => ?_, fun c hc => ?_, h.none_stray,
    h.progress, h.executed_once, h.executed_taken, h.called⟩
  · rw [hcallbacks, State.slot, State.callbacksOf]
    dsimp only
    rw [update_self]
  · cases r with
    | inl m' =>
      rw [State.slot, State.slot, State.callbacksOf, State.callbacksOf]
      dsimp only
      rw [update_of_ne fun heq => hr (congrArg Sum.inl heq)]
    | inr i => rfl
  · rw [List.length_append, List.length_singleton]
    rcases List.mem_append.mp hc with hc | hc
    · exact Nat.lt_succ_of_lt (h.tickets c hc)
    · rw [List.mem_singleton.mp hc]
      exact Nat.lt_succ_self _

/-- A batch is taken. -/
theorem take_cons (h : Books s) (hstack : s.frames k = a :: stack) (hphase : a.phase = .taking)
    {c : Callback} {cs : List Callback} (hcallbacks : s.callbacksOf a.manager = c :: cs) :
    Books { s with
      managers := update s.managers a.manager
        ((s.managers a.manager).map fun manager => { manager with callbacks := [] })
      batches := s.batches ++ [⟨c :: cs, (c :: cs).reverse⟩]
      frames := update s.frames k
        ({ a with phase := .iterating s.batches.length } :: stack) } := by
  have hlast : s.slot (.inr s.batches.length) = [] := by
    rw [State.slot, List.getElem?_eq_none (Nat.le_refl _)]
    rfl
  have hinCall : ∀ i, s.InCall i →
      (s.setStack k ({ a with phase := .iterating s.batches.length } :: stack)).InCall i :=
    fun i hi => inCall_cons hi hstack fun hai => by rw [hphase] at hai; cases hai
  refine ⟨h.ledger.move (p := .inl a.manager) (q := .inr s.batches.length) hlast ?_ ?_ ?_,
    h.tickets,
    h.none_stray, fun b hb => ?_, h.executed_once, fun d hd => ?_, fun i b hb hrest => ?_⟩
  · rw [State.slot, State.callbacksOf]
    dsimp only
    rw [update_self]
    cases s.managers a.manager <;> rfl
  · rw [State.slot, State.slot, hcallbacks]
    simp
  · rintro (m | i) hm hi
    · rw [State.slot, State.slot, State.callbacksOf, State.callbacksOf]
      dsimp only
      rw [update_of_ne fun heq => hm (congrArg Sum.inl heq)]
    · have hne : i ≠ s.batches.length := fun heq => hi (congrArg Sum.inr heq)
      rw [State.slot, State.slot]
      dsimp only
      rcases Nat.lt_or_gt_of_ne hne with hlt | hgt
      · rw [List.getElem?_append_left hlt]
      · rw [List.getElem?_eq_none (by rw [List.length_append, List.length_singleton]; omega),
          List.getElem?_eq_none (by omega)]
  · rcases List.mem_append.mp hb with hb | hb
    · exact h.progress b hb
    · -- nothing of the new batch was called
      rw [List.mem_singleton.mp hb]
      refine ⟨[], rfl, List.filter_eq_nil_iff.mpr fun d hd hmem => ?_⟩
      obtain ⟨-, b', hb', hd'⟩ := h.executed_taken d hd
      obtain ⟨i, hi⟩ := List.getElem?_of_mem hb'
      have hin : d ∈ s.slot (.inr i) := by
        rw [State.slot, hi]
        exact hd'
      have hout : d ∈ s.slot (.inl a.manager) := by
        rw [State.slot, hcallbacks]
        exact of_decide_eq_true hmem
      cases h.ledger.unique hin hout
  · obtain ⟨hempty, b', hb', hd'⟩ := h.executed_taken d hd
    exact ⟨hempty, b', List.mem_append_left _ hb', hd'⟩
  · by_cases hi : i < s.batches.length
    · dsimp only at hb
      rw [List.getElem?_append_left hi] at hb
      exact hinCall i (h.called i b hb hrest)
    · have hlt := (List.getElem?_eq_some_iff.mp hb).1
      dsimp only at hlt
      rw [List.length_append, List.length_singleton] at hlt
      obtain rfl : i = s.batches.length := by omega
      refine ⟨k, { a with phase := .iterating s.batches.length }, ?_, rfl⟩
      dsimp only
      rw [update_self]
      exact .head _

/-- A batch is where the ledger has it. -/
theorem slot_batch {i : Nat} {b : Batch} (hbatch : s.batches[i]? = some b) :
    s.slot (.inr i) = b.taken := by
  rw [State.slot, hbatch]
  rfl

/-- The iterator of a batch passes a callback, which is called unless it is empty. -/
theorem turn (h : Books s) {i : Nat} {b : Batch} (hbatch : s.batches[i]? = some b) {c : Callback}
    {rest : List Callback} (hrest : b.rest = c :: rest) {executed : List Callback}
    {frames : Nat → List Activation} (hexecuted : c.isEmpty = true ∧ executed = s.executed ∨
      c.isEmpty = false ∧ executed = s.executed ++ [c])
    (hcalled : ∀ j, s.InCall j → State.InCall { s with frames := frames } j) :
    Books { s with
      batches := s.batches.set i { b with rest := rest }
      executed := executed
      frames := frames } := by
  obtain ⟨hi, hget⟩ := List.getElem?_eq_some_iff.mp hbatch
  have hprogress := h.progress b (List.mem_of_getElem? hbatch)
  obtain ⟨taken, left⟩ := b
  obtain rfl : left = c :: rest := hrest
  have hslot : s.slot (.inr i) = taken := slot_batch hbatch
  have hnodup : taken.Nodup := by
    rw [← hslot]
    exact (h.ledger.ordered _).nodup h.ledger.nodup
  have hslots : State.slot { s with
      batches := s.batches.set i ⟨taken, rest⟩
      executed := executed
      frames := frames } = s.slot := by
    funext r
    cases r with
    | inl m => rfl
    | inr j =>
      rw [State.slot, State.slot]
      dsimp only
      by_cases hij : i = j
      · rw [← hij, List.getElem?_set_self hi, hbatch]
        rfl
      · rw [List.getElem?_set_ne hij]
  -- a batch after the step is one from before it, or the one whose iterator passed
  have hmem : ∀ j b', (s.batches.set i ⟨taken, rest⟩)[j]? = some b' →
      i = j ∧ b' = ⟨taken, rest⟩ ∨ i ≠ j ∧ s.batches[j]? = some b' := by
    intro j b' hb'
    by_cases hij : i = j
    · rw [← hij, List.getElem?_set_self hi] at hb'
      exact .inl ⟨hij, (Option.some.inj hb').symm⟩
    · rw [List.getElem?_set_ne hij] at hb'
      exact .inr ⟨hij, hb'⟩
  have hkept : ∀ d, (∃ b' ∈ s.batches, d ∈ b'.taken) →
      ∃ b' ∈ s.batches.set i ⟨taken, rest⟩, d ∈ b'.taken := by
    rintro d ⟨b', hb', hd⟩
    obtain ⟨j, hj⟩ := List.getElem?_of_mem hb'
    by_cases hij : i = j
    · rw [← hij, hbatch] at hj
      cases hj
      exact ⟨⟨taken, rest⟩, List.mem_set hi _, hd⟩
    · exact ⟨b', List.mem_of_getElem? (i := j) (by rw [List.getElem?_set_ne hij]; exact hj), hd⟩
  refine ⟨by rw [hslots]; exact h.ledger, h.tickets, h.none_stray, fun b' hb' => ?_, ?_,
    fun d hd => ?_, fun j b' hb' hb'rest => ?_⟩
  · obtain ⟨j, hafter⟩ := List.getElem?_of_mem hb'
    rcases hmem j b' hafter with ⟨-, rfl⟩ | ⟨hij, hj⟩
    · rcases hexecuted with ⟨hempty, rfl⟩ | ⟨hempty, rfl⟩
      · exact hprogress.skip hempty
      · exact hprogress.call hempty
    · have hold := h.progress b' (List.mem_of_getElem? hj)
      rcases hexecuted with ⟨-, rfl⟩ | ⟨-, rfl⟩
      · exact hold
      · refine hold.other fun hc => hij ?_
        have hin : c ∈ s.slot (.inr j) := by
          rw [slot_batch (s := s) hj]
          exact hc
        have hin' : c ∈ s.slot (.inr i) := by
          rw [hslot]
          exact hprogress.mem_taken
        exact Sum.inr.inj (h.ledger.unique hin' hin)
  · rcases hexecuted with ⟨-, rfl⟩ | ⟨-, rfl⟩
    · exact h.executed_once
    · dsimp only
      rw [List.nodup_append_comm, List.singleton_append, List.nodup_cons]
      exact ⟨hprogress.not_mem hnodup, h.executed_once⟩
  · rcases hexecuted with ⟨-, rfl⟩ | ⟨hempty, rfl⟩
    · exact (h.executed_taken d hd).imp_right (hkept d)
    · rcases List.mem_append.mp hd with hd | hd
      · exact (h.executed_taken d hd).imp_right (hkept d)
      · rw [List.mem_singleton.mp hd]
        exact ⟨hempty, hkept c ⟨_, List.mem_of_getElem? hbatch, hprogress.mem_taken⟩⟩
  · refine hcalled j ?_
    rcases hmem j b' hb' with ⟨rfl, -⟩ | ⟨-, hj⟩
    · exact h.called i _ hbatch (List.cons_ne_nil c rest)
    · exact h.called j b' hj hb'rest

/-- **Every step keeps the books.** -/
theorem step {act : Action} (h : Books s) (hsound : Sound s) (heffect : Effect s act s') :
    Books s' := by
  cases heffect with
  | refused htop | nothing htop => exact h
  | loaded hfree htop => exact h.of_eq rfl rfl rfl rfl rfl fun _ _ _ _ hi => hi
  | @pushed k m isEmpty hpending =>
    have hpush := h.push (hsound.bound k m isEmpty hpending).1 isEmpty
    exact hpush.of_eq rfl rfl rfl rfl rfl fun _ _ _ _ hi => hi
  | @ran k m hfree htop =>
    refine h.of_eq rfl rfl rfl rfl rfl fun i _ _ _ hi => inCall_setStack hi fun b hb hbi => ?_
    exact ⟨b, .tail _ hb, hbi⟩
  | @took k a stack hphase hstack =>
    have hnone : ∀ i, a.phase.batch ≠ some i := fun i hi => by
      rw [hphase] at hi
      cases hi
    unfold State.take
    cases hcallbacks : s.callbacksOf a.manager with
    | nil =>
      refine h.of_eq rfl rfl rfl rfl rfl fun i _ _ _ hi => inCall_setStack hi fun b hb hbi => ?_
      rw [hstack] at hb
      rcases List.mem_cons.mp hb with rfl | hb
      · exact absurd hbi (hnone i)
      · refine ⟨b, ?_, hbi⟩
        split_ifs
        · exact .tail _ hb
        · exact hb
    | cons c cs => exact h.take_cons hstack hphase hcallbacks
  | @turned k i a b stack hphase hstack hbatch =>
    unfold State.next
    cases hrest : b.rest with
    | nil =>
      refine h.of_eq rfl rfl rfl rfl rfl fun j b' hb' hb'rest hj => inCall_cons hj hstack fun haj =>
        ?_
      -- the batch of this call is at its end
      rw [hphase] at haj
      cases haj
      rw [hbatch] at hb'
      rw [← Option.some.inj hb'] at hb'rest
      exact absurd hrest hb'rest
    | cons c rest =>
      dsimp only
      by_cases hempty : c.isEmpty = true
      · rw [if_pos hempty]
        exact h.turn hbatch hrest (.inl ⟨hempty, rfl⟩) fun _ hj => hj
      · rw [if_neg hempty]
        refine h.turn hbatch hrest (.inr ⟨Bool.eq_false_iff.mpr hempty, rfl⟩) fun j hj => ?_
        exact inCall_cons hj hstack fun haj => by rw [hphase] at haj; exact haj
  | @returned k i c a stack hphase hstack hpending =>
    refine h.of_eq rfl rfl rfl rfl rfl fun j _ _ _ hj => inCall_cons hj hstack fun haj => ?_
    rw [hphase] at haj
    exact haj
  | @constructed address hnone =>
    refine h.of_eq ?_ rfl rfl rfl rfl fun _ _ _ _ hi => hi
    funext r
    cases r with
    | inl m =>
      rw [State.slot, State.slot, State.callbacksOf, State.callbacksOf]
      dsimp only
      by_cases hm : m = address
      · rw [hm, update_self, hnone]
      · rw [update_of_ne hm]
    | inr i => rfl
  | @destroying m hfree halive =>
    refine h.of_eq rfl rfl rfl rfl rfl fun i _ _ _ hi => inCall_setStack hi fun b hb hbi => ?_
    exact ⟨b, .tail _ hb, hbi⟩
  | @unregistered a stack hphase hstack =>
    refine h.of_eq rfl rfl rfl rfl rfl fun j _ _ _ hj => inCall_cons hj hstack fun haj => ?_
    rw [hphase] at haj
    cases haj
  | @destroyed a stack hphase hstack =>
    have hnil : s.callbacksOf a.manager = [] :=
      hsound.emptied a.manager ⟨a, by rw [hstack]; exact .head _, rfl, .inr hphase⟩
    refine h.of_eq ?_ rfl rfl rfl rfl fun i _ _ _ hi => inCall_setStack hi fun b hb hbi => ?_
    · funext r
      cases r with
      | inl m =>
        by_cases hm : m = a.manager
        · rw [State.slot, State.slot, hm, hnil, State.callbacksOf]
          dsimp only
          rw [update_self]
        · rw [State.slot, State.slot, State.callbacksOf, State.callbacksOf]
          dsimp only
          rw [update_of_ne hm]
      | inr i => rfl
    · rw [hstack] at hb
      rcases List.mem_cons.mp hb with rfl | hb
      · rw [hphase] at hbi
        cases hbi
      · exact ⟨b, hb, hbi⟩

end Books

/-! ## The promise -/

theorem Lossless.of_sound {s : State} (h : Sound s) (hbooks : Books s) : Lossless s where
  none_stray := hbooks.none_stray
  executed_once := hbooks.executed_once
  executed_registered c hc := by
    obtain ⟨hempty, b, hb, hmem⟩ := hbooks.executed_taken c hc
    obtain ⟨i, hi⟩ := List.getElem?_of_mem hb
    rw [← Books.slot_batch hi] at hmem
    exact ⟨hbooks.ledger.mem hmem, hempty⟩
  all_executed hnone := by
    have hframes : ∀ k, s.frames k = [] := fun k =>
      List.eq_nil_iff_forall_not_mem.mpr fun a ha => by
        have halive := h.active k a ha
        rw [hnone] at halive
        cases halive
    refine ⟨hframes, fun c hc hempty => ?_⟩
    obtain ⟨m | i, hp⟩ := hbooks.ledger.held c hc
    · rw [State.slot, State.callbacksOf, hnone] at hp
      cases hp
    · cases hbatch : s.batches[i]? with
      | none =>
        rw [State.slot, hbatch] at hp
        cases hp
      | some b =>
        rw [Books.slot_batch hbatch] at hp
        -- no call is left that the iterator could be of
        have hend : b.rest = [] := by
          by_contra hrest
          obtain ⟨k, a, ha, -⟩ := hbooks.called i b hbatch hrest
          rw [hframes] at ha
          exact List.not_mem_nil ha
        obtain ⟨done, hdone, hfilter⟩ := hbooks.progress b (List.mem_of_getElem? hbatch)
        rw [hend, List.append_nil] at hdone
        have hmem : c ∈ done.filter fun c => !c.isEmpty := by
          rw [← hdone]
          refine List.mem_filter.mpr ⟨List.mem_reverse.mpr hp, ?_⟩
          rw [hempty]
          rfl
        rw [← hfilter] at hmem
        exact (List.mem_filter.mp hmem).1
  reversed b hb := by
    obtain ⟨i, hi⟩ := List.getElem?_of_mem hb
    have hordered := hbooks.ledger.ordered (.inr i)
    rw [Books.slot_batch hi] at hordered
    obtain ⟨done, hdone, hfilter⟩ := hbooks.progress b hb
    refine ⟨hordered, ?_⟩
    rw [hfilter, ← List.filter_reverse, hdone, List.filter_append]
    exact List.prefix_append _ _

/-- **In runs with quiet destructors no callback is lost**: in every run of properly nested
managers, with any number of threads that register callbacks and run them, in which no registration
is on its way to a manager when its destructor finds no callback any more and none begins with it
before it is unregistered. -/
theorem lossless {s : State}
    (h : Reach step (fun s act => Nested s act ∧ Quiet s act) {} s) : Lossless s := by
  have hinv : Sound s ∧ Books s := by
    refine h.invariant (fun s => Sound s ∧ Books s) ⟨sound_init, books_init⟩ ?_
    intro s act s' ⟨hsound, hbooks⟩ ⟨hnested, hquiet⟩ hstep
    have heffect := step_effect hstep
    exact ⟨hsound.step hnested hquiet heffect, hbooks.step hsound heffect⟩
  exact .of_sound hinv.1 hinv.2

/-! ## One thread -/

/-- The thread of a step. -/
def Action.thread : Action → Nat
  | .load k _ | .push k | .run k | .take k | .next k | .return_ k => k
  | .construct _ | .destroy _ | .unregister | .destroyed => 0

/-- The other threads do nothing, and a registration is made outside all calls or in a callback. -/
structure Alone (s : State) : Prop where
  others : ∀ k, k ≠ 0 → s.frames k = [] ∧ s.pending k = none
  registering : s.pending 0 ≠ none → ∀ a ∈ s.frames 0, a.phase.isRunning = true

namespace Alone

variable {s s' : State} {act : Action}

theorem pending_of_free {k : Nat} (hfree : s.free k = true) : s.pending k = none := by
  rw [State.free, Bool.and_eq_true, Option.isNone_iff_eq_none] at hfree
  exact hfree.1

theorem pending_of_head (h : Alone s) {a : Activation} {stack : List Activation}
    (hstack : s.frames 0 = a :: stack) (hphase : a.phase.isRunning = false) : s.pending 0 =
      none := by
  by_contra hne
  have hrunning := h.registering hne a (by rw [hstack]; exact .head _)
  rw [hphase] at hrunning
  cases hrunning

/-- The calls of the thread change when it is in no registration. -/
theorem setStack (h : Alone s) (hpending : s.pending 0 = none) (stack : List Activation) :
    Alone (s.setStack 0 stack) where
  others k hk := by
    rw [frames_setStack, if_neg hk]
    exact h.others k hk
  registering hne := absurd hpending hne

theorem of_eq (h : Alone s) (hframes : s'.frames = s.frames) (hpending : s'.pending = s.pending) :
    Alone s' where
  others := by
    rw [hframes, hpending]
    exact h.others
  registering := by
    rw [hframes, hpending]
    exact h.registering

theorem setPending (h : Alone s) {p : Option (Nat × Bool)}
    (hp : p ≠ none → ∀ a ∈ s.frames 0, a.phase.isRunning = true) :
    Alone { s with pending := update s.pending 0 p } where
  others k hk := by
    dsimp only
    rw [update_of_ne hk]
    exact h.others k hk
  registering hne := by
    dsimp only at hne
    rw [update_self] at hne
    exact hp hne

theorem step (h : Alone s) (hsound : Sound s) (hthread : act.thread = 0)
    (heffect : Effect s act s') :
    Alone s' := by
  cases heffect with
  | refused htop | nothing htop => exact h
  | @loaded k m isEmpty hfree htop =>
    obtain rfl : k = 0 := hthread
    exact h.setPending fun _ => hsound.running_of_free hfree
  | @pushed k m isEmpty hpending =>
    obtain rfl : k = 0 := hthread
    have hpush : Alone (s.push m ⟨s.registered.length, isEmpty⟩) := by
      refine h.of_eq ?_ ?_ <;> unfold State.push <;> split <;> rfl
    have hsame : (s.push m ⟨s.registered.length, isEmpty⟩).pending = s.pending := by
      unfold State.push
      split <;> rfl
    rw [← hsame]
    exact hpush.setPending fun hne => absurd rfl hne
  | @ran k m hfree htop =>
    obtain rfl : k = 0 := hthread
    exact h.setStack (pending_of_free hfree) _
  | @took k a stack hphase hstack =>
    obtain rfl : k = 0 := hthread
    have hpending := h.pending_of_head hstack (by rw [hphase]; rfl)
    unfold State.take
    split
    · exact h.setStack hpending _
    · exact (h.setStack hpending _).of_eq rfl rfl
  | @turned k i a b stack hphase hstack hbatch =>
    obtain rfl : k = 0 := hthread
    have hpending := h.pending_of_head hstack (by rw [hphase]; rfl)
    unfold State.next
    split
    · exact h.setStack hpending _
    · dsimp only
      split_ifs
      · exact h.of_eq rfl rfl
      · exact (h.setStack hpending _).of_eq rfl rfl
  | @returned k i c a stack hphase hstack hpending =>
    obtain rfl : k = 0 := hthread
    exact h.setStack hpending _
  | constructed hnone => exact h.of_eq rfl rfl
  | destroying hfree halive => exact h.setStack (pending_of_free hfree) _
  | unregistered hphase hstack =>
    exact (h.setStack (h.pending_of_head hstack (by rw [hphase]; rfl)) _).of_eq rfl rfl
  | destroyed hphase hstack =>
    exact (h.setStack (h.pending_of_head hstack (by rw [hphase]; rfl)) _).of_eq rfl rfl

/-- **The destructors of one thread are quiet.** -/
theorem quiet (h : Alone s) (hsound : Sound s) (hthread : act.thread = 0)
    (heffect : Effect s act s') : Quiet s act := by
  cases heffect with
  | refused htop =>
    intro m hm
    rw [htop] at hm
    cases hm
  | @loaded k m isEmpty hfree htop =>
    obtain rfl : k = 0 := hthread
    rintro m' - ⟨a, ha, -, hphase⟩
    have hrunning := hsound.running_of_free hfree a ha
    rcases hphase with hphase | hphase <;> rw [hphase] at hrunning <;> cases hrunning
  | @took k a stack hphase hstack =>
    obtain rfl : k = 0 := hthread
    have hpending := h.pending_of_head hstack (by rw [hphase]; rfl)
    intro b _ _ _ j isEmpty hj
    rcases Nat.eq_zero_or_pos j with rfl | hpos
    · rw [hpending] at hj
      cases hj
    · rw [(h.others j (Nat.ne_of_gt hpos)).2] at hj
      cases hj
  | destroyed hphase hstack =>
    intro a _ k hk b hb
    rw [(h.others k hk).1] at hb
    cases hb
  | nothing _ | pushed _ | ran _ _ | turned _ _ _ | returned _ _ _ | constructed _ | destroying _ _
    | unregistered _ _ => trivial

end Alone

/-- The runs of one thread have quiet destructors, so that it loses no callback. -/
theorem reach_of_alone {s : State}
    (h : Reach step (fun s act => Nested s act ∧ act.thread = 0) {} s) :
    Reach step (fun s act => Nested s act ∧ Quiet s act) {} s ∧ Sound s ∧ Alone s := by
  induction h with
  | init =>
    exact ⟨.init, sound_init, fun _ _ => ⟨rfl, rfl⟩, fun hne => absurd rfl hne⟩
  | step act _ hok hstep ih =>
    obtain ⟨hreach, hsound, halone⟩ := ih
    have heffect := step_effect hstep
    have hquiet := halone.quiet hsound hok.2 heffect
    exact ⟨.step act hreach ⟨hok.1, hquiet⟩ hstep, hsound.step hok.1 hquiet heffect,
      halone.step hsound hok.2 heffect⟩

instance (s : State) (act : Action) : Decidable (Nested s act) :=
  match act with
  | .destroy m => inferInstanceAs (Decidable (s.top = some m ∧ ∀ a ∈ s.frames 0, a.manager ≠ m))
  | .unregister =>
    inferInstanceAs (Decidable (∀ a ∈ (s.frames 0).head?, s.top = some a.manager))
  | .load .. | .push _ | .run _ | .take _ | .next _ | .return_ _ | .construct _ | .destroyed =>
    isTrue trivial

/-- A callback registers another one: both are called, the second in the batch after the first. -/
theorem lossless_registering : ∃ s, Lossless s ∧ s.executed = [⟨0, false⟩, ⟨1, false⟩] := by
  have hany : (run step (fun s act => decide (Nested s act ∧ act.thread = 0))
      [.construct 1, .load 0 false, .push 0, .destroy 1, .take 0, .next 0, .load 0 false, .push 0,
        .return_ 0, .next 0, .take 0, .next 0, .return_ 0, .next 0, .take 0, .unregister,
          .destroyed]
      {}).any (fun s => decide (s.executed = [⟨0, false⟩, ⟨1, false⟩])) = true := by
    decide
  have hrun : ∃ s, Reach step (fun s act => Nested s act ∧ act.thread = 0) {} s ∧
      decide (s.executed = [⟨0, false⟩, ⟨1, false⟩]) = true :=
    Reach.exists_of_run (fun _ _ => of_decide_eq_true) hany
  obtain ⟨s, hs, hexecuted⟩ := hrun
  exact ⟨s, lossless (reach_of_alone hs).1, of_decide_eq_true hexecuted⟩

/-- The run in which a registration loads the manager before its destructor finds no callback, and
pushes after that. -/
def lateRegistration : List Action :=
  [.construct 1, .load 1 false, .destroy 1, .take 0, .push 1, .unregister, .destroyed]

/-- **A registration that overlaps the destructor is lost**, although it returned true. -/
theorem not_lossless : ¬ ∀ s, Reach step Nested {} s → Lossless s := by
  intro h
  obtain ⟨s, hrun⟩ : ∃ s, run step (fun s act => decide (Nested s act)) lateRegistration {} =
    some s :=
    ⟨_, rfl⟩
  have hmanagers : ∀ m, s.managers m = none := by
    cases hrun
    intro m
    by_cases hm : m = 1
    · rw [hm]
      rfl
    · have hother : ∀ (f : Nat → Option Manager) v, update f 1 v m = f m :=
        fun f v => update_of_ne hm v f
      exact (hother _ _).trans ((hother _ _).trans (hother _ _))
  have hreach := Reach.run (fun s act hs => of_decide_eq_true hs) .init hrun
  have hlost := ((h s hreach).all_executed hmanagers).2 ⟨0, false⟩
  cases hrun
  exact absurd (hlost (List.mem_singleton.mpr rfl) rfl) List.not_mem_nil

end Libca.Core.AtExit
