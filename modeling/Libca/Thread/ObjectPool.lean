import Libca.Common.Monitor
import Mathlib.Data.List.Basic

/-!
# `ObjectPool` (`thread/object_pool.hpp` 20-141)

A pool and the loans of its objects. Each call of `obtain` is a loan: the call itself, the handles
that share the object it returned, and the deleter that runs when the last of them is gone. A
section under the mutex is one step, and `try_to_lock` may fail in any step. An object is the number
of the call of the factory that made it.

* `move`, `act`, `step`, `Effect`, `act_effect`: the steps, and what each of them does to the
  objects.
* `Sound`: who owns each object, and what the history of the pool says.
* `pool_owns`: every object has one owner and is destroyed once, what is handed out again was reset
  since its last use and has no handle, and a closed pool neither gives nor takes back.
-/

namespace Libca.Thread.ObjectPool

open Common

abbrev Obj := Nat

/-- Where a loan is: in front of `try_to_lock`, in front of the factory, with a pointer that is in
no `shared_ptr`, with one handle more than `copies`, in the deleter in front of `state.lock()`, in
front of the section, or behind it with `locked`, or over. The pointer is null when the factory
returned null. -/
inductive Stage
  | entered
  | building
  | wrapping (object : Option Obj)
  | live (object : Option Obj) (copies : Nat)
  | deleting (o : Obj)
  | locked (o : Obj)
  | unlocking
  | ended
deriving DecidableEq, Repr

def Stage.object : Stage → Option Obj
  | .wrapping object | .live object _ => object
  | .deleting o | .locked o => some o
  | _ => none

/-- A call of `obtain` and what it returned; `calling` says that the call has not returned, so that
its copy of `state_` exists. -/
structure Loan where
  stage : Stage := .entered
  calling : Bool := true
deriving DecidableEq, Repr

/-- A call of `shutdown` or `is_shutdown`: in front of its section, behind it, or back. -/
inductive Query
  | shutdown
  | isShutdown
  | closed
  | read (result : Bool)
  | returned
deriving DecidableEq, Repr

/-- Before its destructor, behind the call of `shutdown` in it, or destroyed. -/
inductive Phase
  | present
  | closing
  | gone
deriving DecidableEq, Repr

/-- What is told of the objects: made by the factory, taken out of the idle list, given to the
deleter, reset by a hook that completed, put into the idle list; and that the section of a
`shutdown` closed the pool. -/
inductive Event
  | made (o : Obj)
  | taken (o : Obj)
  | released (o : Obj)
  | recycled (o : Obj)
  | added (o : Obj)
  | closed
deriving DecidableEq, Repr

/-- The state that `state_` points to, the pool and its loans. `made`, `destroyed` and `history` are
not in the source: the calls of the factory that made an object, the objects whose destructor ran,
and the events, the last one first. -/
structure State where
  onRecycle : Bool
  idle : List Obj := []
  shutdown : Bool := false
  pool : Phase := .present
  loans : List Loan := []
  queries : List Query := []
  made : Nat := 0
  destroyed : List Obj := []
  history : List Event := []

/-- The constructor, with a factory that is not empty. -/
def init (onRecycle : Bool) : State where
  onRecycle := onRecycle

/-! ## The shared state -/

/-- The `shared_ptr`s to the shared state that a loan has: the copy in `obtain` and `locked`. -/
def Loan.holds (l : Loan) : Nat :=
  (if l.calling then 1 else 0) +
    match l.stage with
    | .locked _ | .unlocking => 1
    | _ => 0

def Query.holds : Query → Nat
  | .returned => 0
  | _ => 1

/-- The `shared_ptr`s to the shared state. -/
def State.useCount (s : State) : Nat :=
  (if s.pool = .gone then 0 else 1) + tally Loan.holds s.loans + tally Query.holds s.queries

/-- The shared state goes with its last `shared_ptr`, and the idle objects with it. -/
def settle (s : State) : State :=
  if s.useCount = 0 then { s with idle := [], destroyed := s.idle ++ s.destroyed } else s

/-! ## The steps -/

/-- What a call of the factory does. -/
inductive Made
  | throws
  | null
  | object
deriving DecidableEq, Repr

/-- The steps of a loan. `acquired`, `allocated` and `room` say whether the lock was free, whether
there was memory for the control block and for the idle list; `completes` that the hook does not
throw. -/
inductive Move
  | tryTake (acquired : Bool)
  | build (outcome : Made)
  | wrap (allocated : Bool)
  | leave
  | copy
  | drop
  | lock
  | recycle (completes room : Bool)
  | unlock
deriving DecidableEq, Repr

def setStage (s : State) (i : Nat) (l : Loan) (stage : Stage) : State :=
  { s with loans := s.loans.set i { l with stage := stage } }

/-- The section of `obtain`. -/
def tryTake (s : State) (i : Nat) (l : Loan) (acquired : Bool) : State :=
  if acquired = true ∧ s.shutdown = false then
    match s.idle.getLast? with
    | some o =>
      setStage { s with idle := s.idle.dropLast, history := .taken o :: s.history } i l
        (.wrapping (some o))
    | none => setStage s i l .building
  else setStage s i l .building

/-- `factory().release()`. -/
def build (s : State) (i : Nat) (l : Loan) : Made → State
  | .throws => setStage s i l .ended
  | .null => setStage s i l (.wrapping none)
  | .object =>
    setStage { s with made := s.made + 1, history := .made s.made :: s.history } i l
      (.wrapping (some s.made))

/-- The deleter is called. -/
def release (s : State) (i : Nat) (l : Loan) : Option Obj → State
  | none => setStage s i l .ended
  | some o => setStage { s with history := .released o :: s.history } i l (.deleting o)

/-- `delete ptr`. -/
def delete (s : State) (i : Nat) (l : Loan) (o : Obj) (stage : Stage) : State :=
  setStage { s with destroyed := o :: s.destroyed } i l stage

/-- The section of the deleter. -/
def recycle (s : State) (i : Nat) (l : Loan) (o : Obj) (completes room : Bool) : State :=
  if s.shutdown = true then delete s i l o .unlocking
  else if s.onRecycle = true ∧ completes = false then delete s i l o .unlocking
  else
    let history := if s.onRecycle then .recycled o :: s.history else s.history
    if room = true then
      setStage { s with idle := s.idle ++ [o], history := .added o :: history } i l .unlocking
    else delete { s with history := history } i l o .unlocking

/-- A step of the loan `i`, which is `l`. Handles exist when `obtain` has returned. -/
def move (s : State) (i : Nat) (l : Loan) (m : Move) : Option State :=
  match m, l.stage with
  | .tryTake acquired, .entered => some (tryTake s i l acquired)
  | .build outcome, .building => some (build s i l outcome)
  | .wrap true, .wrapping object => some (setStage s i l (.live object 0))
  | .wrap false, .wrapping object => some (release s i l object)
  | .leave, .live object copies =>
    if l.calling then some (setStage s i { l with calling := false } (.live object copies))
    else none
  | .leave, .ended =>
    if l.calling then some (setStage s i { l with calling := false } .ended) else none
  | .copy, .live object copies =>
    if l.calling then none else some (setStage s i l (.live object (copies + 1)))
  | .drop, .live object (copies + 1) => some (setStage s i l (.live object copies))
  | .drop, .live object 0 => if l.calling then none else some (release s i l object)
  | .lock, .deleting o =>
    some (if s.useCount = 0 then delete s i l o .ended else setStage s i l (.locked o))
  | .recycle completes room, .locked o => some (recycle s i l o completes room)
  | .unlock, .unlocking => some (setStage s i l .ended)
  | _, _ => none

/-- The steps of the loans, of the calls of `shutdown` and `is_shutdown`, and of the destructor. -/
inductive Action
  | obtain
  | loan (i : Nat) (m : Move)
  | invoke (closes : Bool)
  | query (j : Nat)
  | destroy
deriving DecidableEq, Repr

/-- A section of a call of `shutdown` or `is_shutdown`, or its return. -/
def queryStep (s : State) (j : Nat) : Query → Option State
  | .shutdown =>
    some { s with
      shutdown := true
      queries := s.queries.set j .closed
      history := .closed :: s.history }
  | .isShutdown => some { s with queries := s.queries.set j (.read s.shutdown) }
  | .closed | .read _ => some { s with queries := s.queries.set j .returned }
  | .returned => none

/-- A call of `obtain` in progress is to read the member `state_` for its deleter. -/
def Loan.readsPool (l : Loan) : Bool :=
  match l.stage with
  | .entered | .building | .wrapping _ => true
  | _ => false

/-- What an action does before the shared state is looked after. No call is made on a pool in
destruction, and the member `state_` is destroyed when no call of `obtain` is to read it. -/
def act (s : State) : Action → Option State
  | .obtain => if s.pool = .present then some { s with loans := s.loans ++ [{}] } else none
  | .loan i m => s.loans[i]?.bind fun l => move s i l m
  | .invoke closes =>
    if s.pool = .present then
      some { s with queries := s.queries ++ [if closes then .shutdown else .isShutdown] }
    else none
  | .query j => s.queries[j]?.bind (queryStep s j)
  | .destroy =>
    match s.pool with
    | .present =>
      some { s with shutdown := true, pool := .closing, history := .closed :: s.history }
    | .closing => if s.loans.any Loan.readsPool then none else some { s with pool := .gone }
    | .gone => none

def step (s : State) (a : Action) : Option State := (act s a).map settle

/-! ## What a step does -/

/-- The loan answers for the object: `obtain` has its pointer, it has handles, or the deleter has
it. -/
def Loan.owns (o : Obj) (l : Loan) : Nat := if l.stage.object = some o then 1 else 0

/-- The loans that answer for the object. -/
def State.held (s : State) (o : Obj) : Nat := tally (Loan.owns o) s.loans

def one (o p : Nat) : Nat := if o = p then 1 else 0

/-- The changes to the objects. -/
inductive Change (s s' : State) : Prop
  | quiet : s'.idle = s.idle → s'.made = s.made → s'.destroyed = s.destroyed →
      s'.history = s.history → (s.shutdown = true → s'.shutdown = true) →
      (∀ p, s'.held p = s.held p) → Change s s'
  | closed : s'.idle = s.idle → s'.made = s.made → s'.destroyed = s.destroyed →
      s'.history = .closed :: s.history → s'.shutdown = true →
      (∀ p, s'.held p = s.held p) → Change s s'
  | made : s'.idle = s.idle → s'.made = s.made + 1 → s'.destroyed = s.destroyed →
      s'.history = .made s.made :: s.history → s'.shutdown = s.shutdown →
      (∀ p, s'.held p = s.held p + one s.made p) → Change s s'
  | taken (o : Obj) : s.shutdown = false → s.idle = s'.idle ++ [o] → s'.made = s.made →
      s'.destroyed = s.destroyed → s'.history = .taken o :: s.history → s'.shutdown = s.shutdown →
      (∀ p, s'.held p = s.held p + one o p) → Change s s'
  | released (o : Obj) : 0 < s.held o → s'.idle = s.idle → s'.made = s.made →
      s'.destroyed = s.destroyed → s'.history = .released o :: s.history →
      s'.shutdown = s.shutdown → (∀ p, s'.held p = s.held p) → Change s s'
  | destroyed (o : Obj) : s'.idle = s.idle → s'.made = s.made → s'.destroyed = o :: s.destroyed →
      (s'.history = s.history ∨ s'.history = .recycled o :: s.history) →
      s'.shutdown = s.shutdown → (∀ p, s.held p = s'.held p + one o p) → Change s s'
  | added (o : Obj) : s.shutdown = false → s'.idle = s.idle ++ [o] → s'.made = s.made →
      s'.destroyed = s.destroyed →
      s'.history = .added o :: (if s.onRecycle then .recycled o :: s.history else s.history) →
      s'.shutdown = s.shutdown → (∀ p, s.held p = s'.held p + one o p) → Change s s'

/-- The effect of a step. -/
structure Effect (s s' : State) : Prop where
  onRecycle : s'.onRecycle = s.onRecycle
  change : Change s s'

variable {s s' : State}

variable {i : Nat} {l : Loan}

theorem held_set (h : s.loans[i]? = some l) (l' : Loan) (p : Obj) :
    tally (Loan.owns p) (s.loans.set i l') + l.owns p = s.held p + l'.owns p :=
  tally_set _ h l'

variable {t : State}

/-- The loan that moves answers for another object or for none. -/
theorem held_setStage (l' : Loan) (h : s.loans[i]? = some l)
    (hloans : t.loans = s.loans) (stage : Stage) (p : Obj) :
    (setStage t i l' stage).held p + l.owns p =
      s.held p + if stage.object = some p then 1 else 0 := by
  have hset := held_set h { l' with stage := stage } p
  rw [← hloans] at hset
  exact hset

variable {stage : Stage}

theorem held_of_same {l' : Loan} (h : s.loans[i]? = some l)
    (hloans : t.loans = s.loans) (hobject : stage.object = l.stage.object) (p : Obj) :
    (setStage t i l' stage).held p = s.held p := by
  have hset := held_setStage l' h hloans stage p
  rw [hobject] at hset
  exact Nat.add_right_cancel hset

/-- A change of the stage that keeps the object. -/
theorem setStage_effect {l' : Loan} (h : s.loans[i]? = some l)
    (hobject : stage.object = l.stage.object) : Effect s (setStage s i l' stage) :=
  ⟨rfl, .quiet rfl rfl rfl rfl id (held_of_same h rfl hobject)⟩

variable {o : Obj}

theorem held_gain
    (h : s.loans[i]? = some l) (hloans : t.loans = s.loans) (hnone : l.stage.object = none)
    (hsome : stage.object = some o) (p : Obj) :
    (setStage t i l stage).held p = s.held p + one o p := by
  have hset := held_setStage l h hloans stage p
  rw [Loan.owns, hnone, if_neg (by simp), hsome] at hset
  simpa [one] using hset

theorem held_lose
    (h : s.loans[i]? = some l) (hloans : t.loans = s.loans) (hsome : l.stage.object = some o)
    (hnone : stage.object = none) (p : Obj) :
    s.held p = (setStage t i l stage).held p + one o p := by
  have hset := held_setStage l h hloans stage p
  rw [Loan.owns, hsome, hnone, if_neg (show ¬ (none : Option Obj) = some p by simp)] at hset
  simpa [one] using hset.symm

theorem tryTake_effect {acquired : Bool} (h : s.loans[i]? = some l)
    (hstage : l.stage = .entered) : Effect s (tryTake s i l acquired) := by
  unfold tryTake
  split_ifs with hfree
  · cases hlast : s.idle.getLast? with
    | none => exact setStage_effect h (by rw [hstage]; rfl)
    | some o =>
      exact ⟨rfl, .taken o hfree.2 (List.dropLast_append_getLast? o hlast).symm rfl rfl rfl rfl
        (held_gain h rfl (by rw [hstage]; rfl) rfl)⟩
  · exact setStage_effect h (by rw [hstage]; rfl)

theorem build_effect {outcome : Made} (h : s.loans[i]? = some l)
    (hstage : l.stage = .building) : Effect s (build s i l outcome) := by
  cases outcome with
  | throws => exact setStage_effect h (by rw [hstage]; rfl)
  | null => exact setStage_effect h (by rw [hstage]; rfl)
  | object => exact ⟨rfl, .made rfl rfl rfl rfl rfl (held_gain h rfl (by rw [hstage]; rfl) rfl)⟩

theorem release_effect {object : Option Obj} (h : s.loans[i]? = some l)
    (hobject : l.stage.object = object) : Effect s (release s i l object) := by
  cases object with
  | none => exact setStage_effect h hobject.symm
  | some o =>
    refine ⟨rfl, .released o ?_ rfl rfl rfl rfl rfl (held_of_same h rfl hobject.symm)⟩
    have hlose : s.held o = (setStage s i l .ended).held o + one o o :=
      held_lose h rfl hobject rfl o
    rw [hlose, one, if_pos rfl]
    exact Nat.succ_pos _

theorem delete_effect (h : s.loans[i]? = some l)
    (hobject : l.stage.object = some o) (hnone : stage.object = none) :
    Effect s (delete s i l o stage) :=
  ⟨rfl, .destroyed o rfl rfl rfl (.inl rfl) rfl (held_lose h rfl hobject hnone)⟩

theorem recycle_effect {completes room : Bool}
    (h : s.loans[i]? = some l) (hobject : l.stage.object = some o) :
    Effect s (recycle s i l o completes room) := by
  unfold recycle
  by_cases hshutdown : s.shutdown = true
  · rw [if_pos hshutdown]
    exact delete_effect h hobject rfl
  rw [if_neg hshutdown]
  by_cases hthrows : s.onRecycle = true ∧ completes = false
  · rw [if_pos hthrows]
    exact delete_effect h hobject rfl
  rw [if_neg hthrows]
  by_cases hroom : room = true
  · simp only [if_pos hroom]
    exact ⟨rfl, .added o (Bool.eq_false_iff.mpr hshutdown) rfl rfl rfl rfl rfl
      (held_lose h rfl hobject rfl)⟩
  · simp only [if_neg hroom]
    refine ⟨rfl, .destroyed o rfl rfl rfl ?_ rfl (held_lose h rfl hobject rfl)⟩
    by_cases hhook : s.onRecycle = true
    · exact .inr (if_pos hhook)
    · exact .inl (if_neg hhook)

/-- **What a step of a loan does.** -/
theorem move_effect {m : Move} (hl : s.loans[i]? = some l)
    (h : move s i l m = some s') : Effect s s' := by
  unfold move at h
  split at h
  case h_1 hstage =>
    cases h
    exact tryTake_effect hl hstage
  case h_2 hstage =>
    cases h
    exact build_effect hl hstage
  case h_3 hstage =>
    cases h
    exact setStage_effect hl (by rw [hstage]; rfl)
  case h_4 hstage =>
    cases h
    exact release_effect hl (by rw [hstage]; rfl)
  case h_5 hstage =>
    split_ifs at h
    cases h
    exact setStage_effect hl (by rw [hstage])
  case h_6 hstage =>
    split_ifs at h
    cases h
    exact setStage_effect hl (by rw [hstage])
  case h_7 hstage =>
    split_ifs at h
    cases h
    exact setStage_effect hl (by rw [hstage]; rfl)
  case h_8 hstage =>
    cases h
    exact setStage_effect hl (by rw [hstage]; rfl)
  case h_9 hstage =>
    split_ifs at h
    cases h
    exact release_effect hl (by rw [hstage]; rfl)
  case h_10 o hstage =>
    cases h
    split_ifs
    · exact delete_effect hl (by rw [hstage]; rfl) rfl
    · exact setStage_effect hl (by rw [hstage]; rfl)
  case h_11 hstage =>
    cases h
    exact recycle_effect hl (by rw [hstage]; rfl)
  case h_12 hstage =>
    cases h
    exact setStage_effect hl (by rw [hstage]; rfl)
  case h_13 => cases h

theorem queryStep_effect {j : Nat} {q : Query} (h : queryStep s j q = some s') : Effect s s' := by
  cases q with
  | shutdown =>
    cases h
    exact ⟨rfl, .closed rfl rfl rfl rfl rfl fun _ => rfl⟩
  | isShutdown =>
    cases h
    exact ⟨rfl, .quiet rfl rfl rfl rfl id fun _ => rfl⟩
  | closed =>
    cases h
    exact ⟨rfl, .quiet rfl rfl rfl rfl id fun _ => rfl⟩
  | read _ =>
    cases h
    exact ⟨rfl, .quiet rfl rfl rfl rfl id fun _ => rfl⟩
  | returned => cases h

/-- **What a step does before the shared state is looked after.** -/
theorem act_effect {a : Action} (h : act s a = some s') : Effect s s' := by
  cases a with
  | obtain =>
    simp only [act] at h
    split_ifs at h
    cases h
    refine ⟨rfl, .quiet rfl rfl rfl rfl id fun p => ?_⟩
    exact (tally_append (Loan.owns p) s.loans {}).trans (Nat.add_zero _)
  | loan i m =>
    obtain ⟨l, hl, hmove⟩ := Option.bind_eq_some_iff.mp h
    exact move_effect hl hmove
  | invoke closes =>
    simp only [act] at h
    split_ifs at h
    all_goals
      cases h
      exact ⟨rfl, .quiet rfl rfl rfl rfl id fun _ => rfl⟩
  | query j =>
    obtain ⟨q, -, hstep⟩ := Option.bind_eq_some_iff.mp h
    exact queryStep_effect hstep
  | destroy =>
    cases hpool : s.pool with
    | present =>
      simp only [act, hpool] at h
      cases h
      exact ⟨rfl, .closed rfl rfl rfl rfl rfl fun _ => rfl⟩
    | closing =>
      simp only [act, hpool] at h
      split_ifs at h
      cases h
      exact ⟨rfl, .quiet rfl rfl rfl rfl id fun _ => rfl⟩
    | gone =>
      simp only [act, hpool] at h
      cases h

/-! ## What holds in every state -/

/-- The object is handed out, given back or reset. -/
def touches (o : Obj) : Event → Bool
  | .made p | .taken p | .released p | .recycled p => p = o
  | _ => false

/-- What may happen after what has happened: nothing is taken or added when the pool is closed, and
what is taken was reset since its last use. -/
def Allowed (onRecycle : Bool) (older : List Event) : Event → Prop
  | .taken o =>
    .closed ∉ older ∧ (onRecycle = true → older.find? (touches o) = some (.recycled o))
  | .added _ => .closed ∉ older
  | _ => True

/-- Each event was allowed by those before it. -/
def Orderly (onRecycle : Bool) : List Event → Prop
  | [] => True
  | e :: older => Allowed onRecycle older e ∧ Orderly onRecycle older

structure Sound (s : State) : Prop where
  owners : ∀ o : Nat, s.idle.count o + s.held o + s.destroyed.count o = if o < s.made then 1 else 0
  reset : s.onRecycle = true → ∀ o ∈ s.idle, s.history.find? (touches o) = some (.recycled o)
  closed : .closed ∈ s.history → s.shutdown = true
  orderly : Orderly s.onRecycle s.history

theorem Sound.not_mem_idle (h : Sound s) (hheld : 0 < s.held o) : o ∉ s.idle := by
  intro hmem
  have hidle := List.count_pos_iff.mpr hmem
  have howners := h.owners o
  split_ifs at howners <;> omega

theorem Sound.held_of_mem_idle (h : Sound s) (hmem : o ∈ s.idle) : s.held o = 0 := by
  by_contra hne
  exact h.not_mem_idle (Nat.pos_of_ne_zero hne) hmem

theorem find?_touches_of_ne {p : Obj} {e : Event} (he : touches p e = decide (o = p)) (hne : p ≠ o)
    (history : List Event) : (e :: history).find? (touches p) = history.find? (touches p) := by
  rw [List.find?_cons, he, decide_eq_false (Ne.symm hne)]

theorem count_append_one (xs : List Obj) (o p : Obj) :
    (xs ++ [o]).count p = xs.count p + one o p := by
  rw [List.count_append, List.count_singleton, one]
  simp only [beq_iff_eq]

theorem count_cons_one (xs : List Obj) (o p : Obj) : (o :: xs).count p = xs.count p + one o p := by
  rw [List.count_cons, one]
  simp only [beq_iff_eq]

/-- **No step lets go of an object**, or destroys one twice. -/
theorem Change.owners (h : Change s s')
    (hs : ∀ o : Nat, s.idle.count o + s.held o + s.destroyed.count o = if o < s.made then 1 else 0)
    (o : Nat) :
    s'.idle.count o + s'.held o + s'.destroyed.count o = if o < s'.made then 1 else 0 := by
  have ho := hs o
  cases h with
  | quiet hidle hmade hdestroyed _ _ hheld => rw [hidle, hheld, hdestroyed, hmade, ho]
  | closed hidle hmade hdestroyed _ _ hheld => rw [hidle, hheld, hdestroyed, hmade, ho]
  | released p _ hidle hmade hdestroyed _ _ hheld => rw [hidle, hheld, hdestroyed, hmade, ho]
  | made hidle hmade hdestroyed _ _ hheld =>
    rw [hidle, hheld, hdestroyed, hmade, one]
    split_ifs at ho ⊢ <;> omega
  | taken p _ hidle hmade hdestroyed _ _ hheld =>
    rw [hidle, count_append_one] at ho
    rw [hheld, hdestroyed, hmade]
    omega
  | destroyed p hidle hmade hdestroyed _ _ hheld =>
    rw [hheld] at ho
    rw [hidle, hdestroyed, hmade, count_cons_one]
    omega
  | added p _ hidle hmade hdestroyed _ _ hheld =>
    rw [hheld] at ho
    rw [hidle, hdestroyed, hmade, count_append_one]
    omega

theorem Sound.count_idle_le (h : Sound s) (o : Obj) : s.idle.count o ≤ 1 := by
  have howners := h.owners o
  split_ifs at howners <;> omega

/-- **What is idle was reset since its last use.** -/
theorem Change.reset (h : Change s s') (hs : Sound s) (hhook : s.onRecycle = true)
    (hmem : o ∈ s'.idle) : s'.history.find? (touches o) = some (.recycled o) := by
  cases h with
  | quiet hidle _ _ hhistory =>
    rw [hhistory]
    exact hs.reset hhook o (hidle ▸ hmem)
  | closed hidle _ _ hhistory =>
    rw [hhistory]
    exact hs.reset hhook o (hidle ▸ hmem)
  | made hidle _ _ hhistory =>
    rw [hidle] at hmem
    rw [hhistory]
    refine (find?_touches_of_ne rfl ?_ _).trans (hs.reset hhook o hmem)
    rintro rfl
    have hcount := List.count_pos_iff.mpr hmem
    have howners := hs.owners s.made
    rw [if_neg (Nat.lt_irrefl _)] at howners
    omega
  | taken p _ hidle _ _ hhistory =>
    rw [hhistory]
    refine (find?_touches_of_ne rfl ?_ _).trans
      (hs.reset hhook o (hidle ▸ List.mem_append_left _ hmem))
    rintro rfl
    have hcount := List.count_pos_iff.mpr hmem
    have hle := hs.count_idle_le o
    rw [hidle, count_append_one, one, if_pos rfl] at hle
    omega
  | released p hpos hidle _ _ hhistory =>
    rw [hidle] at hmem
    rw [hhistory]
    refine (find?_touches_of_ne rfl ?_ _).trans (hs.reset hhook o hmem)
    rintro rfl
    exact hs.not_mem_idle hpos hmem
  | destroyed p hidle _ _ hhistory _ hheld =>
    rw [hidle] at hmem
    rcases hhistory with hhistory | hhistory
    · rw [hhistory]
      exact hs.reset hhook o hmem
    · rw [hhistory]
      refine (find?_touches_of_ne rfl ?_ _).trans (hs.reset hhook o hmem)
      rintro rfl
      refine hs.not_mem_idle ?_ hmem
      rw [hheld, one, if_pos rfl]
      exact Nat.succ_pos _
  | added p _ hidle _ _ hhistory _ hheld =>
    rw [hidle] at hmem
    rw [hhistory, if_pos hhook, List.find?_cons]
    show ((Event.recycled p :: s.history).find? (touches o)) = _
    by_cases hop : o = p
    · subst hop
      rw [List.find?_cons, touches, decide_eq_true rfl]
    · refine (find?_touches_of_ne rfl hop _).trans (hs.reset hhook o ?_)
      exact (List.mem_append.mp hmem).resolve_right fun h => hop (List.mem_singleton.mp h)

/-- A closed pool stays closed. -/
theorem Change.closed_history (h : Change s s') (hs : .closed ∈ s.history → s.shutdown = true)
    (hmem : .closed ∈ s'.history) : s'.shutdown = true := by
  cases h with
  | quiet _ _ _ hhistory hshutdown => exact hshutdown (hs (hhistory ▸ hmem))
  | closed _ _ _ _ hshutdown => exact hshutdown
  | made _ _ _ hhistory hshutdown =>
    rw [hshutdown]
    rw [hhistory] at hmem
    exact hs ((List.mem_cons.mp hmem).resolve_left (by simp))
  | taken _ _ _ _ _ hhistory hshutdown =>
    rw [hshutdown]
    rw [hhistory] at hmem
    exact hs ((List.mem_cons.mp hmem).resolve_left (by simp))
  | released _ _ _ _ _ hhistory hshutdown =>
    rw [hshutdown]
    rw [hhistory] at hmem
    exact hs ((List.mem_cons.mp hmem).resolve_left (by simp))
  | destroyed _ _ _ _ hhistory hshutdown =>
    rw [hshutdown]
    rcases hhistory with hhistory | hhistory
    · exact hs (hhistory ▸ hmem)
    · rw [hhistory] at hmem
      exact hs ((List.mem_cons.mp hmem).resolve_left (by simp))
  | added _ _ _ _ _ hhistory hshutdown =>
    rw [hshutdown]
    rw [hhistory] at hmem
    have hrest := (List.mem_cons.mp hmem).resolve_left (by simp)
    split_ifs at hrest
    · exact hs ((List.mem_cons.mp hrest).resolve_left (by simp))
    · exact hs hrest

theorem Sound.not_closed (hs : Sound s) (hopen : s.shutdown = false) : .closed ∉ s.history := by
  intro hmem
  rw [hs.closed hmem] at hopen
  cases hopen

/-- **What a step tells was allowed.** -/
theorem Change.orderly (h : Change s s') (hs : Sound s) : Orderly s.onRecycle s'.history := by
  cases h with
  | quiet _ _ _ hhistory => exact hhistory ▸ hs.orderly
  | closed _ _ _ hhistory => exact hhistory ▸ ⟨trivial, hs.orderly⟩
  | made _ _ _ hhistory => exact hhistory ▸ ⟨trivial, hs.orderly⟩
  | taken o hopen hidle _ _ hhistory =>
    have hmem : o ∈ s.idle := hidle ▸ List.mem_append_right _ (List.mem_singleton.mpr rfl)
    rw [hhistory]
    exact ⟨⟨hs.not_closed hopen, fun hhook => hs.reset hhook o hmem⟩, hs.orderly⟩
  | released _ _ _ _ _ hhistory => exact hhistory ▸ ⟨trivial, hs.orderly⟩
  | destroyed _ _ _ _ hhistory =>
    rcases hhistory with hhistory | hhistory
    · exact hhistory ▸ hs.orderly
    · exact hhistory ▸ ⟨trivial, hs.orderly⟩
  | added _ hopen _ _ _ hhistory =>
    rw [hhistory]
    by_cases hhook : s.onRecycle = true
    · rw [if_pos hhook]
      refine ⟨fun hmem => ?_, trivial, hs.orderly⟩
      exact hs.not_closed hopen ((List.mem_cons.mp hmem).resolve_left (by simp))
    · rw [if_neg hhook]
      exact ⟨hs.not_closed hopen, hs.orderly⟩

theorem Sound.effect (hs : Sound s) (h : Effect s s') : Sound s' where
  owners := h.change.owners hs.owners
  reset := fun hhook _ hmem => h.change.reset hs (h.onRecycle ▸ hhook) hmem
  closed := h.change.closed_history hs.closed
  orderly := h.onRecycle ▸ h.change.orderly hs

/-- The idle objects go with the shared state. -/
theorem Sound.settle (hs : Sound s) : Sound (settle s) := by
  unfold ObjectPool.settle
  by_cases hzero : s.useCount = 0
  · rw [if_pos hzero]
    refine ⟨fun o => ?_, (by rintro - o ⟨⟩), hs.closed, hs.orderly⟩
    have howners := hs.owners o
    show ([] : List Obj).count o + s.held o + (s.idle ++ s.destroyed).count o = _
    rw [List.count_append, List.count_nil]
    dsimp only
    omega
  · rw [if_neg hzero]
    exact hs

theorem settle_idle : (settle s).useCount = 0 → (settle s).idle = [] := by
  unfold settle
  by_cases hzero : s.useCount = 0
  · rw [if_pos hzero]
    exact fun _ => rfl
  · rw [if_neg hzero]
    exact fun h => absurd h hzero

theorem settle_history : (settle s).history = s.history := by
  unfold settle
  split_ifs <;> rfl

/-- What holds in every state reached. -/
structure Good (onRecycle : Bool) (s : State) : Prop where
  onRecycle_eq : s.onRecycle = onRecycle
  sound : Sound s
  idle_eq : s.useCount = 0 → s.idle = []

theorem good_init (onRecycle : Bool) : Good onRecycle (init onRecycle) where
  onRecycle_eq := rfl
  sound :=
    { owners := fun _ => rfl
      reset := by rintro - o ⟨⟩
      closed := by rintro ⟨⟩
      orderly := trivial }
  idle_eq := fun _ => rfl

theorem settle_onRecycle : (settle s).onRecycle = s.onRecycle := by
  unfold settle
  split_ifs <;> rfl

theorem Good.step {onRecycle : Bool} {a : Action} (hg : Good onRecycle s) (h : step s a = some s') :
    Good onRecycle s' := by
  obtain ⟨t, hact, rfl⟩ := Option.map_eq_some_iff.mp h
  have heffect := act_effect hact
  exact
    { onRecycle_eq := settle_onRecycle.trans (heffect.onRecycle.trans hg.onRecycle_eq)
      sound := (hg.sound.effect heffect).settle
      idle_eq := settle_idle }

theorem good_of_reach {onRecycle : Bool}
    (h : Reach step (fun _ _ => True) (init onRecycle) s) : Good onRecycle s :=
  h.invariant (Good onRecycle) (good_init onRecycle) fun _ _ _ hg _ => hg.step

/-! ## Ownership -/

theorem owns_eq_zero (h : s.held o = 0) (hmem : l ∈ s.loans) : l.stage.object ≠ some o := by
  intro hobject
  have hzero := List.sum_eq_zero_iff_forall_eq_nat.mp h (l.owns o) (List.mem_map_of_mem hmem)
  rw [Loan.owns, if_pos hobject] at hzero
  cases hzero

/-- **What is handed out has no handle**, and nothing else that refers to it. -/
theorem Change.handed (h : Change s s') (hs : Sound s)
    (hhanded : s'.history = .taken o :: s.history ∨ s'.history = .made o :: s.history) :
    s.held o = 0 := by
  have hne : ∀ e : Event, s.history ≠ e :: s.history :=
    fun e => (List.cons_ne_self e s.history).symm
  cases h with
  | quiet _ _ _ hhistory =>
    rw [hhistory] at hhanded
    exact hhanded.elim (fun h => absurd h (hne _)) fun h => absurd h (hne _)
  | closed _ _ _ hhistory =>
    rw [hhistory] at hhanded
    rcases hhanded with h | h <;> cases h
  | made _ _ _ hhistory =>
    rw [hhistory] at hhanded
    rcases hhanded with h | h
    · cases h
    · obtain rfl : s.made = o := by
        injection h with he
        injection he
      have howners := hs.owners s.made
      rw [if_neg (Nat.lt_irrefl _)] at howners
      omega
  | taken p _ hidle _ _ hhistory =>
    rw [hhistory] at hhanded
    rcases hhanded with h | h
    · obtain rfl : p = o := by
        injection h with he
        injection he
      exact hs.held_of_mem_idle (hidle ▸ List.mem_append_right _ (List.mem_singleton.mpr rfl))
    · cases h
  | released _ _ _ _ _ hhistory =>
    rw [hhistory] at hhanded
    rcases hhanded with h | h <;> cases h
  | destroyed _ _ _ _ hhistory =>
    rcases hhistory with hhistory | hhistory
    · rw [hhistory] at hhanded
      exact hhanded.elim (fun h => absurd h (hne _)) fun h => absurd h (hne _)
    · rw [hhistory] at hhanded
      rcases hhanded with h | h <;> cases h
  | added _ _ _ _ _ hhistory =>
    rw [hhistory] at hhanded
    rcases hhanded with h | h <;> cases h

/-- What a pool promises of its objects: each is idle once, or one loan answers for it, or it was
destroyed once; what is handed out has no handle; the history is orderly; and when the pool is
destroyed and every loan is over, each object was destroyed. -/
structure Owns (onRecycle : Bool) (s : State) : Prop where
  owners : ∀ o : Nat,
    s.idle.count o + s.held o + s.destroyed.count o = if o < s.made then 1 else 0
  handed : ∀ a s' o, step s a = some s' →
    s'.history = .taken o :: s.history ∨ s'.history = .made o :: s.history →
    ∀ l ∈ s.loans, l.stage.object ≠ some o
  orderly : Orderly onRecycle s.history
  ends : s.useCount = 0 → (∀ l ∈ s.loans, l.stage = .ended) →
    ∀ o : Nat, o < s.made → s.destroyed.count o = 1

/-- **Ownership in every interleaving** of loans, handles, closings and the destruction of the pool.
-/
theorem pool_owns (onRecycle : Bool) (s : State)
    (h : Reach step (fun _ _ => True) (init onRecycle) s) : Owns onRecycle s := by
  have hg := good_of_reach h
  refine ⟨hg.sound.owners, fun a s' o hstep hhanded l hmem => ?_,
    hg.onRecycle_eq ▸ hg.sound.orderly, fun hzero hended o hlt => ?_⟩
  · obtain ⟨t, hact, rfl⟩ := Option.map_eq_some_iff.mp hstep
    rw [settle_history] at hhanded
    exact owns_eq_zero ((act_effect hact).change.handed hg.sound hhanded) hmem
  · have hheld : s.held o = 0 := tally_eq_zero fun l hmem => by
      rw [Loan.owns, hended l hmem]
      rfl
    have howners := hg.sound.owners o
    rw [hg.idle_eq hzero, hheld, if_pos hlt, List.count_nil] at howners
    omega

/-- An object is handed out, reset and handed out again; the pool is destroyed before its last
handle. -/
theorem pool_owns_reuse :
    ∃ s, Reach step (fun _ _ => True) (init true) s ∧ .taken 0 ∈ s.history ∧ s.destroyed = [0] ∧
      Owns true s := by
  have hrun : (run step (fun _ _ => true)
      [.obtain, .loan 0 (.tryTake true), .loan 0 (.build .object), .loan 0 (.wrap true),
        .loan 0 .leave, .loan 0 .drop, .loan 0 .lock, .loan 0 (.recycle true true), .loan 0 .unlock,
        .obtain, .loan 1 (.tryTake true), .loan 1 (.wrap true), .loan 1 .leave,
        .destroy, .destroy, .loan 1 .drop, .loan 1 .lock] (init true)).any
      (fun s => s.history.contains (.taken 0) && s.destroyed == [0]) = true := by
    decide
  obtain ⟨s, hreach, hs⟩ := Reach.exists_of_run (fun _ _ _ => trivial) hrun
  rw [Bool.and_eq_true, List.contains_iff_mem, beq_iff_eq] at hs
  exact ⟨s, hreach, hs.1, hs.2, pool_owns true s hreach⟩

end Libca.Thread.ObjectPool
