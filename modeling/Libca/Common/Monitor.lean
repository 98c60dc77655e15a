import Libca.Common.Run
import Mathlib.Algebra.GroupWithZero.Nat

/-!
# Monitors

Calls of many threads on data behind a mutex, with condition variables. A critical section is one
step. It finishes the call, or blocks it on the condition variable of its operation. A call that
finished may have to notify; every notification is a later step of its own. A call that waits goes
on when it was notified, when its time is over or for no reason, and enters its critical section
again.

* `step`, `step_effect`: the steps, and what each of them does; `enter_finish`: the critical section
  of a call that finishes.
* `Paces`, `Effect.served`: **no notification is lost.** When every critical section notifies once
  for a resource it adds, and a call that waits takes one, the resources are never more than the
  notifications, unless nothing waits.
* `Ends`, `Effect.ended`: when a condition that ends every wait comes with a notification of all,
  nothing goes on waiting.
* `Logs`, `Effect.logged`: a log that the critical sections write has for each call what it
  returned.
* `Quiet`: a state in which no notification is on its way.
-/

namespace Libca.Common

/-! ## Sums over lists -/

/-- What the members of a list add up to. -/
def tally {α : Type} (f : α → Nat) (xs : List α) : Nat := (xs.map f).sum

variable {α : Type}

theorem tally_append (f : α → Nat) (xs : List α) (x : α) :
    tally f (xs ++ [x]) = tally f xs + f x := by
  rw [tally, List.map_append, List.sum_append, List.map_singleton, List.sum_singleton, tally]

/-- One member changes. -/
theorem tally_set (f : α → Nat) {xs : List α} {i : Nat} {x : α} (h : xs[i]? = some x)
    (x' : α) : tally f (xs.set i x') + f x = tally f xs + f x' := by
  induction xs generalizing i with
  | nil => cases h
  | cons head xs ih =>
    cases i with
    | zero =>
      cases h
      simp only [tally, List.set_cons_zero, List.map_cons, List.sum_cons]
      omega
    | succ i =>
      have htail := ih (i := i) h
      simp only [tally, List.set_cons_succ, List.map_cons, List.sum_cons] at htail ⊢
      omega

theorem tally_map_of_eq (f : α → Nat) {g : α → α} (hg : ∀ x, f (g x) = f x)
    (xs : List α) : tally f (xs.map g) = tally f xs := by
  rw [tally, List.map_map, tally]
  exact congrArg List.sum (List.map_congr_left fun x _ => hg x)

theorem tally_eq_zero {f : α → Nat} {xs : List α} (h : ∀ x ∈ xs, f x = 0) : tally f xs = 0 := by
  rw [tally, List.sum_eq_zero_iff_forall_eq_nat]
  intro n hmem
  obtain ⟨x, hx, rfl⟩ := List.mem_map.mp hmem
  exact h x hx

/-! ## The monitor -/

/-- A notification of one or of all that wait on a condition variable. -/
inductive Signal (Cv : Type)
  | one (cv : Cv)
  | all (cv : Cv)
deriving DecidableEq

/-- What a critical section comes to. -/
inductive Outcome (Data Cv Result : Type)
  | block
  | finish (data : Data) (signals : List (Signal Cv)) (result : Result)

/-- The operations; `critical` takes the number of the call and whether its time is over. -/
structure Monitor (Data Op Result Cv : Type) where
  admits : Data → Op → Bool
  waitsOn : Op → Option Cv
  timed : Op → Bool
  critical : Nat → Op → Bool → Data → Outcome Data Cv Result

/-- Where a call is: in front of its critical section, waiting and not notified, or behind its
critical section with what it still has to notify. -/
inductive Progress (Result Cv : Type)
  | awake (notified expired : Bool)
  | blocked
  | leaving (signals : List (Signal Cv)) (result : Result)

structure Call (Op Result Cv : Type) where
  op : Op
  progress : Progress Result Cv

namespace Monitor

structure State (Data Op Result Cv : Type) where
  data : Data
  calls : List (Call Op Result Cv)

/-- `chosen` is the call that a notification of one goes to. -/
inductive Action (Op : Type)
  | invoke (op : Op)
  | enter (i : Nat)
  | notify (i : Nat) (chosen : Option Nat)
  | wake (i : Nat)
  | expire (i : Nat)

variable {Data Op Result Cv : Type} [DecidableEq Cv] (M : Monitor Data Op Result Cv)

/-- Whether a call waits on a condition variable and was not notified. -/
def blockedOn (cv : Cv) (c : Call Op Result Cv) : Bool :=
  match c.progress with
  | .blocked => M.waitsOn c.op == some cv
  | _ => false

/-- Whether a call was notified on a condition variable and did not go on yet. -/
def notifiedOn (cv : Cv) (c : Call Op Result Cv) : Bool :=
  match c.progress with
  | .awake notified _ => notified && M.waitsOn c.op == some cv
  | _ => false

/-- What a call still has to notify. -/
def signalsOf (c : Call Op Result Cv) : List (Signal Cv) :=
  match c.progress with
  | .leaving signals _ => signals
  | _ => []

/-- A notification of all. -/
def notifyAll (cv : Cv) (c : Call Op Result Cv) : Call Op Result Cv :=
  if M.blockedOn cv c then { c with progress := .awake true false } else c

def enterCall (s : State Data Op Result Cv) (i : Nat) (c : Call Op Result Cv) :
    Option (State Data Op Result Cv) :=
  match c.progress with
  | .awake _ expired =>
    match M.critical i c.op expired s.data with
    | .block => some { s with calls := s.calls.set i { c with progress := .blocked } }
    | .finish data signals result =>
      some
        { data := data
          calls := s.calls.set i { c with progress := .leaving signals result } }
  | _ => none

def notifyCall (s : State Data Op Result Cv) (i : Nat) (c : Call Op Result Cv)
    (chosen : Option Nat) :
    Option (State Data Op Result Cv) :=
  match c.progress with
  | .leaving (.one cv :: signals) result =>
    let calls := s.calls.set i { c with progress := .leaving signals result }
    match chosen with
    | none => if s.calls.any (M.blockedOn cv) then none else some { s with calls := calls }
    | some j =>
      match s.calls[j]? with
      | none => none
      | some waiter =>
        if M.blockedOn cv waiter then
          some { s with calls := calls.set j { waiter with progress := .awake true false } }
        else none
  | .leaving (.all cv :: signals) result =>
    some
      { s with
        calls := (s.calls.map (M.notifyAll cv)).set i { c with progress := .leaving signals result } }
  | _ => none

def wakeCall (s : State Data Op Result Cv) (i : Nat) (c : Call Op Result Cv) :
    Option (State Data Op Result Cv) :=
  match c.progress with
  | .blocked => some { s with calls := s.calls.set i { c with progress := .awake false false } }
  | _ => none

def expireCall (s : State Data Op Result Cv) (i : Nat) (c : Call Op Result Cv) :
    Option (State Data Op Result Cv) :=
  if M.timed c.op then
    match c.progress with
    | .blocked => some { s with calls := s.calls.set i { c with progress := .awake false true } }
    | .awake notified _ =>
      some { s with calls := s.calls.set i { c with progress := .awake notified true } }
    | _ => none
  else none

def step (s : State Data Op Result Cv) : Action Op → Option (State Data Op Result Cv)
  | .invoke op =>
    if M.admits s.data op then
      some { s with calls := s.calls ++ [{ op := op, progress := .awake false false }] }
    else none
  | .enter i => s.calls[i]?.bind (M.enterCall s i)
  | .notify i chosen => s.calls[i]?.bind fun c => M.notifyCall s i c chosen
  | .wake i => s.calls[i]?.bind (wakeCall s i)
  | .expire i => s.calls[i]?.bind (M.expireCall s i)

variable {M} {s s' : State Data Op Result Cv}

/-! ## What a step does -/

/-- The effects of the steps. -/
inductive Effect (M : Monitor Data Op Result Cv) (s : State Data Op Result Cv) :
    State Data Op Result Cv → Prop
  | invoke (op : Op) : M.admits s.data op = true →
      Effect M s { s with calls := s.calls ++ [{ op := op, progress := .awake false false }] }
  | block (i : Nat) (op : Op) (notified expired : Bool) :
      s.calls[i]? = some { op := op, progress := .awake notified expired } →
      M.critical i op expired s.data = .block →
      Effect M s { s with calls := s.calls.set i { op := op, progress := .blocked } }
  | finish (i : Nat) (op : Op) (notified expired : Bool) (data : Data) (signals : List (Signal Cv))
      (result : Result) : s.calls[i]? = some { op := op, progress := .awake notified expired } →
      M.critical i op expired s.data = .finish data signals result →
      Effect M s
        { data := data, calls := s.calls.set i { op := op, progress := .leaving signals result } }
  | notifyOne (i j : Nat) (op waiter : Op) (cv : Cv) (signals : List (Signal Cv))
    (result : Result) :
      s.calls[i]? = some { op := op, progress := .leaving (.one cv :: signals) result } →
      s.calls[j]? = some { op := waiter, progress := .blocked } → M.waitsOn waiter = some cv →
        i ≠ j →
      Effect M s
        { s with
          calls := (s.calls.set i { op := op, progress := .leaving signals result }).set j
            { op := waiter, progress := .awake true false } }
  | notifyNone (i : Nat) (op : Op) (cv : Cv) (signals : List (Signal Cv)) (result : Result) :
      s.calls[i]? = some { op := op, progress := .leaving (.one cv :: signals) result } →
      (∀ c ∈ s.calls, M.blockedOn cv c = false) →
      Effect M s
        { s with calls := s.calls.set i { op := op, progress := .leaving signals result } }
  | notifyAll (i : Nat) (op : Op) (cv : Cv) (signals : List (Signal Cv)) (result : Result) :
      s.calls[i]? = some { op := op, progress := .leaving (.all cv :: signals) result } →
      Effect M s
        { s with
          calls := (s.calls.map (M.notifyAll cv)).set i
            { op := op, progress := .leaving signals result } }
  | unblock (i : Nat) (op : Op) (expired : Bool) :
      s.calls[i]? = some { op := op, progress := .blocked } →
      Effect M s { s with calls := s.calls.set i { op := op, progress := .awake false expired } }
  | expire (i : Nat) (op : Op) (notified expired : Bool) :
      s.calls[i]? = some { op := op, progress := .awake notified expired } →
      Effect M s { s with calls := s.calls.set i { op := op, progress := .awake notified true } }

variable {i : Nat} {c : Call Op Result Cv}

theorem enterCall_effect (hc : s.calls[i]? = some c)
    (h : M.enterCall s i c = some s') : Effect M s s' := by
  obtain ⟨op, progress⟩ := c
  cases progress with
  | awake notified expired =>
    simp only [enterCall] at h
    cases hcritical : M.critical i op expired s.data with
    | block =>
      rw [hcritical] at h
      cases h
      exact .block i op notified expired hc hcritical
    | finish data signals result =>
      rw [hcritical] at h
      cases h
      exact .finish i op notified expired data signals result hc hcritical
  | blocked => cases h
  | leaving signals result => cases h

theorem notifyCall_effect {chosen : Option Nat}
    (hc : s.calls[i]? = some c) (h : M.notifyCall s i c chosen = some s') : Effect M s s' := by
  obtain ⟨op, progress⟩ := c
  cases progress with
  | awake notified expired => cases h
  | blocked => cases h
  | leaving signals result =>
    cases signals with
    | nil => cases h
    | cons signal signals =>
      cases signal with
      | one cv =>
        cases chosen with
        | none =>
          simp only [notifyCall] at h
          split_ifs at h with hany
          cases h
          refine .notifyNone i op cv signals result hc fun c hmem => ?_
          rw [List.any_eq_true] at hany
          exact Bool.eq_false_iff.mpr fun hblocked => hany ⟨c, hmem, hblocked⟩
        | some j =>
          simp only [notifyCall] at h
          cases hj : s.calls[j]? with
          | none =>
            rw [hj] at h
            cases h
          | some waiter =>
            rw [hj] at h
            simp only at h
            split_ifs at h with hblocked
            cases h
            obtain ⟨waiterOp, waiterProgress⟩ := waiter
            cases waiterProgress with
            | awake notified expired => cases hblocked
            | leaving signals result => cases hblocked
            | blocked =>
              refine .notifyOne i j op waiterOp cv signals result hc hj (beq_iff_eq.mp hblocked) ?_
              rintro rfl
              rw [hc] at hj
              cases hj
      | all cv =>
        cases h
        exact .notifyAll i op cv signals result hc

theorem wakeCall_effect (hc : s.calls[i]? = some c) (h : wakeCall s i c = some s') :
    Effect M s s' := by
  obtain ⟨op, progress⟩ := c
  cases progress with
  | awake notified expired => cases h
  | blocked =>
    cases h
    exact .unblock i op false hc
  | leaving signals result => cases h

theorem expireCall_effect (hc : s.calls[i]? = some c)
    (h : M.expireCall s i c = some s') : Effect M s s' := by
  obtain ⟨op, progress⟩ := c
  unfold expireCall at h
  split_ifs at h with htimed
  cases progress with
  | awake notified expired =>
    cases h
    exact .expire i op notified expired hc
  | blocked =>
    cases h
    exact .unblock i op true hc
  | leaving signals result => cases h

/-- **What a step does.** -/
theorem step_effect {a : Action Op} (h : M.step s a = some s') : Effect M s s' := by
  cases a with
  | invoke op =>
    simp only [step] at h
    split_ifs at h with hadmits
    cases h
    exact .invoke op hadmits
  | enter i =>
    obtain ⟨c, hc, h⟩ := Option.bind_eq_some_iff.mp h
    exact enterCall_effect hc h
  | notify i chosen =>
    obtain ⟨c, hc, h⟩ := Option.bind_eq_some_iff.mp h
    exact notifyCall_effect hc h
  | wake i =>
    obtain ⟨c, hc, h⟩ := Option.bind_eq_some_iff.mp h
    exact wakeCall_effect hc h
  | expire i =>
    obtain ⟨c, hc, h⟩ := Option.bind_eq_some_iff.mp h
    exact expireCall_effect hc h

/-- A call that left its critical section in this step. -/
theorem enter_finish {op : Op} {signals : List (Signal Cv)} {result : Result}
    (h : M.step s (.enter i) = some s')
    (hc : s'.calls[i]? = some { op := op, progress := .leaving signals result }) :
    ∃ expired, M.critical i op expired s.data = .finish s'.data signals result := by
  obtain ⟨⟨op', progress⟩, hold, h⟩ := Option.bind_eq_some_iff.mp h
  have hlt : i < s.calls.length := (List.getElem?_eq_some_iff.mp hold).1
  cases progress with
  | awake notified expired =>
    simp only [enterCall] at h
    cases hcritical : M.critical i op' expired s.data with
    | block =>
      rw [hcritical] at h
      cases h
      rw [List.getElem?_set_self hlt] at hc
      cases hc
    | finish data signals result =>
      rw [hcritical] at h
      cases h
      rw [List.getElem?_set_self hlt] at hc
      cases hc
      exact ⟨expired, hcritical⟩
  | blocked => cases h
  | leaving signals result => cases h

/-- **An invariant of the data** is one of the critical sections. -/
theorem Effect.data {I : Data → Prop}
    (hcritical : ∀ i op expired data data' signals result, I data →
      M.critical i op expired data = .finish data' signals result → I data')
    (h : Effect M s s') (hs : I s.data) : I s'.data := by
  cases h with
  | finish i op notified expired data signals result hc hfinish =>
    exact hcritical i op expired s.data data signals result hs hfinish
  | _ => exact hs

/-! ## Counting notifications -/

/-- The notifications on a condition variable that a call stands for: one that it was given, and
those that it still has to give. -/
def weight (M : Monitor Data Op Result Cv) (cv : Cv) (c : Call Op Result Cv) : Nat :=
  (if M.notifiedOn cv c then 1 else 0) + (signalsOf c).count (.one cv)

@[simp] theorem weight_blocked (cv : Cv) (op : Op) :
    weight M cv { op := op, progress := .blocked } = 0 := rfl

@[simp] theorem weight_leaving (cv : Cv) (op : Op) (signals : List (Signal Cv)) (result : Result) :
    weight M cv { op := op, progress := .leaving signals result } = signals.count (.one cv) :=
  Nat.zero_add _

@[simp] theorem weight_awake (cv : Cv) (op : Op) (notified expired : Bool) :
    weight M cv { op := op, progress := .awake notified expired } =
      if notified = true ∧ M.waitsOn op = some cv then 1 else 0 := by
  simp [weight, notifiedOn, signalsOf]

/-- Whether a call still has to notify all. -/
def owesAll (cv : Cv) (c : Call Op Result Cv) : Prop := .all cv ∈ signalsOf c

/-- **Nothing that waits is forgotten**: unless nothing waits that was not notified, or a
notification of all is on its way, there are notifications for so many. -/
def Served (M : Monitor Data Op Result Cv) (cv : Cv) (n : Nat) (calls : List (Call Op Result Cv)) :
    Prop :=
  (∀ c ∈ calls, M.blockedOn cv c = false) ∨ (∃ c ∈ calls, owesAll cv c) ∨
    n ≤ tally (weight M cv) calls

/-- The resources that calls wait for come one with each notification, and a call that waits finds
none or takes one. -/
structure Paces (M : Monitor Data Op Result Cv) (resource : Cv → Data → Nat) : Prop where
  block : ∀ i op expired data cv, M.critical i op expired data = .block → M.waitsOn op = some cv →
    resource cv data = 0
  finish : ∀ i op expired data data' signals result,
    M.critical i op expired data = .finish data' signals result → ∀ cv,
      .all cv ∈ signals ∨ resource cv data' = 0 ∨
        resource cv data' + (if M.waitsOn op = some cv then 1 else 0) ≤
          resource cv data + signals.count (.one cv)

variable {cv : Cv} {calls : List (Call Op Result Cv)}

/-- A call that changes to one that does not wait. -/
theorem none_blocked_set (h : ∀ c ∈ calls, M.blockedOn cv c = false)
    (hc : M.blockedOn cv c = false) : ∀ c' ∈ calls.set i c, M.blockedOn cv c' = false := by
  intro c' hmem
  rcases List.mem_or_eq_of_mem_set hmem with hmem | rfl
  · exact h c' hmem
  · exact hc

variable {old : Call Op Result Cv}

omit [DecidableEq Cv] in
/-- A call that changes and owed nothing to all, or owes it still. -/
theorem owes_set (hold : calls[i]? = some old) (h : ∃ c ∈ calls, owesAll cv c)
    (hc : owesAll cv old → owesAll cv c) : ∃ c' ∈ calls.set i c, owesAll cv c' := by
  obtain ⟨c', hmem, howes⟩ := h
  obtain ⟨j, hj⟩ := List.mem_iff_getElem?.mp hmem
  have hlt : i < calls.length := (List.getElem?_eq_some_iff.mp hold).1
  by_cases heq : i = j
  · subst heq
    rw [hold] at hj
    cases hj
    exact ⟨c, List.mem_iff_getElem?.mpr ⟨i, List.getElem?_set_self hlt⟩, hc howes⟩
  · refine ⟨c', List.mem_iff_getElem?.mpr ⟨j, ?_⟩, howes⟩
    rw [List.getElem?_set_ne heq]
    exact hj

/-- One call changes and gives no notification away. -/
theorem Served.set {n n' : Nat} (hold : calls[i]? = some old) (h : M.Served cv n calls)
    (hblocked : M.blockedOn cv c = false) (howes : owesAll cv old → owesAll cv c)
    (hn : n' = 0 ∨ n' + M.weight cv old ≤ n + M.weight cv c) : M.Served cv n' (calls.set i c) := by
  rcases h with h | h | h
  · exact .inl (none_blocked_set h hblocked)
  · exact .inr (.inl (owes_set hold h howes))
  · have htally := tally_set (weight M cv) hold c
    refine .inr (.inr ?_)
    omega

theorem blockedOn_notifyAll (cv : Cv) (c : Call Op Result Cv) :
    M.blockedOn cv (M.notifyAll cv c) = false := by
  unfold notifyAll
  split_ifs with h
  · rfl
  · exact Bool.eq_false_iff.mpr h

variable {cv' : Cv}

/-- A call that waits on one condition variable does not on another. -/
theorem not_blockedOn_of_ne (hne : cv ≠ cv')
    (h : M.blockedOn cv c = true) : M.waitsOn c.op ≠ some cv' := by
  obtain ⟨op, progress⟩ := c
  cases progress with
  | blocked =>
    rw [show M.waitsOn op = some cv from beq_iff_eq.mp h]
    exact fun heq => hne (Option.some.inj heq)
  | awake notified expired => cases h
  | leaving signals result => cases h

theorem blockedOn_notifyAll_of_not
    (h : M.blockedOn cv' c = false) : M.blockedOn cv' (M.notifyAll cv c) = false := by
  unfold notifyAll
  split_ifs with hcv
  · rfl
  · exact h

theorem weight_notifyAll (hne : cv ≠ cv') (c : Call Op Result Cv) :
    M.weight cv' (M.notifyAll cv c) = M.weight cv' c := by
  unfold notifyAll
  split_ifs with h
  · have hwaits := not_blockedOn_of_ne hne h
    obtain ⟨op, progress⟩ := c
    cases progress with
    | blocked => simp [hwaits]
    | awake notified expired => cases h
    | leaving signals result => cases h
  · rfl

theorem owesAll_notifyAll (h : owesAll cv' c) : owesAll cv' (M.notifyAll cv c) := by
  unfold notifyAll
  split_ifs with hblocked
  · obtain ⟨op, progress⟩ := c
    cases progress with
    | blocked => cases h
    | awake notified expired => cases hblocked
    | leaving signals result => cases hblocked
  · exact h

theorem Served.notifyAll (hne : cv ≠ cv') {n : Nat}
    (h : M.Served cv' n calls) : M.Served cv' n (calls.map (M.notifyAll cv)) := by
  rcases h with h | ⟨c, hmem, howes⟩ | h
  · refine .inl fun c hmem => ?_
    obtain ⟨c', hmem', rfl⟩ := List.mem_map.mp hmem
    exact blockedOn_notifyAll_of_not (h c' hmem')
  · exact .inr (.inl ⟨_, List.mem_map_of_mem hmem, owesAll_notifyAll howes⟩)
  · refine .inr (.inr ?_)
    rwa [tally_map_of_eq _ (weight_notifyAll hne)]

theorem getElem?_notifyAll (cv : Cv) {op : Op} {signals : List (Signal Cv)} {result : Result}
    (h : calls[i]? = some { op := op, progress := .leaving signals result }) :
    (calls.map (M.notifyAll cv))[i]? = some { op := op, progress := .leaving signals result } := by
  rw [List.getElem?_map, h]
  rfl

/-- **No step loses a notification.** -/
theorem Effect.served {resource : Cv → Data → Nat} (hp : M.Paces resource) (h : Effect M s s')
    (cv : Cv)
    (hs : M.Served cv (resource cv s.data) s.calls) : M.Served cv
      (resource cv s'.data) s'.calls := by
  cases h with
  | invoke op hadmits =>
    rcases hs with hs | hs | hs
    · refine .inl fun c hmem => ?_
      rcases List.mem_append.mp hmem with hmem | hmem
      · exact hs c hmem
      · rw [List.mem_singleton.mp hmem]
        rfl
    · obtain ⟨c, hmem, howes⟩ := hs
      exact .inr (.inl ⟨c, List.mem_append_left _ hmem, howes⟩)
    · refine .inr (.inr ?_)
      rw [tally_append]
      exact Nat.le_trans hs (Nat.le_add_right _ _)
  | block i op notified expired hc hblock =>
    by_cases hcv : M.waitsOn op = some cv
    · refine .inr (.inr ?_)
      rw [hp.block i op expired s.data cv hblock hcv]
      exact Nat.zero_le _
    · refine hs.set hc ?_ (fun howes => by cases howes) (.inr ?_)
      · exact beq_eq_false_iff_ne.mpr hcv
      · simp [hcv]
  | finish i op notified expired data signals result hc hfinish =>
    rcases hp.finish i op expired s.data data signals result hfinish cv with hall | hzero | hle
    · have hlt : i < s.calls.length := (List.getElem?_eq_some_iff.mp hc).1
      exact .inr (.inl ⟨_, List.mem_iff_getElem?.mpr ⟨i, List.getElem?_set_self hlt⟩, hall⟩)
    · exact hs.set hc rfl (fun howes => by cases howes) (.inl hzero)
    · refine hs.set hc rfl (fun howes => by cases howes) (.inr ?_)
      rw [weight_awake, weight_leaving]
      refine Nat.le_trans (Nat.add_le_add_left ?_ _) hle
      split_ifs with hnotified hwaits hwaits
      · exact Nat.le_refl 1
      · exact absurd hnotified.2 hwaits
      · exact Nat.zero_le 1
      · exact Nat.le_refl 0
  | notifyOne i j op waiter cv' signals result hc hj hwaits hne =>
    have hj' : (s.calls.set i { op := op, progress := .leaving signals result })[j]? =
        some { op := waiter, progress := .blocked } := by
      rw [List.getElem?_set_ne hne]
      exact hj
    rcases hs with hs | hs | hs
    · exact .inl (none_blocked_set (none_blocked_set hs rfl) rfl)
    · refine .inr (.inl (owes_set hj' (owes_set hc hs fun howes => ?_) fun howes => by cases howes))
      exact (List.mem_cons.mp howes).resolve_left (by intro heq; cases heq)
    · have hi := tally_set (weight M cv) hc { op := op, progress := .leaving signals result }
      have hj := tally_set (weight M cv) hj' { op := waiter, progress := .awake true false }
      refine .inr (.inr ?_)
      rw [weight_leaving, weight_leaving, List.count_cons] at hi
      rw [weight_blocked, weight_awake, hwaits] at hj
      show resource cv s.data ≤ tally (weight M cv) ((s.calls.set i _).set j _)
      by_cases heq : cv' = cv
      · subst heq
        simp only [BEq.rfl, if_true, and_self] at hi hj
        omega
      · simp only [beq_eq_false_iff_ne.mpr (show Signal.one cv' ≠ .one cv from
          fun h => heq (Signal.one.inj h)), Option.some.injEq, heq, and_false, if_false] at hi hj
        simp only [Bool.false_eq_true, if_false] at hi
        omega
  | notifyNone i op cv' signals result hc hnone =>
    by_cases heq : cv' = cv
    · subst heq
      exact .inl (none_blocked_set hnone rfl)
    · refine hs.set hc rfl (fun howes => ?_) (.inr ?_)
      · exact (List.mem_cons.mp howes).resolve_left (by intro heq; cases heq)
      · refine Nat.le_of_eq ?_
        rw [weight_leaving, weight_leaving, List.count_cons_of_ne fun h => heq (Signal.one.inj h)]
  | notifyAll i op cv' signals result hc =>
    have hc' := getElem?_notifyAll (M := M) cv' hc
    by_cases heq : cv' = cv
    · subst heq
      refine .inl (none_blocked_set (fun c hmem => ?_) rfl)
      obtain ⟨c', hmem', rfl⟩ := List.mem_map.mp hmem
      exact blockedOn_notifyAll cv' c'
    · refine (hs.notifyAll heq).set hc' rfl (fun howes => ?_) (.inr ?_)
      · exact (List.mem_cons.mp howes).resolve_left fun h => heq (Signal.all.inj h).symm
      · refine Nat.le_of_eq ?_
        rw [weight_leaving, weight_leaving, List.count_cons_of_ne (by intro h; cases h)]
  | unblock i op expired hc =>
    exact hs.set hc rfl (fun howes => by cases howes) (.inr (by simp))
  | expire i op notified expired hc =>
    exact hs.set hc rfl (fun howes => by cases howes) (.inr (by simp))

/-! ## Waits that end for good -/

/-- When the condition holds nothing blocks any more, and it comes with a notification of all. -/
structure Ends (M : Monitor Data Op Result Cv) (Over : Cv → Data → Prop) : Prop where
  block : ∀ i op expired data cv, M.critical i op expired data = .block → M.waitsOn op = some cv →
    ¬ Over cv data
  finish : ∀ i op expired data data' signals result,
    M.critical i op expired data = .finish data' signals result → ∀ cv, Over cv data' →
      Over cv data ∨ .all cv ∈ signals

/-- Nothing waits, or a notification of all is on its way. -/
def Ended (M : Monitor Data Op Result Cv) (cv : Cv) (calls : List (Call Op Result Cv)) : Prop :=
  (∀ c ∈ calls, M.blockedOn cv c = false) ∨ ∃ c ∈ calls, owesAll cv c

/-- A call changes and does not wait. -/
theorem Ended.set
    (hold : calls[i]? = some old) (h : M.Ended cv calls) (hblocked : M.blockedOn cv c = false)
    (howes : owesAll cv old → owesAll cv c) : M.Ended cv (calls.set i c) := by
  rcases h with h | h
  · exact .inl (none_blocked_set h hblocked)
  · exact .inr (owes_set hold h howes)

/-- **Every wait ends.** -/
theorem Effect.ended {Over : Cv → Data → Prop} (he : M.Ends Over) (h : Effect M s s') (cv : Cv)
    (hs : Over cv s.data → M.Ended cv s.calls) (hover : Over cv s'.data) : M.Ended cv s'.calls := by
  cases h with
  | invoke op hadmits =>
    rcases hs hover with hs | ⟨c, hmem, howes⟩
    · refine .inl fun c hmem => ?_
      rcases List.mem_append.mp hmem with hmem | hmem
      · exact hs c hmem
      · rw [List.mem_singleton.mp hmem]
        rfl
    · exact .inr ⟨c, List.mem_append_left _ hmem, howes⟩
  | block i op notified expired hc hblock =>
    refine (hs hover).set hc ?_ fun howes => by cases howes
    exact beq_eq_false_iff_ne.mpr fun hcv => he.block i op expired s.data cv hblock hcv hover
  | finish i op notified expired data signals result hc hfinish =>
    rcases he.finish i op expired s.data data signals result hfinish cv hover with hover | hall
    · exact (hs hover).set hc rfl fun howes => by cases howes
    · have hlt : i < s.calls.length := (List.getElem?_eq_some_iff.mp hc).1
      exact .inr ⟨_, List.mem_iff_getElem?.mpr ⟨i, List.getElem?_set_self hlt⟩, hall⟩
  | notifyOne i j op waiter cv' signals result hc hj hwaits hne =>
    have hj' : (s.calls.set i { op := op, progress := .leaving signals result })[j]? =
        some { op := waiter, progress := .blocked } := by
      rw [List.getElem?_set_ne hne]
      exact hj
    refine ((hs hover).set hc rfl fun howes => ?_).set hj' rfl fun howes => by cases howes
    exact (List.mem_cons.mp howes).resolve_left (by intro heq; cases heq)
  | notifyNone i op cv' signals result hc hnone =>
    refine (hs hover).set hc rfl fun howes => ?_
    exact (List.mem_cons.mp howes).resolve_left (by intro heq; cases heq)
  | notifyAll i op cv' signals result hc =>
    have hc' := getElem?_notifyAll (M := M) cv' hc
    by_cases heq : cv' = cv
    · subst heq
      refine .inl (none_blocked_set (fun c hmem => ?_) rfl)
      obtain ⟨c', hmem', rfl⟩ := List.mem_map.mp hmem
      exact blockedOn_notifyAll cv' c'
    · rcases hs hover with hs | ⟨c, hmem, howes⟩
      · refine .inl (none_blocked_set (fun c hmem => ?_) rfl)
        obtain ⟨c', hmem', rfl⟩ := List.mem_map.mp hmem
        exact blockedOn_notifyAll_of_not (hs c' hmem')
      · refine .inr (owes_set hc' ⟨_, List.mem_map_of_mem hmem, owesAll_notifyAll howes⟩ ?_)
        exact fun howes => (List.mem_cons.mp howes).resolve_left fun h =>
          heq (Signal.all.inj h).symm
  | unblock i op expired hc => exact (hs hover).set hc rfl fun howes => by cases howes
  | expire i op notified expired hc => exact (hs hover).set hc rfl fun howes => by cases howes

/-! ## Logs -/

/-- The entries that a call made in a log. -/
def entriesOf {V : Type} (i : Nat) (log : List (Nat × V)) : List V :=
  (log.filter fun entry => entry.1 == i).map Prod.snd

/-- What a call gave to a log: nothing before it finished. -/
def contribution {V : Type} (f : Op → Result → List V) : Option (Call Op Result Cv) → List V
  | some { op := op, progress := .leaving _ result } => f op result
  | _ => []

/-- The critical sections write to a log what `f` says of the operation and the result. -/
def Logs {V : Type} (M : Monitor Data Op Result Cv) (log : Data → List (Nat × V))
    (f : Op → Result → List V) : Prop :=
  ∀ i op expired data data' signals result,
    M.critical i op expired data = .finish data' signals result →
      log data' = log data ++ (f op result).map (Prod.mk i)

/-- The entries of every call are those of its result. -/
def Logged {V : Type} (f : Op → Result → List V) (log : List (Nat × V))
    (calls : List (Call Op Result Cv)) : Prop :=
  ∀ i, entriesOf i log = contribution f calls[i]?

variable {V : Type}

theorem entriesOf_append (i : Nat) (log log' : List (Nat × V)) :
    entriesOf i (log ++ log') = entriesOf i log ++ entriesOf i log' := by
  rw [entriesOf, List.filter_append, List.map_append, entriesOf, entriesOf]

theorem entriesOf_self (i : Nat) (vs : List V) : entriesOf i (vs.map (Prod.mk i)) = vs := by
  induction vs with
  | nil => rfl
  | cons v vs ih =>
    unfold entriesOf at ih ⊢
    rw [List.map_cons, List.filter_cons_of_pos (by simp), List.map_cons, ih]

theorem entriesOf_other {j : Nat} (hne : i ≠ j) (vs : List V) :
    entriesOf j (vs.map (Prod.mk i)) = [] := by
  unfold entriesOf
  rw [List.filter_eq_nil_iff.mpr, List.map_nil]
  intro entry hmem
  obtain ⟨v, -, rfl⟩ := List.mem_map.mp hmem
  simpa using hne

omit [DecidableEq Cv] in
/-- A call changes and contributes the same. -/
theorem Logged.set {f : Op → Result → List V} {log : List (Nat × V)}
    (hold : calls[i]? = some old) (h : Logged f log calls)
    (hsame : contribution f (some c) = contribution f (some old)) : Logged f log
      (calls.set i c) := by
  intro j
  rw [h j]
  by_cases heq : i = j
  · subst heq
    rw [hold, List.getElem?_set_self (List.getElem?_eq_some_iff.mp hold).1, hsame]
  · rw [List.getElem?_set_ne heq]

/-- **Logs record what the calls return.** -/
theorem Effect.logged {log : Data → List (Nat × V)} {f : Op → Result → List V}
    (hl : M.Logs log f) (h : Effect M s s') (hs : Logged f (log s.data) s.calls) :
    Logged f (log s'.data) s'.calls := by
  cases h with
  | invoke op hadmits =>
    intro i
    rw [hs i]
    rcases Nat.lt_trichotomy i s.calls.length with hlt | heq | hgt
    · rw [List.getElem?_append_left hlt]
    · subst heq
      rw [List.getElem?_concat_length, List.getElem?_eq_none (Nat.le_refl _)]
      rfl
    · rw [List.getElem?_eq_none (Nat.le_of_lt hgt), List.getElem?_eq_none (by
        rw [List.length_append, List.length_singleton]
        exact hgt)]
  | block i op notified expired hc hblock => exact hs.set hc rfl
  | finish i op notified expired data signals result hc hfinish =>
    intro j
    rw [hl i op expired s.data data signals result hfinish, entriesOf_append, hs j]
    by_cases heq : i = j
    · subst heq
      rw [hc, entriesOf_self, List.getElem?_set_self (List.getElem?_eq_some_iff.mp hc).1]
      rfl
    · rw [entriesOf_other heq, List.append_nil, List.getElem?_set_ne heq]
  | notifyOne i j op waiter cv signals result hc hj hwaits hne =>
    have hj' : (s.calls.set i { op := op, progress := .leaving signals result })[j]? =
        some { op := waiter, progress := .blocked } := by
      rw [List.getElem?_set_ne hne]
      exact hj
    have hleft : Logged f (log s.data)
        (s.calls.set i { op := op, progress := .leaving signals result }) := hs.set hc rfl
    exact hleft.set hj' rfl
  | notifyNone i op cv signals result hc hnone => exact hs.set hc rfl
  | notifyAll i op cv signals result hc =>
    have hmap : Logged f (log s.data) (s.calls.map (M.notifyAll cv)) := by
      intro j
      rw [hs j, List.getElem?_map]
      cases hj : s.calls[j]? with
      | none => rfl
      | some c =>
        obtain ⟨op, progress⟩ := c
        cases progress with
        | blocked =>
          show _ = contribution f (some (M.notifyAll cv _))
          unfold Monitor.notifyAll
          split_ifs <;> rfl
        | awake notified expired => rfl
        | leaving signals result => rfl
    exact hmap.set (getElem?_notifyAll _ hc) rfl
  | unblock i op expired hc => exact hs.set hc rfl
  | expire i op notified expired hc => exact hs.set hc rfl

/-! ## Quiet states -/

/-- No call is between its critical section and a notification. -/
def Quiet (calls : List (Call Op Result Cv)) : Prop := ∀ c ∈ calls, signalsOf c = []

theorem Served.le_of_quiet {n : Nat}
    (h : M.Served cv n calls) (hquiet : Quiet calls) (hmem : c ∈ calls)
    (hblocked : M.blockedOn cv c = true) : n ≤ calls.countP (M.notifiedOn cv) := by
  rcases h with h | ⟨c', hmem', howes⟩ | h
  · rw [h c hmem] at hblocked
    cases hblocked
  · rw [owesAll, hquiet c' hmem'] at howes
    cases howes
  · have hcount : ∀ calls : List (Call Op Result Cv), Quiet calls →
        tally (weight M cv) calls = calls.countP (M.notifiedOn cv) := by
      intro calls hquiet
      induction calls with
      | nil => rfl
      | cons c calls ih =>
        have htail := ih fun c hmem => hquiet c (.tail _ hmem)
        rw [List.countP_cons, ← htail]
        simp only [tally, List.map_cons, List.sum_cons, weight, hquiet c (.head _),
          List.count_nil, Nat.add_zero]
        exact Nat.add_comm _ _
    rwa [← hcount calls hquiet]

theorem Ended.of_quiet (h : M.Ended cv calls)
    (hquiet : Quiet calls) : ∀ c ∈ calls, M.blockedOn cv c = false := by
  rcases h with h | ⟨c, hmem, howes⟩
  · exact h
  · rw [owesAll, hquiet c hmem] at howes
    cases howes

end Monitor

end Libca.Common
