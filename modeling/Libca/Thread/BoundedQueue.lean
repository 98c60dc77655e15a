import Libca.Common.Monitor

/-!
# `BoundedQueue` (`thread/bounded_queue.hpp` 33-268)

A queue of fixed capacity that many threads push to and pop from. The calls are those of a monitor
with the condition variables `not_empty` and `not_full`; the state has two logs that are not in the
source, of what was accepted and of what was delivered, each entry with the number of its call.

* `Section`, `critical_section`: what a critical section does when it finishes.
* `paces`, `ends`: how the critical sections notify.
* `bounded_queue_linearizable`: in every run the queue is a bounded FIFO, nothing enters after
  `close`, and no call waits for an item or a place that is there.
-/

namespace Libca.Thread

open Common

/-- The status codes the calls return. -/
inductive StatusCode
  | invalidArgument
  | failedPrecondition
  | cancelled
deriving DecidableEq, Repr

/-- An `ErrStatus`. -/
structure ErrStatus where
  code : StatusCode
  message : String
deriving DecidableEq, Repr

namespace BoundedQueue

inductive Cv
  | notEmpty
  | notFull
deriving DecidableEq, Repr

/-- `State`, with the logs of what was accepted and of what was delivered. -/
structure State (T : Type) where
  capacity : Nat
  items : List T := []
  closed : Bool := false
  pushed : List (Nat × T) := []
  taken : List (Nat × T) := []

inductive Op (T : Type)
  | push (value : T)
  | tryPush (value : T)
  | pushFor (value : T)
  | pop
  | tryPop
  | popFor
  | close
  | closeAndTake

/-- What the calls return: `push`; `try_push` and `push_for`; `pop`; `try_pop` and `pop_for`;
`close`; `close_and_take`. -/
inductive Result (T : Type)
  | status (r : Except ErrStatus Unit)
  | flag (r : Except ErrStatus Bool)
  | value (r : Except ErrStatus T)
  | optional (r : Except ErrStatus (Option T))
  | first (b : Bool)
  | pending (items : List T)

def closedForPush : ErrStatus where
  code := .failedPrecondition
  message := "queue is closed for producers"

def closedForPop : ErrStatus where
  code := .cancelled
  message := "queue is closed and empty"

variable {T : Type}

def create (capacity : Nat) : Except ErrStatus (State T) :=
  if capacity = 0 then
    .error { code := .invalidArgument, message := "queue capacity must be nonzero" }
  else .ok { capacity := capacity }

def size (s : State T) : Nat := s.items.length

/-! ## The critical sections -/

/-- `items.push_back`. -/
def State.append (i : Nat) (value : T) (s : State T) : State T :=
  { s with items := s.items ++ [value], pushed := s.pushed ++ [(i, value)] }

/-- `items.pop_front`, where `items` is what is left. -/
def State.removeFront (i : Nat) (value : T) (items : List T) (s : State T) : State T :=
  { s with items := items, taken := s.taken ++ [(i, value)] }

def push (i : Nat) (value : T) (s : State T) : Outcome (State T) Cv (Result T) :=
  if s.closed || s.items.length < s.capacity then
    if s.closed then .finish s [] (.status (.error closedForPush))
    else .finish (s.append i value) [.one .notEmpty] (.status (.ok ()))
  else .block

def tryPush (i : Nat) (value : T) (s : State T) : Outcome (State T) Cv (Result T) :=
  if s.closed then .finish s [] (.flag (.error closedForPush))
  else if s.capacity ≤ s.items.length then .finish s [] (.flag (.ok false))
  else .finish (s.append i value) [.one .notEmpty] (.flag (.ok true))

def pushFor (i : Nat) (value : T) (expired : Bool) (s : State T) :
    Outcome (State T) Cv (Result T) :=
  if s.closed || s.items.length < s.capacity then
    if s.closed then .finish s [] (.flag (.error closedForPush))
    else .finish (s.append i value) [.one .notEmpty] (.flag (.ok true))
  else if expired then .finish s [] (.flag (.ok false))
  else .block

def pop (i : Nat) (s : State T) : Outcome (State T) Cv (Result T) :=
  if s.closed || !s.items.isEmpty then
    match s.items with
    | [] => .finish s [] (.value (.error closedForPop))
    | value :: items =>
      .finish (s.removeFront i value items) [.one .notFull] (.value (.ok value))
  else .block

def tryPop (i : Nat) (s : State T) : Outcome (State T) Cv (Result T) :=
  match s.items with
  | [] =>
    if s.closed then .finish s [] (.optional (.error closedForPop))
    else .finish s [] (.optional (.ok none))
  | value :: items =>
    .finish (s.removeFront i value items) [.one .notFull] (.optional (.ok (some value)))

def popFor (i : Nat) (expired : Bool) (s : State T) : Outcome (State T) Cv (Result T) :=
  if s.closed || !s.items.isEmpty then
    match s.items with
    | [] => .finish s [] (.optional (.error closedForPop))
    | value :: items =>
      .finish (s.removeFront i value items) [.one .notFull] (.optional (.ok (some value)))
  else if expired then .finish s [] (.optional (.ok none))
  else .block

def close (s : State T) : Outcome (State T) Cv (Result T) :=
  if s.closed then .finish s [] (.first false)
  else .finish { s with closed := true } [.all .notEmpty, .all .notFull] (.first true)

def closeAndTake (i : Nat) (s : State T) : Outcome (State T) Cv (Result T) :=
  .finish { s with closed := true, items := [], taken := s.taken ++ s.items.map (Prod.mk i) }
    [.all .notEmpty, .all .notFull] (.pending s.items)

def waitsOn : Op T → Option Cv
  | .push _ | .pushFor _ => some .notFull
  | .pop | .popFor => some .notEmpty
  | _ => none

def timed : Op T → Bool
  | .pushFor _ | .popFor => true
  | _ => false

def critical (i : Nat) : Op T → Bool → State T → Outcome (State T) Cv (Result T)
  | .push value, _ => push i value
  | .tryPush value, _ => tryPush i value
  | .pushFor value, expired => pushFor i value expired
  | .pop, _ => pop i
  | .tryPop, _ => tryPop i
  | .popFor, expired => popFor i expired
  | .close, _ => close
  | .closeAndTake, _ => closeAndTake i

/-- The calls on a queue that was not moved from. -/
def monitor (T : Type) : Monitor (State T) (Op T) (Result T) Cv where
  admits := fun _ _ => true
  waitsOn := waitsOn
  timed := timed
  critical := critical

/-! ## What a critical section does -/

/-- What a call put into the queue. -/
def accepted : Op T → Result T → List T
  | .push value, .status (.ok _) => [value]
  | .tryPush value, .flag (.ok true) => [value]
  | .pushFor value, .flag (.ok true) => [value]
  | _, _ => []

/-- What a call took out of the queue. -/
def delivered : Result T → List T
  | .value (.ok value) => [value]
  | .optional (.ok (some value)) => [value]
  | .pending items => items
  | _ => []

/-- What a call is to put into the queue. -/
def producer : Op T → Option T
  | .push value | .tryPush value | .pushFor value => some value
  | _ => none

/-- The call says that the queue is closed and empty. -/
def ReportsClosed (r : Result T) : Prop :=
  r = .value (.error closedForPop) ∨ r = .optional (.error closedForPop)

/-- What there is to wait for: items on `not_empty`, places on `not_full`, while the queue is open.
-/
def resource (cv : Cv) (s : State T) : Nat :=
  if s.closed then 0
  else
    match cv with
    | .notEmpty => s.items.length
    | .notFull => s.capacity - s.items.length

variable {s : State T}

theorem resource_notEmpty (h : ¬ (s.closed || !s.items.isEmpty) = true) :
    resource .notEmpty s = 0 := by
  have hitems : s.items = [] := by simp_all
  unfold resource
  rw [hitems]
  split_ifs <;> rfl

theorem resource_notFull
    (h : ¬ (s.closed || decide (s.items.length < s.capacity)) = true) : resource .notFull s =
      0 := by
  have hfull : s.capacity ≤ s.items.length := by simp_all
  unfold resource
  split_ifs
  · rfl
  · exact Nat.sub_eq_zero_of_le hfull

/-- The effects of the critical sections. -/
inductive Section (i : Nat) (op : Op T) (s : State T) :
    State T → List (Signal Cv) → Result T → Prop
  | accept (value : T) (r : Result T) : s.closed = false → s.items.length < s.capacity →
      accepted op r = [value] → delivered r = [] → waitsOn op ≠ some .notEmpty → ¬ ReportsClosed r →
      producer op = some value → Section i op s (s.append i value) [.one .notEmpty] r
  | deliver (value : T) (items : List T) (r : Result T) : s.items = value :: items →
      accepted op r = [] → delivered r = [value] → waitsOn op ≠ some .notFull → ¬ ReportsClosed r →
      producer op = none → Section i op s (s.removeFront i value items) [.one .notFull] r
  | refuse (r : Result T) : accepted op r = [] → delivered r = [] →
      (∀ cv, waitsOn op = some cv → resource cv s = 0) →
      (ReportsClosed r → s.closed = true ∧ s.items = []) → Section i op s s [] r
  | close (r : Result T) : accepted op r = [] → delivered r = [] → waitsOn op = none →
      ¬ ReportsClosed r → producer op = none →
      Section i op s { s with closed := true } [.all .notEmpty, .all .notFull] r
  | closeAndTake (r : Result T) : accepted op r = [] → delivered r = s.items → waitsOn op = none →
      ¬ ReportsClosed r → producer op = none →
      Section i op s
        { s with closed := true, items := [], taken := s.taken ++ s.items.map (Prod.mk i) }
        [.all .notEmpty, .all .notFull] r

variable {i : Nat} {value : T} {s' : State T} {signals : List (Signal Cv)} {r : Result T}

theorem push_section
    (h : push i value s = .finish s' signals r) : Section i (.push value) s s' signals r := by
  unfold push at h
  split_ifs at h with hready hclosed
  · cases h
    exact .refuse _ rfl rfl (fun cv _ => if_pos hclosed) (by rintro (h | h) <;> cases h)
  · cases h
    simp only [hclosed, Bool.false_or, decide_eq_true_eq] at hready
    exact .accept value _ (Bool.eq_false_iff.mpr hclosed) hready rfl rfl (by rintro ⟨⟩)
      (by rintro (h | h) <;> cases h) rfl

theorem tryPush_section (h : tryPush i value s = .finish s' signals r) :
    Section i (.tryPush value) s s' signals r := by
  unfold tryPush at h
  split_ifs at h with hclosed hfull
  · cases h
    exact .refuse _ rfl rfl (fun cv hcv => by cases hcv) (by rintro (h | h) <;> cases h)
  · cases h
    exact .refuse _ rfl rfl (fun cv hcv => by cases hcv) (by rintro (h | h) <;> cases h)
  · cases h
    exact .accept value _ (Bool.eq_false_iff.mpr hclosed) (Nat.lt_of_not_le hfull) rfl rfl
      (by rintro ⟨⟩) (by rintro (h | h) <;> cases h) rfl

variable {expired : Bool}

theorem pushFor_section (h : pushFor i value expired s = .finish s' signals r) :
    Section i (.pushFor value) s s' signals r := by
  unfold pushFor at h
  split_ifs at h with hready hclosed
  · cases h
    exact .refuse _ rfl rfl (fun cv _ => if_pos hclosed) (by rintro (h | h) <;> cases h)
  · cases h
    simp only [hclosed, Bool.false_or, decide_eq_true_eq] at hready
    exact .accept value _ (Bool.eq_false_iff.mpr hclosed) hready rfl rfl (by rintro ⟨⟩)
      (by rintro (h | h) <;> cases h) rfl
  · cases h
    refine .refuse _ rfl rfl (fun cv hcv => ?_) (by rintro (h | h) <;> cases h)
    cases hcv
    exact resource_notFull hready

theorem pop_of_nil (hitems : s.items = []) :
    pop i s = if s.closed then .finish s [] (.value (.error closedForPop)) else .block := by
  unfold pop
  rw [hitems]
  by_cases hclosed : s.closed = true
  · rw [hclosed]
    rfl
  · rw [Bool.eq_false_iff.mpr hclosed]
    rfl

theorem pop_of_cons {items : List T} (hitems : s.items = value :: items) :
    pop i s = .finish (s.removeFront i value items) [.one .notFull] (.value (.ok value)) := by
  unfold pop
  rw [hitems]
  exact if_pos (Bool.or_true _)

theorem pop_section (h : pop i s = .finish s' signals r) : Section i .pop s s' signals r := by
  cases hitems : s.items with
  | nil =>
    rw [pop_of_nil hitems] at h
    split_ifs at h with hclosed
    cases h
    exact .refuse _ rfl rfl (fun cv _ => if_pos hclosed) fun _ => ⟨hclosed, hitems⟩
  | cons value items =>
    rw [pop_of_cons hitems] at h
    cases h
    exact .deliver value items _ hitems rfl rfl (by rintro ⟨⟩) (by rintro (h | h) <;> cases h) rfl

theorem tryPop_section (h : tryPop i s = .finish s' signals r) :
    Section i .tryPop s s' signals r := by
  unfold tryPop at h
  cases hitems : s.items with
  | nil =>
    rw [hitems] at h
    simp only at h
    split_ifs at h with hclosed
    · cases h
      exact .refuse _ rfl rfl (fun cv hcv => by cases hcv) fun _ => ⟨hclosed, hitems⟩
    · cases h
      exact .refuse _ rfl rfl (fun cv hcv => by cases hcv) (by rintro (h | h) <;> cases h)
  | cons value items =>
    rw [hitems] at h
    cases h
    exact .deliver value items _ hitems rfl rfl (by rintro ⟨⟩) (by rintro (h | h) <;> cases h) rfl

theorem popFor_section (h : popFor i expired s = .finish s' signals r) :
    Section i .popFor s s' signals r := by
  unfold popFor at h
  split_ifs at h with hready hexpired
  · cases hitems : s.items with
    | nil =>
      rw [hitems] at h hready
      cases h
      have hclosed : s.closed = true := by simpa using hready
      exact .refuse _ rfl rfl (fun cv _ => if_pos hclosed) fun _ => ⟨hclosed, hitems⟩
    | cons value items =>
      rw [hitems] at h
      cases h
      exact .deliver value items _ hitems rfl rfl (by rintro ⟨⟩) (by rintro (h | h) <;> cases h) rfl
  · cases h
    refine .refuse _ rfl rfl (fun cv hcv => ?_) (by rintro (h | h) <;> cases h)
    cases hcv
    exact resource_notEmpty hready

theorem close_section (h : close s = .finish s' signals r) : Section i .close s s' signals r := by
  unfold close at h
  split_ifs at h with hclosed
  · cases h
    exact .refuse _ rfl rfl (fun cv hcv => by cases hcv) (by rintro (h | h) <;> cases h)
  · cases h
    exact .close _ rfl rfl rfl (by rintro (h | h) <;> cases h) rfl

variable {op : Op T}

/-- **What a critical section does when it finishes.** -/
theorem critical_section (h : critical i op expired s = .finish s' signals r) :
    Section i op s s' signals r := by
  cases op with
  | push value => exact push_section h
  | tryPush value => exact tryPush_section h
  | pushFor value => exact pushFor_section h
  | pop => exact pop_section h
  | tryPop => exact tryPop_section h
  | popFor => exact popFor_section h
  | close => exact close_section h
  | closeAndTake =>
    cases h
    exact .closeAndTake _ rfl rfl rfl (by rintro (h | h) <;> cases h) rfl

/-- **What a critical section that blocks has found**: an open queue without what it waits for. -/
theorem critical_block {cv : Cv}
    (h : critical i op expired s = .block) (hcv : waitsOn op = some cv) :
    s.closed = false ∧ resource cv s = 0 := by
  cases op with
  | push value =>
    cases hcv
    simp only [critical, push] at h
    split_ifs at h with hready hclosed
    exact ⟨by simp_all, resource_notFull hready⟩
  | pushFor value =>
    cases hcv
    simp only [critical, pushFor] at h
    split_ifs at h with hready hclosed hexpired
    exact ⟨by simp_all, resource_notFull hready⟩
  | pop =>
    cases hcv
    simp only [critical, pop] at h
    split_ifs at h with hready
    · cases hitems : s.items with
      | nil =>
        rw [hitems] at h
        cases h
      | cons value items =>
        rw [hitems] at h
        cases h
    · exact ⟨by simp_all, resource_notEmpty hready⟩
  | popFor =>
    cases hcv
    simp only [critical, popFor] at h
    split_ifs at h with hready hexpired
    · cases hitems : s.items with
      | nil =>
        rw [hitems] at h
        cases h
      | cons value items =>
        rw [hitems] at h
        cases h
    · exact ⟨by simp_all, resource_notEmpty hready⟩
  | tryPush value => cases hcv
  | tryPop => cases hcv
  | close => cases hcv
  | closeAndTake => cases hcv

/-! ## The rules of the monitor -/

/-- A call takes at most one of what it waits for. -/
theorem waits_le_one (op : Op T) (cv : Cv) : (if waitsOn op = some cv then 1 else 0) ≤ 1 := by
  split_ifs
  · exact Nat.le_refl 1
  · exact Nat.zero_le 1

/-- What a call waits for comes with a notification. -/
theorem paces : (monitor T).Paces resource where
  block := fun _ _ _ _ _ h hcv => (critical_block h hcv).2
  finish := by
    intro i op expired s s' signals r h cv
    have hone := waits_le_one op cv
    show _ ∨ _ ∨ _ + (if waitsOn op = some cv then 1 else 0) ≤ _
    cases critical_section h with
    | accept value r hopen hlt _ _ hwaits _ =>
      refine .inr (.inr ?_)
      cases cv with
      | notEmpty => simp [resource, State.append, hopen, hwaits]
      | notFull =>
        simp only [resource, State.append, hopen, Bool.false_eq_true, if_false, List.length_append,
          List.length_singleton]
        omega
    | deliver value items r hitems _ _ hwaits _ =>
      by_cases hclosed : s.closed = true
      · exact .inr (.inl (if_pos hclosed))
      · refine .inr (.inr ?_)
        cases cv with
        | notEmpty =>
          simp only [resource, State.removeFront, hclosed, hitems, Bool.false_eq_true, if_false,
            List.length_cons]
          omega
        | notFull =>
          simp only [resource, State.removeFront, hclosed, hitems, hwaits, Bool.false_eq_true,
            if_false, List.length_cons, List.count_singleton_self]
          omega
    | refuse r _ _ hnone _ =>
      by_cases hcv : waitsOn op = some cv
      · exact .inr (.inl (hnone cv hcv))
      · refine .inr (.inr ?_)
        rw [if_neg hcv]
        exact Nat.le_add_right _ _
    | close r => cases cv <;> exact .inl (by simp)
    | closeAndTake r => cases cv <;> exact .inl (by simp)

/-- Closing ends every wait. -/
theorem ends : (monitor T).Ends fun _ s => s.closed = true where
  block := by
    intro i op expired s cv h hcv hclosed
    rw [(critical_block h hcv).1] at hclosed
    cases hclosed
  finish := by
    intro i op expired s s' signals r h cv hclosed
    cases critical_section h with
    | accept value r hopen => exact .inl hclosed
    | deliver value items r hitems => exact .inl hclosed
    | refuse r => exact .inl hclosed
    | close r => cases cv <;> exact .inr (by simp)
    | closeAndTake r => cases cv <;> exact .inr (by simp)

theorem logs_pushed : (monitor T).Logs State.pushed accepted := by
  intro i op expired s s' signals r h
  cases critical_section h with
  | accept value r _ _ haccepted => rw [haccepted]; rfl
  | deliver value items r _ haccepted => rw [haccepted]; exact (List.append_nil _).symm
  | refuse r haccepted => rw [haccepted]; exact (List.append_nil _).symm
  | close r haccepted => rw [haccepted]; exact (List.append_nil _).symm
  | closeAndTake r haccepted => rw [haccepted]; exact (List.append_nil _).symm

theorem logs_taken : (monitor T).Logs State.taken fun _ r => delivered r := by
  intro i op expired s s' signals r h
  show s'.taken = s.taken ++ (delivered r).map (Prod.mk i)
  cases critical_section h with
  | accept value r _ _ _ hdelivered => rw [hdelivered]; exact (List.append_nil _).symm
  | deliver value items r _ _ hdelivered => rw [hdelivered]; rfl
  | refuse r _ hdelivered => rw [hdelivered]; exact (List.append_nil _).symm
  | close r _ hdelivered => rw [hdelivered]; exact (List.append_nil _).symm
  | closeAndTake r _ hdelivered => rw [hdelivered]

/-! ## Runs -/

/-- The states of the data: never too full, and in the order of the pushes. -/
structure Fifo (capacity : Nat) (s : State T) : Prop where
  capacity_eq : s.capacity = capacity
  bounded : size s ≤ capacity
  order : s.pushed.map Prod.snd = s.taken.map Prod.snd ++ s.items

theorem Fifo.section {capacity : Nat}
    (hs : Fifo capacity s) (h : Section i op s s' signals r) : Fifo capacity s' := by
  obtain ⟨hcapacity, hbounded, horder⟩ := hs
  cases h with
  | accept value r hopen hlt =>
    refine ⟨hcapacity, ?_, ?_⟩
    · rw [hcapacity] at hlt
      simpa [size, State.append] using Nat.succ_le_of_lt hlt
    · simp [State.append, horder]
  | deliver value items r hitems =>
    rw [size, hitems, List.length_cons] at hbounded
    exact ⟨hcapacity, Nat.le_of_succ_le hbounded, by simp [State.removeFront, horder, hitems]⟩
  | refuse r => exact ⟨hcapacity, hbounded, horder⟩
  | close r => exact ⟨hcapacity, hbounded, horder⟩
  | closeAndTake r => exact ⟨hcapacity, Nat.zero_le _, by simp [horder, Function.comp_def]⟩

/-- The state of a queue and its calls. -/
abbrev Running (T : Type) := Monitor.State (State T) (Op T) (Result T) Cv

abbrev step (s : Running T) (a : Monitor.Action (Op T)) : Option (Running T) := (monitor T).step s a

/-- A queue before its first call. -/
def init (s : State T) : Running T where
  data := s
  calls := []

theorem fifo_of_reach {capacity : Nat} {s₀ : State T} (h₀ : create capacity = .ok s₀)
    {s : Running T} (h : Reach step (fun _ _ => True) (init s₀) s) : Fifo capacity s.data := by
  refine h.invariant (fun s => Fifo capacity s.data) ?_ fun s a s' hs _ hstep => ?_
  · unfold create at h₀
    split_ifs at h₀
    cases h₀
    exact ⟨rfl, Nat.zero_le _, rfl⟩
  · exact (Monitor.step_effect hstep).data
      (fun i op expired data data' signals r hdata hfinish =>
        hdata.section (critical_section hfinish)) hs

/-- A closed queue stays closed, and nothing enters it. -/
theorem closed_of_reach {s s' : Running T} (hclosed : s.data.closed = true)
    (h : Reach step (fun _ _ => True) s s') :
    s'.data.closed = true ∧ s'.data.pushed = s.data.pushed ∧
      (s.data.items = [] → s'.data.items = []) := by
  refine h.invariant (fun s' => s'.data.closed = true ∧ s'.data.pushed = s.data.pushed ∧
    (s.data.items = [] → s'.data.items = [])) ⟨hclosed, rfl, id⟩ fun t a t' ht _ hstep => ?_
  refine (Monitor.step_effect hstep).data (I := fun data => data.closed = true ∧
    data.pushed = s.data.pushed ∧ (s.data.items = [] → data.items = [])) ?_ ht
  intro i op expired data data' signals r hdata hfinish
  cases critical_section hfinish with
  | accept value r hopen =>
    rw [hdata.1] at hopen
    cases hopen
  | deliver value items r hitems =>
    refine ⟨hdata.1, hdata.2.1, fun hempty => ?_⟩
    rw [hdata.2.2 hempty] at hitems
    cases hitems
  | refuse r => exact hdata
  | close r => exact ⟨rfl, hdata.2⟩
  | closeAndTake r => exact ⟨rfl, hdata.2.1, fun _ => rfl⟩

/-- **No wakeup is lost**: nothing waits for what is there and was not promised to another. -/
theorem waiting_of_reach {s₀ : State T} {s : Running T}
    (h : Reach step (fun _ _ => True) (init s₀) s) (hquiet : Monitor.Quiet s.calls) (cv : Cv)
    {c : Call (Op T) (Result T) Cv} (hmem : c ∈ s.calls)
    (hblocked : (monitor T).blockedOn cv c = true) :
    s.data.closed = false ∧ resource cv s.data ≤ s.calls.countP ((monitor T).notifiedOn cv) := by
  have hserved : (monitor T).Served cv (resource cv s.data) s.calls :=
    h.invariant (fun s => (monitor T).Served cv (resource cv s.data) s.calls)
      (.inl fun c hmem => by cases hmem)
      fun s a s' hs _ hstep => (Monitor.step_effect hstep).served paces cv hs
  have hended : s.data.closed = true → (monitor T).Ended cv s.calls :=
    h.invariant (fun s => s.data.closed = true → (monitor T).Ended cv s.calls)
      (fun _ => .inl fun c hmem => by cases hmem)
      fun s a s' hs _ hstep => (Monitor.step_effect hstep).ended ends cv hs
  refine ⟨Bool.eq_false_iff.mpr fun hclosed => ?_, hserved.le_of_quiet hquiet hmem hblocked⟩
  rw [(hended hclosed).of_quiet hquiet c hmem] at hblocked
  cases hblocked

/-- What holds in every state of a queue that was created with this capacity. -/
structure Linearizable (capacity : Nat) (s : Running T) : Prop where
  /-- the queue is never too full -/
  bounded : size s.data ≤ capacity
  /-- what was accepted is what was delivered and what is still in the queue, in this order -/
  fifo : s.data.pushed.map Prod.snd = s.data.taken.map Prod.snd ++ s.data.items
  /-- a value was accepted when its call says so, and once -/
  accepted : Monitor.Logged accepted s.data.pushed s.calls
  /-- a value was delivered by the call that returns it -/
  delivered : Monitor.Logged (fun _ r => delivered r) s.data.taken s.calls
  /-- nothing is accepted after `close` -/
  closed : s.data.closed = true → ∀ s', Reach step (fun _ _ => True) s s' →
    s'.data.closed = true ∧ s'.data.pushed = s.data.pushed
  /-- a call reports a closed queue when it found it closed and empty -/
  reports : ∀ i s', step s (.enter i) = some s' → ∀ op signals r,
    s'.calls[i]? = some { op := op, progress := .leaving signals r } → ReportsClosed r →
      s.data.closed = true ∧ s.data.items = []
  /-- the consumers that wait -/
  consumers : Monitor.Quiet s.calls → ∀ c ∈ s.calls, (monitor T).blockedOn .notEmpty c = true →
    s.data.closed = false ∧ size s.data ≤ s.calls.countP ((monitor T).notifiedOn .notEmpty)
  /-- the producers that wait -/
  producers : Monitor.Quiet s.calls → ∀ c ∈ s.calls, (monitor T).blockedOn .notFull c = true →
    s.data.closed = false ∧ capacity - size s.data ≤
      s.calls.countP ((monitor T).notifiedOn .notFull)

/-- **The queue is a bounded FIFO without lost wakeups**, in every run. -/
theorem bounded_queue_linearizable (capacity : Nat) (s₀ : State T) (h₀ : create capacity = .ok s₀)
    (s : Running T) (h : Reach step (fun _ _ => True) (init s₀) s) : Linearizable capacity s := by
  have hfifo := fifo_of_reach h₀ h
  have hempty : s₀.pushed = [] ∧ s₀.taken = [] := by
    unfold create at h₀
    split_ifs at h₀
    cases h₀
    exact ⟨rfl, rfl⟩
  refine ⟨hfifo.bounded, hfifo.order, ?_, ?_, ?_, ?_, ?_, ?_⟩
  · refine h.invariant (fun s => Monitor.Logged accepted s.data.pushed s.calls) (fun i => ?_)
      fun s a s' hs _ hstep => (Monitor.step_effect hstep).logged logs_pushed hs
    rw [init, hempty.1]
    rfl
  · refine h.invariant (fun s => Monitor.Logged (fun _ r => delivered r) s.data.taken s.calls)
      (fun i => ?_) fun s a s' hs _ hstep => (Monitor.step_effect hstep).logged logs_taken hs
    rw [init, hempty.2]
    rfl
  · intro hclosed s' h'
    exact ⟨(closed_of_reach hclosed h').1, (closed_of_reach hclosed h').2.1⟩
  · intro i s' hstep op signals r hc hreports
    obtain ⟨expired, hfinish⟩ := Monitor.enter_finish hstep hc
    generalize s'.data = data at hfinish
    cases critical_section hfinish with
    | accept value r _ _ _ _ _ hnot => exact absurd hreports hnot
    | deliver value items r _ _ _ _ hnot => exact absurd hreports hnot
    | refuse r _ _ _ hclosed => exact hclosed hreports
    | close r _ _ _ hnot => exact absurd hreports hnot
    | closeAndTake r _ _ _ hnot => exact absurd hreports hnot
  · intro hquiet c hmem hblocked
    obtain ⟨hopen, hle⟩ := waiting_of_reach h hquiet .notEmpty hmem hblocked
    rw [resource, hopen] at hle
    exact ⟨hopen, hle⟩
  · intro hquiet c hmem hblocked
    obtain ⟨hopen, hle⟩ := waiting_of_reach h hquiet .notFull hmem hblocked
    rw [resource, hopen, hfifo.capacity_eq] at hle
    exact ⟨hopen, hle⟩

/-- A consumer waits, a producer pushes an item and fills the queue, a second one waits, and the
consumer is notified. -/
theorem bounded_queue_linearizable_one :
    ∃ s : Running Nat, Reach step (fun _ _ => True) (init { capacity := 1 }) s ∧
      s.data.items = [7] ∧ s.calls.length = 3 ∧ Linearizable 1 s := by
  let actions : List (Monitor.Action (Op Nat)) :=
    [.invoke .pop, .enter 0, .invoke (.push 7), .enter 1, .invoke (.push 8), .enter 2,
      .notify 1 (some 0)]
  obtain ⟨s, hs⟩ : ∃ s, run step (fun _ _ => true) actions (init { capacity := 1 }) = some s :=
    ⟨_, rfl⟩
  have hreach : Reach step (fun _ _ => True) (init { capacity := 1 }) s :=
    Reach.run (fun _ _ _ => trivial) .init hs
  refine ⟨s, hreach, ?_, ?_, bounded_queue_linearizable 1 _ rfl s hreach⟩
  · cases hs
    rfl
  · cases hs
    rfl

end BoundedQueue

end Libca.Thread
