import Libca.Common.OrderedSet
import Libca.Common.Run
import Libca.Thread.Clock
import Mathlib.Data.List.Basic
import Mathlib.Data.List.GetD

/-!
# `MessageLoop` (`thread/message_loop.cpp` 17-318)

One thread runs the tasks of a queue. Delayed tasks wait in a set ordered by their time and their
number, and go to the end of the queue when the thread finds them due. A section under the lock is
one step, and so are the start and the end of a task, a notification that is on its way, and a wait
that ends. The clock goes on between the steps.

Left out: exceptions of tasks, `join`.

* `step`, `Effect`, `step_effect`: the steps, and what each of them does.
* `Ahead`: which of two tasks is to be run first.
* `Lined`: the tasks that were started, the one in hand and the queue are one line.
* `tasks_in_order`: every task is started at most once, in order and not early; after a stop it is
  those that the stop left.
* `no_wakeup_lost`: a thread asleep while the queue has a task has a notification on its way.
* `delayed_task_forgotten`: a thread that fell asleep while the set was empty sleeps through every
  delayed task.
-/

namespace Libca.Thread.MessageLoop

open Common

/-- A task by its number, its time and the number that orders it among those of its time. -/
structure DelayedTask where
  due : Int64
  seq : Nat
  run : Nat
deriving DecidableEq

/-- `DelayedTaskOrder`. -/
def delayedTaskOrder (lhs rhs : DelayedTask) : Bool := earlier lhs.due lhs.seq rhs.due rhs.seq

inductive LoopPhase
  | running
  | stopping
  | joined
deriving DecidableEq

inductive LoopStopMode
  | discard
  | drain
deriving DecidableEq

/-- Where the thread is: in front of its loop with the lock, behind it with a task, in the task, in
a wait with its end and whether it was notified, or behind the loop. -/
inductive Worker
  | looking
  | dequeued (task : Nat)
  | calling (task : Nat)
  | asleep (nextDue : Option Int64) (notified : Bool)
  | exited
deriving DecidableEq

/-- What a post returns; that of an accepted one has the number of the task. -/
inductive Answer
  | ok (task : Nat)
  | failedPrecondition
  | invalidArgument
deriving DecidableEq

/-- An accepted post: the clock, and the delay of `post_delay_task`. -/
structure Post where
  time : Int64
  delay : Option Int64

/-- The start of a task. -/
structure Start where
  task : Nat
  time : Int64

/-- `LoopState` with the clock, the thread and the number of notifications on their way. The last
four are not in the source: the accepted posts, the answers, the starts, and the tasks that a stop
left. -/
structure LoopState where
  now : Int64
  ready : List Nat := []
  delayed : List DelayedTask := []
  nextSeq : Nat := 1
  stopRequested : Bool := false
  phase : LoopPhase := .running
  stopMode : LoopStopMode := .discard
  worker : Worker := .looking
  notifying : Nat := 0
  posts : List Post := []
  answers : List Answer := []
  starts : List Start := []
  limit : Option (List Nat) := none

/-! ## The steps -/

inductive Action
  | tick (t : Int64)
  | postTask (callable : Bool)
  | postDelayTask (callable : Bool) (delay : Int64)
  | stop
  | stopAndDrain
  | join
  | notify
  | look
  | call
  | finish
  | wake
  | timeout
deriving DecidableEq

/-- A post is refused. -/
def LoopState.refused (s : LoopState) (answer : Answer) : LoopState :=
  { s with answers := s.answers ++ [answer] }

/-- The section of `enqueue` while the loop runs. -/
def LoopState.pushed (s : LoopState) : LoopState :=
  { s with
    ready := s.ready ++ [s.posts.length]
    notifying := s.notifying + 1
    posts := s.posts ++ [⟨s.now, none⟩]
    answers := s.answers ++ [.ok s.posts.length] }

/-- The section of `enqueue_delay` while the loop runs; `u64` has 64 bits. -/
def LoopState.inserted (s : LoopState) (delay : Int64) : LoopState :=
  { s with
    delayed := OrderedSet.insert delayedTaskOrder
      ⟨after s.now (positivePart delay), s.nextSeq, s.posts.length⟩ s.delayed
    nextSeq := (s.nextSeq + 1) % 2 ^ 64
    notifying := s.notifying + 1
    posts := s.posts ++ [⟨s.now, some delay⟩]
    answers := s.answers ++ [.ok s.posts.length] }

/-- `enqueue`. -/
def enqueue (s : LoopState) (callable : Bool) : LoopState :=
  if callable = false then s.refused .invalidArgument
  else if s.phase ≠ .running then s.refused .failedPrecondition
  else s.pushed

/-- `enqueue_delay`. -/
def enqueueDelay (s : LoopState) (callable : Bool) (delay : Int64) : LoopState :=
  if callable = false then s.refused .invalidArgument
  else if s.phase ≠ .running then s.refused .failedPrecondition
  else s.inserted delay

/-- The task that the thread took out and did not start. -/
def Worker.inHand : Worker → List Nat
  | .dequeued task => [task]
  | _ => []

/-- The tasks that were started. -/
def LoopState.started (s : LoopState) : List Nat := s.starts.map Start.task

/-- The section of a stop while the loop runs, with what it leaves of the queue. -/
def LoopState.stopped (s : LoopState) (mode : LoopStopMode) (left : List Nat) : LoopState :=
  { s with
    phase := .stopping
    stopMode := mode
    ready := left
    delayed := []
    stopRequested := true
    notifying := s.notifying + 1
    limit := some (s.started ++ s.worker.inHand ++ left) }

/-- `stop`. -/
def stop (s : LoopState) : LoopState := if s.phase ≠ .running then s else s.stopped .discard []

/-- `stop_and_drain`. -/
def stopAndDrain (s : LoopState) : LoopState := if s.phase ≠ .running then s
else s.stopped .drain s.ready

/-- The loop over the tasks that are due: the queue and the set behind it. -/
def moveDue (now : Int64) : List Nat → List DelayedTask → List Nat × List DelayedTask
  | ready, [] => (ready, [])
  | ready, task :: delayed =>
    if task.due ≤ now then moveDue now (ready ++ [task.run]) delayed else (ready, task :: delayed)

/-- The queue and the set when the thread has looked for tasks that are due. -/
def expire (s : LoopState) : List Nat × List DelayedTask :=
  if s.phase = .running then moveDue s.now s.ready s.delayed else (s.ready, s.delayed)

/-- `run_loop` up to the start of a task, a wait or the end. -/
def look (s : LoopState) : LoopState :=
  match (expire s).1 with
  | task :: ready => { s with ready := ready, delayed := (expire s).2, worker := .dequeued task }
  | [] =>
    if s.phase ≠ .running then { s with worker := .exited }
    else { s with worker := .asleep (s.delayed.head?.map DelayedTask.due) false }

/-- What the wait is for. -/
def wakes (s : LoopState) : Option Int64 → Bool
  | none => s.phase ≠ .running || !s.ready.isEmpty
  | some nextDue =>
    s.phase ≠ .running || !s.ready.isEmpty || s.delayed.isEmpty ||
      s.delayed.head?.map DelayedTask.due ≠ some nextDue

/-- A thread in a wait is notified. -/
def Worker.notified : Worker → Worker
  | .asleep nextDue _ => .asleep nextDue true
  | worker => worker

def step (s : LoopState) : Action → Option LoopState
  | .tick t => if s.now ≤ t then some { s with now := t } else none
  | .postTask callable => some (enqueue s callable)
  | .postDelayTask callable delay => some (enqueueDelay s callable delay)
  | .stop => some (stop s)
  | .stopAndDrain => some (stopAndDrain s)
  | .join =>
    if s.phase ≠ .running ∧ s.worker = .exited then some { s with phase := .joined } else none
  | .notify =>
    if s.notifying = 0 then none
    else some { s with notifying := s.notifying - 1, worker := s.worker.notified }
  | .look => if s.worker = .looking then some (look s) else none
  | .call =>
    match s.worker with
    | .dequeued task =>
      some { s with worker := .calling task, starts := s.starts ++ [⟨task, s.now⟩] }
    | _ => none
  | .finish =>
    match s.worker with
    | .calling _ => some { s with worker := .looking }
    | _ => none
  | .wake =>
    match s.worker with
    | .asleep nextDue _ =>
      some { s with worker := if wakes s nextDue then .looking else .asleep nextDue false }
    | _ => none
  | .timeout =>
    match s.worker with
    | .asleep (some nextDue) _ => if nextDue ≤ s.now then some { s with worker := .looking }
    else none
    | _ => none

/-- The sums of the clock and a delay fit, and so does the number of a delayed task. -/
def fits (s : LoopState) : Action → Bool
  | .postDelayTask true delay =>
    s.phase ≠ .running || (decide (Fits s.now (positivePart delay)) &&
      decide (s.nextSeq + 1 < 2 ^ 64))
  | _ => true

/-! ## What a step does -/

/-- The effects of the steps; `fit` says that the sums fit. -/
inductive Effect (fit : Prop) (s : LoopState) : LoopState → Prop
  | idle : Effect fit s s
  | refuse (answer : Answer) : Effect fit s (s.refused answer)
  | tick (t : Int64) : s.now ≤ t → Effect fit s { s with now := t }
  | enter : s.phase = .running → Effect fit s s.pushed
  | delay (delay : Int64) : s.phase = .running →
      (fit → Fits s.now (positivePart delay) ∧ s.nextSeq + 1 < 2 ^ 64) →
        Effect fit s (s.inserted delay)
  | stop (mode : LoopStopMode) (left : List Nat) : s.phase = .running → left <+: s.ready →
      Effect fit s (s.stopped mode left)
  | join : s.phase ≠ .running → s.worker = .exited → Effect fit s { s with phase := .joined }
  | notify (n : Nat) : Effect fit s { s with notifying := n, worker := s.worker.notified }
  | dequeue (due rest : List DelayedTask) (task : Nat) (ready : List Nat) : s.worker = .looking →
      s.delayed = due ++ rest → (s.phase ≠ .running → due = []) → (∀ e ∈ due, e.due ≤ s.now) →
      s.ready ++ due.map DelayedTask.run = task :: ready →
      Effect fit s { s with ready := ready, delayed := rest, worker := .dequeued task }
  | exit : s.worker = .looking → s.phase ≠ .running → s.ready = [] →
      Effect fit s { s with worker := .exited }
  | sleep : s.worker = .looking → s.phase = .running → s.ready = [] →
      Effect fit s { s with worker := .asleep (s.delayed.head?.map DelayedTask.due) false }
  | call (task : Nat) : s.worker = .dequeued task →
      Effect fit s { s with worker := .calling task, starts := s.starts ++ [⟨task, s.now⟩] }
  | finish (task : Nat) : s.worker = .calling task → Effect fit s { s with worker := .looking }
  | awake (nextDue : Option Int64) (notified : Bool) : s.worker = .asleep nextDue notified →
      wakes s nextDue = true ∨ (∃ t, nextDue = some t ∧ t ≤ s.now) →
      Effect fit s { s with worker := .looking }
  | slumber (nextDue : Option Int64) (notified : Bool) : s.worker = .asleep nextDue notified →
      wakes s nextDue = false → Effect fit s { s with worker := .asleep nextDue false }

variable {s s' : LoopState}

theorem moveDue_cons (now : Int64) (ready : List Nat) (task : DelayedTask)
    (delayed : List DelayedTask) :
    moveDue now ready (task :: delayed) =
      if task.due ≤ now then moveDue now (ready ++ [task.run]) delayed
        else (ready, task :: delayed) := rfl

/-- The tasks that are due stand in front of the set. -/
theorem moveDue_eq (now : Int64) (ready : List Nat) (delayed : List DelayedTask) :
    ∃ due rest, delayed = due ++ rest ∧ (∀ e ∈ due, e.due ≤ now) ∧
      moveDue now ready delayed = (ready ++ due.map DelayedTask.run, rest) := by
  induction delayed generalizing ready with
  | nil => exact ⟨[], [], rfl, by rintro e ⟨⟩, by rw [List.map_nil, List.append_nil]; rfl⟩
  | cons task delayed ih =>
    rw [moveDue_cons]
    split_ifs with hdue
    · obtain ⟨due, rest, rfl, hall, heq⟩ := ih (ready ++ [task.run])
      refine ⟨task :: due, rest, rfl, List.forall_mem_cons.mpr ⟨hdue, hall⟩, ?_⟩
      rw [heq, List.append_assoc]
      rfl
    · exact ⟨[], task :: delayed, rfl, by rintro e ⟨⟩, by rw [List.map_nil, List.append_nil]⟩

theorem expire_eq (s : LoopState) : ∃ due rest, s.delayed = due ++ rest ∧
    (s.phase ≠ .running → due = []) ∧ (∀ e ∈ due, e.due ≤ s.now) ∧
      expire s = (s.ready ++ due.map DelayedTask.run, rest) := by
  unfold expire
  split_ifs with hrunning
  · obtain ⟨due, rest, hdelayed, hall, heq⟩ := moveDue_eq s.now s.ready s.delayed
    exact ⟨due, rest, hdelayed, fun hnot => absurd hrunning hnot, hall, heq⟩
  · exact ⟨[], s.delayed, rfl, fun _ => rfl, by rintro e ⟨⟩, by rw [List.map_nil, List.append_nil]⟩

variable {fit : Prop}

theorem look_effect (hw : s.worker = .looking) : Effect fit s (look s) := by
  obtain ⟨due, rest, hdelayed, hstopped, hall, heq⟩ := expire_eq s
  unfold look
  rw [heq]
  cases hready : s.ready ++ due.map DelayedTask.run with
  | cons task ready => exact .dequeue due rest task ready hw hdelayed hstopped hall hready
  | nil =>
    have hempty := (List.append_eq_nil_iff.mp hready).1
    simp only
    split_ifs with hphase
    · exact .exit hw hphase hempty
    · exact .sleep hw (not_not.mp hphase) hempty

theorem enqueue_effect (callable : Bool) : Effect fit s (enqueue s callable) := by
  unfold enqueue
  split_ifs with hcallable hphase
  · exact .refuse _
  · exact .refuse _
  · exact .enter (not_not.mp hphase)

theorem enqueueDelay_effect (callable : Bool) (delay : Int64) :
    Effect (fits s (.postDelayTask callable delay) = true) s (enqueueDelay s callable delay) := by
  unfold enqueueDelay
  split_ifs with hcallable hphase
  · exact .refuse _
  · exact .refuse _
  · refine .delay delay (not_not.mp hphase) fun hfit => ?_
    rw [Bool.not_eq_false] at hcallable
    subst hcallable
    have hfit : (decide (s.phase ≠ .running) ||
      (decide (Fits s.now (positivePart delay)) && decide (s.nextSeq + 1 < 2 ^ 64))) = true := hfit
    rw [decide_eq_false hphase, Bool.false_or, Bool.and_eq_true] at hfit
    exact hfit.imp of_decide_eq_true of_decide_eq_true

/-- **What a step does.** -/
theorem step_effect {a : Action} (h : step s a = some s') : Effect (fits s a = true) s s' := by
  cases a with
  | tick t =>
    simp only [step] at h
    split_ifs at h with hle
    cases h
    exact .tick t hle
  | postTask callable =>
    cases h
    exact enqueue_effect callable
  | postDelayTask callable delay =>
    cases h
    exact enqueueDelay_effect callable delay
  | stop =>
    cases h
    unfold stop
    split_ifs with hphase
    · exact .idle
    · exact .stop .discard [] (not_not.mp hphase) List.nil_prefix
  | stopAndDrain =>
    cases h
    unfold stopAndDrain
    split_ifs with hphase
    · exact .idle
    · exact .stop .drain s.ready (not_not.mp hphase) (List.prefix_refl _)
  | join =>
    simp only [step] at h
    split_ifs at h with hjoin
    cases h
    exact .join hjoin.1 hjoin.2
  | notify =>
    simp only [step] at h
    split_ifs at h with hnone
    cases h
    exact .notify _
  | look =>
    simp only [step] at h
    split_ifs at h with hw
    cases h
    exact look_effect hw
  | call =>
    simp only [step] at h
    cases hw : s.worker with
    | dequeued task =>
      rw [hw] at h
      cases h
      exact .call task hw
    | _ =>
      rw [hw] at h
      cases h
  | finish =>
    simp only [step] at h
    cases hw : s.worker with
    | calling task =>
      rw [hw] at h
      cases h
      exact .finish task hw
    | _ =>
      rw [hw] at h
      cases h
  | wake =>
    simp only [step] at h
    cases hw : s.worker with
    | asleep nextDue notified =>
      rw [hw] at h
      cases h
      split_ifs with hwakes
      · exact .awake nextDue notified hw (.inl hwakes)
      · exact .slumber nextDue notified hw (Bool.eq_false_iff.mpr hwakes)
    | _ =>
      rw [hw] at h
      cases h
  | timeout =>
    simp only [step] at h
    cases hw : s.worker with
    | asleep nextDue notified =>
      rw [hw] at h
      cases nextDue with
      | none => cases h
      | some t =>
        simp only at h
        split_ifs at h with hle
        cases h
        exact .awake (some t) notified hw (.inr ⟨t, rfl, hle⟩)
    | _ =>
      rw [hw] at h
      cases h

/-! ## Which task is ahead -/

/-- From when on the task may be run. -/
def Post.due (post : Post) : Int :=
  post.delay.elim post.time.toInt fun delay => exactAfter post.time (positivePart delay)

/-- The post of a task. -/
def postOf (posts : List Post) (p : Nat) : Post := posts.getD p ⟨0, none⟩

/-- The first task is to be run before the second: of tasks without delay the one posted first, of
delayed ones the one due first, or posted first of those due at the same time, and one without delay
before a delayed one that was not due yet. -/
def Ahead (posts : List Post) (p q : Nat) : Prop :=
  if (postOf posts p).delay.isSome then
    (postOf posts q).delay.isSome = true ∧ ((postOf posts p).due < (postOf posts q).due ∨
      ((postOf posts p).due = (postOf posts q).due ∧ p < q))
  else if (postOf posts q).delay.isSome then (postOf posts p).due < (postOf posts q).due
  else p < q

section Posts

variable {posts : List Post} {x : Post} {p q : Nat}

theorem postOf_append (h : p < posts.length) : postOf (posts ++ [x]) p = postOf posts p :=
  List.getD_append _ _ _ _ h

theorem postOf_length : postOf (posts ++ [x]) posts.length = x := by
  rw [postOf, List.getD_append_right _ _ _ _ (Nat.le_refl _), Nat.sub_self]
  rfl

theorem ahead_append (hp : p < posts.length) (hq : q < posts.length) :
    Ahead (posts ++ [x]) p q ↔ Ahead posts p q := by
  unfold Ahead
  rw [postOf_append hp, postOf_append hq]

theorem ahead_of_delayed (hp : (postOf posts p).delay.isSome = true) : Ahead posts p q ↔
    (postOf posts q).delay.isSome = true ∧ ((postOf posts p).due < (postOf posts q).due ∨
      ((postOf posts p).due = (postOf posts q).due ∧ p < q)) := by
  unfold Ahead
  rw [if_pos hp]

/-- A new task is not ahead of one that may be run when it may be. -/
theorem not_ahead_new (hq : q < posts.length) (hdue : (postOf posts q).due ≤ x.due) :
    ¬ Ahead (posts ++ [x]) posts.length q := by
  unfold Ahead
  rw [postOf_length, postOf_append hq]
  split_ifs with hx hlater
  · omega
  · omega
  · omega

/-- A task that waits is not ahead of a new one without delay. -/
theorem not_ahead_enter (hp : p < posts.length) (hdelay : (postOf posts p).delay.isSome = true)
    (hx : x.delay = none) : ¬ Ahead (posts ++ [x]) p posts.length := by
  rw [← postOf_append hp] at hdelay
  rw [ahead_of_delayed hdelay, postOf_length, hx]
  exact fun h => Bool.false_ne_true h.1

theorem le_due (x : Post) : x.time.toInt ≤ x.due := by
  unfold Post.due
  cases x.delay with
  | none => exact Int.le_refl _
  | some delay =>
    have hpart := toInt_positivePart delay
    simp only [Option.elim_some, exactAfter]
    omega

end Posts

/-! ## The tasks that wait -/

/-- A delayed task by its post. -/
def Timed (posts : List Post) (e : DelayedTask) : Prop :=
  e.run < posts.length ∧ (postOf posts e.run).delay.isSome = true ∧
    e.due.toInt = (postOf posts e.run).due

/-- The set holds delayed tasks in the order of their times, and of their numbers at the same time.
-/
structure Waits (posts : List Post) (nextSeq : Nat) (delayed : List DelayedTask) : Prop where
  timed : ∀ e ∈ delayed, Timed posts e
  sorted : OrderedSet.Sorted delayedTaskOrder delayed
  numbered : ∀ e ∈ delayed, e.seq < nextSeq
  sameOrder : ∀ e ∈ delayed, ∀ e' ∈ delayed, e.seq < e'.seq → e.run < e'.run

theorem delayedTaskOrder_strictOrder : OrderedSet.StrictOrder delayedTaskOrder where
  irrefl := fun _ => earlier_irrefl _ _
  trans := earlier_trans

section Waits

variable {posts : List Post} {nextSeq : Nat} {delayed : List DelayedTask} {x : Post}

theorem Waits.order (h : Waits posts nextSeq delayed) :
    (delayed.map DelayedTask.run).Pairwise fun p q => ¬ Ahead posts q p := by
  rw [List.pairwise_map]
  refine List.Pairwise.imp_of_mem (fun {e e'} he he' hlt => ?_) h.sorted
  have horder := h.sameOrder e he e' he'
  obtain ⟨-, -, hdue⟩ := h.timed e he
  obtain ⟨-, hdelay', hdue'⟩ := h.timed e' he'
  rw [ahead_of_delayed hdelay', ← hdue, ← hdue']
  rintro ⟨-, hahead⟩
  rcases earlier_iff.mp hlt with hlt | ⟨heq, hlt⟩
  · omega
  · have hrun := horder hlt
    omega

theorem Timed.post {e : DelayedTask} (h : Timed posts e) (x : Post) : Timed (posts ++ [x]) e := by
  obtain ⟨hmade, hdelay, hdue⟩ := h
  rw [Timed, postOf_append hmade, List.length_append]
  exact ⟨Nat.lt_of_lt_of_le hmade (Nat.le_add_right _ _), hdelay, hdue⟩

theorem Waits.post (h : Waits posts nextSeq delayed) (x : Post) :
    Waits (posts ++ [x]) nextSeq delayed :=
  ⟨fun e he => (h.timed e he).post x, h.sorted, h.numbered, h.sameOrder⟩

theorem Waits.sublist {rest : List DelayedTask} (h : Waits posts nextSeq delayed)
    (hsub : rest.Sublist delayed) :
    Waits posts nextSeq rest :=
  ⟨fun e he => h.timed e (hsub.subset he), List.Pairwise.sublist hsub h.sorted,
    fun e he => h.numbered e (hsub.subset he),
    fun e he e' he' => h.sameOrder e (hsub.subset he) e' (hsub.subset he')⟩

/-- A task with a new number has its own place. -/
theorem perm_insert (h : Waits posts nextSeq delayed) (due : Int64) (run : Nat) :
    (OrderedSet.insert delayedTaskOrder ⟨due, nextSeq, run⟩ delayed).Perm
    (⟨due, nextSeq, run⟩ :: delayed) := by
  refine OrderedSet.insert_perm fun e he => ?_
  have hlt := h.numbered e he
  have htotal := Int.lt_trichotomy due.toInt e.due.toInt
  rw [delayedTaskOrder, delayedTaskOrder, earlier_iff, earlier_iff]
  simp only
  omega

theorem Waits.insert (h : Waits posts nextSeq delayed) {due : Int64}
    (hdelay : x.delay.isSome = true) (hdue : due.toInt = x.due) :
    Waits (posts ++ [x]) (nextSeq + 1)
      (OrderedSet.insert delayedTaskOrder ⟨due, nextSeq, posts.length⟩ delayed) := by
  have hnew : Timed (posts ++ [x]) ⟨due, nextSeq, posts.length⟩ := by
    rw [Timed, postOf_length, List.length_append]
    exact ⟨Nat.lt_succ_self _, hdelay, hdue⟩
  refine
    { timed := fun e he => ?_
      sorted := OrderedSet.sorted_insert delayedTaskOrder_strictOrder h.sorted
      numbered := fun e he => ?_
      sameOrder := fun e he e' he' hlt => ?_ }
  · rcases OrderedSet.mem_insert he with rfl | he
    · exact hnew
    · exact (h.timed e he).post x
  · rcases OrderedSet.mem_insert he with rfl | he
    · exact Nat.lt_succ_self _
    · exact Nat.lt_succ_of_lt (h.numbered e he)
  · rcases OrderedSet.mem_insert he with rfl | he <;>
      rcases OrderedSet.mem_insert he' with rfl | he'
    · exact absurd hlt (Nat.lt_irrefl _)
    · exact absurd hlt (Nat.not_lt.mpr (Nat.le_of_lt (h.numbered e' he')))
    · exact (h.timed e he).1
    · exact h.sameOrder e he e' he' hlt

end Waits

/-! ## The line of the tasks -/

/-- The loop without its queue and its thread: the tasks that entered the queue, in their order,
those that wait for their time, the starts, and the tasks that a stop left. -/
structure Schedule where
  now : Int64
  posts : List Post
  line : List Nat
  delayed : List DelayedTask
  nextSeq : Nat
  starts : List Start
  limit : Option (List Nat)

namespace Schedule

/-- A task enters the line. -/
def entered (v : Schedule) : Schedule :=
  { v with posts := v.posts ++ [⟨v.now, none⟩], line := v.line ++ [v.posts.length] }

/-- A task is to wait. -/
def inserted (v : Schedule) (delay : Int64) : Schedule :=
  { v with
    posts := v.posts ++ [⟨v.now, some delay⟩]
    delayed := OrderedSet.insert delayedTaskOrder
      ⟨after v.now (positivePart delay), v.nextSeq, v.posts.length⟩ v.delayed
    nextSeq := (v.nextSeq + 1) % 2 ^ 64 }

/-- Tasks that waited enter the line. -/
def moved (v : Schedule) (due rest : List DelayedTask) : Schedule :=
  { v with line := v.line ++ due.map DelayedTask.run, delayed := rest }

/-- What happens to the tasks; `fit` says that the sums fit. -/
inductive Step (fit : Prop) (v : Schedule) : Schedule → Prop
  | idle : Step fit v v
  | tick (t : Int64) : v.now ≤ t → Step fit v { v with now := t }
  | enter : v.limit = none → Step fit v v.entered
  | delay (delay : Int64) : v.limit = none →
      (fit → Fits v.now (positivePart delay) ∧ v.nextSeq + 1 < 2 ^ 64) →
        Step fit v (v.inserted delay)
  | move (due rest : List DelayedTask) : v.delayed = due ++ rest → (∀ e ∈ due, e.due ≤ v.now) →
      Step fit v (v.moved due rest)
  | start (task : Nat) : task ∈ v.line → Step fit v { v with starts := v.starts ++ [⟨task, v.now⟩] }
  | stop (line : List Nat) : v.limit = none → line <+: v.line → (∀ e ∈ v.starts, e.task ∈ line) →
      Step fit v { v with line := line, delayed := [], limit := some line }

/-- The tasks that wait for their time. -/
def waiting (v : Schedule) : List Nat := v.delayed.map DelayedTask.run

/-- The line is in order, and until a stop every task is in it or waits. -/
structure Lined (v : Schedule) : Prop where
  perm : v.limit = none → (v.line ++ v.waiting).Perm (List.range v.posts.length)
  made : ∀ p ∈ v.line, p < v.posts.length
  nodup : v.line.Nodup
  order : v.line.Pairwise fun p q => ¬ Ahead v.posts q p
  cross : ∀ q ∈ v.line, ∀ p ∈ v.waiting, ¬ Ahead v.posts p q
  closed : ∀ q ∈ v.line, ∀ p < v.posts.length, Ahead v.posts p q → p ∈ v.line
  entered : ∀ p ∈ v.line, (postOf v.posts p).due ≤ v.now.toInt
  started : ∀ e ∈ v.starts, e.task ∈ v.line ∧ (postOf v.posts e.task).due ≤ e.time.toInt
  waits : Waits v.posts v.nextSeq v.delayed
  stopped : ∀ left, v.limit = some left → v.delayed = [] ∧ left = v.line

variable {v v' : Schedule}

/-- Where every task is in the line or waits, those that are ahead of the line are in it. -/
theorem closed_of_perm {posts : List Post} {line waiting : List Nat} {n : Nat}
    (hperm : (line ++ waiting).Perm (List.range n))
    (hcross : ∀ q ∈ line, ∀ p ∈ waiting, ¬ Ahead posts p q) :
    ∀ q ∈ line, ∀ p < n, Ahead posts p q → p ∈ line := by
  intro q hq p hp hahead
  rcases List.mem_append.mp (hperm.mem_iff.mpr (List.mem_range.mpr hp)) with hin | hin
  · exact hin
  · exact absurd hahead (hcross q hq p hin)

/-- Until a stop, the tasks in the line are tasks, and none is in it twice. -/
theorem nodup_of_perm {line waiting : List Nat} {n : Nat}
    (hperm : (line ++ waiting).Perm (List.range n)) :
    (∀ p ∈ line, p < n) ∧ line.Nodup := by
  refine ⟨fun p hp => List.mem_range.mp (hperm.mem_iff.mp (List.mem_append_left _ hp)), ?_⟩
  exact (List.nodup_append.mp (hperm.nodup_iff.mpr List.nodup_range)).1

theorem Lined.tick (h : Lined v) {t : Int64} (hle : v.now ≤ t) : Lined { v with now := t } :=
  { h with entered := fun p hp => Int.le_trans (h.entered p hp) (Int64.le_iff_toInt_le.mp hle) }

theorem Lined.start (h : Lined v) {task : Nat} (hmem : task ∈ v.line) :
    Lined { v with starts := v.starts ++ [⟨task, v.now⟩] } := by
  refine { h with started := fun e he => ?_ }
  rcases List.mem_append.mp he with he | he
  · exact h.started e he
  · rw [List.mem_singleton.mp he]
    exact ⟨hmem, h.entered task hmem⟩

/-- What was posted before a post. -/
theorem Lined.started_append (h : Lined v) (x : Post) : ∀ e ∈ v.starts,
    (postOf (v.posts ++ [x]) e.task).due ≤ e.time.toInt := by
  intro e he
  obtain ⟨hmem, hdue⟩ := h.started e he
  rw [postOf_append (h.made _ hmem)]
  exact hdue

theorem Lined.entered_append (h : Lined v) (x : Post) : ∀ p ∈ v.line,
    (postOf (v.posts ++ [x]) p).due ≤ v.now.toInt := by
  intro p hp
  rw [postOf_append (h.made p hp)]
  exact h.entered p hp

theorem Lined.order_append (h : Lined v) (x : Post) :
    v.line.Pairwise fun p q => ¬ Ahead (v.posts ++ [x]) q p := by
  refine List.Pairwise.imp_of_mem (fun {p q} hp hq hnot => ?_) h.order
  rw [ahead_append (h.made q hq) (h.made p hp)]
  exact hnot

theorem Lined.enter (h : Lined v) (hopen : v.limit = none) : Lined v.entered := by
  have hnew : ∀ q ∈ v.line, ¬ Ahead (v.posts ++ [⟨v.now, none⟩]) v.posts.length q :=
    fun q hq => not_ahead_new (h.made q hq) (h.entered q hq)
  have hperm : (v.line ++ [v.posts.length] ++ v.waiting).Perm
      (List.range (v.posts ++ [Post.mk v.now none]).length) := by
    rw [List.length_append, List.length_singleton, List.range_succ, List.append_assoc]
    refine (List.Perm.append_left v.line List.perm_append_comm).trans ?_
    rw [← List.append_assoc]
    exact (h.perm hopen).append_right _
  have hcross : ∀ q ∈ v.line ++ [v.posts.length], ∀ p ∈ v.waiting,
      ¬ Ahead (v.posts ++ [⟨v.now, none⟩]) p q := by
    intro q hq p hp
    obtain ⟨e, he, rfl⟩ := List.mem_map.mp hp
    rcases List.mem_append.mp hq with hq | hq
    · rw [ahead_append ((h.waits.timed e he).1) (h.made q hq)]
      exact h.cross q hq _ hp
    · rw [List.mem_singleton.mp hq]
      exact not_ahead_enter ((h.waits.timed e he).1) ((h.waits.timed e he).2.1) rfl
  refine
    { perm := fun _ => hperm
      made := (nodup_of_perm hperm).1
      nodup := (nodup_of_perm hperm).2
      order := ?_
      cross := hcross
      closed := closed_of_perm hperm hcross
      entered := fun p hp => ?_
      started := fun e he => ?_
      waits := h.waits.post _
      stopped := fun left hleft => ?_ }
  · refine List.pairwise_append.mpr ⟨h.order_append _, List.pairwise_singleton _ _, fun q hq p hp =>
      ?_⟩
    rw [List.mem_singleton.mp hp]
    exact hnew q hq
  · rcases List.mem_append.mp hp with hp | hp
    · exact h.entered_append _ p hp
    · rw [List.mem_singleton.mp hp, Schedule.entered, postOf_length]
      exact Int.le_refl _
  · exact ⟨List.mem_append_left _ (h.started e he).1, h.started_append _ e he⟩
  · rw [show v.limit = some left from hleft] at hopen
    cases hopen

theorem Lined.delay (h : Lined v) (hopen : v.limit = none) {delay : Int64}
    (hfit : Fits v.now (positivePart delay)) (hseq : v.nextSeq + 1 < 2 ^ 64) :
    Lined (v.inserted delay) := by
  have hdue : (after v.now (positivePart delay)).toInt = Post.due ⟨v.now, some delay⟩ := by
    have hpart := toInt_positivePart delay
    exact toInt_after (by omega) hfit
  have hwaiting :=
    (perm_insert h.waits (after v.now (positivePart delay)) v.posts.length).map DelayedTask.run
  have hperm : (v.line ++ (v.inserted delay).waiting).Perm
    (List.range (v.inserted delay).posts.length) := by
    rw [inserted, List.length_append, List.length_singleton, List.range_succ]
    refine (hwaiting.append_left v.line).trans ?_
    rw [List.map_cons]
    refine List.perm_middle.trans ?_
    exact ((h.perm hopen).cons _).trans (List.perm_append_singleton _ _).symm
  have hcross : ∀ q ∈ v.line, ∀ p ∈ (v.inserted delay).waiting,
    ¬ Ahead (v.inserted delay).posts p q := by
    intro q hq p hp
    rcases List.mem_cons.mp (hwaiting.mem_iff.mp hp) with rfl | hp
    · exact not_ahead_new (h.made q hq) (Int.le_trans (h.entered q hq) (le_due ⟨v.now, some delay⟩))
    · obtain ⟨e, he, rfl⟩ := List.mem_map.mp hp
      rw [inserted, ahead_append ((h.waits.timed e he).1) (h.made q hq)]
      exact h.cross q hq _ hp
  refine
    { perm := fun _ => hperm
      made := (nodup_of_perm hperm).1
      nodup := h.nodup
      order := h.order_append _
      cross := hcross
      closed := closed_of_perm hperm hcross
      entered := h.entered_append _
      started := fun e he => ⟨(h.started e he).1, h.started_append _ e he⟩
      waits := ?_
      stopped := fun left hleft => ?_ }
  · rw [inserted, Nat.mod_eq_of_lt hseq]
    exact h.waits.insert rfl hdue
  · rw [show v.limit = some left from hleft] at hopen
    cases hopen

/-- The tasks that are due go from the set to the end of the line. -/
theorem Lined.move (h : Lined v) {due rest : List DelayedTask} (hdelayed : v.delayed = due ++ rest)
    (hdue : ∀ e ∈ due, e.due ≤ v.now) : Lined (v.moved due rest) := by
  have hwaits := h.waits
  have hcross := h.cross
  have horder := hwaits.order
  have hperm := h.perm
  rw [waiting, hdelayed, List.map_append] at hcross hperm
  rw [hdelayed, List.map_append] at horder
  rw [hdelayed] at hwaits
  obtain ⟨hfirst, -, hbetween⟩ := List.pairwise_append.mp horder
  have hmade : ∀ p ∈ v.line ++ due.map DelayedTask.run, p < v.posts.length := by
    intro p hp
    rcases List.mem_append.mp hp with hp | hp
    · exact h.made p hp
    · obtain ⟨e, he, rfl⟩ := List.mem_map.mp hp
      exact (hwaits.timed e (List.mem_append_left _ he)).1
  have hcross' : ∀ q ∈ v.line ++ due.map DelayedTask.run, ∀ p ∈ rest.map DelayedTask.run,
      ¬ Ahead v.posts p q := by
    intro q hq p hp
    rcases List.mem_append.mp hq with hq | hq
    · exact hcross q hq p (List.mem_append_right _ hp)
    · exact hbetween q hq p hp
  cases hlimit : v.limit with
  | some left =>
    obtain ⟨hempty, rfl⟩ := h.stopped left hlimit
    rw [hdelayed, List.append_eq_nil_iff] at hempty
    obtain ⟨rfl, rfl⟩ := hempty
    have hself : v.moved [] [] = v := by
      rw [moved, List.map_nil, List.append_nil, ← show v.delayed = [] from hdelayed]
    rw [hself]
    exact h
  | none =>
    have hperm := hperm hlimit
    rw [← List.append_assoc] at hperm
    refine
      { perm := fun _ => hperm
        made := hmade
        nodup := (nodup_of_perm hperm).2
        order := List.pairwise_append.mpr ⟨h.order, hfirst, fun q hq p hp =>
          hcross q hq p (List.mem_append_left _ hp)⟩
        cross := hcross'
        closed := closed_of_perm hperm hcross'
        entered := fun p hp => ?_
        started := fun e he => ⟨List.mem_append_left _ (h.started e he).1, (h.started e he).2⟩
        waits := hwaits.sublist (List.sublist_append_right due rest)
        stopped := fun left hleft => by cases hlimit.symm.trans hleft }
    rcases List.mem_append.mp hp with hp | hp
    · exact h.entered p hp
    · obtain ⟨e, he, rfl⟩ := List.mem_map.mp hp
      rw [moved, ← (hwaits.timed e (List.mem_append_left _ he)).2.2]
      exact Int64.le_iff_toInt_le.mp (hdue e he)

theorem Lined.stop (h : Lined v) {line : List Nat} (hline : line <+: v.line)
    (hstarts : ∀ e ∈ v.starts, e.task ∈ line) :
    Lined { v with line := line, delayed := [], limit := some line } := by
  obtain ⟨dropped, hline⟩ := hline
  have hsub : line.Sublist v.line := hline ▸ List.sublist_append_left line dropped
  have horder := h.order
  rw [← hline] at horder
  refine
    { perm := fun hopen => by cases hopen
      made := fun p hp => h.made p (hsub.subset hp)
      nodup := h.nodup.sublist hsub
      order := h.order.sublist hsub
      cross := fun q _ p hp => absurd hp List.not_mem_nil
      closed := fun q hq p hp hahead => ?_
      entered := fun p hp => h.entered p (hsub.subset hp)
      started := fun e he => ⟨hstarts e he, (h.started e he).2⟩
      waits := h.waits.sublist (List.nil_sublist _)
      stopped := fun left hleft => ⟨rfl, (Option.some.inj hleft).symm⟩ }
  -- a task that is ahead of one that is left stands before it
  have hmem := h.closed q (hsub.subset hq) p hp hahead
  rw [← hline] at hmem
  rcases List.mem_append.mp hmem with hmem | hmem
  · exact hmem
  · exact absurd hahead ((List.pairwise_append.mp horder).2.2 q hq p hmem)

/-- **The line stays in order.** -/
theorem Step.lined (hstep : Step True v v') (h : Lined v) : Lined v' := by
  cases hstep with
  | idle => exact h
  | tick t hle => exact h.tick hle
  | enter hopen => exact h.enter hopen
  | delay delay hopen hfit => exact h.delay hopen (hfit trivial).1 (hfit trivial).2
  | move due rest hdelayed hdue => exact h.move hdelayed hdue
  | start task hmem => exact h.start hmem
  | stop line hopen hline hstarts => exact h.stop hline hstarts

end Schedule

/-! ## The steps are steps of the schedule -/

/-- The tasks that were started, the one in hand, and the queue. -/
def LoopState.line (s : LoopState) : List Nat := s.started ++ s.worker.inHand ++ s.ready

/-- What is left of the state without the queue and the thread. -/
def LoopState.schedule (s : LoopState) : Schedule where
  now := s.now
  posts := s.posts
  line := s.line
  delayed := s.delayed
  nextSeq := s.nextSeq
  starts := s.starts
  limit := s.limit

/-- The loop runs until a stop. -/
def Phased (s : LoopState) : Prop := s.limit = none ↔ s.phase = .running

theorem Effect.phased (h : Effect fit s s') (hs : Phased s) : Phased s' := by
  cases h with
  | stop mode left hr hleft => exact iff_of_false (by rintro ⟨⟩) (by rintro ⟨⟩)
  | join hphase hw => exact hs.trans (iff_of_false hphase (by rintro ⟨⟩))
  | _ => exact hs

theorem inHand_notified (worker : Worker) : worker.notified.inHand = worker.inHand := by
  cases worker <;> rfl

/-- The thread goes on without a task in hand. -/
theorem line_of_inHand {worker : Worker} (h : worker.inHand = s.worker.inHand) :
    LoopState.line { s with worker := worker } = s.line :=
  congrArg (s.started ++ · ++ s.ready) h

/-- A step is that of the schedule when it is in all but the line, and in the line. -/
theorem Schedule.Step.of_line {v : Schedule} (h : Schedule.Step fit s.schedule v)
    (hrest : s'.schedule = { v with line := s'.line }) (hline : s'.line = v.line) :
    Schedule.Step fit s.schedule s'.schedule := by
  rw [hrest, hline]
  exact h

/-- **A step is a step of the schedule.** -/
theorem Effect.schedule (h : Effect fit s s') (hs : Phased s) :
    Schedule.Step fit s.schedule s'.schedule := by
  cases h with
  | idle => exact .idle
  | refuse answer => exact .idle
  | tick t hle => exact .tick t hle
  | enter hr => exact (Schedule.Step.enter (hs.mpr hr)).of_line rfl (List.append_assoc ..).symm
  | delay delay hr hfit => exact .delay delay (hs.mpr hr) hfit
  | stop mode left hr hleft =>
    refine .stop (s.started ++ s.worker.inHand ++ left) (hs.mpr hr)
      ((List.prefix_append_right_inj _).mpr hleft) fun e he => ?_
    rw [List.append_assoc]
    exact List.mem_append_left _ (List.mem_map_of_mem he)
  | join hphase hw => exact .idle
  | notify n => exact Schedule.Step.idle.of_line rfl (line_of_inHand (inHand_notified s.worker))
  | dequeue due rest task ready hw hdelayed hstopped hdue hready =>
    refine (Schedule.Step.move due rest hdelayed hdue).of_line rfl ?_
    show s.started ++ [task] ++ ready = s.line ++ due.map DelayedTask.run
    rw [LoopState.line, hw, show Worker.looking.inHand = [] from rfl, List.append_nil,
      List.append_assoc, List.append_assoc, hready]
    rfl
  | call task hw =>
    have hline : s.line = s.started ++ [task] ++ s.ready := by
      rw [LoopState.line, hw]
      rfl
    refine (Schedule.Step.start task ?_).of_line rfl ?_
    · rw [LoopState.schedule, hline]
      exact List.mem_append_left _ (List.mem_append_right _ (.head _))
    · refine Eq.trans ?_ hline.symm
      rw [LoopState.line, LoopState.started, List.map_append]
      exact congrArg (· ++ s.ready) (List.append_nil _)
  | exit hw hphase hready => exact Schedule.Step.idle.of_line rfl (line_of_inHand (by rw [hw]; rfl))
  | sleep hw hr hready => exact Schedule.Step.idle.of_line rfl (line_of_inHand (by rw [hw]; rfl))
  | finish task hw => exact Schedule.Step.idle.of_line rfl (line_of_inHand (by rw [hw]; rfl))
  | awake nextDue notified hw hwakes =>
    exact Schedule.Step.idle.of_line rfl (line_of_inHand (by rw [hw]; rfl))
  | slumber nextDue notified hw hwakes =>
    exact Schedule.Step.idle.of_line rfl (line_of_inHand (by rw [hw]; rfl))

/-! ## Runs -/

/-- A loop that was just created. -/
def initial (now : Int64) : LoopState := { now := now }

theorem lined_initial (now : Int64) : (initial now).schedule.Lined where
  perm _ := List.Perm.refl _
  made p hp := absurd hp List.not_mem_nil
  nodup := List.nodup_nil
  order := List.Pairwise.nil
  cross q hq := absurd hq List.not_mem_nil
  closed q hq := absurd hq List.not_mem_nil
  entered p hp := absurd hp List.not_mem_nil
  started e he := absurd he List.not_mem_nil
  waits := ⟨by rintro e ⟨⟩, List.Pairwise.nil, by rintro e ⟨⟩, by rintro e ⟨⟩⟩
  stopped left hleft := by cases hleft

/-- The thread leaves its loop when the queue is empty after a stop. -/
def Emptied (s : LoopState) : Prop := s.worker = .exited → s.phase ≠ .running ∧ s.ready = []

theorem Effect.emptied (h : Effect fit s s') (hs : Emptied s) : Emptied s' := by
  intro hw'
  cases h with
  | enter hr => exact absurd hr (hs hw').1
  | delay delay hr hfit => exact absurd hr (hs hw').1
  | stop mode left hr hleft => exact absurd hr (hs hw').1
  | join hphase hw => exact ⟨by rintro ⟨⟩, (hs hw').2⟩
  | notify n =>
    have hw : s.worker = .exited := by
      have hnotified : s.worker.notified = .exited := hw'
      cases hworker : s.worker with
      | exited => rfl
      | _ =>
        rw [hworker] at hnotified
        cases hnotified
    exact hs hw
  | exit hw hphase hready => exact ⟨hphase, hready⟩
  | idle | refuse answer | tick t hle => exact hs hw'
  | dequeue due rest task ready hw hdelayed hstopped hdue hready => cases hw'
  | sleep hw hr hready => cases hw'
  | call task hw => cases hw'
  | finish task hw => cases hw'
  | awake nextDue notified hw hwakes => cases hw'
  | slumber nextDue notified hw hwakes => cases hw'

/-- `pending_task_count`. -/
def pendingTaskCount (s : LoopState) : Nat := s.ready.length + s.delayed.length

/-- No task is started twice, or before one that is ahead of it, or early. The tasks that were not
started are in hand or pending, and after a stop those are started that it left. -/
structure InOrder (s : LoopState) : Prop where
  made : ∀ p ∈ s.started, p < s.posts.length
  once : s.started.Nodup
  order : s.started.Pairwise fun p q => ¬ Ahead s.posts q p
  closed : ∀ q ∈ s.started, ∀ p < s.posts.length, Ahead s.posts p q → p ∈ s.started
  notEarly : ∀ e ∈ s.starts, (postOf s.posts e.task).due ≤ e.time.toInt
  counted : s.phase = .running →
    s.posts.length = s.started.length + s.worker.inHand.length + pendingTaskCount s
  stopped : s.phase ≠ .running → ∃ left, s.limit = some left ∧ s.started <+: left ∧
    (s.worker = .exited → s.started = left)

theorem inOrder_of_lined (h : s.schedule.Lined) (hphased : Phased s) (hemptied : Emptied s) :
    InOrder s := by
  have hline : s.line = s.started ++ (s.worker.inHand ++ s.ready) := List.append_assoc ..
  have hsub : s.started.Sublist s.line := by
    rw [hline]
    exact List.sublist_append_left ..
  have horder : (s.started ++ (s.worker.inHand ++ s.ready)).Pairwise fun p q =>
    ¬ Ahead s.posts q p :=
    hline ▸ h.order
  obtain ⟨hstarted, -, hbehind⟩ := List.pairwise_append.mp horder
  refine
    { made := fun p hp => h.made p (hsub.subset hp)
      once := h.nodup.sublist hsub
      order := hstarted
      closed := fun q hq p hp hahead => ?_
      notEarly := fun e he => (h.started e he).2
      counted := fun hr => ?_
      stopped := fun hs => ?_ }
  · have hmem : p ∈ s.line := h.closed q (hsub.subset hq) p hp hahead
    rw [hline] at hmem
    rcases List.mem_append.mp hmem with hmem | hmem
    · exact hmem
    · exact absurd hahead (hbehind q hq p hmem)
  · have hlength := (h.perm (hphased.mpr hr)).length_eq
    rw [List.length_range, Schedule.waiting, List.length_append, List.length_map] at hlength
    have hlength' : s.line.length + s.delayed.length = s.posts.length := hlength
    rw [hline, List.length_append, List.length_append] at hlength'
    unfold pendingTaskCount
    omega
  · obtain ⟨left, hleft⟩ := Option.ne_none_iff_exists'.mp fun hnone => hs (hphased.mp hnone)
    obtain rfl : left = s.line := (h.stopped left hleft).2
    refine ⟨s.line, hleft, hline ▸ List.prefix_append .., fun hw => ?_⟩
    rw [hline, hw, (hemptied hw).2]
    exact (List.append_nil _).symm

theorem reach_lined {now : Int64} (h : Reach step (fun s a => fits s a = true) (initial now) s) :
    s.schedule.Lined ∧ Phased s ∧ Emptied s := by
  refine h.invariant (fun s => s.schedule.Lined ∧ Phased s ∧ Emptied s)
    ⟨lined_initial now, Iff.intro (fun _ => rfl) (fun _ => rfl), by rintro ⟨⟩⟩ ?_
  rintro s a s' ⟨hlined, hphased, hemptied⟩ hfit hstep
  have heffect : Effect True s s' := by
    have heffect := step_effect hstep
    rwa [hfit, eq_self_iff_true] at heffect
  exact ⟨(heffect.schedule hphased).lined hlined, heffect.phased hphased, heffect.emptied hemptied⟩

/-- **Tasks are run in order.** In every run in which the sums of the clock and the delays fit,
however the posts, the stops and the thread come about, each task is started at most once, after
those that are ahead of it, and not early; a stop leaves those in hand, one that drains also those
in the queue. -/
theorem tasks_in_order {now : Int64} (h : Reach step (fun s a => fits s a = true) (initial now) s) :
    InOrder s := by
  obtain ⟨hlined, hphased, hemptied⟩ := reach_lined h
  exact inOrder_of_lined hlined hphased hemptied

/-- A task without delay overtakes one whose time has not come. -/
theorem tasks_in_order_delay : ∃ s, InOrder s ∧ s.started = [1, 0] := by
  have hrun : (run step fits
      [.postDelayTask true 5, .postTask true, .look, .call, .finish, .tick 5000000, .look, .call]
      (initial 0)).any (fun s => s.started == [1, 0]) = true := by decide
  obtain ⟨s, hreach, hs⟩ := Reach.exists_of_run (fun _ _ h => h) hrun
  exact ⟨s, tasks_in_order hreach, beq_iff_eq.mp hs⟩

/-! ## Wakeups -/

/-- A thread in a wait that was not notified, when nothing is on its way, has nothing to do. -/
def Idle (s : LoopState) : Prop := ∀ nextDue, s.worker = .asleep nextDue false → s.notifying = 0 →
  s.phase = .running ∧ s.ready = [] ∧ ∀ due, nextDue = some due →
    s.delayed.head?.map DelayedTask.due = some due

theorem idle_of_not_wakes {nextDue : Option Int64} (h : wakes s nextDue = false) :
    s.phase = .running ∧ s.ready = [] ∧
      ∀ due, nextDue = some due → s.delayed.head?.map DelayedTask.due = some due := by
  cases nextDue with
  | none =>
    have h : (decide (s.phase ≠ .running) || !s.ready.isEmpty) = false := h
    simp only [Bool.or_eq_false_iff, decide_eq_false_iff_not, not_not, Bool.not_eq_false',
      List.isEmpty_iff] at h
    exact ⟨h.1, h.2, by rintro due ⟨⟩⟩
  | some t =>
    have h : (decide (s.phase ≠ .running) || !s.ready.isEmpty || s.delayed.isEmpty ||
      decide (s.delayed.head?.map DelayedTask.due ≠ some t)) = false := h
    simp only [Bool.or_eq_false_iff, decide_eq_false_iff_not, not_not, Bool.not_eq_false',
      List.isEmpty_iff] at h
    refine ⟨h.1.1.1, h.1.1.2, fun due heq => ?_⟩
    cases heq
    exact h.2

theorem Effect.wakes_idle (h : Effect fit s s') (hs : Idle s) : Idle s' := by
  intro nextDue hw' hnone
  cases h with
  | idle | refuse answer | tick t hle => exact hs nextDue hw' hnone
  | enter hr => exact absurd hnone (Nat.succ_ne_zero _)
  | delay delay hr hfit => exact absurd hnone (Nat.succ_ne_zero _)
  | stop mode left hr hleft => exact absurd hnone (Nat.succ_ne_zero _)
  | join hphase hw =>
    rw [show s.worker = _ from hw'] at hw
    cases hw
  | notify n =>
    have hnotified : s.worker.notified = .asleep nextDue false := hw'
    cases hw : s.worker with
    | asleep nextDue notified =>
      rw [hw] at hnotified
      cases hnotified
    | _ =>
      rw [hw] at hnotified
      cases hnotified
  | dequeue due rest task ready hw hdelayed hstopped hdue hready => cases hw'
  | exit hw hphase hready => cases hw'
  | sleep hw hr hready =>
    refine ⟨hr, hready, fun due heq => ?_⟩
    obtain rfl : s.delayed.head?.map DelayedTask.due = nextDue := (Worker.asleep.inj hw').1
    exact heq
  | call task hw => cases hw'
  | finish task hw => cases hw'
  | awake nextDue notified hw hwakes => cases hw'
  | slumber nextDue notified hw hwakes =>
    obtain rfl := (Worker.asleep.inj hw').1
    exact idle_of_not_wakes hwakes

/-- **No wakeup is lost.** In every run, a thread in a wait that was not notified, when no
notification is on its way, waits while the loop runs and the queue is empty, and a wait with an end
ends when the first of the set is due. -/
theorem no_wakeup_lost {now : Int64} (h : Reach step (fun _ _ => True) (initial now) s) : Idle s :=
  h.invariant Idle (by rintro nextDue ⟨⟩) fun _ _ _ hs _ hstep => (step_effect hstep).wakes_idle hs

/-- The thread waits for a delayed task, and the notification of its post has arrived. -/
theorem no_wakeup_lost_delay : ∃ s, Idle s ∧ s.worker = .asleep (some 5000000) false ∧
    s.notifying = 0 := by
  have hrun : (run step (fun _ _ => true) [.postDelayTask true 5, .notify, .look] (initial 0)).any
      (fun s => decide (s.worker = .asleep (some 5000000) false ∧ s.notifying = 0)) = true := by
        decide
  obtain ⟨s, hreach, hs⟩ := Reach.exists_of_run (fun _ _ _ => trivial) hrun
  exact ⟨s, no_wakeup_lost hreach, of_decide_eq_true hs⟩

/-! ## Sleeping through delayed tasks -/

/-- Nothing is posted without delay, and the loop is not stopped. -/
def quiet : Action → Bool
  | .postTask callable => !callable
  | .stop | .stopAndDrain => false
  | _ => true

/-- The tasks that wait for their time. -/
def LoopState.waiting (s : LoopState) : List Nat := s.delayed.map DelayedTask.run

/-- The thread is in a wait without an end, and tasks wait. -/
structure Forgotten (waiting : List Nat) (starts : List Start) (s : LoopState) : Prop where
  asleep : ∃ notified, s.worker = .asleep none notified
  running : s.phase = .running
  ready : s.ready = []
  starts : s.starts = starts
  waiting : ∀ p ∈ waiting, p ∈ s.waiting

theorem Forgotten.step {waiting : List Nat} {starts : List Start} {a : Action}
    (h : Forgotten waiting starts s) (hquiet : quiet a = true) (hstep : step s a = some s') :
    Forgotten waiting starts s' := by
  obtain ⟨⟨notified, hw⟩, hr, hready, hstarts, hwaiting⟩ := h
  have hwakes : wakes s none = false := by
    rw [wakes, hr, hready]
    rfl
  cases a with
  | tick t =>
    simp only [MessageLoop.step] at hstep
    split_ifs at hstep with hle
    cases hstep
    exact ⟨⟨notified, hw⟩, hr, hready, hstarts, hwaiting⟩
  | postTask callable =>
    cases hstep
    obtain rfl : callable = false := Bool.not_eq_true' callable ▸ hquiet
    exact ⟨⟨notified, hw⟩, hr, hready, hstarts, hwaiting⟩
  | postDelayTask callable delay =>
    cases hstep
    unfold enqueueDelay
    split_ifs with hcallable hphase
    · exact ⟨⟨notified, hw⟩, hr, hready, hstarts, hwaiting⟩
    · exact absurd hr hphase
    · refine ⟨⟨notified, hw⟩, hr, hready, hstarts, fun p hp => ?_⟩
      obtain ⟨e, he, rfl⟩ := List.mem_map.mp (hwaiting p hp)
      exact List.mem_map_of_mem (OrderedSet.mem_insert_of_mem he)
  | stop => cases hquiet
  | stopAndDrain => cases hquiet
  | join =>
    rw [MessageLoop.step, if_neg fun h => h.1 hr] at hstep
    cases hstep
  | notify =>
    simp only [MessageLoop.step] at hstep
    split_ifs at hstep with hnone
    cases hstep
    exact ⟨⟨true, congrArg Worker.notified hw⟩, hr, hready, hstarts, hwaiting⟩
  | look =>
    rw [MessageLoop.step, hw] at hstep
    cases hstep
  | call =>
    rw [MessageLoop.step, hw] at hstep
    cases hstep
  | finish =>
    rw [MessageLoop.step, hw] at hstep
    cases hstep
  | wake =>
    simp only [MessageLoop.step, hw, hwakes] at hstep
    cases hstep
    exact ⟨⟨false, rfl⟩, hr, hready, hstarts, hwaiting⟩
  | timeout =>
    rw [MessageLoop.step, hw] at hstep
    cases hstep

/-- **Delayed tasks are forgotten.** A thread that fell asleep while no task waited sleeps through
all that are posted with a delay: however late it gets and however often it is notified, no task is
started until one is posted without delay or the loop is stopped. -/
theorem delayed_task_forgotten {now : Int64} {notified : Bool}
    (h : Reach step (fun s a => fits s a = true) (initial now) s)
    (hasleep : s.worker = .asleep none notified) (hrunning : s.phase = .running)
    (hready : s.ready = []) (h' : Reach step (fun _ a => quiet a = true) s s') :
    s'.starts = s.starts ∧ (∃ notified', s'.worker = .asleep none notified') ∧
      (∀ p ∈ s.waiting, p ∈ s'.waiting ∧ p ∉ s'.started) ∧
      ∀ p, s.posts.length ≤ p → p ∉ s'.started := by
  have hforgotten : Forgotten s.waiting s.starts s' :=
    h'.invariant (Forgotten s.waiting s.starts) ⟨⟨notified, hasleep⟩, hrunning, hready, rfl,
      fun _ => id⟩
      fun _ _ _ hs hquiet hstep => hs.step hquiet hstep
  have hstarted : s'.started = s.started := congrArg (List.map Start.task) hforgotten.starts
  obtain ⟨hlined, hphased, hemptied⟩ := reach_lined h
  refine ⟨hforgotten.starts, hforgotten.asleep, fun p hp =>
    ⟨hforgotten.waiting p hp, fun hp' => ?_⟩, fun p hle hp => ?_⟩
  · -- a task is in the line or waits
    have hnodup := (hlined.perm (hphased.mpr hrunning)).nodup_iff.mpr List.nodup_range
    have hline : p ∈ s.line := List.mem_append_left _ (List.mem_append_left _ (hstarted ▸ hp'))
    exact (List.nodup_append.mp hnodup).2.2 p hline p hp rfl
  · have hlt := (inOrder_of_lined hlined hphased hemptied).made p (hstarted ▸ hp)
    omega

/-- A task for 80 milliseconds, an hour later. -/
theorem delayed_task_forgotten_hour : ∃ s,
    s.now = 3600000000000 ∧ (∃ e ∈ s.delayed, e.run = 0 ∧ e.due ≤ s.now) ∧
      ∀ s', Reach step (fun _ a => quiet a = true) s s' →
        s'.starts = [] ∧ 0 ∈ s'.waiting ∧ 0 ∉ s'.started := by
  have hrun : (run step fits [.look, .postDelayTask true 80, .tick 3600000000000, .notify, .wake]
      (initial 0)).any (fun s => decide (s.worker = .asleep none false ∧ s.phase = .running ∧
        s.ready = [] ∧ s.now = 3600000000000 ∧ s.delayed = [⟨80000000, 1, 0⟩] ∧
        s.started = [])) = true := by
    decide
  obtain ⟨s, hreach, hs⟩ := Reach.exists_of_run (fun _ _ h => h) hrun
  obtain ⟨hasleep, hrunning, hready, hnow, hdelayed, hstarted⟩ := of_decide_eq_true hs
  refine ⟨s, hnow, ⟨_, hdelayed ▸ List.mem_singleton_self _, rfl, hnow ▸ by decide⟩, fun s' h' =>
    ?_⟩
  obtain ⟨hstarts, -, hwaiting, -⟩ := delayed_task_forgotten hreach hasleep hrunning hready h'
  refine ⟨hstarts.trans (List.map_eq_nil_iff.mp hstarted), hwaiting 0 ?_⟩
  rw [LoopState.waiting, hdelayed]
  exact List.mem_singleton_self 0

end Libca.Thread.MessageLoop
