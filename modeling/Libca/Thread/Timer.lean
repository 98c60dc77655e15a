import Libca.Common.OrderedSet
import Libca.Common.Run
import Libca.Thread.Clock

/-!
# `TimerManager` (`thread/timer.cpp` 17-193)

Timers are kept in a set ordered by their time and their id; a thread takes the first out when it is
due, calls it outside the lock, and puts a repeating one back. A section under the lock is one step,
and so are the start and the end of a callback. The clock goes on between the steps. The waits of
the thread end at any time: it looks at the set again.

Left out: exceptions of callbacks.

* `step`, `Effect`, `step_effect`: the steps, and what each of them does.
* `Placed`: the set is in order, and has no timer that was cancelled or is out for a callback.
* `Timed`, `Once`: when timers are due, and how often they were started.
* `timers_fire`: in every run in which the sums of clock values and delays fit, no callback starts
  early, and none after a cancel or the destructor.
* `not_timers_fire`: a delay that overflows makes a timer due at once.
-/

namespace Libca.Thread.Timer

open Common Function

/-- A `TimerEntry`. The last two are not in the source: the delay that was asked for, and the time
from which it counts. -/
structure TimerEntry where
  id : Nat := 0
  expiry : Int64 := 0
  period : Int64 := 0
  repeating : Bool := false
  cancelled : Bool := false
  delay : Int64 := 0
  base : Int64 := 0

/-- Where the thread is: in front of its loop, with a timer that it took out and whether it was
cancelled, in the callback, behind it with what it returned, or behind its loop. -/
inductive Worker
  | checking
  | dequeued (p : Nat) (cancelled : Bool)
  | calling (p : Nat)
  | returned (p : Nat) (reschedule : Bool)
  | exited
deriving DecidableEq, Repr

/-- Where the destructor is: not called, behind its section, or back. -/
inductive Teardown
  | none
  | joining
  | returned
deriving DecidableEq, Repr

/-- The start of a callback. -/
structure Start where
  timer : Nat
  time : Int64
  base : Int64
  delay : Int64

/-- `TimerState` with the clock, the entries that were made (a pointer is the number of its entry),
the thread and the destructor. The last two are not in the source: the handles that calls returned,
and the starts of the callbacks. -/
structure TimerState where
  now : Int64
  entries : Nat → TimerEntry := fun _ => {}
  created : Nat := 0
  timers : List Nat := []
  nextId : Nat := 1
  shutdown : Bool := false
  worker : Worker := .checking
  teardown : Teardown := .none
  handles : List (Option Nat) := []
  starts : List Start := []

/-- `TimerEntryComparator`. -/
def before (entries : Nat → TimerEntry) (lhs rhs : Nat) : Bool :=
  earlier (entries lhs).expiry (entries lhs).id (entries rhs).expiry (entries rhs).id

/-! ## The steps -/

inductive Action
  | tick (t : Int64)
  | scheduleOnce (callback : Bool) (delay : Int64)
  | scheduleRepeating (callback : Bool) (period : Int64)
  | cancel (p : Nat)
  | check
  | call
  | finish (again : Bool)
  | requeue
  | destroy
  | join
deriving DecidableEq

/-- `add_timer`; `usize` has 64 bits. -/
def addTimer (s : TimerState) (delay : Int64) (repeating : Bool) : TimerState :=
  if s.shutdown then { s with handles := s.handles ++ [none] }
  else
    let entries := update s.entries s.created
      { id := s.nextId
        expiry := after s.now (positivePart delay)
        period := if repeating then delay else 0
        repeating := repeating
        delay := delay
        base := s.now }
    { s with
      entries := entries
      created := s.created + 1
      timers := OrderedSet.insert (before entries) s.created s.timers
      nextId := (s.nextId + 1) % 2 ^ 64
      handles := s.handles ++ [some s.created] }

/-- `TimerHandle::cancel`; the state is gone when the destructor has returned. -/
def cancelTimer (s : TimerState) (p : Nat) : TimerState :=
  if s.teardown = .returned then s
  else if (s.entries p).cancelled then s
  else
    { s with
      entries := update s.entries p { s.entries p with cancelled := true }
      timers := OrderedSet.erase (before s.entries) p s.timers }

/-- The loop of the thread up to the callback. -/
def checkTimers (s : TimerState) : TimerState :=
  if s.shutdown then { s with worker := .exited }
  else
    match s.timers with
    | [] => s
    | current :: timers =>
      if (s.entries current).expiry > s.now then s
      else { s with timers := timers, worker := .dequeued current (s.entries current).cancelled }

/-- The callback begins, unless the timer was cancelled before it was taken out. -/
def callTimer (s : TimerState) (p : Nat) (cancelled : Bool) : TimerState :=
  if cancelled then { s with worker := .returned p false }
  else
    { s with
      worker := .calling p
      starts := s.starts ++
        [{ timer := p, time := s.now, base := (s.entries p).base, delay := (s.entries p).delay }] }

/-- The callback ends; that of `schedule_once` returns false. -/
def finishTimer (s : TimerState) (p : Nat) (again : Bool) : TimerState :=
  { s with
    entries := update s.entries p { s.entries p with base := s.now }
    worker := .returned p ((s.entries p).repeating && again) }

/-- The loop of the thread behind the callback. -/
def requeueTimer (s : TimerState) (p : Nat) (reschedule : Bool) : TimerState :=
  if (s.entries p).repeating && reschedule && !(s.entries p).cancelled then
    let entries := update s.entries p
      { s.entries p with expiry := after s.now (s.entries p).period }
    { s with
      entries := entries
      timers := OrderedSet.insert (before entries) p s.timers
      worker := .checking }
  else { s with worker := .checking }

def step (s : TimerState) : Action → Option TimerState
  | .tick t => if s.now ≤ t then some { s with now := t } else none
  | .scheduleOnce callback delay =>
    if s.teardown = .returned then none
    else if callback then some (addTimer s delay false)
    else some { s with handles := s.handles ++ [none] }
  | .scheduleRepeating callback period =>
    if s.teardown = .returned then none
    else if callback = false ∨ period ≤ 0 then some { s with handles := s.handles ++ [none] }
    else some (addTimer s period true)
  | .cancel p => if p < s.created then some (cancelTimer s p) else none
  | .check => if s.worker = .checking then some (checkTimers s) else none
  | .call =>
    match s.worker with
    | .dequeued p cancelled => some (callTimer s p cancelled)
    | _ => none
  | .finish again =>
    match s.worker with
    | .calling p => some (finishTimer s p again)
    | _ => none
  | .requeue =>
    match s.worker with
    | .returned p reschedule => some (requeueTimer s p reschedule)
    | _ => none
  | .destroy =>
    if s.teardown = .none then
      some { s with shutdown := true, timers := [], teardown := .joining }
    else none
  | .join =>
    if s.teardown = .joining ∧ s.worker = .exited then some { s with teardown := .returned }
    else none

/-- The sums that a step makes of the clock and a delay fit. -/
def fits (s : TimerState) : Action → Bool
  | .scheduleOnce true delay => s.shutdown || decide (Fits s.now (positivePart delay))
  | .scheduleRepeating true period =>
    s.shutdown || decide (period ≤ 0) || decide (Fits s.now period)
  | .requeue =>
    match s.worker with
    | .returned p true => (s.entries p).cancelled || decide (Fits s.now (s.entries p).period)
    | _ => true
  | _ => true

/-! ## What a step does -/

/-- The effects of the steps; `fit` says that the sums fit. -/
inductive Effect (fit : Prop) (s : TimerState) : TimerState → Prop
  | idle : Effect fit s s
  | refuse : Effect fit s { s with handles := s.handles ++ [none] }
  | tick (t : Int64) : s.now ≤ t → Effect fit s { s with now := t }
  | add (e : TimerEntry) (timers : List Nat) (nextId : Nat) (handles : List (Option Nat)) :
      s.shutdown = false → e.cancelled = false → e.base = s.now →
      e.expiry = after s.now (positivePart e.delay) →
      (e.repeating = true → e.period = e.delay ∧ e.delay > 0) →
      (fit → Fits s.now (positivePart e.delay)) →
      timers = OrderedSet.insert (before (update s.entries s.created e)) s.created s.timers →
      Effect fit s { s with
        entries := update s.entries s.created e
        created := s.created + 1
        timers := timers
        nextId := nextId
        handles := handles }
  | cancel (p : Nat) : p < s.created →
      Effect fit s { s with
        entries := update s.entries p { s.entries p with cancelled := true }
        timers := OrderedSet.erase (before s.entries) p s.timers }
  | exit : s.worker = .checking → s.shutdown = true → Effect fit s { s with worker := .exited }
  | dequeue (p : Nat) (timers : List Nat) : s.worker = .checking → s.timers = p :: timers →
      (s.entries p).expiry ≤ s.now →
      Effect fit s { s with timers := timers, worker := .dequeued p (s.entries p).cancelled }
  | skip (p : Nat) : s.worker = .dequeued p true →
    Effect fit s { s with worker := .returned p false }
  | call (p : Nat) : s.worker = .dequeued p false →
      Effect fit s { s with
        worker := .calling p
        starts := s.starts ++
          [{ timer := p, time := s.now, base := (s.entries p).base, delay := (s.entries p).delay }]
            }
  | finish (p : Nat) (again : Bool) : s.worker = .calling p →
      Effect fit s { s with
        entries := update s.entries p { s.entries p with base := s.now }
        worker := .returned p again }
  | requeue (p : Nat) (timers : List Nat) : s.worker = .returned p true →
      (s.entries p).repeating = true → (s.entries p).cancelled = false →
      (fit → Fits s.now (s.entries p).period) →
      timers = OrderedSet.insert (before (update s.entries p
        { s.entries p with expiry := after s.now (s.entries p).period })) p s.timers →
      Effect fit s { s with
        entries := update s.entries p
          { s.entries p with expiry := after s.now (s.entries p).period }
        timers := timers
        worker := .checking }
  | drop (p : Nat) (reschedule : Bool) : s.worker = .returned p reschedule →
      Effect fit s { s with worker := .checking }
  | destroy : Effect fit s { s with shutdown := true, timers := [], teardown := .joining }
  | join : s.worker = .exited → Effect fit s { s with teardown := .returned }

variable {s s' : TimerState}

theorem positivePart_of_pos {delay : Int64} (h : delay > 0) : positivePart delay = delay := if_pos h

variable {fit : Prop}

theorem addTimer_effect {delay : Int64} {repeating : Bool} (h : repeating = true → delay > 0)
    (hfit : fit → s.shutdown = true ∨ Fits s.now (positivePart delay)) :
    Effect fit s (addTimer s delay repeating) := by
  unfold addTimer
  by_cases hshutdown : s.shutdown = true
  · rw [if_pos hshutdown]
    exact .refuse
  · rw [if_neg hshutdown]
    refine .add _ _ _ _ (Bool.eq_false_iff.mpr hshutdown) rfl rfl rfl ?_
      (fun hf => (hfit hf).resolve_left hshutdown) rfl
    rintro rfl
    exact ⟨rfl, h rfl⟩

theorem checkTimers_effect (hw : s.worker = .checking) : Effect fit s (checkTimers s) := by
  unfold checkTimers
  split_ifs with hshutdown
  · exact .exit hw hshutdown
  · cases htimers : s.timers with
    | nil => exact .idle
    | cons p timers =>
      simp only
      split_ifs with hdue
      · exact .idle
      · exact .dequeue p timers hw htimers (Int64.not_lt.mp hdue)

/-- **What a step does.** -/
theorem step_effect {a : Action} (h : step s a = some s') : Effect (fits s a = true) s s' := by
  cases a with
  | tick t =>
    simp only [step] at h
    split_ifs at h with hle
    cases h
    exact .tick t hle
  | scheduleOnce callback delay =>
    have hgone : s.teardown ≠ .returned := fun hgone => by
      simp only [step, if_pos hgone] at h
      cases h
    simp only [step, if_neg hgone] at h
    by_cases hcallback : callback = true
    · rw [if_pos hcallback] at h
      cases h
      subst hcallback
      refine addTimer_effect (by rintro ⟨⟩) fun hfit => ?_
      have hfit : (s.shutdown || decide (Fits s.now (positivePart delay))) = true := hfit
      exact ((Bool.or_eq_true _ _).mp hfit).imp_right of_decide_eq_true
    · rw [if_neg hcallback] at h
      cases h
      exact .refuse
  | scheduleRepeating callback period =>
    have hgone : s.teardown ≠ .returned := fun hgone => by
      simp only [step, if_pos hgone] at h
      cases h
    simp only [step, if_neg hgone] at h
    by_cases hrefused : callback = false ∨ period ≤ 0
    · rw [if_pos hrefused] at h
      cases h
      exact .refuse
    · rw [if_neg hrefused] at h
      cases h
      have hpos : period > 0 := Int64.not_le.mp fun hle => hrefused (.inr hle)
      obtain rfl : callback = true := by
        cases callback with
        | false => exact absurd (.inl rfl) hrefused
        | true => rfl
      refine addTimer_effect (fun _ => hpos) fun hfit => ?_
      rw [positivePart_of_pos hpos]
      have hfit : (s.shutdown || decide (period ≤ 0) || decide (Fits s.now period)) = true := hfit
      rw [decide_eq_false (Int64.not_le.mpr hpos), Bool.or_false] at hfit
      exact ((Bool.or_eq_true _ _).mp hfit).imp_right of_decide_eq_true
  | cancel p =>
    simp only [step] at h
    split_ifs at h with hlt
    cases h
    unfold cancelTimer
    split_ifs with hgone hcancelled
    · exact .idle
    · exact .idle
    · exact .cancel p hlt
  | check =>
    simp only [step] at h
    split_ifs at h with hw
    cases h
    exact checkTimers_effect hw
  | call =>
    simp only [step] at h
    cases hw : s.worker with
    | dequeued p cancelled =>
      rw [hw] at h
      cases h
      cases cancelled with
      | true => exact .skip p hw
      | false => exact .call p hw
    | _ =>
      rw [hw] at h
      cases h
  | finish again =>
    simp only [step] at h
    cases hw : s.worker with
    | calling p =>
      rw [hw] at h
      cases h
      exact .finish p _ hw
    | _ =>
      rw [hw] at h
      cases h
  | requeue =>
    simp only [step] at h
    cases hw : s.worker with
    | returned p reschedule =>
      rw [hw] at h
      cases h
      unfold requeueTimer
      by_cases hagain : ((s.entries p).repeating && reschedule && !(s.entries p).cancelled) = true
      · rw [if_pos hagain]
        simp only [Bool.and_eq_true, Bool.not_eq_true'] at hagain
        obtain ⟨⟨hrepeating, rfl⟩, hcancelled⟩ := hagain
        refine .requeue p _ hw hrepeating hcancelled (fun hfit => ?_) rfl
        unfold fits at hfit
        rw [hw] at hfit
        have hfit : ((s.entries p).cancelled || decide (Fits s.now (s.entries p).period)) = true :=
          hfit
        rw [hcancelled, Bool.false_or] at hfit
        exact decide_eq_true_iff.mp hfit
      · rw [if_neg hagain]
        exact .drop p reschedule hw
    | _ =>
      rw [hw] at h
      cases h
  | destroy =>
    simp only [step] at h
    split_ifs at h with hnone
    cases h
    exact .destroy
  | join =>
    simp only [step] at h
    split_ifs at h with hexited
    cases h
    exact .join hexited.2

/-! ## The set -/

/-- The timer that the thread took out. -/
def Worker.timer : Worker → Option Nat
  | .dequeued p _ | .calling p | .returned p _ => some p
  | _ => none

theorem before_strictOrder (entries : Nat → TimerEntry) :
    OrderedSet.StrictOrder (before entries) where
  irrefl := fun _ => earlier_irrefl _ _
  trans := earlier_trans

variable {entries : Nat → TimerEntry} {timers : List Nat} {p : Nat}

/-- A timer in the set is another than one that is not. -/
theorem update_of_mem {q : Nat} (hp : p ∉ timers)
    (hq : q ∈ timers) (e : TimerEntry) : update entries p e q = entries q :=
  update_of_ne (by rintro rfl; exact hp hq) e entries

variable {e : TimerEntry}

/-- One entry changes. -/
theorem update_all {P : TimerEntry → Prop} (h : ∀ q, P (entries q))
    (he : P e) (p q : Nat) : P (update entries p e q) := by
  by_cases heq : q = p
  · subst heq
    rw [update_self]
    exact he
  · rw [update_of_ne heq]
    exact h q

/-- One entry changes, but not in what is looked at. -/
theorem update_congr {β : Type} (f : TimerEntry → β) (he : f e = f (entries p)) (q : Nat) :
    f (update entries p e q) = f (entries q) := by
  by_cases heq : q = p
  · subst heq
    rw [update_self]
    exact he
  · rw [update_of_ne heq]

/-- A timer that changes and is not in the set. -/
theorem sorted_update
    (h : OrderedSet.Sorted (before entries) timers) (hp : p ∉ timers) (e : TimerEntry) :
    OrderedSet.Sorted (before (update entries p e)) timers := by
  refine h.congr fun a ha b hb => ?_
  rw [before, before, update_of_mem hp ha, update_of_mem hp hb]

/-- A timer that keeps its key. -/
theorem sorted_update_of_key (h : OrderedSet.Sorted (before entries) timers)
    (hexpiry : e.expiry = (entries p).expiry) (hid : e.id = (entries p).id) :
    OrderedSet.Sorted (before (update entries p e)) timers := by
  refine h.congr fun a ha b hb => ?_
  rw [before, before, update_congr TimerEntry.expiry hexpiry,
    update_congr TimerEntry.expiry hexpiry,
    update_congr TimerEntry.id hid, update_congr TimerEntry.id hid]

/-- A repeating timer was scheduled with its period. -/
def TimerEntry.Periodic (e : TimerEntry) : Prop :=
  e.repeating = true → e.period = e.delay ∧ e.delay > 0

/-- The set is in order, and a timer that was cancelled, or that the thread took out, is not in it.
-/
structure Placed (s : TimerState) : Prop where
  timers_made : ∀ p ∈ s.timers, p < s.created
  worker_made : ∀ p, s.worker.timer = some p → p < s.created
  starts_made : ∀ e ∈ s.starts, e.timer < s.created
  sorted : OrderedSet.Sorted (before s.entries) s.timers
  out : ∀ p, s.worker.timer = some p → p ∉ s.timers
  running : ∀ p ∈ s.timers, (s.entries p).cancelled = false
  periodic : ∀ p, (s.entries p).Periodic
  torn : s.teardown = .returned → s.worker = .exited

theorem Effect.placed (h : Effect fit s s') (hs : Placed s) : Placed s' := by
  obtain ⟨htimers, hworker, hstarts, hsorted, hout, hrunning, hperiodic, htorn⟩ := hs
  cases h with
  | idle => exact ⟨htimers, hworker, hstarts, hsorted, hout, hrunning, hperiodic, htorn⟩
  | refuse => exact ⟨htimers, hworker, hstarts, hsorted, hout, hrunning, hperiodic, htorn⟩
  | tick t hle => exact ⟨htimers, hworker, hstarts, hsorted, hout, hrunning, hperiodic, htorn⟩
  | add e timers nextId handles hopen hnew hbase hexpiry hrepeating hfit htimers' =>
    subst htimers'
    have hnot : s.created ∉ s.timers := fun hmem => Nat.lt_irrefl _ (htimers _ hmem)
    refine
      { timers_made := fun p hp => ?_
        worker_made := fun p hp => Nat.lt_succ_of_lt (hworker p hp)
        starts_made := fun e he => Nat.lt_succ_of_lt (hstarts e he)
        sorted := OrderedSet.sorted_insert (before_strictOrder _) (sorted_update hsorted hnot e)
        out := fun p hp hin => ?_
        running := fun p hp => ?_
        periodic := update_all hperiodic hrepeating s.created
        torn := htorn }
    · rcases OrderedSet.mem_insert hp with rfl | hp
      · exact Nat.lt_succ_self _
      · exact Nat.lt_succ_of_lt (htimers p hp)
    · rcases OrderedSet.mem_insert hin with rfl | hin
      · exact Nat.lt_irrefl _ (hworker _ hp)
      · exact hout p hp hin
    · show (update s.entries s.created e p).cancelled = false
      rcases OrderedSet.mem_insert hp with rfl | hp
      · rw [update_self, hnew]
      · rw [update_of_mem hnot hp]
        exact hrunning p hp
  | cancel p hlt =>
    have hmem : ∀ q ∈ OrderedSet.erase (before s.entries) p s.timers, q ∈ s.timers :=
      fun q hq => OrderedSet.erase_sublist.subset hq
    refine
      { timers_made := fun q hq => htimers q (hmem q hq)
        worker_made := hworker
        starts_made := hstarts
        sorted := sorted_update_of_key (OrderedSet.sorted_erase hsorted) rfl rfl
        out := fun q hq hin => hout q hq (hmem q hin)
        running := fun q hq => ?_
        periodic := update_all hperiodic (by exact hperiodic p) p
        torn := htorn }
    show (update s.entries p _ q).cancelled = false
    rw [update_of_mem (OrderedSet.not_mem_erase (before_strictOrder _) hsorted) hq]
    exact hrunning q (hmem q hq)
  | exit hw hshutdown =>
    exact ⟨htimers, (by rintro p ⟨⟩), hstarts, hsorted, (by rintro p ⟨⟩), hrunning, hperiodic,
      fun _ => rfl⟩
  | dequeue p timers hw hhead hdue =>
    rw [hhead] at htimers hsorted hrunning
    have hnodup := hsorted.nodup (before_strictOrder _)
    refine
      { timers_made := fun q hq => htimers q (List.mem_cons_of_mem p hq)
        worker_made := fun q hq => ?_
        starts_made := hstarts
        sorted := (List.pairwise_cons.mp hsorted).2
        out := fun q hq => ?_
        running := fun q hq => hrunning q (List.mem_cons_of_mem p hq)
        periodic := hperiodic
        torn := fun ht => ?_ }
    · obtain rfl := Option.some.inj hq
      exact htimers p (.head _)
    · obtain rfl := Option.some.inj hq
      exact (List.nodup_cons.mp hnodup).1
    · rw [htorn ht] at hw
      cases hw
  | skip p hw =>
    rw [hw] at hworker hout htorn
    exact ⟨htimers, hworker, hstarts, hsorted, hout, hrunning, hperiodic, fun ht =>
      by cases htorn ht⟩
  | call p hw =>
    rw [hw] at hworker hout htorn
    refine ⟨htimers, hworker, fun e he => ?_, hsorted, hout, hrunning, hperiodic,
      fun ht => by cases htorn ht⟩
    rcases List.mem_append.mp he with he | he
    · exact hstarts e he
    · rw [List.mem_singleton.mp he]
      exact hworker p rfl
  | finish p again hw =>
    rw [hw] at hworker hout htorn
    refine
      { timers_made := htimers
        worker_made := hworker
        starts_made := hstarts
        sorted := sorted_update_of_key hsorted rfl rfl
        out := hout
        running := fun q hq => ?_
        periodic := update_all hperiodic (by exact hperiodic p) p
        torn := fun ht => by cases htorn ht }
    show (update s.entries p _ q).cancelled = false
    rw [update_of_mem (hout p rfl) hq]
    exact hrunning q hq
  | requeue p timers hw hrepeating hnot hfit htimers' =>
    subst htimers'
    rw [hw] at hworker hout htorn
    refine
      { timers_made := fun q hq => ?_
        worker_made := by rintro q ⟨⟩
        starts_made := hstarts
        sorted :=
          OrderedSet.sorted_insert (before_strictOrder _) (sorted_update hsorted (hout p rfl) _)
        out := by rintro q ⟨⟩
        running := fun q hq => ?_
        periodic := update_all hperiodic (fun hrep => by exact hperiodic p hrep) p
        torn := fun ht => by cases htorn ht }
    · rcases OrderedSet.mem_insert hq with rfl | hq
      · exact hworker q rfl
      · exact htimers q hq
    · show (update s.entries p _ q).cancelled = false
      rcases OrderedSet.mem_insert hq with rfl | hq
      · rw [update_self]
        exact hnot
      · rw [update_of_mem (hout p rfl) hq]
        exact hrunning q hq
  | drop p reschedule hw =>
    rw [hw] at htorn
    exact ⟨htimers, (by rintro q ⟨⟩), hstarts, hsorted, (by rintro q ⟨⟩), hrunning, hperiodic,
      fun ht => by cases htorn ht⟩
  | destroy =>
    exact ⟨(by rintro p ⟨⟩), hworker, hstarts, List.Pairwise.nil, (by rintro p _ ⟨⟩),
      (by rintro p ⟨⟩), hperiodic, (by rintro ⟨⟩)⟩
  | join hw => exact ⟨htimers, hworker, hstarts, hsorted, hout, hrunning, hperiodic, fun _ => hw⟩

/-! ## When timers are due -/

/-- The time from which the timer may be called. -/
def TimerEntry.due (e : TimerEntry) : Int := exactAfter e.base e.delay

/-- No timer is in the set for an earlier time, or was taken out before its time. -/
structure Timed (s : TimerState) : Prop where
  set : ∀ p ∈ s.timers, (s.entries p).due ≤ (s.entries p).expiry.toInt
  dequeued : ∀ p c, s.worker = .dequeued p c → (s.entries p).due ≤ s.now.toInt
  returned : ∀ p, s.worker = .returned p true → (s.entries p).base.toInt ≤ s.now.toInt
  starts : ∀ e ∈ s.starts, exactAfter e.base e.delay ≤ e.time.toInt

theorem due_le_expiry_of_add {now : Int64} (hbase : e.base = now)
    (hexpiry : e.expiry = after now (positivePart e.delay))
    (hfit : Fits now (positivePart e.delay)) :
    e.due ≤ e.expiry.toInt := by
  have hpart := toInt_positivePart e.delay
  rw [hexpiry, toInt_after (by omega) hfit, TimerEntry.due, hbase, exactAfter, exactAfter, hpart]
  omega

theorem due_le_after_period {now : Int64} (hperiodic : e.Periodic)
    (hrepeating : e.repeating = true) (hbase : e.base.toInt ≤ now.toInt)
    (hfit : Fits now e.period) :
    exactAfter e.base e.delay ≤ (after now e.period).toInt := by
  obtain ⟨hperiod, hpos⟩ := hperiodic hrepeating
  rw [hperiod] at hfit ⊢
  have hnonneg : (0 : Int64).toInt < e.delay.toInt := Int64.lt_iff_toInt_lt.mp hpos
  rw [Int64.toInt_zero] at hnonneg
  rw [toInt_after (Int.le_of_lt hnonneg) hfit, exactAfter, exactAfter]
  omega

theorem Effect.timed (h : Effect True s s') (hp : Placed s) (hs : Timed s) : Timed s' := by
  obtain ⟨hset, hdequeued, hreturned, hstarts⟩ := hs
  cases h with
  | idle => exact ⟨hset, hdequeued, hreturned, hstarts⟩
  | refuse => exact ⟨hset, hdequeued, hreturned, hstarts⟩
  | tick t hle =>
    have hle := Int64.le_iff_toInt_le.mp hle
    exact ⟨hset, fun p c hw => Int.le_trans (hdequeued p c hw) hle,
      fun p hw => Int.le_trans (hreturned p hw) hle, hstarts⟩
  | add e timers nextId handles hopen hnew hbase hexpiry hrepeating hfit htimers' =>
    subst htimers'
    have hold : ∀ p, p < s.created → update s.entries s.created e p = s.entries p :=
      fun p hlt => update_of_ne (Nat.ne_of_lt hlt) _ _
    refine ⟨fun p hmem => ?_, fun p c hw => ?_, fun p hw => ?_, hstarts⟩
    · show (update s.entries s.created e p).due ≤ (update s.entries _ e p).expiry.toInt
      rcases OrderedSet.mem_insert hmem with rfl | hmem
      · rw [update_self]
        exact due_le_expiry_of_add hbase hexpiry (hfit trivial)
      · rw [hold p (hp.timers_made p hmem)]
        exact hset p hmem
    · show (update s.entries s.created e p).due ≤ _
      rw [hold p (hp.worker_made p (by rw [show s.worker = _ from hw]; rfl))]
      exact hdequeued p c hw
    · show (update s.entries s.created e p).base.toInt ≤ _
      rw [hold p (hp.worker_made p (by rw [show s.worker = _ from hw]; rfl))]
      exact hreturned p hw
  | cancel p hlt =>
    refine ⟨fun q hmem => ?_, fun q c hw => ?_, fun q hw => ?_, hstarts⟩
    · rw [update_congr TimerEntry.due (by rfl), update_congr TimerEntry.expiry (by rfl)]
      exact hset q (OrderedSet.erase_sublist.subset hmem)
    · rw [update_congr TimerEntry.due (by rfl)]
      exact hdequeued q c hw
    · rw [update_congr TimerEntry.base (by rfl)]
      exact hreturned q hw
  | exit hw hshutdown => exact ⟨hset, (by rintro p c ⟨⟩), (by rintro p ⟨⟩), hstarts⟩
  | dequeue p timers hw hhead hdue =>
    rw [hhead] at hset
    refine ⟨fun q hmem => hset q (List.mem_cons_of_mem p hmem), fun q c hq => ?_, (by rintro q ⟨⟩),
      hstarts⟩
    cases hq
    exact Int.le_trans (hset p (.head _)) (Int64.le_iff_toInt_le.mp hdue)
  | skip p hw => exact ⟨hset, (by rintro q c ⟨⟩), (by rintro q ⟨⟩), hstarts⟩
  | call p hw =>
    refine ⟨hset, (by rintro q c ⟨⟩), (by rintro q ⟨⟩), fun e hmem => ?_⟩
    rcases List.mem_append.mp hmem with hmem | hmem
    · exact hstarts e hmem
    · rw [List.mem_singleton.mp hmem]
      exact hdequeued p false hw
  | finish p again hw =>
    have hout : p ∉ s.timers := hp.out p (by rw [hw]; rfl)
    refine ⟨fun q hmem => ?_, (by rintro q c ⟨⟩), fun q hq => ?_, hstarts⟩
    · show (update s.entries p _ q).due ≤ (update s.entries p _ q).expiry.toInt
      rw [update_of_mem hout hmem]
      exact hset q hmem
    · cases hq
      show (update s.entries p _ p).base.toInt ≤ _
      exact Int.le_of_eq (by rw [update_self])
  | requeue p timers hw hrepeating hnot hfit htimers' =>
    subst htimers'
    have hout : p ∉ s.timers := hp.out p (by rw [hw]; rfl)
    refine ⟨fun q hmem => ?_, (by rintro q c ⟨⟩), (by rintro q ⟨⟩), hstarts⟩
    show (update s.entries p _ q).due ≤ (update s.entries p _ q).expiry.toInt
    rcases OrderedSet.mem_insert hmem with rfl | hmem
    · rw [update_self]
      have hexpiry := due_le_after_period (hp.periodic q) hrepeating (hreturned q hw) (hfit trivial)
      exact hexpiry
    · rw [update_of_mem hout hmem]
      exact hset q hmem
  | drop p reschedule hw => exact ⟨hset, (by rintro q c ⟨⟩), (by rintro q ⟨⟩), hstarts⟩
  | destroy => exact ⟨(by rintro p ⟨⟩), hdequeued, hreturned, hstarts⟩
  | join hw => exact ⟨hset, hdequeued, hreturned, hstarts⟩

/-! ## How often timers are called -/

/-- How often the callback of a timer was started. -/
def calls (s : TimerState) (p : Nat) : Nat := s.starts.countP fun e => e.timer == p

/-- Whether the thread took a timer out and did not call it yet. -/
def pending (s : TimerState) (p : Nat) : Nat := if s.worker = .dequeued p false then 1 else 0

theorem pending_eq_zero (h : s.worker ≠ .dequeued p false) : pending s p = 0 := if_neg h

theorem calls_eq_zero (hp : Placed s) (h : s.created ≤ p) : calls s p = 0 := by
  rw [calls, List.countP_eq_zero]
  intro e hmem heq
  rw [beq_iff_eq] at heq
  exact Nat.lt_irrefl p (Nat.lt_of_lt_of_le (heq ▸ hp.starts_made e hmem) h)

theorem pending_le_one (s : TimerState) (p : Nat) : pending s p ≤ 1 := by
  unfold pending
  split_ifs
  · exact Nat.le_refl 1
  · exact Nat.zero_le 1

theorem calls_congr (h : s'.starts = s.starts) (p : Nat) : calls s' p = calls s p := by
  rw [calls, calls, h]

theorem pending_congr (h : s'.worker = s.worker) (p : Nat) : pending s' p = pending s p := by
  rw [pending, pending, h]

/-- Nothing happens to the callbacks. -/
theorem calls_add_pending_le (hstarts : s'.starts = s.starts) (hworker : s'.worker = s.worker)
    (p : Nat) : calls s' p + pending s' p ≤ calls s p + pending s p := by
  exact Nat.le_of_eq (by rw [calls_congr hstarts, pending_congr hworker])

/-- A callback starts. -/
theorem countP_append_start (starts : List Start) (e : Start) (p : Nat) :
    (starts ++ [e]).countP (fun e => e.timer == p) =
      starts.countP (fun e => e.timer == p) + if e.timer = p then 1 else 0 := by
  rw [List.countP_append, List.countP_singleton]
  simp only [beq_iff_eq]

/-- A one-shot timer was called, or is to be called once. -/
def Once (s : TimerState) : Prop := ∀ p, (s.entries p).repeating = false →
  calls s p + (if p ∈ s.timers then 1 else 0) + pending s p ≤ 1

theorem one_le_one_of_imp {a b : Prop} [Decidable a] [Decidable b] (h : a → b) :
    (if a then 1 else 0) ≤ if b then 1 else 0 := by
  split_ifs with ha hb hb
  · exact Nat.le_refl 1
  · exact absurd (h ha) hb
  · exact Nat.zero_le 1
  · exact Nat.le_refl 0

/-- A step in which no callback starts and no timer is taken out. -/
theorem Once.of_timers (hs : Once s) (hstarts : s'.starts = s.starts)
    (hworker : ∀ p, s'.worker = .dequeued p false → s.worker = .dequeued p false)
    (h : ∀ p, (s'.entries p).repeating = false → (calls s p = 0 ∧ pending s p = 0) ∨
      ((s.entries p).repeating = false ∧ (p ∈ s'.timers → p ∈ s.timers))) : Once s' := by
  intro p hp
  have hpending : pending s' p ≤ pending s p := one_le_one_of_imp (hworker p)
  rw [calls_congr hstarts]
  rcases h p hp with ⟨hcalls, hnone⟩ | ⟨hold, hmem⟩
  · split_ifs <;> omega
  · have hset := one_le_one_of_imp hmem
    have hle := hs p hold
    omega

/-- A step in which no callback starts, no timer is taken out and none comes into the set. -/
theorem Once.mono (hs : Once s) (hstarts : s'.starts = s.starts) (htimers : s'.timers ⊆ s.timers)
    (hworker : ∀ p, s'.worker = .dequeued p false → s.worker = .dequeued p false)
    (hentries : ∀ p, (s'.entries p).repeating = (s.entries p).repeating) : Once s' :=
  hs.of_timers hstarts hworker fun p hp => .inr ⟨(hentries p).symm.trans hp, @htimers p⟩

theorem Effect.once (h : Effect fit s s') (hp : Placed s) (hs : Once s) : Once s' := by
  cases h with
  | idle => exact hs
  | refuse => exact hs.mono rfl (List.Subset.refl _) (fun _ hw => hw) fun _ => rfl
  | tick t hle => exact hs.mono rfl (List.Subset.refl _) (fun _ hw => hw) fun _ => rfl
  | add e timers nextId handles hopen hnew hbase hexpiry hrepeating hfit htimers' =>
    subst htimers'
    refine hs.of_timers rfl (fun _ hw => hw) fun p hone => ?_
    by_cases heq : p = s.created
    · refine .inl ⟨calls_eq_zero hp (Nat.le_of_eq heq.symm), pending_eq_zero fun hw => ?_⟩
      exact Nat.ne_of_lt (hp.worker_made p (by rw [hw]; rfl)) heq
    · refine .inr ⟨?_, fun hmem => (OrderedSet.mem_insert hmem).resolve_left heq⟩
      rw [← hone]
      exact congrArg TimerEntry.repeating (update_of_ne heq _ _).symm
  | cancel p hlt =>
    exact hs.mono rfl (fun q hq => OrderedSet.erase_sublist.subset hq) (fun _ hw => hw)
      (update_congr TimerEntry.repeating (by rfl))
  | exit hw hshutdown => exact hs.mono rfl (List.Subset.refl _) (by rintro p ⟨⟩) fun _ => rfl
  | dequeue p timers hw hhead hdue =>
    intro q hone
    have hle := hs q hone
    have hsorted := hp.sorted
    rw [hhead] at hle hsorted
    have hnodup := List.nodup_cons.mp (hsorted.nodup (before_strictOrder _))
    show calls s q + (if q ∈ timers then 1 else 0) + pending _ q ≤ 1
    by_cases heq : q = p
    · subst heq
      rw [if_pos (.head _)] at hle
      rw [if_neg hnodup.1]
      refine Nat.le_trans (Nat.add_le_add_left (pending_le_one _ q) _) ?_
      omega
    · have hset := one_le_one_of_imp fun hmem : q ∈ timers => List.mem_cons_of_mem p hmem
      rw [pending_eq_zero fun hq => heq (Worker.dequeued.inj hq).1.symm]
      omega
  | skip p hw => exact hs.mono rfl (List.Subset.refl _) (by rintro p ⟨⟩) fun _ => rfl
  | call p hw =>
    intro q hone
    have hle := hs q hone
    rw [pending_eq_zero (by rintro ⟨⟩), calls, countP_append_start]
    show s.starts.countP _ + _ + (if q ∈ s.timers then 1 else 0) + 0 ≤ 1
    rw [calls, pending, hw] at hle
    have hsame := one_le_one_of_imp fun heq : p = q =>
      (show Worker.dequeued p false = .dequeued q false from heq ▸ rfl)
    dsimp only
    omega
  | finish p again hw =>
    exact hs.mono rfl (List.Subset.refl _) (by rintro p ⟨⟩)
      (update_congr TimerEntry.repeating (by rfl))
  | requeue p timers hw hrepeating hnot hfit htimers' =>
    subst htimers'
    refine hs.of_timers rfl (by rintro q ⟨⟩) fun q hone => ?_
    have hold : (s.entries q).repeating = false := by
      rw [← hone]
      exact (update_congr TimerEntry.repeating (by rfl) q).symm
    have hne : q ≠ p := by
      rintro rfl
      rw [hrepeating] at hold
      cases hold
    exact .inr ⟨hold, fun hmem => (OrderedSet.mem_insert hmem).resolve_left hne⟩
  | drop p reschedule hw => exact hs.mono rfl (List.Subset.refl _) (by rintro p ⟨⟩) fun _ => rfl
  | destroy => exact hs.mono rfl (List.nil_subset _) (fun _ hw => hw) fun _ => rfl
  | join hw => exact hs.mono rfl (List.Subset.refl _) (fun _ hw => hw) fun _ => rfl

/-- A cancelled timer stays so, and is called no more once it was called that was taken out before.
-/
theorem Effect.cancelled (h : Effect fit s s') (hp : Placed s)
    (hmade : p < s.created) (hs : (s.entries p).cancelled = true) :
    p < s'.created ∧ (s'.entries p).cancelled = true ∧
      calls s' p + pending s' p ≤ calls s p + pending s p := by
  have hout : p ∉ s.timers := fun hmem => by
    rw [hp.running p hmem] at hs
    cases hs
  cases h with
  | add e timers nextId handles hopen hnew hbase hexpiry hrepeating hfit htimers' =>
    refine ⟨Nat.lt_succ_of_lt hmade, ?_, calls_add_pending_le rfl rfl p⟩
    show (update s.entries s.created e p).cancelled = true
    rw [update_of_ne (Nat.ne_of_lt hmade)]
    exact hs
  | cancel q hlt =>
    refine ⟨hmade, ?_, calls_add_pending_le rfl rfl p⟩
    show (update s.entries q _ p).cancelled = true
    by_cases heq : p = q
    · subst heq
      rw [update_self]
    · rw [update_of_ne heq]
      exact hs
  | exit hw hshutdown =>
    rw [pending_eq_zero (by rintro ⟨⟩), calls_congr (s := s) rfl]
    exact ⟨hmade, hs, Nat.le_add_right _ _⟩
  | dequeue q timers hw hhead hdue =>
    have hne : q ≠ p := by
      rintro rfl
      rw [hhead] at hout
      exact hout (.head _)
    rw [pending_eq_zero fun hq => hne (Worker.dequeued.inj hq).1]
    rw [calls_congr (s := s) rfl]
    exact ⟨hmade, hs, Nat.le_add_right _ _⟩
  | skip q hw =>
    rw [pending_eq_zero (by rintro ⟨⟩), calls_congr (s := s) rfl]
    exact ⟨hmade, hs, Nat.le_add_right _ _⟩
  | call q hw =>
    refine ⟨hmade, hs, ?_⟩
    have hsame := one_le_one_of_imp fun heq : q = p =>
      (show Worker.dequeued q false = .dequeued p false from heq ▸ rfl)
    rw [pending_eq_zero (by rintro ⟨⟩), calls, countP_append_start, calls, pending, hw]
    dsimp only
    omega
  | finish q again hw =>
    rw [pending_eq_zero (by rintro ⟨⟩), calls_congr (s := s) rfl]
    refine ⟨hmade, ?_, Nat.le_add_right _ _⟩
    rw [← hs]
    exact update_congr TimerEntry.cancelled (by rfl) p
  | requeue q timers hw hrepeating hnot hfit htimers' =>
    rw [pending_eq_zero (by rintro ⟨⟩), calls_congr (s := s) rfl]
    refine ⟨hmade, ?_, Nat.le_add_right _ _⟩
    rw [← hs]
    exact update_congr TimerEntry.cancelled (by rfl) p
  | drop q reschedule hw =>
    rw [pending_eq_zero (by rintro ⟨⟩), calls_congr (s := s) rfl]
    exact ⟨hmade, hs, Nat.le_add_right _ _⟩
  | _ => exact ⟨hmade, hs, calls_add_pending_le rfl rfl p⟩

/-- No callback starts when the thread is behind its loop. -/
theorem Effect.exited (h : Effect fit s s') (hs : s.worker = .exited) :
    s'.worker = .exited ∧ s'.starts = s.starts := by
  cases h with
  | exit hw hshutdown => exact ⟨rfl, rfl⟩
  | dequeue p timers hw hhead hdue =>
    rw [hs] at hw
    cases hw
  | skip p hw =>
    rw [hs] at hw
    cases hw
  | call p hw =>
    rw [hs] at hw
    cases hw
  | finish p again hw =>
    rw [hs] at hw
    cases hw
  | requeue p timers hw =>
    rw [hs] at hw
    cases hw
  | drop p reschedule hw =>
    rw [hs] at hw
    cases hw
  | _ => exact ⟨hs, rfl⟩

/-- The key of a timer does not change while it is in the set. -/
theorem Effect.key (h : Effect fit s s') (hp : Placed s) (hmem : p ∈ s.timers) :
    (s'.entries p).expiry = (s.entries p).expiry ∧ (s'.entries p).id = (s.entries p).id := by
  cases h with
  | add e timers nextId handles =>
    have hne : p ≠ s.created := Nat.ne_of_lt (hp.timers_made p hmem)
    show (update s.entries _ e p).expiry = _ ∧ (update s.entries _ e p).id = _
    rw [update_of_ne hne]
    exact ⟨rfl, rfl⟩
  | cancel q hlt =>
    exact ⟨update_congr TimerEntry.expiry (by rfl) p, update_congr TimerEntry.id (by rfl) p⟩
  | finish q again hw =>
    exact ⟨update_congr TimerEntry.expiry (by rfl) p, update_congr TimerEntry.id (by rfl) p⟩
  | requeue q timers hw =>
    have hout : q ∉ s.timers := hp.out q (by rw [hw]; rfl)
    show (update s.entries q _ p).expiry = _ ∧ (update s.entries q _ p).id = _
    rw [update_of_mem hout hmem]
    exact ⟨rfl, rfl⟩
  | _ => exact ⟨rfl, rfl⟩

/-! ## Runs -/

theorem placed_of_reach {ok : TimerState → Action → Prop} (hs : Placed s) (h : Reach step ok s s') :
    Placed s' :=
  h.invariant Placed hs fun _ _ _ hs _ hstep => (step_effect hstep).placed hs

/-- What holds in every state of a manager. -/
structure Fires (s : TimerState) : Prop where
  /-- no callback starts before its time -/
  due : ∀ e ∈ s.starts, e.base.toInt + e.delay.toInt * 1000000 ≤ e.time.toInt
  /-- the callback of `schedule_once` starts at most once -/
  once : ∀ p, (s.entries p).repeating = false → calls s p ≤ 1
  /-- no callback starts after a cancel, unless it had been taken out -/
  cancelled : ∀ p, p < s.created → (s.entries p).cancelled = true →
    ∀ s', Reach step (fun _ _ => True) s s' → calls s' p ≤ calls s p + pending s p
  /-- a cancelled timer does not come back into the set -/
  gone : ∀ p, p < s.created → (s.entries p).cancelled = true →
    ∀ s', Reach step (fun _ _ => True) s s' → p ∉ s'.timers
  /-- no callback starts after the destructor -/
  ended : s.teardown = .returned → ∀ s', Reach step (fun _ _ => True) s s' → s'.starts = s.starts
  /-- the set is ordered by the keys, and has none twice -/
  sorted : s.timers.Pairwise fun p q => before s.entries p q = true
  /-- the key of a timer does not change in the set -/
  key : ∀ a s', step s a = some s' → ∀ p ∈ s.timers,
    (s'.entries p).expiry = (s.entries p).expiry ∧ (s'.entries p).id = (s.entries p).id

/-- **A cancelled timer** in every run that goes on. -/
theorem cancelled_of_reach (hp : Placed s) (hmade : p < s.created)
    (hs : (s.entries p).cancelled = true) (h : Reach step (fun _ _ => True) s s') :
    (s'.entries p).cancelled = true ∧ calls s' p ≤ calls s p + pending s p := by
  obtain ⟨-, -, hcancelled, hle⟩ := h.invariant
    (fun t => Placed t ∧ p < t.created ∧ (t.entries p).cancelled = true ∧
      calls t p + pending t p ≤ calls s p + pending s p) ⟨hp, hmade, hs, Nat.le_refl _⟩
    fun t a t' ht _ hstep => by
      obtain ⟨hplaced, hmade, hcancelled, hle⟩ := ht
      obtain ⟨hmade', hcancelled', hle'⟩ := (step_effect hstep).cancelled hplaced hmade hcancelled
      exact ⟨(step_effect hstep).placed hplaced, hmade', hcancelled', Nat.le_trans hle' hle⟩
  exact ⟨hcancelled, Nat.le_trans (Nat.le_add_right _ _) hle⟩

/-- A manager before its first timer. -/
def init (now : Int64) : TimerState where
  now := now

theorem placed_init (now : Int64) : Placed (init now) where
  timers_made := by rintro p ⟨⟩
  worker_made := by rintro p ⟨⟩
  starts_made := by rintro e ⟨⟩
  sorted := List.Pairwise.nil
  out := by rintro p ⟨⟩
  running := by rintro p ⟨⟩
  periodic := by rintro p ⟨⟩
  torn := by rintro ⟨⟩

theorem timed_init (now : Int64) : Timed (init now) where
  set := by rintro p ⟨⟩
  dequeued := by rintro p c ⟨⟩
  returned := by rintro p ⟨⟩
  starts := by rintro e ⟨⟩

/-- **Timers fire when they should**, in every run in which the sums of clock values and delays fit.
-/
theorem timers_fire (now : Int64) (s : TimerState)
    (h : Reach step (fun s a => fits s a = true) (init now) s) : Fires s := by
  obtain ⟨hplaced, htimed, honce⟩ := h.invariant (fun s => Placed s ∧ Timed s ∧ Once s)
    ⟨placed_init now, timed_init now, fun p _ => Nat.zero_le 1⟩
    fun s a s' hs hfits hstep => by
      obtain ⟨hplaced, htimed, honce⟩ := hs
      have heffect := step_effect hstep
      rw [show (fits s a = true) = True from eq_true hfits] at heffect
      exact ⟨heffect.placed hplaced, heffect.timed hplaced htimed, heffect.once hplaced honce⟩
  constructor
  · exact htimed.starts
  · intro p hone
    have hle := honce p hone
    omega
  · intro p hmade hcancelled s' h'
    exact (cancelled_of_reach hplaced hmade hcancelled h').2
  · intro p hmade hcancelled s' h' hmem
    have hstill := (cancelled_of_reach hplaced hmade hcancelled h').1
    rw [(placed_of_reach hplaced h').running p hmem] at hstill
    cases hstill
  · intro hreturned s' h'
    exact (h'.invariant (fun t => t.worker = .exited ∧ t.starts = s.starts)
      ⟨hplaced.torn hreturned, rfl⟩ fun t a t' ht _ hstep => by
        obtain ⟨hexited, hstarts⟩ := (step_effect hstep).exited ht.1
        exact ⟨hexited, hstarts.trans ht.2⟩).2
  · exact hplaced.sorted
  · intro a s' hstep p hmem
    exact (step_effect hstep).key hplaced hmem

/-- A repeating timer is called, comes back and is called again when its period is over. -/
theorem timers_fire_again :
    ∃ s : TimerState, Reach step (fun s a => fits s a = true) (init 5) s ∧ s.starts.length = 2 ∧
      Fires s := by
  let actions : List Action :=
    [.scheduleRepeating true 1, .check, .tick 1000005, .check, .call, .finish true, .tick 1000007,
      .requeue, .tick 2000007, .check, .call]
  obtain ⟨s, hs⟩ : ∃ s, run step fits actions (init 5) = some s := ⟨_, rfl⟩
  have hreach : Reach step (fun s a => fits s a = true) (init 5) s :=
    Reach.run (fun _ _ h => h) .init hs
  refine ⟨s, hreach, ?_, timers_fire 5 s hreach⟩
  cases hs
  rfl

/-- **A delay that overflows**: the timer is due before the clock has moved. -/
theorem not_timers_fire :
    ¬ ∀ (now : Int64) (s : TimerState), Reach step (fun _ _ => True) (init now) s → Fires s := by
  intro hclaim
  obtain ⟨s, hs⟩ : ∃ s, run step (fun _ _ => true)
      [.scheduleOnce true Int64.maxValue, .check, .call] (init 5) = some s := ⟨_, rfl⟩
  have hreach : Reach step (fun _ _ => True) (init 5) s := Reach.run (fun _ _ _ => trivial) .init hs
  have hdue := (hclaim 5 s hreach).due
  cases hs
  exact absurd (hdue _ (List.mem_singleton.mpr rfl)) (by decide)

end Libca.Thread.Timer
