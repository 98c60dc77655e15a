import Libca.Thread.BoundedQueue

/-!
# `ThreadPool` (`thread/thread_pool.cpp` 17-213)

Submissions put tasks into a `BoundedQueue`, workers take them out, and shutdowns close the queue
and cancel what is left in it. A section under `state_mutex` and a critical section of the queue are
one step each; the waits of the queue are those of its monitor, so a submission or a worker whose
section would block takes no step. A task is the number of its submission.

Left out: failures to start a thread, moved-from pools.

* `step`, `Effect`, `step_effect`: the steps, and what each of them does.
* `Ledger`: every task that entered the queue is in it, with a worker or a shutdown, or settled.
* `pool_settles`: when every worker has exited and every shutdown has returned, each accepted task
  was run or cancelled, and once; tasks are taken in the order of the queue, and none after a
  shutdown that cancels.
* `not_pool_settles`: a shutdown cancels outside its lock, so that all workers can exit before it
  has cancelled a task.
-/

namespace Libca.Thread.ThreadPool

open Common

inductive PoolState
  | running
  | shuttingDown
  | joined
deriving DecidableEq, Repr

inductive ShutdownMode
  | drain
  | cancelPending
deriving DecidableEq, Repr

abbrev Task := Nat

/-- `submit`, `try_submit` and `submit_for`. -/
inductive Kind
  | submit
  | trySubmit
  | submitFor
deriving DecidableEq, Repr

/-- Where a submission is: in front of the check of the pool, in front of the queue, or back with a
future, an empty optional or an error. -/
inductive Phase
  | checking
  | pushing
  | future
  | full
  | error (status : ErrStatus)
deriving DecidableEq, Repr

structure Submission where
  kind : Kind
  phase : Phase
deriving DecidableEq, Repr

/-- Where a worker is: in front of `pop`, with a task it took, in the task, or behind its loop. -/
inductive Worker
  | popping
  | holding (t : Task)
  | running (t : Task)
  | exited
deriving DecidableEq, Repr

/-- Where a shutdown is: in front of its section, behind it with the tasks to cancel, or back. -/
inductive Shutdown
  | entering (mode : ShutdownMode)
  | cancelling (mode : ShutdownMode) (pending : List Task)
  | returned (mode : ShutdownMode)
deriving DecidableEq, Repr

/-- A pool and its calls. The last four are not in the source: the tasks that workers took, that
shutdowns took, that were run and that were cancelled, each in their order. -/
structure State where
  queue : BoundedQueue.State Task
  poolState : PoolState := .running
  shutdownMode : ShutdownMode := .drain
  stopRequested : Bool := false
  submissions : List Submission := []
  workers : List Worker
  shutdowns : List Shutdown := []
  dequeued : List Task := []
  swept : List Task := []
  ran : List Task := []
  cancelled : List Task := []

def closedPoolError : ErrStatus where
  code := .failedPrecondition
  message := "thread pool is shutting down"

/-- `create`, where every thread starts. -/
def create (threadCount hardwareConcurrency queueCapacity : Nat) : Except ErrStatus State :=
  if queueCapacity = 0 then
    .error { code := .invalidArgument, message := "thread pool queue capacity must be nonzero" }
  else do
    let queue ← BoundedQueue.create queueCapacity
    let count := if threadCount = 0 then hardwareConcurrency else threadCount
    let count := if count = 0 then 1 else count
    .ok { queue := queue, workers := List.replicate count .popping }

/-! ## The steps -/

/-- The steps of the submission `i`, the worker `w` and the shutdown `j`; `expired` says that the
time of `submit_for` is over. -/
inductive Action
  | invoke (kind : Kind)
  | check (i : Nat)
  | push (i : Nat) (expired : Bool)
  | take (w : Nat)
  | run (w : Nat)
  | finish (w : Nat)
  | invokeShutdown (mode : ShutdownMode)
  | shutdown (j : Nat)
  | cancel (j : Nat)
  | join
deriving DecidableEq, Repr

/-- The section of `enqueue` under `state_mutex`. -/
def checked (s : State) : Phase :=
  if s.poolState ≠ .running then .error closedPoolError else .pushing

/-- What a submission returns for what its call of the queue returns. -/
def phaseOf : Kind → BoundedQueue.Result Task → Phase
  | .submit, .status (.ok _) => .future
  | .submit, .status (.error e) => .error e
  | .trySubmit, .flag (.ok true) | .submitFor, .flag (.ok true) => .future
  | .trySubmit, .flag (.error e) | .submitFor, .flag (.error e) => .error e
  | _, _ => .full

/-- The call of the queue in a submission. -/
def pushOp (t : Task) : Kind → BoundedQueue.Op Task
  | .submit => .push t
  | .trySubmit => .tryPush t
  | .submitFor => .pushFor t

def pushStep (s : State) (i : Nat) (c : Submission) (expired : Bool) : Option State :=
  match BoundedQueue.critical i (pushOp i c.kind) expired s.queue with
  | .block => none
  | .finish queue _ r =>
    some { s with
      queue := queue
      submissions := s.submissions.set i { c with phase := phaseOf c.kind r } }

/-- `pop` in `worker_loop`: a task, or the end of the loop. -/
def takeStep (s : State) (w : Nat) : Option State :=
  match BoundedQueue.critical w .pop false s.queue with
  | .finish queue _ (.value (.ok t)) =>
    some { s with
      queue := queue
      workers := s.workers.set w (.holding t)
      dequeued := s.dequeued ++ [t] }
  | .finish queue _ (.value (.error _)) =>
    some { s with queue := queue, workers := s.workers.set w .exited }
  | _ => none

/-- `close_and_take` and the stop requests. -/
def sweep (s : State) (j : Nat) (mode : ShutdownMode) : State :=
  match BoundedQueue.closeAndTake j s.queue with
  | .finish queue _ (.pending pending) =>
    { s with
      queue := queue
      shutdownMode := .cancelPending
      stopRequested := true
      shutdowns := s.shutdowns.set j (.cancelling mode pending)
      swept := s.swept ++ pending }
  | _ => s

/-- `queue->close()`. -/
def closeQueue (s : State) : State :=
  match BoundedQueue.close s.queue with
  | .finish queue _ _ => { s with queue := queue }
  | .block => s

/-- The section of `shutdown` under `state_mutex`. -/
def shutdownStep (s : State) (j : Nat) (mode : ShutdownMode) : State :=
  if s.poolState = .joined then { s with shutdowns := s.shutdowns.set j (.returned mode) }
  else if s.poolState = .running then
    if mode = .cancelPending then sweep { s with poolState := .shuttingDown } j mode
    else
      let s := closeQueue { s with poolState := .shuttingDown, shutdownMode := mode }
      { s with shutdowns := s.shutdowns.set j (.cancelling mode []) }
  else if s.shutdownMode = .drain ∧ mode = .cancelPending then sweep s j mode
  else { s with shutdowns := s.shutdowns.set j (.cancelling mode []) }

/-- An iteration of the loop that cancels, or the return. -/
def cancelStep (s : State) (j : Nat) (mode : ShutdownMode) : List Task → State
  | [] => { s with shutdowns := s.shutdowns.set j (.returned mode) }
  | t :: pending =>
    { s with
      shutdowns := s.shutdowns.set j (.cancelling mode pending)
      cancelled := s.cancelled ++ [t] }

def step (s : State) : Action → Option State
  | .invoke kind =>
    some { s with submissions := s.submissions ++ [{ kind := kind, phase := .checking }] }
  | .check i =>
    match s.submissions[i]? with
    | some { kind, phase := .checking } =>
      some { s with submissions := s.submissions.set i { kind := kind, phase := checked s } }
    | _ => none
  | .push i expired =>
    match s.submissions[i]? with
    | some { kind, phase := .pushing } => pushStep s i { kind := kind, phase := .pushing } expired
    | _ => none
  | .take w =>
    match s.workers[w]? with
    | some .popping => takeStep s w
    | _ => none
  | .run w =>
    match s.workers[w]? with
    | some (.holding t) =>
      some { s with workers := s.workers.set w (.running t), ran := s.ran ++ [t] }
    | _ => none
  | .finish w =>
    match s.workers[w]? with
    | some (.running _) => some { s with workers := s.workers.set w .popping }
    | _ => none
  | .invokeShutdown mode => some { s with shutdowns := s.shutdowns ++ [.entering mode] }
  | .shutdown j =>
    match s.shutdowns[j]? with
    | some (.entering mode) => some (shutdownStep s j mode)
    | _ => none
  | .cancel j =>
    match s.shutdowns[j]? with
    | some (.cancelling mode pending) => some (cancelStep s j mode pending)
    | _ => none
  | .join =>
    if s.poolState = .shuttingDown ∧ ∀ w ∈ s.workers, w = .exited then
      some { s with poolState := .joined }
    else none

/-! ## What a step does -/

/-- The queue is closed and empty. -/
def Drained (s : State) : Prop := s.queue.closed = true ∧ s.queue.items = []

/-- The effects of the steps. -/
inductive Effect (s : State) : State → Prop
  | invoke (kind : Kind) :
      Effect s { s with submissions := s.submissions ++ [{ kind := kind, phase := .checking }] }
  | check (i : Nat) (kind : Kind) : s.submissions[i]? = some { kind := kind, phase := .checking } →
      Effect s { s with submissions := s.submissions.set i { kind := kind, phase := checked s } }
  | enqueue (i : Nat) (kind : Kind) : s.submissions[i]? = some { kind := kind, phase := .pushing } →
      s.queue.closed = false →
      Effect s { s with
        queue := s.queue.append i i
        submissions := s.submissions.set i { kind := kind, phase := .future } }
  | turnAway (i : Nat) (kind : Kind) (phase : Phase) :
      s.submissions[i]? = some { kind := kind, phase := .pushing } → phase ≠ .future →
      Effect s { s with submissions := s.submissions.set i { kind := kind, phase := phase } }
  | take (w : Nat) (t : Task) (items : List Task) : s.workers[w]? = some .popping →
      s.queue.items = t :: items →
      Effect s { s with
        queue := s.queue.removeFront w t items
        workers := s.workers.set w (.holding t)
        dequeued := s.dequeued ++ [t] }
  | exit (w : Nat) : s.workers[w]? = some .popping → Drained s →
      Effect s { s with workers := s.workers.set w .exited }
  | run (w : Nat) (t : Task) : s.workers[w]? = some (.holding t) →
      Effect s { s with workers := s.workers.set w (.running t), ran := s.ran ++ [t] }
  | finish (w : Nat) (t : Task) : s.workers[w]? = some (.running t) →
      Effect s { s with workers := s.workers.set w .popping }
  | invokeShutdown (mode : ShutdownMode) :
      Effect s { s with shutdowns := s.shutdowns ++ [.entering mode] }
  | sweep (j : Nat) : s.shutdowns[j]? = some (.entering .cancelPending) →
      Effect s { s with
        queue := { s.queue with
          closed := true, items := [], taken := s.queue.taken ++ s.queue.items.map (Prod.mk j) }
        poolState := .shuttingDown
        shutdownMode := .cancelPending
        stopRequested := true
        shutdowns := s.shutdowns.set j (.cancelling .cancelPending s.queue.items)
        swept := s.swept ++ s.queue.items }
  | close (j : Nat) : s.shutdowns[j]? = some (.entering .drain) →
      Effect s { s with
        queue := { s.queue with closed := true }
        poolState := .shuttingDown
        shutdownMode := .drain
        shutdowns := s.shutdowns.set j (.cancelling .drain []) }
  | joined (j : Nat) (mode : ShutdownMode) : s.shutdowns[j]? = some (.entering mode) →
      s.poolState = .joined → Effect s { s with shutdowns := s.shutdowns.set j (.returned mode) }
  | again (j : Nat) (mode : ShutdownMode) : s.shutdowns[j]? = some (.entering mode) →
      s.poolState = .shuttingDown → (mode = .cancelPending → s.shutdownMode = .cancelPending) →
      Effect s { s with shutdowns := s.shutdowns.set j (.cancelling mode []) }
  | cancel (j : Nat) (mode : ShutdownMode) (t : Task) (pending : List Task) :
      s.shutdowns[j]? = some (.cancelling mode (t :: pending)) →
      Effect s { s with
        shutdowns := s.shutdowns.set j (.cancelling mode pending)
        cancelled := s.cancelled ++ [t] }
  | returned (j : Nat) (mode : ShutdownMode) : s.shutdowns[j]? = some (.cancelling mode []) →
      Effect s { s with shutdowns := s.shutdowns.set j (.returned mode) }
  | join : (∀ w ∈ s.workers, w = .exited) → Effect s { s with poolState := .joined }

/-- A submission returns a future when the queue accepted its task. -/
theorem accepted_pushOp (t : Task) (kind : Kind) (r : BoundedQueue.Result Task) :
    BoundedQueue.accepted (pushOp t kind) r = if phaseOf kind r = .future then [t] else [] := by
  cases kind with
  | submit =>
    cases r with
    | status r => cases r <;> rfl
    | _ => rfl
  | trySubmit =>
    cases r with
    | flag r =>
      rcases r with e | b
      · rfl
      · cases b <;> rfl
    | _ => rfl
  | submitFor =>
    cases r with
    | flag r =>
      rcases r with e | b
      · rfl
      · cases b <;> rfl
    | _ => rfl

theorem producer_pushOp (t : Task) (kind : Kind) :
    BoundedQueue.producer (pushOp t kind) = some t := by
  cases kind <;> rfl

variable {s s' : State}

variable {i : Nat} {kind : Kind}

theorem pushStep_effect {expired : Bool}
    (hi : s.submissions[i]? = some { kind := kind, phase := .pushing })
    (h : pushStep s i { kind := kind, phase := .pushing } expired = some s') : Effect s s' := by
  unfold pushStep at h
  cases hcritical : BoundedQueue.critical i (pushOp i kind) expired s.queue with
  | block =>
    rw [hcritical] at h
    cases h
  | finish queue signals r =>
    rw [hcritical] at h
    cases h
    have haccepted := accepted_pushOp i kind r
    cases BoundedQueue.critical_section hcritical with
    | accept value r hopen _ hvalue _ _ _ hproducer =>
      rw [producer_pushOp] at hproducer
      cases hproducer
      rw [hvalue] at haccepted
      split_ifs at haccepted with hfuture
      show Effect s { s with
        queue := s.queue.append i i
        submissions := s.submissions.set i { kind := kind, phase := phaseOf kind r } }
      rw [hfuture]
      exact .enqueue i kind hi hopen
    | refuse r hnone =>
      rw [hnone] at haccepted
      split_ifs at haccepted with hfuture
      exact .turnAway i kind _ hi hfuture
    | deliver value items r _ _ _ _ _ hproducer =>
      rw [producer_pushOp] at hproducer
      cases hproducer
    | close r _ _ _ _ hproducer =>
      rw [producer_pushOp] at hproducer
      cases hproducer
    | closeAndTake r _ _ _ _ hproducer =>
      rw [producer_pushOp] at hproducer
      cases hproducer

theorem takeStep_effect {w : Nat} (hw : s.workers[w]? = some .popping)
    (h : takeStep s w = some s') : Effect s s' := by
  unfold takeStep at h
  rw [show BoundedQueue.critical w .pop false s.queue = BoundedQueue.pop w s.queue from rfl] at h
  cases hitems : s.queue.items with
  | nil =>
    rw [BoundedQueue.pop_of_nil hitems] at h
    by_cases hclosed : s.queue.closed = true
    · rw [if_pos hclosed] at h
      cases h
      exact .exit w hw ⟨hclosed, hitems⟩
    · rw [if_neg hclosed] at h
      cases h
  | cons t items =>
    rw [BoundedQueue.pop_of_cons hitems] at h
    cases h
    exact .take w t items hw hitems

theorem shutdownStep_effect {j : Nat} {mode : ShutdownMode}
    (hj : s.shutdowns[j]? = some (.entering mode)) : Effect s (shutdownStep s j mode) := by
  unfold shutdownStep
  split_ifs with hjoined hrunning hmode hupgrade
  · exact .joined j mode hj hjoined
  · subst hmode
    exact .sweep j hj
  · have hdrain : mode = .drain := by
      cases mode with
      | drain => rfl
      | cancelPending => exact absurd rfl hmode
    subst hdrain
    have hclose : closeQueue { s with poolState := .shuttingDown, shutdownMode := .drain } =
        { s with
          queue := { s.queue with closed := true }
          poolState := .shuttingDown
          shutdownMode := .drain } := by
      unfold closeQueue BoundedQueue.close
      by_cases hclosed : s.queue.closed = true
      · rw [if_pos hclosed]
        simp only [← hclosed]
      · rw [if_neg hclosed]
    rw [hclose]
    exact .close j hj
  · have hstate : s.poolState = .shuttingDown := by
      cases hs : s.poolState with
      | running => exact absurd hs hrunning
      | shuttingDown => rfl
      | joined => exact absurd hs hjoined
    obtain ⟨hdrain, rfl⟩ := hupgrade
    have heq : sweep s j .cancelPending = sweep { s with poolState :=
      .shuttingDown } j .cancelPending := by
      rw [← hstate]
    rw [heq]
    exact .sweep j hj
  · have hstate : s.poolState = .shuttingDown := by
      cases hs : s.poolState with
      | running => exact absurd hs hrunning
      | shuttingDown => rfl
      | joined => exact absurd hs hjoined
    refine .again j mode hj hstate fun hmode => ?_
    cases hs : s.shutdownMode with
    | drain => exact absurd ⟨hs, hmode⟩ hupgrade
    | cancelPending => rfl

/-- **What a step does.** -/
theorem step_effect {a : Action} (h : step s a = some s') : Effect s s' := by
  cases a with
  | invoke kind =>
    cases h
    exact .invoke kind
  | check i =>
    simp only [step] at h
    split at h
    case h_1 kind hi =>
      cases h
      exact .check i kind hi
    case h_2 => cases h
  | push i expired =>
    simp only [step] at h
    split at h
    case h_1 kind hi => exact pushStep_effect hi h
    case h_2 => cases h
  | take w =>
    simp only [step] at h
    split at h
    case h_1 hw => exact takeStep_effect hw h
    case h_2 => cases h
  | run w =>
    simp only [step] at h
    split at h
    case h_1 t hw =>
      cases h
      exact .run w t hw
    case h_2 => cases h
  | finish w =>
    simp only [step] at h
    split at h
    case h_1 t hw =>
      cases h
      exact .finish w t hw
    case h_2 => cases h
  | invokeShutdown mode =>
    cases h
    exact .invokeShutdown mode
  | shutdown j =>
    simp only [step] at h
    split at h
    case h_1 mode hj =>
      cases h
      exact shutdownStep_effect hj
    case h_2 => cases h
  | cancel j =>
    simp only [step] at h
    split at h
    case h_1 mode pending hj =>
      cases h
      cases pending with
      | nil => exact .returned j mode hj
      | cons t pending => exact .cancel j mode t pending hj
    case h_2 => cases h
  | join =>
    simp only [step] at h
    split_ifs at h with hexited
    cases h
    exact .join hexited.2

/-! ## The ledger -/

/-- Whether a submission returned a future. -/
def accepted (submissions : List Submission) (t : Task) : Bool :=
  submissions[t]?.any fun c => c.phase == .future

/-- How often a worker holds a task that it did not start. -/
def heldBy (t : Task) : Worker → Nat
  | .holding t' => [t'].count t
  | _ => 0

/-- How often a shutdown has a task that it did not cancel. -/
def pendingIn (t : Task) : Shutdown → Nat
  | .cancelling _ pending => pending.count t
  | _ => 0

/-- A shutdown that cancels is behind its section. -/
def cancels : Shutdown → Bool
  | .cancelling .cancelPending _ | .returned .cancelPending => true
  | _ => false

/-- Where the tasks that entered the queue are: still in it, with a worker or a shutdown, run or
cancelled. -/
structure Ledger (s : State) : Prop where
  entered : ∀ t, (s.queue.pushed.map Prod.snd).count t = (accepted s.submissions t).toNat
  order : s.queue.pushed.map Prod.snd = s.dequeued ++ s.swept ++ s.queue.items
  swept : s.swept ≠ [] → Drained s
  taken : ∀ t, s.dequeued.count t = tally (heldBy t) s.workers + s.ran.count t
  pending : ∀ t, s.swept.count t = tally (pendingIn t) s.shutdowns + s.cancelled.count t

/-- When the queue is closed and empty. -/
structure Closing (s : State) : Prop where
  workers : s.workers ≠ []
  exited : .exited ∈ s.workers → Drained s
  joined : s.poolState = .joined → Drained s
  mode : s.shutdownMode = .cancelPending → Drained s
  cancels : ∀ d ∈ s.shutdowns, cancels d = true → Drained s

/-- A queue that is closed and empty stays so. -/
theorem Effect.drained (h : Effect s s') (hs : Drained s) : Drained s' := by
  cases h with
  | enqueue i kind hi hopen =>
    rw [hs.1] at hopen
    cases hopen
  | take w t items hw hitems =>
    rw [hs.2] at hitems
    cases hitems
  | sweep j hj => exact ⟨rfl, rfl⟩
  | close j hj => exact ⟨rfl, hs.2⟩
  | _ => exact hs

/-- A submission that did not return a future goes on. -/
theorem accepted_set {submissions : List Submission} {old : Phase}
    (hi : submissions[i]? = some { kind := kind, phase := old }) (hold : old ≠ .future)
      (phase : Phase)
    (t : Task) : accepted (submissions.set i { kind := kind, phase := phase }) t =
      (accepted submissions t || (decide (i = t) && phase == .future)) := by
  unfold accepted
  by_cases heq : i = t
  · subst heq
    rw [List.getElem?_set_self (List.getElem?_eq_some_iff.mp hi).1, hi]
    simp [hold]
  · rw [List.getElem?_set_ne heq]
    simp [heq]

/-- A submission that goes on and does not return a future. -/
theorem accepted_set_of_ne {submissions : List Submission} {old phase : Phase}
    (hi : submissions[i]? = some { kind := kind, phase := old }) (hold : old ≠ .future)
    (hphase : phase ≠ .future) (t : Task) :
    accepted (submissions.set i { kind := kind, phase := phase }) t = accepted submissions t := by
  rw [accepted_set hi hold, beq_eq_false_iff_ne.mpr hphase, Bool.and_false, Bool.or_false]

/-- A submission that begins. -/
theorem accepted_append (submissions : List Submission) (kind : Kind) (t : Task) :
    accepted (submissions ++ [{ kind := kind, phase := .checking }]) t =
      accepted submissions t := by
  unfold accepted
  rcases Nat.lt_trichotomy t submissions.length with hlt | rfl | hgt
  · rw [List.getElem?_append_left hlt]
  · rw [List.getElem?_concat_length, List.getElem?_eq_none (Nat.le_refl _)]
    rfl
  · rw [List.getElem?_eq_none (Nat.le_of_lt hgt), List.getElem?_eq_none (by
      rw [List.length_append, List.length_singleton]
      exact hgt)]

theorem Effect.entered (h : Effect s s')
    (hs : ∀ t, (s.queue.pushed.map Prod.snd).count t = (accepted s.submissions t).toNat)
    (t : Task) :
    (s'.queue.pushed.map Prod.snd).count t = (accepted s'.submissions t).toNat := by
  cases h with
  | invoke kind =>
    dsimp only
    rw [hs t, accepted_append]
  | check i kind hi =>
    have hphase : checked s ≠ .future := by
      unfold checked
      split_ifs <;> rintro ⟨⟩
    dsimp only
    rw [hs t, accepted_set_of_ne hi (by rintro ⟨⟩) hphase]
  | enqueue i kind hi hopen =>
    have hnew : accepted s.submissions i = false := by
      rw [accepted, hi]
      rfl
    dsimp only
    rw [accepted_set hi (by rintro ⟨⟩), BoundedQueue.State.append, List.map_append,
      List.count_append, hs t]
    by_cases heq : i = t
    · subst heq
      rw [hnew]
      simp
    · simp [heq]
  | turnAway i kind phase hi hphase =>
    dsimp only
    rw [hs t, accepted_set_of_ne hi (by rintro ⟨⟩) hphase]
  | take w t items hw hitems => exact hs _
  | _ => exact hs t

theorem Effect.order (h : Effect s s') (hswept : s.swept ≠ [] → Drained s)
    (hs : s.queue.pushed.map Prod.snd = s.dequeued ++ s.swept ++ s.queue.items) :
    s'.queue.pushed.map Prod.snd = s'.dequeued ++ s'.swept ++ s'.queue.items := by
  cases h with
  | enqueue i kind hi hopen =>
    rw [BoundedQueue.State.append, List.map_append, hs]
    simp
  | take w t items hw hitems =>
    -- nothing was swept, or the queue would be empty
    have hnone : s.swept = [] := by
      by_contra hne
      rw [(hswept hne).2] at hitems
      cases hitems
    show s.queue.pushed.map Prod.snd = _
    rw [hs, hnone, hitems]
    simp [BoundedQueue.State.removeFront]
  | sweep j hj =>
    show s.queue.pushed.map Prod.snd = _
    rw [hs]
    simp
  | _ => exact hs

theorem Effect.swept (h : Effect s s') (hs : s.swept ≠ [] → Drained s) (hne : s'.swept ≠ []) :
    Drained s' := by
  have hkeep : s'.swept = s.swept → Drained s' := fun heq => h.drained (hs (heq ▸ hne))
  cases h with
  | sweep j hj => exact ⟨rfl, rfl⟩
  | _ => exact hkeep rfl

theorem Effect.taken (h : Effect s s')
    (hs : ∀ t, s.dequeued.count t = tally (heldBy t) s.workers + s.ran.count t) (t : Task) :
    s'.dequeued.count t = tally (heldBy t) s'.workers + s'.ran.count t := by
  have hst := hs t
  cases h with
  | take w t' items hw hitems =>
    have hset := tally_set (heldBy t) hw (.holding t')
    simp only [heldBy] at hset
    dsimp only
    rw [List.count_append]
    omega
  | exit w hw hdrained =>
    have hset := tally_set (heldBy t) hw .exited
    simp only [heldBy] at hset
    dsimp only
    omega
  | run w t' hw =>
    have hset := tally_set (heldBy t) hw (.running t')
    simp only [heldBy] at hset
    dsimp only
    rw [List.count_append]
    omega
  | finish w t' hw =>
    have hset := tally_set (heldBy t) hw .popping
    simp only [heldBy] at hset
    dsimp only
    omega
  | _ => exact hst

theorem Effect.pending (h : Effect s s')
    (hs : ∀ t, s.swept.count t = tally (pendingIn t) s.shutdowns + s.cancelled.count t) (t : Task) :
    s'.swept.count t = tally (pendingIn t) s'.shutdowns + s'.cancelled.count t := by
  have hst := hs t
  cases h with
  | invokeShutdown mode =>
    dsimp only
    rw [tally_append]
    exact hst
  | sweep j hj =>
    have hset := tally_set (pendingIn t) hj (.cancelling .cancelPending s.queue.items)
    simp only [pendingIn] at hset
    dsimp only
    rw [List.count_append]
    omega
  | close j hj =>
    have hset := tally_set (pendingIn t) hj (.cancelling .drain [])
    simp only [pendingIn, List.count_nil] at hset
    dsimp only
    omega
  | joined j mode hj =>
    have hset := tally_set (pendingIn t) hj (.returned mode)
    simp only [pendingIn] at hset
    dsimp only
    omega
  | again j mode hj =>
    have hset := tally_set (pendingIn t) hj (.cancelling mode [])
    simp only [pendingIn, List.count_nil] at hset
    dsimp only
    omega
  | cancel j mode t' pending hj =>
    have hset := tally_set (pendingIn t) hj (.cancelling mode pending)
    simp only [pendingIn] at hset
    have hcons : (t' :: pending).count t = [t'].count t + pending.count t := by
      rw [← List.singleton_append, List.count_append]
    dsimp only
    rw [List.count_append]
    omega
  | returned j mode hj =>
    have hset := tally_set (pendingIn t) hj (.returned mode)
    simp only [pendingIn, List.count_nil] at hset
    dsimp only
    omega
  | _ => exact hst

theorem Effect.ledger (h : Effect s s') (hs : Ledger s) : Ledger s' where
  entered := h.entered hs.entered
  order := h.order hs.swept hs.order
  swept := h.swept hs.swept
  taken := h.taken hs.taken
  pending := h.pending hs.pending

/-- The queue is closed and empty for as long as it was found so. -/
theorem Effect.closing (h : Effect s s') (hs : Closing s) : Closing s' := by
  obtain ⟨hworkers, hexited, hjoined, hmode, hcancels⟩ := hs
  -- a worker that did not exit changes
  have hset : ∀ (w : Nat) (worker : Worker), worker ≠ .exited →
      .exited ∈ s.workers.set w worker → Drained s := by
    intro w worker hne hmem
    rcases List.mem_or_eq_of_mem_set hmem with hmem | heq
    · exact hexited hmem
    · exact absurd heq.symm hne
  -- a shutdown changes, and cancels only when the queue is empty
  have hshut : ∀ (j : Nat) (d : Shutdown), (cancels d = true → Drained s) →
      ∀ d' ∈ s.shutdowns.set j d, cancels d' = true → Drained s := by
    intro j d hd d' hmem hd'
    rcases List.mem_or_eq_of_mem_set hmem with hmem | rfl
    · exact hcancels d' hmem hd'
    · exact hd hd'
  have hlength : ∀ (w : Nat) (worker : Worker), s.workers.set w worker ≠ [] := by
    intro w worker heq
    exact hworkers (List.length_eq_zero_iff.mp (by rw [← List.length_set, heq]; rfl))
  have hkeep := fun hdrained : Drained s => h.drained hdrained
  cases h with
  | invoke kind => exact ⟨hworkers, hexited, hjoined, hmode, hcancels⟩
  | check i kind hi => exact ⟨hworkers, hexited, hjoined, hmode, hcancels⟩
  | enqueue i kind hi hopen =>
    exact ⟨hworkers, fun h => hkeep (hexited h), fun h => hkeep (hjoined h), fun h =>
      hkeep (hmode h), fun d hmem hd => hkeep (hcancels d hmem hd)⟩
  | turnAway i kind phase hi hphase => exact ⟨hworkers, hexited, hjoined, hmode, hcancels⟩
  | take w t items hw hitems =>
    exact ⟨hlength w _, fun h => hkeep (hset w _ (by rintro ⟨⟩) h), fun h => hkeep (hjoined h),
      fun h => hkeep (hmode h), fun d hmem hd => hkeep (hcancels d hmem hd)⟩
  | exit w hw hdrained => exact ⟨hlength w _, fun _ => hdrained, hjoined, hmode, hcancels⟩
  | run w t hw => exact ⟨hlength w _, hset w _ (by rintro ⟨⟩), hjoined, hmode, hcancels⟩
  | finish w t hw => exact ⟨hlength w _, hset w _ (by rintro ⟨⟩), hjoined, hmode, hcancels⟩
  | invokeShutdown mode =>
    refine ⟨hworkers, hexited, hjoined, hmode, fun d hmem hd => ?_⟩
    rcases List.mem_append.mp hmem with hmem | hmem
    · exact hcancels d hmem hd
    · rw [List.mem_singleton.mp hmem] at hd
      cases hd
  | sweep j hj => exact ⟨hworkers, fun _ => ⟨rfl, rfl⟩, fun _ => ⟨rfl, rfl⟩, fun _ => ⟨rfl, rfl⟩,
      fun _ _ _ => ⟨rfl, rfl⟩⟩
  | close j hj =>
    exact ⟨hworkers, fun h => hkeep (hexited h), (by rintro ⟨⟩), (by rintro ⟨⟩),
      fun d hmem hd => hkeep (hshut j _ (by rintro ⟨⟩) d hmem hd)⟩
  | joined j mode hj hstate =>
    exact ⟨hworkers, hexited, hjoined, hmode, hshut j _ fun _ => hjoined hstate⟩
  | again j mode hj hstate hupgraded =>
    refine ⟨hworkers, hexited, hjoined, hmode, hshut j _ fun hd => ?_⟩
    cases mode with
    | drain => cases hd
    | cancelPending => exact hmode (hupgraded rfl)
  | cancel j mode t pending hj =>
    refine ⟨hworkers, hexited, hjoined, hmode, hshut j _ fun hd => ?_⟩
    exact hcancels _ (List.mem_iff_getElem?.mpr ⟨j, hj⟩) (by cases mode <;> exact hd)
  | returned j mode hj =>
    refine ⟨hworkers, hexited, hjoined, hmode, hshut j _ fun hd => ?_⟩
    exact hcancels _ (List.mem_iff_getElem?.mpr ⟨j, hj⟩) (by cases mode <;> exact hd)
  | join hall =>
    refine ⟨hworkers, hexited, fun _ => ?_, hmode, hcancels⟩
    obtain ⟨w, hmem⟩ := List.exists_mem_of_ne_nil s.workers hworkers
    exact hexited (hall w hmem ▸ hmem)

/-! ## Runs -/

theorem ledger_of_create {threadCount hardwareConcurrency queueCapacity : Nat}
    (h : create threadCount hardwareConcurrency queueCapacity = .ok s) : Ledger s ∧ Closing s := by
  unfold create BoundedQueue.create at h
  by_cases hcapacity : queueCapacity = 0
  · rw [if_pos hcapacity] at h
    cases h
  rw [if_neg hcapacity, if_neg hcapacity] at h
  cases h
  have hpopping : ∀ n, ∀ w ∈ List.replicate n Worker.popping, w = .popping :=
    fun n w hmem => (List.mem_replicate.mp hmem).2
  refine ⟨⟨fun t => rfl, rfl, fun hne => absurd rfl hne, fun t => ?_, fun t => rfl⟩,
    ⟨?_, fun hmem => ?_, (by rintro ⟨⟩), (by rintro ⟨⟩), fun d hmem => by cases hmem⟩⟩
  · refine (tally_eq_zero fun w hmem => ?_).symm
    rw [hpopping _ w hmem]
    rfl
  · have hpos : ∀ n : Nat, (if n = 0 then 1 else n) ≠ 0 := by
      intro n
      split_ifs with hzero
      · exact Nat.one_ne_zero
      · exact hzero
    exact fun hnil => hpos _ ((List.replicate_eq_nil_iff _).mp hnil)
  · cases hpopping _ _ hmem

theorem ledger_of_reach {s₀ : State} (h₀ : Ledger s₀ ∧ Closing s₀)
    (h : Reach step (fun _ _ => True) s₀ s) : Ledger s ∧ Closing s :=
  h.invariant (fun s => Ledger s ∧ Closing s) h₀ fun _ _ _ hs _ hstep =>
    ⟨(step_effect hstep).ledger hs.1, (step_effect hstep).closing hs.2⟩

/-- No worker takes a task from a queue that is closed and empty. -/
theorem dequeued_of_reach (hs : Drained s) (h : Reach step (fun _ _ => True) s s') :
    s'.dequeued = s.dequeued := by
  refine (h.invariant (fun s' => Drained s' ∧ s'.dequeued = s.dequeued) ⟨hs, rfl⟩
    fun t a t' ht _ hstep => ⟨(step_effect hstep).drained ht.1, ?_⟩).2
  rw [← ht.2]
  cases step_effect hstep with
  | take w t items hw hitems =>
    rw [ht.1.2] at hitems
    cases hitems
  | _ => rfl

/-- A shutdown is between its section and its return. -/
def busy : Shutdown → Bool
  | .cancelling _ _ => true
  | _ => false

/-- What holds in every state of a pool. -/
structure Settles (s : State) : Prop where
  /-- at the end, each accepted task was run or cancelled, and once -/
  settled : (∀ w ∈ s.workers, w = .exited) → (∀ d ∈ s.shutdowns, busy d = false) →
    ∀ t, accepted s.submissions t = true → s.ran.count t + s.cancelled.count t = 1
  /-- no task is run twice, cancelled twice or both -/
  once : ∀ t, s.ran.count t + s.cancelled.count t ≤ 1
  /-- a task that was not accepted is neither run nor cancelled -/
  refused : ∀ t, accepted s.submissions t = false → t ∉ s.ran ∧ t ∉ s.cancelled
  /-- tasks are taken in the order of the queue -/
  order : s.dequeued.IsPrefix (s.queue.pushed.map Prod.snd)
  /-- when a shutdown that cancels has returned, no task is taken -/
  stops : .returned .cancelPending ∈ s.shutdowns → ∀ s', Reach step (fun _ _ => True) s s' →
    s'.dequeued = s.dequeued

/-- Every task that entered the queue is somewhere. -/
theorem Ledger.count (hs : Ledger s) (t : Task) :
    (accepted s.submissions t).toNat =
      tally (heldBy t) s.workers + s.ran.count t + (tally (pendingIn t) s.shutdowns +
        s.cancelled.count t) + s.queue.items.count t := by
  rw [← hs.entered, hs.order, List.count_append, List.count_append, hs.taken, hs.pending]

/-- **A pool settles every task that it accepted**, in every run. -/
theorem pool_settles (threadCount hardwareConcurrency queueCapacity : Nat) (s₀ s : State)
    (h₀ : create threadCount hardwareConcurrency queueCapacity = .ok s₀)
    (h : Reach step (fun _ _ => True) s₀ s) : Settles s := by
  obtain ⟨hledger, hclosing⟩ := ledger_of_reach (ledger_of_create h₀) h
  have hcount := hledger.count
  constructor
  · intro hexited hbusy t haccepted
    have hcount := hcount t
    obtain ⟨w, hmem⟩ := List.exists_mem_of_ne_nil s.workers hclosing.workers
    have hitems : s.queue.items = [] := (hclosing.exited (hexited w hmem ▸ hmem)).2
    have hheld : tally (heldBy t) s.workers = 0 := tally_eq_zero fun w hmem => by
      rw [hexited w hmem]
      rfl
    have hpending : tally (pendingIn t) s.shutdowns = 0 := tally_eq_zero fun d hmem => by
      cases d with
      | cancelling mode pending => cases hbusy _ hmem
      | entering mode => rfl
      | returned mode => rfl
    rw [haccepted, hitems, hheld, hpending, Bool.toNat_true, List.count_nil] at hcount
    omega
  · intro t
    have hle := Bool.toNat_le (accepted s.submissions t)
    have hcount := hcount t
    omega
  · intro t haccepted
    have hcount := hcount t
    rw [haccepted, Bool.toNat_false] at hcount
    exact ⟨List.count_eq_zero.mp (by omega), List.count_eq_zero.mp (by omega)⟩
  · rw [hledger.order, List.append_assoc]
    exact List.prefix_append _ _
  · intro hreturned s' h'
    exact dequeued_of_reach (hclosing.cancels _ hreturned rfl) h'

/-- A worker runs the first of two tasks, a shutdown drains and another cancels the second. -/
theorem pool_settles_upgrade :
    ∃ s : State, Reach step (fun _ _ => True)
        { queue := { capacity := 2 }, workers := [.popping] } s ∧
      s.ran = [0] ∧ s.cancelled = [1] ∧ s.workers = [.exited] ∧ Settles s := by
  let actions : List Action :=
    [.invoke .submit, .invoke .trySubmit, .check 0, .check 1, .push 0 false, .push 1 false, .take 0,
      .run 0, .invokeShutdown .drain, .shutdown 0, .cancel 0, .invokeShutdown .cancelPending,
      .shutdown 1, .finish 0, .take 0, .cancel 1, .cancel 1]
  obtain ⟨s, hs⟩ : ∃ s, Common.run step (fun _ _ => true) actions
      { queue := { capacity := 2 }, workers := [.popping] } = some s := ⟨_, rfl⟩
  have hreach := Reach.run (fun _ _ _ => trivial) .init hs
  refine ⟨s, hreach, ?_, ?_, ?_, pool_settles 1 8 2 _ s rfl hreach⟩ <;> cases hs <;> rfl

/-- **A task can be pending when every worker has exited**: a shutdown took it from the queue and
did not cancel it yet. -/
theorem not_pool_settles :
    ¬ ∀ (threadCount hardwareConcurrency queueCapacity : Nat) (s₀ s : State),
      create threadCount hardwareConcurrency queueCapacity = .ok s₀ →
      Reach step (fun _ _ => True) s₀ s → (∀ w ∈ s.workers, w = .exited) →
      ∀ t, accepted s.submissions t = true → s.ran.count t + s.cancelled.count t = 1 := by
  intro hclaim
  let actions : List Action :=
    [.invoke .submit, .check 0, .push 0 false, .invokeShutdown .cancelPending, .shutdown 0, .take 0]
  obtain ⟨s, hs⟩ : ∃ s, Common.run step (fun _ _ => true) actions
      { queue := { capacity := 1 }, workers := [.popping] } = some s := ⟨_, rfl⟩
  have hreach := Reach.run (fun _ _ _ => trivial) .init hs
  have hone := hclaim 1 1 1 _ s rfl hreach (by cases hs; decide) 0 (by cases hs; rfl)
  cases hs
  cases hone

end Libca.Thread.ThreadPool
