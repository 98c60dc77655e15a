import Libca.Common.CheckedInt

/-!
# Deadlines of semaphores and message queues (`process/ipc.cpp` 710-743, 956-1010)

`NamedSemaphore::try_acquire_for` and `MessageQueue::receive_for` on POSIX wait until a point in
time, which each of them computes from the clock and a number of milliseconds. A `timespec` holds
two `i64`; a computation without a result overflows.

Left out: the wait itself, the Windows branch.

* `exactDeadline_semaphoreDeadline`: **the semaphore's deadline is right for a timeout that is not
  negative and a sum that fits.** A negative timeout never gives the right one.
* `exactDeadline_queueDeadline`: the queue takes a negative timeout as zero.
* `deadlinesExact_iff`: **both are right, and the same, just there.**
-/

namespace Libca.Process

open Common

/-- A `timespec`. -/
structure Timespec where
  tvSec : Int
  tvNsec : Int
  deriving DecidableEq, Repr

namespace Timespec

/-- What `clock_gettime` gives. -/
structure IsTime (t : Timespec) : Prop where
  sec : 0 ≤ t.tvSec ∧ t.tvSec < 2 ^ 63
  nsec : 0 ≤ t.tvNsec ∧ t.tvNsec < 1000000000

/-- The nanoseconds it denotes. -/
def nanoseconds (t : Timespec) : Int := t.tvSec * 1000000000 + t.tvNsec

end Timespec

/-- The carry of both functions: `tv_sec += ns / 1000000000`, `tv_nsec = ns % 1000000000`. -/
def carried (tvSec ns : Int) : Option Timespec := do
  let sec ← sumI64 tvSec (ns.tdiv 1000000000)
  return ⟨sec, ns.tmod 1000000000⟩

/-- The deadline of `NamedSemaphore::try_acquire_for`. -/
def semaphoreDeadline (now : Timespec) (timeout : Int) : Option Timespec := do
  let scaled ← productI64 timeout 1000000
  let nanoseconds ← sumI64 now.tvNsec scaled
  carried now.tvSec nanoseconds

/-- The deadline of `MessageQueue::receive_for`. -/
def queueDeadline (now : Timespec) (timeout : Int) : Option Timespec := do
  let milliseconds := max 0 timeout
  let scaled ← productI64 milliseconds 1000000
  let ns ← sumI64 now.tvNsec scaled
  carried now.tvSec ns

/-! ## What they are for -/

/-- The time `timeout` milliseconds from now, in nanoseconds. -/
def due (now : Timespec) (timeout : Int) : Int := now.nanoseconds + max 0 timeout * 1000000

/-- A deadline that was computed is a proper time, and the right one if that has seconds. -/
def ExactDeadline (now : Timespec) (timeout : Int) (deadline : Option Timespec) : Prop :=
  ∃ d, deadline = some d ∧ (0 ≤ d.tvNsec ∧ d.tvNsec < 1000000000) ∧
    (InI64 (due now timeout / 1000000000) → d.nanoseconds = due now timeout)

/-- Both are, and they are the same. -/
def DeadlinesExact (now : Timespec) (timeout : Int) : Prop :=
  ExactDeadline now timeout (semaphoreDeadline now timeout) ∧
    ExactDeadline now timeout (queueDeadline now timeout) ∧
    semaphoreDeadline now timeout = queueDeadline now timeout

/-- The sums of a deadline fit. -/
def Within (now : Timespec) (timeout : Int) : Prop :=
  now.tvNsec + timeout * 1000000 < 2 ^ 63 ∧
    now.tvSec + (now.tvNsec + timeout * 1000000) / 1000000000 < 2 ^ 63

instance (now : Timespec) (timeout : Int) : Decidable (Within now timeout) :=
  inferInstanceAs (Decidable (_ ∧ _))

/-! ## The computations -/

variable {now d : Timespec} {timeout : Int}

theorem carried_eq_some {tvSec ns : Int} : carried tvSec ns = some d ↔
    InI64 (tvSec + ns.tdiv 1000000000) ∧ d = ⟨tvSec + ns.tdiv 1000000000, ns.tmod 1000000000⟩ := by
  unfold carried
  rw [Option.bind_eq_bind, Option.bind_eq_some_iff]
  constructor
  · rintro ⟨sec, hsec, hd⟩
    obtain ⟨hin, rfl⟩ := sumI64_eq_some.mp hsec
    exact ⟨hin, (Option.some.inj hd).symm⟩
  · rintro ⟨hin, rfl⟩
    exact ⟨_, sumI64_eq_some.mpr ⟨hin, rfl⟩, rfl⟩

/-- The semaphore's computation, step by step. -/
theorem semaphoreDeadline_eq_some : semaphoreDeadline now timeout = some d ↔
    InI64 (timeout * 1000000) ∧ InI64 (now.tvNsec + timeout * 1000000) ∧
      carried now.tvSec (now.tvNsec + timeout * 1000000) = some d := by
  unfold semaphoreDeadline
  rw [Option.bind_eq_bind, Option.bind_eq_some_iff]
  constructor
  · rintro ⟨scaled, hscaled, h⟩
    obtain ⟨hproduct, rfl⟩ := productI64_eq_some.mp hscaled
    obtain ⟨ns, hns, hd⟩ := Option.bind_eq_some_iff.mp h
    obtain ⟨hsum, rfl⟩ := sumI64_eq_some.mp hns
    exact ⟨hproduct, hsum, hd⟩
  · rintro ⟨hproduct, hsum, hd⟩
    refine ⟨_, productI64_eq_some.mpr ⟨hproduct, rfl⟩, ?_⟩
    exact Option.bind_eq_some_iff.mpr ⟨_, sumI64_eq_some.mpr ⟨hsum, rfl⟩, hd⟩

/-- The queue computes what the semaphore does for the timeout it takes. -/
theorem queueDeadline_eq (now : Timespec) (timeout : Int) :
    queueDeadline now timeout = semaphoreDeadline now (max 0 timeout) := rfl

theorem due_max (now : Timespec) (timeout : Int) : due now (max 0 timeout) = due now timeout := by
  unfold due
  rw [Int.max_eq_right (Int.le_max_left 0 timeout)]

/-! ## The deadlines -/

/-- A sum that fits is carried to the right time. -/
theorem semaphoreDeadline_of_within (hnow : now.IsTime) (htimeout : 0 ≤ timeout)
    (hfits : Within now timeout) :
    ∃ d, semaphoreDeadline now timeout = some d ∧ (0 ≤ d.tvNsec ∧ d.tvNsec < 1000000000) ∧
      d.nanoseconds = due now timeout := by
  obtain ⟨hnsec, hlt⟩ := hnow.nsec
  obtain ⟨hsec, hsecLt⟩ := hnow.sec
  obtain ⟨hsum, hcarry⟩ := hfits
  have hcount : 0 ≤ now.tvNsec + timeout * 1000000 := by omega
  have hdiv : (now.tvNsec + timeout * 1000000).tdiv 1000000000 =
    (now.tvNsec + timeout * 1000000) / 1000000000 :=
    Int.tdiv_eq_ediv_of_nonneg hcount
  refine ⟨_, semaphoreDeadline_eq_some.mpr ⟨⟨by omega, by omega⟩, ⟨by omega, hsum⟩,
    carried_eq_some.mpr ⟨?_, rfl⟩⟩, tmod_bounds hcount (by omega), ?_⟩
  · rw [hdiv]
    exact ⟨by omega, hcarry⟩
  · have hwhole := tdiv_tmod_carry (now.tvNsec + timeout * 1000000) 1000000000
    unfold Timespec.nanoseconds due Timespec.nanoseconds
    rw [Int.max_eq_right htimeout]
    dsimp only
    omega

/-- **The semaphore's deadline is right for a timeout that is not negative and a sum that fits.** -/
theorem exactDeadline_semaphoreDeadline (hnow : now.IsTime) :
    ExactDeadline now timeout (semaphoreDeadline now timeout) ↔ 0 ≤ timeout ∧
      Within now timeout := by
  obtain ⟨hnsec, hlt⟩ := hnow.nsec
  obtain ⟨hsec, hsecLt⟩ := hnow.sec
  constructor
  · rintro ⟨d, hd, ⟨hnonneg, -⟩, hdue⟩
    obtain ⟨hproduct, hsum, hcarried⟩ := semaphoreDeadline_eq_some.mp hd
    obtain ⟨hcarry, rfl⟩ := carried_eq_some.mp hcarried
    have hwhole := tdiv_tmod_carry (now.tvNsec + timeout * 1000000) 1000000000
    by_cases htimeout : 0 ≤ timeout
    · rw [Int.tdiv_eq_ediv_of_nonneg (by omega)] at hcarry
      exact ⟨htimeout, hsum.2, hcarry.2⟩
    · -- The clock's own time is due, and what was carried is before it.
      have hnone : max 0 timeout = 0 := Int.max_eq_left (by omega)
      unfold due Timespec.nanoseconds at hdue
      rw [hnone] at hdue
      have hsame := hdue ⟨by omega, by omega⟩
      dsimp only at hsame
      omega
  · rintro ⟨htimeout, hfits⟩
    obtain ⟨d, hd, hnsec, hdue⟩ := semaphoreDeadline_of_within hnow htimeout hfits
    exact ⟨d, hd, hnsec, fun _ => hdue⟩

/-- The queue's deadline is right where the sum fits for the timeout it takes. -/
theorem exactDeadline_queueDeadline (hnow : now.IsTime) :
    ExactDeadline now timeout (queueDeadline now timeout) ↔ Within now (max 0 timeout) := by
  have hiff := @exactDeadline_semaphoreDeadline _ (max 0 timeout) hnow
  unfold ExactDeadline at hiff ⊢
  rw [due_max] at hiff
  rw [queueDeadline_eq, hiff]
  exact and_iff_right (Int.le_max_left 0 timeout)

/-- **The two deadlines are right, and the same, for a timeout that is not negative and sums that
fit.** -/
theorem deadlinesExact_iff (hnow : now.IsTime) :
    DeadlinesExact now timeout ↔ 0 ≤ timeout ∧ Within now timeout := by
  unfold DeadlinesExact
  rw [exactDeadline_semaphoreDeadline hnow, exactDeadline_queueDeadline hnow]
  constructor
  · exact fun h => h.1
  · intro h
    have hmax : max 0 timeout = timeout := Int.max_eq_right h.1
    rw [queueDeadline_eq, hmax]
    exact ⟨h, h.2, rfl⟩

/-- Half a second past, and a second to wait. -/
theorem deadlinesExact_second : DeadlinesExact ⟨7, 500000000⟩ 1000 :=
  (deadlinesExact_iff ⟨by decide, by decide⟩).mpr ⟨by decide, by decide⟩

/-- A timeout of minus one leaves negative nanoseconds in the semaphore's deadline. -/
theorem not_deadlinesExact : ¬ ∀ now timeout, Timespec.IsTime now → InI64 timeout →
    DeadlinesExact now timeout := by
  intro h
  obtain ⟨d, hd, hnsec, -⟩ := (h ⟨0, 0⟩ (-1) ⟨by decide, by decide⟩ (by decide)).1
  have hdeadline : semaphoreDeadline ⟨0, 0⟩ (-1) = some ⟨0, -1000000⟩ := by decide
  obtain rfl := Option.some.inj (hdeadline.symm.trans hd)
  exact absurd hnsec.1 (by decide)

end Libca.Process
