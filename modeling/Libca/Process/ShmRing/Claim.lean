import Libca.Process.ShmRing.System

/-!
# The writer claim of `ShmRingQueue` (`process/ipc.cpp` 1311-1361)

`writer_slot` and `writer_birth` are stored and loaded one after the other, so a process that
judges another one dead, or finds its own claim in place, can see halves of two different claims.
`SeesClaim` says of an access that it does not, and `ClaimInv` is the invariant of the runs whose
accesses all meet it:

* the claimant is the process whose pid is in `writer_slot`, a running process that holds the claim
  is the claimant, and no running process has been taken over;
* `kRingWriterElecting` is in `writer_slot` while a process is inside `reset_ring`, and there is one
  at most.

`ClaimInv.access` says once what an access must leave alone; `inv_stepEnsure` to `inv_stepClose`
are the accesses of the calls, and `mutualExclusion_of_claimSound` the result. Between its
compare-exchange on `writer_slot` and its store of `writer_birth` a process is judged by the stamp
of an earlier owner: `not_mutualExclusion` is the run in which it is taken over there.
-/

namespace Libca.Process.ShmRing

open Common

/-! ## What a task says about its process's claim -/

/-- The pid a task is about to take over. -/
def Task.electing : Task → Option Nat
  | .ensure _ (.elect held) => some held
  | .probe (.elect held) => some held
  | _ => none

/-- Inside `reset_ring`. -/
def Task.isReset : Task → Bool
  | .reset _ _ => true
  | _ => false

/-- Between the compare-exchange that claims the queue and the store of the birth stamp. -/
def Task.storingBirth : Task → Bool
  | .ensure _ (.storeBirth _) => true
  | _ => false

/-- A value of `writer_slot` that names a process. -/
def IsPid (held : Nat) : Prop := held ≠ kRingWriterFree ∧ held ≠ kRingWriterElecting

/-- The judgement condemned a process that has crashed: if it was made on the stamp of the
claimant of `held`, that claimant is dead. -/
def Judged (c : Config) (crashed : List ProcId) (held : Nat) (j : Judgement) : Prop :=
  ∀ v, j.claimant = some v → (c.identity v).pid = held → (c.identity v).birth = j.birth →
    v ∈ crashed

/-- Past the store of `writer_birth` in `reset_ring`. -/
def ResetPc.stamped : ResetPc → Bool
  | .storeHeartbeat _ => true
  | .storeSlot _ => true
  | _ => false

/-- What the task of a running process says about its claim. -/
def TaskOk (c : Config) (o : Owner) (claimant : Option ProcId) (crashed : List ProcId) (p : ProcId)
    (pr : Proc) : Prop :=
  match pr.task with
  | .ensure _ .clearResidue => claimant ≠ some p
  | .ensure _ .claim => claimant ≠ some p
  | .ensure _ (.storeBirth _) => claimant = some p
  | .ensure _ (.storeHeartbeat _) => claimant = some p
  | .ensure _ (.loadHeartbeat held) => claimant ≠ some p ∧ IsPid held
  | .ensure _ (.loadBirth held) => claimant ≠ some p ∧ IsPid held
  | .ensure _ (.elect held) => claimant ≠ some p ∧ IsPid held ∧ Judged c crashed held pr.judgement
  | .probe (.loadHeartbeat held) => claimant ≠ some p ∧ IsPid held
  | .probe (.loadBirth held) => claimant ≠ some p ∧ IsPid held
  | .probe (.elect held) => claimant ≠ some p ∧ IsPid held ∧ Judged c crashed held pr.judgement
  | .reset caller pc => claimant ≠ some p ∧
      (caller.claim = true → pc.stamped = true → o.writerBirth = (c.identity p).birth)
  | .send _ _ => pr.holdsClaim = true
  | .close _ => pr.holdsClaim = true
  | _ => True

/-- What holds of a running process, given the writer's identity, the claimant and the crashed
processes. -/
structure ProcOk (c : Config) (o : Owner) (claimant : Option ProcId) (crashed : List ProcId)
    (p : ProcId) (pr : Proc) : Prop where
  holds : pr.holdsClaim = true → claimant = some p
  claimed : pr.handle.writerClaimed = true → pr.holdsClaim = true
  birth : claimant = some p → pr.task.storingBirth = false → o.writerBirth = (c.identity p).birth
  task : TaskOk c o claimant crashed p pr

/-- The invariant of the claim. -/
structure ClaimInv (c : Config) (s : State) : Prop where
  pid_unique : ∀ p ∈ s.running, ∀ q ∈ s.running, (c.identity p).pid = (c.identity q).pid → p = q
  disjoint : ∀ p ∈ s.running, p ∉ s.crashed
  claimant_slot : ∀ v, s.claimant = some v →
    s.seg.owner.writerSlot = (c.identity v).pid ∧ (v ∈ s.running ∨ v ∈ s.crashed)
  slot_claimant : IsPid s.seg.owner.writerSlot → s.claimant ≠ none
  elector : ∀ p, (s.procs p).task.isReset = true →
    s.seg.owner.writerSlot = kRingWriterElecting ∧
      ∀ q, (s.procs q).task.isReset = true → q = p
  procs : ∀ p ∈ s.running, ProcOk c s.seg.owner s.claimant s.crashed p (s.procs p)
  seized : s.seized = []

variable {c : Config} {s s' : State} {p : ProcId} {pr : Proc}

theorem isPid_pid (c : Config) (p : ProcId) : IsPid (c.identity p).pid := by
  have := c.two_le_pid p
  unfold IsPid kRingWriterFree kRingWriterElecting
  omega

/-- A step of another process keeps `ProcOk` when it does not touch this one's claim. -/
theorem ProcOk.frame {o o' : Owner} {cl cl' : Option ProcId} {cr cr' : List ProcId}
    (h : ProcOk c o cl cr p pr) (hcl : cl' = some p ↔ cl = some p)
    (hb : cl = some p ∨ pr.task.isReset = true → o'.writerBirth = o.writerBirth)
    (hcr : ∀ v ∈ cr, v ∈ cr') :
    ProcOk c o' cl' cr' p pr where
  holds hh := hcl.mpr (h.holds hh)
  claimed := h.claimed
  birth e ht := (hb (.inl (hcl.mp e))).trans (h.birth (hcl.mp e) ht)
  task := by
    have hj : ∀ held, Judged c cr held pr.judgement → Judged c cr' held pr.judgement :=
      fun _ hj v hv hp hbv => hcr v (hj v hv hp hbv)
    have ht := h.task
    unfold TaskOk at ht ⊢
    split at ht <;> simp_all [Task.isReset]

/-- The claim of a process that the slot does not name is not its own. -/
theorem ClaimInv.claimant_ne (hI : ClaimInv c s)
    (h : s.seg.owner.writerSlot ≠ (c.identity p).pid) : s.claimant ≠ some p :=
  fun e => h (hI.claimant_slot p e).1

/-- `s'` is `s` after an access of `p` that leaves its record as `pr`. -/
structure Accessed (s s' : State) (p : ProcId) (pr : Proc) : Prop where
  running : s'.running = s.running
  crashed : s'.crashed = s.crashed
  procs : ∀ q, s'.procs q = if q = p then pr else s.procs q

/-- An access by which no running process is taken over. -/
structure Moves (s s' : State) (p : ProcId) (pr : Proc) : Prop
    extends Accessed s s' p pr where
  seized : s'.seized = s.seized

/-- **The access rule.** An access of `p` keeps the invariant when the claim of every other
running process is untouched, the sentinel is left only by the process that resets the ring and
entered only from another value, and `p` itself is as it should be. -/
theorem ClaimInv.access (hI : ClaimInv c s) (hm : Moves s s' p pr)
    (hslot : ∀ v, s'.claimant = some v →
      s'.seg.owner.writerSlot = (c.identity v).pid ∧ (v ∈ s.running ∨ v ∈ s.crashed))
    (hfree : IsPid s'.seg.owner.writerSlot → s'.claimant ≠ none)
    (hothers : ∀ q ∈ s.running, q ≠ p → (s'.claimant = some q ↔ s.claimant = some q))
    (hbirth : ∀ q ∈ s.running, q ≠ p → s.claimant = some q →
      s'.seg.owner.writerBirth = s.seg.owner.writerBirth)
    (hleave : s.seg.owner.writerSlot = kRingWriterElecting →
      s'.seg.owner.writerSlot = kRingWriterElecting ∨
        (s.procs p).task.isReset = true ∧ pr.task.isReset = false)
    (henter : pr.task.isReset = true →
      s'.seg.owner.writerSlot = kRingWriterElecting ∧
        ((s.procs p).task.isReset = true ∨ s.seg.owner.writerSlot ≠ kRingWriterElecting))
    (hstamp : s.seg.owner.writerSlot = kRingWriterElecting →
      s'.seg.owner.writerBirth = s.seg.owner.writerBirth ∨ (s.procs p).task.isReset = true)
    (hproc : ProcOk c s'.seg.owner s'.claimant s.crashed p pr) : ClaimInv c s' where
  pid_unique := by rw [hm.running]; exact hI.pid_unique
  disjoint := by rw [hm.running, hm.crashed]; exact hI.disjoint
  claimant_slot := by rw [hm.running, hm.crashed]; exact hslot
  slot_claimant := hfree
  elector := by
    intro q hq
    rw [hm.procs] at hq
    by_cases hqp : q = p
    · subst hqp
      rw [if_pos rfl] at hq
      obtain ⟨he, hfrom⟩ := henter hq
      refine ⟨he, fun r hr => ?_⟩
      by_contra hrq
      rw [hm.procs, if_neg hrq] at hr
      obtain ⟨her, hu⟩ := hI.elector r hr
      rcases hfrom with hp | hne
      · exact hrq (hu q hp).symm
      · exact hne her
    · rw [if_neg hqp] at hq
      obtain ⟨hel, hu⟩ := hI.elector q hq
      rcases hleave hel with he | ⟨hp, -⟩
      · refine ⟨he, fun r hr => ?_⟩
        rw [hm.procs] at hr
        by_cases hrp : r = p
        · subst hrp
          rw [if_pos rfl] at hr
          rcases (henter hr).2 with hp | hne
          · exact hu r hp
          · exact absurd hel hne
        · rw [if_neg hrp] at hr
          exact hu r hr
      · exact absurd (hu p hp).symm hqp
  procs := by
    intro q hq
    rw [hm.running] at hq
    rw [hm.crashed, hm.procs]
    by_cases hqp : q = p
    · subst hqp
      rw [if_pos rfl]
      exact hproc
    · rw [if_neg hqp]
      refine (hI.procs q hq).frame (hothers q hq hqp) (fun h => ?_) fun _ hv => hv
      rcases h with h | h
      · exact hbirth q hq hqp h
      · obtain ⟨hel, hu⟩ := hI.elector q h
        exact (hstamp hel).resolve_right fun hp => hqp (hu p hp).symm
  seized := by rw [hm.seized]; exact hI.seized

/-- The access rule for an access that changes neither `writer_slot` nor `writer_birth`. -/
theorem ClaimInv.quiet (hI : ClaimInv c s) (hm : Moves s s' p pr)
    (hslot : s'.seg.owner.writerSlot = s.seg.owner.writerSlot)
    (hbirth : s'.seg.owner.writerBirth = s.seg.owner.writerBirth) (hcl : s'.claimant = s.claimant)
    (hreset : pr.task.isReset = true → (s.procs p).task.isReset = true)
    (hproc : ProcOk c s'.seg.owner s'.claimant s.crashed p pr) : ClaimInv c s' :=
  hI.access hm (by rw [hcl, hslot]; exact hI.claimant_slot)
    (by rw [hcl, hslot]; exact hI.slot_claimant) (fun _ _ _ => by rw [hcl])
    (fun _ _ _ _ => hbirth) (fun h => .inl (hslot.trans h))
    (fun h => ⟨hslot.trans (hI.elector p (hreset h)).1, .inl (hreset h)⟩)
    (fun _ => .inl hbirth) hproc

@[simp] theorem storeOwner_self (s : State) (p : ProcId) : s.storeOwner p s.seg.owner = s := by
  simp [State.storeOwner]

theorem moves_setProc (s : State) (p : ProcId) (pr : Proc) : Moves s (s.setProc p pr) p pr :=
  ⟨⟨rfl, rfl, fun _ => rfl⟩, rfl⟩

theorem moves_storeOwner (s : State) (p : ProcId) (o : Owner) (pr : Proc) :
    Moves s ((s.storeOwner p o).setProc p pr) p pr :=
  ⟨⟨rfl, rfl, fun _ => rfl⟩, rfl⟩

/-- The claim of another running process is not recorded under this process's pid. -/
theorem ClaimInv.not_claimant (hI : ClaimInv c s) (hp : p ∈ s.running)
    (h : s.seg.owner.writerSlot = (c.identity p).pid) :
    ∀ q ∈ s.running, q ≠ p → s.claimant ≠ some q := by
  intro q hq hqp e
  exact hqp (hI.pid_unique q hq p hp ((hI.claimant_slot q e).1.symm.trans h))

theorem ClaimInv.claimant_none (hI : ClaimInv c s) (h : ¬ IsPid s.seg.owner.writerSlot) :
    s.claimant = none := by
  cases hv : s.claimant with
  | none => rfl
  | some v =>
    refine absurd ?_ h
    rw [(hI.claimant_slot v hv).1]
    exact isPid_pid c v

/-- The access rule for an access that leaves no claim: it frees `writer_slot` or puts the sentinel
there, over a value that was not the claim of another running process. -/
theorem ClaimInv.vacate (hI : ClaimInv c s) (hm : Moves s s' p pr) (hcl : s'.claimant = none)
    (hslot : ¬ IsPid s'.seg.owner.writerSlot)
    (hothers : ∀ q ∈ s.running, q ≠ p → s.claimant ≠ some q)
    (hleave : s.seg.owner.writerSlot = kRingWriterElecting →
      (s.procs p).task.isReset = true ∧ pr.task.isReset = false) (henter : pr.task.isReset = true →
      s'.seg.owner.writerSlot = kRingWriterElecting ∧
        s.seg.owner.writerSlot ≠ kRingWriterElecting)
    (hproc : ProcOk c s'.seg.owner none s.crashed p pr) : ClaimInv c s' :=
  hI.access hm (by rw [hcl]; exact fun _ h => nomatch h) (fun h => absurd h hslot)
    (fun q hq hqp => by
      rw [hcl]
      exact ⟨fun h => (nomatch h), fun h => absurd h (hothers q hq hqp)⟩)
    (fun q hq hqp e => absurd e (hothers q hq hqp)) (fun h => .inr (hleave h))
    (fun h => ⟨(henter h).1, .inr (henter h).2⟩) (fun h => .inr (hleave h).1)
    (by rw [hcl]; exact hproc)

/-- The access rule for an access by which `p` becomes the claimant, over a slot that was not the
claim of another running process. -/
theorem ClaimInv.acquire (hI : ClaimInv c s) (hp : p ∈ s.running) (hm : Moves s s' p pr)
    (hcl : s'.claimant = some p) (hslot : s'.seg.owner.writerSlot = (c.identity p).pid)
    (hothers : ∀ q ∈ s.running, q ≠ p → s.claimant ≠ some q)
    (hleave : s.seg.owner.writerSlot = kRingWriterElecting → (s.procs p).task.isReset = true)
    (hreset : pr.task.isReset = false)
    (hproc : ProcOk c s'.seg.owner (some p) s.crashed p pr) : ClaimInv c s' :=
  hI.access hm
    (by
      rw [hcl]
      rintro v ⟨⟩
      exact ⟨hslot, .inl hp⟩)
    (fun _ => by rw [hcl]; exact Option.some_ne_none p)
    (fun q hq hqp => by
      rw [hcl]
      exact ⟨fun h => absurd (Option.some.inj h).symm hqp, fun h => absurd h (hothers q hq hqp)⟩)
    (fun q hq hqp e => absurd e (hothers q hq hqp)) (fun h => .inr ⟨hleave h, hreset⟩)
    (fun h => absurd h (by rw [hreset]; exact Bool.false_ne_true)) (fun h => .inr (hleave h))
    (by rw [hcl]; exact hproc)

/-! ## The accesses keep the invariant -/

/-- The load of `writer_birth` that decides whether `writer_slot` is the process's own claim. -/
def Task.adopting : Task → Bool
  | .ensure _ .loadOwnBirth => true
  | _ => false

/-- The condition on an access under which the two halves of a claim, `writer_slot` and
`writer_birth`, are seen together.
* `takeover`: when a compare-exchange into the sentinel is about to succeed, the stamp it was judged
  on is the present claimant's own, and the claim has not changed hands since it was loaded.
* `adopt`: when a process finds its own birth stamp after it had found its own pid, the slot still
  holds that pid. -/
structure SeesClaim (c : Config) (s : State) (p : ProcId) : Prop where
  takeover : ∀ held ∈ (s.procs p).task.electing, s.seg.owner.writerSlot = held →
    (s.procs p).judgement.claimant = s.claimant ∧
      ∀ v ∈ s.claimant, (s.procs p).judgement.birth = (c.identity v).birth
  adopt : (s.procs p).task.adopting = true → s.seg.owner.writerBirth = (c.identity p).birth →
    s.seg.owner.writerSlot = (c.identity p).pid

instance (c : Config) (s : State) (p : ProcId) : Decidable (SeesClaim c s p) :=
  decidable_of_iff
    ((∀ held ∈ (s.procs p).task.electing, s.seg.owner.writerSlot = held →
        (s.procs p).judgement.claimant = s.claimant ∧
          ∀ v ∈ s.claimant, (s.procs p).judgement.birth = (c.identity v).birth) ∧
      ((s.procs p).task.adopting = true → s.seg.owner.writerBirth = (c.identity p).birth →
        s.seg.owner.writerSlot = (c.identity p).pid))
    ⟨fun h => ⟨h.1, h.2⟩, fun h => ⟨h.1, h.2⟩⟩

/-- A running process is alive by its pid, if its stamp is compared by its own stamp. -/
theorem alive_running {birth : Nat} (hp : p ∈ s.running)
    (h : birth = 0 ∨ (c.identity p).birth = 0 ∨ (c.identity p).birth = birth) :
    s.alive c (c.identity p).pid birth = true := by
  unfold State.alive
  rw [Bool.and_eq_true, List.any_eq_true]
  exact ⟨decide_eq_true (c.two_le_pid p), p, hp, decide_eq_true ⟨rfl, h⟩⟩

theorem judged_judge (hI : ClaimInv c s) {held : Nat}
    (h : s.alive c held s.seg.owner.writerBirth = false) : Judged c s.crashed held s.judge := by
  intro v hv hp hb
  rcases (hI.claimant_slot v hv).2 with hrun | hcr
  · refine absurd ?_ (Bool.eq_false_iff.mp h)
    subst hp
    exact alive_running hrun (.inr (.inr hb))
  · exact hcr

/-- A seizure of a crashed claimant is not recorded. -/
theorem recordSeizure_of_crashed (hI : ClaimInv c s)
    (h : ∀ v, s.claimant = some v → v ∈ s.crashed) :
    (s.recordSeizure p).seized = s.seized := by
  unfold State.recordSeizure
  cases hv : s.claimant with
  | none => rfl
  | some v => exact if_neg fun hr => hI.disjoint v hr (h v hv)

/-- **A takeover hits a crashed process only.** -/
theorem claimant_crashed (hI : ClaimInv c s) {held : Nat}
    (hel : (s.procs p).task.electing = some held)
    (hj : Judged c s.crashed held (s.procs p).judgement)
    (hslot : s.seg.owner.writerSlot = held) (hok : SeesClaim c s p) :
    ∀ v, s.claimant = some v → v ∈ s.crashed := by
  intro v hv
  obtain ⟨hcl, hb⟩ := hok.takeover held hel hslot
  exact hj v (hcl.trans hv) (by rw [← hslot]; exact (hI.claimant_slot v hv).1.symm) (hb v hv).symm

variable {now : Nat}

theorem inv_stepEnsure (hI : ClaimInv c s) (hp : p ∈ s.running) {data : List Byte}
    {pc : EnsurePc} (ht : (s.procs p).task = .ensure data pc) (hok : SeesClaim c s p) :
    ClaimInv c (s.stepEnsure c p now data pc) := by
  have hP := hI.procs p hp
  have hT := hP.task
  unfold TaskOk at hT
  rw [ht] at hT
  have hpid := isPid_pid c p
  unfold State.stepEnsure
  cases pc with
  | loadSlot =>
    have hb : s.claimant = some p → s.seg.owner.writerBirth = (c.identity p).birth :=
      fun e => hP.birth e (by rw [ht]; rfl)
    unfold ensureStep
    dsimp only
    split_ifs with h1 h2 h3 <;> dsimp only <;> rw [storeOwner_self]
    · exact hI.quiet (moves_setProc ..) rfl rfl rfl nofun
        ⟨hP.holds, hP.claimed, fun e _ => hb e, trivial⟩
    · exact hI.quiet (moves_setProc ..) rfl rfl rfl nofun
        ⟨hP.holds, hP.claimed, fun e _ => hb e, hI.claimant_ne h1⟩
    · refine hI.quiet (moves_setProc ..) rfl rfl rfl nofun ⟨nofun, fun h => ?_, fun e _ => hb e,
        trivial⟩
      exact absurd (hP.holds (hP.claimed h)) (hI.claimant_ne h1)
    · exact hI.quiet (moves_setProc ..) rfl rfl rfl nofun
        ⟨hP.holds, hP.claimed, fun e _ => hb e, hI.claimant_ne h1, h2, h3⟩
  | loadOwnBirth =>
    have hb : s.claimant = some p → s.seg.owner.writerBirth = (c.identity p).birth :=
      fun e => hP.birth e (by rw [ht]; rfl)
    unfold ensureStep
    dsimp only
    split_ifs with h1 <;> dsimp only <;> rw [storeOwner_self]
    · have hslot := hok.adopt (by rw [ht]; rfl) h1
      refine hI.acquire hp ⟨⟨rfl, rfl, fun _ => rfl⟩, rfl⟩ rfl hslot (hI.not_claimant hp hslot)
        (fun h => absurd (hslot.symm.trans h) hpid.2) rfl
        ⟨fun _ => rfl, fun _ => rfl, fun _ _ => h1, rfl⟩
    · exact hI.quiet (moves_setProc ..) rfl rfl rfl nofun
        ⟨hP.holds, hP.claimed, fun e _ => hb e, fun e => h1 (hb e)⟩
  | clearResidue =>
    unfold ensureStep
    dsimp only
    split_ifs with h1 <;> dsimp only
    · have hcl : (s.storeOwner p { s.seg.owner with writerSlot := kRingWriterFree }).claimant =
        none := by
        simp [State.storeOwner, h1, hpid.1.symm]
      refine hI.vacate (moves_storeOwner ..) hcl (fun h => h.1 rfl) (hI.not_claimant hp h1)
        (fun h => absurd (h1.symm.trans h) hpid.2) nofun
        ⟨fun h => absurd (hP.holds h) hT, hP.claimed, nofun, trivial⟩
    · rw [storeOwner_self]
      exact hI.quiet (moves_setProc ..) rfl rfl rfl nofun
        ⟨hP.holds, hP.claimed, fun e => absurd e hT, trivial⟩
  | claim =>
    unfold ensureStep
    dsimp only
    split_ifs with h1 <;> dsimp only
    · have hcl : (s.storeOwner p { s.seg.owner with writerSlot := (c.identity p).pid }).claimant =
          some p := by
        simp [State.storeOwner, h1, hpid.1, hpid.2]
      have hnone := hI.claimant_none fun h => h.1 h1
      refine hI.acquire hp (moves_storeOwner ..) hcl rfl (fun q _ _ => by rw [hnone]; nofun)
        (fun h => absurd (h1.symm.trans h) (by decide)) rfl
        ⟨fun h => absurd (hP.holds h) hT, hP.claimed, nofun, rfl⟩
    · rw [storeOwner_self]
      exact hI.quiet (moves_setProc ..) rfl rfl rfl nofun
        ⟨hP.holds, hP.claimed, fun e => absurd e hT, trivial⟩
  | storeBirth t =>
    have hcl : s.claimant = some p := hT
    have hslot := (hI.claimant_slot p hcl).1
    unfold ensureStep
    dsimp only
    refine hI.acquire hp (moves_storeOwner ..) (by simp [State.storeOwner, State.setProc, hcl])
      hslot
      (hI.not_claimant hp hslot) (fun h => absurd (hslot.symm.trans h) hpid.2) rfl
      ⟨fun _ => rfl, hP.claimed, fun _ _ => rfl, rfl⟩
  | storeHeartbeat t =>
    have hslot := (hI.claimant_slot p hT).1
    unfold ensureStep
    dsimp only
    refine hI.acquire hp ⟨⟨rfl, rfl, fun _ => rfl⟩, rfl⟩ rfl hslot
      (hI.not_claimant hp hslot) (fun h => absurd (hslot.symm.trans h) hpid.2) rfl
      ⟨fun _ => rfl, fun _ => rfl, fun _ _ => hP.birth hT (by rw [ht]; rfl), rfl⟩
  | loadHeartbeat held =>
    unfold ensureStep
    dsimp only
    split_ifs with h1 <;> dsimp only <;> rw [storeOwner_self]
    · exact hI.quiet (moves_setProc ..) rfl rfl rfl nofun
        ⟨hP.holds, hP.claimed, fun e => absurd e hT.1, hT⟩
    · refine hI.quiet (moves_setProc ..) rfl rfl rfl nofun
        ⟨nofun, fun h => ?_, fun e => absurd e hT.1, trivial⟩
      exact absurd (hP.holds (hP.claimed h)) hT.1
  | loadBirth held =>
    unfold ensureStep
    dsimp only
    split_ifs with h1 <;> dsimp only <;> rw [storeOwner_self]
    · refine hI.quiet (moves_setProc ..) rfl rfl rfl nofun
        ⟨nofun, fun h => ?_, fun e => absurd e hT.1, trivial⟩
      exact absurd (hP.holds (hP.claimed h)) hT.1
    · exact hI.quiet (moves_setProc ..) rfl rfl rfl nofun
        ⟨hP.holds, hP.claimed, fun e => absurd e hT.1, hT.1, hT.2,
          judged_judge hI (by simpa using h1)⟩
  | elect held =>
    unfold ensureStep
    dsimp only
    split_ifs with h1 <;> dsimp only
    · have hdead := claimant_crashed hI (by rw [ht]; rfl) hT.2.2 h1 hok
      have hcl : ((s.recordSeizure p).storeOwner p
          { s.seg.owner with writerSlot := kRingWriterElecting }).claimant = none := by
        simp [State.storeOwner, State.recordSeizure, h1, hT.2.1.2.symm]
      refine hI.vacate ⟨⟨rfl, rfl, fun _ => rfl⟩, recordSeizure_of_crashed hI hdead⟩ hcl
        (fun h => h.2 rfl) (fun q hq _ e => hI.disjoint q hq (hdead q e))
        (fun h => absurd (h1.symm.trans h) hT.2.1.2)
        (fun _ => ⟨rfl, fun h => hT.2.1.2 (h1.symm.trans h)⟩)
        ⟨fun h => absurd (hP.holds h) hT.1, hP.claimed, nofun, nofun, nofun⟩
    · rw [storeOwner_self]
      exact hI.quiet (moves_setProc ..) rfl rfl rfl nofun
        ⟨hP.holds, hP.claimed, fun e => absurd e hT.1, trivial⟩

theorem inv_stepProbe (hI : ClaimInv c s) (hp : p ∈ s.running) {pc : ProbePc}
    (ht : (s.procs p).task = .probe pc) (hok : SeesClaim c s p) :
    ClaimInv c (s.stepProbe c p now pc) := by
  have hP := hI.procs p hp
  have hT := hP.task
  unfold TaskOk at hT
  rw [ht] at hT
  have hb : s.claimant = some p → s.seg.owner.writerBirth = (c.identity p).birth :=
    fun e => hP.birth e (by rw [ht]; rfl)
  unfold State.stepProbe
  cases pc with
  | loadSlot =>
    unfold probeStep
    dsimp only
    split_ifs with h1 <;> dsimp only <;> rw [storeOwner_self]
    · exact hI.quiet (moves_setProc ..) rfl rfl rfl nofun
        ⟨hP.holds, hP.claimed, fun e _ => hb e, trivial⟩
    · rw [not_or, not_or] at h1
      exact hI.quiet (moves_setProc ..) rfl rfl rfl nofun
        ⟨hP.holds, hP.claimed, fun e _ => hb e, hI.claimant_ne h1.2.2, h1.1, h1.2.1⟩
  | loadHeartbeat held =>
    unfold probeStep
    dsimp only
    split_ifs with h1 <;> dsimp only <;> rw [storeOwner_self]
    · exact hI.quiet (moves_setProc ..) rfl rfl rfl nofun
        ⟨hP.holds, hP.claimed, fun e _ => hb e, hT⟩
    · exact hI.quiet (moves_setProc ..) rfl rfl rfl nofun
        ⟨hP.holds, hP.claimed, fun e _ => hb e, trivial⟩
  | loadBirth held =>
    unfold probeStep
    dsimp only
    split_ifs with h1 <;> dsimp only <;> rw [storeOwner_self]
    · exact hI.quiet (moves_setProc ..) rfl rfl rfl nofun
        ⟨hP.holds, hP.claimed, fun e _ => hb e, trivial⟩
    · exact hI.quiet (moves_setProc ..) rfl rfl rfl nofun
        ⟨hP.holds, hP.claimed, fun e _ => hb e, hT.1, hT.2, judged_judge hI (by simpa using h1)⟩
  | elect held =>
    unfold probeStep
    dsimp only
    split_ifs with h1 <;> dsimp only
    · have hdead := claimant_crashed hI (by rw [ht]; rfl) hT.2.2 h1 hok
      have hcl : ((s.recordSeizure p).storeOwner p
          { s.seg.owner with writerSlot := kRingWriterElecting }).claimant = none := by
        simp [State.storeOwner, State.recordSeizure, h1, hT.2.1.2.symm]
      exact hI.vacate ⟨⟨rfl, rfl, fun _ => rfl⟩, recordSeizure_of_crashed hI hdead⟩ hcl
        (fun h => h.2 rfl) (fun q hq _ e => hI.disjoint q hq (hdead q e))
        (fun h => absurd (h1.symm.trans h) hT.2.1.2)
        (fun _ => ⟨rfl, fun h => hT.2.1.2 (h1.symm.trans h)⟩)
        ⟨fun h => absurd (hP.holds h) hT.1, hP.claimed, nofun, nofun, nofun⟩
    · rw [storeOwner_self]
      exact hI.quiet (moves_setProc ..) rfl rfl rfl nofun
        ⟨hP.holds, hP.claimed, fun e _ => hb e, trivial⟩

theorem inv_stepReset (hI : ClaimInv c s) (hp : p ∈ s.running) {caller : ResetCaller}
    {pc : ResetPc} (ht : (s.procs p).task = .reset caller pc) :
    ClaimInv c (s.stepReset c p now caller pc) := by
  have hP := hI.procs p hp
  have hT := hP.task
  unfold TaskOk at hT
  rw [ht] at hT
  obtain ⟨hT, hstamp⟩ := hT
  have hreset : (s.procs p).task.isReset = true := by rw [ht]; rfl
  have hel := (hI.elector p hreset).1
  have hnone : s.claimant = none := hI.claimant_none fun h => h.2 hel
  have hpid := isPid_pid c p
  have hholds : ∀ {P : Prop}, (s.procs p).holdsClaim = true → P := fun h => absurd (hP.holds h) hT
  -- the accesses before the last one leave the sentinel in place
  have step (r : Ring) (o : Owner) (h : Handle) (pc' : ResetPc)
      (ho : o.writerSlot = kRingWriterElecting)
      (hh : h.writerClaimed = (s.procs p).handle.writerClaimed)
      (hs : caller.claim = true → pc'.stamped = true → o.writerBirth = (c.identity p).birth) :
      ClaimInv c (({ s with seg.ring := r }.storeOwner p o).setProc p
        { s.procs p with handle := h, task := .reset caller pc' }) := by
    have hcl : ((({ s with seg.ring := r } : State).storeOwner p o).setProc p
        { s.procs p with handle := h, task := .reset caller pc' }).claimant = none := by
      simp [State.storeOwner, State.setProc, ho, hel, hnone]
    refine hI.access ⟨⟨rfl, rfl, fun _ => rfl⟩, rfl⟩ ?_ ?_ ?_ ?_ (fun _ => .inl ho)
      (fun _ => ⟨ho, .inl hreset⟩) (fun _ => .inr hreset) ?_
    · rw [hcl]
      nofun
    · exact fun h => absurd ho h.2
    · intro q _ _
      rw [hcl, hnone]
    · intro q _ _ e
      rw [hnone] at e
      cases e
    · rw [hcl]
      exact ⟨hholds, fun hc => hP.claimed (hh ▸ hc), nofun, nofun, hs⟩
  unfold State.stepReset
  cases pc with
  | storeSlot t =>
    cases caller with
    | ensureWriterClaimed data =>
      simp only [resetStep, ResetCaller.claim, if_true]
      refine hI.acquire hp ⟨⟨rfl, rfl, fun _ => rfl⟩, rfl⟩ ?_ rfl (fun q _ _ => by rw [hnone]; nofun)
        (fun _ => hreset) rfl ⟨fun _ => rfl, fun _ => rfl, fun _ _ => hstamp rfl rfl, rfl⟩
      simp [State.storeOwner, State.setProc, hel, hpid.1, hpid.2]
    | resetIfWriterDead =>
      simp only [resetStep, ResetCaller.claim, Bool.false_eq_true, if_false]
      refine hI.vacate ⟨⟨rfl, rfl, fun _ => rfl⟩, rfl⟩ ?_ (fun h => h.1 rfl)
        (fun q _ _ => by rw [hnone]; nofun) (fun _ => ⟨hreset, rfl⟩) nofun
        ⟨hholds, hP.claimed, nofun, trivial⟩
      simp [State.storeOwner, State.setProc, hel, kRingWriterFree, kRingWriterElecting]
  | storeBirth t => exact step _ _ _ _ hel rfl fun hc _ => if_pos hc
  | storeHeartbeat t => exact step _ _ _ _ hel rfl fun hc _ => hstamp hc rfl
  | storeSequence i =>
    exact step _ _ _ _ hel rfl fun _ hs => by
      unfold resetLoop at hs
      split_ifs at hs <;> cases hs
  | bumpGeneration =>
    exact step _ _ _ _ hel rfl fun _ hs => by
      unfold resetLoop at hs
      split_ifs at hs <;> cases hs
  | _ => exact step _ _ _ _ hel rfl nofun

theorem inv_stepSend (hI : ClaimInv c s) (hp : p ∈ s.running) {data : List Byte}
    {pc : SendPc} (ht : (s.procs p).task = .send data pc) :
    ClaimInv c (s.stepSend c p now data pc) := by
  have hP := hI.procs p hp
  have hT := hP.task
  unfold TaskOk at hT
  rw [ht] at hT
  have hb : s.claimant = some p → s.seg.owner.writerBirth = (c.identity p).birth :=
    fun e => hP.birth e (by rw [ht]; rfl)
  unfold State.stepSend
  cases pc with
  | refreshHeartbeat =>
    unfold sendStep
    dsimp only
    split_ifs <;>
      exact hI.quiet ⟨⟨rfl, rfl, fun _ => rfl⟩, rfl⟩ rfl rfl rfl nofun
        ⟨hP.holds, hP.claimed, fun e _ => hb e, trivial⟩
  | _ =>
    exact hI.quiet ⟨⟨rfl, rfl, fun _ => rfl⟩, rfl⟩ rfl rfl rfl nofun
      ⟨hP.holds, hP.claimed, fun e _ => hb e, hT⟩

/-- `receive_for` leaves the handle's claim alone. -/
theorem recvStep_writerClaimed (alive : Nat → Nat → Bool) (now : Nat) (deadline : Int)
    (g : Segment) (h : Handle) (pc : RecvPc) :
    (recvStep alive now deadline g h pc).1.writerClaimed = h.writerClaimed := by
  cases pc <;> unfold recvStep recvDeliver
  all_goals
    dsimp only
    repeat' split
    all_goals rfl

theorem inv_stepRecv (hI : ClaimInv c s) (hp : p ∈ s.running) {timeout deadline : Int}
    {pc : RecvPc} (ht : (s.procs p).task = .recv timeout deadline pc) :
    ClaimInv c (s.stepRecv c p now timeout deadline pc) := by
  have hP := hI.procs p hp
  have hb : s.claimant = some p → s.seg.owner.writerBirth = (c.identity p).birth :=
    fun e => hP.birth e (by rw [ht]; rfl)
  have hw := recvStep_writerClaimed (s.alive c) now deadline s.seg (s.procs p).handle pc
  unfold State.stepRecv
  dsimp only
  cases hr : recvStep (s.alive c) now deadline s.seg (s.procs p).handle pc with | mk h next
  rw [hr] at hw
  replace hw : h.writerClaimed = (s.procs p).handle.writerClaimed := hw
  cases next
  all_goals
    exact hI.quiet ⟨⟨rfl, rfl, fun _ => rfl⟩, rfl⟩ rfl rfl rfl nofun
      ⟨hP.holds, fun hc => hP.claimed (hw.symm.trans hc), fun e _ => hb e, trivial⟩

theorem inv_stepClose (hI : ClaimInv c s) (hp : p ∈ s.running) {pc : ClosePc}
    (ht : (s.procs p).task = .close pc) : ClaimInv c (s.stepClose p pc) := by
  have hP := hI.procs p hp
  have hT := hP.task
  unfold TaskOk at hT
  rw [ht] at hT
  have hcl : s.claimant = some p := hP.holds hT
  have hslot := (hI.claimant_slot p hcl).1
  have hpid := isPid_pid c p
  have hb : s.claimant = some p → s.seg.owner.writerBirth = (c.identity p).birth :=
    fun e => hP.birth e (by rw [ht]; rfl)
  unfold State.stepClose
  cases pc with
  | loadSlot =>
    unfold closeStep
    dsimp only
    split_ifs with h1 <;> dsimp only <;> rw [storeOwner_self]
    · exact hI.quiet (moves_setProc ..) rfl rfl rfl nofun
        ⟨hP.holds, hP.claimed, fun e _ => hb e, hT⟩
    · exact hI.quiet (moves_setProc ..) rfl rfl rfl nofun ⟨nofun, nofun, fun e _ => hb e, trivial⟩
  | loadBirth =>
    unfold closeStep
    dsimp only
    split_ifs with h1 <;> dsimp only <;> rw [storeOwner_self]
    · exact hI.quiet (moves_setProc ..) rfl rfl rfl nofun
        ⟨hP.holds, hP.claimed, fun e _ => hb e, hT⟩
    · exact hI.quiet (moves_setProc ..) rfl rfl rfl nofun ⟨nofun, nofun, fun e _ => hb e, trivial⟩
  | storeFree =>
    unfold closeStep
    dsimp only
    refine hI.vacate (moves_storeOwner ..) ?_ (fun h => h.1 rfl) (hI.not_claimant hp hslot)
      (fun h => absurd (hslot.symm.trans h) hpid.2) nofun ⟨nofun, nofun, nofun, trivial⟩
    simp [State.setProc, State.storeOwner, hslot, hpid.1.symm]

theorem inv_stepProc (hI : ClaimInv c s) (hp : p ∈ s.running) (hok : SeesClaim c s p)
    (h : s.stepProc c p now = some s') : ClaimInv c s' := by
  unfold State.stepProc at h
  cases ht : (s.procs p).task <;> rw [ht] at h <;> cases h
  · exact inv_stepEnsure hI hp ht hok
  · exact inv_stepProbe hI hp ht hok
  · exact inv_stepReset hI hp ht
  · exact inv_stepSend hI hp ht
  · exact inv_stepRecv hI hp ht
  · exact inv_stepClose hI hp ht

/-- The start of a call keeps what is known of the process. -/
theorem procOk_callStart {o : Owner} {cl : Option ProcId} {cr : List ProcId} (self opts now)
    (hidle : pr.task = .idle) (h : ProcOk c o cl cr p pr) (k : Call) :
    ProcOk c o cl cr p (callStart self opts now pr k) ∧
      (callStart self opts now pr k).task.isReset = false := by
  have hb : cl = some p → o.writerBirth = (c.identity p).birth :=
    fun e => h.birth e (by rw [hidle]; rfl)
  have hT {pr' : Proc} (ht : pr'.task = .idle) : TaskOk c o cl cr p pr' := by
    unfold TaskOk
    rw [ht]
    trivial
  have hR {pr' : Proc} (ht : pr'.task = .idle) : pr'.task.isReset = false := by
    rw [ht]
    rfl
  cases k <;> unfold callStart <;> dsimp only
  case close =>
    split_ifs with h1
    · rw [Bool.and_eq_true] at h1
      exact ⟨⟨h.holds, h.claimed, fun e _ => hb e, h.claimed h1.2⟩, rfl⟩
    · exact ⟨⟨nofun, nofun, fun e _ => hb e, hT hidle⟩, hR hidle⟩
  case openQueue =>
    split_ifs with h1
    · exact ⟨h, hR hidle⟩
    · exact ⟨⟨h.holds, nofun, fun e _ => hb e, hT hidle⟩, hR hidle⟩
  all_goals
    split_ifs
    all_goals first
      | exact ⟨⟨h.holds, h.claimed, fun e _ => hb e, hT hidle⟩, hR hidle⟩
      | exact ⟨⟨h.holds, h.claimed, fun e _ => hb e, trivial⟩, rfl⟩

theorem inv_start (hI : ClaimInv c s) (hr : p ∉ s.running) (hc : p ∉ s.crashed)
    (hu : ∀ q ∈ s.running, (c.identity q).pid ≠ (c.identity p).pid) :
    ClaimInv c ({ s with running := p :: s.running }.setProc p {}) where
  pid_unique := by
    intro q hq r hr' e
    rcases List.mem_cons.mp hq with hqp | hq <;> rcases List.mem_cons.mp hr' with hrp | hr'
    · exact hqp.trans hrp.symm
    · exact absurd (hqp ▸ e).symm (hu r hr')
    · exact absurd (hrp ▸ e) (hu q hq)
    · exact hI.pid_unique q hq r hr' e
  disjoint := by
    intro q hq
    rcases List.mem_cons.mp hq with rfl | hq
    · exact hc
    · exact hI.disjoint q hq
  claimant_slot := fun v hv => by
    obtain ⟨h1, h2⟩ := hI.claimant_slot v hv
    exact ⟨h1, h2.imp_left (List.mem_cons_of_mem p)⟩
  slot_claimant := hI.slot_claimant
  elector := by
    intro q hq
    have hold {r : ProcId} (h : (if r = p then ({} : Proc) else s.procs r).task.isReset = true) :
        (s.procs r).task.isReset = true := by
      split_ifs at h
      · cases h
      · exact h
    obtain ⟨hel, hu⟩ := hI.elector q (hold hq)
    exact ⟨hel, fun r hr => hu r (hold hr)⟩
  procs := by
    intro q hq
    change ProcOk c s.seg.owner s.claimant s.crashed q (if q = p then {} else s.procs q)
    by_cases hqp : q = p
    · subst hqp
      rw [if_pos rfl]
      have hcl : s.claimant ≠ some q := fun e => (hI.claimant_slot q e).2.elim hr hc
      exact ⟨nofun, nofun, fun e => absurd e hcl, trivial⟩
    · rw [if_neg hqp]
      exact hI.procs q (List.mem_of_ne_of_mem hqp hq)
  seized := hI.seized

theorem inv_crash (hI : ClaimInv c s) :
    ClaimInv c { s with running := s.running.filter (· ≠ p), crashed := p :: s.crashed } where
  pid_unique := fun q hq r hr =>
    hI.pid_unique q (List.mem_filter.mp hq).1 r (List.mem_filter.mp hr).1
  disjoint := by
    intro q hq
    obtain ⟨hq, hqp⟩ := List.mem_filter.mp hq
    have hne : q ≠ p := by simpa using hqp
    exact fun h => (List.mem_cons.mp h).elim hne (hI.disjoint q hq)
  claimant_slot := by
    intro v hv
    obtain ⟨h1, h2⟩ := hI.claimant_slot v hv
    refine ⟨h1, ?_⟩
    by_cases hvp : v = p
    · exact .inr (List.mem_cons.mpr (.inl hvp))
    · exact h2.imp (fun h => List.mem_filter.mpr ⟨h, by simpa using hvp⟩) (List.mem_cons_of_mem p)
  slot_claimant := hI.slot_claimant
  elector := hI.elector
  procs := fun q hq => (hI.procs q (List.mem_filter.mp hq).1).frame Iff.rfl (fun _ => rfl)
    fun _ hv => List.mem_cons_of_mem p hv
  seized := hI.seized

/-! ## Runs -/

/-- Every access sees a whole claim. -/
def ClaimSound (c : Config) (s : State) : Action → Prop
  | .access p _ => SeesClaim c s p
  | _ => True

instance (c : Config) (s : State) : ∀ a, Decidable (ClaimSound c s a)
  | .access p _ => inferInstanceAs (Decidable (SeesClaim c s p))
  | .start _ => inferInstanceAs (Decidable True)
  | .crash _ => inferInstanceAs (Decidable True)
  | .call .. => inferInstanceAs (Decidable True)

theorem ClaimInv.init (c : Config) : ClaimInv c (.init c) where
  pid_unique := nofun
  disjoint := nofun
  claimant_slot := nofun
  slot_claimant h := absurd rfl h.1
  elector := nofun
  procs := nofun
  seized := rfl

theorem inv_step {a : Action} (hI : ClaimInv c s) (hok : ClaimSound c s a)
    (h : s.step c a = some s') : ClaimInv c s' := by
  cases a with
  | start p =>
    unfold State.step at h
    dsimp only at h
    split_ifs at h with h1
    cases h
    exact inv_start hI h1.1 h1.2.1 h1.2.2
  | crash p =>
    unfold State.step at h
    dsimp only at h
    split_ifs at h
    cases h
    exact inv_crash hI
  | call p k now =>
    unfold State.step at h
    dsimp only at h
    split_ifs at h with h1
    cases h
    have hk := procOk_callStart (c.identity p) (c.options p) now h1.2 (hI.procs p h1.1) k
    exact hI.quiet (moves_setProc ..) rfl rfl rfl
      (fun hr => absurd hr (by rw [hk.2]; exact Bool.false_ne_true)) hk.1
  | access p now =>
    unfold State.step at h
    dsimp only at h
    split_ifs at h with h1
    exact inv_stepProc hI h1 hok h

/-- The states of the runs of the system. -/
def Reachable (c : Config) (s : State) : Prop :=
  Reach (State.step c) (fun _ _ => True) (.init c) s

/-- The states of the runs in which every access sees a whole claim. -/
def ReachableSound (c : Config) (s : State) : Prop :=
  Reach (State.step c) (ClaimSound c) (.init c) s

theorem ReachableSound.claimInv (h : ReachableSound c s) : ClaimInv c s :=
  h.invariant _ (ClaimInv.init c) fun _ _ _ hI hok hs => inv_step hI hok hs

/-- At most one running process holds the claim, and none has been taken over while running. -/
structure MutualExclusion (s : State) : Prop where
  unique : ∀ p ∈ s.running, ∀ q ∈ s.running, (s.procs p).holdsClaim = true →
    (s.procs q).holdsClaim = true → p = q
  untaken : s.seized = []

/-- **Mutual exclusion**, in the runs in which every access sees a whole claim. -/
theorem mutualExclusion_of_claimSound (h : ReachableSound c s) : MutualExclusion s := by
  have hI := h.claimInv
  refine ⟨fun p hp q hq hpc hqc => ?_, hI.seized⟩
  have hpe := (hI.procs p hp).holds hpc
  have hqe := (hI.procs q hq).holds hqc
  exact Option.some.inj (hpe.symm.trans hqe)

/-- A ring of one slot of four bytes; process `p` has pid `p + 2` and birth stamp `p + 7`. -/
def smallConfig : Config where
  slotCount := 1
  payloadCapacity := 4
  identity p := ⟨p + 2, p + 7⟩
  options _ := { maxMessageSize := 4, heartbeatInterval := 10, heartbeatTimeout := 100 }
  slotCount_pos := by decide
  capacity_lt := by decide
  two_le_pid p := Nat.le_add_left 2 p
  identity_injective p q h := by simpa using h

/-- `n` accesses of process `p` at time `now`. -/
def accesses (p : ProcId) (n now : Nat) : List Action := List.replicate n (.access p now)

/-- Process 0 claims the queue and crashes; process 1 takes it over. -/
def takeoverOfDead : List Action :=
  [.start 0, .start 1, .call 0 (.send []) 1] ++ accesses 0 4 1 ++ [.crash 0, .call 1 (.send []) 500]
    ++ accesses 1 12 500

/-- The witness: a takeover after a crash leaves the taker as the only writer. -/
theorem mutualExclusion_of_claimSound_takeover :
    ∃ s, ReachableSound smallConfig s ∧ (s.procs 1).holdsClaim = true ∧ MutualExclusion s := by
  have hrun : (run (State.step smallConfig) (fun s a => decide (ClaimSound smallConfig s a))
      takeoverOfDead (.init smallConfig)).any (fun s => (s.procs 1).holdsClaim) = true := by decide
  obtain ⟨s, hs, hp⟩ := Reach.exists_of_run (fun s a => of_decide_eq_true) hrun
  exact ⟨s, hs, hp, mutualExclusion_of_claimSound hs⟩

/-- Process 2 sends a message and closes the queue, which frees `writer_slot` and leaves its birth
stamp. Process 0 wins `writer_slot` but has not stored its own stamp yet; process 1 judges it by
that of process 2, takes over and claims the queue; then process 0 completes its claim. -/
def takeoverOfLive : List Action :=
  [.start 0, .start 1, .start 2, .call 2 (.send []) 1] ++ accesses 2 11 1 ++ [.call 2 .close 1] ++
    accesses 2 3 1 ++ [.call 0 (.send []) 2] ++ accesses 0 2 2 ++ [.call 1 (.send []) 500] ++
    accesses 1 12 500 ++ accesses 0 2 501

/-- **Two live writers.** A process that has won the compare-exchange on `writer_slot` is taken
over before it has stored its birth stamp, and both calls return Ok. -/
theorem not_mutualExclusion : ¬ ∀ c s, Reachable c s → MutualExclusion s := by
  intro h
  have hrun : (run (State.step smallConfig) (fun _ _ => true) takeoverOfLive
      (.init smallConfig)).any (fun s => decide (0 ∈ s.running ∧ 1 ∈ s.running) &&
        ((s.procs 0).holdsClaim && (s.procs 1).holdsClaim)) = true := by decide
  obtain ⟨s, hs, hp⟩ := Reach.exists_of_run (fun _ _ _ => trivial) hrun
  simp only [Bool.and_eq_true, decide_eq_true_eq] at hp
  exact absurd ((h _ s hs).unique 0 hp.1.1 1 hp.1.2 hp.2.1 hp.2.2) (by decide)

end Libca.Process.ShmRing
