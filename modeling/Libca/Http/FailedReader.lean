import Libca.Http.Bodies
import Libca.Http.Limits

/-!
# A reader after an error (`http/http1_codec.cpp`)

Only the errors of a body set `Failed`; a head that fails leaves the reader in `ReadingHead`, which
no other call leaves. `Halted` is either state.

* `run_halted`: in such a state every call returns an `InvalidState` error and changes nothing.
* `triple_run_halts`: a call that fails with another error ends in such a state.
* `reader_stays_failed`: after an error of the protocol, of a limit or of the underlying reader, no
  call of any later sequence returns anything.
-/

namespace Libca.Http

open Common Fallible

/-- The states that an error leaves a reader in. -/
def Halted (r : Http1Reader) : Prop := r.state = .readingHead ∨ r.state = .failed

/-- All limits are positive. -/
structure HttpLimits.Positive (limits : HttpLimits) : Prop where
  startLineBytes : 0 < limits.maxStartLineBytes
  headerBytes : 0 < limits.maxHeaderBytes
  headerCount : 0 < limits.maxHeaderCount
  bodyBytes : 0 < limits.maxBodyBytes

variable {limits : HttpLimits}

theorem HttpLimits.Positive.validate (h : limits.Positive) : limits.validate = .ok () := by
  obtain ⟨hline, hbytes, hcount, hbody⟩ := h
  unfold HttpLimits.validate
  exact if_neg (by omega)

/-! ## A halted reader -/

variable {r : Http1Reader}

theorem Halted.noBody (h : Halted r) : r.state.noBody = true := by
  obtain h | h := h <;> rw [h] <;> rfl

theorem Halted.ne_ready (h : Halted r) : r.state ≠ .ready := by
  obtain h | h := h <;> rw [h] <;> decide

theorem Halted.ne_bodyComplete (h : Halted r) : r.state ≠ .bodyComplete := by
  obtain h | h := h <;> rw [h] <;> decide

/-- A test of the state that fails ends the call. -/
theorem state_refused {α : Type} {c : ReadState → Prop} [DecidablePred c]
    (hc : c r.state) (e : HttpError) (f : ReadState → Unit → Read α) :
    (gets Http1Reader.state >>= fun state => failIf (c state) e >>= f state) r = (.error e, r) := by
  rw [gets_bind_apply, failIf_pos hc]
  rfl

/-- A computation refused with an `InvalidState` error. -/
def Refused {α : Type} (x : Read α) (r : Http1Reader) : Prop :=
  ∃ e, x r = (.error e, r) ∧ e.kind = .invalidState

theorem Refused.bind {α β : Type} {x : Read α} (h : Refused x r)
    (f : α → Read β) : Refused (x >>= f) r := by
  obtain ⟨e, hx, hkind⟩ := h
  exact ⟨e, bind_error hx, hkind⟩

theorem ensureReady_halted (h : Halted r) : Refused ensureReady r :=
  ⟨_, state_refused (c := fun state => state ≠ .ready) h.ne_ready _ _, rfl⟩

theorem readBody_halted (h : Halted r) (capacity : Nat) : Refused (readBody capacity) r :=
  ⟨_, state_refused (c := fun state => state.noBody) h.noBody _ _, rfl⟩

theorem drainBody_halted (h : Halted r) : Refused drainBody r := by
  obtain ⟨e, hbody, hkind⟩ := readBody_halted h 8192
  refine ⟨e, ?_, hkind⟩
  unfold drainBody
  rw [gets_bind_apply, List.replicate_succ]
  exact readBodies_cons_error h.ne_bodyComplete hbody _

/-- **A halted reader refuses every call.** -/
theorem run_halted (h : Halted r) (call : ReaderCall) : Refused call.run r := by
  cases call with
  | readRequestHead => exact ((ensureReady_halted h).bind _).bind _
  | readResponseHead requestMethod => exact ((ensureReady_halted h).bind _).bind _
  | readBody capacity => exact (readBody_halted h capacity).bind _
  | readBodyNull capacity =>
    refine Refused.bind ?_ _
    exact ⟨_, state_refused (c := fun state => state.noBody) h.noBody _ _, rfl⟩
  | finishBody =>
    refine Refused.bind ?_ _
    exact ⟨_, state_refused (c := fun state => state ≠ .bodyComplete) h.ne_bodyComplete _ _, rfl⟩
  | discardBody =>
    refine Refused.bind ?_ _
    exact ⟨_, state_refused (c := fun state => state.noBody) h.noBody _ _, rfl⟩
  | readBodyAll => exact ((drainBody_halted h).bind _).bind _
  | readRequest => exact (((ensureReady_halted h).bind _).bind _).bind _
  | readResponse requestMethod => exact (((ensureReady_halted h).bind _).bind _).bind _

/-- A halted reader stays as it is. -/
theorem runCalls_halted (h : Halted r) (calls : List ReaderCall) : runCalls calls r = r := by
  induction calls with
  | nil => rfl
  | cons call calls ih =>
    obtain ⟨e, hrun, -⟩ := run_halted h call
    unfold runCalls at ih ⊢
    rw [List.foldl_cons, hrun]
    exact ih

/-! ## Errors halt the reader -/

/-- After an error the reader is halted, unless the call was refused for the state it was made in.
-/
def HaltedBy (e : HttpError) (r : Http1Reader) : Prop := e.kind = .invalidState ∨ Halted r

theorem triple_ensureReady_halts (hpos : limits.Positive) :
    Triple (fun r => r.limits = limits) ensureReady
      (fun _ r => r.limits = limits ∧ r.state = .readingHead) HaltedBy := by
  refine triple_gets_bind fun state => triple_failIf_bind (fun _ _ _ => .inl rfl) fun _ => ?_
  refine triple_gets_bind fun l => triple_of_pre (c := l = limits) ?_ fun hl => ?_
  · rintro r ⟨⟨hr, -⟩, rfl⟩
    exact hr
  refine triple_bind (S := fun _ r => r.limits = limits) (triple_lift (fun _ _ _ hr => hr.1.1) ?_)
    fun _ => triple_modify fun r hr => ⟨hr, rfl⟩
  intro e r he
  rw [hl, hpos.validate] at he
  cases he

theorem triple_beginBody_halts (body : HttpBodyInfo) (usedBytes usedCount : Nat) :
    Triple (fun _ => True) (beginBody body usedBytes usedCount) (fun _ _ => True) HaltedBy := by
  refine triple_bind (triple_modify (Q := fun _ _ => True) fun _ _ => trivial) fun _ => ?_
  refine triple_gets_bind fun l => ?_
  cases body with
  | none => exact triple_modify fun _ _ => trivial
  | chunked => exact triple_modify fun _ _ => trivial
  | closeDelimited => exact triple_modify fun _ _ => trivial
  | contentLength length =>
    refine triple_ite (fun _ => ?_) fun _ => triple_modify fun _ _ => trivial
    exact triple_bind (S := fun _ => Halted) (triple_modify fun _ _ => .inr rfl) fun _ =>
      triple_fail fun _ hr => .inr hr

theorem headRule_halts (hpos : limits.Positive) :
    HeadRule limits (fun r => r.limits = limits)
      (fun r => r.limits = limits ∧ r.state = .readingHead) (fun _ => True) HaltedBy where
  ready := triple_ensureReady_halts hpos
  conn := fun _ _ hr => hr
  sameLimits := fun _ hr => hr.1
  method := fun _ _ hr => hr
  begin := fun body usedBytes usedCount _ _ =>
    (triple_beginBody_halts body usedBytes usedCount).mono (fun _ _ => trivial) (fun _ _ h => h)
      fun _ _ h => h
  eof := fun _ _ => trivial
  error := fun _ _ hr => .inr (.inl hr.2)

theorem triple_readBody_halts (capacity : Nat) :
    Triple (fun _ => True) (readBody capacity) (fun _ _ => True) HaltedBy := by
  refine triple_gets_bind fun state => triple_failIf_bind (fun _ _ _ => .inl rfl) fun _ => ?_
  refine triple_ite (fun _ => triple_pure fun _ _ => trivial) fun _ => ?_
  exact triple_onError (triple_trivial _) fun _ _ _ => .inr (.inr rfl)

theorem triple_readBodies_halts (capacities : List Nat) :
    Triple (fun _ => True) (readBodies capacities) (fun _ _ => True) HaltedBy := by
  induction capacities with
  | nil => exact triple_pure fun _ _ => trivial
  | cons capacity capacities ih =>
    unfold readBodies
    refine triple_bind (triple_gets (Q := fun _ _ => True) fun _ _ => trivial) fun _ => ?_
    refine triple_ite (fun _ => triple_pure fun _ _ => trivial) fun _ => ?_
    refine triple_bind (triple_readBody_halts capacity) fun _ => ?_
    exact triple_bind ih fun _ => triple_pure fun _ _ => trivial

theorem triple_drainBody_halts : Triple (fun _ => True) drainBody (fun _ _ => True) HaltedBy :=
  triple_bind (triple_gets (Q := fun _ _ => True) fun _ _ => trivial) fun _ =>
    triple_readBodies_halts _

theorem triple_finishBody_halts : Triple (fun _ => True) finishBody (fun _ _ => True) HaltedBy := by
  refine triple_gets_bind fun state => triple_failIf_bind (fun _ _ _ => .inl rfl) fun _ => ?_
  refine triple_bind (triple_gets (Q := fun _ _ => True) fun _ _ => trivial) fun _ => ?_
  exact triple_bind (triple_modify (Q := fun _ _ => True) fun _ _ => trivial) fun _ =>
    triple_pure fun _ _ => trivial

theorem triple_readBodyAll_halts : Triple (fun _ => True) readBodyAll (fun _ _ => True) HaltedBy :=
  triple_bind triple_drainBody_halts fun _ => triple_bind triple_finishBody_halts fun _ =>
    triple_pure fun _ _ => trivial

/-- **Every error halts the reader.** -/
theorem triple_run_halts (hpos : limits.Positive) (call : ReaderCall) :
    Triple (fun r => r.limits = limits) call.run (fun _ _ => True) HaltedBy := by
  have hany : ∀ {α : Type} {x : Read α}, Triple (fun _ => True) x (fun _ _ => True) HaltedBy →
      Triple (fun r => r.limits = limits) x (fun _ _ => True) HaltedBy :=
    fun h => h.mono (fun _ _ => trivial) (fun _ _ h => h) fun _ _ h => h
  cases call with
  | readRequestHead =>
    exact triple_bind (headRule_halts hpos).readRequestHead fun _ => triple_pure fun _ _ => trivial
  | readResponseHead requestMethod =>
    exact triple_bind ((headRule_halts hpos).readResponseHead requestMethod) fun _ =>
      triple_pure fun _ _ => trivial
  | readBody capacity =>
    exact hany (triple_bind (triple_readBody_halts capacity) fun _ => triple_pure fun _ _ =>
      trivial)
  | readBodyNull capacity =>
    refine hany (triple_bind (S := fun _ _ => True) ?_ fun _ => triple_pure fun _ _ => trivial)
    refine triple_gets_bind fun state => triple_failIf_bind (fun _ _ _ => .inl rfl) fun _ => ?_
    exact triple_ite (fun _ => triple_pure fun _ _ => trivial) fun _ => triple_fail fun _ _ =>
      .inl rfl
  | finishBody =>
    exact hany (triple_bind triple_finishBody_halts fun _ => triple_pure fun _ _ => trivial)
  | discardBody =>
    refine hany (triple_bind (S := fun _ _ => True) ?_ fun _ => triple_pure fun _ _ => trivial)
    refine triple_gets_bind fun state => triple_failIf_bind (fun _ _ _ => .inl rfl) fun _ => ?_
    refine Triple.mono (P := fun _ => True) ?_ (fun _ _ => trivial) (fun _ _ h => h) fun _ _ h => h
    exact triple_bind triple_drainBody_halts fun _ => triple_finishBody_halts
  | readBodyAll =>
    exact hany (triple_bind triple_readBodyAll_halts fun _ => triple_pure fun _ _ => trivial)
  | readRequest =>
    refine triple_bind (S := fun _ _ => True) ?_ fun _ => triple_pure fun _ _ => trivial
    refine triple_bind (headRule_halts hpos).readRequestHead fun head => ?_
    cases head with
    | none => exact triple_pure fun _ _ => trivial
    | some head =>
      exact triple_bind triple_readBodyAll_halts fun _ => triple_pure fun _ _ => trivial
  | readResponse requestMethod =>
    refine triple_bind (S := fun _ _ => True) ?_ fun _ => triple_pure fun _ _ => trivial
    refine triple_bind ((headRule_halts hpos).readResponseHead requestMethod) fun head => ?_
    cases head with
    | none => exact triple_pure fun _ _ => trivial
    | some head =>
      exact triple_bind triple_readBodyAll_halts fun _ => triple_pure fun _ _ => trivial

/-- **A reader never resynchronises.** Once a call has returned an error other than `InvalidState`,
every call of every later sequence returns an `InvalidState` error. -/
theorem reader_stays_failed (limits : HttpLimits) (hpos : limits.Positive)
    (events : List ReadEvent) (calls : List ReaderCall) (call : ReaderCall) {e : HttpError}
    {r : Http1Reader} (hcall : call.run (runCalls calls (Http1Reader.fresh limits events)) =
      (.error e, r)) (hkind : e.kind ≠ .invalidState) (later : List ReaderCall)
    (next : ReaderCall) :
    ∃ e', (next.run (runCalls later r)).1 = .error e' ∧ e'.kind = .invalidState := by
  have hr := runCalls_keeps keeps_run calls (withinLimits_fresh limits events)
  obtain hinvalid | hhalted := (triple_run_halts hpos call).error hr.sameLimits hcall
  · exact absurd hinvalid hkind
  · rw [runCalls_halted hhalted]
    obtain ⟨e', hrun, hkind'⟩ := run_halted hhalted next
    exact ⟨e', congrArg Prod.fst hrun, hkind'⟩

/-- A connection that is reset before a request: the request behind is not read. -/
theorem reader_stays_failed_reset :
    ∃ e', (ReaderCall.readRequest.run (runCalls [.finishBody] (ReaderCall.readRequestHead.run
      (Http1Reader.fresh {} [.failed "reset", .data (ascii "GET / HTTP/1.0\r\n\r\n")])).2)).1 =
        .error e' ∧ e'.kind = .invalidState :=
  reader_stays_failed {} ⟨by decide, by decide, by decide, by decide⟩
    [.failed "reset", .data (ascii "GET / HTTP/1.0\r\n\r\n")] [] .readRequestHead
    (e := ⟨.io, "read HTTP stream: reset"⟩) rfl (by decide) [.finishBody] .readRequest

end Libca.Http
