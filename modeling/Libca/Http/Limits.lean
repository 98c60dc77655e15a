import Libca.Http.CheckedReader

/-!
# The limits of a reader (`http/http1_codec.cpp`)

* `WithinLimits`, `keeps_run`: the counters of a reader stay within its limits over every call.
* `checkedRun_eq`: from such a state the checked reader runs as the reader does, so no subtraction
  of a limit check wraps around and no counter passes its limit on the way.
* `reader_limits`: both for every sequence of calls on every byte stream, with the bound on what
  `read_body_all` returns.
-/

namespace Libca.Http

open Common Fallible

/-- The counters of a reader are within `limits`. -/
structure CountersWithin (limits : HttpLimits) (r : Http1Reader) : Prop where
  sameLimits : r.limits = limits
  decoded : r.bodyDecoded ≤ limits.maxBodyBytes
  headerBytes : r.usedHeaderBytes ≤ limits.maxHeaderBytes
  headerCount : r.usedHeaderCount ≤ limits.maxHeaderCount

/-- The states in which `body_remaining_` bytes of data are announced. -/
def ReadState.announced (state : ReadState) : Bool := state == .fixedBody || state == .chunkData

/-- **The invariant**: the counters are within the limits, and so is what is announced. -/
structure WithinLimits (limits : HttpLimits) (r : Http1Reader) : Prop
    extends CountersWithin limits r where
  announced : r.state.announced → r.bodyDecoded + r.bodyRemaining ≤ limits.maxBodyBytes

/-- The invariant, with `n` bytes of the body decoded. -/
def DecodedWithin (limits : HttpLimits) (n : Nat) (r : Http1Reader) : Prop :=
  WithinLimits limits r ∧ r.bodyDecoded = n

variable {limits : HttpLimits}

theorem withinLimits_fresh (limits : HttpLimits) (events : List ReadEvent) :
    WithinLimits limits (Http1Reader.fresh limits events) :=
  ⟨⟨rfl, Nat.zero_le _, Nat.zero_le _, Nat.zero_le _⟩, fun _ => Nat.zero_le _⟩

variable {r : Http1Reader}

theorem WithinLimits.withConn (h : WithinLimits limits r) (c : Conn) :
    WithinLimits limits (r.withConn c) :=
  ⟨⟨h.sameLimits, h.decoded, h.headerBytes, h.headerCount⟩, h.announced⟩

theorem DecodedWithin.withConn {n : Nat} (h : DecodedWithin limits n r)
    (c : Conn) : DecodedWithin limits n (r.withConn c) :=
  ⟨h.1.withConn c, h.2⟩

theorem WithinLimits.setState (h : WithinLimits limits r) {state : ReadState}
    (hstate : state.announced = false) : WithinLimits limits { r with state := state } :=
  ⟨⟨h.sameLimits, h.decoded, h.headerBytes, h.headerCount⟩,
    fun hs => absurd (hstate.symm.trans hs) Bool.false_ne_true⟩

/-! ## Heads -/

theorem keeps_ensureReady : Keeps (WithinLimits limits) ensureReady := by
  refine keeps_bind (keeps_gets _) fun state => ?_
  refine keeps_bind (keeps_failIf _ _) fun _ => ?_
  refine keeps_bind (keeps_gets _) fun l => ?_
  refine keeps_bind (keeps_lift _) fun _ => ?_
  exact keeps_modify fun r hr => hr.setState rfl

theorem keeps_beginBody (body : HttpBodyInfo) {usedBytes usedCount : Nat}
    (hbytes : usedBytes ≤ limits.maxHeaderBytes) (hcount : usedCount ≤ limits.maxHeaderCount) :
    Keeps (WithinLimits limits) (beginBody body usedBytes usedCount) := by
  refine keeps_of_state fun r hr => ?_
  have hcounters : ∀ state remaining, CountersWithin limits { r with
      bodyInfo := body, bodyRemaining := remaining, bodyDecoded := 0, usedHeaderBytes := usedBytes,
      usedHeaderCount := usedCount, bodyTrailers := [], state := state } := fun _ _ =>
    ⟨hr.sameLimits, Nat.zero_le _, hbytes, hcount⟩
  cases body with
  | none => exact ⟨hcounters _ _, fun hs => absurd hs Bool.false_ne_true⟩
  | chunked => exact ⟨hcounters _ _, fun hs => absurd hs Bool.false_ne_true⟩
  | closeDelimited =>
    exact ⟨hcounters _ _, fun hs => absurd hs Bool.false_ne_true⟩
  | contentLength length =>
    unfold beginBody
    rw [modify_bind_apply, gets_bind_apply]
    by_cases hlength : length > r.limits.maxBodyBytes
    · simp only [hlength, if_true]
      exact ⟨hcounters _ _, fun hs => absurd hs Bool.false_ne_true⟩
    · simp only [hlength, if_false]
      refine ⟨hcounters _ _, fun _ => ?_⟩
      rw [hr.sameLimits] at hlength
      exact (Nat.zero_add length).trans_le (Nat.le_of_not_lt hlength)

theorem headRule_limits (limits : HttpLimits) :
    HeadRule limits (WithinLimits limits) (WithinLimits limits) (WithinLimits limits)
      fun _ => WithinLimits limits where
  ready := keeps_ensureReady
  conn := fun _ c hr => hr.withConn c
  sameLimits := fun _ hr => hr.sameLimits
  method := fun _ _ hr =>
    ⟨⟨hr.sameLimits, hr.decoded, hr.headerBytes, hr.headerCount⟩, hr.announced⟩
  begin := fun body _ _ hbytes hcount => keeps_beginBody body hbytes hcount
  eof := fun _ hr => hr.setState rfl
  error := fun _ _ hr => hr

/-! ## Parts of a body -/

/-- What is copied out is counted; the state and what is announced stay. -/
theorem triple_takeDecoded {n count : Nat} {F : ReadState → Nat → Prop}
    (hroom : n + count ≤ limits.maxBodyBytes) :
    Triple (fun r => CountersWithin limits r ∧ r.bodyDecoded = n ∧ F r.state r.bodyRemaining)
      (takeDecoded count)
      (fun bytes r => bytes.length ≤ count ∧ CountersWithin limits r ∧
        r.bodyDecoded = n + bytes.length ∧ F r.state r.bodyRemaining)
      fun _ _ => False := by
  rintro r ⟨hr, rfl, hframe⟩
  have hlen : (r.conn.buffered.take count).length ≤ count := List.length_take_le _ _
  exact ⟨hlen, ⟨hr.sameLimits, Nat.le_trans (Nat.add_le_add_left hlen _) hroom, hr.headerBytes,
    hr.headerCount⟩, rfl, hframe⟩

theorem triple_readCounted (n : Nat) (eof : String) (next : ReadState) (capacity : Nat) :
    Triple (fun r => DecodedWithin limits n r ∧ r.state.announced) (readCounted eof next capacity)
      (fun bytes r => DecodedWithin limits (n + bytes.length) r) fun _ => WithinLimits limits := by
  have hconn : ∀ r c, DecodedWithin limits n r ∧ r.state.announced →
      DecodedWithin limits n (r.withConn c) ∧ (r.withConn c).state.announced :=
    fun r c ⟨hr, hs⟩ => ⟨hr.withConn c, hs⟩
  refine triple_bind (S := fun _ r => DecodedWithin limits n r ∧ r.state.announced)
    (Triple.mono (keeps_fillBuffer hconn) (fun _ hr => hr) (fun _ _ hr => hr)
      fun _ _ hr => hr.1.1) fun filled => ?_
  refine triple_bind (S := fun _ r => DecodedWithin limits n r ∧ r.state.announced)
    (triple_failIf (fun _ _ hr => hr) fun _ _ hr => hr.1.1) fun _ => ?_
  refine triple_gets_bind fun remaining => ?_
  have hcount : min capacity remaining ≤ remaining := Nat.min_le_right _ _
  refine triple_of_pre (c := n + remaining ≤ limits.maxBodyBytes) ?_ fun hroom => ?_
  · rintro r ⟨⟨hr, hs⟩, rfl⟩
    rw [← hr.2]
    exact hr.1.announced hs
  refine triple_bind ((triple_takeDecoded (F := fun _ left => left = remaining)
    (Nat.le_trans (Nat.add_le_add_left hcount n) hroom)).mono
    (fun r hr => ⟨hr.1.1.1.toCountersWithin, hr.1.1.2, hr.2⟩) (fun _ _ h => h)
    fun _ _ h => h.elim) fun bytes => ?_
  refine triple_bind (triple_modify (Q := fun _ => DecodedWithin limits (n + bytes.length)) ?_)
    fun _ => triple_pure fun _ h => h
  rintro r ⟨hlen, hcounters, hdecoded, hremaining⟩
  refine ⟨⟨⟨hcounters.sameLimits, hcounters.decoded, hcounters.headerBytes,
    hcounters.headerCount⟩, fun _ => ?_⟩, hdecoded⟩
  change r.bodyDecoded + (r.bodyRemaining - bytes.length) ≤ limits.maxBodyBytes
  omega

theorem triple_readFullLine_decoded (n limit : Nat) :
    Keeps (DecodedWithin limits n) (readFullLine limit) :=
  keeps_readFullLine (fun _ c hr => hr.withConn c) limit

/-- `read_headers` on the counters of the reader, as trailers are read. -/
theorem triple_readTrailers (n usedBytes : Nat) {usedCount : Nat}
    (hcount : usedCount ≤ limits.maxHeaderCount) :
    Triple (DecodedWithin limits n) (readHeaders storeUsed usedBytes usedCount)
      (fun _ => DecodedWithin limits n) fun _ => DecodedWithin limits n := by
  refine (triple_readHeaders_used (fun _ c hr => hr.withConn c) (fun _ hr => hr.1.sameLimits) ?_
    usedBytes hcount).mono (fun _ hr => hr) (fun _ _ hr => hr.1) fun _ _ hr => hr
  intro bytes count r hbytes hcount hr
  exact ⟨⟨⟨hr.1.sameLimits, hr.1.decoded, hbytes, hcount⟩, hr.1.announced⟩, hr.2⟩

theorem keeps_readChunkSize (n : Nat) : Keeps (DecodedWithin limits n) readChunkSize := by
  refine triple_bind (S := fun l r => l = limits ∧ DecodedWithin limits n r)
    (triple_gets fun r hr => ⟨hr.1.sameLimits, hr⟩) fun l r ⟨hl, hr⟩ => ?_
  subst hl
  refine keeps_bind (triple_readFullLine_decoded n _) (fun line => ?_) r hr
  refine keeps_bind (keeps_lift _) fun size => ?_
  refine keeps_ite (fun _ => ?_) fun _ => ?_
  · intro r hr
    rw [gets_bind_apply, gets_bind_apply]
    refine keeps_bind (triple_readTrailers n _ hr.1.headerCount) (fun _ => ?_) r hr
    refine keeps_bind (keeps_modify fun r hr => ?_) fun _ => ?_
    · exact ⟨⟨⟨hr.1.sameLimits, hr.1.decoded, hr.1.headerBytes, hr.1.headerCount⟩,
        hr.1.announced⟩, hr.2⟩
    refine keeps_bind (keeps_lift _) fun _ => keeps_modify fun r hr => ?_
    exact ⟨hr.1.setState rfl, hr.2⟩
  · intro s hs
    rw [gets_bind_apply]
    by_cases hsize : size > l.maxBodyBytes - s.bodyDecoded
    · rw [failIf_pos hsize]
      exact hs
    · rw [failIf_neg hsize]
      have hdecoded := hs.1.decoded
      exact ⟨⟨⟨hs.1.sameLimits, hs.1.decoded, hs.1.headerBytes, hs.1.headerCount⟩,
        fun _ => by change s.bodyDecoded + size ≤ _; omega⟩, hs.2⟩

theorem keeps_readChunkEnding (n : Nat) : Keeps (DecodedWithin limits n) readChunkEnding := by
  refine keeps_bind (keeps_readByte fun _ c hr => hr.withConn c) fun _ => ?_
  refine keeps_bind (keeps_readByte fun _ c hr => hr.withConn c) fun _ => ?_
  refine keeps_bind (keeps_failIf _ _) fun _ => keeps_modify fun r hr => ?_
  exact ⟨hr.1.setState rfl, hr.2⟩

theorem keeps_readChunkPrefix (n : Nat) : Keeps (DecodedWithin limits n) readChunkPrefix := by
  refine keeps_bind (keeps_gets _) fun state => ?_
  refine keeps_bind
    (keeps_ite (fun _ => keeps_readChunkEnding n) fun _ => keeps_pure _) fun _ => ?_
  exact keeps_ite (fun _ => keeps_pure _) fun _ => keeps_readChunkSize n

theorem triple_readChunkedBodyPart (n capacity : Nat) :
    Triple (DecodedWithin limits n) (readChunkedBodyPart capacity)
      (fun bytes r => DecodedWithin limits (n + bytes.length) r) fun _ => WithinLimits limits := by
  refine triple_bind (S := fun _ => DecodedWithin limits n)
    (Triple.mono (keeps_readChunkPrefix n) (fun _ hr => hr) (fun _ _ hr => hr) fun _ _ hr => hr.1)
    fun _ => ?_
  refine triple_gets_bind fun state => triple_ite (fun hs => ?_) fun _ => ?_
  · refine (triple_readCounted n _ _ capacity).mono (fun r hr => ⟨hr.1, ?_⟩) (fun _ _ hr => hr)
      fun _ _ hr => hr
    rw [hr.2, hs]
    rfl
  · exact triple_pure fun r hr => hr.1

theorem triple_readCloseDelimitedBodyPart (n capacity : Nat) :
    Triple (fun r => DecodedWithin limits n r ∧ r.state.announced = false)
      (readCloseDelimitedBodyPart capacity)
      (fun bytes r => DecodedWithin limits (n + bytes.length) r) fun _ => WithinLimits limits := by
  have hconn : ∀ r c, DecodedWithin limits n r ∧ r.state.announced = false →
      DecodedWithin limits n (r.withConn c) ∧ (r.withConn c).state.announced = false :=
    fun r c ⟨hr, hs⟩ => ⟨hr.withConn c, hs⟩
  refine triple_bind (S := fun _ r => DecodedWithin limits n r ∧ r.state.announced = false)
    (Triple.mono (keeps_fillBuffer hconn) (fun _ hr => hr) (fun _ _ hr => hr)
      fun _ _ hr => hr.1.1) fun filled => ?_
  refine triple_ite (fun _ => ?_) fun _ => ?_
  · refine triple_bind (S := fun _ => DecodedWithin limits n)
      (triple_modify fun r hr => ⟨hr.1.1.setState rfl, hr.1.2⟩) fun _ => triple_pure fun _ hr => hr
  · refine triple_gets_bind fun l => triple_gets_bind fun count => triple_gets_bind fun decoded =>
      ?_
    refine triple_failIf_bind (fun r _ hr => hr.1.1.1.1.1) fun hcount => ?_
    refine triple_of_pre (c := l = limits ∧ decoded = n ∧ n ≤ limits.maxBodyBytes) ?_ ?_
    · rintro r ⟨⟨⟨⟨hr, -⟩, rfl⟩, -⟩, rfl⟩
      exact ⟨hr.1.sameLimits, hr.2, hr.2.symm.trans_le hr.1.decoded⟩
    rintro ⟨rfl, rfl, hn⟩
    refine (triple_takeDecoded (F := fun state _ => state.announced = false) (by omega)).mono
      (fun r hr => ⟨hr.1.1.1.1.1.toCountersWithin, hr.1.1.1.1.2, hr.1.1.1.2⟩) ?_
      fun _ _ h => h.elim
    rintro bytes r ⟨-, hcounters, hdecoded, hstate⟩
    exact ⟨⟨hcounters, fun hs => absurd (hstate.symm.trans hs) Bool.false_ne_true⟩, hdecoded⟩

/-! ## Bodies -/

theorem triple_readBody (n capacity : Nat) :
    Triple (DecodedWithin limits n) (readBody capacity)
      (fun bytes r => DecodedWithin limits (n + bytes.length) r) fun _ => WithinLimits limits := by
  refine triple_gets_bind fun state => ?_
  refine triple_failIf_bind (fun r _ hr => hr.1.1) fun _ => ?_
  refine triple_ite (fun _ => triple_pure fun r hr => hr.1) fun _ => ?_
  refine triple_onError (D := fun _ => WithinLimits limits) ?_ fun _ r hr => hr.setState rfl
  refine triple_ite (fun hs => ?_) fun _ => triple_ite (fun hs => ?_) fun _ => ?_
  · refine (triple_readCounted n _ _ capacity).mono ?_ (fun _ _ hr => hr) fun _ _ hr => hr
    rintro r ⟨hr, rfl⟩
    exact ⟨hr, by rw [hs]; rfl⟩
  · refine (triple_readCloseDelimitedBodyPart n capacity).mono ?_ (fun _ _ hr => hr)
      fun _ _ hr => hr
    rintro r ⟨hr, rfl⟩
    exact ⟨hr, by rw [hs]; rfl⟩
  · exact (triple_readChunkedBodyPart n capacity).mono (fun r hr => hr.1) (fun _ _ hr => hr)
      fun _ _ hr => hr

theorem triple_readBodies (n : Nat) (capacities : List Nat) :
    Triple (DecodedWithin limits n) (readBodies capacities)
      (fun bytes r => DecodedWithin limits (n + bytes.length) r) fun _ => WithinLimits limits := by
  induction capacities generalizing n with
  | nil => exact triple_pure fun r hr => hr
  | cons capacity capacities ih =>
    unfold readBodies
    refine triple_gets_bind fun finished => ?_
    refine triple_ite (fun _ => triple_pure fun r hr => hr.1) fun _ => ?_
    refine triple_bind ((triple_readBody n capacity).mono (fun r hr => hr.1) (fun _ _ hr => hr)
      fun _ _ hr => hr) fun part => ?_
    refine triple_bind (ih (n + part.length)) fun rest => triple_pure fun r hr => ?_
    rw [List.length_append, ← Nat.add_assoc]
    exact hr

theorem triple_drainBody (n : Nat) :
    Triple (DecodedWithin limits n) drainBody
      (fun bytes r => DecodedWithin limits (n + bytes.length) r) fun _ => WithinLimits limits :=
  triple_gets_bind fun _ => Triple.mono (triple_readBodies n _) (fun _ hr => hr.1)
    (fun _ _ hr => hr) fun _ _ hr => hr

theorem keeps_finishBody : Keeps (WithinLimits limits) finishBody := by
  refine keeps_bind (keeps_gets _) fun state => ?_
  refine keeps_bind (keeps_failIf _ _) fun _ => ?_
  refine keeps_bind (keeps_gets _) fun trailers => ?_
  refine keeps_bind (keeps_modify fun r hr => ?_) fun _ => keeps_pure _
  exact ⟨⟨hr.sameLimits, Nat.zero_le _, Nat.zero_le _, Nat.zero_le _⟩,
    fun hs => absurd hs Bool.false_ne_true⟩

/-- What counts decoded bytes keeps the invariant. -/
theorem keeps_of_decoded {x : Read Bytes} (h : ∀ n, Triple (DecodedWithin limits n) x
      (fun bytes r => DecodedWithin limits (n + bytes.length) r) fun _ => WithinLimits limits) :
    Keeps (WithinLimits limits) x :=
  fun r hr => (h r.bodyDecoded).mono (fun _ hr => hr) (fun _ _ hr => hr.1) (fun _ _ hr => hr) r
    ⟨hr, rfl⟩

theorem keeps_discardBody : Keeps (WithinLimits limits) discardBody := by
  refine keeps_bind (keeps_gets _) fun state => ?_
  refine keeps_bind (keeps_failIf _ _) fun _ => ?_
  exact keeps_bind (keeps_of_decoded triple_drainBody) fun _ => keeps_finishBody

/-- **`read_body_all` returns at most `max_body_bytes` bytes.** -/
theorem triple_readBodyAll :
    Triple (WithinLimits limits) readBodyAll
      (fun out r => out.1.length ≤ limits.maxBodyBytes ∧ WithinLimits limits r)
      fun _ => WithinLimits limits := by
  refine triple_bind (S := fun body r => body.length ≤ limits.maxBodyBytes ∧ WithinLimits limits r)
    (fun r hr => ?_) fun body => ?_
  · refine (triple_drainBody r.bodyDecoded).mono (fun _ hr => hr) (fun body s hs => ?_)
      (fun _ _ hr => hr) r ⟨hr, rfl⟩
    have hdecoded := hs.1.decoded
    have hlen := hs.2
    exact ⟨by omega, hs.1⟩
  · refine triple_of_pre (fun r hr => hr.1) fun hbody => ?_
    refine triple_bind (S := fun _ => WithinLimits limits)
      (Triple.mono keeps_finishBody (fun _ hr => hr.2) (fun _ _ hr => hr) fun _ _ hr => hr)
      fun trailers => triple_pure fun r hr => ⟨hbody, hr⟩

/-! ## Calls -/

theorem triple_readRequest :
    Triple (WithinLimits limits) readRequest
      (fun out r => (∀ request ∈ out, request.body.length ≤ limits.maxBodyBytes) ∧
        WithinLimits limits r)
      fun _ => WithinLimits limits := by
  refine triple_bind (headRule_limits limits).readRequestHead fun head => ?_
  cases head with
  | none => exact triple_pure fun r hr => ⟨fun _ h => (nomatch h), hr⟩
  | some head =>
    refine triple_bind triple_readBodyAll fun ⟨body, trailers⟩ => triple_pure fun r hr => ⟨?_, hr.2⟩
    intro request hmem
    obtain rfl := Option.mem_some.mp hmem
    exact hr.1

theorem triple_readResponse (requestMethod : Bytes) :
    Triple (WithinLimits limits) (readResponse requestMethod)
      (fun out r => (∀ response ∈ out, response.body.length ≤ limits.maxBodyBytes) ∧
        WithinLimits limits r)
      fun _ => WithinLimits limits := by
  refine triple_bind ((headRule_limits limits).readResponseHead requestMethod) fun head => ?_
  cases head with
  | none => exact triple_pure fun r hr => ⟨fun _ h => (nomatch h), hr⟩
  | some head =>
    refine triple_bind triple_readBodyAll fun ⟨body, trailers⟩ => triple_pure fun r hr => ⟨?_, hr.2⟩
    intro response hmem
    obtain rfl := Option.mem_some.mp hmem
    exact hr.1

variable {P : Http1Reader → Prop}

theorem keeps_readBodyNull (capacity : Nat) : Keeps P (readBodyNull capacity) :=
  keeps_bind (keeps_gets _) fun _ => keeps_bind (keeps_failIf _ _) fun _ =>
    keeps_ite (fun _ => keeps_pure _) fun _ => keeps_fail _

/-- **Every call keeps the counters within the limits.** -/
theorem keeps_run (call : ReaderCall) : Keeps (WithinLimits limits) call.run := by
  cases call with
  | readRequestHead =>
    exact keeps_bind (headRule_limits limits).readRequestHead fun _ => keeps_pure _
  | readResponseHead requestMethod =>
    exact keeps_bind ((headRule_limits limits).readResponseHead requestMethod) fun _ => keeps_pure _
  | readBody capacity =>
    exact keeps_bind (keeps_of_decoded fun n => triple_readBody n capacity) fun _ => keeps_pure _
  | readBodyNull capacity => exact keeps_bind (keeps_readBodyNull capacity) fun _ => keeps_pure _
  | finishBody => exact keeps_bind keeps_finishBody fun _ => keeps_pure _
  | discardBody => exact keeps_bind keeps_discardBody fun _ => keeps_pure _
  | readBodyAll =>
    exact triple_bind triple_readBodyAll fun _ => triple_pure fun _ hr => hr.2
  | readRequest => exact triple_bind triple_readRequest fun _ => triple_pure fun _ hr => hr.2
  | readResponse requestMethod =>
    exact triple_bind (triple_readResponse requestMethod) fun _ => triple_pure fun _ hr => hr.2

/-! ## The checked reader -/

theorem runsAs_readHeaders
    (store : Nat → Nat → Http1Reader → Http1Reader) (usedBytes usedCount : Nat) :
    RunsAs .http P (checkedHeaders store usedBytes usedCount)
      (readHeaders store usedBytes usedCount) := by
  have hloop : ∀ steps headers usedBytes usedCount, RunsAs .http (fun _ => True)
      (checkedHeadersLoop store steps headers usedBytes usedCount)
      (readHeadersLoop store steps headers usedBytes usedCount) := by
    intro steps
    induction steps with
    | zero => exact fun _ _ _ => runsAs_fail noStepLeft
    | succ steps ih =>
      intro headers usedBytes usedCount
      unfold checkedHeadersLoop readHeadersLoop
      refine runsAs_bind (runsAs_gets _) (triple_trivial _) fun l => ?_
      refine runsAs_failIf_bind fun hbytes => ?_
      refine runsAs_skip (fun r _ => checkedSub_ok (by omega) r) ?_
      refine runsAs_bind (runsAs_mapError _) (triple_trivial _) fun value => ?_
      refine runsAs_skip (fun r _ => checkedSub_ok (by omega) r) ?_
      refine runsAs_failIf_bind fun hroom => ?_
      refine runsAs_skip (fun r _ => requireLe_ok (by omega) r) ?_
      refine runsAs_bind (runsAs_modify _) (triple_trivial _) fun _ => ?_
      refine runsAs_ite (fun _ => runsAs_pure _) fun _ => ?_
      refine runsAs_failIf_bind fun _ => ?_
      refine runsAs_failIf_bind fun hcount => ?_
      refine runsAs_bind (runsAs_mapError _) (triple_trivial _) fun header => ?_
      refine runsAs_skip (fun r _ => requireLe_ok (by omega) r) ?_
      exact runsAs_bind (runsAs_modify _) (triple_trivial _) fun _ => ih _ _ _
  refine RunsAs.mono (S := fun _ => True) ?_ fun _ _ => trivial
  exact runsAs_bind (runsAs_gets _) (triple_trivial _) fun _ => hloop _ _ _ _

theorem runsAs_readRequestHead : RunsAs .http P checkedRequestHead readRequestHead := by
  refine RunsAs.mono (S := fun _ => True) ?_ fun _ _ => trivial
  refine runsAs_bind (runsAs_mapError _) (triple_trivial _) fun _ => ?_
  refine runsAs_bind (runsAs_gets _) (triple_trivial _) fun l => ?_
  refine runsAs_bind (runsAs_mapError _) (triple_trivial _) fun line => ?_
  cases line with
  | none => exact runsAs_bind (runsAs_mapError _) (triple_trivial _) fun _ => runsAs_pure _
  | some requestLine =>
    refine runsAs_bind (runsAs_mapError _) (triple_trivial _) fun ⟨method, target, version⟩ => ?_
    refine runsAs_bind (runsAs_modify _) (triple_trivial _) fun _ => ?_
    refine runsAs_bind (runsAs_mapError _) (triple_trivial _) fun version => ?_
    refine runsAs_bind (runsAs_readHeaders _ _ _) (triple_trivial _) fun ⟨headers, _, _⟩ => ?_
    refine runsAs_bind (runsAs_mapError _) (triple_trivial _) fun _ => ?_
    refine runsAs_failIf_bind fun _ => ?_
    refine runsAs_bind (runsAs_mapError _) (triple_trivial _) fun framing => ?_
    exact runsAs_bind (runsAs_mapError _) (triple_trivial _) fun _ => runsAs_pure _

theorem runsAs_readResponseHead (requestMethod : Bytes) :
    RunsAs .http P (checkedResponseHead requestMethod) (readResponseHead requestMethod) := by
  refine RunsAs.mono (S := fun _ => True) ?_ fun _ _ => trivial
  refine runsAs_bind (runsAs_mapError _) (triple_trivial _) fun _ => ?_
  refine runsAs_bind (runsAs_gets _) (triple_trivial _) fun l => ?_
  refine runsAs_bind (runsAs_mapError _) (triple_trivial _) fun line => ?_
  cases line with
  | none => exact runsAs_bind (runsAs_mapError _) (triple_trivial _) fun _ => runsAs_pure _
  | some statusLine =>
    refine runsAs_bind (runsAs_mapError _) (triple_trivial _) fun ⟨version, status, reason⟩ => ?_
    refine runsAs_bind (runsAs_readHeaders _ _ _) (triple_trivial _) fun ⟨headers, _, _⟩ => ?_
    exact runsAs_mapError _

theorem runsAs_takeDecoded {n count : Nat} (hroom : n + count ≤ limits.maxBodyBytes) :
    RunsAs .http (fun r => r.limits = limits ∧ r.bodyDecoded = n) (checkedTakeDecoded count)
      (takeDecoded count) := by
  rintro r ⟨rfl, rfl⟩
  have hlen : (r.conn.buffered.take count).length ≤ count := List.length_take_le _ _
  have hle : r.bodyDecoded + (r.conn.buffered.take count).length ≤ r.limits.maxBodyBytes := by
    omega
  refine (bind_ok (f := _) (?_ : unchecked (takeBuffered count) r =
    (.ok (r.conn.buffered.take count), (takeBuffered count r).2))).trans ?_
  · rfl
  rw [gets_bind_apply, gets_bind_apply]
  exact bind_ok (requireLe_ok hle _)

theorem runsAs_readCounted (n : Nat) (eof : String) (next : ReadState) (capacity : Nat) :
    RunsAs .http (fun r => DecodedWithin limits n r ∧ r.state.announced)
      (checkedCounted eof next capacity) (readCounted eof next capacity) := by
  have hconn : ∀ r c, DecodedWithin limits n r ∧ r.state.announced →
      DecodedWithin limits n (r.withConn c) ∧ (r.withConn c).state.announced :=
    fun r c ⟨hr, hs⟩ => ⟨hr.withConn c, hs⟩
  refine runsAs_bind (runsAs_mapError _) (keeps_fillBuffer hconn) fun filled => ?_
  refine runsAs_failIf_bind fun _ => ?_
  refine runsAs_gets_bind fun remaining => ?_
  have hcount : min capacity remaining ≤ remaining := Nat.min_le_right _ _
  by_cases hroom : n + remaining ≤ limits.maxBodyBytes
  · have hroom' : n + min capacity remaining ≤ limits.maxBodyBytes := by omega
    refine runsAs_bind
      ((runsAs_takeDecoded hroom').mono fun r hr => ⟨hr.1.1.1.sameLimits, hr.1.1.2⟩)
      ((triple_takeDecoded (F := fun _ left => left = remaining) hroom').mono
        (fun r hr => ⟨hr.1.1.1.toCountersWithin, hr.1.1.2, hr.2⟩) (fun _ _ h => h)
        fun _ _ h => h) fun bytes => ?_
    refine runsAs_skip (fun r hr => checkedSub_ok (Nat.le_trans hr.1 hcount) r) ?_
    exact runsAs_bind (runsAs_modify _) (triple_trivial _) fun _ => runsAs_pure _
  · rintro r ⟨⟨hr, hs⟩, rfl⟩
    have hannounced := hr.1.announced hs
    rw [hr.2] at hannounced
    exact absurd hannounced hroom

theorem runsAs_readChunkSize (n : Nat) :
    RunsAs .http (DecodedWithin limits n) checkedChunkSize readChunkSize := by
  refine runsAs_bind (runsAs_gets _) (S := fun l r => l = limits ∧ DecodedWithin limits n r)
    (E := fun _ _ => True) (triple_gets fun r hr => ⟨hr.1.sameLimits, hr⟩) fun l => ?_
  rintro r ⟨rfl, hr⟩
  refine runsAs_bind (P := DecodedWithin l n) (runsAs_mapError _) (triple_readFullLine_decoded n _)
    (fun line => ?_) r hr
  refine runsAs_bind (runsAs_mapError _) (keeps_lift _) fun size => ?_
  refine runsAs_ite (fun _ => ?_) fun _ => ?_
  · refine runsAs_bind (runsAs_gets _) (triple_trivial _) fun usedBytes => ?_
    refine runsAs_bind (runsAs_gets _) (triple_trivial _) fun usedCount => ?_
    refine runsAs_bind (runsAs_readHeaders _ _ _) (triple_trivial _) fun ⟨trailers, _, _⟩ => ?_
    refine runsAs_bind (runsAs_modify _) (triple_trivial _) fun _ => ?_
    refine runsAs_bind (runsAs_mapError _) (triple_trivial _) fun _ => ?_
    exact runsAs_mapError _
  · refine runsAs_gets_bind fun decoded => ?_
    refine runsAs_skip (fun r hr => checkedSub_ok ?_ r) ?_
    · rw [← hr.2]
      exact hr.1.1.decoded
    exact runsAs_failIf_bind fun _ => runsAs_modify _

theorem runsAs_readChunkPrefix (n : Nat) :
    RunsAs .http (DecodedWithin limits n) checkedChunkPrefix readChunkPrefix := by
  refine runsAs_bind (runsAs_gets _) (keeps_gets _) fun state => ?_
  refine runsAs_bind (runsAs_mapError _)
    (keeps_ite (fun _ => keeps_readChunkEnding n) fun _ => keeps_pure _) fun _ => ?_
  exact runsAs_ite (fun _ => runsAs_pure _) fun _ => runsAs_readChunkSize n

theorem runsAs_readChunkedBodyPart (n capacity : Nat) :
    RunsAs .http (DecodedWithin limits n) (checkedChunkedBodyPart capacity)
      (readChunkedBodyPart capacity) := by
  refine runsAs_bind (runsAs_readChunkPrefix n) (keeps_readChunkPrefix n) fun _ => ?_
  refine runsAs_gets_bind fun state => runsAs_ite (fun hs => ?_) fun _ => runsAs_pure _
  refine (runsAs_readCounted n _ _ capacity).mono fun r hr => ⟨hr.1, ?_⟩
  rw [hr.2, hs]
  rfl

theorem runsAs_readCloseDelimitedBodyPart (n capacity : Nat) :
    RunsAs .http (DecodedWithin limits n) (checkedCloseDelimitedBodyPart capacity)
      (readCloseDelimitedBodyPart capacity) := by
  refine runsAs_bind (runsAs_mapError _)
    (keeps_fillBuffer fun _ c hr => DecodedWithin.withConn hr c) fun filled => ?_
  refine runsAs_ite (fun _ => ?_) fun _ => ?_
  · exact runsAs_bind (runsAs_mapError _) (triple_trivial _) fun _ => runsAs_pure _
  · refine runsAs_gets_bind fun l => runsAs_gets_bind fun count => runsAs_gets_bind fun decoded =>
      ?_
    rintro r ⟨⟨⟨hr, hl⟩, hcount⟩, hdecoded⟩
    have hle : decoded ≤ l.maxBodyBytes := by
      rw [← hdecoded, ← hl, hr.1.sameLimits]
      exact hr.1.decoded
    refine runsAs_skip (P := fun r => r.limits = l ∧ r.bodyDecoded = decoded)
      (fun r _ => checkedSub_ok hle r) ?_ r ⟨hl, hdecoded⟩
    exact runsAs_failIf_bind fun _ => runsAs_takeDecoded (by omega)

theorem runsAs_readBody (n capacity : Nat) :
    RunsAs .http (DecodedWithin limits n) (checkedBody capacity) (readBody capacity) := by
  refine runsAs_gets_bind fun state => runsAs_failIf_bind fun _ => ?_
  refine runsAs_ite (fun _ => runsAs_pure _) fun _ => runsAs_onError ?_
  refine runsAs_ite (fun hs => ?_) fun _ => runsAs_ite (fun _ => ?_) fun _ => ?_
  · refine (runsAs_readCounted n _ _ capacity).mono fun r hr => ⟨hr.1, ?_⟩
    rw [hr.2, hs]
    rfl
  · exact (runsAs_readCloseDelimitedBodyPart n capacity).mono fun r hr => hr.1
  · exact (runsAs_readChunkedBodyPart n capacity).mono fun r hr => hr.1

theorem runsAs_readBodies (n : Nat) (capacities : List Nat) :
    RunsAs .http (DecodedWithin limits n) (checkedBodies capacities) (readBodies capacities) := by
  induction capacities generalizing n with
  | nil => exact runsAs_pure _
  | cons capacity capacities ih =>
    unfold checkedBodies readBodies
    refine runsAs_bind (runsAs_gets _) (keeps_gets _) fun finished => ?_
    refine runsAs_ite (fun _ => runsAs_pure _) fun _ => ?_
    refine runsAs_bind (runsAs_readBody n capacity) (triple_readBody n capacity) fun part => ?_
    exact runsAs_bind (ih _) (triple_trivial _) fun _ => runsAs_pure _

theorem runsAs_drainBody :
    RunsAs .http (WithinLimits limits) checkedDrainBody drainBody := fun r hr =>
  runsAs_bind (P := DecodedWithin limits r.bodyDecoded) (runsAs_gets _) (keeps_gets _)
    (fun _ => runsAs_readBodies _ _) r ⟨hr, rfl⟩

theorem runsAs_readBodyAll : RunsAs .http (WithinLimits limits) checkedBodyAll readBodyAll := by
  refine runsAs_bind runsAs_drainBody (triple_trivial _) fun _ => ?_
  exact runsAs_bind (runsAs_mapError _) (triple_trivial _) fun _ => runsAs_pure _

/-- **No limit check wraps around**: the checked reader runs as the reader does. -/
theorem checkedRun_eq (call : ReaderCall) :
    RunsAs .http (WithinLimits limits) call.checkedRun call.run := by
  cases call with
  | readRequestHead =>
    exact runsAs_bind runsAs_readRequestHead (triple_trivial _) fun _ => runsAs_pure _
  | readResponseHead requestMethod =>
    exact runsAs_bind (runsAs_readResponseHead _) (triple_trivial _) fun _ => runsAs_pure _
  | readBody capacity =>
    intro r hr
    exact runsAs_bind (P := DecodedWithin limits r.bodyDecoded) (runsAs_readBody _ capacity)
      (triple_trivial _) (fun _ => runsAs_pure _) r ⟨hr, rfl⟩
  | readBodyNull capacity => exact runsAs_mapError _
  | finishBody => exact runsAs_mapError _
  | discardBody =>
    refine runsAs_bind ?_ (triple_trivial _) fun _ => runsAs_pure _
    refine runsAs_bind (runsAs_gets _) (keeps_gets _) fun state => ?_
    refine runsAs_failIf_bind fun _ => ?_
    exact runsAs_bind runsAs_drainBody (triple_trivial _) fun _ => runsAs_mapError _
  | readBodyAll => exact runsAs_bind runsAs_readBodyAll (triple_trivial _) fun _ => runsAs_pure _
  | readRequest =>
    refine runsAs_bind ?_ (triple_trivial _) fun _ => runsAs_pure _
    refine runsAs_bind runsAs_readRequestHead (headRule_limits limits).readRequestHead fun head =>
      ?_
    cases head with
    | none => exact runsAs_pure _
    | some head => exact runsAs_bind runsAs_readBodyAll (triple_trivial _) fun _ => runsAs_pure _
  | readResponse requestMethod =>
    refine runsAs_bind ?_ (triple_trivial _) fun _ => runsAs_pure _
    refine runsAs_bind (runsAs_readResponseHead requestMethod)
      ((headRule_limits limits).readResponseHead requestMethod) fun head => ?_
    cases head with
    | none => exact runsAs_pure _
    | some head => exact runsAs_bind runsAs_readBodyAll (triple_trivial _) fun _ => runsAs_pure _

/-- **A reader stays within its limits.** After any sequence of calls on any byte stream the
counters of the reader are within its limits; in the next call no subtraction of a limit check wraps
around and no counter passes its limit, and no body it returns whole is longer than
`max_body_bytes`. -/
theorem reader_limits (limits : HttpLimits) (events : List ReadEvent) (calls : List ReaderCall) :
    CountersWithin limits (runCalls calls (Http1Reader.fresh limits events)) ∧
      (∀ call : ReaderCall, call.checkedRun (runCalls calls (Http1Reader.fresh limits events)) =
        mapError .http call.run (runCalls calls (Http1Reader.fresh limits events))) ∧
      (∀ body trailers r', readBodyAll (runCalls calls (Http1Reader.fresh limits events)) =
        (.ok (body, trailers), r') → body.length ≤ limits.maxBodyBytes) ∧
      (∀ request r', readRequest (runCalls calls (Http1Reader.fresh limits events)) =
        (.ok (some request), r') → request.body.length ≤ limits.maxBodyBytes) ∧
      ∀ requestMethod response r',
        readResponse requestMethod (runCalls calls (Http1Reader.fresh limits events)) =
          (.ok (some response), r') → response.body.length ≤ limits.maxBodyBytes := by
  have hr := runCalls_keeps keeps_run calls (withinLimits_fresh limits events)
  refine ⟨hr.toCountersWithin, fun call => checkedRun_eq call _ hr, ?_, ?_, ?_⟩
  · intro body trailers r' h
    exact (triple_readBodyAll.ok hr h).1
  · intro request r' h
    exact (triple_readRequest.ok hr h).1 request rfl
  · intro requestMethod response r' h
    exact ((triple_readResponse requestMethod).ok hr h).1 response rfl

end Libca.Http
