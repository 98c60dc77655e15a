import Libca.Http.Bodies

/-!
# Reading does not depend on fragmentation (`http/http1_codec.cpp`)

* `agrees_readRequest`, `agrees_readResponse`: whole messages do not depend on the delivery.
* `fragmentation_irrelevant`: neither does a run of `read_request`, and a body read in parts is the
  one `read_body_all` returns.
-/

namespace Libca.Http

open Common Fallible

/-! ## Whole messages -/

/-- A body is begun, or there is none. -/
def SameBegun (r t : Http1Reader) : Prop := SameStream r t ∧ BodyBegun r

variable {r : Http1Reader}

theorem bodyBegun_of_state (h : r.state ≠ .fixedBody) (h' : r.state ≠ .chunkData) :
    BodyBegun r := by
  rintro (hfixed | hdata)
  · exact absurd hfixed h
  · exact absurd hdata h'

theorem triple_beginBody (body : HttpBodyInfo) (usedBytes usedCount : Nat) :
    Triple (fun _ => True) (beginBody body usedBytes usedCount) (fun _ => BodyBegun)
      fun _ _ => True := by
  refine triple_bind (S := fun _ r => r.bodyRemaining = body.length)
    (triple_modify fun _ _ => rfl) fun _ => ?_
  refine triple_bind (S := fun _ r => r.bodyRemaining = body.length)
    (triple_gets fun _ h => h) fun limits => ?_
  cases body with
  | none => exact triple_modify fun r _ => bodyBegun_of_state nofun nofun
  | chunked => exact triple_modify fun r _ => bodyBegun_of_state nofun nofun
  | closeDelimited => exact triple_modify fun r _ => bodyBegun_of_state nofun nofun
  | contentLength length =>
    refine triple_ite (fun _ => ?_) fun _ => ?_
    · exact triple_bind (triple_trivial _) fun _ => triple_fail fun _ _ => trivial
    · refine triple_modify fun r h => ?_
      by_cases hlength : length = 0
      · refine bodyBegun_of_state ?_ ?_ <;> simp [hlength]
      · intro _
        exact Nat.pos_of_ne_zero fun hzero => hlength (h.symm.trans hzero)

theorem triple_readRequestHead :
    Triple (fun _ => True) readRequestHead (fun _ => BodyBegun) fun _ _ => True := by
  refine triple_bind (triple_trivial _) fun _ => triple_bind (triple_trivial _) fun limits => ?_
  refine triple_bind (triple_trivial _) fun line => ?_
  cases line with
  | none =>
    refine triple_bind (S := fun _ r => r.state = .ready) (triple_modify fun _ _ => rfl) fun _ => ?_
    refine triple_pure fun r h => bodyBegun_of_state ?_ ?_ <;> rw [h] <;> decide
  | some requestLine =>
    refine triple_bind (triple_trivial _) fun parts => ?_
    obtain ⟨method, target, versionText⟩ := parts
    refine triple_bind (triple_trivial _) fun _ => triple_bind (triple_trivial _) fun version => ?_
    refine triple_bind (triple_trivial _) fun used => ?_
    obtain ⟨headers, usedBytes, usedCount⟩ := used
    refine triple_bind (triple_trivial _) fun _ => triple_bind (triple_trivial _) fun _ => ?_
    refine triple_bind (triple_trivial _) fun framing => ?_
    exact triple_bind (triple_beginBody _ _ _) fun _ => triple_pure fun _ h => h

theorem triple_readResponseHead (requestMethod : Bytes) :
    Triple (fun _ => True) (readResponseHead requestMethod) (fun _ => BodyBegun)
      fun _ _ => True := by
  refine triple_bind (triple_trivial _) fun _ => triple_bind (triple_trivial _) fun limits => ?_
  refine triple_bind (triple_trivial _) fun line => ?_
  cases line with
  | none =>
    refine triple_bind (S := fun _ r => r.state = .ready) (triple_modify fun _ _ => rfl) fun _ => ?_
    refine triple_pure fun r h => bodyBegun_of_state ?_ ?_ <;> rw [h] <;> decide
  | some statusLine =>
    refine triple_bind (triple_trivial _) fun parts => ?_
    obtain ⟨version, status, reason⟩ := parts
    refine triple_bind (triple_trivial _) fun used => ?_
    obtain ⟨headers, usedBytes, usedCount⟩ := used
    refine triple_bind (triple_trivial _) fun _ => triple_bind (triple_trivial _) fun _ => ?_
    refine triple_bind (triple_trivial _) fun framing => ?_
    exact triple_bind (triple_beginBody _ _ _) fun _ => triple_pure fun _ h => h

/-- A head that is read from two deliveries begins the same body. -/
theorem begins {α : Type} {x : Read α} (hagrees : Agrees SameStream x SameStream)
    (htriple : Triple (fun _ => True) x (fun _ => BodyBegun) fun _ _ => True) :
    Agrees SameStream x SameBegun := by
  intro r t h
  have hboth := hagrees.and_triple htriple r t ⟨h, trivial⟩
  exact ⟨hboth.result, hboth.state⟩

variable {t : Http1Reader}

theorem sameBody_drainBody (h : SameBegun r t) : SameBody (drainBody r) (drainBody t) := by
  unfold drainBody
  rw [gets_bind_apply, gets_bind_apply]
  refine sameBody_readBodies h.1 h.2 ?_ ?_ ?_ ?_
  · exact fun c hc => by rw [List.eq_of_mem_replicate hc]; decide
  · exact fun c hc => by rw [List.eq_of_mem_replicate hc]; decide
  · rw [List.length_replicate]
    exact Nat.lt_succ_self _
  · rw [List.length_replicate, ← h.1.stream]
    exact Nat.lt_succ_self _

theorem agrees_finishBody : Agrees SameStream finishBody SameStream := by
  refine agrees_bind (agrees_gets_of fun _ _ => rfl) fun state => ?_
  refine agrees_bind (agrees_failIf _ _) fun _ => ?_
  refine agrees_bind (agrees_gets_of fun _ _ => rfl) fun trailers => ?_
  exact agrees_bind (agrees_modify_of fun _ _ => rfl) fun _ => agrees_pure _

theorem agrees_readBodyAll : Agrees SameBegun readBodyAll SameStream := by
  have hdrain : Agrees SameBegun drainBody SameStream := fun r t h =>
    ⟨(sameBody_drainBody h).result, fun a ha => ((sameBody_drainBody h).state a ha).1⟩
  refine agrees_bind hdrain fun body => ?_
  exact agrees_bind agrees_finishBody fun trailers => agrees_pure _

theorem agrees_readRequest : Agrees SameStream readRequest SameStream := by
  refine agrees_bind (begins agrees_readRequestHead triple_readRequestHead) fun head => ?_
  cases head with
  | none => exact fun r t h => agrees_pure none r t h.1
  | some head => exact agrees_bind agrees_readBodyAll fun _ => agrees_pure _

theorem agrees_readResponse (requestMethod : Bytes) :
    Agrees SameStream (readResponse requestMethod) SameStream := by
  refine agrees_bind (begins (agrees_readResponseHead _) (triple_readResponseHead _)) fun head => ?_
  cases head with
  | none => exact fun r t h => agrees_pure none r t h.1
  | some head => exact agrees_bind agrees_readBodyAll fun _ => agrees_pure _

theorem readRequests_eq (h : SameStream r t) (count : Nat) :
    readRequests count r = readRequests count t := by
  induction count generalizing r t with
  | zero => rfl
  | succ count ih =>
    unfold readRequests
    obtain ⟨e, r', t', hr, ht⟩ | ⟨request, r', t', hr, ht, h'⟩ := agrees_readRequest.cases h
    · rw [hr, ht]
    · rw [hr, ht]
      cases request with
      | none => rfl
      | some request => exact congrArg _ (ih h')

theorem sameStream_fresh (limits : HttpLimits) {events events' : List ReadEvent} {stream : Bytes}
    (h : Delivers events stream) (h' : Delivers events' stream) :
    SameStream (.fresh limits events) (.fresh limits events') :=
  ⟨rfl, h.clean, h'.clean, h.bytes.trans h'.bytes.symm⟩

/-! ## Bodies read in parts -/

/-- Which message a caller reads. -/
inductive Call
  | request
  | response (requestMethod : Bytes)

/-- Read a message whole. -/
def Call.readMessage : Call → Read Unit
  | .request => do
    let _ ← readRequest
    pure ()
  | .response requestMethod => do
    let _ ← readResponse requestMethod
    pure ()

/-- Read the head of a message. -/
def Call.readHead : Call → Read Unit
  | .request => do
    let _ ← readRequestHead
    pure ()
  | .response requestMethod => do
    let _ ← readResponseHead requestMethod
    pure ()

/-- Read messages whole, one after the other, and then the head of one more. -/
def readToBody : List Call → Call → Read Unit
  | [], call => call.readHead
  | earlier :: calls, call => do
    earlier.readMessage
    readToBody calls call

/-- The body that follows, by `read_body` with the given capacities, and whether it is finished. -/
def readInParts (calls : List Call) (call : Call) (capacities : List Nat) : Read (Bytes × Bool) :=
  do
  readToBody calls call
  let body ← readBodies capacities
  let finished ← gets Http1Reader.bodyFinished
  pure (body, finished)

/-- The body that follows, by `read_body_all`. -/
def readWhole (calls : List Call) (call : Call) : Read Bytes := do
  readToBody calls call
  let (body, _) ← readBodyAll
  pure body

theorem agrees_readMessage (call : Call) : Agrees SameStream call.readMessage SameStream := by
  cases call with
  | request => exact agrees_bind agrees_readRequest fun _ => agrees_pure _
  | response requestMethod => exact agrees_bind (agrees_readResponse _) fun _ => agrees_pure _

theorem agrees_readHead (call : Call) : Agrees SameStream call.readHead SameBegun := by
  cases call with
  | request =>
    exact agrees_bind (begins agrees_readRequestHead triple_readRequestHead) fun _ => agrees_pure _
  | response requestMethod =>
    exact agrees_bind (begins (agrees_readResponseHead _) (triple_readResponseHead _)) fun _ =>
      agrees_pure _

theorem agrees_readToBody (calls : List Call) (call : Call) :
    Agrees SameStream (readToBody calls call) SameBegun := by
  induction calls with
  | nil => exact agrees_readHead call
  | cons earlier calls ih => exact agrees_bind (agrees_readMessage earlier) fun _ => ih

/-- The reader between messages. -/
def Http1Reader.between (r : Http1Reader) : Http1Reader where
  limits := r.limits
  conn := r.conn
  lastHeadMethod := r.lastHeadMethod

theorem finishBody_complete (hr : r.state = .bodyComplete) :
    finishBody r = (.ok r.bodyTrailers, r.between) := by
  unfold finishBody
  rw [gets_bind_apply, failIf_neg (by simp [hr]), pure_bind_apply, gets_bind_apply,
    modify_bind_apply]
  rfl

theorem readBodyAll_of_drain {r' : Http1Reader} {body : Bytes} (h : drainBody r = (.ok body, r'))
    (hr' : r'.state = .bodyComplete) :
    readBodyAll r = (.ok (body, r'.bodyTrailers), r'.between) := by
  unfold readBodyAll
  rw [bind_ok h, bind_ok (finishBody_complete hr')]
  rfl

variable {capacities : List Nat}

/-- A loop with more passes than bytes left ends as `read_body_all` does. -/
theorem sameBody_drain (h : SameBegun r t)
    (hpos : ∀ c ∈ capacities, 0 < c) (hlen : r.left < capacities.length) :
    SameBody (readBodies capacities r) (drainBody t) := by
  unfold drainBody
  rw [gets_bind_apply]
  refine sameBody_readBodies h.1 h.2 hpos ?_ hlen ?_
  · exact fun c hc => by rw [List.eq_of_mem_replicate hc]; decide
  · rw [List.length_replicate, ← h.1.stream]
    exact Nat.lt_succ_self _

theorem readWhole_of_long (h : SameBegun r t)
    (hpos : ∀ c ∈ capacities, 0 < c) (hlen : r.left < capacities.length) :
    (∃ e s s', readBodies capacities r = (.error e, s) ∧ readBodyAll t = (.error e, s')) ∨
      ∃ body r' trailers t', readBodies capacities r = (.ok body, r') ∧
        r'.state = .bodyComplete ∧ readBodyAll t = (.ok (body, trailers), t') := by
  have hdrain := sameBody_drain h hpos hlen
  cases hr : readBodies capacities r with
  | mk res r' =>
    cases ht : drainBody t with
    | mk res' t' =>
      rw [hr, ht] at hdrain
      obtain rfl : res = res' := hdrain.result
      cases res with
      | error e =>
        refine .inl ⟨e, r', t', rfl, ?_⟩
        unfold readBodyAll
        rw [bind_error ht]
      | ok body =>
        obtain ⟨hsame, hcomplete⟩ := hdrain.state body rfl
        exact .inr ⟨body, r', _, _, rfl, hcomplete,
          readBodyAll_of_drain ht (hsame.state_eq.trans hcomplete)⟩

theorem readWhole_of_finished {r' : Http1Reader} (h : SameBegun r t)
    (hpos : ∀ c ∈ capacities, 0 < c) {body : Bytes}
    (hread : readBodies capacities r = (.ok body, r')) (hfinished : r'.state = .bodyComplete) :
    ∃ trailers t', readBodyAll t = (.ok (body, trailers), t') := by
  -- more capacities make more passes than there are bytes left, and change nothing
  have hmore := readBodies_append hread hfinished (List.replicate (r.left + 1) 1)
  have hpos' : ∀ c ∈ capacities ++ List.replicate (r.left + 1) 1, 0 < c := by
    intro c hc
    rcases List.mem_append.mp hc with hc | hc
    · exact hpos c hc
    · rw [List.eq_of_mem_replicate hc]
      decide
  have hlen : r.left < (capacities ++ List.replicate (r.left + 1) 1).length := by
    rw [List.length_append, List.length_replicate]
    omega
  obtain ⟨e, s, s', herror, -⟩ | ⟨body', s, trailers, t', hok, -, hall⟩ :=
    readWhole_of_long h hpos' hlen
  · rw [hmore] at herror
    cases herror
  · rw [hmore] at hok
    obtain rfl : body = body' := by simpa using congrArg Prod.fst hok
    exact ⟨trailers, t', hall⟩

/-- **Reading does not depend on fragmentation.** Two deliveries of one stream give the same
results of `read_request`, to the first error or end of stream. A body read in parts, after any
messages, is the one `read_body_all` returns as soon as it is finished; and parts enough finish it,
or fail as `read_body_all` does. -/
theorem fragmentation_irrelevant (limits : HttpLimits) (stream : Bytes)
    (events events' : List ReadEvent) (h : Delivers events stream) (h' : Delivers events' stream) :
    (∀ count, readRequests count (.fresh limits events) =
      readRequests count (.fresh limits events')) ∧
    (∀ calls call capacities body, (∀ c ∈ capacities, 0 < c) →
      (readInParts calls call capacities (.fresh limits events)).1 = .ok (body, true) →
      (readWhole calls call (.fresh limits events')).1 = .ok body) ∧
    ∀ calls call, ∃ passes, ∀ capacities, (∀ c ∈ capacities, 0 < c) → passes ≤ capacities.length →
      (readInParts calls call capacities (.fresh limits events)).1 =
        (readWhole calls call (.fresh limits events')).1.map fun body => (body, true) := by
  have hfresh := sameStream_fresh limits h h'
  refine ⟨readRequests_eq hfresh, ?_, ?_⟩
  · intro calls call capacities body hpos hread
    unfold readInParts at hread
    unfold readWhole
    obtain ⟨e, s, s', hs, hs'⟩ | ⟨_, r, t, hr, ht, hbegun⟩ :=
      (agrees_readToBody calls call).cases hfresh
    · rw [bind_error hs] at hread
      cases hread
    · rw [bind_ok hr] at hread
      rw [bind_ok ht]
      cases hbody : readBodies capacities r with
      | mk res r' =>
        cases res with
        | error e =>
          rw [bind_error hbody] at hread
          cases hread
        | ok body' =>
          rw [bind_ok hbody, gets_bind_apply] at hread
          obtain ⟨rfl, hfinished⟩ : body' = body ∧ r'.bodyFinished = true := by simpa using hread
          obtain ⟨trailers, t', hall⟩ := readWhole_of_finished hbegun hpos hbody
            (by simpa [Http1Reader.bodyFinished] using hfinished)
          rw [bind_ok hall]
          rfl
  · intro calls call
    unfold readInParts readWhole
    obtain ⟨e, s, s', hs, hs'⟩ | ⟨_, r, t, hr, ht, hbegun⟩ :=
      (agrees_readToBody calls call).cases hfresh
    · refine ⟨0, fun capacities _ _ => ?_⟩
      rw [bind_error hs, bind_error hs']
      rfl
    · refine ⟨r.left + 1, fun capacities hpos hlen => ?_⟩
      rw [bind_ok hr, bind_ok ht]
      obtain ⟨e, s, s', hs, hs'⟩ | ⟨body, r', trailers, t', hr', hcomplete, hall⟩ :=
        readWhole_of_long hbegun hpos hlen
      · rw [bind_error hs, bind_error hs']
        rfl
      · rw [bind_ok hr', bind_ok hall, gets_bind_apply]
        simp [Http1Reader.bodyFinished, hcomplete, Except.map]

/-- A request in one read, and in three with an interruption; its body read byte by byte. -/
theorem fragmentation_irrelevant_split :
    readRequests 2 (.fresh {} [.data (ascii "PUT / HTTP/1.0\r\nContent-Length: 2\r\n\r\nhi")]) =
      readRequests 2 (.fresh {} [.data (ascii "PUT / HTTP/1.0\r"), .interrupted,
        .data (ascii "\nContent-Length: 2\r\n\r\nh"), .data (ascii "i")]) ∧
    (readWhole [] .request (.fresh {} [.data (ascii "PUT / HTTP/1.0\r"), .interrupted,
        .data (ascii "\nContent-Length: 2\r\n\r\nh"), .data (ascii "i")])).1 =
      .ok (ascii "hi") :=
  have h := fragmentation_irrelevant {} (ascii "PUT / HTTP/1.0\r\nContent-Length: 2\r\n\r\nhi")
    [.data (ascii "PUT / HTTP/1.0\r\nContent-Length: 2\r\n\r\nhi")]
    [.data (ascii "PUT / HTTP/1.0\r"), .interrupted,
      .data (ascii "\nContent-Length: 2\r\n\r\nh"), .data (ascii "i")]
    ⟨by decide, by decide⟩ ⟨by decide, by decide⟩
  ⟨h.1 2, h.2.1 [] .request [1, 1] (ascii "hi") (by decide) (by decide +kernel)⟩

end Libca.Http
