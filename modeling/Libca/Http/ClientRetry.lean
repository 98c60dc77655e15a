import Libca.Http.Client

/-!
# How often a client sends a request (`http/client.cpp` 236-365)

* `readResponseHead_none`: a head that ends before its first byte has received nothing.
* `readHeads_cases`, `attemptRequest_cases`: one pass of the retry loop, on a connection.
* `retryLoop_cases`: the loop writes the request once, or twice when the connection was kept.
* `call_sentSafely_iff`: when a call of the client sends its request safely.
-/

namespace Libca.Http

open Common Fallible

/-! ## End of stream -/

theorem fill_false {pending : List ReadEvent} {c : Conn} (h : fill pending = (.ok false, c)) :
    (pending.flatMap ReadEvent.bytes).length = (c.pending.flatMap ReadEvent.bytes).length := by
  fun_induction fill pending with
  | case1 =>
    obtain rfl := (Prod.mk.inj h).2
    rfl
  | case2 pending ih => exact ih h
  | case3 message pending => cases (Prod.mk.inj h).1
  | case4 bytes pending hlarge => cases (Prod.mk.inj h).1
  | case5 bytes pending hsize =>
    obtain ⟨hempty, rfl⟩ := Prod.mk.inj h
    have hnil : bytes = [] := by simpa using hempty
    rw [hnil]
    rfl

theorem fillBuffer_cases {r r' : Http1Reader} {filled : Bool}
    (h : fillBuffer r = (.ok filled, r')) :
    filled = true ∧ r'.conn.buffered ≠ [] ∨ filled = false ∧ arrived r.conn r'.conn = 0 := by
  unfold fillBuffer at h
  split_ifs at h with hempty
  · cases filled with
    | true =>
      left
      refine ⟨rfl, ?_⟩
      obtain ⟨hfill, rfl⟩ := Prod.mk.inj h
      rw [Http1Reader.withConn_conn]
      generalize r.conn.pending = pending at hfill
      fun_induction fill pending with
      | case1 => cases hfill
      | case2 pending ih => exact ih hfill
      | case3 message pending => cases hfill
      | case4 bytes pending hlarge => cases hfill
      | case5 bytes pending hsize => simpa using hfill
    | false =>
      right
      refine ⟨rfl, ?_⟩
      obtain ⟨hfill, rfl⟩ := Prod.mk.inj h
      have hlength := fill_false (c := (fill r.conn.pending).2) (Prod.ext hfill rfl)
      unfold arrived
      rw [Http1Reader.withConn_conn, hlength, Nat.sub_self]
  · obtain ⟨hfill, rfl⟩ := Prod.mk.inj h
    left
    refine ⟨(Except.ok.inj hfill).symm, ?_⟩
    simpa using hempty

theorem readByte_none {r r' : Http1Reader} (h : readByte r = (.ok none, r')) :
    arrived r.conn r'.conn = 0 := by
  unfold readByte at h
  obtain ⟨filled, r₁, hfill, h⟩ := bind_eq_ok.mp h
  rcases fillBuffer_cases hfill with ⟨rfl, hbuffered⟩ | ⟨rfl, harrived⟩
  · rw [if_pos rfl] at h
    obtain ⟨bytes, r₂, htake, h⟩ := bind_eq_ok.mp h
    obtain ⟨hbytes, -⟩ := Prod.mk.inj htake
    obtain ⟨b, rest, hcons⟩ := List.exists_cons_of_ne_nil hbuffered
    rw [hcons] at hbytes
    obtain ⟨hnone, -⟩ := Prod.mk.inj h
    rw [← Except.ok.inj hbytes] at hnone
    cases hnone
  · rw [if_neg (by decide)] at h
    obtain ⟨-, rfl⟩ := Prod.mk.inj h
    exact harrived

/-- A line that ends before its first byte has received nothing. -/
theorem readLineLoop_none {limit steps : Nat} {allowCleanEof sawCarriageReturn sawAnyByte : Bool}
    {line : Bytes} {r r' : Http1Reader}
    (h : readLineLoop limit allowCleanEof steps line sawCarriageReturn sawAnyByte r =
      (.ok none, r')) :
    sawAnyByte = false ∧ arrived r.conn r'.conn = 0 := by
  induction steps generalizing line sawCarriageReturn sawAnyByte r with
  | zero => cases h
  | succ steps ih =>
    unfold readLineLoop at h
    obtain ⟨next, r₁, hnext, h⟩ := bind_eq_ok.mp h
    cases next with
    | none =>
      dsimp only at h
      split_ifs at h with hclean
      · obtain ⟨-, rfl⟩ := Prod.mk.inj h
        exact ⟨by simpa using hclean.2, readByte_none hnext⟩
      · cases h
    | some value =>
      dsimp only at h
      split_ifs at h
      · cases h
      · cases h
      · exact absurd (ih h).1 (by decide)
      · cases h
      · cases h
      · exact absurd (ih h).1 (by decide)

/-- **A head that ends before its first byte has received nothing.** -/
theorem readResponseHead_none {method : Bytes} {r r' : Http1Reader}
    (h : readResponseHead method r = (.ok none, r')) : arrived r.conn r'.conn = 0 := by
  unfold readResponseHead at h
  obtain ⟨_, r₁, hready, h⟩ := bind_eq_ok.mp h
  obtain ⟨limits, r₂, hlimits, h⟩ := bind_eq_ok.mp h
  obtain ⟨line, r₃, hline, h⟩ := bind_eq_ok.mp h
  obtain ⟨-, rfl⟩ := Prod.mk.inj hlimits
  have hconn : r₁.conn = r.conn := by
    unfold ensureReady at hready
    obtain ⟨state, s₁, hstate, hready⟩ := bind_eq_ok.mp hready
    obtain ⟨-, rfl⟩ := Prod.mk.inj hstate
    obtain ⟨_, s₂, hfail, hready⟩ := bind_eq_ok.mp hready
    obtain ⟨-, rfl⟩ := failIf_eq_ok.mp hfail
    obtain ⟨_, s₃, hgets, hready⟩ := bind_eq_ok.mp hready
    obtain ⟨-, rfl⟩ := Prod.mk.inj hgets
    obtain ⟨_, s₄, hlift, hready⟩ := bind_eq_ok.mp hready
    obtain ⟨-, rfl⟩ := lift_eq_ok.mp hlift
    obtain ⟨-, rfl⟩ := Prod.mk.inj hready
    rfl
  cases line with
  | none =>
    obtain ⟨_, r₄, hstate, h⟩ := bind_eq_ok.mp h
    obtain ⟨-, rfl⟩ := Prod.mk.inj hstate
    obtain ⟨-, rfl⟩ := Prod.mk.inj h
    unfold readLine at hline
    obtain ⟨remaining, r₅, hremaining, hline⟩ := bind_eq_ok.mp hline
    obtain ⟨-, rfl⟩ := Prod.mk.inj hremaining
    rw [← hconn]
    exact (readLineLoop_none hline).2
  | some statusLine =>
    obtain ⟨parsed, r₄, -, h⟩ := bind_eq_ok.mp h
    obtain ⟨headers, r₅, -, h⟩ := bind_eq_ok.mp h
    unfold acceptResponseHead at h
    obtain ⟨_, r₆, -, h⟩ := bind_eq_ok.mp h
    obtain ⟨_, r₇, -, h⟩ := bind_eq_ok.mp h
    obtain ⟨framing, r₈, -, h⟩ := bind_eq_ok.mp h
    obtain ⟨_, r₉, -, h⟩ := bind_eq_ok.mp h
    cases (Prod.mk.inj h).1

/-! ## One pass of the retry loop -/

/-- Events that are no writes. -/
def Silent (events : List ClientEvent) : Prop := ∀ event ∈ events, ∀ id, event ≠ .writing id

theorem silent_nil : Silent [] := nofun

theorem Silent.append {as bs : List ClientEvent} (ha : Silent as) (hb : Silent bs) :
    Silent (as ++ bs) := by
  intro event h
  rcases List.mem_append.mp h with h | h
  · exact ha event h
  · exact hb event h

theorem silent_received (id count : Nat) : Silent [.received id count] := by
  intro event h
  obtain rfl := List.mem_singleton.mp h
  nofun

theorem silent_dropped (id : Nat) : Silent [.dropped id] := by
  intro event h
  obtain rfl := List.mem_singleton.mp h
  nofun

theorem silent_obtained (id : Nat) : Silent [.obtained id] := by
  intro event h
  obtain rfl := List.mem_singleton.mp h
  nofun

/-- The client has done more, on the connection `conn`. -/
def HttpClient.after (client : HttpClient) (conn : Option ClientConnection)
    (more : List ClientEvent) : HttpClient :=
  { client with connection := conn, events := client.events ++ more }

theorem HttpClient.after_after (client : HttpClient) (conn conn' : Option ClientConnection)
    (more more' : List ClientEvent) :
    (client.after conn more).after conn' more' = client.after conn' (more ++ more') := by
  unfold HttpClient.after
  simp only [List.append_assoc]

variable {client : HttpClient} {conn : ClientConnection}

variable {α : Type}

theorem withReader_eq (h : client.connection = some conn) (call : Read α) :
    withReader call client =
      (.ok (call conn.codecReader).1,
      client.after (some { conn with codecReader := (call conn.codecReader).2 })
        [.received conn.id (arrived conn.codecReader.conn (call conn.codecReader).2.conn)]) := by
  unfold withReader
  rw [h]
  rfl

theorem withWriter_eq (h : client.connection = some conn) (call : Write Unit) :
    withWriter call client =
      (.ok (call conn.codecWriter).1,
      client.after (some { conn with codecWriter := (call conn.codecWriter).2 })
        [.writing conn.id]) := by
  unfold withWriter
  rw [h]
  rfl

theorem resetConnection_none (h : client.connection = none) :
    resetConnection client = (.ok (), client) := by
  unfold resetConnection
  rw [modify_apply, h]

theorem resetConnection_some (h : client.connection = some conn) :
    resetConnection client = (.ok (), client.after none [.dropped conn.id]) := by
  unfold resetConnection
  rw [modify_apply, h]
  rfl

theorem failWith_eq (h : client.connection = some conn) (e : HttpError) :
    (failWith e : Client α) client = (.error e, client.after none [.dropped conn.id]) := by
  unfold failWith
  rw [bind_ok (resetConnection_some h)]
  rfl

/-- A pass ended with an error: the connection is dropped. -/
def Failed {α : Type} (client : HttpClient) (end' : Except HttpError α × HttpClient) : Prop :=
  ∃ e more, end' = (.error e, client.after none more) ∧ Silent more

theorem failed_failWith (h : client.connection = some conn) (e : HttpError) :
    Failed client ((failWith e : Client α) client) :=
  ⟨e, _, failWith_eq h e, silent_dropped conn.id⟩

variable {conn' : Option ClientConnection} {more : List ClientEvent}

theorem Failed.after
    {end' : Except HttpError α × HttpClient} (h : Failed (client.after conn' more) end')
    (hmore : Silent more) :
    Failed client end' := by
  obtain ⟨e, more', rfl, hsilent⟩ := h
  exact ⟨e, _, by rw [HttpClient.after_after], hmore.append hsilent⟩

/-- The first head was not there: the connection ended, or was reset. -/
def NoHead (method : Bytes) (conn : ClientConnection) : Prop :=
  (readResponseHead method conn.codecReader).1 = .ok none ∨
    ∃ e, (readResponseHead method conn.codecReader).1 = .error e ∧
      isResetError conn.readErrorKind e = true

/-- What the transport gave to the first call of `read_response_head`. -/
def headBytes (method : Bytes) (conn : ClientConnection) : Nat :=
  arrived conn.codecReader.conn (readResponseHead method conn.codecReader).2.conn

/-- The heads were read on a connection. -/
structure HeadsRead (method : Bytes) (count : Nat) (client : HttpClient) (conn : ClientConnection)
    (outcome : Attempt) (conn' : ClientConnection) (more : List ClientEvent) : Prop where
  id : conn'.id = conn.id
  silent : Silent more
  count_le : count ≤ outcome.informationalCount
  stale : outcome.staleClose = true → outcome.informationalCount = count →
    NoHead method conn ∧ more = [.received conn.id (headBytes method conn)]

/-- **The heads are read, or the connection is dropped.** -/
theorem readHeads_cases (h : client.connection = some conn) (method : Bytes)
    (maxInformational count : Nat) :
    Failed client (readHeads method maxInformational count client) ∨
      ∃ outcome conn' more, readHeads method maxInformational count client =
        (.ok outcome, client.after (some conn') more) ∧
          HeadsRead method count client conn outcome conn' more := by
  induction hleft : maxInformational - count using Nat.strong_induction_on generalizing client conn
    count with
  | _ left ih =>
  rw [readHeads, bind_ok (withReader_eq h _)]
  have hsilent := silent_received conn.id (headBytes method conn)
  cases hhead : (readResponseHead method conn.codecReader).1 with
  | error e =>
    dsimp only
    rw [gets_bind_apply]
    by_cases hreset : isResetError conn.readErrorKind e = true
    · rw [if_pos (by exact hreset)]
      exact .inr ⟨_, _, _, rfl, rfl, hsilent, le_rfl, fun _ _ => ⟨.inr ⟨e, hhead, hreset⟩, rfl⟩⟩
    · rw [if_neg (by exact hreset)]
      exact .inl ((failed_failWith rfl e).after hsilent)
  | ok optionalHead =>
    cases optionalHead with
    | none => exact .inr ⟨_, _, _, rfl, rfl, hsilent, le_rfl, fun _ _ => ⟨.inl hhead, rfl⟩⟩
    | some head =>
      dsimp only
      by_cases hfinal : (!isInformational head.status) = true
      · rw [if_pos hfinal]
        exact .inr ⟨_, _, _, rfl, rfl, hsilent, le_rfl, nofun⟩
      · rw [if_neg hfinal, bind_ok (withReader_eq rfl _), HttpClient.after_after]
        have hsilent₂ (n : Nat) := hsilent.append (silent_received conn.id n)
        dsimp only
        cases hfinish : (finishBody (readResponseHead method conn.codecReader).2).1 with
        | error e => exact .inl ((failed_failWith rfl e).after (hsilent₂ _))
        | ok trailers =>
          rw [show orFail (.ok trailers) = (pure trailers : Client HttpHeaders) from rfl,
            pure_bind_apply]
          by_cases hupgrade : head.status = 101
          · rw [if_pos hupgrade]
            exact .inl ((failed_failWith rfl _).after (hsilent₂ _))
          · rw [if_neg hupgrade]
            by_cases hmany : maxInformational < count + 1
            · rw [dif_pos hmany]
              exact .inl ((failed_failWith rfl _).after (hsilent₂ _))
            · rw [dif_neg hmany]
              have hnext (conn₂ : ClientConnection) (more₂ : List ClientEvent) :=
                ih (maxInformational - (count + 1)) (by omega)
                  (show (client.after (some conn₂) more₂).connection = _
                  from rfl) (count + 1) rfl
              rcases hnext _ _ with hfailed | ⟨outcome, conn', more, hread, hheads⟩
              · exact .inl (hfailed.after (hsilent₂ _))
              · have hcount := hheads.count_le
                rw [HttpClient.after_after] at hread
                refine .inr ⟨outcome, conn', _, hread, hheads.id,
                  (hsilent₂ _).append hheads.silent, by omega, fun _ heq => ?_⟩
                omega

/-- What happens between the start of a write and the end of a pass that saw no head. -/
def Unanswered (request : HttpRequest) (conn : ClientConnection) (more : List ClientEvent) : Prop :=
  ((writeRequest request conn.codecWriter).1 ≠ .ok () ∧ more = []) ∨
    (writeRequest request conn.codecWriter).1 = .ok () ∧ NoHead request.method conn ∧
      more = [.received conn.id (headBytes request.method conn)]

/-- What one pass does on a connection. -/
structure Attempted (request : HttpRequest) (client : HttpClient) (conn : ClientConnection)
    (outcome : Attempt) (conn' : ClientConnection) (more : List ClientEvent) : Prop where
  id : conn'.id = conn.id
  silent : Silent more
  stale : outcome.staleClose = true → outcome.informationalCount = 0 → Unanswered request conn more

/-- **A pass starts to write the request once**, and ends with an error only without a connection.
-/
theorem attemptRequest_cases (h : client.connection = some conn) (request : HttpRequest) :
    (∃ e more, attemptRequest request client =
      (.error e, client.after none (.writing conn.id :: more)) ∧ Silent more) ∨
      ∃ outcome conn' more, attemptRequest request client =
        (.ok outcome, client.after (some conn') (.writing conn.id :: more)) ∧
          Attempted request client conn outcome conn' more := by
  unfold attemptRequest
  rw [gets_bind_apply, bind_ok (withWriter_eq h _)]
  cases hwrite : (writeRequest request conn.codecWriter).1 with
  | error e =>
    dsimp only
    rw [gets_bind_apply]
    by_cases hreset : isResetError conn.writeErrorKind e = true
    · rw [if_pos (by exact hreset)]
      exact .inr ⟨_, _, [], rfl, rfl, silent_nil, fun _ _ => .inl ⟨by rw [hwrite]; nofun, rfl⟩⟩
    · rw [if_neg (by exact hreset), failWith_eq rfl, HttpClient.after_after]
      exact .inl ⟨e, _, rfl, silent_dropped conn.id⟩
  | ok _ =>
    dsimp only
    have hkept :
      (client.after (some { conn with codecWriter := (writeRequest request conn.codecWriter).2 })
      [.writing conn.id]).connection = some _ := rfl
    rcases readHeads_cases hkept request.method client.options.maxInformationalResponses 0 with
      ⟨e, more, hread, hsilent⟩ | ⟨outcome, conn', more, hread, hheads⟩
    · rw [hread, HttpClient.after_after]
      exact .inl ⟨e, more, rfl, hsilent⟩
    · rw [hread, HttpClient.after_after]
      refine .inr ⟨outcome, conn', more, rfl, hheads.id, hheads.silent, fun hstale hcount =>
        .inr ?_⟩
      obtain ⟨hnone, hmore⟩ := hheads.stale hstale hcount
      exact ⟨hwrite, hnone, hmore⟩

variable {request : HttpRequest}

/-- An outcome of the first pass that has no head at all. -/
theorem attemptRequest_reset {e : HttpError} (h : client.connection = some conn)
    (hwrite : (writeRequest request conn.codecWriter).1 = .ok ())
    (hhead : (readResponseHead request.method conn.codecReader).1 = .error e)
    (hreset : isResetError conn.readErrorKind e = true) :
    ∃ client', attemptRequest request client =
      (.ok { staleClose := true, staleResetError := some e }, client') := by
  unfold attemptRequest
  rw [gets_bind_apply, bind_ok (withWriter_eq h _)]
  simp only [hwrite]
  rw [readHeads, bind_ok (withReader_eq rfl _)]
  simp only [hhead]
  rw [gets_bind_apply, if_pos (by exact hreset)]
  exact ⟨_, rfl⟩

/-! ## Connections -/

/-- A call that writes no request, and leaves no connection when it fails. -/
structure Quiet {α : Type} (client : HttpClient) (end' : Except HttpError α × HttpClient) :
    Prop where
  events : ∃ more, end'.2.events = client.events ++ more ∧ Silent more
  closed : ∀ e, end'.1 = .error e → end'.2.connection = none

theorem Failed.quiet {end' : Except HttpError α × HttpClient} (h : Failed client end') :
    Quiet client end' := by
  obtain ⟨e, more, rfl, hsilent⟩ := h
  exact ⟨⟨more, rfl, hsilent⟩, fun _ _ => rfl⟩

theorem Quiet.after
    {end' : Except HttpError α × HttpClient} (h : Quiet (client.after conn' more) end')
    (hmore : Silent more) :
    Quiet client end' := by
  obtain ⟨⟨more', hevents, hsilent⟩, hclosed⟩ := h
  refine ⟨⟨more ++ more', ?_, hmore.append hsilent⟩, hclosed⟩
  rw [hevents]
  exact List.append_assoc _ _ _

/-- A new connection can be obtained: the pool has one, or the network gives one. -/
def Reconnects (client : HttpClient) : Prop :=
  (client.options.pool = true ∧ ∃ conn checkouts, client.checkouts = some conn :: checkouts) ∨
    ∃ transport connects, client.connects = .ok transport :: connects

/-- What `connect` comes to when there is no connection yet. -/
def Obtained (client : HttpClient) (end' : Except HttpError Unit × HttpClient) : Prop :=
  (∃ e, end'.1 = .error e ∧ end'.2.connection = none ∧ end'.2.events = client.events ∧
    ¬ Reconnects client) ∨
    ∃ conn, end'.1 = .ok () ∧ end'.2.connection = some conn ∧ end'.2.events = client.events ++
      [.obtained conn.id] ∧ Reconnects client

theorem obtainConnection_cases (h : client.connection = none) (url : RequestUrl) :
    Obtained client (obtainConnection url client) := by
  have hnetwork (client₁ : HttpClient) (limits : HttpLimits) (h₁ : client₁.connection = none)
      (hconnects : client₁.connects = client.connects) (hevents : client₁.events = client.events)
      (hpool : ¬ (client.options.pool = true ∧ ∃ conn checkouts, client.checkouts = some conn ::
        checkouts)) :
      Obtained client ((do
        let transport ← connectTransport
        keepConnection (transport.connection url limits) : Client Unit) client₁) := by
    cases hconnect : client.connects with
    | nil =>
      have hrun : connectTransport client₁ = (.error ⟨.io, "connect HTTP origin"⟩, client₁) := by
        unfold connectTransport
        rw [hconnects, hconnect]
      rw [bind_error hrun]
      refine .inl ⟨_, rfl, h₁, hevents, ?_⟩
      rintro (hpooled | ⟨transport, connects, hcons⟩)
      · exact hpool hpooled
      · rw [hconnect] at hcons
        cases hcons
    | cons connected connects =>
      have hrun : connectTransport client₁ =
        (connected, { client₁ with connects := connects }) := by
        unfold connectTransport
        rw [hconnects, hconnect]
      cases connected with
      | error e =>
        rw [bind_error hrun]
        refine .inl ⟨e, rfl, h₁, hevents, ?_⟩
        rintro (hpooled | ⟨transport, connects, hcons⟩)
        · exact hpool hpooled
        · rw [hconnect] at hcons
          cases hcons
      | ok transport =>
        rw [bind_ok hrun]
        refine .inr ⟨_, rfl, rfl, ?_, .inr ⟨transport, connects, hconnect⟩⟩
        rw [← hevents]
        rfl
  unfold obtainConnection
  rw [gets_bind_apply]
  cases hpool : client.options.pool with
  | false =>
    rw [if_neg (by decide), pure_bind_apply]
    exact hnetwork client _ h rfl rfl fun hpooled => by
      rw [hpool] at hpooled
      cases hpooled.1
  | true =>
    rw [if_pos rfl]
    cases hcheckout : client.checkouts with
    | nil =>
      have hrun : poolCheckout client = (.ok none, client) := by
        unfold poolCheckout
        rw [hcheckout]
      rw [bind_ok hrun]
      exact hnetwork client _ h rfl rfl fun ⟨_, _, _, hcons⟩ => by
        rw [hcheckout] at hcons
        cases hcons
    | cons pooled checkouts =>
      have hrun : poolCheckout client = (.ok pooled, { client with checkouts := checkouts }) := by
        unfold poolCheckout
        rw [hcheckout]
      rw [bind_ok hrun]
      cases pooled with
      | some c => exact .inr ⟨c, rfl, rfl, rfl, .inl ⟨hpool, c, checkouts, hcheckout⟩⟩
      | none =>
        exact hnetwork _ _ h rfl rfl fun ⟨_, _, _, hcons⟩ => by
          rw [hcheckout] at hcons
          cases hcons

/-- The build refuses the URL. -/
def RefusedUrl (url : RequestUrl) (client : HttpClient) : Prop :=
  url.scheme = .https ∧ client.options.tlsClientAvailable = false

variable {url : RequestUrl}

theorem connect_refused (h : RefusedUrl url client) :
    connect url client = (.error ⟨.unsupported, "https requires the optional TLS transport"⟩,
      client) := by
  unfold RefusedUrl at h
  unfold connect
  rw [getState_bind_apply, failIf_pos h]
  rfl

theorem connect_sameOrigin (h : ¬ RefusedUrl url client) (hsame : client.sameOrigin url = true) :
    connect url client = (.ok (), client) := by
  unfold RefusedUrl at h
  unfold connect
  rw [getState_bind_apply, failIf_neg h, pure_bind_apply, if_pos hsame]
  rfl

/-- **A connection of another origin is dropped** before a new one is obtained. -/
theorem connect_otherOrigin (h : ¬ RefusedUrl url client) (hsame : client.sameOrigin url = false) :
    ∃ dropped, Silent dropped ∧ (client.connection = none → dropped = []) ∧
      connect url client = obtainConnection url (client.after none dropped) := by
  unfold RefusedUrl at h
  unfold connect
  rw [getState_bind_apply, failIf_neg h, pure_bind_apply, if_neg (by rw [hsame]; decide)]
  cases hconn : client.connection with
  | none =>
    have hafter : client.after none [] = client := by
      unfold HttpClient.after
      rw [List.append_nil, ← hconn]
    exact ⟨[], silent_nil, fun _ => rfl, by rw [bind_ok (resetConnection_none hconn), hafter]⟩
  | some c =>
    exact ⟨[.dropped c.id], silent_dropped c.id, nofun, bind_ok (resetConnection_some hconn)⟩

/-! ## The end of a call -/

/-- What becomes of a connection after a response. -/
theorem release_quiet (h : client.connection = some conn) {reusable : Prop} [Decidable reusable]
    (pool : Bool) (response : HttpResponse) :
    Quiet client ((do
      (if ¬ reusable then resetConnection
        else if pool then modify fun client => { client with connection := none }
        else pure ())
      pure response : Client HttpResponse) client) := by
  by_cases hdropped : ¬ reusable
  · rw [if_pos hdropped, bind_ok (resetConnection_some h)]
    exact ⟨⟨_, rfl, silent_dropped conn.id⟩, nofun⟩
  · rw [if_neg hdropped]
    cases pool with
    | true => exact ⟨⟨[], (List.append_nil _).symm, silent_nil⟩, nofun⟩
    | false => exact ⟨⟨[], (List.append_nil _).symm, silent_nil⟩, nofun⟩

/-- **The rest of a response is read without another write**, and an error leaves no connection. -/
theorem readRest_quiet (h : client.connection = some conn) (request : HttpRequest)
    (head : HttpResponseHead) :
    Quiet client (readRest request head client) := by
  unfold readRest
  rw [getState_bind_apply, bind_ok (withReader_eq h _)]
  have hsilent (n : Nat) := silent_received conn.id n
  cases hbody : (drainBody conn.codecReader).1 with
  | error e => exact ((failed_failWith rfl e).after (hsilent _)).quiet
  | ok body =>
    rw [show orFail (.ok body) = (pure body : Client Bytes) from rfl, pure_bind_apply,
      bind_ok (withReader_eq rfl _)]
    cases htrailers : (finishBody (drainBody conn.codecReader).2).1 with
    | error e => exact (((failed_failWith rfl e).after (hsilent _)).after (hsilent _)).quiet
    | ok trailers =>
      rw [show orFail (.ok trailers) = (pure trailers : Client HttpHeaders) from rfl,
        pure_bind_apply]
      exact ((release_quiet rfl _ _).after (hsilent _)).after (hsilent _)

/-- What `request` does after its retry loop. -/
def finish (request : HttpRequest) (outcome : Attempt) : Client HttpResponse :=
  if outcome.staleClose then
    match outcome.staleResetError with
    | some original =>
      failWith ⟨.invalidMessage, "HTTP connection closed before response head: " ++
        original.message⟩
    | none => failWith ⟨.invalidMessage, "HTTP connection closed before response head"⟩
  else readRest request outcome.head

theorem finish_quiet (h : client.connection = some conn) (request : HttpRequest)
    (outcome : Attempt) :
    Quiet client (finish request outcome client) := by
  unfold finish
  split_ifs
  · cases outcome.staleResetError with
    | none => exact (failed_failWith h _).quiet
    | some original => exact (failed_failWith h _).quiet
  · exact readRest_quiet h request outcome.head

/-- One write on the connection `id`, and an error leaves no connection. -/
structure SentOnce (id : Nat) (client : HttpClient)
    (end' : Except HttpError HttpResponse × HttpClient) : Prop where
  events : ∃ more, end'.2.events = client.events ++ .writing id :: more ∧ Silent more
  closed : ∀ e, end'.1 = .error e → end'.2.connection = none

variable {id : Nat}

theorem Quiet.sentOnce
    {end' : Except HttpError HttpResponse × HttpClient}
    (h : Quiet (client.after conn' (.writing id :: more)) end')
    (hmore : Silent more) : SentOnce id client end' := by
  obtain ⟨⟨more', hevents, hsilent⟩, hclosed⟩ := h
  refine ⟨⟨more ++ more', ?_, hmore.append hsilent⟩, hclosed⟩
  rw [hevents]
  exact List.append_assoc _ _ _

/-- **A pass that is not repeated writes once.** -/
theorem attempt_sentOnce (h : client.connection = some conn) (request : HttpRequest) :
    SentOnce conn.id client ((attemptRequest request >>= finish request) client) := by
  rcases attemptRequest_cases h request with ⟨e, more, hrun, hsilent⟩ | ⟨outcome, conn', more, hrun,
    hattempt⟩
  · rw [bind_error hrun]
    exact ⟨⟨more, rfl, hsilent⟩, fun _ _ => rfl⟩
  · rw [bind_ok hrun]
    exact (finish_quiet rfl request outcome).sentOnce hattempt.silent

/-! ## The retry loop -/

/-- The response broke off after its first byte, and the loop goes on all the same. -/
structure LateReset (request : HttpRequest) (client : HttpClient) (conn : ClientConnection) :
    Prop where
  idempotent : isIdempotentMethod request.method = true
  written : (writeRequest request conn.codecWriter).1 = .ok ()
  reset : ∃ e, (readResponseHead request.method conn.codecReader).1 = .error e ∧
    isResetError conn.readErrorKind e = true
  partly : 0 < headBytes request.method conn
  reconnects : Reconnects client

/-- A write on the connection, which is dropped, and a second write on the one obtained next. -/
structure SentTwice (request : HttpRequest) (conn : ClientConnection) (client : HttpClient)
    (end' : Except HttpError HttpResponse × HttpClient) : Prop where
  idempotent : isIdempotentMethod request.method = true
  events : ∃ between next more, end'.2.events = client.events ++ .writing conn.id ::
    (between ++ [.dropped conn.id, .obtained next] ++ .writing next :: more) ∧
      Unanswered request conn between ∧ Silent between ∧ Silent more
  closed : ∀ e, end'.1 = .error e → end'.2.connection = none
  reconnects : Reconnects client

/-- The second pass is the last one. -/
theorem retryLoop_last (url : RequestUrl) (reused : Bool) (request : HttpRequest) :
    retryLoop url reused request (0 + 1) = attemptRequest request := by
  rw [retryLoop]
  funext client
  have hend (outcome : Attempt) (client : HttpClient) : (if _h : 0 + 1 = 0 ∧
      outcome.retryable reused (0 + 1) request.method = true then do
        resetConnection
        connect url
        retryLoop url reused request (0 + 1 + 1)
      else pure outcome : Client Attempt) client = (.ok outcome, client) := by
    rw [dif_neg (by omega)]
    rfl
  cases hrun : attemptRequest request client with
  | mk result client' =>
    cases result with
    | error e => exact bind_error hrun
    | ok outcome => rw [bind_ok hrun, hend]

/-- A new connection after the kept one was dropped. -/
theorem reconnect_cases (hallowed : ¬ RefusedUrl url client) (more : List ClientEvent) :
    (∃ e client', connect url (client.after none more) = (.error e, client') ∧ client'.connection =
      none ∧ client'.events = client.events ++ more ∧ ¬ Reconnects client) ∨
      ∃ next client', connect url (client.after none more) = (.ok (), client') ∧
        client'.connection = some next ∧
        client'.events = client.events ++ more ++ [.obtained next.id] ∧ Reconnects client := by
  obtain ⟨dropped, -, hnothing, hconnect⟩ :=
    connect_otherOrigin (show ¬ RefusedUrl url (client.after none more) from hallowed) rfl
  rw [hnothing rfl, HttpClient.after_after, List.append_nil] at hconnect
  rw [hconnect]
  rcases obtainConnection_cases (show (client.after none more).connection = none from rfl) url with
    ⟨e, hresult, hnone, hevents, hrefused⟩ | ⟨next, hresult, hsome, hevents, hreconnects⟩
  · exact .inl ⟨e, _, Prod.ext hresult rfl, hnone, hevents, hrefused⟩
  · exact .inr ⟨next, _, Prod.ext hresult rfl, hsome, hevents, hreconnects⟩

/-- **The loop writes once, or twice when the connection was kept.** -/
theorem retryLoop_cases {reused : Bool} (hallowed : reused = true → ¬ RefusedUrl url client)
    (h : client.connection = some conn) (request : HttpRequest) :
    (SentOnce conn.id client ((retryLoop url reused request 0 >>= finish request) client) ∧
        ¬ (reused = true ∧ LateReset request client conn)) ∨
      reused = true ∧
        SentTwice request conn client
          ((retryLoop url reused request 0 >>= finish request) client) := by
  rw [retryLoop]
  rcases attemptRequest_cases h request with ⟨e, more, hrun, hsilent⟩ | ⟨outcome, conn', more, hrun,
    hattempt⟩
  · left
    rw [bind_error (bind_error hrun)]
    refine ⟨⟨⟨more, rfl, hsilent⟩, fun _ _ => rfl⟩, fun ⟨_, hlate⟩ => ?_⟩
    obtain ⟨e', hhead, hreset⟩ := hlate.reset
    obtain ⟨client', hrun'⟩ := attemptRequest_reset h hlate.written hhead hreset
    rw [hrun] at hrun'
    cases (Prod.mk.inj hrun').1
  · by_cases hretry : outcome.retryable reused 0 request.method = true
    · have hconditions : outcome.staleClose = true ∧ outcome.informationalCount = 0 ∧
        reused = true ∧ isIdempotentMethod request.method = true := by
        simpa [Attempt.retryable, and_assoc] using hretry
      obtain ⟨hstale, hcount, hreused, hidempotent⟩ := hconditions
      have hunanswered := hattempt.stale hstale hcount
      have hdropped : resetConnection (client.after (some conn') (.writing conn.id :: more)) =
          (.ok (), client.after none (.writing conn.id :: more ++ [.dropped conn.id])) := by
        rw [resetConnection_some rfl, HttpClient.after_after, hattempt.id]
      rcases
        reconnect_cases (hallowed hreused) (.writing conn.id :: more ++ [.dropped conn.id]) with
        ⟨e, client₂, hconnect, hnone, hevents, hrefused⟩ | ⟨conn₂, client₂, hconnect, hsome,
          hevents, hreconnects⟩
      · left
        have hloop : (attemptRequest request >>= fun outcome =>
            if _h : 0 = 0 ∧ outcome.retryable reused 0 request.method = true then do
              resetConnection
              connect url
              retryLoop url reused request (0 + 1)
            else pure outcome) client = (.error e, client₂) := by
          rw [bind_ok hrun, dif_pos ⟨rfl, hretry⟩, bind_ok hdropped, bind_error hconnect]
        rw [bind_error hloop]
        have hsilent := hattempt.silent.append (silent_dropped conn.id)
        exact ⟨⟨⟨_, hevents, hsilent⟩, fun _ _ => hnone⟩, fun ⟨_, hlate⟩ =>
          hrefused hlate.reconnects⟩
      · right
        have hloop : (attemptRequest request >>= fun outcome =>
            if _h : 0 = 0 ∧ outcome.retryable reused 0 request.method = true then do
              resetConnection
              connect url
              retryLoop url reused request (0 + 1)
            else pure outcome) client = attemptRequest request client₂ := by
          rw [bind_ok hrun, dif_pos ⟨rfl, hretry⟩, bind_ok hdropped, bind_ok hconnect,
            retryLoop_last]
        rw [bind_apply_congr hloop]
        obtain ⟨⟨more₂, hevents₂, hsilent₂⟩, hclosed⟩ := attempt_sentOnce hsome request
        refine ⟨hreused, hidempotent, ⟨more, conn₂.id, more₂, ?_, hunanswered, hattempt.silent,
          hsilent₂⟩, hclosed, hreconnects⟩
        rw [hevents₂, hevents]
        simp only [List.append_assoc, List.cons_append, List.nil_append]
    · left
      have hloop : (attemptRequest request >>= fun outcome =>
          if _h : 0 = 0 ∧ outcome.retryable reused 0 request.method = true then do
            resetConnection
            connect url
            retryLoop url reused request (0 + 1)
          else pure outcome) client =
            (.ok outcome, client.after (some conn') (.writing conn.id :: more)) := by
        rw [bind_ok hrun, dif_neg (fun hcond => hretry hcond.2)]
        rfl
      rw [bind_ok hloop]
      refine ⟨(finish_quiet rfl request outcome).sentOnce hattempt.silent, fun ⟨hreused, hlate⟩ =>
        hretry ?_⟩
      obtain ⟨e, hhead, hreset⟩ := hlate.reset
      obtain ⟨client', hrun'⟩ := attemptRequest_reset h hlate.written hhead hreset
      rw [hrun] at hrun'
      obtain rfl := Except.ok.inj (Prod.mk.inj hrun').1
      unfold Attempt.retryable
      rw [hreused, hlate.idempotent]
      rfl

/-! ## One call -/

/-- The connections that requests were written on. -/
def written (events : List ClientEvent) : List Nat :=
  events.filterMap fun event => match event with
    | .writing id => some id
    | _ => none

@[simp] theorem written_append (as bs : List ClientEvent) :
    written (as ++ bs) = written as ++ written bs :=
  List.filterMap_append

@[simp] theorem written_writing (id : Nat) (events : List ClientEvent) :
    written (.writing id :: events) = id :: written events := rfl

theorem Silent.written_eq {events : List ClientEvent} (h : Silent events) : written events =
    [] := by
  refine List.filterMap_eq_nil_iff.mpr fun event hmem => ?_
  cases event with
  | writing id => exact absurd rfl (h _ hmem id)
  | obtained id => rfl
  | dropped id => rfl
  | received id count => rfl

theorem Silent.no_write {events before after : List ClientEvent} (h : Silent events) :
    events ≠ before ++ .writing id :: after := by
  rintro rfl
  exact h _ (by simp) id rfl

/-- The first write is the first one, or comes before it. -/
theorem Silent.split {silent rest before after : List ClientEvent} {a b : Nat} (h : Silent silent)
    (heq : silent ++ .writing a :: rest = before ++ .writing b :: after) :
    (before = silent ∧ b = a ∧ after = rest) ∨ ∃ more, rest = more ++ .writing b :: after := by
  rcases List.append_eq_append_iff.mp heq with ⟨as, rfl, has⟩ | ⟨as, hsilent, has⟩
  · cases as with
    | nil =>
      obtain ⟨hab, rfl⟩ := List.cons.inj has
      exact .inl ⟨List.append_nil _, (ClientEvent.writing.inj hab).symm, rfl⟩
    | cons event more => exact .inr ⟨more, (List.cons.inj has).2⟩
  · cases as with
    | nil =>
      obtain ⟨hab, rfl⟩ := List.cons.inj has
      exact .inl ⟨by rw [hsilent, List.append_nil], ClientEvent.writing.inj hab, rfl⟩
    | cons event more =>
      obtain ⟨rfl, -⟩ := List.cons.inj has
      exact absurd hsilent h.no_write

/-- A call sent its request safely. -/
structure SentSafely (method : Bytes) (end' : Except HttpError HttpResponse × HttpClient) :
    Prop where
  writes : (written end'.2.events).length ≤ if isIdempotentMethod method = true then 2 else 1
  second : ∀ before a between b after, end'.2.events = before ++ .writing a ::
    (between ++ .writing b :: after) →
    ∃ answer, between = answer ++ [.dropped a, .obtained b] ∧ ∀ id count, .received id count ∈
      answer → count = 0
  closed : ∀ e, end'.1 = .error e → end'.2.connection = none

/-- `request`, and what is done in it. -/
def call (url : RequestUrl) (request : HttpRequest) (client : HttpClient) :
    Except HttpError HttpResponse × HttpClient :=
  sendRequest url request { client with events := [] }

/-- A kept connection stays although the build refuses the URL. -/
def KeepsRefused (url : RequestUrl) (client : HttpClient) : Prop :=
  RefusedUrl url client ∧ client.connection ≠ none

/-- A kept connection is reset in the middle of the response to an idempotent request, and another
one can be had. -/
def ResetMidHead (url : RequestUrl) (request : HttpRequest) (client : HttpClient) : Prop :=
  client.sameOrigin url = true ∧ ∃ conn prepared, client.connection = some conn ∧
    prepare url request = .ok prepared ∧ LateReset prepared client conn

variable {method : Bytes} {end' : Except HttpError HttpResponse × HttpClient}

theorem Quiet.sentSafely (h : Quiet client end') (hevents : Silent client.events) :
    SentSafely method end' := by
  obtain ⟨⟨more, hmore, hsilent⟩, hclosed⟩ := h
  have hall := hevents.append hsilent
  rw [← hmore] at hall
  refine ⟨?_, fun before a between b after heq => absurd heq hall.no_write, hclosed⟩
  rw [hall.written_eq]
  exact Nat.zero_le _

theorem SentOnce.sentSafely (h : SentOnce id client end') (hevents : Silent client.events) :
    SentSafely method end' := by
  obtain ⟨⟨more, hmore, hsilent⟩, hclosed⟩ := h
  refine ⟨?_, fun before a between b after heq => ?_, hclosed⟩
  · rw [hmore, written_append, written_writing, hevents.written_eq, hsilent.written_eq]
    split_ifs <;> simp
  · rw [hmore] at heq
    rcases hevents.split heq with ⟨-, -, hafter⟩ | ⟨more', hmore'⟩
    · exact absurd hafter.symm hsilent.no_write
    · exact absurd hmore' hsilent.no_write

/-- A write that nothing was received for ended with an error, or with a head that was not there. -/
theorem Unanswered.count {between : List ClientEvent} (h : Unanswered request conn between)
    (hlate : ¬ LateReset request client conn)
    (hidempotent : isIdempotentMethod request.method = true)
    (hreconnects : Reconnects client) : ∀ id count, .received id count ∈ between → count = 0 := by
  intro id count hmem
  rcases h with ⟨-, rfl⟩ | ⟨hwritten, hnone, rfl⟩
  · nomatch hmem
  · obtain ⟨-, rfl⟩ := ClientEvent.received.inj (List.mem_singleton.mp hmem)
    rcases hnone with hnone | hreset
    · exact readResponseHead_none (Prod.ext hnone rfl)
    · exact Nat.eq_zero_of_not_pos fun hpos => hlate ⟨hidempotent, hwritten, hreset, hpos,
        hreconnects⟩

theorem SentTwice.sentSafely_iff (h : SentTwice request conn client end')
    (hevents : Silent client.events) :
    SentSafely request.method end' ↔ ¬ LateReset request client conn := by
  obtain ⟨hidempotent, ⟨between, next, more, hmore, hunanswered, hsilent, hsilent'⟩, hclosed,
    hreconnects⟩ := h
  constructor
  · intro hsafe hlate
    obtain ⟨answer, hanswer, hcount⟩ :=
      hsafe.second client.events conn.id (between ++ [.dropped conn.id, .obtained next]) next more
        hmore
    obtain rfl := List.append_cancel_right hanswer
    rcases hunanswered with ⟨hfailed, -⟩ | ⟨-, -, rfl⟩
    · exact hfailed hlate.written
    · exact absurd (hcount _ _ (List.mem_singleton.mpr rfl)) (Nat.ne_of_gt hlate.partly)
  · intro hlate
    have hbetween : Silent (between ++ [.dropped conn.id, .obtained next]) :=
      hsilent.append ((silent_dropped conn.id).append (silent_obtained next))
    refine ⟨?_, fun before a between' b after heq => ?_, hclosed⟩
    · rw [hmore, written_append, written_writing, written_append, written_writing,
        hevents.written_eq, hbetween.written_eq, hsilent'.written_eq, if_pos hidempotent]
      exact le_rfl
    · rw [hmore] at heq
      rcases hevents.split heq with ⟨-, rfl, hafter⟩ | ⟨more', hmore'⟩
      · refine ⟨between, ?_, hunanswered.count hlate hidempotent hreconnects⟩
        rcases hbetween.split hafter.symm with ⟨rfl, rfl, -⟩ | ⟨more', hmore'⟩
        · rfl
        · exact absurd hmore' hsilent'.no_write
      · rcases hbetween.split hmore' with ⟨-, -, hafter⟩ | ⟨more'', hmore''⟩
        · exact absurd hafter.symm hsilent'.no_write
        · exact absurd hmore'' hsilent'.no_write

theorem prepare_method {prepared : HttpRequest} (h : prepare url request = .ok prepared) :
    prepared.method = request.method := by
  unfold prepare at h
  cases hset : HttpHeaders.set request.headers (ascii "Host") url.authority with
  | error e => rw [hset] at h; cases h
  | ok headers =>
    rw [hset] at h
    cases h
    rfl

theorem sendRequest_eq (url : RequestUrl) (request : HttpRequest) : sendRequest url request = (do
    let reused ← gets fun client => client.sameOrigin url
    connect url
    let request ← orFail (prepare url request)
    retryLoop url reused request 0 >>= finish request) := rfl

/-- What a call does on the connection it begins with. -/
theorem connected_cases {reused : Bool} (hallowed : reused = true → ¬ RefusedUrl url client)
    (h : client.connection = some conn) (hevents : Silent client.events) (request : HttpRequest) :
    SentSafely request.method ((do
      let request ← orFail (prepare url request)
      retryLoop url reused request 0 >>= finish request : Client HttpResponse) client) ↔
    ¬ (reused = true ∧ ∃ prepared, prepare url request = .ok prepared ∧
      LateReset prepared client conn) := by
  cases hprepare : prepare url request with
  | error e =>
    have hfailed : Failed client ((orFail (.error e) >>= fun request =>
        retryLoop url reused request 0 >>= finish request : Client HttpResponse) client) :=
      ⟨e, _, bind_error (failWith_eq h e), silent_dropped conn.id⟩
    exact iff_of_true (hfailed.quiet.sentSafely hevents) fun ⟨_, _, hprepared, _⟩ =>
      nomatch hprepared
  | ok prepared =>
    rw [show orFail (.ok prepared) = (pure prepared : Client HttpRequest) from rfl, pure_bind_apply,
      ← prepare_method hprepare]
    rcases retryLoop_cases hallowed h prepared with ⟨honce, hlate⟩ | ⟨hreused, htwice⟩
    · refine iff_of_true (honce.sentSafely hevents) ?_
      rintro ⟨hreused, _, ⟨⟩, hlate'⟩
      exact hlate ⟨hreused, hlate'⟩
    · rw [htwice.sentSafely_iff hevents]
      refine not_congr ⟨fun hlate => ⟨hreused, prepared, rfl, hlate⟩, ?_⟩
      rintro ⟨-, _, ⟨⟩, hlate⟩
      exact hlate

/-- **A call sends its request safely exactly when no kept connection is refused, or reset in the
middle of a head.** -/
theorem call_sentSafely_iff (url : RequestUrl) (request : HttpRequest) (client : HttpClient) :
    SentSafely request.method (call url request client) ↔
      ¬ KeepsRefused url client ∧ ¬ ResetMidHead url request client := by
  unfold call
  rw [sendRequest_eq, gets_bind_apply]
  generalize hbegin : ({ client with events := [] } : HttpClient) = begun
  have hconnection : begun.connection = client.connection := by rw [← hbegin]
  have hsilent : Silent begun.events := by
    rw [← hbegin]
    exact silent_nil
  have hsameOrigin : begun.sameOrigin url = client.sameOrigin url := by rw [← hbegin]; rfl
  have hrefused : RefusedUrl url begun ↔ RefusedUrl url client := by rw [← hbegin]; rfl
  have hlate (prepared : HttpRequest) (conn : ClientConnection) :
      LateReset prepared begun conn ↔ LateReset prepared client conn := by
    rw [← hbegin]
    exact ⟨fun h => ⟨h.1, h.2, h.3, h.4, h.5⟩, fun h => ⟨h.1, h.2, h.3, h.4, h.5⟩⟩
  by_cases hallowed : RefusedUrl url begun
  · rw [bind_error (connect_refused hallowed)]
    have hkept : KeepsRefused url client ↔ client.connection ≠ none :=
      ⟨And.right, fun h => ⟨hrefused.mp hallowed, h⟩⟩
    constructor
    · intro hsafe
      have hnone := hsafe.closed _ rfl
      rw [hconnection] at hnone
      refine ⟨fun h => hkept.mp h hnone, fun ⟨_, conn, _, hsome, _⟩ => ?_⟩
      rw [hnone] at hsome
      cases hsome
    · rintro ⟨hkeeps, -⟩
      have hnone : begun.connection = none := by
        rw [hconnection]
        exact not_not.mp fun h => hkeeps (hkept.mpr h)
      exact Quiet.sentSafely ⟨⟨[], (List.append_nil _).symm, silent_nil⟩, fun _ _ => hnone⟩ hsilent
  · have hkeeps : ¬ KeepsRefused url client := fun h => hallowed (hrefused.mpr h.1)
    rw [and_iff_right hkeeps]
    cases hsame : begun.sameOrigin url with
    | true =>
      rw [bind_ok (connect_sameOrigin hallowed hsame)]
      cases hconn : begun.connection with
      | none =>
        unfold HttpClient.sameOrigin at hsame
        rw [hconn] at hsame
        cases hsame
      | some conn =>
        rw [connected_cases (fun _ => hallowed) hconn hsilent request]
        refine not_congr ⟨fun ⟨_, prepared, hprepare, h⟩ => ?_,
          fun ⟨_, conn', prepared, hsome, hprepare, h⟩ => ?_⟩
        · exact ⟨hsameOrigin ▸ hsame, conn, prepared, hconnection ▸ hconn, hprepare,
            (hlate _ _).mp h⟩
        · rw [← hconnection, hconn] at hsome
          cases hsome
          exact ⟨rfl, prepared, hprepare, (hlate _ _).mpr h⟩
    | false =>
      have hnotReset : ¬ ResetMidHead url request client := fun h => by
        have hsame' := h.1
        rw [← hsameOrigin, hsame] at hsame'
        cases hsame'
      rw [iff_true_right hnotReset]
      obtain ⟨dropped, hdropped, -, hconnect⟩ := connect_otherOrigin hallowed hsame
      have hsilent' : Silent (begun.after none dropped).events := hsilent.append hdropped
      rcases
        obtainConnection_cases (show (begun.after none dropped).connection = none from rfl) url with
        ⟨e, hresult, hnone, hevents, -⟩ | ⟨conn, hresult, hsome, hevents, -⟩
      · rw [bind_error (hconnect.trans (Prod.ext hresult rfl))]
        refine Quiet.sentSafely ⟨⟨[], ?_, silent_nil⟩, fun _ _ => hnone⟩ hsilent'
        rw [hevents, List.append_nil]
      · rw [bind_ok (hconnect.trans (Prod.ext hresult rfl))]
        refine (connected_cases (fun h : false = true => nomatch h) hsome ?_ request).mpr fun h =>
          Bool.false_ne_true h.1
        rw [hevents]
        exact hsilent'.append (silent_obtained conn.id)

/-- A kept connection whose server sends the first bytes of a response, and then resets it; the
network gives another one. -/
def resetClient : HttpClient where
  options := { limits := {} }
  connection := some {
    id := 1
    scheme := .http
    host := ascii "a"
    port := 80
    codecReader := .fresh {} [.data (ascii "HTTP/1.1 2"), .failed "reset"]
    codecWriter := {}
    readErrorKind := .connectionReset
    writeErrorKind := .other }
  connects := [.ok { id := 2, reads := [] }]

/-- A URL of that server. -/
def resetUrl : RequestUrl where
  scheme := .http
  host := ascii "a"
  port := 80
  authority := ascii "a"
  target := ascii "/"

/-- **A request is sent again after a part of its response had been received.** -/
theorem not_sentSafely : ¬ SentSafely (ascii "GET") (call resetUrl {} resetClient) := by
  intro hsafe
  unfold call at hsafe
  have hallowed : ¬ RefusedUrl resetUrl { resetClient with events := [] } := by
    unfold RefusedUrl
    decide
  rw [sendRequest_eq, gets_bind_apply, bind_ok (connect_sameOrigin hallowed (by decide))] at hsafe
  refine (connected_cases (fun _ => hallowed) rfl silent_nil {}).mp hsafe ?_
  refine ⟨rfl, _, rfl, ?_⟩
  exact ⟨by decide, by decide, ⟨⟨.io, "read HTTP stream: reset"⟩, by decide, by decide⟩, by decide,
    .inr ⟨_, _, rfl⟩⟩

end Libca.Http
