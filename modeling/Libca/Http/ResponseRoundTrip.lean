import Libca.Http.RequestRoundTrip

/-!
# Responses are read back as they were written, but for HEAD without framing

Model of `http/http1_codec.cpp`.

The writer adds `Content-Length` to every response to HEAD without framing fields, also where the
status forbids framing (1xx and 204). The reader refuses such a response.

* `reads_readResponse`: any other accepted response is read back as `readBack`.
* `rejects_readResponse`: the reader refuses one of these.
* `responses_roundTrip_iff`: a list of accepted responses is read back if and only if it holds none.
-/

namespace Libca.Http

open Common Fallible

/-- A response to HEAD whose status forbids framing fields. -/
def headWithoutFraming (requestMethod : Bytes) (status : UInt16) : Bool :=
  requestMethod == ascii "HEAD" && statusForbidsFraming status

/-- The headers that are sent with a response. -/
def HttpResponse.sentHeaders (response : HttpResponse) (requestMethod : Bytes) : HttpHeaders :=
  Http.sentHeaders response.headers response.body
    (sendsBody requestMethod response.status || requestMethod == ascii "HEAD")

/-- A response as it is read back: its reason phrase filled in, headers and trailers trimmed, the
added `Content-Length`, and no body where none is sent. -/
def HttpResponse.readBack (response : HttpResponse) (requestMethod : Bytes) : HttpResponse :=
  { response with
    reason := response.sentReason
    headers := (response.sentHeaders requestMethod).trimmed
    body := if sendsBody requestMethod response.status then response.body else []
    trailers := response.trailers.trimmed }

/-- The limits allow a response. -/
def HttpLimits.AllowsResponse (limits : HttpLimits) (requestMethod : Bytes)
    (response : HttpResponse) : Prop :=
  Covers limits response.startLine (response.sentHeaders requestMethod) response.body
    response.trailers

/-! ## Status lines -/

/-- A status code is written with three digits. -/
theorem toChars_status {n : Nat} (hlow : 100 ≤ n) (hhigh : n ≤ 999) :
    toChars 10 n = [digitChar (n / 100), digitChar (n / 10 % 10), digitChar (n % 10)] := by
  have hdigits : Nat.digits 10 n = [n % 10, n / 10 % 10, n / 100] := by
    rw [Nat.digits_def' (by decide) (by omega), Nat.digits_def' (by decide) (by omega),
      Nat.div_div_eq_div_mul, Nat.digits_of_lt 10 (n / (10 * 10)) (by omega) (by omega)]
  unfold toChars
  rw [if_neg (by omega), hdigits]
  rfl

theorem isDigit_digitChar {d : Nat} (hd : d < 10) :
    isDigit (digitChar d) = true ∧ (digitChar d).toNat - 48 = d := by
  interval_cases d <;> decide

theorem HttpResponseHead.sentReason_valid {response : HttpResponseHead}
    (h : validValue response.reason = true) : validValue response.sentReason = true := by
  unfold HttpResponseHead.sentReason
  split_ifs
  · exact validValue_defaultReasonPhrase _
  · exact h

/-- **The status line is read back**, with the reason phrase that was sent. -/
theorem parseStatusLine_startLine {response : HttpResponseHead} (hlow : 100 ≤ response.status)
    (hhigh : response.status ≤ 999) (hreason : validValue response.reason = true) :
    parseStatusLine response.startLine =
      .ok (response.version, response.status, response.sentReason) := by
  obtain ⟨n, hn⟩ : ∃ n, response.status.toNat = n := ⟨_, rfl⟩
  have hlow' : 100 ≤ n := by rw [← hn]; exact hlow
  have hhigh' : n ≤ 999 := by rw [← hn]; exact hhigh
  obtain ⟨tail, htail⟩ : ∃ tail : Bytes, tail = (if response.sentReason.isEmpty then []
      else ascii " " ++ response.sentReason) := ⟨_, rfl⟩
  have hline : response.startLine = httpVersionName response.version ++
      32 :: digitChar (n / 100) :: digitChar (n / 10 % 10) :: digitChar (n % 10) :: tail := by
    unfold HttpResponseHead.startLine
    rw [hn, toChars_status hlow' hhigh', ← htail]
    simp only [List.append_assoc]
    rfl
  have hversion : ∀ b ∈ httpVersionName response.version, (b != 32) = true := by
    cases response.version <;> decide
  obtain ⟨ha, ha'⟩ := isDigit_digitChar (show n / 100 < 10 by omega)
  obtain ⟨hb, hb'⟩ := isDigit_digitChar (show n / 10 % 10 < 10 by omega)
  obtain ⟨hc, hc'⟩ := isDigit_digitChar (show n % 10 < 10 by omega)
  have hstatus : ((n / 100) * 100 + (n / 10 % 10) * 10 + n % 10).toUInt16 = response.status := by
    have hvalue : (n / 100) * 100 + (n / 10 % 10) * 10 + n % 10 = n := by omega
    rw [hvalue, ← hn]
    exact UInt16.ofNat_toNat
  have htail' : tail.tail = response.sentReason ∧ ¬ (tail ≠ [] ∧ tail.head? ≠ some 32) := by
    rw [htail]
    split_ifs with hempty
    · exact ⟨(List.isEmpty_iff.mp hempty).symm, by simp⟩
    · exact ⟨rfl, fun h => h.2 rfl⟩
  unfold parseStatusLine
  rw [hline, List.dropWhile_append_of_pos hversion, List.takeWhile_append_of_pos hversion,
    List.dropWhile_cons_of_neg (by decide), List.takeWhile_cons_of_neg (by decide),
    List.append_nil]
  dsimp only
  rw [parseHttpVersion_name]
  dsimp only
  rw [ha', hb', hc', hstatus, htail'.1, if_neg (by simp [ha, hb, hc]), if_neg htail'.2,
    if_neg (UInt16.not_lt.mpr hlow),
    if_neg (by simp [HttpResponseHead.sentReason_valid hreason])]

theorem isLine_statusLine {response : HttpResponseHead}
    (hreason : validValue response.reason = true) :
    IsLine response.startLine := by
  have hversion : IsLine (httpVersionName response.version) := by
    cases response.version <;> decide
  have hstatus : IsLine (toChars 10 response.status.toNat) :=
    isLine_of_validValue (validValue_toChars (by decide) (by decide) _)
  unfold HttpResponseHead.startLine
  refine isLine_append (isLine_append (isLine_append hversion (by decide)) hstatus) ?_
  split_ifs
  · exact List.forall_mem_nil _
  · exact isLine_append (by decide)
      (isLine_of_validValue (HttpResponseHead.sentReason_valid hreason))

/-! ## Heads -/

variable {response : HttpResponse} {requestMethod : Bytes} {headers : HttpHeaders}
  {framing : HttpBodyInfo}

/-- The headers and framing of an accepted response. -/
theorem AcceptedResponse.sent (h : AcceptedResponse requestMethod response headers framing)
    (hbody : response.body.length ≤ usizeMax) :
    headers = response.sentHeaders requestMethod ∧
      (sendsBody requestMethod response.status = true →
        Framed response.headers response.body response.trailers true headers framing) ∧
      (sendsBody requestMethod response.status = false → framing = .none) := by
  have hframed := h.framed
  unfold frameResponse at hframed
  unfold HttpResponse.sentHeaders
  by_cases hsends : sendsBody requestMethod response.status = true
  · rw [if_pos hsends] at hframed
    have hresult := frameBody_ok hframed hbody
    rw [hsends, Bool.true_or]
    exact ⟨hresult.headers_eq, fun _ => hresult, fun hfalse => nomatch hfalse⟩
  · rw [if_neg hsends] at hframed
    rw [Bool.eq_false_iff.mpr hsends, Bool.false_or]
    unfold Http.sentHeaders
    by_cases hhead : requestMethod = ascii "HEAD" ∧ response.headers.unframed = true
    · rw [if_pos hhead, setContentLength_of_absent (unframed_iff.mp hhead.2).1] at hframed
      obtain ⟨rfl, rfl⟩ : response.headers ++ [contentLengthField response.body.length] = headers ∧
          .none = framing := by simpa [Except.map] using hframed
      rw [if_pos ⟨by simpa using hhead.1, hhead.2⟩]
      exact ⟨rfl, nofun, fun _ => rfl⟩
    · rw [if_neg hhead] at hframed
      obtain ⟨rfl, rfl⟩ : response.headers = headers ∧ .none = framing := by simpa using hframed
      rw [if_neg (by simpa using hhead)]
      exact ⟨rfl, nofun, fun _ => rfl⟩

theorem contains_sentHeaders_length (body : Bytes) (h : headers.unframed = true) :
    (Http.sentHeaders headers body true).contains (ascii "Content-Length") = true := by
  unfold Http.sentHeaders
  rw [if_pos ⟨rfl, h⟩]
  unfold HttpHeaders.contains
  rw [List.any_append]
  have hlast : ([contentLengthField body.length].any fun field =>
      asciiEquals field.name (ascii "Content-Length")) = true := by
    simp [contentLengthField, asciiEquals]
  rw [hlast, Bool.or_true]

variable {r : Http1Reader}

/-- The reader comes to the checks of the head with what was sent. -/
theorem becomes_readResponseHead (hr : r.state = .ready) (hlimits : r.limits.validate = .ok ())
    (h : AcceptedResponse requestMethod response headers framing)
    (hcovers : r.limits.AllowsResponse requestMethod response) (rest : Bytes) :
    Becomes (readResponseHead requestMethod) r
      (encodeMessage response.startLine (response.sentHeaders requestMethod) rest)
      (acceptResponseHead requestMethod ⟨response.version, response.status, response.sentReason,
          (response.sentHeaders requestMethod).trimmed⟩
        ((encodeHeaders (response.sentHeaders requestMethod)).length + 2)
        (response.sentHeaders requestMethod).length)
      { r with state := .readingHead } rest := by
  have hstream : encodeMessage response.startLine (response.sentHeaders requestMethod) rest =
      response.startLine ++ crlf ++
        (encodeHeaders (response.sentHeaders requestMethod) ++ crlf ++ rest) := by
    unfold encodeMessage
    simp
  rw [hstream]
  refine becomes_bind (reads_ensureReady hr hlimits) ?_
  refine becomes_bind (reads_gets fun _ => rfl) ?_
  refine becomes_bind (reads_readLine true (isLine_statusLine h.reason_valid)
    hcovers.startLine _) ?_
  refine becomes_bind (reads_lift (parseStatusLine_startLine h.status_ge h.status_le
    h.reason_valid)) ?_
  refine becomes_bind (reads_readHeaders stores_id (response.sentHeaders requestMethod) rest ?_
    ?_) ?_
  · have hbytes := hcovers.headerBytes
    dsimp only
    omega
  · have hcount := hcovers.headerCount
    dsimp only
    omega
  rw [Nat.zero_add, Nat.zero_add]
  exact becomes_refl _

theorem statusForbidsBody_of_framing {status : UInt16} (h : statusForbidsFraming status = true) :
    statusForbidsBody status = true := by
  unfold statusForbidsFraming at h
  unfold statusForbidsBody
  rw [h, Bool.true_or]

theorem sendsBody_eq_false_iff {status : UInt16} :
    sendsBody requestMethod status = false ↔ statusForbidsBody status = true ∨
      requestMethod = ascii "HEAD" ∨ connectTunnel requestMethod status = true := by
  unfold sendsBody
  cases statusForbidsBody status <;> cases connectTunnel requestMethod status <;> simp

/-- **The head of an accepted response is read back**, unless it answers HEAD without framing. -/
theorem reads_acceptResponseHead (h : AcceptedResponse requestMethod response headers framing)
    (hcovers : r.limits.AllowsResponse requestMethod response)
    (hgood : headWithoutFraming requestMethod response.status = false) (usedBytes usedCount : Nat)
    (rest : Bytes) :
    Reads (acceptResponseHead requestMethod ⟨response.version, response.status, response.sentReason,
        (response.sentHeaders requestMethod).trimmed⟩ usedBytes usedCount) r rest
      (some ⟨response.version, response.status, response.sentReason,
        (response.sentHeaders requestMethod).trimmed⟩)
      (r.begun framing usedBytes usedCount) rest := by
  have hmax := r.limits.maxBodyBytes_le
  obtain ⟨hheaders, hsends, hnoBody⟩ := h.sent (Nat.le_trans hcovers.body hmax)
  unfold acceptResponseHead
  refine reads_bind (reads_failIf ?_) ?_
  · rw [contains_trimmed]
    rintro ⟨hv, hte⟩
    exact h.version ⟨hv, (contains_sentHeaders _ _ _).symm.trans hte⟩
  refine reads_bind (reads_failIf ?_) ?_
  · rintro ⟨hforbids, hfields⟩
    have hsent : response.sentHeaders requestMethod = response.headers := by
      have hno : sendsBody requestMethod response.status = false :=
        sendsBody_eq_false_iff.mpr (.inl (statusForbidsBody_of_framing hforbids))
      have hhead : (requestMethod == ascii "HEAD") = false := by
        unfold headWithoutFraming at hgood
        rw [hforbids, Bool.and_true] at hgood
        exact hgood
      unfold HttpResponse.sentHeaders Http.sentHeaders
      rw [hno, hhead, if_neg (by simp)]
    have hunframed := h.unframed (.inl hforbids)
    unfold HttpHeaders.unframed at hunframed
    rw [contains_trimmed, contains_trimmed, hsent] at hfields
    rcases hfields with hfield | hfield <;> simp [hfield] at hunframed
  have hframing : Reads (if statusForbidsBody response.status ∨ requestMethod = ascii "HEAD" ∨
        connectTunnel requestMethod response.status then pure HttpBodyInfo.none
      else lift (bodyFraming (response.sentHeaders requestMethod).trimmed true)) r rest framing r
      rest := by
    cases hs : sendsBody requestMethod response.status with
    | false =>
      rw [if_pos (sendsBody_eq_false_iff.mp hs), hnoBody hs]
      exact reads_pure _
    | true =>
      rw [if_neg fun hcond => by rw [sendsBody_eq_false_iff.mpr hcond] at hs; cases hs]
      refine reads_lift ((bodyFraming_trimmed _ _).trans ?_)
      rw [← hheaders]
      refine bodyFraming_true_of_false (hsends hs).announced ?_
      rintro rfl
      rcases (hsends hs).cases with ⟨-, hadd⟩ | hf | hf <;> simp_all
  refine reads_bind hframing ?_
  refine reads_bind (reads_beginBody ?_ _ _) (reads_pure _)
  cases hs : sendsBody requestMethod response.status with
  | false =>
    rw [hnoBody hs]
    exact Nat.zero_le _
  | true =>
    rcases (hsends hs).cases with ⟨hf, -⟩ | hf | hf
    · rw [hf]
      exact Nat.zero_le _
    · rw [hf]
      exact Nat.zero_le _
    · rw [hf]
      exact hcovers.body

/-! ## Whole responses -/

/-- **An accepted response is read back**, whatever follows it, unless it answers HEAD without
framing. -/
theorem reads_readResponse (hr : r.state = .ready) (hlimits : r.limits.validate = .ok ())
    (h : AcceptedResponse requestMethod response headers framing)
    (hcovers : r.limits.AllowsResponse requestMethod response)
    (hgood : headWithoutFraming requestMethod response.status = false) (rest : Bytes) :
    ∃ r', Reads (readResponse requestMethod) r
      (encodeMessage response.startLine headers (encodeBody response.body response.trailers
        (framing = .chunked) (sendsBody requestMethod response.status)) ++ rest)
      (some (response.readBack requestMethod)) r' rest ∧ r'.state = .ready ∧
      r'.limits = r.limits := by
  have hmax := r.limits.maxBodyBytes_le
  obtain ⟨hheaders, hsends, hnoBody⟩ := h.sent (Nat.le_trans hcovers.body hmax)
  subst hheaders
  obtain ⟨body, hbodyEq⟩ : ∃ body, body = encodeBody response.body response.trailers
    (framing = .chunked) (sendsBody requestMethod response.status) := ⟨_, rfl⟩
  have hstream : encodeMessage response.startLine (response.sentHeaders requestMethod) body ++
    rest =
      encodeMessage response.startLine (response.sentHeaders requestMethod) (body ++ rest) := by
    unfold encodeMessage
    simp
  have hhead := (becomes_readResponseHead hr hlimits h hcovers (body ++ rest)).reads
    (reads_acceptResponseHead (r := { r with state := .readingHead }) h hcovers hgood _ _ _)
  rw [← hbodyEq, hstream]
  have hbody : ∃ r', Reads readBodyAll (({ r with state := .readingHead } : Http1Reader).begun
      framing ((encodeHeaders (response.sentHeaders requestMethod)).length + 2)
      (response.sentHeaders requestMethod).length) (body ++ rest)
      (if sendsBody requestMethod response.status then response.body else [],
        response.trailers.trimmed) r' rest ∧ r'.state = .ready ∧ r'.limits = r.limits := by
    cases hs : sendsBody requestMethod response.status with
    | false =>
      have hempty : body = [] := by
        rw [hbodyEq, hs]
        rfl
      rw [hempty, hnoBody hs, h.trailers hs]
      exact ⟨_, reads_readBodyAll (readsBody_complete rfl rest), rfl, rfl⟩
    | true =>
      have hframed := hsends hs
      rw [hbodyEq, hs]
      refine reads_encodedBody (r := { r with state := .readingHead }) hlimits hcovers
        h.trailers_valid ?_ ?_ hframed.trailers_eq rest
      · rintro rfl
        rcases hframed.cases with ⟨-, hadd⟩ | hf | hf <;> simp_all
      · rcases hframed.cases with ⟨hf, -⟩ | hf | hf
        · exact .inl hf
        · exact .inr (.inl hf)
        · exact .inr (.inr hf)
  obtain ⟨r', hread, hready, hlimits'⟩ := hbody
  exact ⟨r', reads_bind hhead (reads_bind hread (reads_pure _)), hready, hlimits'⟩

/-- The error with which the reader refuses a framing field. -/
def framingForbidden : HttpError :=
  ⟨.invalidMessage, "informational and 204 responses cannot contain body framing fields"⟩

/-- **The reader refuses a response to HEAD without framing**, for the length that was added. -/
theorem rejects_readResponse (hr : r.state = .ready) (hlimits : r.limits.validate = .ok ())
    (h : AcceptedResponse requestMethod response headers framing)
    (hcovers : r.limits.AllowsResponse requestMethod response)
    (hbad : headWithoutFraming requestMethod response.status = true) (encodedBody rest : Bytes)
    {c : Conn} (hc : c.Clean)
    (hs : c.stream = encodeMessage response.startLine headers encodedBody ++ rest) :
    ∃ s, readResponse requestMethod (r.withConn c) = (.error framingForbidden, s) := by
  have hmax := r.limits.maxBodyBytes_le
  obtain ⟨hheaders, -, -⟩ := h.sent (Nat.le_trans hcovers.body hmax)
  subst hheaders
  have hstream : c.stream = encodeMessage response.startLine (response.sentHeaders requestMethod)
      (encodedBody ++ rest) := by
    rw [hs]
    unfold encodeMessage
    simp
  obtain ⟨hhead, hforbids⟩ : requestMethod = ascii "HEAD" ∧
      statusForbidsFraming response.status = true := by
    unfold headWithoutFraming at hbad
    simpa using hbad
  have hunframed := h.unframed (.inl hforbids)
  have hlength : (response.sentHeaders requestMethod).contains (ascii "Content-Length") = true := by
    unfold HttpResponse.sentHeaders
    rw [hhead, beq_self_eq_true, Bool.or_true]
    exact contains_sentHeaders_length _ hunframed
  obtain ⟨c', hc', hs', heq⟩ :=
    becomes_readResponseHead hr hlimits h hcovers (encodedBody ++ rest) c hc hstream
  refine ⟨({ r with state := .readingHead } : Http1Reader).withConn c', ?_⟩
  unfold readResponse
  refine bind_error (heq.trans ?_)
  unfold acceptResponseHead
  rw [bind_ok (show failIf _ _ (({ r with state := .readingHead } : Http1Reader).withConn c') =
    (.ok (), ({ r with state := .readingHead } : Http1Reader).withConn c') from ?_)]
  · rw [failIf_pos, fail_bind_apply]
    · rfl
    · rw [contains_trimmed, hlength]
      exact ⟨hforbids, .inl rfl⟩
  · rw [failIf_neg, pure_apply]
    rw [contains_trimmed]
    rintro ⟨hv, hte⟩
    exact h.version ⟨hv, (contains_sentHeaders _ _ _).symm.trans hte⟩

/-- At the end of the stream there is no further response. -/
theorem reads_readResponse_atEnd (requestMethod : Bytes) (hr : r.state = .ready)
    (hlimits : r.limits.validate = .ok ()) : Reads (readResponse requestMethod) r [] none r [] := by
  have hready : ({ r with state := .ready } : Http1Reader) = r := by rw [← hr]
  have hhead : Reads (readResponseHead requestMethod) r [] none r [] := by
    refine reads_bind (reads_ensureReady hr hlimits) ?_
    refine reads_bind (reads_gets fun _ => rfl) ?_
    refine reads_bind (reads_readLine_atEnd _) ?_
    refine reads_bind (reads_setState .ready) ?_
    dsimp only
    rw [hready]
    exact reads_pure none
  exact reads_bind hhead (reads_pure none)

/-- The results of reading `responses` back with the methods they were written for, and then once
more. -/
def readBackAll (responses : List (Bytes × HttpResponse)) (r : Http1Reader) :
    List (Except HttpError (Option HttpResponse)) :=
  readResponses (responses.map Prod.fst ++ [[]]) r

/-- Every response, and then a clean end of stream. -/
def allReadBack (responses : List (Bytes × HttpResponse)) :
    List (Except HttpError (Option HttpResponse)) :=
  responses.map (fun p => .ok (some (p.2.readBack p.1))) ++ [.ok none]

/-- The run over a connection. -/
theorem readBackAll_writeResponses {limits : HttpLimits} (hlimits : limits.validate = .ok ())
    {responses : List (Bytes × HttpResponse)}
    (hcovers : ∀ p ∈ responses, limits.AllowsResponse p.1 p.2) {w w' : Http1Writer}
    (hw : w.faults = []) (h : writeResponses responses w = (.ok (), w')) :
    ∃ bytes, w' = w.wrote bytes ∧ ∀ t : Http1Reader, t.state = .ready → t.limits = limits →
      t.conn.Clean → t.conn.stream = bytes →
      (readBackAll responses t = allReadBack responses ↔
        ∀ p ∈ responses, headWithoutFraming p.1 p.2.status = false) := by
  induction responses generalizing w with
  | nil =>
    refine ⟨[], ?_, ?_⟩
    · rw [Http1Writer.wrote_nil]
      exact (congrArg Prod.snd h).symm
    · intro t hready ht hclean hstream
      obtain ⟨c', -, -, hrun⟩ := reads_readResponse_atEnd [] hready (by rw [ht]; exact hlimits)
        t.conn hclean hstream
      rw [Http1Reader.withConn_self] at hrun
      unfold readBackAll
      rw [List.map_nil, List.nil_append]
      unfold readResponses
      rw [hrun]
      exact ⟨fun _ p hp => absurd hp List.not_mem_nil, fun _ => rfl⟩
  | cons p responses ih =>
    obtain ⟨requestMethod, response⟩ := p
    unfold writeResponses at h
    obtain ⟨_, w1, hfirst, h⟩ := bind_eq_ok.mp h
    obtain ⟨headers, framing, haccepted, rfl⟩ := writeResponse_ok hw hfirst
    obtain ⟨bytes, rfl, hread⟩ := ih (fun q hq => hcovers q (.tail _ hq))
      (show (w.wrote _).faults = [] from hw) h
    have hcover := hcovers (requestMethod, response) (.head _)
    refine ⟨_, Http1Writer.wrote_wrote _ _ _, ?_⟩
    intro t hready ht hclean hstream
    have hlimits' : t.limits.validate = .ok () := by
      rw [ht]
      exact hlimits
    have hcover' : t.limits.AllowsResponse requestMethod response := by
      rw [ht]
      exact hcover
    rw [List.forall_mem_cons]
    unfold readBackAll allReadBack
    rw [List.map_cons, List.cons_append, List.map_cons, List.cons_append]
    cases hgood : headWithoutFraming requestMethod response.status with
    | false =>
      obtain ⟨r', hreads, hready', hlimits''⟩ :=
        reads_readResponse hready hlimits' haccepted hcover' hgood bytes
      obtain ⟨c', hc', hs', hrun⟩ := hreads t.conn hclean hstream
      rw [Http1Reader.withConn_self] at hrun
      unfold readResponses
      rw [hrun]
      have hnext := hread (r'.withConn c') hready' (hlimits''.trans ht) hc' hs'
      unfold readBackAll allReadBack at hnext
      simp only [List.cons.injEq, true_and]
      exact hnext
    | true =>
      obtain ⟨s, hrun⟩ := rejects_readResponse hready hlimits' haccepted hcover' hgood _ bytes
        hclean hstream
      rw [Http1Reader.withConn_self] at hrun
      unfold readResponses
      rw [hrun]
      constructor
      · intro heq
        cases (List.cons.inj heq).1
      · rintro ⟨hfalse, -⟩
        cases hfalse

/-- **Responses are read back exactly when none answers HEAD without framing.** For every list of
responses that the writer accepts, every reader whose limits allow them and every delivery of the
bytes: `read_response`, called with the same methods, returns the responses in order and then a
clean end of stream, if and only if no response to HEAD has a status that forbids framing. -/
theorem responses_roundTrip_iff (responses : List (Bytes × HttpResponse)) (limits : HttpLimits)
    (events : List ReadEvent) (haccepted : (writeResponses responses {}).1 = .ok ())
    (hlimits : limits.validate = .ok ()) (hcovers : ∀ p ∈ responses, limits.AllowsResponse p.1 p.2)
    (hdelivers : Delivers events (writeResponses responses {}).2.written) :
    readBackAll responses (.fresh limits events) = allReadBack responses ↔
      ∀ p ∈ responses, headWithoutFraming p.1 p.2.status = false := by
  obtain ⟨w', hw'⟩ : ∃ w', writeResponses responses {} = (.ok (), w') :=
    ⟨(writeResponses responses {}).2, Prod.ext haccepted rfl⟩
  obtain ⟨bytes, rfl, hread⟩ := readBackAll_writeResponses hlimits hcovers rfl hw'
  refine hread _ rfl rfl hdelivers.clean ?_
  have hbytes := hdelivers.bytes
  rw [hw'] at hbytes
  exact hbytes

/-- A response to HEAD that announces its length, one with a body, a tunnel, and 204. -/
def exchange : List (Bytes × HttpResponse) :=
  [(ascii "HEAD", { body := ascii "hi" }), (ascii "GET", { body := ascii "hi" }),
    (ascii "CONNECT", {}), (ascii "GET", { status := 204 })]

theorem responses_roundTrip_iff_exchange :
    readBackAll exchange (.fresh {} [.data (writeResponses exchange {}).2.written]) =
      allReadBack exchange :=
  (responses_roundTrip_iff exchange {} [.data (writeResponses exchange {}).2.written]
    (by decide) (by decide) (by
      intro p h
      simp only [exchange, List.mem_cons, List.not_mem_nil, or_false] at h
      rcases h with rfl | rfl | rfl | rfl <;>
        exact ⟨by decide, by decide, by decide, by decide, by decide⟩)
    ⟨by decide +kernel, by simp [ReadEvent.bytes]⟩).mpr (by decide)

/-- A response of 204 to HEAD. -/
def headNoContent : List (Bytes × HttpResponse) := [(ascii "HEAD", { status := 204 })]

/-- **Not every accepted response is read back**: 204 to HEAD is written with a `Content-Length`,
and instead of the response the reader returns an error. -/
theorem not_responses_roundTrip :
    ¬ ∀ (responses : List (Bytes × HttpResponse)) (limits : HttpLimits) (events : List ReadEvent),
      (writeResponses responses {}).1 = .ok () → limits.validate = .ok () →
      (∀ p ∈ responses, limits.AllowsResponse p.1 p.2) →
      Delivers events (writeResponses responses {}).2.written →
      ∃ responses' : List HttpResponse, readBackAll responses (.fresh limits events) =
        responses'.map (fun response => .ok (some response)) ++ [.ok none] := by
  intro h
  have hread : readBackAll headNoContent
      (.fresh {} [.data (writeResponses headNoContent {}).2.written]) =
        [.error framingForbidden] := by decide +kernel
  obtain ⟨responses', heq⟩ := h headNoContent {} [.data (writeResponses headNoContent {}).2.written]
    (by decide) (by decide) (by
      intro p hp
      rcases List.mem_singleton.mp hp with rfl
      exact ⟨by decide, by decide, by decide, by decide, by decide⟩)
    ⟨by decide, by simp [ReadEvent.bytes]⟩
  rw [hread] at heq
  cases responses' with
  | nil => cases heq
  | cons response responses' => cases heq

end Libca.Http
