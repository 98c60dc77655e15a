import Libca.Common.Fallible
import Libca.Http.Message

/-!
# The HTTP/1 writer

Model of `Http1Writer` (`http/http1_codec.{hpp,cpp}`): `write_request` and `write_response`. The
underlying `io::Writer` keeps the bytes it accepted; each of its `write_all` calls accepts all its
bytes or fails after some of them.

* `writeRequest_ok`, `writeResponse_ok`: what an accepted message satisfies, and the bytes written.
* `frameBody_ok`: the framing the writer chose is the one the written headers announce.
-/

namespace Libca.Http

open Common Fallible

/-- `Http1Writer` and its `io::Writer`. A fault is the outcome of one `write_all`: `none` accepts
everything, `some n` fails after `n` bytes; without faults left everything is accepted. -/
structure Http1Writer where
  written : Bytes := []
  faults : List (Option Nat) := []
  chunkedBodyActive : Bool := false

/-- The writer after `bytes` were accepted. -/
def Http1Writer.wrote (w : Http1Writer) (bytes : Bytes) : Http1Writer :=
  { w with written := w.written ++ bytes }

@[simp] theorem Http1Writer.wrote_nil (w : Http1Writer) : w.wrote [] = w := by
  unfold Http1Writer.wrote
  rw [List.append_nil]

@[simp] theorem Http1Writer.wrote_wrote (w : Http1Writer) (bytes bytes' : Bytes) :
    (w.wrote bytes).wrote bytes' = w.wrote (bytes ++ bytes') := by
  unfold Http1Writer.wrote
  rw [List.append_assoc]

@[simp] theorem Http1Writer.wrote_faults (w : Http1Writer) (bytes : Bytes) :
    (w.wrote bytes).faults = w.faults := rfl

/-- A member function of `Http1Writer`. -/
abbrev Write (α : Type) := Fallible Http1Writer HttpError α

/-- `io::Writer::write_all`. -/
def writeAll (operation : String) (bytes : Bytes) : Write Unit := fun w =>
  match w.faults with
  | [] => (.ok (), w.wrote bytes)
  | none :: faults => (.ok (), { w.wrote bytes with faults := faults })
  | some count :: faults =>
    (.error ⟨.io, operation⟩, { w.wrote (bytes.take count) with faults := faults })

/-- `ensure_idle`. -/
def ensureIdle : Write Unit := do
  let active ← gets Http1Writer.chunkedBodyActive
  failIf active
    ⟨.invalidState, "finish the active HTTP chunked body before writing another message"⟩

/-- `write_bytes`. -/
def writeBytes (value : Bytes) : Write Unit :=
  if value.isEmpty then pure () else writeAll "write HTTP stream" value

/-- The end of a line. -/
def crlf : Bytes := [13, 10]

/-- `write_headers`. -/
def writeHeaders : HttpHeaders → Write Unit
  | [] => pure ()
  | header :: headers => do
    writeBytes header.name
    writeBytes (ascii ": ")
    writeBytes header.value
    writeBytes crlf
    writeHeaders headers

/-- `write_body`. -/
def writeBody (body : Bytes) (trailers : HttpHeaders) (chunked sendBody : Bool) : Write Unit :=
  if !sendBody then pure ()
  else if !chunked then
    if body.isEmpty then pure () else writeAll "write HTTP body" body
  else do
    (if body.isEmpty then pure ()
      else do
        writeBytes (toChars 16 body.length)
        writeBytes crlf
        writeAll "write HTTP chunk" body
        writeBytes crlf)
    writeBytes (ascii "0\r\n")
    writeHeaders trailers
    writeBytes crlf

/-- The framing of a body to be sent, with the headers that announce it: what `write_request` and
`write_response` share. A message without framing fields gets a `Content-Length` if `addLength`. -/
def frameBody (headers : HttpHeaders) (body : Bytes) (trailers : HttpHeaders) (addLength : Bool)
    (mismatch : String) : Except HttpError (HttpHeaders × HttpBodyInfo) := do
  let framing ← bodyFraming headers false
  let (headers, framing) ←
    (if framing = .none ∧ addLength then do
      let headers ← setContentLength headers body.length
      .ok (headers, .contentLength body.length)
    else .ok (headers, framing))
  if framing = .contentLength framing.length ∧ framing.length ≠ body.length then
    .error ⟨.invalidMessage, mismatch⟩
  else if framing ≠ .chunked ∧ trailers ≠ [] then
    .error ⟨.invalidMessage, "HTTP trailers require chunked transfer coding"⟩
  else .ok (headers, framing)

/-- The request line. -/
def HttpRequestHead.startLine (request : HttpRequestHead) : Bytes :=
  request.method ++ ascii " " ++ request.target ++ ascii " " ++ httpVersionName request.version

/-- `write_request`. -/
def writeRequest (request : HttpRequest) : Write Unit := do
  ensureIdle
  failIf (!validName request.method ∨ !validRequestTarget request.target)
    ⟨.invalidMessage, "HTTP request method or target is invalid"⟩
  (if request.version = .http11 then lift (checkHost request.headers) else pure ())
  failIf (request.version = .http10 ∧ request.headers.contains (ascii "Transfer-Encoding"))
    ⟨.invalidMessage, "HTTP/1.0 request cannot use Transfer-Encoding"⟩
  lift (validateTrailers request.trailers)
  let (headers, framing) ← lift (frameBody request.headers request.body request.trailers
    (!request.body.isEmpty) "Content-Length does not match HTTP request body")
  writeBytes (request.startLine ++ crlf)
  writeHeaders headers
  writeBytes crlf
  writeBody request.body request.trailers (framing = .chunked) true

/-- The reason phrase that is sent. -/
def HttpResponseHead.sentReason (response : HttpResponseHead) : Bytes :=
  if response.reason.isEmpty then defaultReasonPhrase response.status else response.reason

/-- The status line. A valid reason phrase has no NUL, so it is its own C string. -/
def HttpResponseHead.startLine (response : HttpResponseHead) : Bytes :=
  httpVersionName response.version ++ ascii " " ++ toChars 10 response.status.toNat ++
    if response.sentReason.isEmpty then [] else ascii " " ++ response.sentReason

/-- A response that is sent with its body. -/
def sendsBody (requestMethod : Bytes) (status : UInt16) : Bool :=
  !statusForbidsBody status && requestMethod != ascii "HEAD" && !connectTunnel requestMethod status

/-- The headers and framing that `write_response` chooses. -/
def frameResponse (response : HttpResponse) (requestMethod : Bytes) :
    Except HttpError (HttpHeaders × HttpBodyInfo) :=
  if sendsBody requestMethod response.status then
    frameBody response.headers response.body response.trailers true
      "Content-Length does not match HTTP response body"
  else if requestMethod = ascii "HEAD" ∧ response.headers.unframed then
    (setContentLength response.headers response.body.length).map fun headers => (headers, .none)
  else .ok (response.headers, .none)

/-- `write_response`. -/
def writeResponse (response : HttpResponse) (requestMethod : Bytes) : Write Unit := do
  ensureIdle
  failIf (response.status < 100 ∨ 999 < response.status ∨ !validValue response.reason)
    ⟨.invalidMessage, "HTTP response status or reason phrase is invalid"⟩
  lift (validateTrailers response.trailers)
  failIf ((statusForbidsBody response.status ∨ connectTunnel requestMethod response.status) ∧
      response.body ≠ [])
    ⟨.invalidMessage, "HTTP response status or CONNECT tunnel forbids body"⟩
  failIf (response.version = .http10 ∧ response.headers.contains (ascii "Transfer-Encoding"))
    ⟨.invalidMessage, "HTTP/1.0 response cannot use Transfer-Encoding"⟩
  failIf ((statusForbidsFraming response.status ∨ connectTunnel requestMethod response.status) ∧
      (response.headers.contains (ascii "Content-Length") ∨
        response.headers.contains (ascii "Transfer-Encoding")))
    ⟨.invalidMessage, "response status or CONNECT tunnel cannot contain body framing fields"⟩
  failIf (!sendsBody requestMethod response.status ∧ response.trailers ≠ [])
    ⟨.invalidMessage, "a response without a body cannot contain trailers"⟩
  let (headers, framing) ← lift (frameResponse response requestMethod)
  writeBytes (response.startLine ++ crlf)
  writeHeaders headers
  writeBytes crlf
  writeBody response.body response.trailers (framing = .chunked)
    (sendsBody requestMethod response.status)

/-- `write_request`, one after the other. -/
def writeRequests : List HttpRequest → Write Unit
  | [] => pure ()
  | request :: requests => do
    writeRequest request
    writeRequests requests

/-- `write_response`, one after the other, each for a request of the method beside it. -/
def writeResponses : List (Bytes × HttpResponse) → Write Unit
  | [] => pure ()
  | (requestMethod, response) :: responses => do
    writeResponse response requestMethod
    writeResponses responses

/-! ## The bytes written -/

/-- The bytes of header lines. -/
def encodeHeaders : HttpHeaders → Bytes
  | [] => []
  | header :: headers =>
    header.name ++ ascii ": " ++ header.value ++ crlf ++ encodeHeaders headers

/-- The bytes of a body. -/
def encodeBody (body : Bytes) (trailers : HttpHeaders) (chunked sendBody : Bool) : Bytes :=
  if !sendBody then []
  else if !chunked then body
  else
    (if body.isEmpty then [] else toChars 16 body.length ++ crlf ++ body ++ crlf) ++
      (ascii "0\r\n" ++ encodeHeaders trailers ++ crlf)

/-- The bytes of a message. -/
def encodeMessage (startLine : Bytes) (headers : HttpHeaders) (encodedBody : Bytes) : Bytes :=
  startLine ++ crlf ++ encodeHeaders headers ++ crlf ++ encodedBody

/-- Over an `io::Writer` that accepts everything, `x` succeeds and writes `bytes`. -/
def Writes (x : Write Unit) (bytes : Bytes) : Prop :=
  ∀ w : Http1Writer, w.faults = [] → x w = (.ok (), w.wrote bytes)

theorem writes_pure : Writes (pure ()) [] := by
  intro w _
  rw [Http1Writer.wrote_nil, pure_apply]

theorem writes_bind {x y : Write Unit} {bytes bytes' : Bytes} (hx : Writes x bytes)
    (hy : Writes y bytes') : Writes (x >>= fun _ => y) (bytes ++ bytes') := by
  intro w h
  rw [bind_ok (hx w h), hy (w.wrote bytes) h, Http1Writer.wrote_wrote]

theorem writes_writeAll (operation : String) (bytes : Bytes) :
    Writes (writeAll operation bytes) bytes := by
  intro w h
  unfold writeAll
  rw [h]

theorem writes_writeBytes (value : Bytes) : Writes (writeBytes value) value := by
  unfold writeBytes
  split
  · rename_i hempty
    rw [List.isEmpty_iff.mp hempty]
    exact writes_pure
  · exact writes_writeAll _ value

theorem writes_writeHeaders (headers : HttpHeaders) :
    Writes (writeHeaders headers) (encodeHeaders headers) := by
  induction headers with
  | nil => exact writes_pure
  | cons header headers ih =>
    unfold writeHeaders encodeHeaders
    simp only [List.append_assoc]
    refine writes_bind (writes_writeBytes _) ?_
    refine writes_bind (writes_writeBytes _) ?_
    refine writes_bind (writes_writeBytes _) ?_
    exact writes_bind (writes_writeBytes _) ih

theorem writes_writeBody (body : Bytes) (trailers : HttpHeaders) (chunked sendBody : Bool) :
    Writes (writeBody body trailers chunked sendBody)
      (encodeBody body trailers chunked sendBody) := by
  unfold writeBody encodeBody
  split_ifs with hsend hchunked hempty hempty
  · exact writes_pure
  · rw [List.isEmpty_iff.mp hempty]
    exact writes_pure
  · exact writes_writeAll _ body
  · refine writes_bind writes_pure ?_
    rw [List.append_assoc]
    refine writes_bind (writes_writeBytes _) ?_
    exact writes_bind (writes_writeHeaders _) (writes_writeBytes _)
  · refine writes_bind ?_ ?_
    · simp only [List.append_assoc]
      refine writes_bind (writes_writeBytes _) ?_
      refine writes_bind (writes_writeBytes _) ?_
      exact writes_bind (writes_writeAll _ _) (writes_writeBytes _)
    · rw [List.append_assoc]
      refine writes_bind (writes_writeBytes _) ?_
      exact writes_bind (writes_writeHeaders _) (writes_writeBytes _)

theorem writes_message (startLine : Bytes) (headers : HttpHeaders) {writeBody : Write Unit}
    {encodedBody : Bytes} (hbody : Writes writeBody encodedBody) :
    Writes (writeBytes (startLine ++ crlf) >>= fun _ => writeHeaders headers >>= fun _ =>
      writeBytes crlf >>= fun _ => writeBody) (encodeMessage startLine headers encodedBody) := by
  unfold encodeMessage
  simp only [List.append_assoc]
  rw [← List.append_assoc]
  refine writes_bind (writes_writeBytes _) ?_
  refine writes_bind (writes_writeHeaders _) ?_
  exact writes_bind (writes_writeBytes _) hbody

/-! ## What an accepted message satisfies -/

/-- The headers that are sent. -/
def sentHeaders (headers : HttpHeaders) (body : Bytes) (addLength : Bool) : HttpHeaders :=
  if addLength ∧ headers.unframed then headers ++ [contentLengthField body.length] else headers

/-- A framing that was chosen for a body, and the headers and trailers sent with it. -/
structure Framed (headers : HttpHeaders) (body : Bytes) (trailers : HttpHeaders) (addLength : Bool)
    (headers' : HttpHeaders) (framing : HttpBodyInfo) : Prop where
  headers_eq : headers' = sentHeaders headers body addLength
  announced : bodyFraming headers' false = .ok framing
  cases : framing = .none ∧ addLength = false ∨ framing = .chunked ∨
    framing = .contentLength body.length
  trailers_eq : framing ≠ .chunked → trailers = []

/-- **The framing the writer chose is the one the written headers announce.** -/
theorem frameBody_ok {headers : HttpHeaders} {body : Bytes} {trailers : HttpHeaders}
    {addLength : Bool} {mismatch : String} {headers' : HttpHeaders} {framing : HttpBodyInfo}
    (h : frameBody headers body trailers addLength mismatch = .ok (headers', framing))
    (hbody : body.length ≤ usizeMax) : Framed headers body trailers addLength headers' framing := by
  unfold frameBody at h
  cases hread : bodyFraming headers false with
  | error e =>
    rw [hread] at h
    cases h
  | ok read =>
    rw [hread] at h
    by_cases hadd : read = .none ∧ addLength = true
    · -- the length of the body is added
      obtain ⟨rfl, rfl⟩ := hadd
      have hunframed := bodyFraming_eq_none_iff.mp hread
      have habsent := (unframed_iff.mp hunframed).1
      simp only [bind, Except.bind, and_self, if_true, setContentLength_of_absent habsent,
        HttpBodyInfo.length, ne_eq, not_true_eq_false, and_false, if_false, reduceCtorEq,
        not_false_eq_true, true_and] at h
      split_ifs at h with htrailers
      obtain ⟨rfl, rfl⟩ : headers ++ [contentLengthField body.length] = headers' ∧
          .contentLength body.length = framing := by simpa using h
      refine ⟨?_, bodyFraming_addLength hunframed hbody false, .inr (.inr rfl),
        fun _ => htrailers⟩
      unfold sentHeaders
      rw [if_pos ⟨rfl, hunframed⟩]
    · simp only [bind, Except.bind, if_neg hadd] at h
      split_ifs at h with hmismatch htrailers
      obtain ⟨rfl, rfl⟩ : headers = headers' ∧ read = framing := by simpa using h
      refine ⟨?_, hread, ?_, ?_⟩
      · unfold sentHeaders
        rw [if_neg]
        rintro ⟨hlength, hunframed⟩
        have hnone := bodyFraming_eq_none_iff.mpr hunframed
        rw [hread] at hnone
        exact hadd ⟨by simpa using hnone, hlength⟩
      · rcases bodyFraming_eq_ok.mp hread with ⟨rfl, -, -⟩ | ⟨length, rfl, -, -⟩ | ⟨rfl, -, -⟩
        · exact .inr (.inl rfl)
        · have hlength : length = body.length := by
            by_contra hne
            exact hmismatch ⟨rfl, hne⟩
          rw [hlength]
          exact .inr (.inr rfl)
        · exact .inl ⟨rfl, by simpa using hadd⟩
      · intro hchunked
        by_contra hne
        exact htrailers ⟨hchunked, hne⟩

theorem ensureIdle_eq_ok {w w' : Http1Writer} {u : Unit} (h : ensureIdle w = (.ok u, w')) :
    w = w' := by
  unfold ensureIdle at h
  rw [gets_bind_apply, failIf_eq_ok] at h
  exact h.2

/-- What `write_request` accepts. -/
structure AcceptedRequest (request : HttpRequest) (headers : HttpHeaders)
    (framing : HttpBodyInfo) : Prop where
  method_valid : validName request.method = true
  target_valid : validRequestTarget request.target = true
  host : request.version = .http11 → checkHost request.headers = .ok ()
  version : ¬ (request.version = .http10 ∧ request.headers.contains (ascii "Transfer-Encoding"))
  trailers_valid : validateTrailers request.trailers = .ok ()
  framed : frameBody request.headers request.body request.trailers (!request.body.isEmpty)
    "Content-Length does not match HTTP request body" = .ok (headers, framing)

/-- **An accepted request** satisfies the checks, and is written in one piece. -/
theorem writeRequest_ok {request : HttpRequest} {w w' : Http1Writer} (hw : w.faults = [])
    (h : writeRequest request w = (.ok (), w')) :
    ∃ headers framing, AcceptedRequest request headers framing ∧
      w' = w.wrote (encodeMessage request.startLine headers
        (encodeBody request.body request.trailers (framing = .chunked) true)) := by
  unfold writeRequest at h
  obtain ⟨_, w1, hidle, h⟩ := bind_eq_ok.mp h
  obtain rfl := ensureIdle_eq_ok hidle
  obtain ⟨_, w1, hstep, h⟩ := bind_eq_ok.mp h
  obtain ⟨hline, rfl⟩ := failIf_eq_ok.mp hstep
  obtain ⟨_, w1, hhostStep, h⟩ := bind_eq_ok.mp h
  obtain ⟨_, w2, hstep, h⟩ := bind_eq_ok.mp h
  obtain ⟨hversion, rfl⟩ := failIf_eq_ok.mp hstep
  obtain ⟨_, w2, hstep, h⟩ := bind_eq_ok.mp h
  obtain ⟨htrailers, rfl⟩ := lift_eq_ok.mp hstep
  obtain ⟨⟨headers, framing⟩, w2, hstep, h⟩ := bind_eq_ok.mp h
  obtain ⟨hframed, rfl⟩ := lift_eq_ok.mp hstep
  have hhost' : (request.version = .http11 → checkHost request.headers = .ok ()) ∧ w = w1 := by
    by_cases hv : request.version = .http11
    · rw [if_pos hv] at hhostStep
      obtain ⟨hcheck, rfl⟩ := lift_eq_ok.mp hhostStep
      exact ⟨fun _ => hcheck, rfl⟩
    · rw [if_neg hv, pure_apply] at hhostStep
      exact ⟨fun h => absurd h hv, congrArg Prod.snd hhostStep⟩
  obtain ⟨hhost, rfl⟩ := hhost'
  refine ⟨headers, framing, ⟨?_, ?_, hhost, hversion, htrailers, hframed⟩, ?_⟩
  · simpa using (not_or.mp hline).1
  · simpa using (not_or.mp hline).2
  · have hwrites := writes_message request.startLine headers
      (writes_writeBody request.body request.trailers (framing = .chunked) true)
    dsimp only at h
    rw [hwrites w hw] at h
    exact (congrArg Prod.snd h).symm

/-- What `write_response` accepts. -/
structure AcceptedResponse (requestMethod : Bytes) (response : HttpResponse)
    (headers : HttpHeaders) (framing : HttpBodyInfo) : Prop where
  status_ge : 100 ≤ response.status
  status_le : response.status ≤ 999
  reason_valid : validValue response.reason = true
  trailers_valid : validateTrailers response.trailers = .ok ()
  body : statusForbidsBody response.status = true ∨
    connectTunnel requestMethod response.status = true → response.body = []
  version : ¬ (response.version = .http10 ∧ response.headers.contains (ascii "Transfer-Encoding"))
  unframed : statusForbidsFraming response.status = true ∨
    connectTunnel requestMethod response.status = true → response.headers.unframed = true
  trailers : sendsBody requestMethod response.status = false → response.trailers = []
  framed : frameResponse response requestMethod = .ok (headers, framing)

/-- **An accepted response** satisfies the checks, and is written in one piece. -/
theorem writeResponse_ok {response : HttpResponse} {requestMethod : Bytes} {w w' : Http1Writer}
    (hw : w.faults = []) (h : writeResponse response requestMethod w = (.ok (), w')) :
    ∃ headers framing, AcceptedResponse requestMethod response headers framing ∧
      w' = w.wrote (encodeMessage response.startLine headers
        (encodeBody response.body response.trailers (framing = .chunked)
          (sendsBody requestMethod response.status))) := by
  unfold writeResponse at h
  obtain ⟨_, w1, hidle, h⟩ := bind_eq_ok.mp h
  obtain rfl := ensureIdle_eq_ok hidle
  obtain ⟨_, w1, hstep, h⟩ := bind_eq_ok.mp h
  obtain ⟨hline, rfl⟩ := failIf_eq_ok.mp hstep
  obtain ⟨_, w1, hstep, h⟩ := bind_eq_ok.mp h
  obtain ⟨htrailers, rfl⟩ := lift_eq_ok.mp hstep
  obtain ⟨_, w1, hstep, h⟩ := bind_eq_ok.mp h
  obtain ⟨hbody, rfl⟩ := failIf_eq_ok.mp hstep
  obtain ⟨_, w1, hstep, h⟩ := bind_eq_ok.mp h
  obtain ⟨hversion, rfl⟩ := failIf_eq_ok.mp hstep
  obtain ⟨_, w1, hstep, h⟩ := bind_eq_ok.mp h
  obtain ⟨hunframed, rfl⟩ := failIf_eq_ok.mp hstep
  obtain ⟨_, w1, hstep, h⟩ := bind_eq_ok.mp h
  obtain ⟨hnoTrailers, rfl⟩ := failIf_eq_ok.mp hstep
  obtain ⟨⟨headers, framing⟩, w1, hstep, h⟩ := bind_eq_ok.mp h
  obtain ⟨hframed, rfl⟩ := lift_eq_ok.mp hstep
  obtain ⟨hlow, hline⟩ := not_or.mp hline
  obtain ⟨hhigh, hreason⟩ := not_or.mp hline
  refine ⟨headers, framing, ⟨?_, ?_, ?_, htrailers, ?_, hversion, ?_, ?_, hframed⟩, ?_⟩
  · exact UInt16.not_lt.mp hlow
  · exact UInt16.not_lt.mp hhigh
  · simpa using hreason
  · intro hforbids
    by_contra hne
    exact hbody ⟨hforbids, hne⟩
  · intro hforbids
    unfold HttpHeaders.unframed
    by_contra hne
    refine hunframed ⟨hforbids, ?_⟩
    simpa [or_iff_not_imp_left] using hne
  · intro hsends
    by_contra hne
    exact hnoTrailers ⟨by simpa using hsends, hne⟩
  · have hwrites := writes_message response.startLine headers
      (writes_writeBody response.body response.trailers (framing = .chunked)
        (sendsBody requestMethod response.status))
    dsimp only at h
    rw [hwrites w hw] at h
    exact (congrArg Prod.snd h).symm

end Libca.Http
