import Libca.Http.Wire

/-!
# Requests are read back as they were written (`http/http1_codec.cpp`)

* `reads_readRequest`: an accepted request, whatever follows it, is read back as `readBack`.
* `requests_roundTrip`: any list of accepted requests, pipelined, is read back in order, and then
  the stream ends cleanly.
-/

namespace Libca.Http

open Common Fallible

/-- The headers that are sent with a request. -/
def HttpRequest.sentHeaders (request : HttpRequest) : HttpHeaders :=
  Http.sentHeaders request.headers request.body (!request.body.isEmpty)

/-- A request as it is read back: headers and trailers trimmed, with the `Content-Length` that was
added. -/
def HttpRequest.readBack (request : HttpRequest) : HttpRequest :=
  { request with
    headers := request.sentHeaders.trimmed
    trailers := request.trailers.trimmed }

/-- The limits allow a request. -/
def HttpLimits.Allows (limits : HttpLimits) (request : HttpRequest) : Prop :=
  Covers limits request.startLine request.sentHeaders request.body request.trailers

/-! ## Request lines -/

theorem validRequestTarget_ne {target : Bytes} (h : validRequestTarget target = true) {b c : UInt8}
    (hb : b ∈ target) (hc : ¬ 32 < c ∨ c = 127) : b ≠ c := by
  unfold validRequestTarget at h
  have hall := List.all_eq_true.mp (Bool.and_eq_true_iff.mp h).2 b hb
  rintro rfl
  simp at hall
  rcases hc with hc | hc
  · exact hc hall.1
  · exact hall.2 hc

/-- **The request line is read back.** -/
theorem parseRequestLine_startLine {request : HttpRequestHead}
    (hmethod : validName request.method = true)
    (htarget : validRequestTarget request.target = true) :
    parseRequestLine request.startLine =
      .ok (request.method, request.target, httpVersionName request.version) := by
  have hline : request.startLine =
      request.method ++ 32 :: (request.target ++ 32 :: httpVersionName request.version) := by
    unfold HttpRequestHead.startLine
    simp only [List.append_assoc]
    rfl
  have hmethod' : ∀ b ∈ request.method, b ≠ 32 := fun b hb =>
    isTokenCharacter_ne ((validName_iff.mp hmethod).2 b hb) (by decide)
  have htarget' : ∀ b ∈ request.target, b ≠ 32 := fun b hb =>
    validRequestTarget_ne htarget hb (by decide)
  have hversion : ∀ b ∈ httpVersionName request.version, b ≠ 32 := by
    cases request.version <;> decide
  unfold parseRequestLine
  rw [hline, splitAt_append hmethod', splitAt_append htarget', splitAt_of_notMem hversion]
  dsimp only
  rw [if_neg (by simp [hmethod, htarget])]

theorem isLine_startLine {request : HttpRequestHead} (hmethod : validName request.method = true)
    (htarget : validRequestTarget request.target = true) : IsLine request.startLine := by
  have hversion : IsLine (httpVersionName request.version) := by
    cases request.version <;> decide
  have htarget' : IsLine request.target := fun b hb =>
    ⟨validRequestTarget_ne htarget hb (by decide), validRequestTarget_ne htarget hb (by decide)⟩
  refine isLine_append (isLine_append (isLine_append (isLine_append ?_ ?_) htarget') ?_) hversion
  · exact isLine_of_validName hmethod
  · decide
  · decide

theorem parseHttpVersion_name (version : HttpVersion) :
    parseHttpVersion (httpVersionName version) = .ok version := by
  cases version <;> decide

/-! ## Heads -/

variable {r : Http1Reader}

theorem reads_ensureReady {s : Bytes} (hr : r.state = .ready)
    (hlimits : r.limits.validate = .ok ()) :
    Reads ensureReady r s () { r with state := .readingHead } s := by
  refine reads_bind (reads_gets fun _ => rfl) ?_
  refine reads_bind (reads_failIf (by simp [hr])) ?_
  refine reads_bind (reads_gets fun _ => rfl) ?_
  exact reads_bind (reads_lift hlimits) (reads_setState _)

variable {request : HttpRequest} {headers : HttpHeaders} {framing : HttpBodyInfo}

/-- The headers of an accepted request pass the reader's checks as they passed the writer's. -/
theorem AcceptedRequest.framed_eq (h : AcceptedRequest request headers framing)
    (hbody : request.body.length ≤ usizeMax) :
    Framed request.headers request.body request.trailers (!request.body.isEmpty) headers framing :=
  frameBody_ok h.framed hbody

theorem getAll_sentHeaders {body : Bytes} {addLength : Bool} {name : Bytes}
    (hname : asciiEquals (ascii "Content-Length") name = false) :
    (sentHeaders headers body addLength).getAll name = headers.getAll name := by
  unfold sentHeaders
  split_ifs
  · rw [getAll_append]
    have hnone : HttpHeaders.getAll [contentLengthField body.length] name = [] := by
      unfold HttpHeaders.getAll
      rw [List.filter_cons_of_neg (by simpa [contentLengthField] using hname)]
      rfl
    rw [hnone, List.append_nil]
  · rfl

theorem checkHost_sentHeaders (headers : HttpHeaders) (body : Bytes) (addLength : Bool) :
    checkHost (sentHeaders headers body addLength) = checkHost headers := by
  unfold checkHost
  rw [getAll_sentHeaders (by decide)]

theorem contains_sentHeaders (headers : HttpHeaders) (body : Bytes) (addLength : Bool) :
    (sentHeaders headers body addLength).contains (ascii "Transfer-Encoding") =
      headers.contains (ascii "Transfer-Encoding") := by
  have h : ∀ hs : HttpHeaders, hs.contains (ascii "Transfer-Encoding") = false ↔
      hs.getAll (ascii "Transfer-Encoding") = [] := fun hs => contains_eq_false_iff
  have hsame : (sentHeaders headers body addLength).contains (ascii "Transfer-Encoding") = false ↔
      headers.contains (ascii "Transfer-Encoding") = false := by
    rw [h, h, getAll_sentHeaders (by decide)]
  cases hs : (sentHeaders headers body addLength).contains (ascii "Transfer-Encoding") <;>
    cases hh : headers.contains (ascii "Transfer-Encoding") <;> simp_all

/-- **The head of an accepted request is read back.** -/
theorem reads_readRequestHead (hr : r.state = .ready) (hlimits : r.limits.validate = .ok ())
    (h : AcceptedRequest request headers framing) (hcovers : r.limits.Allows request)
    (rest : Bytes) :
    Reads readRequestHead r (encodeMessage request.startLine headers rest)
      (some { request.toHttpRequestHead with headers := request.sentHeaders.trimmed })
      (({ r with state := .readingHead, lastHeadMethod := request.method } : Http1Reader).begun
        framing ((encodeHeaders headers).length + 2) headers.length) rest := by
  have hmax := r.limits.maxBodyBytes_le
  have hframed := h.framed_eq (Nat.le_trans hcovers.body hmax)
  obtain rfl : headers = request.sentHeaders := hframed.headers_eq
  have hstream : encodeMessage request.startLine request.sentHeaders rest =
      request.startLine ++ crlf ++ (encodeHeaders request.sentHeaders ++ crlf ++ rest) := by
    unfold encodeMessage
    simp
  rw [hstream]
  refine reads_bind (reads_ensureReady hr hlimits) ?_
  refine reads_bind (reads_gets fun _ => rfl) ?_
  refine reads_bind (reads_readLine true (isLine_startLine h.method_valid h.target_valid)
    hcovers.startLine _) ?_
  refine reads_bind (reads_lift (parseRequestLine_startLine h.method_valid h.target_valid)) ?_
  refine reads_bind (reads_modify fun _ => rfl) ?_
  refine reads_bind (reads_lift (parseHttpVersion_name _)) ?_
  refine reads_bind (reads_readHeaders stores_id request.sentHeaders rest ?_ ?_) ?_
  · have hbytes := hcovers.headerBytes
    dsimp only
    omega
  · have hcount := hcovers.headerCount
    dsimp only
    omega
  have hhost : Reads (if request.version = .http11 then lift (checkHost request.sentHeaders.trimmed)
      else pure ()) { r with state := .readingHead, lastHeadMethod := request.method } rest ()
      { r with state := .readingHead, lastHeadMethod := request.method } rest := by
    split_ifs with hv
    · refine reads_lift ?_
      rw [checkHost_trimmed]
      exact (checkHost_sentHeaders _ _ _).trans (h.host hv)
    · exact reads_pure ()
  refine reads_bind hhost ?_
  refine reads_bind (reads_failIf ?_) ?_
  · rw [contains_trimmed]
    rintro ⟨hv, hte⟩
    exact h.version ⟨hv, (contains_sentHeaders _ _ _).symm.trans hte⟩
  refine reads_bind (reads_lift ((bodyFraming_trimmed _ _).trans hframed.announced)) ?_
  rw [Nat.zero_add, Nat.zero_add]
  refine reads_bind (reads_beginBody ?_ _ _) (reads_pure _)
  rcases hframed.cases with ⟨hf, -⟩ | hf | hf
  · rw [hf]
    exact Nat.zero_le _
  · rw [hf]
    exact Nat.zero_le _
  · rw [hf]
    exact hcovers.body

/-! ## Whole requests -/

/-- **An accepted request is read back**, whatever follows it. -/
theorem reads_readRequest (hr : r.state = .ready) (hlimits : r.limits.validate = .ok ())
    (h : AcceptedRequest request headers framing) (hcovers : r.limits.Allows request)
    (rest : Bytes) :
    ∃ r', Reads readRequest r
      (encodeMessage request.startLine headers
        (encodeBody request.body request.trailers (framing = .chunked) true) ++ rest)
      (some request.readBack) r' rest ∧ r'.state = .ready ∧ r'.limits = r.limits := by
  have hmax := r.limits.maxBodyBytes_le
  have hframed := h.framed_eq (Nat.le_trans hcovers.body hmax)
  obtain rfl : headers = request.sentHeaders := hframed.headers_eq
  have hstream : encodeMessage request.startLine request.sentHeaders
      (encodeBody request.body request.trailers (framing = .chunked) true) ++ rest =
      encodeMessage request.startLine request.sentHeaders
        (encodeBody request.body request.trailers (framing = .chunked) true ++ rest) := by
    unfold encodeMessage
    simp
  have hcases : framing = .none ∨ framing = .chunked ∨
      framing = .contentLength request.body.length := by
    rcases hframed.cases with ⟨hf, -⟩ | hf | hf
    · exact .inl hf
    · exact .inr (.inl hf)
    · exact .inr (.inr hf)
  have hnone : framing = .none → request.body = [] := by
    intro hf
    rcases hframed.cases with ⟨-, hadd⟩ | hf' | hf'
    · simpa using hadd
    · rw [hf] at hf'
      cases hf'
    · rw [hf] at hf'
      cases hf'
  obtain ⟨r', hbody, hready, hlimits'⟩ := reads_encodedBody
    (r := { r with state := .readingHead, lastHeadMethod := request.method }) hlimits hcovers
    h.trailers_valid hnone hcases hframed.trailers_eq rest
  rw [hstream]
  refine ⟨r', ?_, hready, hlimits'⟩
  exact reads_bind (reads_readRequestHead hr hlimits h hcovers _) (reads_bind hbody (reads_pure _))

/-- At the end of the stream there is no further request. -/
theorem reads_readRequest_atEnd (hr : r.state = .ready)
    (hlimits : r.limits.validate = .ok ()) : Reads readRequest r [] none r [] := by
  have hready : ({ r with state := .ready } : Http1Reader) = r := by rw [← hr]
  have hhead : Reads readRequestHead r [] none r [] := by
    refine reads_bind (reads_ensureReady hr hlimits) ?_
    refine reads_bind (reads_gets fun _ => rfl) ?_
    refine reads_bind (reads_readLine_atEnd _) ?_
    refine reads_bind (reads_setState .ready) ?_
    dsimp only
    rw [hready]
    exact reads_pure none
  exact reads_bind hhead (reads_pure none)

/-- The run over a pipeline: what is written for `requests` is read back as them. -/
theorem readRequests_writeRequests {limits : HttpLimits} (hlimits : limits.validate = .ok ())
    {requests : List HttpRequest} (hcovers : ∀ request ∈ requests, limits.Allows request)
    {w w' : Http1Writer} (hw : w.faults = []) (h : writeRequests requests w = (.ok (), w')) :
    ∃ bytes, w' = w.wrote bytes ∧ ∀ t : Http1Reader, t.state = .ready → t.limits = limits →
      t.conn.Clean → t.conn.stream = bytes →
      readRequests (requests.length + 1) t =
        requests.map (fun request => .ok (some request.readBack)) ++ [.ok none] := by
  induction requests generalizing w with
  | nil =>
    refine ⟨[], ?_, ?_⟩
    · rw [Http1Writer.wrote_nil]
      exact (congrArg Prod.snd h).symm
    · intro t hready ht hclean hstream
      obtain ⟨c', -, -, hrun⟩ := reads_readRequest_atEnd hready (by rw [ht]; exact hlimits)
        t.conn hclean hstream
      rw [Http1Reader.withConn_self] at hrun
      unfold readRequests
      rw [hrun]
      rfl
  | cons request requests ih =>
    unfold writeRequests at h
    obtain ⟨_, w1, hfirst, h⟩ := bind_eq_ok.mp h
    obtain ⟨headers, framing, haccepted, rfl⟩ := writeRequest_ok hw hfirst
    obtain ⟨bytes, rfl, hread⟩ := ih (fun q hq => hcovers q (.tail _ hq))
      (show (w.wrote _).faults = [] from hw) h
    refine ⟨_, Http1Writer.wrote_wrote _ _ _, ?_⟩
    intro t hready ht hclean hstream
    obtain ⟨r', hreads, hready', hlimits'⟩ := reads_readRequest hready (by rw [ht]; exact hlimits)
      haccepted (by rw [ht]; exact hcovers request (.head _)) bytes
    obtain ⟨c', hc', hs', hrun⟩ := hreads t.conn hclean hstream
    rw [Http1Reader.withConn_self] at hrun
    have hnext := hread (r'.withConn c') hready' (hlimits'.trans ht) hc' hs'
    rw [List.length_cons, List.map_cons, List.cons_append, ← hnext]
    conv_lhs => unfold readRequests
    rw [hrun]

/-- **Requests are read back in order.** For every list of requests that the writer accepts, every
reader whose limits allow them and every delivery of the bytes, `read_request` returns the requests
in order, each with its headers and trailers trimmed and the `Content-Length` that was added, and
then a clean end of stream. -/
theorem requests_roundTrip (requests : List HttpRequest) (limits : HttpLimits)
    (events : List ReadEvent) (haccepted : (writeRequests requests {}).1 = .ok ())
    (hlimits : limits.validate = .ok ()) (hcovers : ∀ request ∈ requests, limits.Allows request)
    (hdelivers : Delivers events (writeRequests requests {}).2.written) :
    readRequests (requests.length + 1) (.fresh limits events) =
      requests.map (fun request => .ok (some request.readBack)) ++ [.ok none] := by
  obtain ⟨w', hw'⟩ : ∃ w', writeRequests requests {} = (.ok (), w') :=
    ⟨(writeRequests requests {}).2, Prod.ext haccepted rfl⟩
  obtain ⟨bytes, rfl, hread⟩ := readRequests_writeRequests hlimits hcovers rfl hw'
  refine hread _ rfl rfl hdelivers.clean ?_
  have hbytes := hdelivers.bytes
  rw [hw'] at hbytes
  exact hbytes

/-- A header field of ASCII literals. -/
def literalField (name value : String) (hname : validName (ascii name) = true := by decide)
    (hvalue : validValue (ascii value) = true := by decide) : HttpHeader :=
  ⟨ascii name, ascii value, hname, hvalue⟩

/-- A request whose length the writer adds, and a chunked one with a trailer. -/
def pipeline : List HttpRequest :=
  [{ method := ascii "PUT", headers := [literalField "Host" " a "], body := ascii "hi" },
    { method := ascii "POST",
      headers := [literalField "host" "b", literalField "Transfer-Encoding" "Chunked"],
      body := ascii "hello", trailers := [literalField "Digest" "x "] }]

theorem requests_roundTrip_pipeline :
    readRequests 3 (.fresh {} [.data (writeRequests pipeline {}).2.written]) =
      pipeline.map (fun request => .ok (some request.readBack)) ++ [.ok none] :=
  requests_roundTrip pipeline {} [.data (writeRequests pipeline {}).2.written] (by decide)
    (by decide) (by
      intro request h
      rcases List.mem_cons.mp h with rfl | h
      · exact ⟨by decide, by decide, by decide, by decide, by decide⟩
      · rcases List.mem_singleton.mp h with rfl
        exact ⟨by decide, by decide, by decide, by decide, by decide⟩)
    ⟨by decide +kernel, by simp [ReadEvent.bytes]⟩

end Libca.Http
