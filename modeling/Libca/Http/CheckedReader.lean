import Libca.Http.ReaderCalls

/-!
# The reader with its limit checks checked (`http/http1_codec.cpp` 337-746)

The limit checks of `Http1Reader` subtract unsigned counters, and its counters grow by what was
read. `ReaderCall.checkedRun` is the reader of `Libca.Http.Http1Reader` with that arithmetic made
explicit: a subtraction that would wrap around ends in `underflow`, and a counter that would pass
its limit in `overLimit`, errors of their own that no caller sees.

A function is the one of the same name; those that neither subtract nor count run as they are,
through `unchecked`.
-/

namespace Libca.Http

open Common Fallible

/-- The errors of the checked reader. -/
inductive CheckedError
  | underflow
  | overLimit
  | http (error : HttpError)

/-- A member function of the checked reader. -/
abbrev CheckedRead (α : Type) := Fallible Http1Reader CheckedError α

/-- A function that needs no check. -/
def unchecked {α : Type} (x : Read α) : CheckedRead α := mapError .http x

/-- An unsigned subtraction. -/
def checkedSub (a b : Nat) : CheckedRead Nat := if b ≤ a then pure (a - b) else fail .underflow

/-- A counter is at most its limit. -/
def requireLe (counter limit : Nat) : CheckedRead Unit :=
  if counter ≤ limit then pure () else fail .overLimit

theorem checkedSub_ok {a b : Nat} (h : b ≤ a) (r : Http1Reader) :
    checkedSub a b r = (.ok (a - b), r) := by
  unfold checkedSub
  rw [if_pos h]
  rfl

theorem requireLe_ok {counter limit : Nat} (h : counter ≤ limit) (r : Http1Reader) :
    requireLe counter limit r = (.ok (), r) := by
  unfold requireLe
  rw [if_pos h]
  rfl

/-! ## Heads -/

/-- The loop of `read_headers`. -/
def checkedHeadersLoop (store : Nat → Nat → Http1Reader → Http1Reader) :
    Nat → HttpHeaders → Nat → Nat → CheckedRead (HttpHeaders × Nat × Nat)
  | 0, _, _, _ => fail (.http noStepLeft)
  | steps + 1, headers, usedBytes, usedCount => do
    let limits ← gets Http1Reader.limits
    failIf (usedBytes ≥ limits.maxHeaderBytes)
      (.http ⟨.headerLimitExceeded, "HTTP headers exceed configured byte limit"⟩)
    let room ← checkedSub limits.maxHeaderBytes usedBytes
    let value ← unchecked (readFullLine room)
    let room ← checkedSub limits.maxHeaderBytes usedBytes
    failIf (value.length + 2 > room)
      (.http ⟨.headerLimitExceeded, "HTTP headers exceed configured byte limit"⟩)
    requireLe (usedBytes + (value.length + 2)) limits.maxHeaderBytes
    modify (store (usedBytes + (value.length + 2)) usedCount)
    if value.isEmpty then pure (headers, usedBytes + (value.length + 2), usedCount)
    else
      failIf (value.head? = some 32 ∨ value.head? = some 9)
        (.http ⟨.invalidMessage, "obsolete folded HTTP headers are not allowed"⟩)
      failIf (usedCount ≥ limits.maxHeaderCount)
        (.http ⟨.headerLimitExceeded, "HTTP header count exceeds configured limit"⟩)
      let header ← unchecked (lift (parseHeaderLine value))
      requireLe (usedCount + 1) limits.maxHeaderCount
      modify (store (usedBytes + (value.length + 2)) (usedCount + 1))
      checkedHeadersLoop store steps (headers ++ [header]) (usedBytes + (value.length + 2))
        (usedCount + 1)

/-- `read_headers`. -/
def checkedHeaders (store : Nat → Nat → Http1Reader → Http1Reader) (usedBytes usedCount : Nat) :
    CheckedRead (HttpHeaders × Nat × Nat) := do
  let remaining ← gets fun r => r.conn.stream.length
  checkedHeadersLoop store (remaining + 1) [] usedBytes usedCount

/-- `read_request_head`. -/
def checkedRequestHead : CheckedRead (Option HttpRequestHead) := do
  unchecked ensureReady
  let limits ← gets Http1Reader.limits
  let line ← unchecked (readLine limits.maxStartLineBytes true)
  match line with
  | none =>
    unchecked (setState .ready)
    pure none
  | some requestLine =>
    let (method, target, versionText) ← unchecked (lift (parseRequestLine requestLine))
    modify fun r => { r with lastHeadMethod := method }
    let version ← unchecked (lift (parseHttpVersion versionText))
    let (headers, usedBytes, usedCount) ← checkedHeaders (fun _ _ => id) 0 0
    unchecked (if version = .http11 then lift (checkHost headers) else pure ())
    failIf (version = .http10 ∧ headers.contains (ascii "Transfer-Encoding"))
      (.http ⟨.invalidMessage, "HTTP/1.0 request cannot use Transfer-Encoding"⟩)
    let framing ← unchecked (lift (bodyFraming headers false))
    unchecked (beginBody framing usedBytes usedCount)
    pure (some ⟨method, target, version, headers⟩)

/-- `read_response_head`. -/
def checkedResponseHead (requestMethod : Bytes) : CheckedRead (Option HttpResponseHead) := do
  unchecked ensureReady
  let limits ← gets Http1Reader.limits
  let line ← unchecked (readLine limits.maxStartLineBytes true)
  match line with
  | none =>
    unchecked (setState .ready)
    pure none
  | some statusLine =>
    let (version, status, reason) ← unchecked (lift (parseStatusLine statusLine))
    let (headers, usedBytes, usedCount) ← checkedHeaders (fun _ _ => id) 0 0
    unchecked
      (acceptResponseHead requestMethod ⟨version, status, reason, headers⟩ usedBytes usedCount)

/-! ## Bodies -/

/-- Copy out up to `count` buffered bytes and count them as decoded. -/
def checkedTakeDecoded (count : Nat) : CheckedRead Bytes := do
  let bytes ← unchecked (takeBuffered count)
  let limits ← gets Http1Reader.limits
  let decoded ← gets Http1Reader.bodyDecoded
  requireLe (decoded + bytes.length) limits.maxBodyBytes
  modify fun r => { r with bodyDecoded := r.bodyDecoded + bytes.length }
  pure bytes

/-- `read_fixed_body_part`, and the chunk data branch of `read_chunked_body_part`. -/
def checkedCounted (eof : String) (next : ReadState) (capacity : Nat) : CheckedRead Bytes := do
  let filled ← unchecked fillBuffer
  failIf (!filled) (.http ⟨.invalidMessage, eof⟩)
  let remaining ← gets Http1Reader.bodyRemaining
  let bytes ← checkedTakeDecoded (min capacity remaining)
  let _ ← checkedSub remaining bytes.length
  modify fun r => { r with
    bodyRemaining := r.bodyRemaining - bytes.length
    state := if r.bodyRemaining - bytes.length = 0 then next else r.state }
  pure bytes

/-- The chunk size branch of `read_chunked_body_part`. -/
def checkedChunkSize : CheckedRead Unit := do
  let limits ← gets Http1Reader.limits
  let line ← unchecked (readFullLine limits.maxStartLineBytes)
  let size ← unchecked (lift (parseChunkSize line))
  if size = 0 then
    let usedBytes ← gets Http1Reader.usedHeaderBytes
    let usedCount ← gets Http1Reader.usedHeaderCount
    let (trailers, _, _) ← checkedHeaders storeUsed usedBytes usedCount
    modify fun r => { r with bodyTrailers := trailers }
    unchecked (lift (validateTrailers trailers))
    unchecked (setState .bodyComplete)
  else
    let decoded ← gets Http1Reader.bodyDecoded
    let room ← checkedSub limits.maxBodyBytes decoded
    failIf (size > room)
      (.http ⟨.bodyLimitExceeded, "chunked HTTP body exceeds configured limit"⟩)
    modify fun r => { r with bodyRemaining := size, state := .chunkData }

/-- The passes of `read_chunked_body_part`'s loop before it reaches chunk data or the end. -/
def checkedChunkPrefix : CheckedRead Unit := do
  let state ← gets Http1Reader.state
  unchecked (if state = .chunkDataEnding then readChunkEnding else pure ())
  if state = .chunkData then pure () else checkedChunkSize

/-- `read_chunked_body_part`. -/
def checkedChunkedBodyPart (capacity : Nat) : CheckedRead Bytes := do
  checkedChunkPrefix
  let state ← gets Http1Reader.state
  if state = .chunkData then
    checkedCounted "unexpected EOF inside HTTP chunk" .chunkDataEnding capacity
  else pure []

/-- `read_close_delimited_body_part`. -/
def checkedCloseDelimitedBodyPart (capacity : Nat) : CheckedRead Bytes := do
  let filled ← unchecked fillBuffer
  if !filled then
    unchecked (setState .bodyComplete)
    pure []
  else
    let limits ← gets Http1Reader.limits
    let count ← gets fun r => min capacity r.conn.buffered.length
    let decoded ← gets Http1Reader.bodyDecoded
    let room ← checkedSub limits.maxBodyBytes decoded
    failIf (count > room)
      (.http ⟨.bodyLimitExceeded, "close-delimited HTTP body exceeds configured limit"⟩)
    checkedTakeDecoded count

/-- `read_body`. -/
def checkedBody (capacity : Nat) : CheckedRead Bytes := do
  let state ← gets Http1Reader.state
  failIf state.noBody (.http ⟨.invalidState, "there is no readable HTTP body"⟩)
  if state = .bodyComplete ∨ capacity = 0 then pure []
  else
    onError (fun r => { r with state := .failed }) <|
      if state = .fixedBody then
        checkedCounted "unexpected EOF inside HTTP body" .bodyComplete capacity
      else if state = .closeDelimitedBody then checkedCloseDelimitedBodyPart capacity
      else checkedChunkedBodyPart capacity

/-- `while (!body_finished()) read_body(…)` with the given capacities, one for each pass. -/
def checkedBodies : List Nat → CheckedRead Bytes
  | [] => pure []
  | capacity :: capacities => do
    let finished ← gets Http1Reader.bodyFinished
    if finished then pure []
    else
      let part ← checkedBody capacity
      let rest ← checkedBodies capacities
      pure (part ++ rest)

/-- The same loop with buffers of 8192 bytes, until the body is finished. -/
def checkedDrainBody : CheckedRead Bytes := do
  let remaining ← gets fun r => r.conn.stream.length
  checkedBodies (List.replicate (remaining + 1) 8192)

/-- `discard_body`. -/
def checkedDiscardBody : CheckedRead HttpHeaders := do
  let state ← gets Http1Reader.state
  failIf state.noBody (.http ⟨.invalidState, "there is no discardable HTTP body"⟩)
  let _ ← checkedDrainBody
  unchecked finishBody

/-- `read_body_all`. -/
def checkedBodyAll : CheckedRead (Bytes × HttpHeaders) := do
  let body ← checkedDrainBody
  let trailers ← unchecked finishBody
  pure (body, trailers)

/-! ## Messages -/

/-- `read_request`. -/
def checkedRequest : CheckedRead (Option HttpRequest) := do
  let head ← checkedRequestHead
  match head with
  | none => pure none
  | some head =>
    let (body, trailers) ← checkedBodyAll
    pure (some { head with body := body, trailers := trailers })

/-- `read_response`. -/
def checkedResponse (requestMethod : Bytes) : CheckedRead (Option HttpResponse) := do
  let head ← checkedResponseHead requestMethod
  match head with
  | none => pure none
  | some head =>
    let (body, trailers) ← checkedBodyAll
    pure (some { head with body := body, trailers := trailers })

/-- Run a call of the checked reader. -/
def ReaderCall.checkedRun : ReaderCall → CheckedRead ReaderReply
  | .readRequestHead => do pure (.requestHead (← checkedRequestHead))
  | .readResponseHead requestMethod => do
    pure (.responseHead (← checkedResponseHead requestMethod))
  | .readBody capacity => do pure (.body (← checkedBody capacity))
  | .readBodyNull capacity => unchecked (ReaderCall.readBodyNull capacity).run
  | .finishBody => unchecked ReaderCall.finishBody.run
  | .discardBody => do pure (.trailers (← checkedDiscardBody))
  | .readBodyAll => do
    let (bytes, trailers) ← checkedBodyAll
    pure (.wholeBody bytes trailers)
  | .readRequest => do pure (.request (← checkedRequest))
  | .readResponse requestMethod => do pure (.response (← checkedResponse requestMethod))

end Libca.Http
