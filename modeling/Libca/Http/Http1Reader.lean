import Libca.Common.Fallible
import Libca.Http.Message

/-!
# The HTTP/1 reader

Model of `Http1Reader` (`http/http1_codec.{hpp,cpp}`). An `io::Reader` is the list of what its
`read` calls will return; after the last of them every call returns 0, which is end of stream.

* `readLine`, `readHeaders`, `readBodyAll` and `discardBody` loop on a count of steps made from the
  bytes that remain; each step but the last consumes a byte, so the count does not run out
  (`triple_readLine`, `triple_readHeaders` in `Libca.Http.Delivery`).
* The null check of `read_body`'s output pointer is left out: the bytes read are returned.
-/

namespace Libca.Http

open Common Fallible

/-- One return of `io::Reader::read`. -/
inductive ReadEvent
  | interrupted
  | failed (message : String)
  | data (bytes : Bytes)
  deriving DecidableEq

/-- `buffer_[position_, filled_)`, and what the underlying reader will return. -/
structure Conn where
  buffered : Bytes := []
  pending : List ReadEvent
  deriving DecidableEq

/-- `Http1Reader::ReadState`. -/
inductive ReadState
  | ready
  | readingHead
  | fixedBody
  | chunkSize
  | chunkData
  | chunkDataEnding
  | closeDelimitedBody
  | bodyComplete
  | failed
  deriving DecidableEq, Repr

/-- `Http1Reader`. -/
structure Http1Reader where
  limits : HttpLimits
  conn : Conn
  state : ReadState := .ready
  bodyInfo : HttpBodyInfo := .none
  bodyRemaining : Nat := 0
  bodyDecoded : Nat := 0
  usedHeaderBytes : Nat := 0
  usedHeaderCount : Nat := 0
  bodyTrailers : HttpHeaders := []
  lastHeadMethod : Bytes := []

/-- A reader constructed on an `io::Reader`. -/
def Http1Reader.fresh (limits : HttpLimits) (events : List ReadEvent) : Http1Reader where
  limits := limits
  conn := ⟨[], events⟩

/-- The reader with another connection. -/
def Http1Reader.withConn (r : Http1Reader) (c : Conn) : Http1Reader := { r with conn := c }

@[simp] theorem Http1Reader.withConn_conn (r : Http1Reader) (c : Conn) : (r.withConn c).conn = c :=
  rfl

@[simp] theorem Http1Reader.withConn_withConn (r : Http1Reader) (c c' : Conn) :
    (r.withConn c).withConn c' = r.withConn c' := rfl

@[simp] theorem Http1Reader.withConn_self (r : Http1Reader) : r.withConn r.conn = r := rfl

/-- A member function of `Http1Reader`. -/
abbrev Read (α : Type) := Fallible Http1Reader HttpError α

/-! ## Bytes and lines -/

/-- The bytes that an event delivers. -/
def ReadEvent.bytes : ReadEvent → Bytes
  | .data bytes => bytes
  | _ => []

/-- The bytes still to be read. -/
def Conn.stream (c : Conn) : Bytes := c.buffered ++ c.pending.flatMap ReadEvent.bytes

/-- The loop of `fill_buffer`: its result, and the buffer and the reader after it. -/
def fill : List ReadEvent → Except HttpError Bool × Conn
  | [] => (.ok false, ⟨[], []⟩)
  | .interrupted :: pending => fill pending
  | .failed message :: pending => (.error ⟨.io, "read HTTP stream: " ++ message⟩, ⟨[], pending⟩)
  | .data bytes :: pending =>
    if 8192 < bytes.length then
      (.error ⟨.invalidMessage, "Reader returned more bytes than requested"⟩, ⟨[], pending⟩)
    else (.ok !bytes.isEmpty, ⟨bytes, pending⟩)

/-- `fill_buffer`. -/
def fillBuffer : Read Bool := fun r =>
  if r.conn.buffered.isEmpty then
    ((fill r.conn.pending).1, r.withConn (fill r.conn.pending).2)
  else (.ok true, r)

/-- Take up to `count` bytes from the buffer. -/
def takeBuffered (count : Nat) : Read Bytes := fun r =>
  (.ok (r.conn.buffered.take count),
    r.withConn { r.conn with buffered := r.conn.buffered.drop count })

/-- `read_byte`. -/
def readByte : Read (Option UInt8) := do
  let filled ← fillBuffer
  if filled then
    let bytes ← takeBuffered 1
    pure bytes.head?
  else pure none

/-- The error of a loop that runs out of steps, which none does. -/
def noStepLeft : HttpError := ⟨.invalidState, "no step left"⟩

/-- The loop of `read_line`. -/
def readLineLoop (limit : Nat) (allowCleanEof : Bool) :
    Nat → Bytes → Bool → Bool → Read (Option Bytes)
  | 0, _, _, _ => fail noStepLeft
  | steps + 1, line, sawCarriageReturn, sawAnyByte => do
    let next ← readByte
    match next with
    | none =>
      if allowCleanEof ∧ !sawAnyByte then pure none
      else fail ⟨.invalidMessage, "unexpected EOF inside an HTTP line"⟩
    | some value =>
      if sawCarriageReturn then
        if value ≠ 10 then fail ⟨.invalidMessage, "HTTP lines must end with CRLF"⟩
        else pure (some line)
      else if value = 13 then readLineLoop limit allowCleanEof steps line true true
      else if value = 10 then fail ⟨.invalidMessage, "bare LF is not allowed in HTTP/1"⟩
      else if line.length ≥ limit then
        fail ⟨.headerLimitExceeded, "HTTP line exceeds configured limit"⟩
      else readLineLoop limit allowCleanEof steps (line ++ [value]) false true

/-- `read_line`. -/
def readLine (limit : Nat) (allowCleanEof : Bool) : Read (Option Bytes) := do
  let remaining ← gets fun r => r.conn.stream.length
  readLineLoop limit allowCleanEof (remaining + 1) [] false false

/-- A line where end of stream is an error. -/
def readFullLine (limit : Nat) : Read Bytes := do
  let line ← readLine limit false
  pure (line.getD [])

/-! ## Headers -/

/-- A header line: its name and value. -/
def parseHeaderLine (line : Bytes) : Except HttpError HttpHeader :=
  match line.dropWhile (· != 58) with
  | [] => .error ⟨.invalidMessage, "HTTP header line is missing ':'"⟩
  | _ :: fieldValue => HttpHeaders.field (line.takeWhile (· != 58)) (trimOws fieldValue)

/-- The loop of `read_headers`; `store` writes to the variables `used_bytes` and `used_count`
refer to. -/
def readHeadersLoop (store : Nat → Nat → Http1Reader → Http1Reader) :
    Nat → HttpHeaders → Nat → Nat → Read (HttpHeaders × Nat × Nat)
  | 0, _, _, _ => fail noStepLeft
  | steps + 1, headers, usedBytes, usedCount => do
    let limits ← gets Http1Reader.limits
    failIf (usedBytes ≥ limits.maxHeaderBytes)
      ⟨.headerLimitExceeded, "HTTP headers exceed configured byte limit"⟩
    let value ← readFullLine (limits.maxHeaderBytes - usedBytes)
    failIf (value.length + 2 > limits.maxHeaderBytes - usedBytes)
      ⟨.headerLimitExceeded, "HTTP headers exceed configured byte limit"⟩
    modify (store (usedBytes + (value.length + 2)) usedCount)
    if value.isEmpty then pure (headers, usedBytes + (value.length + 2), usedCount)
    else
      failIf (value.head? = some 32 ∨ value.head? = some 9)
        ⟨.invalidMessage, "obsolete folded HTTP headers are not allowed"⟩
      failIf (usedCount ≥ limits.maxHeaderCount)
        ⟨.headerLimitExceeded, "HTTP header count exceeds configured limit"⟩
      let header ← lift (parseHeaderLine value)
      modify (store (usedBytes + (value.length + 2)) (usedCount + 1))
      readHeadersLoop store steps (headers ++ [header]) (usedBytes + (value.length + 2))
        (usedCount + 1)

/-- `read_headers`: the headers, and the bytes and fields used so far. -/
def readHeaders (store : Nat → Nat → Http1Reader → Http1Reader) (usedBytes usedCount : Nat) :
    Read (HttpHeaders × Nat × Nat) := do
  let remaining ← gets fun r => r.conn.stream.length
  readHeadersLoop store (remaining + 1) [] usedBytes usedCount

/-! ## Heads -/

/-- `validate_limits`. -/
def HttpLimits.validate (limits : HttpLimits) : Except HttpError Unit :=
  if limits.maxStartLineBytes = 0 ∨ limits.maxHeaderBytes = 0 ∨ limits.maxHeaderCount = 0 ∨
      limits.maxBodyBytes = 0 then
    .error ⟨.invalidMessage, "all HTTP parsing limits must be greater than zero"⟩
  else .ok ()

/-- Set `state_`. -/
def setState (state : ReadState) : Read Unit := modify fun r => { r with state := state }

/-- `ensure_ready`. -/
def ensureReady : Read Unit := do
  let state ← gets Http1Reader.state
  failIf (state ≠ .ready)
    ⟨.invalidState, "the previous HTTP body must be finished before reading another head"⟩
  let limits ← gets Http1Reader.limits
  lift limits.validate
  setState .readingHead

/-- `begin_body`. -/
def beginBody (body : HttpBodyInfo) (usedHeaderBytes usedHeaderCount : Nat) : Read Unit := do
  modify fun r => { r with
    bodyInfo := body
    bodyRemaining := body.length
    bodyDecoded := 0
    usedHeaderBytes := usedHeaderBytes
    usedHeaderCount := usedHeaderCount
    bodyTrailers := [] }
  let limits ← gets Http1Reader.limits
  match body with
  | .none => setState .bodyComplete
  | .contentLength length =>
    if length > limits.maxBodyBytes then
      setState .failed
      fail ⟨.bodyLimitExceeded, "HTTP body exceeds configured limit"⟩
    else setState (if length = 0 then .bodyComplete else .fixedBody)
  | .chunked => setState .chunkSize
  | .closeDelimited => setState .closeDelimitedBody

/-- A request line: method, target, and the text of the version. -/
def parseRequestLine (line : Bytes) : Except HttpError (Bytes × Bytes × Bytes) :=
  match splitAt 32 line with
  | [method, target, version] =>
    if !validName method ∨ !validRequestTarget target then
      .error ⟨.invalidMessage, "HTTP request method or target is invalid"⟩
    else .ok (method, target, version)
  | _ => .error ⟨.invalidMessage, "HTTP request line must contain method target version"⟩

/-- `read_request_head`. -/
def readRequestHead : Read (Option HttpRequestHead) := do
  ensureReady
  let limits ← gets Http1Reader.limits
  let line ← readLine limits.maxStartLineBytes true
  match line with
  | none =>
    setState .ready
    pure none
  | some requestLine =>
    let (method, target, versionText) ← lift (parseRequestLine requestLine)
    modify fun r => { r with lastHeadMethod := method }
    let version ← lift (parseHttpVersion versionText)
    let (headers, usedBytes, usedCount) ← readHeaders (fun _ _ => id) 0 0
    (if version = .http11 then lift (checkHost headers) else pure ())
    failIf (version = .http10 ∧ headers.contains (ascii "Transfer-Encoding"))
      ⟨.invalidMessage, "HTTP/1.0 request cannot use Transfer-Encoding"⟩
    let framing ← lift (bodyFraming headers false)
    beginBody framing usedBytes usedCount
    pure (some ⟨method, target, version, headers⟩)

/-- A decimal digit character. -/
def isDigit (b : UInt8) : Bool := 48 ≤ b && b ≤ 57

/-- A status line: version, status and reason phrase. -/
def parseStatusLine (line : Bytes) : Except HttpError (HttpVersion × UInt16 × Bytes) :=
  match line.dropWhile (· != 32) with
  | _ :: a :: b :: c :: rest =>
    match parseHttpVersion (line.takeWhile (· != 32)) with
    | .error e => .error e
    | .ok version =>
      let status := ((a.toNat - 48) * 100 + (b.toNat - 48) * 10 + (c.toNat - 48)).toUInt16
      if ¬ (isDigit a ∧ isDigit b ∧ isDigit c) then
        .error ⟨.invalidMessage, "HTTP status code must contain three decimal digits"⟩
      else if rest ≠ [] ∧ rest.head? ≠ some 32 then
        .error ⟨.invalidMessage, "HTTP status code must be followed by SP"⟩
      else if status < 100 then
        .error ⟨.invalidMessage, "HTTP status code must be at least 100"⟩
      else if !validValue rest.tail then
        .error ⟨.invalidMessage, "HTTP reason phrase contains a forbidden byte"⟩
      else .ok (version, status, rest.tail)
  | _ => .error ⟨.invalidMessage, "HTTP status line is incomplete"⟩

/-- `read_response_head` after the status line and the headers. -/
def acceptResponseHead (requestMethod : Bytes) (response : HttpResponseHead)
    (usedBytes usedCount : Nat) : Read (Option HttpResponseHead) := do
  failIf (response.version = .http10 ∧ response.headers.contains (ascii "Transfer-Encoding"))
    ⟨.invalidMessage, "HTTP/1.0 response cannot use Transfer-Encoding"⟩
  failIf (statusForbidsFraming response.status ∧
      (response.headers.contains (ascii "Content-Length") ∨
        response.headers.contains (ascii "Transfer-Encoding")))
    ⟨.invalidMessage, "informational and 204 responses cannot contain body framing fields"⟩
  let framing ←
    (if statusForbidsBody response.status ∨ requestMethod = ascii "HEAD" ∨
        connectTunnel requestMethod response.status then pure HttpBodyInfo.none
    else lift (bodyFraming response.headers true))
  beginBody framing usedBytes usedCount
  pure (some response)

/-- `read_response_head`. -/
def readResponseHead (requestMethod : Bytes) : Read (Option HttpResponseHead) := do
  ensureReady
  let limits ← gets Http1Reader.limits
  let line ← readLine limits.maxStartLineBytes true
  match line with
  | none =>
    setState .ready
    pure none
  | some statusLine =>
    let (version, status, reason) ← lift (parseStatusLine statusLine)
    let (headers, usedBytes, usedCount) ← readHeaders (fun _ _ => id) 0 0
    acceptResponseHead requestMethod ⟨version, status, reason, headers⟩ usedBytes usedCount

/-! ## Bodies -/

/-- Copy out up to `count` buffered bytes and count them as decoded. -/
def takeDecoded (count : Nat) : Read Bytes := do
  let bytes ← takeBuffered count
  modify fun r => { r with bodyDecoded := r.bodyDecoded + bytes.length }
  pure bytes

/-- Data of known length: what `read_fixed_body_part` and the chunk data branch of
`read_chunked_body_part` share. After the last byte the state is `next`. -/
def readCounted (eof : String) (next : ReadState) (capacity : Nat) : Read Bytes := do
  let filled ← fillBuffer
  failIf (!filled) ⟨.invalidMessage, eof⟩
  let remaining ← gets Http1Reader.bodyRemaining
  let bytes ← takeDecoded (min capacity remaining)
  modify fun r => { r with
    bodyRemaining := r.bodyRemaining - bytes.length
    state := if r.bodyRemaining - bytes.length = 0 then next else r.state }
  pure bytes

/-- `read_fixed_body_part`. -/
def readFixedBodyPart : Nat → Read Bytes :=
  readCounted "unexpected EOF inside HTTP body" .bodyComplete

/-- The chunk data branch of `read_chunked_body_part`. -/
def readChunkData : Nat → Read Bytes :=
  readCounted "unexpected EOF inside HTTP chunk" .chunkDataEnding

/-- Store the counters of `read_headers` in the reader. -/
def storeUsed (usedBytes usedCount : Nat) (r : Http1Reader) : Http1Reader :=
  { r with usedHeaderBytes := usedBytes, usedHeaderCount := usedCount }

/-- The chunk size branch of `read_chunked_body_part`. -/
def readChunkSize : Read Unit := do
  let limits ← gets Http1Reader.limits
  let line ← readFullLine limits.maxStartLineBytes
  let size ← lift (parseChunkSize line)
  if size = 0 then
    let usedBytes ← gets Http1Reader.usedHeaderBytes
    let usedCount ← gets Http1Reader.usedHeaderCount
    let (trailers, _, _) ← readHeaders storeUsed usedBytes usedCount
    modify fun r => { r with bodyTrailers := trailers }
    lift (validateTrailers trailers)
    setState .bodyComplete
  else
    let decoded ← gets Http1Reader.bodyDecoded
    failIf (size > limits.maxBodyBytes - decoded)
      ⟨.bodyLimitExceeded, "chunked HTTP body exceeds configured limit"⟩
    modify fun r => { r with bodyRemaining := size, state := .chunkData }

/-- The branch of `read_chunked_body_part` after the data of a chunk. -/
def readChunkEnding : Read Unit := do
  let carriageReturn ← readByte
  let lineFeed ← readByte
  failIf (carriageReturn ≠ some 13 ∨ lineFeed ≠ some 10)
    ⟨.invalidMessage, "chunk data must be followed by CRLF"⟩
  setState .chunkSize

/-- The passes of `read_chunked_body_part`'s loop before it reaches chunk data or the end. -/
def readChunkPrefix : Read Unit := do
  let state ← gets Http1Reader.state
  (if state = .chunkDataEnding then readChunkEnding else pure ())
  if state = .chunkData then pure () else readChunkSize

/-- `read_chunked_body_part`. -/
def readChunkedBodyPart (capacity : Nat) : Read Bytes := do
  readChunkPrefix
  let state ← gets Http1Reader.state
  if state = .chunkData then readChunkData capacity else pure []

/-- `read_close_delimited_body_part`. -/
def readCloseDelimitedBodyPart (capacity : Nat) : Read Bytes := do
  let filled ← fillBuffer
  if !filled then
    setState .bodyComplete
    pure []
  else
    let limits ← gets Http1Reader.limits
    let count ← gets fun r => min capacity r.conn.buffered.length
    let decoded ← gets Http1Reader.bodyDecoded
    failIf (count > limits.maxBodyBytes - decoded)
      ⟨.bodyLimitExceeded, "close-delimited HTTP body exceeds configured limit"⟩
    takeDecoded count

/-- The states in which there is no body to read. -/
def ReadState.noBody (state : ReadState) : Bool :=
  state == .ready || state == .readingHead || state == .failed

/-- `read_body`. -/
def readBody (capacity : Nat) : Read Bytes := do
  let state ← gets Http1Reader.state
  failIf state.noBody ⟨.invalidState, "there is no readable HTTP body"⟩
  if state = .bodyComplete ∨ capacity = 0 then pure []
  else
    onError (fun r => { r with state := .failed }) <|
      if state = .fixedBody then readFixedBodyPart capacity
      else if state = .closeDelimitedBody then readCloseDelimitedBodyPart capacity
      else readChunkedBodyPart capacity

/-- `body_finished`. -/
def Http1Reader.bodyFinished (r : Http1Reader) : Bool := r.state == .bodyComplete

/-- `finish_body`. -/
def finishBody : Read HttpHeaders := do
  let state ← gets Http1Reader.state
  failIf (state ≠ .bodyComplete)
    ⟨.invalidState, "HTTP body has not reached its message boundary"⟩
  let trailers ← gets Http1Reader.bodyTrailers
  modify fun r => { r with
    bodyTrailers := []
    bodyInfo := .none
    bodyRemaining := 0
    bodyDecoded := 0
    usedHeaderBytes := 0
    usedHeaderCount := 0
    state := .ready }
  pure trailers

/-- `while (!body_finished()) read_body(…)` with the given capacities, one for each pass. -/
def readBodies : List Nat → Read Bytes
  | [] => pure []
  | capacity :: capacities => do
    let finished ← gets Http1Reader.bodyFinished
    if finished then pure []
    else
      let part ← readBody capacity
      let rest ← readBodies capacities
      pure (part ++ rest)

/-- The same loop with buffers of 8192 bytes, until the body is finished. -/
def drainBody : Read Bytes := do
  let remaining ← gets fun r => r.conn.stream.length
  readBodies (List.replicate (remaining + 1) 8192)

/-- `discard_body`. -/
def discardBody : Read HttpHeaders := do
  let state ← gets Http1Reader.state
  failIf state.noBody ⟨.invalidState, "there is no discardable HTTP body"⟩
  let _ ← drainBody
  finishBody

/-- `read_body_all`. -/
def readBodyAll : Read (Bytes × HttpHeaders) := do
  let body ← drainBody
  let trailers ← finishBody
  pure (body, trailers)

/-! ## Messages -/

/-- `read_request`. -/
def readRequest : Read (Option HttpRequest) := do
  let head ← readRequestHead
  match head with
  | none => pure none
  | some head =>
    let (body, trailers) ← readBodyAll
    pure (some { head with body := body, trailers := trailers })

/-- `read_response`. -/
def readResponse (requestMethod : Bytes) : Read (Option HttpResponse) := do
  let head ← readResponseHead requestMethod
  match head with
  | none => pure none
  | some head =>
    let (body, trailers) ← readBodyAll
    pure (some { head with body := body, trailers := trailers })

/-- The results of up to `count` calls of `read_request`, to the first that returns an error or
end of stream. -/
def readRequests : Nat → Http1Reader → List (Except HttpError (Option HttpRequest))
  | 0, _ => []
  | count + 1, r =>
    match readRequest r with
    | (.ok (some request), r') => .ok (some request) :: readRequests count r'
    | (result, _) => [result]

/-- The results of calls of `read_response` with the given methods, to the first that returns an
error or end of stream. -/
def readResponses : List Bytes → Http1Reader → List (Except HttpError (Option HttpResponse))
  | [], _ => []
  | method :: methods, r =>
    match readResponse method r with
    | (.ok (some response), r') => .ok (some response) :: readResponses methods r'
    | (result, _) => [result]

end Libca.Http
