import Libca.Http.Http1Reader
import Libca.Http.Http1Writer

/-!
# The HTTP client

Model of `HttpClient::Impl` (`http/client.cpp`): `connect` and `request`. What the connection pool
and the network will answer is part of the state, and so is what a server does, in the reads and
writes of a connection. A client also keeps what it did with its connections.

* A connection is never used after an error of a read or a write, so that it knows the kind of only
  one error of each; `HttpError` has the rest.
* Time is left out: a deadline that ends is an error of a read or a write.
-/

namespace Libca.Http

open Common Fallible

/-- `io::IoErrorKind`. -/
inductive IoErrorKind
  | notFound
  | permissionDenied
  | connectionRefused
  | connectionReset
  | connectionAborted
  | notConnected
  | addrInUse
  | addrNotAvailable
  | brokenPipe
  | alreadyExists
  | wouldBlock
  | invalidInput
  | invalidData
  | timedOut
  | writeZero
  | interrupted
  | unexpectedEof
  | outOfMemory
  | unsupported
  | other
  deriving DecidableEq, Repr

/-- `HttpScheme`. -/
inductive HttpScheme
  | http
  | https
  deriving DecidableEq, Repr

/-- What the client takes from a URL. -/
structure RequestUrl where
  scheme : HttpScheme
  host : Bytes
  port : UInt16
  authority : Bytes
  target : Bytes

/-- A transport just connected: its name, what its reads return and how its writes end. -/
structure Transport where
  id : Nat
  reads : List ReadEvent
  writes : List (Option Nat) := []
  readErrorKind : IoErrorKind := .other
  writeErrorKind : IoErrorKind := .other

/-- `detail::ClientConnection`. -/
structure ClientConnection where
  id : Nat
  scheme : HttpScheme
  host : Bytes
  port : UInt16
  codecReader : Http1Reader
  codecWriter : Http1Writer
  readErrorKind : IoErrorKind
  writeErrorKind : IoErrorKind

/-- What is done with connections: one is obtained or dropped, the client starts to write a request,
or a call of the reader received bytes from the transport. -/
inductive ClientEvent
  | obtained (id : Nat)
  | dropped (id : Nat)
  | writing (id : Nat)
  | received (id count : Nat)
  deriving DecidableEq

/-- `HttpClientOptions`, and whether the build has the TLS transport. -/
structure ClientOptions where
  limits : HttpLimits
  maxInformationalResponses : Nat := 8
  pool : Bool := false
  tlsClientAvailable : Bool := true

/-- `HttpClient::Impl`: the answers of the pool and of the network that are to come, and what was
done. -/
structure HttpClient where
  options : ClientOptions
  connection : Option ClientConnection
  checkouts : List (Option ClientConnection) := []
  connects : List (Except HttpError Transport) := []
  events : List ClientEvent := []

/-- A member function of the client. -/
abbrev Client (α : Type) := Fallible HttpClient HttpError α

/-! ## Predicates -/

/-- `is_informational`. -/
def isInformational (status : UInt16) : Bool := 100 ≤ status && status < 200

/-- `is_idempotent_method`. -/
def isIdempotentMethod (method : Bytes) : Bool :=
  method == ascii "GET" || method == ascii "HEAD" || method == ascii "PUT" ||
    method == ascii "DELETE" ||
    method == ascii "OPTIONS" || method == ascii "TRACE"

/-- `is_reset_error` of an error that has an `IoError` of the given kind when its own kind is `Io`.
-/
def isResetError (kind : IoErrorKind) (error : HttpError) : Bool :=
  error.kind == .io && (kind == .connectionReset || kind == .connectionAborted ||
    kind == .brokenPipe)

/-- `contains_connection_token`. -/
def containsConnectionToken (headers : HttpHeaders) (expected : Bytes) : Bool :=
  (tokens (headers.getAll (ascii "Connection"))).any fun token => asciiEquals token expected

/-- `should_keep_alive`. -/
def shouldKeepAlive (version : HttpVersion) (headers : HttpHeaders) : Bool :=
  if containsConnectionToken headers (ascii "close") then false
  else if version = .http11 then true
  else containsConnectionToken headers (ascii "keep-alive")

/-- `same_origin`. -/
def HttpClient.sameOrigin (client : HttpClient) (url : RequestUrl) : Bool :=
  match client.connection with
  | none => false
  | some c => c.scheme == url.scheme && c.port == url.port && asciiEquals c.host url.host

/-! ## Connections -/

/-- `connection.reset()`. -/
def resetConnection : Client Unit := modify fun client =>
  match client.connection with
  | none => client
  | some c => { client with connection := none, events := client.events ++ [.dropped c.id] }

/-- `fail`. -/
def failWith {α : Type} (error : HttpError) : Client α := do
  resetConnection
  fail error

/-- Keep a connection that was obtained. -/
def keepConnection (c : ClientConnection) : Client Unit := modify fun client =>
  { client with connection := some c, events := client.events ++ [.obtained c.id] }

/-- `detail::pool_checkout`. -/
def poolCheckout : Client (Option ClientConnection) := fun client =>
  match client.checkouts with
  | [] => (.ok none, client)
  | pooled :: checkouts => (.ok pooled, { client with checkouts := checkouts })

/-- `TcpStream::connect_timeout`, `set_nodelay` and `make_tls_client_transport`. -/
def connectTransport : Client Transport := fun client =>
  match client.connects with
  | [] => (.error ⟨.io, "connect HTTP origin"⟩, client)
  | connected :: connects => (connected, { client with connects := connects })

/-- The connection on a new transport. -/
def Transport.connection (t : Transport) (url : RequestUrl) (limits : HttpLimits) :
    ClientConnection where
  id := t.id
  scheme := url.scheme
  host := url.host
  port := url.port
  codecReader := .fresh limits t.reads
  codecWriter := { faults := t.writes }
  readErrorKind := t.readErrorKind
  writeErrorKind := t.writeErrorKind

/-- The part of `connect` after the old connection was dropped. -/
def obtainConnection (url : RequestUrl) : Client Unit := do
  let options ← gets HttpClient.options
  let pooled ← (if options.pool then poolCheckout else pure none)
  match pooled with
  | some c => keepConnection c
  | none => do
    let transport ← connectTransport
    keepConnection (transport.connection url options.limits)

/-- `connect`. -/
def connect (url : RequestUrl) : Client Unit := do
  let client ← getState
  failIf (url.scheme = .https ∧ client.options.tlsClientAvailable = false)
    ⟨.unsupported, "https requires the optional TLS transport"⟩
  if client.sameOrigin url then pure ()
  else do
    resetConnection
    obtainConnection url

/-! ## Messages on a connection -/

/-- How many bytes the transport gave between two states of a reader. -/
def arrived (before after : Conn) : Nat :=
  (before.pending.flatMap ReadEvent.bytes).length - (after.pending.flatMap ReadEvent.bytes).length

/-- There is a connection wherever the client uses one. -/
def noConnection : HttpError := ⟨.invalidState, "no connection"⟩

/-- A call of `connection->codec_reader`: its result and the connection after it. -/
def withReader {α : Type} (call : Read α) : Client (Except HttpError α) := fun client =>
  match client.connection with
  | none => (.error noConnection, client)
  | some c =>
    (.ok (call c.codecReader).1,
      { client with
        connection := some { c with codecReader := (call c.codecReader).2 }
        events := client.events ++
          [.received c.id (arrived c.codecReader.conn (call c.codecReader).2.conn)] })

/-- `connection->codec_writer.write_request`. -/
def withWriter (call : Write Unit) : Client (Except HttpError Unit) := fun client =>
  match client.connection with
  | none => (.error noConnection, client)
  | some c =>
    (.ok (call c.codecWriter).1,
      { client with
        connection := some { c with codecWriter := (call c.codecWriter).2 }
        events := client.events ++ [.writing c.id] })

/-- `return fail(…)` when a result is an error. -/
def orFail {α : Type} (result : Except HttpError α) : Client α :=
  match result with
  | .ok a => pure a
  | .error e => failWith e

/-- The variables that one pass of the retry loop sets. -/
structure Attempt where
  staleClose : Bool
  staleResetError : Option HttpError := none
  informationalCount : Nat := 0
  head : HttpResponseHead := {}

/-- What `is_reset_error` sees of an error of the reader. -/
def readResets (error : HttpError) (client : HttpClient) : Bool :=
  (client.connection.map fun c => isResetError c.readErrorKind error).getD false

/-- What `is_reset_error` sees of an error of the writer. -/
def writeResets (error : HttpError) (client : HttpClient) : Bool :=
  (client.connection.map fun c => isResetError c.writeErrorKind error).getD false

/-- The loop over the heads of informational responses and of the final one. -/
def readHeads (method : Bytes) (maxInformational informationalCount : Nat) : Client Attempt := do
  let received ← withReader (readResponseHead method)
  match received with
  | .error e =>
    let resets ← gets (readResets e)
    if resets then
      pure { staleClose := true, staleResetError := some e, informationalCount :=
        informationalCount }
    else failWith e
  | .ok none => pure { staleClose := true, informationalCount := informationalCount }
  | .ok (some head) =>
    if !isInformational head.status then
      pure { staleClose := false, informationalCount := informationalCount, head := head }
    else
      let finished ← withReader finishBody
      let _ ← orFail finished
      if head.status = 101 then failWith ⟨.unsupported, "HTTP protocol upgrades are not supported"⟩
      else if _h : maxInformational < informationalCount + 1 then
        failWith ⟨.invalidMessage, "HTTP response contains too many informational responses"⟩
      else readHeads method maxInformational (informationalCount + 1)
termination_by maxInformational - informationalCount

/-- One pass of the retry loop: the request is written, and the head of its response is read. -/
def attemptRequest (request : HttpRequest) : Client Attempt := do
  let options ← gets HttpClient.options
  let written ← withWriter (writeRequest request)
  match written with
  | .error e =>
    let resets ← gets (writeResets e)
    if resets then pure { staleClose := true, staleResetError := some e }
    else failWith e
  | .ok () => readHeads request.method options.maxInformationalResponses 0

/-- `retryable`. -/
def Attempt.retryable (outcome : Attempt) (reused : Bool) (attempt : Nat) (method : Bytes) : Bool :=
  outcome.staleClose && outcome.informationalCount == 0 && reused && attempt == 0 &&
    isIdempotentMethod method

/-- The retry loop. -/
def retryLoop (url : RequestUrl) (reused : Bool) (request : HttpRequest) (attempt : Nat) :
    Client Attempt := do
  let outcome ← attemptRequest request
  if _h : attempt = 0 ∧ outcome.retryable reused attempt request.method = true then do
    resetConnection
    connect url
    retryLoop url reused request (attempt + 1)
  else pure outcome
termination_by 1 - attempt

/-- The body of the response, and what becomes of the connection. -/
def readRest (request : HttpRequest) (head : HttpResponseHead) : Client HttpResponse := do
  let client ← getState
  let bodyInfo := (client.connection.map fun c => c.codecReader.bodyInfo).getD .none
  let body ← orFail (← withReader drainBody)
  let trailers ← orFail (← withReader finishBody)
  let reusable := bodyInfo ≠ .closeDelimited ∧ !connectTunnel request.method head.status ∧
    shouldKeepAlive request.version request.headers ∧ shouldKeepAlive head.version head.headers
  (if ¬ reusable then resetConnection
    else if client.options.pool then modify fun client => { client with connection := none }
    else pure ())
  pure { head with body := body, trailers := trailers }

/-- The request that is sent: `target` and `Host` come from the URL. -/
def prepare (url : RequestUrl) (request : HttpRequest) : Except HttpError HttpRequest :=
  (HttpHeaders.set request.headers (ascii "Host") url.authority).map fun headers =>
    { request with target := url.target, headers := headers }

/-- `request`. -/
def sendRequest (url : RequestUrl) (request : HttpRequest) : Client HttpResponse := do
  let reused ← gets fun client => client.sameOrigin url
  connect url
  let request ← orFail (prepare url request)
  let outcome ← retryLoop url reused request 0
  if outcome.staleClose then
    match outcome.staleResetError with
    | some original =>
      failWith ⟨.invalidMessage, "HTTP connection closed before response head: " ++
        original.message⟩
    | none => failWith ⟨.invalidMessage, "HTTP connection closed before response head"⟩
  else readRest request outcome.head

end Libca.Http
