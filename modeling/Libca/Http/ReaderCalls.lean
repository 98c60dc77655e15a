import Libca.Http.Http1Reader

/-!
# Calls of a reader (`http/http1_codec.cpp`)

The owner of an `Http1Reader` calls its member functions in any order. `ReaderCall` lists them and
`runCalls` runs a sequence of them; a call that fails leaves the reader in the state it failed in.

* `keeps_readLine`, `triple_readHeaders_used`: reading bytes keeps what does not depend on the
  connection, and `read_headers` counts no more bytes and fields than the limits allow.
* `HeadRule`: what is to be shown once for both heads.
-/

namespace Libca.Http

open Common Fallible

/-- A call of a member function. `readBodyNull` is `read_body` with a null output pointer, and
`readBodyAll` the private function that `read_request` and `read_response` end with. -/
inductive ReaderCall
  | readRequestHead
  | readResponseHead (requestMethod : Bytes)
  | readBody (capacity : Nat)
  | readBodyNull (capacity : Nat)
  | finishBody
  | discardBody
  | readBodyAll
  | readRequest
  | readResponse (requestMethod : Bytes)
  deriving DecidableEq

/-- What a call returns. -/
inductive ReaderReply
  | requestHead (head : Option HttpRequestHead)
  | responseHead (head : Option HttpResponseHead)
  | body (bytes : Bytes)
  | trailers (headers : HttpHeaders)
  | wholeBody (bytes : Bytes) (trailers : HttpHeaders)
  | request (request : Option HttpRequest)
  | response (response : Option HttpResponse)

/-- `read_body` with a null output pointer. -/
def readBodyNull (capacity : Nat) : Read Bytes := do
  let state ← gets Http1Reader.state
  failIf state.noBody ⟨.invalidState, "there is no readable HTTP body"⟩
  if state = .bodyComplete ∨ capacity = 0 then pure []
  else fail ⟨.invalidState, "HTTP body output buffer is null"⟩

/-- Run a call. -/
def ReaderCall.run : ReaderCall → Read ReaderReply
  | .readRequestHead => do pure (.requestHead (← Http.readRequestHead))
  | .readResponseHead requestMethod => do
    pure (.responseHead (← Http.readResponseHead requestMethod))
  | .readBody capacity => do pure (.body (← Http.readBody capacity))
  | .readBodyNull capacity => do pure (.body (← Http.readBodyNull capacity))
  | .finishBody => do pure (.trailers (← Http.finishBody))
  | .discardBody => do pure (.trailers (← Http.discardBody))
  | .readBodyAll => do
    let (bytes, trailers) ← Http.readBodyAll
    pure (.wholeBody bytes trailers)
  | .readRequest => do pure (.request (← Http.readRequest))
  | .readResponse requestMethod => do pure (.response (← Http.readResponse requestMethod))

/-- The reader after a sequence of calls. -/
def runCalls (calls : List ReaderCall) (r : Http1Reader) : Http1Reader :=
  calls.foldl (fun r call => (call.run r).2) r

/-- **What every call keeps, a run keeps.** -/
theorem runCalls_keeps {P : Http1Reader → Prop} (hcall : ∀ call : ReaderCall, Keeps P call.run)
    (calls : List ReaderCall) {r : Http1Reader} (hr : P r) : P (runCalls calls r) := by
  induction calls generalizing r with
  | nil => exact hr
  | cons call calls ih => exact ih ((hcall call).state hr)

/-! ## Bytes and lines -/

section Conn

variable {P : Http1Reader → Prop} (hP : ∀ r c, P r → P (r.withConn c))
include hP

theorem keeps_fillBuffer : Keeps P fillBuffer := by
  refine keeps_of_state fun r hr => ?_
  unfold fillBuffer
  split_ifs
  · exact hP r _ hr
  · exact hr

theorem keeps_takeBuffered (count : Nat) : Keeps P (takeBuffered count) :=
  keeps_of_state fun r hr => hP r _ hr

theorem keeps_readByte : Keeps P readByte := by
  refine keeps_bind (keeps_fillBuffer hP) fun filled => ?_
  refine keeps_ite (fun _ => ?_) fun _ => keeps_pure _
  exact keeps_bind (keeps_takeBuffered hP 1) fun bytes => keeps_pure _

theorem keeps_readLineLoop (limit : Nat) (allowCleanEof : Bool) (steps : Nat) (line : Bytes)
    (sawCarriageReturn sawAnyByte : Bool) :
    Keeps P (readLineLoop limit allowCleanEof steps line sawCarriageReturn sawAnyByte) := by
  induction steps generalizing line sawCarriageReturn sawAnyByte with
  | zero => exact keeps_fail _
  | succ steps ih =>
    unfold readLineLoop
    refine keeps_bind (keeps_readByte hP) fun next => ?_
    cases next with
    | none => exact keeps_ite (fun _ => keeps_pure _) fun _ => keeps_fail _
    | some value =>
      refine keeps_ite (fun _ => ?_) fun _ => ?_
      · exact keeps_ite (fun _ => keeps_fail _) fun _ => keeps_pure _
      · refine keeps_ite (fun _ => ih _ _ _) fun _ => ?_
        refine keeps_ite (fun _ => keeps_fail _) fun _ => ?_
        exact keeps_ite (fun _ => keeps_fail _) fun _ => ih _ _ _

theorem keeps_readLine (limit : Nat) (allowCleanEof : Bool) :
    Keeps P (readLine limit allowCleanEof) :=
  keeps_bind (keeps_gets _) fun _ => keeps_readLineLoop hP _ _ _ _ _ _

theorem keeps_readFullLine (limit : Nat) : Keeps P (readFullLine limit) :=
  keeps_bind (keeps_readLine hP limit false) fun _ => keeps_pure _

/-! ## Headers -/

variable {limits : HttpLimits} (hlimits : ∀ r, P r → r.limits = limits)
  {store : Nat → Nat → Http1Reader → Http1Reader}
  (hstore : ∀ bytes count r, bytes ≤ limits.maxHeaderBytes → count ≤ limits.maxHeaderCount →
    P r → P (store bytes count r))
include hlimits hstore

/-- What `read_headers` ends with: counts within the limits. -/
theorem triple_readHeadersLoop_used (steps : Nat) (headers : HttpHeaders)
    {usedBytes usedCount : Nat} (hcount : usedCount ≤ limits.maxHeaderCount) :
    Triple P (readHeadersLoop store steps headers usedBytes usedCount)
      (fun out r => P r ∧ out.2.1 ≤ limits.maxHeaderBytes ∧ out.2.2 ≤ limits.maxHeaderCount)
      fun _ => P := by
  induction steps generalizing headers usedBytes usedCount with
  | zero => exact triple_fail fun r hr => hr
  | succ steps ih =>
    unfold readHeadersLoop
    refine triple_bind (S := fun l r => l = limits ∧ P r)
      (triple_gets fun r hr => ⟨hlimits r hr, hr⟩) fun l r ⟨hl, hr⟩ => ?_
    subst hl
    refine triple_bind (P := P) (S := fun _ => P) (keeps_failIf _ _) (fun _ => ?_) r hr
    refine triple_bind (S := fun _ => P) (keeps_readFullLine hP _) fun value => ?_
    by_cases hroom : value.length + 2 > l.maxHeaderBytes - usedBytes
    · rw [failIf_pos hroom]
      exact fun r hr => hr
    rw [failIf_neg hroom]
    have hbytes : usedBytes + (value.length + 2) ≤ l.maxHeaderBytes := by omega
    refine triple_bind (S := fun _ => P) (keeps_pure _) fun _ => ?_
    refine triple_bind (S := fun _ => P)
      (keeps_modify fun r hr => hstore _ _ r hbytes hcount hr) fun _ => ?_
    refine triple_ite (fun _ => triple_pure fun r hr => ⟨hr, hbytes, hcount⟩) fun _ => ?_
    refine triple_bind (S := fun _ => P) (keeps_failIf _ _) fun _ => ?_
    by_cases hfull : usedCount ≥ l.maxHeaderCount
    · rw [failIf_pos hfull]
      exact fun r hr => hr
    rw [failIf_neg hfull]
    have hcount' : usedCount + 1 ≤ l.maxHeaderCount := by omega
    refine triple_bind (S := fun _ => P) (keeps_pure _) fun _ => ?_
    refine triple_bind (S := fun _ => P) (keeps_lift _) fun header => ?_
    refine triple_bind (S := fun _ => P)
      (keeps_modify fun r hr => hstore _ _ r hbytes hcount' hr) fun _ => ?_
    exact ih _ hcount'

/-- **`read_headers` stays within the limits.** -/
theorem triple_readHeaders_used (usedBytes : Nat) {usedCount : Nat}
    (hcount : usedCount ≤ limits.maxHeaderCount) :
    Triple P (readHeaders store usedBytes usedCount)
      (fun out r => P r ∧ out.2.1 ≤ limits.maxHeaderBytes ∧ out.2.2 ≤ limits.maxHeaderCount)
      fun _ => P :=
  triple_bind (S := fun _ => P) (keeps_gets _) fun _ =>
    triple_readHeadersLoop_used hP hlimits hstore _ _ hcount

end Conn

/-! ## Heads -/

/-- What the two heads have in common: `P₀` holds before, `P` in state `ReadingHead`, and `Q` or `E`
after. `read_request_head` and `read_response_head` differ in what is between. -/
structure HeadRule (limits : HttpLimits) (P₀ P Q : Http1Reader → Prop)
    (E : HttpError → Http1Reader → Prop) : Prop where
  ready : Triple P₀ ensureReady (fun _ => P) E
  conn : ∀ r c, P r → P (r.withConn c)
  sameLimits : ∀ r, P r → r.limits = limits
  method : ∀ r method, P r → P { r with lastHeadMethod := method }
  begin : ∀ body usedBytes usedCount, usedBytes ≤ limits.maxHeaderBytes →
    usedCount ≤ limits.maxHeaderCount → Triple P (beginBody body usedBytes usedCount) (fun _ => Q) E
  eof : ∀ r, P r → Q { r with state := .ready }
  error : ∀ e r, P r → E e r

section HeadRule

variable {limits : HttpLimits} {P₀ P Q : Http1Reader → Prop}
  {E : HttpError → Http1Reader → Prop}

/-- What keeps `P` meets the error postcondition. -/
theorem HeadRule.triple (h : HeadRule limits P₀ P Q E) {α : Type} {x : Read α} (hx : Keeps P x) :
    Triple P x (fun _ => P) E :=
  Triple.mono hx (fun _ hr => hr) (fun _ _ hr => hr) h.error

theorem HeadRule.readHeaders (h : HeadRule limits P₀ P Q E) :
    Triple P (readHeaders (fun _ _ => id) 0 0)
      (fun out r => P r ∧ out.2.1 ≤ limits.maxHeaderBytes ∧ out.2.2 ≤ limits.maxHeaderCount) E :=
  Triple.mono (triple_readHeaders_used h.conn h.sameLimits (fun _ _ _ _ _ hr => hr) 0
    (Nat.zero_le _))
    (fun _ hr => hr) (fun _ _ hr => hr) h.error

theorem HeadRule.readRequestHead (h : HeadRule limits P₀ P Q E) :
    Triple P₀ readRequestHead (fun _ => Q) E := by
  refine triple_bind h.ready fun _ => ?_
  refine triple_bind (h.triple (keeps_gets _)) fun l => ?_
  refine triple_bind (h.triple (keeps_readLine h.conn _ _)) fun line => ?_
  cases line with
  | none =>
    exact triple_bind (S := fun _ => Q) (triple_modify h.eof) fun _ => triple_pure fun _ hr => hr
  | some requestLine =>
    refine triple_bind (h.triple (keeps_lift _)) fun ⟨method, target, versionText⟩ => ?_
    refine triple_bind (h.triple (keeps_modify fun r hr => h.method r method hr)) fun _ => ?_
    refine triple_bind (h.triple (keeps_lift _)) fun version => ?_
    refine triple_bind h.readHeaders fun ⟨headers, usedBytes, usedCount⟩ r ⟨hr, hbytes, hcount⟩ =>
      ?_
    refine triple_bind (P := P) (S := fun _ => P)
      (triple_ite (fun _ => h.triple (keeps_lift _)) fun _ => h.triple (keeps_pure _))
      (fun _ => ?_) r hr
    refine triple_bind (h.triple (keeps_failIf _ _)) fun _ => ?_
    refine triple_bind (h.triple (keeps_lift _)) fun framing => ?_
    exact triple_bind (h.begin framing usedBytes usedCount hbytes hcount) fun _ =>
      triple_pure fun _ hr => hr

theorem HeadRule.readResponseHead (h : HeadRule limits P₀ P Q E) (requestMethod : Bytes) :
    Triple P₀ (readResponseHead requestMethod) (fun _ => Q) E := by
  refine triple_bind h.ready fun _ => ?_
  refine triple_bind (h.triple (keeps_gets _)) fun l => ?_
  refine triple_bind (h.triple (keeps_readLine h.conn _ _)) fun line => ?_
  cases line with
  | none =>
    exact triple_bind (S := fun _ => Q) (triple_modify h.eof) fun _ => triple_pure fun _ hr => hr
  | some statusLine =>
    refine triple_bind (h.triple (keeps_lift _)) fun ⟨version, status, reason⟩ => ?_
    refine triple_bind h.readHeaders fun ⟨headers, usedBytes, usedCount⟩ r ⟨hr, hbytes, hcount⟩ =>
      ?_
    unfold acceptResponseHead
    refine triple_bind (P := P) (S := fun _ => P) (h.triple (keeps_failIf _ _)) (fun _ => ?_) r hr
    refine triple_bind (h.triple (keeps_failIf _ _)) fun _ => ?_
    refine triple_bind (S := fun _ => P) ?_ fun framing => ?_
    · exact triple_ite (fun _ => h.triple (keeps_pure _)) fun _ => h.triple (keeps_lift _)
    · exact triple_bind (h.begin framing usedBytes usedCount hbytes hcount) fun _ =>
        triple_pure fun _ hr => hr

end HeadRule

end Libca.Http
