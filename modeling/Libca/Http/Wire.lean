import Libca.Http.Fragmentation
import Libca.Http.Http1Writer

/-!
# What the reader makes of written bytes (`http/http1_codec.cpp`)

`Reads x r stream a r' stream'`: from any clean delivery of `stream`, `x` returns `a` and leaves
`stream'`; beside the connection the reader goes from `r` to `r'`. `reads_bind` composes such facts
along a program.

* `reads_readHeaders`: written header lines are read back trimmed.
* `reads_readBodyAll`: a written body, with its trailers, is read back under the framing it was
  written with.
-/

namespace Libca.Http

open Common Fallible

/-- From any clean delivery of `stream`, `x` returns `a` and leaves `stream'`. -/
def Reads {α : Type} (x : Read α) (r : Http1Reader) (stream : Bytes) (a : α) (r' : Http1Reader)
    (stream' : Bytes) : Prop :=
  ∀ c : Conn, c.Clean → c.stream = stream →
    ∃ c' : Conn, c'.Clean ∧ c'.stream = stream' ∧ x (r.withConn c) = (.ok a, r'.withConn c')

section Reads

variable {α β : Type} {r r' r'' : Http1Reader} {s s' s'' : Bytes}

theorem reads_pure (a : α) : Reads (pure a) r s a r s :=
  fun c hc hs => ⟨c, hc, hs, rfl⟩

variable {x : Read α} {a : α}

/-- **The rule of sequencing.** -/
theorem reads_bind {f : α → Read β} {b : β} (hx : Reads x r s a r' s')
    (hf : Reads (f a) r' s' b r'' s'') : Reads (x >>= f) r s b r'' s'' := by
  intro c hc hs
  obtain ⟨c', hc', hs', hrun⟩ := hx c hc hs
  obtain ⟨c'', hc'', hs'', hrun'⟩ := hf c' hc' hs'
  exact ⟨c'', hc'', hs'', by rw [bind_ok hrun, hrun']⟩

theorem reads_gets {f : Http1Reader → α} (hf : ∀ c, f (r.withConn c) = f r) :
    Reads (gets f) r s (f r) r s :=
  fun c hc hs => ⟨c, hc, hs, by rw [gets_apply, hf]⟩

theorem reads_left : Reads (gets fun r => r.conn.stream.length) r s s.length r s :=
  fun c hc hs => ⟨c, hc, hs, by rw [gets_apply, Http1Reader.withConn_conn, hs]⟩

theorem reads_modify {f : Http1Reader → Http1Reader}
    (hf : ∀ c, f (r.withConn c) = (f r).withConn c) : Reads (modify f) r s () (f r) s :=
  fun c hc hs => ⟨c, hc, hs, by rw [modify_apply, hf]⟩

theorem reads_lift {result : Except HttpError α} (h : result = .ok a) :
    Reads (lift result) r s a r s :=
  fun c hc hs => ⟨c, hc, hs, by rw [lift_apply, h]⟩

theorem reads_failIf {c : Prop} [Decidable c] {e : HttpError} (h : ¬ c) :
    Reads (failIf c e) r s () r s := by
  rw [failIf_neg h]
  exact reads_pure ()

theorem reads_setState (state : ReadState) :
    Reads (setState state) r s () { r with state := state } s :=
  reads_modify fun _ => rfl

/-- From any clean delivery of `stream`, `x` goes on as `y` does from a delivery of `stream'`. -/
def Becomes (x : Read α) (r : Http1Reader) (stream : Bytes) (y : Read α) (r' : Http1Reader)
    (stream' : Bytes) : Prop :=
  ∀ c : Conn, c.Clean → c.stream = stream →
    ∃ c' : Conn, c'.Clean ∧ c'.stream = stream' ∧ x (r.withConn c) = y (r'.withConn c')

theorem becomes_refl (x : Read α) : Becomes x r s x r s := fun c hc hs => ⟨c, hc, hs, rfl⟩

theorem becomes_bind {f : α → Read β} {y : Read β} (hx : Reads x r s a r' s')
    (hf : Becomes (f a) r' s' y r'' s'') : Becomes (x >>= f) r s y r'' s'' := by
  intro c hc hs
  obtain ⟨c', hc', hs', hrun⟩ := hx c hc hs
  obtain ⟨c'', hc'', hs'', heq⟩ := hf c' hc' hs'
  exact ⟨c'', hc'', hs'', by rw [bind_ok hrun, heq]⟩

theorem Becomes.reads {y : Read α} (h : Becomes x r s y r' s')
    (hy : Reads y r' s' a r'' s'') : Reads x r s a r'' s'' := by
  intro c hc hs
  obtain ⟨c', hc', hs', heq⟩ := h c hc hs
  obtain ⟨c'', hc'', hs'', hrun⟩ := hy c' hc' hs'
  exact ⟨c'', hc'', hs'', heq.trans hrun⟩

theorem reads_readByte (b : UInt8) : Reads readByte r (b :: s) (some b) r s := by
  intro c hc hs
  obtain ⟨c', hread, hc', hs'⟩ := readByte_clean (show (r.withConn c).conn.Clean from hc)
  rw [Http1Reader.withConn_conn, hs] at hread hs'
  exact ⟨c', hc', hs', hread⟩

theorem reads_readByte_atEnd : Reads readByte r [] none r [] := by
  intro c hc hs
  obtain ⟨c', hread, hc', hs'⟩ := readByte_clean (show (r.withConn c).conn.Clean from hc)
  rw [Http1Reader.withConn_conn, hs] at hread hs'
  exact ⟨c', hc', hs', hread⟩

end Reads

/-! ## Lines -/

/-- A text that is one line. -/
def IsLine (text : Bytes) : Prop := ∀ b ∈ text, b ≠ 13 ∧ b ≠ 10

instance : DecidablePred IsLine :=
  fun text => inferInstanceAs (Decidable (∀ b ∈ text, b ≠ 13 ∧ b ≠ 10))

variable {text : Bytes}

theorem isLine_append {text' : Bytes} (h : IsLine text) (h' : IsLine text') :
    IsLine (text ++ text') := by
  intro b hb
  rcases List.mem_append.mp hb with hb | hb
  · exact h b hb
  · exact h' b hb

theorem isLine_of_validValue {value : Bytes} (h : validValue value = true) : IsLine value := by
  intro b hb
  have hvalid := validValue_iff.mp h b hb
  exact ⟨isValueByte_ne hvalid (by decide), isValueByte_ne hvalid (by decide)⟩

theorem isLine_of_validName {name : Bytes} (h : validName name = true) : IsLine name := by
  intro b hb
  have hvalid := (validName_iff.mp h).2 b hb
  exact ⟨isTokenCharacter_ne hvalid (by decide), isTokenCharacter_ne hvalid (by decide)⟩

variable {limit : Nat}

theorem reads_readLineLoop {r : Http1Reader} (allowCleanEof : Bool)
    (htext : IsLine text) (rest : Bytes) {steps : Nat} (line : Bytes) (sawAnyByte : Bool)
    (hlimit : line.length + text.length ≤ limit) (hsteps : text.length + 2 ≤ steps) :
    Reads (readLineLoop limit allowCleanEof steps line false sawAnyByte) r (text ++ crlf ++ rest)
      (some (line ++ text)) r rest := by
  induction text generalizing steps line sawAnyByte with
  | nil =>
    obtain ⟨steps, rfl⟩ : ∃ n, steps = n + 2 := ⟨steps - 2, by simp at hsteps; omega⟩
    rw [List.append_nil]
    unfold readLineLoop
    refine reads_bind (reads_readByte 13) ?_
    dsimp only
    rw [if_neg (by decide), if_pos rfl]
    unfold readLineLoop
    refine reads_bind (reads_readByte 10) ?_
    dsimp only
    rw [if_pos rfl, if_neg (by decide)]
    exact reads_pure _
  | cons b text ih =>
    obtain ⟨steps, rfl⟩ : ∃ n, steps = n + 1 := ⟨steps - 1, by omega⟩
    obtain ⟨hcr, hlf⟩ := htext b (.head _)
    rw [List.length_cons] at hlimit hsteps
    unfold readLineLoop
    refine reads_bind (reads_readByte b) ?_
    dsimp only
    rw [if_neg (by decide), if_neg hcr, if_neg hlf, if_neg (by omega)]
    have hline : line ++ b :: text = line ++ [b] ++ text := by simp
    rw [hline]
    exact ih (fun c hc => htext c (.tail _ hc)) _ _ (by simp; omega) (by omega)

/-- **A line that was written is read**, up to its CRLF. -/
theorem reads_readLine {r : Http1Reader} (allowCleanEof : Bool)
    (htext : IsLine text) (hlimit : text.length ≤ limit) (rest : Bytes) :
    Reads (readLine limit allowCleanEof) r (text ++ crlf ++ rest) (some text) r rest := by
  refine reads_bind reads_left ?_
  refine reads_readLineLoop allowCleanEof htext rest [] false (by simpa using hlimit) ?_
  simp [crlf]

/-- At the end of the stream there is no line. -/
theorem reads_readLine_atEnd {r : Http1Reader} (limit : Nat) :
    Reads (readLine limit true) r [] none r [] := by
  refine reads_bind reads_left ?_
  unfold readLineLoop
  refine reads_bind reads_readByte_atEnd ?_
  exact reads_pure none

theorem reads_readFullLine {r : Http1Reader} (htext : IsLine text)
    (hlimit : text.length ≤ limit) (rest : Bytes) :
    Reads (readFullLine limit) r (text ++ crlf ++ rest) text r rest :=
  reads_bind (reads_readLine false htext hlimit rest) (reads_pure text)

/-! ## Headers -/

/-- A header as a line. -/
def HttpHeader.line (header : HttpHeader) : Bytes := header.name ++ ascii ": " ++ header.value

theorem HttpHeader.isLine (header : HttpHeader) : IsLine header.line :=
  isLine_append (isLine_append (isLine_of_validName header.name_valid) (by decide))
    (isLine_of_validValue header.value_valid)

/-- A header line begins with a character of its name. -/
theorem HttpHeader.line_head (header : HttpHeader) :
    ∃ b line, header.line = b :: line ∧ b ≠ 32 ∧ b ≠ 9 := by
  obtain ⟨hne, hvalid⟩ := validName_iff.mp header.name_valid
  unfold HttpHeader.line
  cases hname : header.name with
  | nil => exact absurd hname hne
  | cons b name =>
    have hb := hvalid b (by rw [hname]; exact .head _)
    exact ⟨b, _, rfl, isTokenCharacter_ne hb (by decide), isTokenCharacter_ne hb (by decide)⟩

/-- **A header line is read back trimmed.** -/
theorem parseHeaderLine_line (header : HttpHeader) :
    parseHeaderLine header.line = .ok header.trimmed := by
  have hcolon : ∀ b ∈ header.name, (b != 58) = true := by
    intro b hb
    simpa using isTokenCharacter_ne ((validName_iff.mp header.name_valid).2 b hb) (by decide)
  have hline : header.line = header.name ++ 58 :: 32 :: header.value := by
    unfold HttpHeader.line
    rw [List.append_assoc]
    rfl
  unfold parseHeaderLine
  rw [hline, List.dropWhile_append_of_pos hcolon, List.takeWhile_append_of_pos hcolon,
    List.dropWhile_cons_of_neg (by decide), List.takeWhile_cons_of_neg (by decide),
    List.append_nil]
  dsimp only
  have hvalue : trimOws (32 :: header.value) = trimOws header.value :=
    trimOws_cons_of_ows (by decide) _
  unfold HttpHeaders.field
  rw [hvalue, dif_pos header.name_valid, dif_pos (validValue_trimOws header.value_valid)]
  rfl

/-- A place for the counters of `read_headers` that is beside the connection and the limits. -/
structure Stores (store : Nat → Nat → Http1Reader → Http1Reader) : Prop where
  conn : ∀ bytes count r c, store bytes count (Http1Reader.withConn r c) =
    (store bytes count r).withConn c
  limits : ∀ bytes count r, (store bytes count r).limits = r.limits
  last : ∀ bytes count bytes' count' r, store bytes count (store bytes' count' r) =
    store bytes count r

theorem stores_id : Stores fun _ _ => id :=
  ⟨fun _ _ _ _ => rfl, fun _ _ _ => rfl, fun _ _ _ _ _ => rfl⟩

theorem stores_storeUsed : Stores storeUsed :=
  ⟨fun _ _ _ _ => rfl, fun _ _ _ => rfl, fun _ _ _ _ _ => rfl⟩

theorem reads_readHeadersLoop {store : Nat → Nat → Http1Reader → Http1Reader}
    (hstore : Stores store) {r : Http1Reader} (headers : HttpHeaders) (rest : Bytes) {steps : Nat}
    (read : HttpHeaders) {usedBytes usedCount : Nat}
    (hbytes : usedBytes + (encodeHeaders headers).length + 2 ≤ r.limits.maxHeaderBytes)
    (hcount : usedCount + headers.length ≤ r.limits.maxHeaderCount)
    (hsteps : headers.length + 1 ≤ steps) :
    Reads (readHeadersLoop store steps read usedBytes usedCount) r
      (encodeHeaders headers ++ crlf ++ rest)
      (read ++ headers.trimmed, usedBytes + (encodeHeaders headers).length + 2,
        usedCount + headers.length)
      (store (usedBytes + (encodeHeaders headers).length + 2) (usedCount + headers.length) r)
      rest := by
  induction headers generalizing r steps read usedBytes usedCount with
  | nil =>
    obtain ⟨steps, rfl⟩ : ∃ n, steps = n + 1 := ⟨steps - 1, by omega⟩
    simp only [encodeHeaders, List.length_nil, Nat.add_zero] at hbytes
    unfold readHeadersLoop
    refine reads_bind (reads_gets fun _ => rfl) ?_
    refine reads_bind (reads_failIf (by omega)) ?_
    refine reads_bind (reads_readFullLine (show IsLine [] by decide) (Nat.zero_le _) rest) ?_
    refine reads_bind (reads_failIf (by simp; omega)) ?_
    refine reads_bind (reads_modify (hstore.conn _ _ r)) ?_
    rw [if_pos (show List.isEmpty ([] : Bytes) = true from rfl)]
    have hheaders : read ++ HttpHeaders.trimmed [] = read := List.append_nil _
    rw [hheaders]
    exact reads_pure _
  | cons header headers ih =>
    obtain ⟨steps, rfl⟩ : ∃ n, steps = n + 1 := ⟨steps - 1, by omega⟩
    have hencode : encodeHeaders (header :: headers) = header.line ++ crlf ++
      encodeHeaders headers :=
      by simp [encodeHeaders, HttpHeader.line]
    have hlength : (encodeHeaders (header :: headers)).length =
        header.line.length + 2 + (encodeHeaders headers).length := by
      rw [hencode, List.length_append, List.length_append]
      rfl
    rw [hlength] at hbytes ⊢
    rw [List.length_cons] at hcount hsteps ⊢
    have hstream : encodeHeaders (header :: headers) ++ crlf ++ rest =
        header.line ++ crlf ++ (encodeHeaders headers ++ crlf ++ rest) := by
      rw [hencode]
      simp
    obtain ⟨b, line, hline, hsp, htab⟩ := header.line_head
    rw [hstream]
    unfold readHeadersLoop
    refine reads_bind (reads_gets fun _ => rfl) ?_
    refine reads_bind (reads_failIf (by omega)) ?_
    refine reads_bind (reads_readFullLine header.isLine (by omega) _) ?_
    refine reads_bind (reads_failIf (by omega)) ?_
    refine reads_bind (reads_modify (hstore.conn _ _ r)) ?_
    rw [if_neg (by simp [hline])]
    refine reads_bind (reads_failIf (by simp [hline, hsp, htab])) ?_
    refine reads_bind (reads_failIf (by omega)) ?_
    refine reads_bind (reads_lift (parseHeaderLine_line header)) ?_
    refine reads_bind (reads_modify (hstore.conn _ _ _)) ?_
    have hread : read ++ HttpHeaders.trimmed (header :: headers) =
        read ++ [header.trimmed] ++ HttpHeaders.trimmed headers := by
      rw [List.append_assoc]
      rfl
    have hused : usedBytes + (header.line.length + 2 + (encodeHeaders headers).length) + 2 =
        usedBytes + (header.line.length + 2) + (encodeHeaders headers).length + 2 := by omega
    have hfields : usedCount + (headers.length + 1) = usedCount + 1 + headers.length := by omega
    have hend := fun bytes count =>
      (hstore.last bytes count (usedBytes + (header.line.length + 2)) (usedCount + 1)
        (store (usedBytes + (header.line.length + 2)) usedCount r)).trans
        (hstore.last bytes count (usedBytes + (header.line.length + 2)) usedCount r)
    rw [hread, hused, hfields, ← hend (_ + _ + 2) (_ + 1 + _)]
    refine ih _ ?_ ?_ ?_
    · rw [hstore.limits, hstore.limits]
      omega
    · rw [hstore.limits, hstore.limits]
      omega
    · omega

/-- Every header line takes at least its CRLF. -/
theorem length_le_encodeHeaders (headers : HttpHeaders) :
    headers.length ≤ (encodeHeaders headers).length := by
  induction headers with
  | nil => exact le_rfl
  | cons header headers ih =>
    simp [encodeHeaders, crlf]
    omega

/-- **Written headers are read back trimmed**, and counted with their line ends. -/
theorem reads_readHeaders {store : Nat → Nat → Http1Reader → Http1Reader} (hstore : Stores store)
    {r : Http1Reader} (headers : HttpHeaders) (rest : Bytes) {usedBytes usedCount : Nat}
    (hbytes : usedBytes + (encodeHeaders headers).length + 2 ≤ r.limits.maxHeaderBytes)
    (hcount : usedCount + headers.length ≤ r.limits.maxHeaderCount) :
    Reads (readHeaders store usedBytes usedCount) r (encodeHeaders headers ++ crlf ++ rest)
      (headers.trimmed, usedBytes + (encodeHeaders headers).length + 2, usedCount + headers.length)
      (store (usedBytes + (encodeHeaders headers).length + 2) (usedCount + headers.length) r)
      rest := by
  refine reads_bind reads_left ?_
  have hsteps := length_le_encodeHeaders headers
  exact reads_readHeadersLoop hstore headers rest [] hbytes hcount (by simp; omega)

/-! ## Bodies -/

/-- The state in which a body is read. -/
def HttpBodyInfo.startState : HttpBodyInfo → ReadState
  | .none => .bodyComplete
  | .contentLength length => if length = 0 then .bodyComplete else .fixedBody
  | .chunked => .chunkSize
  | .closeDelimited => .closeDelimitedBody

/-- The reader when a body begins. -/
def Http1Reader.begun (r : Http1Reader) (framing : HttpBodyInfo) (usedBytes usedCount : Nat) :
    Http1Reader :=
  { r with
    state := framing.startState
    bodyInfo := framing
    bodyRemaining := framing.length
    bodyDecoded := 0
    usedHeaderBytes := usedBytes
    usedHeaderCount := usedCount
    bodyTrailers := [] }

theorem reads_beginBody {r : Http1Reader} {s : Bytes} {framing : HttpBodyInfo}
    (hframing : framing.length ≤ r.limits.maxBodyBytes) (usedBytes usedCount : Nat) :
    Reads (beginBody framing usedBytes usedCount) r s () (r.begun framing usedBytes usedCount)
      s := by
  refine reads_bind (reads_modify fun _ => rfl) ?_
  refine reads_bind (reads_gets fun _ => rfl) ?_
  cases framing with
  | none => exact reads_setState _
  | chunked => exact reads_setState _
  | closeDelimited => exact reads_setState _
  | contentLength length =>
    have hle : ¬ length > r.limits.maxBodyBytes := Nat.not_lt.mpr hframing
    dsimp only
    rw [if_neg hle]
    exact reads_setState _

/-- Loops of passes enough read `body` and leave `s'`, with the body complete. -/
def ReadsBody (r : Http1Reader) (s body : Bytes) (r' : Http1Reader) (s' : Bytes) : Prop :=
  ∀ c : Conn, c.Clean → c.stream = s → ∀ capacities : List Nat, (∀ n ∈ capacities, 0 < n) →
    s.length < capacities.length → ∃ c' : Conn, c'.Clean ∧ c'.stream = s' ∧
      readBodies capacities (r.withConn c) = (.ok body, r'.withConn c') ∧ r'.state = .bodyComplete

variable {body : Bytes}

theorem reads_readBodyAll {r r' : Http1Reader} {s s' : Bytes} (h : ReadsBody r s body r' s') :
    Reads readBodyAll r s (body, r'.bodyTrailers) r'.between s' := by
  intro c hc hs
  obtain ⟨c', hc', hs', hrun, hcomplete⟩ := h c hc hs (List.replicate (s.length + 1) 8192)
    (fun n hn => by rw [List.eq_of_mem_replicate hn]; decide)
    (by rw [List.length_replicate]; exact Nat.lt_succ_self _)
  refine ⟨c', hc', hs', ?_⟩
  have hdrain : drainBody (r.withConn c) = (.ok body, r'.withConn c') := by
    unfold drainBody
    rw [gets_bind_apply, Http1Reader.withConn_conn, hs, hrun]
  rw [readBodyAll_of_drain hdrain hcomplete]
  rfl

theorem readsBody_complete {r : Http1Reader} (hr : r.state = .bodyComplete) (s : Bytes) :
    ReadsBody r s [] r s :=
  fun c hc hs capacities _ _ =>
    ⟨c, hc, hs, readBodies_finished (show (r.withConn c).state = _ from hr) capacities, hr⟩

/-- Data of known length, and what follows it. -/
theorem readsBody_counted {state next : ReadState} {eof : String} (hstate : Counts state eof next)
    {r r' : Http1Reader} (hr : r.state = state) {data rest s' : Bytes}
    (hdata : r.bodyRemaining = data.length) (hne : data ≠ [])
    (hnext : ReadsBody (r.counted data.length next) rest body r' s') :
    ReadsBody r (data ++ rest) (data ++ body) r' s' := by
  intro c hc hs capacities hpos hlen
  have hleft : (r.withConn c).left = data.length + rest.length := by
    unfold Http1Reader.left
    rw [Http1Reader.withConn_conn, hs, List.length_append]
  have hdatalen : 0 < data.length := List.length_pos_iff.mpr hne
  rw [List.length_append] at hlen
  have hremaining : (r.withConn c).bodyRemaining = data.length := hdata
  obtain ⟨capacities', c', hpos', hlen', hc', hs', hrun⟩ := readBodies_counted hstate hpos
    (show (r.withConn c).conn.Clean from hc) hr (by omega) (by omega) (by omega)
  rw [Http1Reader.withConn_conn, hs, hremaining, List.drop_left] at hs'
  obtain ⟨c'', hc'', hs'', hrun', hcomplete⟩ := hnext c' hc' hs' capacities' hpos' (by omega)
  refine ⟨c'', hc'', hs'', ?_, hcomplete⟩
  rw [Http1Reader.withConn_conn, hs, hremaining, List.take_left] at hrun
  rw [hrun, bind_ok (show readBodies capacities'
    (((r.withConn c).counted data.length next).withConn c') =
      (.ok body, r'.withConn c'') from hrun')]
  rfl

/-- The end of a chunked body. -/
theorem readsBody_lastChunk {r r' : Http1Reader} {s s' : Bytes}
    (hr : r.state = .chunkSize ∨ r.state = .chunkDataEnding)
    (hbefore : Reads readChunkPrefix r s () r' s') (hr' : r'.state = .bodyComplete) :
    ReadsBody r s [] r' s' := by
  intro c hc hs capacities hpos hlen
  obtain ⟨c', hc', hs', hrun⟩ := hbefore c hc hs
  exact ⟨c', hc', hs', (readBodies_chunkPrefix (show (r.withConn c).state = _ ∨ _ from hr) hrun hpos
    (List.ne_nil_of_length_pos (by omega))).1 hr', hr'⟩

/-- A chunk, and what follows its size line. -/
theorem readsBody_chunk {r r' r'' : Http1Reader} {s s' s'' : Bytes}
    (hr : r.state = .chunkSize ∨ r.state = .chunkDataEnding)
    (hbefore : Reads readChunkPrefix r s () r' s') (hr' : r'.state = .chunkData)
    (hshorter : s'.length ≤ s.length) (hrest : ReadsBody r' s' body r'' s'') :
    ReadsBody r s body r'' s'' := by
  intro c hc hs capacities hpos hlen
  obtain ⟨c', hc', hs', hrun⟩ := hbefore c hc hs
  have heq := (readBodies_chunkPrefix (show (r.withConn c).state = _ ∨ _ from hr) hrun hpos
    (List.ne_nil_of_length_pos (by omega))).2 hr'
  obtain ⟨c'', hc'', hs'', hrun', hcomplete⟩ := hrest c' hc' hs' capacities hpos (by omega)
  exact ⟨c'', hc'', hs'', heq.trans hrun', hcomplete⟩

/-! ## Chunks -/

theorem reads_readChunkEnding {r : Http1Reader} (s : Bytes) :
    Reads readChunkEnding r (crlf ++ s) () { r with state := .chunkSize } s := by
  refine reads_bind (reads_readByte 13) ?_
  refine reads_bind (reads_readByte 10) ?_
  exact reads_bind (reads_failIf (by decide)) (reads_setState _)

/-- The size line of a chunk with data. -/
theorem reads_readChunkSize_data {r : Http1Reader} {size : Nat} (hsize : 0 < size)
    (hline : (toChars 16 size).length ≤ r.limits.maxStartLineBytes)
    (hle : size ≤ r.limits.maxBodyBytes - r.bodyDecoded) (s : Bytes) :
    Reads readChunkSize r (toChars 16 size ++ crlf ++ s) ()
      { r with bodyRemaining := size, state := .chunkData } s := by
  have hmax := r.limits.maxBodyBytes_le
  have htext : IsLine (toChars 16 size) :=
    isLine_of_validValue (validValue_toChars (by decide) (by decide) size)
  refine reads_bind (reads_gets fun _ => rfl) ?_
  refine reads_bind (reads_readFullLine htext hline s) ?_
  refine reads_bind (reads_lift (parseChunkSize_toChars (by omega))) ?_
  rw [if_neg (by omega)]
  refine reads_bind (reads_gets fun _ => rfl) ?_
  exact reads_bind (reads_failIf (by omega)) (reads_modify fun _ => rfl)

/-- The reader after the last chunk and the trailers. -/
def Http1Reader.afterTrailers (r : Http1Reader) (trailers : HttpHeaders) : Http1Reader :=
  { storeUsed (r.usedHeaderBytes + (encodeHeaders trailers).length + 2)
      (r.usedHeaderCount + trailers.length) r with
    bodyTrailers := trailers.trimmed
    state := .bodyComplete }

variable {trailers : HttpHeaders}

/-- The size line of the last chunk, and the trailers. -/
theorem reads_readChunkSize_last {r : Http1Reader}
    (hstart : 1 ≤ r.limits.maxStartLineBytes) (hvalid : validateTrailers trailers = .ok ())
    (hbytes : r.usedHeaderBytes + (encodeHeaders trailers).length + 2 ≤ r.limits.maxHeaderBytes)
    (hcount : r.usedHeaderCount + trailers.length ≤ r.limits.maxHeaderCount) (s : Bytes) :
    Reads readChunkSize r (ascii "0\r\n" ++ encodeHeaders trailers ++ crlf ++ s) ()
      (r.afterTrailers trailers) s := by
  have hstream : ascii "0\r\n" ++ encodeHeaders trailers ++ crlf ++ s =
      [48] ++ crlf ++ (encodeHeaders trailers ++ crlf ++ s) := by
    simp only [List.append_assoc]
    rfl
  rw [hstream]
  refine reads_bind (reads_gets fun _ => rfl) ?_
  refine reads_bind (reads_readFullLine (show IsLine [48] by decide) hstart _) ?_
  refine reads_bind (reads_lift (show parseChunkSize [48] = .ok 0 by decide)) ?_
  rw [if_pos rfl]
  refine reads_bind (reads_gets fun _ => rfl) ?_
  refine reads_bind (reads_gets fun _ => rfl) ?_
  refine reads_bind (reads_readHeaders stores_storeUsed trailers s hbytes hcount) ?_
  refine reads_bind (reads_modify fun _ => rfl) ?_
  refine reads_bind (reads_lift (by rw [validateTrailers_trimmed, hvalid])) ?_
  exact reads_setState _

/-- `read_chunked_body_part` before a chunk's size line, from both states that come before it. -/
theorem reads_readChunkPrefix_size {r r' : Http1Reader} {s s' : Bytes} (hr : r.state = .chunkSize)
    (h : Reads readChunkSize r s () r' s') : Reads readChunkPrefix r s () r' s' := by
  refine reads_bind (reads_gets fun _ => rfl) ?_
  rw [hr]
  refine reads_bind (reads_pure ()) ?_
  rw [if_neg (by decide)]
  exact h

theorem reads_readChunkPrefix_ending {r r' : Http1Reader} {s s' : Bytes}
    (hr : r.state = .chunkDataEnding)
    (h : Reads readChunkSize { r with state := .chunkSize } s () r' s') :
    Reads readChunkPrefix r (crlf ++ s) () r' s' := by
  refine reads_bind (reads_gets fun _ => rfl) ?_
  rw [hr, if_pos rfl, if_neg (by decide)]
  exact reads_bind (reads_readChunkEnding s) h

/-! ## Written bodies -/

/-- The limits allow a message. -/
structure Covers (limits : HttpLimits) (startLine : Bytes) (headers : HttpHeaders) (body : Bytes)
    (trailers : HttpHeaders) : Prop where
  startLine : startLine.length ≤ limits.maxStartLineBytes
  chunkLine : (toChars 16 body.length).length ≤ limits.maxStartLineBytes
  headerBytes : (encodeHeaders headers).length + 2 + (encodeHeaders trailers).length + 2 ≤
    limits.maxHeaderBytes
  headerCount : headers.length + trailers.length ≤ limits.maxHeaderCount
  body : body.length ≤ limits.maxBodyBytes

theorem one_le_maxStartLineBytes {limits : HttpLimits} (h : limits.validate = .ok ()) :
    1 ≤ limits.maxStartLineBytes := by
  unfold HttpLimits.validate at h
  by_contra hzero
  rw [if_pos (.inl (by omega))] at h
  cases h

/-- The last chunk and the trailers, from a state between chunks. -/
theorem readsBody_trailers {r : Http1Reader}
    (hstart : 1 ≤ r.limits.maxStartLineBytes) (hvalid : validateTrailers trailers = .ok ())
    (hbytes : r.usedHeaderBytes + (encodeHeaders trailers).length + 2 ≤ r.limits.maxHeaderBytes)
    (hcount : r.usedHeaderCount + trailers.length ≤ r.limits.maxHeaderCount) (s : Bytes) :
    (r.state = .chunkSize → ReadsBody r (ascii "0\r\n" ++ encodeHeaders trailers ++ crlf ++ s) []
      (r.afterTrailers trailers) s) ∧ (r.state = .chunkDataEnding →
      ReadsBody r (crlf ++ (ascii "0\r\n" ++ encodeHeaders trailers ++ crlf ++ s)) []
        (r.afterTrailers trailers) s) := by
  constructor
  · intro hr
    have hsize := reads_readChunkSize_last hstart hvalid hbytes hcount s
    exact readsBody_lastChunk (.inl hr) (reads_readChunkPrefix_size hr hsize) rfl
  · intro hr
    have hsize : Reads readChunkSize { r with state := .chunkSize }
        (ascii "0\r\n" ++ encodeHeaders trailers ++ crlf ++ s) () (r.afterTrailers trailers) s :=
      reads_readChunkSize_last (r := { r with state := .chunkSize }) hstart hvalid hbytes hcount s
    exact readsBody_lastChunk (.inr hr) (reads_readChunkPrefix_ending hr hsize) rfl

/-- A chunked body is read back, with its trailers. -/
theorem readsBody_chunked {r : Http1Reader}
    (hr : r.state = .chunkSize) (hstart : 1 ≤ r.limits.maxStartLineBytes)
    (hline : (toChars 16 body.length).length ≤ r.limits.maxStartLineBytes)
    (hvalid : validateTrailers trailers = .ok ())
    (hbytes : r.usedHeaderBytes + (encodeHeaders trailers).length + 2 ≤ r.limits.maxHeaderBytes)
    (hcount : r.usedHeaderCount + trailers.length ≤ r.limits.maxHeaderCount)
    (hbody : body.length ≤ r.limits.maxBodyBytes - r.bodyDecoded) (rest : Bytes) :
    ∃ r', ReadsBody r (encodeBody body trailers true true ++ rest) body r' rest ∧
      r'.bodyTrailers = trailers.trimmed ∧ r'.limits = r.limits := by
  by_cases hempty : body = []
  · subst hempty
    have hstream : encodeBody [] trailers true true ++ rest =
        ascii "0\r\n" ++ encodeHeaders trailers ++ crlf ++ rest := rfl
    rw [hstream]
    exact ⟨_, (readsBody_trailers hstart hvalid hbytes hcount rest).1 hr, rfl, rfl⟩
  · have hpos : 0 < body.length := List.length_pos_iff.mpr hempty
    have hstream : encodeBody body trailers true true ++ rest = toChars 16 body.length ++ crlf ++
        (body ++ (crlf ++ (ascii "0\r\n" ++ encodeHeaders trailers ++ crlf ++ rest))) := by
      unfold encodeBody
      simp [hempty]
    rw [hstream]
    -- the size line, the data, and then the last chunk
    have hsize := reads_readChunkSize_data hpos hline hbody
      (body ++ (crlf ++ (ascii "0\r\n" ++ encodeHeaders trailers ++ crlf ++ rest)))
    obtain ⟨r1, hr1⟩ : ∃ r1, r1 = ({ r with
      bodyRemaining := body.length, state := .chunkData } : Http1Reader) := ⟨_, rfl⟩
    rw [← hr1] at hsize
    obtain ⟨r2, hr2⟩ : ∃ r2, r2 = r1.counted body.length .chunkDataEnding := ⟨_, rfl⟩
    have hstate2 : r2.state = .chunkDataEnding := by
      rw [hr2, hr1]
      exact if_pos (Nat.sub_self _)
    have hlimits2 : r2.limits = r.limits := by rw [hr2, hr1]; rfl
    have hbytes2 : r2.usedHeaderBytes = r.usedHeaderBytes := by rw [hr2, hr1]; rfl
    have hcount2 : r2.usedHeaderCount = r.usedHeaderCount := by rw [hr2, hr1]; rfl
    have hlast := (readsBody_trailers (r := r2) (by rw [hlimits2]; exact hstart) hvalid
      (by rw [hlimits2, hbytes2]; exact hbytes) (by rw [hlimits2, hcount2]; exact hcount)
      rest).2 hstate2
    rw [hr2] at hlast
    have hdata := readsBody_counted counts_chunkData (by rw [hr1]) (by rw [hr1]) hempty hlast
    rw [List.append_nil, ← hr2] at hdata
    refine ⟨_, readsBody_chunk (.inl hr) (reads_readChunkPrefix_size hr hsize) (by rw [hr1])
      (by simp; omega) hdata, rfl, ?_⟩
    exact hlimits2

/-- **A written body is read back**, with its trailers, under the framing it was written with. -/
theorem reads_encodedBody {r : Http1Reader} {startLine : Bytes} {headers : HttpHeaders}
    (hlimits : r.limits.validate = .ok ())
    (hcovers : Covers r.limits startLine headers body trailers)
    (htrailers : validateTrailers trailers = .ok ()) {framing : HttpBodyInfo}
    (hnone : framing = .none → body = [])
    (hcases : framing = .none ∨ framing = .chunked ∨ framing = .contentLength body.length)
    (hunchunked : framing ≠ .chunked → trailers = []) (rest : Bytes) :
    ∃ r', Reads readBodyAll
      (r.begun framing ((encodeHeaders headers).length + 2) headers.length)
      (encodeBody body trailers (framing = .chunked) true ++ rest) (body, trailers.trimmed) r'
      rest ∧ r'.state = .ready ∧ r'.limits = r.limits := by
  rcases hcases with rfl | rfl | rfl
  · -- no body
    obtain rfl := hnone rfl
    obtain rfl := hunchunked (by decide)
    exact ⟨_, reads_readBodyAll (readsBody_complete rfl rest), rfl, rfl⟩
  · obtain ⟨r', hread, htrailers', hlimits'⟩ := readsBody_chunked
      (r := r.begun .chunked ((encodeHeaders headers).length + 2) headers.length) rfl
      (one_le_maxStartLineBytes hlimits) hcovers.chunkLine htrailers hcovers.headerBytes
      hcovers.headerCount hcovers.body rest
    rw [← htrailers']
    exact ⟨_, reads_readBodyAll hread, rfl, hlimits'⟩
  · -- a body of known length
    obtain rfl := hunchunked (by simp)
    by_cases hempty : body = []
    · subst hempty
      exact ⟨_, reads_readBodyAll (readsBody_complete rfl rest), rfl, rfl⟩
    · have hstate : (HttpBodyInfo.contentLength body.length).startState = .fixedBody :=
        if_neg (by simpa using hempty)
      have hdone := readsBody_complete (r := (r.begun (.contentLength body.length)
        ((encodeHeaders headers).length + 2) headers.length).counted body.length .bodyComplete)
        (if_pos (Nat.sub_self _)) rest
      have hdata := readsBody_counted counts_fixedBody hstate rfl hempty hdone
      rw [List.append_nil] at hdata
      exact ⟨_, reads_readBodyAll hdata, rfl, rfl⟩

end Libca.Http
