import Libca.Http.Http1Reader

/-!
# Deliveries of a byte stream (`http/http1_codec.cpp`)

An `io::Reader` may deliver a stream in reads of any sizes, with interruptions in between.

* `readByte_clean`: over a delivery without failures `read_byte` takes the next byte of the stream.
* `triple_readLine`, `triple_readHeaders`: the loops over lines and headers end, and leave no more
  bytes than there were.
* `SameStream`: two readers that differ in how one stream is delivered. `agrees_readRequestHead`,
  `agrees_readResponseHead`: they read the same heads.
-/

namespace Libca.Http

open Common Fallible

/-! ## Clean deliveries -/

/-- A read that does not fail, and delivers at least one byte and at most a buffer if it delivers.
-/
def ReadEvent.Clean : ReadEvent → Prop
  | .interrupted => True
  | .failed _ => False
  | .data bytes => bytes ≠ [] ∧ bytes.length ≤ 8192

instance : DecidablePred ReadEvent.Clean
  | .interrupted => isTrue trivial
  | .failed _ => isFalse id
  | .data bytes => inferInstanceAs (Decidable (bytes ≠ [] ∧ bytes.length ≤ 8192))

/-- Nothing fails, and no read but the last returns 0. -/
def Conn.Clean (c : Conn) : Prop := ∀ event ∈ c.pending, event.Clean

/-- The reads `events` deliver `stream`, and then end of stream. -/
structure Delivers (events : List ReadEvent) (stream : Bytes) : Prop where
  clean : ∀ event ∈ events, event.Clean
  bytes : events.flatMap ReadEvent.bytes = stream

/-- Bytes left in the stream. -/
def Http1Reader.left (r : Http1Reader) : Nat := r.conn.stream.length

theorem Conn.stream_nil (pending : List ReadEvent) :
    (⟨[], pending⟩ : Conn).stream = pending.flatMap ReadEvent.bytes :=
  List.nil_append _

theorem fill_clean (pending : List ReadEvent) (h : ∀ event ∈ pending, event.Clean) :
    ∃ c : Conn, fill pending = (.ok !(pending.flatMap ReadEvent.bytes).isEmpty, c) ∧ c.Clean ∧
      c.stream = pending.flatMap ReadEvent.bytes ∧ (c.stream ≠ [] → c.buffered ≠ []) := by
  induction pending with
  | nil => exact ⟨⟨[], []⟩, rfl, h, rfl, fun hne => absurd rfl hne⟩
  | cons event pending ih =>
    have hevent := h event (.head _)
    have hrest : ∀ event ∈ pending, event.Clean := fun e he => h e (.tail _ he)
    cases event with
    | interrupted => exact ih hrest
    | failed message => exact hevent.elim
    | data bytes =>
      obtain ⟨hne, hle⟩ := hevent
      refine ⟨⟨bytes, pending⟩, ?_, hrest, ?_, fun _ => hne⟩
      · unfold fill
        rw [if_neg (by omega), List.flatMap_cons]
        cases bytes with
        | nil => exact absurd rfl hne
        | cons b bytes => rfl
      · simp [Conn.stream, ReadEvent.bytes]

variable {r : Http1Reader}

/-- `fill_buffer` leaves the stream as it is, and ends with a buffer that is empty at its end only.
-/
theorem fillBuffer_clean (h : r.conn.Clean) :
    ∃ c : Conn, fillBuffer r = (.ok !r.conn.stream.isEmpty, r.withConn c) ∧ c.Clean ∧
      c.stream = r.conn.stream ∧ (c.stream ≠ [] → c.buffered ≠ []) := by
  unfold fillBuffer
  by_cases hb : r.conn.buffered = []
  · obtain ⟨c, hfill, hc, hs, hne⟩ := fill_clean r.conn.pending h
    have hstream : r.conn.stream = r.conn.pending.flatMap ReadEvent.bytes := by
      unfold Conn.stream
      rw [hb, List.nil_append]
    refine ⟨c, ?_, hc, hs.trans hstream.symm, hne⟩
    rw [if_pos (by simp [hb]), hfill, hstream]
  · refine ⟨r.conn, ?_, h, rfl, fun _ => hb⟩
    rw [if_neg (by simp [hb])]
    simp [Conn.stream, hb]

/-- What is taken from the buffer is taken from the stream. -/
theorem takeBuffered_clean (h : r.conn.Clean) (count : Nat) :
    ∃ c : Conn, takeBuffered count r =
        (.ok (r.conn.stream.take (min count r.conn.buffered.length)), r.withConn c) ∧
      c.Clean ∧ c.stream = r.conn.stream.drop (min count r.conn.buffered.length) := by
  have hmin : min count r.conn.buffered.length ≤ r.conn.buffered.length := Nat.min_le_right _ _
  refine ⟨{ r.conn with buffered := r.conn.buffered.drop count }, ?_, h, ?_⟩
  · unfold takeBuffered Conn.stream
    rw [List.take_append_of_le_length hmin, ← List.take_take, List.take_length]
  · unfold Conn.stream
    rw [List.drop_append_of_le_length hmin]
    rcases Nat.le_total count r.conn.buffered.length with hle | hle
    · rw [Nat.min_eq_left hle]
    · rw [Nat.min_eq_right hle, List.drop_length, List.drop_eq_nil_of_le hle]

/-- `read_byte` takes the next byte of the stream. -/
theorem readByte_clean (h : r.conn.Clean) :
    ∃ c : Conn, readByte r = (.ok r.conn.stream.head?, r.withConn c) ∧ c.Clean ∧
      c.stream = r.conn.stream.tail := by
  obtain ⟨c, hfill, hc, hs, hne⟩ := fillBuffer_clean h
  unfold readByte
  rw [bind_ok hfill]
  by_cases hstream : r.conn.stream = []
  · refine ⟨c, ?_, hc, ?_⟩
    · simp [hstream]
    · rw [hs, hstream]
      rfl
  · have hbuffered : min 1 c.buffered.length = 1 :=
      Nat.min_eq_left (List.length_pos_iff.mpr (hne (by rw [hs]; exact hstream)))
    obtain ⟨c', htake, hc', hs'⟩ :=
      takeBuffered_clean (show (r.withConn c).conn.Clean from hc) 1
    rw [Http1Reader.withConn_conn, hbuffered] at htake hs'
    refine ⟨c', ?_, hc', ?_⟩
    · rw [if_pos (by simpa using hstream), bind_ok htake, hs]
      cases hcons : r.conn.stream with
      | nil => exact absurd hcons hstream
      | cons b bytes => rfl
    · rw [hs', hs, List.drop_one]

/-! ## Loops end -/

/-- At most `n` bytes are left. -/
def Within (n : Nat) (r : Http1Reader) : Prop := r.left ≤ n

/-- The loop did not run out of steps, and at most `n` bytes are left. -/
def Stopped (n : Nat) (e : HttpError) (r : Http1Reader) : Prop := e ≠ noStepLeft ∧ r.left ≤ n

theorem fill_within (pending : List ReadEvent) :
    (fill pending).1 ≠ .error noStepLeft ∧
      (fill pending).2.stream.length ≤ (pending.flatMap ReadEvent.bytes).length := by
  induction pending with
  | nil => exact ⟨by simp [fill], le_rfl⟩
  | cons event pending ih =>
    rw [List.flatMap_cons, List.length_append]
    cases event with
    | interrupted => exact ⟨ih.1, Nat.le_trans ih.2 (Nat.le_add_left _ _)⟩
    | failed message =>
      unfold fill
      rw [Conn.stream_nil]
      exact ⟨by simp [noStepLeft], Nat.le_add_left _ _⟩
    | data bytes =>
      unfold fill
      split_ifs
      · rw [Conn.stream_nil]
        exact ⟨by simp [noStepLeft], Nat.le_add_left _ _⟩
      · exact ⟨by simp, Nat.le_of_eq List.length_append⟩

theorem triple_fillBuffer (n : Nat) :
    Triple (Within n) fillBuffer (fun _ => Within n) (Stopped n) := by
  intro r h
  have hend : (fillBuffer r).1 ≠ .error noStepLeft ∧ (fillBuffer r).2.left ≤ n := by
    unfold fillBuffer
    split_ifs with hb
    · obtain ⟨hresult, hlen⟩ := fill_within r.conn.pending
      refine ⟨hresult, Nat.le_trans hlen (Nat.le_trans ?_ h)⟩
      unfold Http1Reader.left Conn.stream
      rw [List.length_append]
      exact Nat.le_add_left _ _
    · exact ⟨by simp, h⟩
  cases hr : fillBuffer r with
  | mk result r' =>
    rw [hr] at hend
    cases result with
    | ok filled => exact hend.2
    | error e => exact ⟨fun he => hend.1 (congrArg Except.error he), hend.2⟩

theorem triple_takeBuffered (n count : Nat) :
    Triple (Within n) (takeBuffered count) (fun bytes r => r.left + bytes.length ≤ n)
      (Stopped n) := by
  intro r h
  have hlen : r.left = r.conn.buffered.length + (r.conn.pending.flatMap ReadEvent.bytes).length :=
    List.length_append
  have hafter : (r.withConn { r.conn with buffered := r.conn.buffered.drop count }).left =
      (r.conn.buffered.drop count).length + (r.conn.pending.flatMap ReadEvent.bytes).length :=
    List.length_append
  change (r.withConn _).left + (r.conn.buffered.take count).length ≤ n
  rw [hafter, List.length_drop, List.length_take]
  unfold Within at h
  omega

/-- A byte that is read is gone from the stream. -/
theorem triple_readByte (n : Nat) :
    Triple (Within n) readByte (fun next r => r.left + next.toList.length ≤ n) (Stopped n) := by
  refine triple_bind (triple_fillBuffer n) fun filled => ?_
  refine triple_ite (fun _ => ?_) fun _ => triple_pure fun r h => h
  refine triple_bind (triple_takeBuffered n 1) fun bytes => triple_pure fun r h => ?_
  have hlen : bytes.head?.toList.length ≤ bytes.length := by
    cases bytes <;> simp
  exact Nat.le_trans (Nat.add_le_add_left hlen _) h

/-- What `read_line` returned has left the stream; it is no line where end of stream is allowed. -/
def LineRead (n : Nat) (allowCleanEof : Bool) (line : Option Bytes) (r : Http1Reader) : Prop :=
  r.left + line.toList.length ≤ n ∧ (line = none → allowCleanEof = true)

theorem triple_readLineLoop (limit : Nat) (allowCleanEof : Bool) {steps n : Nat} (hn : n < steps)
    (line : Bytes) (sawCarriageReturn sawAnyByte : Bool) :
    Triple (Within n)
      (readLineLoop limit allowCleanEof steps line sawCarriageReturn sawAnyByte)
      (LineRead n allowCleanEof) (Stopped n) := by
  induction steps generalizing n line sawCarriageReturn sawAnyByte with
  | zero => omega
  | succ steps ih =>
    unfold readLineLoop
    refine triple_bind (triple_readByte n) fun next => ?_
    cases next with
    | none =>
      refine triple_ite (fun heof => triple_pure fun r h => ⟨h, fun _ => heof.1⟩) fun _ => ?_
      exact triple_fail fun r h => ⟨by decide, h⟩
    | some value =>
      have hfail : ∀ e, e ≠ noStepLeft → Triple (fun r => r.left + 1 ≤ n)
          (fail e : Read (Option Bytes)) (LineRead n allowCleanEof) (Stopped n) :=
        fun e he => triple_fail fun r h => ⟨he, Nat.le_of_succ_le h⟩
      have hloop : ∀ line cr, Triple (fun r => r.left + 1 ≤ n)
          (readLineLoop limit allowCleanEof steps line cr true)
          (LineRead n allowCleanEof) (Stopped n) := by
        intro line cr
        cases n with
        | zero => exact fun r h => absurd h (Nat.not_succ_le_zero _)
        | succ n =>
          refine (ih (Nat.lt_of_succ_lt_succ hn) line cr true).mono ?_ ?_ ?_
          · exact fun r h => Nat.le_of_succ_le_succ h
          · exact fun line r h => ⟨Nat.le_succ_of_le h.1, h.2⟩
          · exact fun e r h => ⟨h.1, Nat.le_succ_of_le h.2⟩
      refine triple_ite (fun _ => ?_) fun _ => ?_
      · refine triple_ite (fun _ => hfail _ (by decide)) fun _ => ?_
        exact triple_pure fun r h => ⟨h, fun hnone => nomatch hnone⟩
      · refine triple_ite (fun _ => hloop _ _) fun _ => ?_
        refine triple_ite (fun _ => hfail _ (by decide)) fun _ => ?_
        exact triple_ite (fun _ => hfail _ (by decide)) fun _ => hloop _ _

/-- **`read_line` ends**: it does not run out of steps. -/
theorem triple_readLine (n limit : Nat) (allowCleanEof : Bool) :
    Triple (Within n) (readLine limit allowCleanEof) (LineRead n allowCleanEof) (Stopped n) := by
  intro r h
  have hloop := triple_readLineLoop limit allowCleanEof (Nat.lt_succ_self r.left) [] false false
  refine hloop.mono (fun _ h => h) ?_ ?_ r le_rfl
  · exact fun line r' hline => ⟨Nat.le_trans hline.1 h, hline.2⟩
  · exact fun e r' he => ⟨he.1, Nat.le_trans he.2 h⟩

theorem triple_readFullLine (n limit : Nat) :
    Triple (Within n) (readFullLine limit) (fun _ r => r.left + 1 ≤ n) (Stopped n) := by
  refine triple_bind (triple_readLine n limit false) fun line => triple_pure fun r h => ?_
  cases line with
  | none => exact absurd (h.2 rfl) Bool.false_ne_true
  | some line => exact h.1

theorem parseHeaderLine_ne (line : Bytes) : parseHeaderLine line ≠ .error noStepLeft := by
  unfold parseHeaderLine HttpHeaders.field noStepLeft
  split
  · simp
  · split_ifs <;> simp

variable {store : Nat → Nat → Http1Reader → Http1Reader}

/-- `store` does not touch the connection. -/
theorem triple_readHeadersLoop
    (hstore : ∀ bytes count r, (store bytes count r).conn = r.conn) {steps n : Nat}
    (hn : n < steps) (headers : HttpHeaders) (usedBytes usedCount : Nat) :
    Triple (Within n) (readHeadersLoop store steps headers usedBytes usedCount)
      (fun _ => Within n) (Stopped n) := by
  have hmodify : ∀ n bytes count, Triple (Within n) (modify (store bytes count))
      (fun _ => Within n) (Stopped n) := by
    refine fun n bytes count => triple_modify fun r h => ?_
    unfold Within Http1Reader.left at *
    rw [hstore]
    exact h
  have hfailIf : ∀ n (c : Prop) [Decidable c] (e : HttpError), e ≠ noStepLeft →
      Triple (Within n) (failIf c e) (fun _ => Within n) (Stopped n) :=
    fun n c _ e he => triple_failIf (fun r _ h => h) fun r _ h => ⟨he, h⟩
  induction steps generalizing n headers usedBytes usedCount with
  | zero => omega
  | succ steps ih =>
    unfold readHeadersLoop
    refine triple_bind (S := fun _ => Within n) (triple_gets fun r h => h) fun limits => ?_
    refine triple_bind (hfailIf n _ _ (by decide)) fun _ => ?_
    refine triple_bind (triple_readFullLine n _) fun value => ?_
    cases n with
    | zero => exact fun r h => absurd h (Nat.not_succ_le_zero _)
    | succ n =>
      have hrest : ∀ {α : Type} {x : Read α},
          Triple (Within n) x (fun _ => Within n) (Stopped n) →
          Triple (fun r => r.left + 1 ≤ n + 1) x (fun _ => Within (n + 1)) (Stopped (n + 1)) := by
        intro α x hx
        refine hx.mono (fun r h => Nat.le_of_succ_le_succ h) ?_ ?_
        · exact fun _ r h => Nat.le_succ_of_le h
        · exact fun e r h => ⟨h.1, Nat.le_succ_of_le h.2⟩
      refine hrest ?_
      refine triple_bind (hfailIf n _ _ (by decide)) fun _ => ?_
      refine triple_bind (hmodify n _ _) fun _ => ?_
      refine triple_ite (fun _ => triple_pure fun r h => h) fun _ => ?_
      refine triple_bind (hfailIf n _ _ (by decide)) fun _ => ?_
      refine triple_bind (hfailIf n _ _ (by decide)) fun _ => ?_
      refine triple_bind (S := fun _ => Within n) ?_ fun header => ?_
      · refine triple_lift (fun _ r _ h => h) fun e r he h => ⟨?_, h⟩
        rintro rfl
        exact parseHeaderLine_ne _ he
      · refine triple_bind (hmodify n _ _) fun _ => ?_
        exact ih (Nat.lt_of_succ_lt_succ hn) _ _ _

/-- **`read_headers` ends**: it does not run out of steps. -/
theorem triple_readHeaders
    (hstore : ∀ bytes count r, (store bytes count r).conn = r.conn) (n usedBytes usedCount : Nat) :
    Triple (Within n) (readHeaders store usedBytes usedCount) (fun _ => Within n) (Stopped n) := by
  intro r h
  have hloop := triple_readHeadersLoop hstore (Nat.lt_succ_self r.left) [] usedBytes usedCount
  refine hloop.mono (fun _ h => h) ?_ ?_ r le_rfl
  · exact fun _ r' hr => Nat.le_trans hr h
  · exact fun e r' he => ⟨he.1, Nat.le_trans he.2 h⟩

/-! ## Readers over the same stream -/

/-- Two readers that differ in how the same stream is delivered. -/
structure SameStream (r t : Http1Reader) : Prop where
  eq : t = r.withConn t.conn
  clean_left : r.conn.Clean
  clean_right : t.conn.Clean
  stream : r.conn.stream = t.conn.stream

theorem SameStream.conn {t : Http1Reader} (h : SameStream r t) {c c' : Conn} (hc : c.Clean)
    (hc' : c'.Clean) (hs : c.stream = c'.stream) : SameStream (r.withConn c) (t.withConn c') := by
  refine ⟨?_, hc, hc', hs⟩
  rw [h.eq]
  rfl

/-- What does not touch the connection does not depend on it. -/
theorem agrees_gets_of {α : Type} {f : Http1Reader → α}
    (hf : ∀ (r : Http1Reader) c, f (r.withConn c) = f r) :
    Agrees SameStream (gets f : Read α) SameStream := by
  refine agrees_gets fun r t h => ?_
  rw [h.eq, hf]

theorem agrees_modify_of {f : Http1Reader → Http1Reader}
    (hf : ∀ (r : Http1Reader) c, f (r.withConn c) = (f r).withConn c) :
    Agrees SameStream (modify f : Read Unit) SameStream := by
  refine agrees_modify fun r t h => ?_
  have hconn : ∀ r : Http1Reader, (f r).conn = r.conn := fun r => by
    have hself := congrArg Http1Reader.conn (hf r r.conn)
    rwa [Http1Reader.withConn_self] at hself
  have heq : f t = (f r).withConn t.conn := by
    conv_lhs => rw [h.eq]
    rw [hf]
  refine ⟨?_, ?_, ?_, ?_⟩
  · rw [heq]
    rfl
  · rw [hconn]
    exact h.clean_left
  · rw [hconn]
    exact h.clean_right
  · rw [hconn, hconn]
    exact h.stream

theorem agrees_left :
    Agrees SameStream (gets fun r => r.conn.stream.length : Read Nat) SameStream :=
  agrees_gets fun _ _ h => congrArg List.length h.stream

theorem agrees_setState (state : ReadState) : Agrees SameStream (setState state) SameStream :=
  agrees_modify_of fun _ _ => rfl

theorem agrees_readByte : Agrees SameStream readByte SameStream := by
  intro r t h
  obtain ⟨c, hr, hc, hs⟩ := readByte_clean h.clean_left
  obtain ⟨c', ht, hc', hs'⟩ := readByte_clean h.clean_right
  rw [hr, ht]
  refine ⟨?_, fun _ _ => h.conn hc hc' ?_⟩
  · dsimp only
    rw [h.stream]
  · rw [hs, hs', h.stream]

theorem agrees_readLineLoop (limit : Nat) (allowCleanEof : Bool) (steps : Nat) (line : Bytes)
    (sawCarriageReturn sawAnyByte : Bool) :
    Agrees SameStream (readLineLoop limit allowCleanEof steps line sawCarriageReturn sawAnyByte)
      SameStream := by
  induction steps generalizing line sawCarriageReturn sawAnyByte with
  | zero => exact agrees_fail _
  | succ steps ih =>
    unfold readLineLoop
    refine agrees_bind agrees_readByte fun next => ?_
    cases next with
    | none => exact agrees_ite (fun _ => agrees_pure _) fun _ => agrees_fail _
    | some value =>
      refine agrees_ite (fun _ => ?_) fun _ => ?_
      · exact agrees_ite (fun _ => agrees_fail _) fun _ => agrees_pure _
      · refine agrees_ite (fun _ => ih _ _ _) fun _ => ?_
        refine agrees_ite (fun _ => agrees_fail _) fun _ => ?_
        exact agrees_ite (fun _ => agrees_fail _) fun _ => ih _ _ _

theorem agrees_readLine (limit : Nat) (allowCleanEof : Bool) :
    Agrees SameStream (readLine limit allowCleanEof) SameStream :=
  agrees_bind agrees_left fun _ => agrees_readLineLoop _ _ _ _ _ _

theorem agrees_readFullLine (limit : Nat) : Agrees SameStream (readFullLine limit) SameStream :=
  agrees_bind (agrees_readLine limit false) fun _ => agrees_pure _

/-- `store` writes beside the connection. -/
theorem agrees_readHeaders (hstore : ∀ bytes count (r : Http1Reader) c,
      store bytes count (r.withConn c) = (store bytes count r).withConn c)
    (usedBytes usedCount : Nat) :
    Agrees SameStream (readHeaders store usedBytes usedCount) SameStream := by
  have hloop : ∀ steps headers usedBytes usedCount,
      Agrees SameStream (readHeadersLoop store steps headers usedBytes usedCount) SameStream := by
    intro steps
    induction steps with
    | zero => exact fun _ _ _ => agrees_fail _
    | succ steps ih =>
      intro headers usedBytes usedCount
      unfold readHeadersLoop
      refine agrees_bind (agrees_gets_of fun _ _ => rfl) fun limits => ?_
      refine agrees_bind (agrees_failIf _ _) fun _ => ?_
      refine agrees_bind (agrees_readFullLine _) fun value => ?_
      refine agrees_bind (agrees_failIf _ _) fun _ => ?_
      refine agrees_bind (agrees_modify_of (hstore _ _)) fun _ => ?_
      refine agrees_ite (fun _ => agrees_pure _) fun _ => ?_
      refine agrees_bind (agrees_failIf _ _) fun _ => ?_
      refine agrees_bind (agrees_failIf _ _) fun _ => ?_
      refine agrees_bind (agrees_lift _) fun header => ?_
      exact agrees_bind (agrees_modify_of (hstore _ _)) fun _ => ih _ _ _
  exact agrees_bind agrees_left fun _ => hloop _ _ _ _

theorem agrees_ensureReady : Agrees SameStream ensureReady SameStream := by
  refine agrees_bind (agrees_gets_of fun _ _ => rfl) fun state => ?_
  refine agrees_bind (agrees_failIf _ _) fun _ => ?_
  refine agrees_bind (agrees_gets_of fun _ _ => rfl) fun limits => ?_
  exact agrees_bind (agrees_lift _) fun _ => agrees_setState _

theorem agrees_beginBody (body : HttpBodyInfo) (usedBytes usedCount : Nat) :
    Agrees SameStream (beginBody body usedBytes usedCount) SameStream := by
  refine agrees_bind (agrees_modify_of fun _ _ => rfl) fun _ => ?_
  refine agrees_bind (agrees_gets_of fun _ _ => rfl) fun limits => ?_
  cases body with
  | none => exact agrees_setState _
  | contentLength length =>
    refine agrees_ite (fun _ => ?_) fun _ => agrees_setState _
    exact agrees_bind (agrees_setState _) fun _ => agrees_fail _
  | chunked => exact agrees_setState _
  | closeDelimited => exact agrees_setState _

theorem agrees_readRequestHead : Agrees SameStream readRequestHead SameStream := by
  refine agrees_bind agrees_ensureReady fun _ => ?_
  refine agrees_bind (agrees_gets_of fun _ _ => rfl) fun limits => ?_
  refine agrees_bind (agrees_readLine _ _) fun line => ?_
  cases line with
  | none => exact agrees_bind (agrees_setState _) fun _ => agrees_pure _
  | some requestLine =>
    refine agrees_bind (agrees_lift _) fun parts => ?_
    obtain ⟨method, target, versionText⟩ := parts
    refine agrees_bind (agrees_modify_of fun _ _ => rfl) fun _ => ?_
    refine agrees_bind (agrees_lift _) fun version => ?_
    refine agrees_bind (agrees_readHeaders (fun _ _ _ _ => rfl) _ _) fun used => ?_
    obtain ⟨headers, usedBytes, usedCount⟩ := used
    refine agrees_bind (agrees_ite (fun _ => agrees_lift _) fun _ => agrees_pure _) fun _ => ?_
    refine agrees_bind (agrees_failIf _ _) fun _ => ?_
    refine agrees_bind (agrees_lift _) fun framing => ?_
    exact agrees_bind (agrees_beginBody _ _ _) fun _ => agrees_pure _

theorem agrees_readResponseHead (requestMethod : Bytes) :
    Agrees SameStream (readResponseHead requestMethod) SameStream := by
  refine agrees_bind agrees_ensureReady fun _ => ?_
  refine agrees_bind (agrees_gets_of fun _ _ => rfl) fun limits => ?_
  refine agrees_bind (agrees_readLine _ _) fun line => ?_
  cases line with
  | none => exact agrees_bind (agrees_setState _) fun _ => agrees_pure _
  | some statusLine =>
    refine agrees_bind (agrees_lift _) fun parts => ?_
    obtain ⟨version, status, reason⟩ := parts
    refine agrees_bind (agrees_readHeaders (fun _ _ _ _ => rfl) _ _) fun used => ?_
    obtain ⟨headers, usedBytes, usedCount⟩ := used
    refine agrees_bind (agrees_failIf _ _) fun _ => ?_
    refine agrees_bind (agrees_failIf _ _) fun _ => ?_
    refine agrees_bind (agrees_ite (fun _ => agrees_pure _) fun _ => agrees_lift _) fun framing =>
      ?_
    exact agrees_bind (agrees_beginBody _ _ _) fun _ => agrees_pure _

end Libca.Http
