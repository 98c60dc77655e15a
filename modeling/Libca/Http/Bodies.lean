import Libca.Http.Delivery

/-!
# Reading a body in parts (`http/http1_codec.cpp`)

A body is read by any number of `read_body` calls of any capacities.

* `readBodies_counted`, `readBodies_counted_short`: data of known length is a prefix of the stream,
  or an error where the stream is shorter.
* `readBodies_closeDelimited`: a close-delimited body is the rest of the stream.
* `sameBody_readBodies`: neither the delivery nor the capacities change the body, once there are
  more passes than bytes left.
-/

namespace Libca.Http

open Common Fallible

/-! ## Data of known length -/

/-- The reader after `count` bytes of data of known length; `next` follows the last. -/
def Http1Reader.counted (r : Http1Reader) (count : Nat) (next : ReadState) : Http1Reader :=
  { r with
    bodyDecoded := r.bodyDecoded + count
    bodyRemaining := r.bodyRemaining - count
    state := if r.bodyRemaining - count = 0 then next else r.state }

variable {r : Http1Reader}

/-- A filled buffer is not empty before the end of the stream, and holds no more than it. -/
theorem fillBuffer_filled (h : r.conn.Clean) (hstream : r.conn.stream ≠ []) :
    ∃ c : Conn, fillBuffer r = (.ok true, r.withConn c) ∧ c.Clean ∧ c.stream = r.conn.stream ∧
      0 < c.buffered.length ∧ c.buffered.length ≤ r.left := by
  obtain ⟨c, hfill, hc, hs, hne⟩ := fillBuffer_clean h
  refine ⟨c, ?_, hc, hs, List.length_pos_iff.mpr (hne (by rw [hs]; exact hstream)), ?_⟩
  · rw [hfill]
    simp [hstream]
  · unfold Http1Reader.left
    rw [← hs]
    unfold Conn.stream
    rw [List.length_append]
    exact Nat.le_add_right _ _

/-- At the end of the stream there is nothing to fill the buffer with. -/
theorem fillBuffer_atEnd (h : r.conn.Clean) (hstream : r.conn.stream = []) :
    ∃ c : Conn, fillBuffer r = (.ok false, r.withConn c) ∧ c.Clean ∧ c.stream = [] := by
  obtain ⟨c, hfill, hc, hs, -⟩ := fillBuffer_clean h
  refine ⟨c, ?_, hc, hs.trans hstream⟩
  rw [hfill]
  simp [hstream]

theorem takeDecoded_clean (h : r.conn.Clean) (count : Nat) {k : Nat}
    (hk : min count r.conn.buffered.length = k) (hleft : k ≤ r.left) :
    ∃ c : Conn, takeDecoded count r =
        (.ok (r.conn.stream.take k), { r with bodyDecoded := r.bodyDecoded + k, conn := c }) ∧
      c.Clean ∧ c.stream = r.conn.stream.drop k := by
  obtain ⟨c, htake, hc, hs⟩ := takeBuffered_clean h count
  rw [hk] at htake hs
  have hlen : (r.conn.stream.take k).length = k := List.length_take_of_le hleft
  refine ⟨c, ?_, hc, hs⟩
  unfold takeDecoded
  rw [bind_ok htake, modify_bind_apply, hlen]
  rfl

variable {capacity : Nat}

/-- One read of data of known length takes a nonempty prefix of what remains. -/
theorem readCounted_clean (h : r.conn.Clean) (eof : String) (next : ReadState)
    (hcapacity : 0 < capacity) (hremaining : 0 < r.bodyRemaining) (hstream : r.conn.stream ≠ []) :
    ∃ count c, 0 < count ∧ count ≤ r.bodyRemaining ∧ count ≤ r.left ∧ c.Clean ∧
      c.stream = r.conn.stream.drop count ∧
      readCounted eof next capacity r =
        (.ok (r.conn.stream.take count), (r.counted count next).withConn c) := by
  obtain ⟨c, hfill, hc, hs, hpos, hle⟩ := fillBuffer_filled h hstream
  have hleft : (r.withConn c).left = r.left := congrArg List.length hs
  obtain ⟨k, hk⟩ : ∃ k, min (min capacity r.bodyRemaining) c.buffered.length = k := ⟨_, rfl⟩
  obtain ⟨c', htake, hc', hs'⟩ := takeDecoded_clean
    (show (r.withConn c).conn.Clean from hc) (min capacity (r.withConn c).bodyRemaining) hk
    (by rw [hleft]; omega)
  have hlen : (r.conn.stream.take k).length = k :=
    List.length_take_of_le (show k ≤ r.left by omega)
  rw [Http1Reader.withConn_conn, hs] at htake hs'
  refine ⟨k, c', by omega, by omega, by omega, hc', hs', ?_⟩
  unfold readCounted
  rw [bind_ok hfill, failIf_neg (by simp), pure_bind_apply, gets_bind_apply, bind_ok htake,
    modify_bind_apply, hlen]
  rfl

theorem readCounted_atEnd (h : r.conn.Clean) (eof : String) (next : ReadState)
    (capacity : Nat) (hstream : r.conn.stream = []) :
    ∃ s, readCounted eof next capacity r = (.error ⟨.invalidMessage, eof⟩, s) := by
  obtain ⟨c, hfill, -, -⟩ := fillBuffer_atEnd h hstream
  refine ⟨r.withConn c, ?_⟩
  unfold readCounted
  rw [bind_ok hfill, failIf_pos (by simp)]
  rfl

/-! ## Bodies -/

/-- A state in which `read_body` reads data of known length. -/
structure Counts (state : ReadState) (eof : String) (next : ReadState) : Prop where
  unfinished : state ≠ .bodyComplete
  readBody_eq : ∀ (capacity : Nat) (r : Http1Reader), 0 < capacity → r.state = state →
    readBody capacity r =
      onError (fun r => { r with state := .failed }) (readCounted eof next capacity) r

theorem counts_fixedBody : Counts .fixedBody "unexpected EOF inside HTTP body" .bodyComplete := by
  refine ⟨by decide, fun capacity r hcapacity hr => ?_⟩
  unfold readBody
  rw [gets_bind_apply, hr, failIf_neg (by decide), pure_bind_apply, if_neg (by simp; omega),
    if_pos rfl]
  rfl

theorem counts_chunkData :
    Counts .chunkData "unexpected EOF inside HTTP chunk" .chunkDataEnding := by
  refine ⟨by decide, fun capacity r hcapacity hr => ?_⟩
  have hbefore : readChunkPrefix r = (.ok (), r) := by
    unfold readChunkPrefix
    rw [gets_bind_apply, hr, if_neg (by decide), pure_bind_apply, if_pos rfl, pure_apply]
  have hpart : readChunkedBodyPart capacity r = readChunkData capacity r := by
    unfold readChunkedBodyPart
    rw [bind_ok hbefore, gets_bind_apply, hr, if_pos rfl]
  unfold readBody
  rw [gets_bind_apply, hr, failIf_neg (by decide), pure_bind_apply, if_neg (by simp; omega),
    if_neg (by decide), if_neg (by decide)]
  unfold onError
  rw [hpart]
  rfl

variable {r' : Http1Reader}

theorem readBodies_cons (hr : r.state ≠ .bodyComplete)
    {part : Bytes} (hpart : readBody capacity r = (.ok part, r')) (capacities : List Nat) :
    readBodies (capacity :: capacities) r =
      (readBodies capacities >>= fun rest => pure (part ++ rest)) r' := by
  have hfinished : r.bodyFinished ≠ true := by simpa [Http1Reader.bodyFinished] using hr
  conv_lhs => unfold readBodies
  rw [gets_bind_apply, if_neg hfinished, bind_ok hpart]

variable {e : HttpError}

theorem readBodies_cons_error (hr : r.state ≠ .bodyComplete)
    (hpart : readBody capacity r = (.error e, r')) (capacities : List Nat) :
    readBodies (capacity :: capacities) r = (.error e, r') := by
  have hfinished : r.bodyFinished ≠ true := by simpa [Http1Reader.bodyFinished] using hr
  conv_lhs => unfold readBodies
  rw [gets_bind_apply, if_neg hfinished, bind_error hpart]

theorem readBodies_finished (hr : r.state = .bodyComplete)
    (capacities : List Nat) : readBodies capacities r = (.ok [], r) := by
  cases capacities with
  | nil => rfl
  | cons capacity capacities =>
    unfold readBodies
    rw [gets_bind_apply, if_pos (by simp [Http1Reader.bodyFinished, hr])]
    rfl

variable {eof : String} {capacities : List Nat}

/-- **A run over data of known length** ends with the data, and goes on in the next state with what
is left of the capacities. -/
theorem readBodies_counted {state next : ReadState} (hstate : Counts state eof next)
    (hpos : ∀ c ∈ capacities, 0 < c)
    (hclean : r.conn.Clean) (hr : r.state = state) (hremaining : 0 < r.bodyRemaining)
    (hleft : r.bodyRemaining ≤ r.left) (hlen : r.bodyRemaining ≤ capacities.length) :
    ∃ capacities' c, (∀ c ∈ capacities', 0 < c) ∧
      capacities.length ≤ capacities'.length + r.bodyRemaining ∧ c.Clean ∧
      c.stream = r.conn.stream.drop r.bodyRemaining ∧
      readBodies capacities r =
        (readBodies capacities' >>= fun rest => pure (r.conn.stream.take r.bodyRemaining ++ rest))
          ((r.counted r.bodyRemaining next).withConn c) := by
  induction capacities generalizing r with
  | nil => exact absurd hlen (by simp; omega)
  | cons capacity capacities ih =>
    have hcapacity := hpos capacity (.head _)
    have hrest : ∀ c ∈ capacities, 0 < c := fun c hc => hpos c (.tail _ hc)
    have hstream : r.conn.stream ≠ [] := by
      intro hnil
      unfold Http1Reader.left at hleft
      rw [hnil, List.length_nil] at hleft
      omega
    obtain ⟨count, c, hcount, hcount', hcount'', hc, hs, hread⟩ :=
      readCounted_clean hclean eof next hcapacity hremaining hstream
    have hbody : readBody capacity r =
        (.ok (r.conn.stream.take count), (r.counted count next).withConn c) := by
      rw [hstate.readBody_eq capacity r hcapacity hr, onError_ok hread]
    rw [readBodies_cons (by rw [hr]; exact hstate.unfinished) hbody]
    by_cases hall : count = r.bodyRemaining
    · subst hall
      refine ⟨capacities, c, hrest, ?_, hc, hs, rfl⟩
      rw [List.length_cons]
      omega
    · -- the rest of the data is read by the calls that follow
      obtain ⟨r', hr'⟩ : ∃ r', r' = (r.counted count next).withConn c := ⟨_, rfl⟩
      have hremaining' : r'.bodyRemaining = r.bodyRemaining - count := by rw [hr']; rfl
      have hstream' : r'.conn.stream = r.conn.stream.drop count := by rw [hr']; exact hs
      have hleft' : r'.left = r.left - count := by
        unfold Http1Reader.left
        rw [hstream', List.length_drop]
      have hstate' : r'.state = state := by
        rw [hr']
        refine Eq.trans ?_ hr
        exact if_neg (by omega)
      obtain ⟨capacities', c', hpos', hlen', hc', hs', hrun⟩ := ih hrest
        (by rw [hr']; exact hc) hstate' (by omega) (by omega)
        (by rw [List.length_cons] at hlen; omega)
      refine ⟨capacities', c', hpos', ?_, hc', ?_, ?_⟩
      · rw [List.length_cons]
        omega
      · rw [hs', hstream', List.drop_drop, hremaining', Nat.add_sub_cancel' hcount']
      · have hend : (r'.counted r'.bodyRemaining next).withConn c' =
            (r.counted r.bodyRemaining next).withConn c' := by
          rw [hr']
          unfold Http1Reader.counted Http1Reader.withConn
          simp only [Nat.sub_self, if_true, Http1Reader.mk.injEq, true_and, and_true]
          omega
        rw [← hr', bind_pure_of_eq hrun, hend, hstream', hremaining']
        simp only [← List.append_assoc, ← List.take_add, Nat.add_sub_cancel' hcount']

/-- Data of known length that the stream does not hold is an error. -/
theorem readBodies_counted_short {state next : ReadState}
    (hstate : Counts state eof next) (hpos : ∀ c ∈ capacities, 0 < c)
    (hclean : r.conn.Clean) (hr : r.state = state)
    (hleft : r.left < r.bodyRemaining) (hlen : r.left < capacities.length) :
    ∃ s, readBodies capacities r = (.error ⟨.invalidMessage, eof⟩, s) := by
  induction capacities generalizing r with
  | nil => exact absurd hlen (Nat.not_lt_zero _)
  | cons capacity capacities ih =>
    have hcapacity := hpos capacity (.head _)
    have hrest : ∀ c ∈ capacities, 0 < c := fun c hc => hpos c (.tail _ hc)
    have hunfinished : r.state ≠ .bodyComplete := by
      rw [hr]
      exact hstate.unfinished
    by_cases hstream : r.conn.stream = []
    · obtain ⟨s, hread⟩ := readCounted_atEnd hclean eof next capacity hstream
      have hbody : readBody capacity r =
          (.error ⟨.invalidMessage, eof⟩, { s with state := .failed }) := by
        rw [hstate.readBody_eq capacity r hcapacity hr, onError_error hread]
      exact ⟨_, readBodies_cons_error hunfinished hbody _⟩
    · obtain ⟨count, c, hcount, hcount', hcount'', hc, hs, hread⟩ :=
        readCounted_clean hclean eof next hcapacity (by omega) hstream
      have hbody : readBody capacity r =
          (.ok (r.conn.stream.take count), (r.counted count next).withConn c) := by
        rw [hstate.readBody_eq capacity r hcapacity hr, onError_ok hread]
      have hleft' : ((r.counted count next).withConn c).left = r.left - count := by
        unfold Http1Reader.left
        rw [Http1Reader.withConn_conn, hs, List.length_drop]
      have hremaining' : ((r.counted count next).withConn c).bodyRemaining =
          r.bodyRemaining - count := rfl
      obtain ⟨s, hrun⟩ := ih hrest
        (show ((r.counted count next).withConn c).conn.Clean from hc)
          (Eq.trans (if_neg (by omega)) hr) (by omega) (by rw [List.length_cons] at hlen; omega)
      exact ⟨s, by rw [readBodies_cons hunfinished hbody, bind_error hrun]⟩

/-! ## Bodies that end with the stream -/

/-- The error of a close-delimited body that exceeds the limit. -/
def closeDelimitedLimit : HttpError :=
  ⟨.bodyLimitExceeded, "close-delimited HTTP body exceeds configured limit"⟩

theorem readBody_closeDelimited (hr : r.state = .closeDelimitedBody) (hcapacity : 0 < capacity) :
    readBody capacity r =
      onError (fun r => { r with state := .failed }) (readCloseDelimitedBodyPart capacity) r := by
  unfold readBody
  rw [gets_bind_apply, hr, failIf_neg (by decide), pure_bind_apply, if_neg (by simp; omega),
    if_neg (by decide), if_pos rfl]

/-- At the end of the stream the body is complete. -/
theorem readBody_closeDelimited_atEnd (hclean : r.conn.Clean)
    (hr : r.state = .closeDelimitedBody) (hcapacity : 0 < capacity) (hstream : r.conn.stream = []) :
    ∃ c : Conn, c.Clean ∧ c.stream = [] ∧ readBody capacity r =
      (.ok [], { r with conn := c, state := .bodyComplete }) := by
  obtain ⟨c, hfill, hc, hs⟩ := fillBuffer_atEnd hclean hstream
  have hpart : readCloseDelimitedBodyPart capacity r =
      (.ok [], { r with conn := c, state := .bodyComplete }) := by
    unfold readCloseDelimitedBodyPart
    rw [bind_ok hfill, if_pos (by simp)]
    rfl
  exact ⟨c, hc, hs, by rw [readBody_closeDelimited hr hcapacity, onError_ok hpart]⟩

/-- Before the end of the stream a nonempty prefix is taken, unless it exceeds the limit. -/
theorem readBody_closeDelimited_data (hclean : r.conn.Clean)
    (hr : r.state = .closeDelimitedBody) (hcapacity : 0 < capacity) (hstream : r.conn.stream ≠ []) :
    ∃ count c, 0 < count ∧ count ≤ r.left ∧ c.Clean ∧ c.stream = r.conn.stream.drop count ∧
      if count ≤ r.limits.maxBodyBytes - r.bodyDecoded then
        readBody capacity r = (.ok (r.conn.stream.take count),
          { r with bodyDecoded := r.bodyDecoded + count, conn := c })
      else ∃ s, readBody capacity r = (.error closeDelimitedLimit, s) := by
  obtain ⟨c, hfill, hc, hs, hpos, hle⟩ := fillBuffer_filled hclean hstream
  have hleft : (r.withConn c).left = r.left := congrArg List.length hs
  obtain ⟨k, hk⟩ : ∃ k, min capacity c.buffered.length = k := ⟨_, rfl⟩
  obtain ⟨c', htake, hc', hs'⟩ := takeDecoded_clean
    (show (r.withConn c).conn.Clean from hc) k
    (show min k c.buffered.length = k from Nat.min_eq_left (by omega)) (by rw [hleft]; omega)
  rw [Http1Reader.withConn_conn, hs] at htake hs'
  refine ⟨k, c', by omega, by omega, hc', hs', ?_⟩
  rw [readBody_closeDelimited hr hcapacity]
  have hpart : readCloseDelimitedBodyPart capacity r =
      (failIf (k > r.limits.maxBodyBytes - r.bodyDecoded) closeDelimitedLimit >>= fun _ =>
        takeDecoded k) (r.withConn c) := by
    unfold readCloseDelimitedBodyPart
    rw [bind_ok hfill, if_neg (by simp), gets_bind_apply, gets_bind_apply, gets_bind_apply]
    rw [← hk]
    rfl
  split_ifs with hfits
  · rw [onError_ok]
    rw [hpart, failIf_neg (by omega), pure_bind_apply, htake]
    rfl
  · have herror : readCloseDelimitedBodyPart capacity r =
        (.error closeDelimitedLimit, r.withConn c) := by
      rw [hpart, failIf_pos (by omega)]
      rfl
    exact ⟨_, onError_error herror⟩

/-- A close-delimited body is the rest of the stream, if the limit allows it. -/
theorem readBodies_closeDelimited (hpos : ∀ c ∈ capacities, 0 < c)
    (hclean : r.conn.Clean) (hr : r.state = .closeDelimitedBody)
    (hlen : r.left < capacities.length) :
    if r.left ≤ r.limits.maxBodyBytes - r.bodyDecoded then
      ∃ c : Conn, c.Clean ∧ c.stream = [] ∧ readBodies capacities r =
        (.ok r.conn.stream, { r with
          bodyDecoded := r.bodyDecoded + r.left, conn := c, state := .bodyComplete })
    else ∃ s, readBodies capacities r = (.error closeDelimitedLimit, s) := by
  induction capacities generalizing r with
  | nil => exact absurd hlen (Nat.not_lt_zero _)
  | cons capacity capacities ih =>
    have hcapacity := hpos capacity (.head _)
    have hrest : ∀ c ∈ capacities, 0 < c := fun c hc => hpos c (.tail _ hc)
    have hunfinished : r.state ≠ .bodyComplete := by
      rw [hr]
      decide
    by_cases hstream : r.conn.stream = []
    · obtain ⟨c, hc, hs, hbody⟩ := readBody_closeDelimited_atEnd hclean hr hcapacity hstream
      have hleft : r.left = 0 := congrArg List.length hstream
      rw [if_pos (by omega)]
      refine ⟨c, hc, hs, ?_⟩
      rw [readBodies_cons hunfinished hbody, bind_ok (readBodies_finished rfl _), hstream, hleft]
      rfl
    · obtain ⟨count, c, hcount, hcount', hc, hs, hbody⟩ :=
        readBody_closeDelimited_data hclean hr hcapacity hstream
      obtain ⟨r', hr'⟩ : ∃ r', r' = ({ r with
        bodyDecoded := r.bodyDecoded + count, conn := c } : Http1Reader) := ⟨_, rfl⟩
      rw [← hr'] at hbody
      have hleft' : r'.left = r.left - count := by
        rw [hr']
        unfold Http1Reader.left
        rw [hs, List.length_drop]
      have hlimits : r'.limits = r.limits := by rw [hr']
      have hdecoded : r'.bodyDecoded = r.bodyDecoded + count := by rw [hr']
      have hrun := ih hrest (show r'.conn.Clean by rw [hr']; exact hc) (by rw [hr']; exact hr)
        (by rw [List.length_cons] at hlen; omega)
      rw [hleft', hlimits, hdecoded] at hrun
      by_cases hfits : r.left ≤ r.limits.maxBodyBytes - r.bodyDecoded
      · rw [if_pos (by omega)] at hbody hrun ⊢
        obtain ⟨c', hc', hs', hrun⟩ := hrun
        refine ⟨c', hc', hs', ?_⟩
        have hstream' : r'.conn.stream = r.conn.stream.drop count := by
          rw [hr']
          exact hs
        have htotal : r.bodyDecoded + count + (r.left - count) = r.bodyDecoded + r.left := by omega
        rw [readBodies_cons hunfinished hbody, bind_ok hrun, pure_apply, hstream',
          List.take_append_drop, htotal, hr']
      · rw [if_neg hfits]
        split_ifs at hbody
        · rw [if_neg (by omega)] at hrun
          obtain ⟨s, hrun⟩ := hrun
          exact ⟨s, by rw [readBodies_cons hunfinished hbody, bind_error hrun]⟩
        · obtain ⟨s, hbody⟩ := hbody
          exact ⟨s, readBodies_cons_error hunfinished hbody _⟩

/-! ## Chunked bodies -/

/-- What precedes the data of a chunk ends with data to read or with the body. -/
def AtData (n : Nat) (r : Http1Reader) : Prop :=
  (r.state = .bodyComplete ∨ r.state = .chunkData ∧ 0 < r.bodyRemaining) ∧ r.left ≤ n

theorem triple_readChunkSize (n : Nat) :
    Triple (Within n) readChunkSize (fun _ => AtData n) fun _ _ => True := by
  have hgets : ∀ {α : Type} (f : Http1Reader → α),
      Triple (Within n) (gets f) (fun _ => Within n) fun (_ : HttpError) _ => True :=
    fun f => triple_gets fun r h => h
  refine triple_bind (hgets _) fun limits => ?_
  have hline : Triple (Within n) (readFullLine limits.maxStartLineBytes) (fun _ => Within n)
      fun _ _ => True :=
    (triple_readFullLine n _).success.mono (fun _ h => h) (fun _ _ h => Nat.le_of_succ_le h)
      fun _ _ h => h
  refine triple_bind hline fun line => ?_
  have hlift : ∀ {α : Type} (r : Except HttpError α),
      Triple (Within n) (lift r) (fun _ => Within n) fun _ _ => True :=
    fun r => triple_lift (fun _ _ _ h => h) fun _ _ _ _ => trivial
  refine triple_bind (hlift _) fun size => ?_
  refine triple_ite (fun _ => ?_) fun hsize => ?_
  · refine triple_bind (hgets _) fun usedBytes => ?_
    refine triple_bind (hgets _) fun usedCount => ?_
    have hstore : ∀ bytes count r, (storeUsed bytes count r).conn = r.conn := fun _ _ _ => rfl
    refine triple_bind (triple_readHeaders hstore n usedBytes usedCount).success fun used => ?_
    obtain ⟨trailers, -, -⟩ := used
    refine triple_bind (S := fun _ => Within n) (triple_modify fun r h => h) fun _ => ?_
    refine triple_bind (hlift _) fun _ => ?_
    exact triple_modify fun r h => ⟨.inl rfl, h⟩
  · refine triple_bind (hgets _) fun decoded => ?_
    refine triple_bind (S := fun _ => Within n)
      (triple_failIf (fun _ _ h => h) fun _ _ _ => trivial) fun _ => ?_
    exact triple_modify fun r h => ⟨.inr ⟨rfl, Nat.pos_of_ne_zero hsize⟩, h⟩

theorem triple_readChunkPrefix (n : Nat) :
    Triple (fun r => Within n r ∧ r.state ≠ .chunkData) readChunkPrefix (fun _ => AtData n)
      fun _ _ => True := by
  refine triple_bind (S := fun state r => Within n r ∧ state ≠ .chunkData)
    (triple_gets fun r h => h) fun state => ?_
  refine triple_bind (S := fun _ r => Within n r ∧ state ≠ .chunkData) ?_ fun _ => ?_
  · refine triple_ite (fun hstate => ?_) fun _ => triple_pure fun r h => h
    subst hstate
    refine Triple.mono (P := Within n) (Q := fun _ => Within n) (E := fun _ _ => True) ?_
      (fun r h => h.1) (fun _ r h => ⟨h, by decide⟩) fun _ _ h => h
    have hbyte : Triple (Within n) readByte (fun _ => Within n) fun _ _ => True :=
      (triple_readByte n).success.mono (fun _ h => h)
        (fun _ _ h => Nat.le_trans (Nat.le_add_right _ _) h) fun _ _ h => h
    refine triple_bind hbyte fun _ => triple_bind hbyte fun _ => ?_
    refine triple_bind (S := fun _ => Within n) (triple_failIf (fun _ _ h => h) fun _ _ _ =>
      trivial) fun _ => ?_
    exact triple_modify fun r h => h
  · refine triple_ite (fun hstate => triple_pure fun r h => absurd hstate h.2) fun _ => ?_
    exact (triple_readChunkSize n).mono (fun r h => h.1) (fun _ _ h => h) fun _ _ h => h

theorem agrees_readChunkPrefix : Agrees SameStream readChunkPrefix SameStream := by
  have hsize : Agrees SameStream readChunkSize SameStream := by
    refine agrees_bind (agrees_gets_of fun _ _ => rfl) fun limits => ?_
    refine agrees_bind (agrees_readFullLine _) fun line => ?_
    refine agrees_bind (agrees_lift _) fun size => ?_
    refine agrees_ite (fun _ => ?_) fun _ => ?_
    · refine agrees_bind (agrees_gets_of fun _ _ => rfl) fun usedBytes => ?_
      refine agrees_bind (agrees_gets_of fun _ _ => rfl) fun usedCount => ?_
      refine agrees_bind (agrees_readHeaders (fun _ _ _ _ => rfl) _ _) fun used => ?_
      obtain ⟨trailers, -, -⟩ := used
      refine agrees_bind (agrees_modify_of fun _ _ => rfl) fun _ => ?_
      exact agrees_bind (agrees_lift _) fun _ => agrees_setState _
    · refine agrees_bind (agrees_gets_of fun _ _ => rfl) fun decoded => ?_
      refine agrees_bind (agrees_failIf _ _) fun _ => ?_
      exact agrees_modify_of fun _ _ => rfl
  have hending : Agrees SameStream readChunkEnding SameStream := by
    refine agrees_bind agrees_readByte fun carriageReturn => ?_
    refine agrees_bind agrees_readByte fun lineFeed => ?_
    exact agrees_bind (agrees_failIf _ _) fun _ => agrees_setState _
  refine agrees_bind (agrees_gets_of fun _ _ => rfl) fun state => ?_
  refine agrees_bind (agrees_ite (fun _ => hending) fun _ => agrees_pure ()) fun _ => ?_
  exact agrees_ite (fun _ => agrees_pure ()) fun _ => hsize

/-! ## Bodies do not depend on the delivery or the capacities -/

/-- There is data to read in the states that read data of known length. -/
def BodyBegun (r : Http1Reader) : Prop :=
  r.state = .fixedBody ∨ r.state = .chunkData → 0 < r.bodyRemaining

/-- Two ends of a loop over a body: equal results, and over the same stream with the body complete
if it succeeded. -/
def SameBody (p q : Except HttpError Bytes × Http1Reader) : Prop :=
  Same (fun r t => SameStream r t ∧ r.state = .bodyComplete) p q

theorem sameBody_error {s s' : Http1Reader} : SameBody (.error e, s) (.error e, s') :=
  ⟨rfl, fun _ h => nomatch h⟩

variable {t : Http1Reader}

/-- The same bytes put before what two loops read. -/
theorem SameBody.prepend {x y : Read Bytes} (h : SameBody (x r) (y t)) (bytes : Bytes) :
    SameBody ((x >>= fun rest => pure (bytes ++ rest)) r)
      ((y >>= fun rest => pure (bytes ++ rest)) t) := by
  cases hx : x r with
  | mk res r' =>
    cases hy : y t with
    | mk res' t' =>
      rw [hx, hy] at h
      obtain rfl : res = res' := h.result
      cases res with
      | error e =>
        rw [bind_error hx, bind_error hy]
        exact sameBody_error
      | ok rest =>
        rw [bind_ok hx, bind_ok hy]
        exact ⟨rfl, fun _ _ => h.state rest rfl⟩

theorem SameStream.left_eq (h : SameStream r t) : t.left = r.left :=
  congrArg List.length h.stream.symm

theorem SameStream.apply_eq {α : Type} (h : SameStream r t)
    (f : Http1Reader → α) (hf : ∀ r c, f (Http1Reader.withConn r c) = f r) : f t = f r := by
  rw [h.eq, hf]

theorem SameStream.state_eq (h : SameStream r t) : t.state = r.state :=
  h.apply_eq Http1Reader.state fun _ _ => rfl

variable {capacities' : List Nat}

/-- Data of known length: the loops go on alike after it, or fail alike. -/
theorem sameBody_counted {state next : ReadState} (hstate : Counts state eof next)
    {n : Nat} (hnext : ∀ r t capacities capacities', SameStream r t → r.state = next → r.left < n →
      (∀ c ∈ capacities, 0 < c) → (∀ c ∈ capacities', 0 < c) → r.left < capacities.length →
      r.left < capacities'.length → SameBody (readBodies capacities r) (readBodies capacities' t))
    (h : SameStream r t) (hr : r.state = state) (hremaining : 0 < r.bodyRemaining) (hn : r.left ≤ n)
    (hpos : ∀ c ∈ capacities, 0 < c) (hpos' : ∀ c ∈ capacities', 0 < c)
    (hlen : r.left < capacities.length) (hlen' : r.left < capacities'.length) :
    SameBody (readBodies capacities r) (readBodies capacities' t) := by
  have hleft : t.left = r.left := h.left_eq
  have ht : t.state = state := h.state_eq.trans hr
  have hremaining' : t.bodyRemaining = r.bodyRemaining := h.apply_eq _ fun _ _ => rfl
  rcases Nat.lt_or_ge r.left r.bodyRemaining with hshort | hdata
  · obtain ⟨s, hrun⟩ := readBodies_counted_short hstate hpos h.clean_left hr hshort hlen
    obtain ⟨s', hrun'⟩ := readBodies_counted_short hstate hpos' h.clean_right ht (by omega)
      (by omega)
    rw [hrun, hrun']
    exact sameBody_error
  · obtain ⟨rest, c, hrest, hrestlen, hc, hs, hrun⟩ :=
      readBodies_counted hstate hpos h.clean_left hr hremaining hdata (by omega)
    obtain ⟨rest', c', hrest', hrestlen', hc', hs', hrun'⟩ :=
      readBodies_counted hstate hpos' h.clean_right ht (by omega) (by omega) (by omega)
    rw [hrun, hrun', hremaining', ← h.stream]
    refine SameBody.prepend ?_ _
    have hcounted : SameStream (r.counted r.bodyRemaining next)
      (t.counted r.bodyRemaining next) := by
      refine ⟨?_, h.clean_left, h.clean_right, h.stream⟩
      conv_lhs => rw [h.eq]
      rfl
    have hleft' : ((r.counted r.bodyRemaining next).withConn c).left =
      r.left - r.bodyRemaining := by
      unfold Http1Reader.left
      rw [Http1Reader.withConn_conn, hs, List.length_drop]
    refine hnext _ _ _ _ (hcounted.conn hc hc' ?_) ?_ (by omega) hrest hrest' (by omega) (by omega)
    · rw [hs, hs', hremaining', h.stream]
    · exact if_pos (Nat.sub_self _)

theorem readBody_chunked (capacity : Nat)
    (hr : r.state = .chunkSize ∨ r.state = .chunkData ∨ r.state = .chunkDataEnding)
    (hcapacity : 0 < capacity) :
    readBody capacity r =
      onError (fun r => { r with state := .failed }) (readChunkedBodyPart capacity) r := by
  unfold readBody
  rcases hr with hr | hr | hr <;>
    rw [gets_bind_apply, hr, failIf_neg (by decide), pure_bind_apply, if_neg (by simp; omega),
      if_neg (by decide), if_neg (by decide)]

/-- The first pass between chunks: the end of the body, or the same pass on the next chunk's
data. -/
theorem readBodies_chunkPrefix (hr : r.state = .chunkSize ∨ r.state = .chunkDataEnding)
    (hbefore : readChunkPrefix r = (.ok (), r'))
    (hpos : ∀ c ∈ capacities, 0 < c) (hne : capacities ≠ []) :
    (r'.state = .bodyComplete → readBodies capacities r = (.ok [], r')) ∧
      (r'.state = .chunkData → readBodies capacities r = readBodies capacities r') := by
  have hunfinished : r.state ≠ .bodyComplete := by
    rcases hr with hr | hr <;> rw [hr] <;> decide
  cases capacities with
  | nil => exact absurd rfl hne
  | cons capacity capacities =>
    have hcapacity := hpos capacity (.head _)
    have hbody := readBody_chunked capacity (hr.imp_right .inr) hcapacity
    constructor
    · intro hcomplete
      have hpart : readChunkedBodyPart capacity r = (.ok [], r') := by
        unfold readChunkedBodyPart
        rw [bind_ok hbefore, gets_bind_apply, hcomplete, if_neg (by decide)]
        rfl
      rw [onError_ok hpart] at hbody
      rw [readBodies_cons hunfinished hbody, bind_ok (readBodies_finished hcomplete _)]
      rfl
    · intro hdata
      have hpart : readChunkedBodyPart capacity r = readChunkedBodyPart capacity r' := by
        have hbefore' : readChunkPrefix r' = (.ok (), r') := by
          unfold readChunkPrefix
          rw [gets_bind_apply, hdata, if_neg (by decide), pure_bind_apply, if_pos rfl, pure_apply]
        unfold readChunkedBodyPart
        rw [bind_ok hbefore, bind_ok hbefore']
      have hbody' := readBody_chunked capacity (.inr (.inl hdata)) hcapacity
      have heq : readBody capacity r = readBody capacity r' := by
        rw [hbody, hbody']
        unfold onError
        rw [hpart]
      have hunfinished' : r'.state ≠ .bodyComplete := by
        rw [hdata]
        decide
      cases hread : readBody capacity r' with
      | mk res s =>
        rw [hread] at heq
        cases res with
        | ok part => rw [readBodies_cons hunfinished heq, readBodies_cons hunfinished' hread]
        | error e =>
          rw [readBodies_cons_error hunfinished heq, readBodies_cons_error hunfinished' hread]

theorem readBodies_chunkPrefix_error {s : Http1Reader}
    (hr : r.state = .chunkSize ∨ r.state = .chunkDataEnding)
    (hbefore : readChunkPrefix r = (.error e, s))
    (hpos : ∀ c ∈ capacities, 0 < c) (hne : capacities ≠ []) :
    ∃ s, readBodies capacities r = (.error e, s) := by
  have hunfinished : r.state ≠ .bodyComplete := by
    rcases hr with hr | hr <;> rw [hr] <;> decide
  cases capacities with
  | nil => exact absurd rfl hne
  | cons capacity capacities =>
    have hcapacity := hpos capacity (.head _)
    have hbody := readBody_chunked capacity (hr.imp_right .inr) hcapacity
    have hpart : readChunkedBodyPart capacity r = (.error e, s) := by
      unfold readChunkedBodyPart
      rw [bind_error hbefore]
    rw [onError_error hpart] at hbody
    exact ⟨_, readBodies_cons_error hunfinished hbody _⟩

/-- Without a body the first pass fails. -/
theorem readBodies_noBody (hr : r.state.noBody = true) (hne : capacities ≠ []) :
    readBodies capacities r = (.error ⟨.invalidState, "there is no readable HTTP body"⟩, r) := by
  cases capacities with
  | nil => exact absurd rfl hne
  | cons capacity capacities =>
    refine readBodies_cons_error ?_ ?_ capacities
    · intro hcomplete
      rw [hcomplete] at hr
      cases hr
    · unfold readBody
      rw [gets_bind_apply, failIf_pos hr]
      rfl

/-- Between chunks: alike, if the loops go on alike after the next chunk's data. -/
theorem sameBody_chunk {n : Nat} (hnext : ∀ r t capacities capacities', SameStream r t →
      r.state = .chunkDataEnding → r.left < n → (∀ c ∈ capacities, 0 < c) →
      (∀ c ∈ capacities', 0 < c) → r.left < capacities.length → r.left < capacities'.length →
      SameBody (readBodies capacities r) (readBodies capacities' t)) (h : SameStream r t)
    (hr : r.state = .chunkSize ∨ r.state = .chunkDataEnding) (hn : r.left ≤ n)
    (hpos : ∀ c ∈ capacities, 0 < c) (hpos' : ∀ c ∈ capacities', 0 < c)
    (hlen : r.left < capacities.length) (hlen' : r.left < capacities'.length) :
    SameBody (readBodies capacities r) (readBodies capacities' t) := by
  have ht : t.state = .chunkSize ∨ t.state = .chunkDataEnding := by
    rw [h.state_eq]
    exact hr
  have hne : capacities ≠ [] := List.ne_nil_of_length_pos (by omega)
  have hne' : capacities' ≠ [] := List.ne_nil_of_length_pos (by omega)
  obtain ⟨e, s, s', hs, hs'⟩ | ⟨_, r', t', hs, hs', h'⟩ := agrees_readChunkPrefix.cases h
  · obtain ⟨s, hrun⟩ := readBodies_chunkPrefix_error hr hs hpos hne
    obtain ⟨s', hrun'⟩ := readBodies_chunkPrefix_error ht hs' hpos' hne'
    rw [hrun, hrun']
    exact sameBody_error
  · obtain ⟨hdone, hdata⟩ := readBodies_chunkPrefix hr hs hpos hne
    obtain ⟨hdone', hdata'⟩ := readBodies_chunkPrefix ht hs' hpos' hne'
    have hstate' : t'.state = r'.state := h'.state_eq
    have hnotData : r.state ≠ .chunkData := by
      rcases hr with hr | hr <;> rw [hr] <;> decide
    obtain ⟨hat, hleft⟩ := (triple_readChunkPrefix r.left).ok ⟨le_rfl, hnotData⟩ hs
    rcases hat with hcomplete | ⟨hchunk, hremaining⟩
    · rw [hdone hcomplete, hdone' (hstate'.trans hcomplete)]
      exact ⟨rfl, fun _ _ => ⟨h', hcomplete⟩⟩
    · rw [hdata hchunk, hdata' (hstate'.trans hchunk)]
      exact sameBody_counted counts_chunkData hnext h' hchunk hremaining (by omega) hpos hpos'
        (by omega) (by omega)

/-- **Body bytes do not depend on the delivery or on the capacities**, as long as there are more
passes than bytes left. -/
theorem sameBody_readBodies
    (h : SameStream r t) (hbegun : BodyBegun r) (hpos : ∀ c ∈ capacities, 0 < c)
    (hpos' : ∀ c ∈ capacities', 0 < c) (hlen : r.left < capacities.length)
    (hlen' : r.left < capacities'.length) :
    SameBody (readBodies capacities r) (readBodies capacities' t) := by
  induction hn : r.left using Nat.strong_induction_on generalizing r t capacities capacities' with
  | _ n ih =>
    have hnext : ∀ r t capacities capacities', SameStream r t → r.state = .chunkDataEnding →
        r.left < n → (∀ c ∈ capacities, 0 < c) → (∀ c ∈ capacities', 0 < c) →
        r.left < capacities.length → r.left < capacities'.length →
        SameBody (readBodies capacities r) (readBodies capacities' t) := by
      intro r t capacities capacities' h hr hlt hpos hpos' hlen hlen'
      refine ih r.left hlt h ?_ hpos hpos' hlen hlen' rfl
      rintro (hfixed | hdata)
      · rw [hr] at hfixed
        cases hfixed
      · rw [hr] at hdata
        cases hdata
    have ht : t.state = r.state := h.state_eq
    cases hr : r.state with
    | fixedBody =>
      refine sameBody_counted counts_fixedBody ?_ h hr (hbegun (.inl hr)) (Nat.le_of_eq hn) hpos
        hpos' hlen hlen'
      intro r t capacities capacities' h hr _ _ _ _ _
      rw [readBodies_finished hr, readBodies_finished (h.state_eq.trans hr)]
      exact ⟨rfl, fun _ _ => ⟨h, hr⟩⟩
    | chunkData =>
      exact sameBody_counted counts_chunkData hnext h hr (hbegun (.inr hr)) (Nat.le_of_eq hn) hpos
        hpos' hlen hlen'
    | chunkSize =>
      exact sameBody_chunk hnext h (.inl hr) (Nat.le_of_eq hn) hpos hpos' hlen hlen'
    | chunkDataEnding =>
      exact sameBody_chunk hnext h (.inr hr) (Nat.le_of_eq hn) hpos hpos' hlen hlen'
    | closeDelimitedBody =>
      have hleft : t.left = r.left := h.left_eq
      have hlimits : t.limits = r.limits := h.apply_eq Http1Reader.limits fun _ _ => rfl
      have hdecoded : t.bodyDecoded = r.bodyDecoded :=
        h.apply_eq Http1Reader.bodyDecoded fun _ _ => rfl
      have hrun := readBodies_closeDelimited hpos h.clean_left hr hlen
      have hrun' := readBodies_closeDelimited hpos' h.clean_right (ht.trans hr) (by omega)
      rw [hleft, hlimits, hdecoded] at hrun'
      split_ifs at hrun hrun'
      · obtain ⟨c, hc, hs, hrun⟩ := hrun
        obtain ⟨c', hc', hs', hrun'⟩ := hrun'
        rw [hrun, hrun', h.stream]
        refine ⟨rfl, fun _ _ => ⟨⟨?_, hc, hc', hs.trans hs'.symm⟩, rfl⟩⟩
        conv_lhs => rw [h.eq]
        rfl
      · obtain ⟨s, hrun⟩ := hrun
        obtain ⟨s', hrun'⟩ := hrun'
        rw [hrun, hrun']
        exact sameBody_error
    | bodyComplete =>
      rw [readBodies_finished hr, readBodies_finished (ht.trans hr)]
      exact ⟨rfl, fun _ _ => ⟨h, hr⟩⟩
    | ready | readingHead | failed =>
      have hnone : r.state.noBody = true := by rw [hr]; decide
      have hnone' : t.state.noBody = true := by rw [ht]; exact hnone
      rw [readBodies_noBody hnone (List.ne_nil_of_length_pos (by omega)),
        readBodies_noBody hnone' (List.ne_nil_of_length_pos (by omega))]
      exact sameBody_error

/-- `body_finished` after a loop: more capacities change nothing. -/
theorem readBodies_append {body : Bytes}
    (h : readBodies capacities r = (.ok body, r')) (hfinished : r'.state = .bodyComplete)
    (more : List Nat) : readBodies (capacities ++ more) r = (.ok body, r') := by
  induction capacities generalizing r body with
  | nil =>
    obtain ⟨rfl, rfl⟩ : [] = body ∧ r = r' := by
      unfold readBodies at h
      simpa using h
    exact readBodies_finished hfinished more
  | cons capacity capacities ih =>
    by_cases hr : r.state = .bodyComplete
    · rw [readBodies_finished hr] at h ⊢
      exact h
    · cases hread : readBody capacity r with
      | mk res s =>
        cases res with
        | error e =>
          rw [readBodies_cons_error hr hread] at h
          cases h
        | ok part =>
          rw [readBodies_cons hr hread] at h
          cases hrest : readBodies capacities s with
          | mk res' s' =>
            cases res' with
            | error e =>
              rw [bind_error hrest] at h
              cases h
            | ok rest =>
              rw [bind_ok hrest] at h
              obtain ⟨rfl, rfl⟩ : part ++ rest = body ∧ s' = r' := by simpa using h
              rw [List.cons_append, readBodies_cons hr hread, bind_ok (ih hrest)]
              rfl

end Libca.Http
