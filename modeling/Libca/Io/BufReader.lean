import Libca.Common.Run
import Libca.Io.Stream

/-!
# `BufReader` (`io/buffered.cpp` 61-209)

A reader with a buffer in front of a byte stream. What a caller of it sees is the stream `unread`:
what is in the buffer, and behind it what the inner reader has.

Left out: moved-from objects, `into_inner`.

* `Hands r out r'`: a step that takes `out` from the front of that stream.
* `read_spec`, `fillBuf_spec`, `consume_spec`, `readUntil_spec`: each call is such a step, also when
  it fails.
* `buf_reader_transparent`: what was handed out, in order, is what the inner reader has given
  without what the buffer holds.
-/

namespace Libca.Io

open Common

/-- `inner` is null in a reader that was moved from. -/
structure BufReader where
  inner : Option Reader
  buffer : Bytes
  position : Nat := 0
  filled : Nat := 0
deriving DecidableEq, Repr

namespace BufReader

/-- `create`; `memory` says whether the buffer can be allocated. -/
def create (inner : Option Reader) (capacity : Nat) (memory : Bool) : Except IoError BufReader :=
  if inner = none then .error { kind := .invalidInput, message := "BufReader requires a Reader" }
  else if capacity = 0 then
    .error { kind := .invalidInput, message := "BufReader capacity must be nonzero" }
  else if memory = true then .ok { inner := inner, buffer := List.replicate capacity 0 }
  else .error { kind := .outOfMemory, message :=
    "BufReader buffer allocation failed: std::bad_alloc" }

/-- The bytes from `position_` to `filled_`. -/
def held (r : BufReader) : Bytes := (r.buffer.drop r.position).take (r.filled - r.position)

def bufferedLen (r : BufReader) : Nat := r.filled - r.position

def fillBuf (r : BufReader) : Except IoError Bytes × BufReader :=
  match r.inner with
  | none => (.error (invalidBufferedStream "fill_buf"), r)
  | some inner =>
    if r.position < r.filled then (.ok r.held, r)
    else
      match inner.read r.buffer.length with
      | (.error e, _, inner) => (.error e, ⟨some inner, r.buffer, 0, 0⟩)
      | (.ok count, chunk, inner) =>
        let buffer := chunk ++ r.buffer.drop chunk.length
        if count > r.buffer.length then (.error invalidReadCount, ⟨some inner, buffer, 0, 0⟩)
        else (.ok (buffer.take count), ⟨some inner, buffer, 0, count⟩)

/-- `read`; `isNull` says that there is no buffer to read into. -/
def read (r : BufReader) (isNull : Bool) (capacity : Nat) : Except IoError Bytes × BufReader :=
  if capacity = 0 then (.ok [], r)
  else if isNull = true then
    (.error { kind := .invalidInput
              message := "read buffer must not be null when capacity is nonzero" }, r)
  else
    match r.inner with
    | none => (.error (invalidBufferedStream "read"), r)
    | some inner =>
      let available := r.filled - r.position
      if available ≠ 0 then
        let count := min available capacity
        (.ok ((r.buffer.drop r.position).take count), { r with position := r.position + count })
      else
        let r := { r with position := 0, filled := 0 }
        -- the caller's buffer is filled directly when it is no smaller than the reader's
        if capacity ≥ r.buffer.length then
          match inner.read capacity with
          | (.error e, _, inner) => (.error e, { r with inner := some inner })
          | (.ok count, chunk, inner) =>
            if count > capacity then (.error invalidReadCount, { r with inner := some inner })
            else (.ok chunk, { r with inner := some inner })
        else
          match r.fillBuf with
          | (.error e, r) => (.error e, r)
          | (.ok view, r) =>
            if view = [] then (.ok [], r)
            else
              let count := min view.length capacity
              (.ok (view.take count), { r with position := r.position + count })

def consume (r : BufReader) (amount : Nat) : Except IoError Unit × BufReader :=
  if r.inner = none then (.error (invalidBufferedStream "consume"), r)
  else if amount > r.filled - r.position then
    (.error { kind := .invalidInput, message := "consume amount exceeds buffered data" }, r)
  else (.ok (), { r with position := r.position + amount })

def outOfMemory : IoError where
  kind := .outOfMemory
  message := "read_until buffer allocation failed: std::bad_alloc"

/-- The loop of `read_until`, with the bytes appended so far; `memory` says which of the next
`put_slice` find memory, and those behind the end of the list do. -/
def readUntilLoop (delimiter : UInt8) :
    Nat → List Bool → Nat → Bytes → BufReader → Option (Except IoError Nat × Bytes × BufReader)
  | 0, _, _, _, _ => none
  | fuel + 1, memory, total, output, r =>
    match r.fillBuf with
    | (.error e, r) =>
      if e.kind = .interrupted then readUntilLoop delimiter fuel memory total output r
      else some (.error e, output, r)
    | (.ok view, r) =>
      if view = [] then some (.ok total, output, r)
      else
        let found := view.idxOf delimiter
        let count := if found = view.length then view.length else found + 1
        if memory.headD true = false then some (.error outOfMemory, output, r)
        else
          let output := output ++ view.take count
          let r := { r with position := r.position + count }
          let total := total + count
          if found ≠ view.length then some (.ok total, output, r)
          else readUntilLoop delimiter fuel memory.tail total output r

/-! ## The stream behind the buffer -/

def consumed (r : BufReader) : Bytes := (r.inner.map (·.consumed)).getD []

def rest (r : BufReader) : Bytes := (r.inner.map (·.rest)).getD []

def outcomes (r : BufReader) : List ReadOutcome := (r.inner.map (·.outcomes)).getD []

/-- What a caller has yet to see. -/
def unread (r : BufReader) : Bytes := r.held ++ r.rest

/-- The whole stream of the inner reader. -/
def whole (r : BufReader) : Bytes := r.consumed ++ r.rest

/-- More than the number of turns that the loop of `read_until` can take. -/
def turns (r : BufReader) : Nat := r.outcomes.length + r.unread.length + 1

/-- `read_until`. -/
def readUntil (r : BufReader) (delimiter : UInt8) (memory : List Bool) (output : Bytes) :
    Option (Except IoError Nat × Bytes × BufReader) :=
  readUntilLoop delimiter r.turns memory 0 output r

/-- A reader that was created and not moved from. -/
structure Valid (r : BufReader) : Prop where
  inner : r.inner.isSome
  buffer : 0 < r.buffer.length
  position : r.position ≤ r.filled
  filled : r.filled ≤ r.buffer.length

/-- **A step that hands out bytes**: it takes them from the front of what is unread. -/
structure Hands (r : BufReader) (out : Bytes) (r' : BufReader) : Prop where
  valid : r'.Valid
  unread : r.unread = out ++ r'.unread
  whole : r'.whole = r.whole
  outcomes : r'.outcomes <:+ r.outcomes

/-- What a call of the inner reader makes a call fail with. -/
def Fails (r : BufReader) (e : IoError) : Prop :=
  .error e ∈ r.outcomes ∨ e = invalidReadCount ∧ ∃ excess, .overReport excess ∈ r.outcomes

/-- What there is to hand out: what the buffer holds, or else what the inner reader gives when it is
asked for `asked` bytes. -/
def answer (r : BufReader) (asked : Nat) : Except IoError Bytes :=
  if r.held ≠ [] then .ok r.held
  else
    match r.inner with
    | none => .ok []
    | some inner =>
      match inner.read asked with
      | (.error e, _, _) => .error e
      | (.ok count, chunk, _) => if count > asked then .error invalidReadCount else .ok chunk

variable {r r' r'' : BufReader} {out out' : Bytes}

theorem Valid.length_held (h : r.Valid) : r.held.length = r.bufferedLen := by
  have hposition := h.position
  have hfilled := h.filled
  rw [held, bufferedLen, List.length_take, List.length_drop]
  omega

theorem Hands.refl (h : r.Valid) : Hands r [] r := ⟨h, rfl, rfl, List.suffix_refl _⟩

theorem Hands.trans (h : Hands r out r') (h' : Hands r' out' r'') : Hands r (out ++ out') r'' where
  valid := h'.valid
  unread := by rw [h.unread, h'.unread, List.append_assoc]
  whole := h'.whole.trans h.whole
  outcomes := h'.outcomes.trans h.outcomes

theorem Hands.fails (h : Hands r out r') {e : IoError} (he : r'.Fails e) : r.Fails e :=
  he.imp (h.outcomes.subset ·) fun he => ⟨he.1, he.2.imp fun _ => (h.outcomes.subset ·)⟩

theorem take_held {count : Nat} (hcount : count ≤ r.bufferedLen) :
    r.held.take count = (r.buffer.drop r.position).take count := by
  rw [held, List.take_take, Nat.min_eq_left (show count ≤ r.filled - r.position from hcount)]

/-- The position moves over bytes that the buffer holds. -/
theorem Valid.advance (h : r.Valid) {count : Nat} (hcount : count ≤ r.bufferedLen) :
    Hands r (r.held.take count) { r with position := r.position + count } := by
  have hposition := h.position
  have hle : r.position + count ≤ r.filled := by
    unfold bufferedLen at hcount
    omega
  have hsplit : r.held = r.held.take count ++
      (r.buffer.drop (r.position + count)).take (r.filled - (r.position + count)) := by
    have hsum : r.filled - r.position = count + (r.filled - (r.position + count)) := by omega
    rw [take_held hcount, ← List.drop_drop, held, hsum, List.take_add]
  refine ⟨⟨h.inner, h.buffer, hle, h.filled⟩, ?_, rfl, List.suffix_refl _⟩
  calc r.held ++ r.rest
      = (r.held.take count ++ (r.buffer.drop (r.position + count)).take
          (r.filled - (r.position + count))) ++ r.rest := by rw [← hsplit]
    _ = _ := List.append_assoc _ _ _

/-- An empty buffer gives way to the stream of the inner reader. -/
theorem unread_of_empty (h : r.filled ≤ r.position) : r.unread = r.rest := by
  rw [unread, held, Nat.sub_eq_zero_of_le h, List.take_zero, List.nil_append]

variable {outcomes : List ReadOutcome}

/-- A call of the inner reader that took nothing, with an empty buffer. -/
theorem hands_skip (hempty : r.filled ≤ r.position) {inner : Reader}
    (hinner : r.inner = some inner) (hle : outcomes <:+ inner.outcomes) {buffer : Bytes}
    (hbuffer : 0 < buffer.length) :
    Hands r [] ⟨some { inner with outcomes := outcomes }, buffer, 0, 0⟩ := by
  refine ⟨⟨rfl, hbuffer, le_rfl, Nat.zero_le _⟩, ?_, ?_, ?_⟩
  · rw [unread_of_empty hempty, unread_of_empty (le_rfl), List.nil_append, rest, rest, hinner]
    rfl
  · rw [whole, whole, consumed, consumed, rest, rest, hinner]
    rfl
  · rw [BufReader.outcomes, BufReader.outcomes, hinner]
    exact hle

/-- A call of the inner reader past an empty buffer. -/
theorem hands_give (hempty : r.filled ≤ r.position) {inner : Reader} (hinner : r.inner = some inner)
    (most : Nat) (hle : outcomes <:+ inner.outcomes) (hbuffer : 0 < r.buffer.length) :
    Hands r (inner.rest.take most) ⟨some (inner.give most outcomes).2.2, r.buffer, 0, 0⟩ := by
  refine ⟨⟨rfl, hbuffer, le_rfl, Nat.zero_le _⟩, ?_, ?_, ?_⟩
  · rw [unread_of_empty hempty, unread_of_empty (le_rfl), rest, hinner]
    exact (List.take_append_drop _ _).symm
  · rw [whole, whole, consumed, consumed, rest, rest, hinner]
    show inner.consumed ++ inner.rest.take most ++ inner.rest.drop most = _
    rw [List.append_assoc, List.take_append_drop]
    rfl
  · rw [BufReader.outcomes, BufReader.outcomes, hinner]
    exact hle

theorem fillBuf_spec (h : r.Valid) :
    (∃ r', r.fillBuf = (.ok r'.held, r') ∧ Hands r [] r' ∧ (r'.held = [] → r'.unread = [])) ∨
    ∃ e r', r.fillBuf = (.error e, r') ∧ Hands r [] r' ∧
      r'.outcomes.length < r.outcomes.length ∧ r.Fails e := by
  obtain ⟨inner, hinner⟩ := Option.isSome_iff_exists.mp h.inner
  unfold fillBuf
  rw [hinner]
  dsimp only
  by_cases hlt : r.position < r.filled
  · rw [if_pos hlt]
    refine .inl ⟨r, rfl, .refl h, fun hnil => ?_⟩
    have hlength := h.length_held
    rw [hnil, bufferedLen, List.length_nil] at hlength
    omega
  rw [if_neg hlt]
  have hempty : r.filled ≤ r.position := Nat.not_lt.mp hlt
  obtain ⟨most, outcomes, hmost, hpos, hle, hread⟩ | ⟨e, outcomes, houtcomes, hread⟩ |
    ⟨excess, outcomes, houtcomes, hread⟩ := inner.read_cases r.buffer.length
  · rw [hread]
    dsimp only [Reader.give]
    have hchunk : (inner.rest.take most).length ≤ r.buffer.length :=
      Nat.le_trans (List.length_take_le _ _) hmost
    rw [if_neg (Nat.not_lt.mpr hchunk)]
    have hheld : (inner.rest.take most ++ r.buffer.drop (inner.rest.take most).length).take
        (inner.rest.take most).length = inner.rest.take most := List.take_left
    refine .inl ⟨⟨some (inner.give most outcomes).2.2,
      inner.rest.take most ++ r.buffer.drop (inner.rest.take most).length, 0,
      (inner.rest.take most).length⟩, rfl, ⟨⟨rfl, ?_, Nat.zero_le _, ?_⟩, ?_, ?_, ?_⟩, ?_⟩
    · have hbuffer := h.buffer
      rw [List.length_append, List.length_drop]
      omega
    · rw [List.length_append]
      exact Nat.le_add_right _ _
    · rw [unread_of_empty hempty, rest, hinner]
      show inner.rest = [] ++ (List.take _ _ ++ inner.rest.drop most)
      rw [List.nil_append, Nat.sub_zero, List.drop_zero, hheld, List.take_append_drop]
    · rw [whole, whole, consumed, consumed, rest, rest, hinner]
      show inner.consumed ++ inner.rest.take most ++ inner.rest.drop most = _
      rw [List.append_assoc, List.take_append_drop]
      rfl
    · rw [BufReader.outcomes, BufReader.outcomes, hinner]
      exact hle
    · intro hnil
      have hchunk : inner.rest.take most = [] := hheld.symm.trans hnil
      have hrest : inner.rest = [] :=
        (List.take_eq_nil_iff.mp hchunk).resolve_left (Nat.ne_of_gt (hpos h.buffer))
      show List.take _ _ ++ inner.rest.drop most = []
      rw [Nat.sub_zero, List.drop_zero, hheld, List.take_append_drop, hrest]
  · rw [hread]
    have hskip := hands_skip hempty hinner (houtcomes ▸ List.suffix_cons _ _) h.buffer
    have hmem : r.outcomes = .error e :: outcomes := by
      rw [BufReader.outcomes, hinner]
      exact houtcomes
    exact .inr ⟨e, _, rfl, hskip, hmem ▸ Nat.lt_succ_self _, .inl (hmem ▸ .head _)⟩
  · rw [hread]
    dsimp only
    rw [if_pos (by omega)]
    have hskip := hands_skip hempty hinner (houtcomes ▸ List.suffix_cons _ _) h.buffer
    have hmem : r.outcomes = .overReport excess :: outcomes := by
      rw [BufReader.outcomes, hinner]
      exact houtcomes
    exact .inr ⟨_, _, rfl, hskip, hmem ▸ Nat.lt_succ_self _,
      .inr ⟨rfl, excess, hmem ▸ .head _⟩⟩

theorem read_spec (h : r.Valid) (isNull : Bool) (capacity : Nat) :
    (∃ out r', r.read isNull capacity = (.ok out, r') ∧ Hands r out r') ∨
    ∃ e r', r.read isNull capacity = (.error e, r') ∧ Hands r [] r' := by
  obtain ⟨inner, buffer, position, filled⟩ := r
  obtain ⟨inner, rfl⟩ := Option.isSome_iff_exists.mp h.inner
  unfold read
  by_cases hzero : capacity = 0
  · rw [if_pos hzero]
    exact .inl ⟨[], _, rfl, .refl h⟩
  rw [if_neg hzero]
  by_cases hnull : isNull = true
  · rw [if_pos hnull]
    exact .inr ⟨_, _, rfl, .refl h⟩
  rw [if_neg hnull]
  dsimp only
  by_cases havailable : filled - position ≠ 0
  · rw [if_pos havailable]
    have hcount : min (filled - position) capacity ≤ filled - position := Nat.min_le_left _ _
    have hadvance := h.advance hcount
    rw [take_held hcount] at hadvance
    exact .inl ⟨_, _, rfl, hadvance⟩
  rw [if_neg havailable]
  have hempty : filled ≤ position := Nat.sub_eq_zero_iff_le.mp (not_not.mp havailable)
  have hreset : Hands ⟨some inner, buffer, position, filled⟩ [] ⟨some inner, buffer, 0, 0⟩ :=
    hands_skip hempty rfl (List.suffix_refl _) h.buffer
  by_cases hbypass : capacity ≥ buffer.length
  · rw [if_pos hbypass]
    obtain ⟨most, outcomes, hmost, -, hle, hread⟩ | ⟨e, outcomes, houtcomes, hread⟩ |
      ⟨excess, outcomes, houtcomes, hread⟩ := inner.read_cases capacity
    · have hchunk : (inner.rest.take most).length ≤ capacity :=
        Nat.le_trans (List.length_take_le _ _) hmost
      rw [hread]
      dsimp only [Reader.give]
      rw [if_neg (Nat.not_lt.mpr hchunk)]
      exact .inl ⟨_, _, rfl, hands_give hempty rfl most hle h.buffer⟩
    · rw [hread]
      exact .inr ⟨e, _, rfl, hands_skip hempty rfl (houtcomes ▸ List.suffix_cons _ _) h.buffer⟩
    · rw [hread]
      dsimp only
      rw [if_pos (by omega)]
      exact .inr ⟨_, _, rfl, hands_skip hempty rfl (houtcomes ▸ List.suffix_cons _ _) h.buffer⟩
  rw [if_neg hbypass]
  obtain ⟨r', hfill, hhands, -⟩ | ⟨e, r', hfill, hhands, -⟩ := fillBuf_spec hreset.valid
  · rw [hfill]
    dsimp only
    by_cases hview : r'.held = []
    · rw [if_pos hview]
      exact .inl ⟨[], r', rfl, hreset.trans hhands⟩
    · rw [if_neg hview]
      have hcount : min r'.held.length capacity ≤ r'.bufferedLen :=
        Nat.le_trans (Nat.min_le_left _ _) (Nat.le_of_eq hhands.valid.length_held)
      exact .inl ⟨_, _, rfl, (hreset.trans hhands).trans (hhands.valid.advance hcount)⟩
  · rw [hfill]
    exact .inr ⟨e, r', rfl, hreset.trans hhands⟩

theorem Valid.held_ne_nil_iff (h : r.Valid) : r.held ≠ [] ↔ r.position < r.filled := by
  rw [← List.length_pos_iff, h.length_held, bufferedLen, Nat.sub_pos_iff_lt]

/-- **`fill_buf` shows what there is to hand out.** -/
theorem fillBuf_answer (h : r.Valid) : r.fillBuf.1 = r.answer r.buffer.length := by
  obtain ⟨inner, hinner⟩ := Option.isSome_iff_exists.mp h.inner
  unfold fillBuf answer
  simp only [h.held_ne_nil_iff, hinner]
  by_cases hlt : r.position < r.filled
  · rw [if_pos hlt, if_pos hlt]
  rw [if_neg hlt, if_neg hlt]
  obtain ⟨most, outcomes, -, -, -, hread⟩ | ⟨e, outcomes, -, hread⟩ | ⟨excess, outcomes, -,
    hread⟩ :=
    inner.read_cases r.buffer.length
  · rw [hread]
    dsimp only [Reader.give]
    split_ifs
    · rfl
    · exact congrArg Except.ok List.take_left
  · rw [hread]
  · rw [hread]
    dsimp only
    split_ifs
    · rfl
    · omega

/-- There is nothing to hand out only at the end of the stream. -/
theorem unread_of_answer (h : r.Valid) {asked : Nat} (hasked : 0 < asked)
    (hnone : r.answer asked = .ok []) : r.unread = [] := by
  obtain ⟨inner, hinner⟩ := Option.isSome_iff_exists.mp h.inner
  unfold answer at hnone
  by_cases hheld : r.held ≠ []
  · rw [if_pos hheld] at hnone
    exact absurd (Except.ok.inj hnone) hheld
  rw [if_neg hheld, hinner] at hnone
  dsimp only at hnone
  rw [unread, not_not.mp hheld, List.nil_append, rest, hinner]
  obtain ⟨most, outcomes, -, hpos, -, hread⟩ | ⟨e, outcomes, -, hread⟩ | ⟨excess, outcomes, -,
    hread⟩ :=
    inner.read_cases asked
  · rw [hread] at hnone
    dsimp only [Reader.give] at hnone
    split_ifs at hnone
    exact (List.take_eq_nil_iff.mp (Except.ok.inj hnone)).resolve_left (Nat.ne_of_gt (hpos hasked))
  · rw [hread] at hnone
    cases hnone
  · rw [hread] at hnone
    dsimp only at hnone
    split_ifs at hnone
    omega

/-- **`read` hands out the front of what there is.** Of the inner reader it asks for what its caller
or its buffer has room for, whichever is more. -/
theorem read_answer (h : r.Valid) {capacity : Nat} (hcapacity : 0 < capacity) :
    (r.read false capacity).1 =
      (r.answer (max capacity r.buffer.length)).map (List.take capacity) := by
  obtain ⟨inner, buffer, position, filled⟩ := r
  obtain ⟨inner, rfl⟩ := Option.isSome_iff_exists.mp h.inner
  unfold read
  rw [if_neg (Nat.ne_of_gt hcapacity), if_neg (by decide)]
  dsimp only
  by_cases havailable : filled - position ≠ 0
  · rw [if_pos havailable, answer, if_pos (h.held_ne_nil_iff.mpr (by dsimp only; omega))]
    refine congrArg Except.ok ?_
    rw [held, List.take_take, Nat.min_comm]
  have hheld : ∀ p f, f - p = 0 →
      ¬ BufReader.held ⟨some inner, buffer, p, f⟩ ≠ [] := fun p f hp hne => hne (by simp [held, hp])
  rw [if_neg havailable, answer, if_neg (hheld _ _ (not_not.mp havailable))]
  dsimp only
  by_cases hbypass : capacity ≥ buffer.length
  · rw [if_pos hbypass, Nat.max_eq_left hbypass]
    obtain ⟨most, outcomes, hmost, -, -, hread⟩ | ⟨e, outcomes, -, hread⟩ |
      ⟨excess, outcomes, -, hread⟩ := inner.read_cases capacity
    · have hchunk : (inner.rest.take most).length ≤ capacity :=
        Nat.le_trans (List.length_take_le _ _) hmost
      rw [hread]
      dsimp only [Reader.give]
      rw [if_neg (Nat.not_lt.mpr hchunk), if_neg (Nat.not_lt.mpr hchunk)]
      exact congrArg Except.ok (List.take_of_length_le hchunk).symm
    · rw [hread]
      rfl
    · rw [hread]
      dsimp only
      rw [if_pos (by omega), if_pos (by omega)]
      rfl
  · have hvalid : BufReader.Valid ⟨some inner, buffer, 0, 0⟩ :=
      ⟨rfl, h.buffer, le_rfl, Nat.zero_le _⟩
    have hfill := fillBuf_answer hvalid
    rw [answer, if_neg (hheld 0 0 rfl)] at hfill
    dsimp only at hfill
    rw [if_neg hbypass, Nat.max_eq_right (Nat.le_of_not_ge hbypass), ← hfill]
    obtain ⟨r', hfill, hhands, -⟩ | ⟨e, r', hfill, -⟩ := fillBuf_spec hvalid
    · rw [hfill]
      dsimp only
      split_ifs with hview
      · rw [hview]
        exact congrArg Except.ok List.take_nil.symm
      · exact congrArg Except.ok (List.take_eq_take_iff.mpr (by omega))
    · rw [hfill]
      rfl

theorem consume_spec (h : r.Valid) (amount : Nat) :
    (∃ r', r.consume amount = (.ok (), r') ∧ amount ≤ r.bufferedLen ∧
      Hands r (r.held.take amount) r') ∨
    ∃ e, r.consume amount = (.error e, r) ∧ ¬ amount ≤ r.bufferedLen := by
  obtain ⟨inner, hinner⟩ := Option.isSome_iff_exists.mp h.inner
  unfold consume
  rw [if_neg (by rw [hinner]; simp)]
  by_cases hamount : amount > r.filled - r.position
  · rw [if_pos hamount]
    exact .inr ⟨_, rfl, Nat.not_le_of_gt hamount⟩
  · rw [if_neg hamount]
    have hle : amount ≤ r.bufferedLen := Nat.not_lt.mp hamount
    exact .inl ⟨_, rfl, hle, h.advance hle⟩

/-! ## `read_until` -/

/-- The bytes through the first delimiter, or all of them. -/
def through (delimiter : UInt8) : Bytes → Bytes
  | [] => []
  | b :: bs => if b = delimiter then [b] else b :: through delimiter bs

variable {delimiter : UInt8}

theorem through_append_of_not_mem {xs : Bytes} (h : delimiter ∉ xs) (ys : Bytes) :
    through delimiter (xs ++ ys) = xs ++ through delimiter ys := by
  induction xs with
  | nil => rfl
  | cons b xs ih =>
    obtain ⟨hne, hxs⟩ := List.ne_and_not_mem_of_not_mem_cons h
    rw [List.cons_append, through, if_neg (Ne.symm hne), ih hxs, List.cons_append]

/-- The bytes up to a delimiter that is found in the buffer. -/
theorem through_append_of_mem {xs : Bytes} (h : delimiter ∈ xs) (ys : Bytes) :
    through delimiter (xs ++ ys) = xs.take (xs.idxOf delimiter + 1) := by
  induction xs with
  | nil => cases h
  | cons b xs ih =>
    by_cases hb : b = delimiter
    · rw [List.cons_append, through, if_pos hb, hb, List.idxOf_cons_self, List.take_succ_cons,
        List.take_zero]
    · have hxs := (List.mem_cons.mp h).resolve_left (Ne.symm hb)
      rw [List.cons_append, through, if_neg hb, ih hxs, List.idxOf_cons_ne _ hb,
        List.take_succ_cons]

/-- How `read_until` ends when it has appended `out` behind `total` bytes. -/
def Ends (r : BufReader) (delimiter : UInt8) (memory : List Bool) (total : Nat) (out : Bytes) :
    Except IoError Nat → Prop
  | .ok n => n = total + out.length ∧ out = through delimiter r.unread
  | .error e => e = outOfMemory ∧ false ∈ memory ∨ e.kind ≠ .interrupted ∧ r.Fails e

/-- **The loop of `read_until`** ends, and what it appends it takes from the front of the stream. -/
theorem readUntilLoop_spec {fuel : Nat} (memory : List Bool) (total : Nat) (output : Bytes)
    (h : r.Valid) (hfuel : r.turns ≤ fuel) :
    ∃ result out r', readUntilLoop delimiter fuel memory total output r =
        some (result, output ++ out, r') ∧ Hands r out r' ∧
      r.Ends delimiter memory total out result := by
  induction fuel generalizing memory total output r with
  | zero => exact absurd hfuel (Nat.not_succ_le_zero _)
  | succ fuel ih =>
    unfold readUntilLoop
    obtain ⟨r₁, hfill, hhands, hend⟩ | ⟨e, r₁, hfill, hhands, hlt, hfails⟩ :=
      fillBuf_spec h
    · rw [hfill]
      dsimp only
      have hunread : r.unread = r₁.unread := hhands.unread
      by_cases hview : r₁.held = []
      · rw [if_pos hview]
        refine ⟨.ok total, [], r₁, by rw [List.append_nil], hhands, rfl, ?_⟩
        rw [hunread, hend hview]
        rfl
      rw [if_neg hview]
      by_cases hmemory : memory.headD true = false
      · rw [if_pos hmemory]
        refine ⟨.error outOfMemory, [], r₁, by rw [List.append_nil], hhands, .inl ⟨rfl, ?_⟩⟩
        cases memory with
        | nil => cases hmemory
        | cons found memory => exact hmemory ▸ .head _
      rw [if_neg hmemory]
      by_cases hfound : r₁.held.idxOf delimiter = r₁.held.length
      · -- no delimiter in the buffer: all of it is taken
        rw [if_pos hfound, if_neg (not_not.mpr hfound)]
        have hnot : delimiter ∉ r₁.held := List.idxOf_eq_length_iff.mp hfound
        have hadvance := hhands.valid.advance (Nat.le_of_eq hhands.valid.length_held)
        rw [List.take_length] at hadvance ⊢
        have hstep := hhands.trans hadvance
        obtain ⟨result, out, r', hloop, hrest, hresult⟩ :=
          ih memory.tail (total + r₁.held.length) (output ++ r₁.held) hadvance.valid (by
            have hout := hstep.outcomes.length_le
            have hlength := congrArg List.length hstep.unread
            rw [List.length_append, List.nil_append] at hlength
            have hpos := List.length_pos_iff.mpr hview
            unfold turns at hfuel ⊢
            omega)
        refine ⟨result, r₁.held ++ out, r', ?_, hstep.trans hrest, ?_⟩
        · rw [hloop, List.append_assoc]
        cases result with
        | ok n =>
          obtain ⟨rfl, rfl⟩ := hresult
          refine ⟨by rw [List.length_append, Nat.add_assoc], ?_⟩
          rw [hunread, hadvance.unread, through_append_of_not_mem hnot]
        | error e =>
          exact hresult.imp (And.imp_right List.mem_of_mem_tail) (And.imp_right hstep.fails)
      · rw [if_neg hfound, if_pos hfound]
        have hmem : delimiter ∈ r₁.held := by
          by_contra hnot
          exact hfound (List.idxOf_eq_length_iff.mpr hnot)
        have hle : r₁.held.idxOf delimiter + 1 ≤ r₁.held.length := List.idxOf_lt_length_iff.mpr hmem
        have hadvance :=
          hhands.valid.advance (Nat.le_trans hle (Nat.le_of_eq hhands.valid.length_held))
        refine ⟨_, _, _, rfl, hhands.trans hadvance, ?_, ?_⟩
        · rw [List.length_take, Nat.min_eq_left hle]
        rw [hunread, BufReader.unread, through_append_of_mem hmem]
    · rw [hfill]
      dsimp only
      by_cases hinterrupted : e.kind = .interrupted
      · rw [if_pos hinterrupted]
        obtain ⟨result, out, r', hloop, hrest, hresult⟩ :=
          ih memory total output hhands.valid (by
            have hlength := congrArg List.length hhands.unread
            rw [List.nil_append] at hlength
            unfold turns at hfuel ⊢
            omega)
        refine ⟨result, out, r', hloop, hhands.trans hrest, ?_⟩
        cases result with
        | ok n => exact hresult.imp_right (·.trans (congrArg _ hhands.unread.symm))
        | error e => exact hresult.imp_right (And.imp_right hhands.fails)
      · rw [if_neg hinterrupted]
        exact ⟨.error e, [], r₁, by rw [List.append_nil], hhands, .inr ⟨hinterrupted, hfails⟩⟩

theorem readUntil_spec (h : r.Valid) (delimiter : UInt8) (memory : List Bool) (output : Bytes) :
    ∃ result out r', r.readUntil delimiter memory output = some (result, output ++ out, r') ∧
      Hands r out r' ∧ r.Ends delimiter memory 0 out result :=
  readUntilLoop_spec memory 0 output h (le_rfl)

/-! ## Calls in any order -/

/-- A reader, and the bytes that it has handed out: returned by `read`, accepted by `consume`,
appended by `read_until`. -/
structure Session where
  reader : BufReader
  handed : Bytes := []

inductive Op
  | read (isNull : Bool) (capacity : Nat)
  | fillBuf
  | consume (amount : Nat)
  | readUntil (delimiter : UInt8) (memory : List Bool) (output : Bytes)
deriving DecidableEq, Repr

def step (s : Session) : Op → Option Session
  | .read isNull capacity =>
    match s.reader.read isNull capacity with
    | (.ok out, r) => some { reader := r, handed := s.handed ++ out }
    | (.error _, r) => some { s with reader := r }
  | .fillBuf => some { s with reader := s.reader.fillBuf.2 }
  | .consume amount =>
    match s.reader.consume amount with
    | (.ok _, r) => some { reader := r, handed := s.handed ++ s.reader.held.take amount }
    | (.error _, r) => some { s with reader := r }
  | .readUntil delimiter memory output =>
    (s.reader.readUntil delimiter memory output).map fun (_, appended, r) =>
      { reader := r, handed := s.handed ++ appended.drop output.length }

/-- **Every call returns**, and hands out bytes from the front of the stream. -/
theorem step_hands {s : Session} (h : s.reader.Valid) (op : Op) :
    ∃ out r', step s op = some { reader := r', handed := s.handed ++ out } ∧
      Hands s.reader out r' := by
  cases op with
  | read isNull capacity =>
    obtain ⟨out, r', hread, hhands⟩ | ⟨e, r', hread, hhands⟩ := read_spec h isNull capacity
    · exact ⟨out, r', by rw [step, hread], hhands⟩
    · exact ⟨[], r', by rw [step, hread, List.append_nil], hhands⟩
  | fillBuf =>
    obtain ⟨r', hfill, hhands, -⟩ | ⟨e, r', hfill, hhands, -⟩ := fillBuf_spec h
    · exact ⟨[], r', by rw [step, hfill, List.append_nil], hhands⟩
    · exact ⟨[], r', by rw [step, hfill, List.append_nil], hhands⟩
  | consume amount =>
    obtain ⟨r', hconsume, -, hhands⟩ | ⟨e, hconsume, -⟩ := consume_spec h amount
    · exact ⟨_, r', by rw [step, hconsume], hhands⟩
    · exact ⟨[], s.reader, by rw [step, hconsume, List.append_nil], .refl h⟩
  | readUntil delimiter memory output =>
    obtain ⟨result, out, r', hread, hhands, -⟩ := readUntil_spec h delimiter memory output
    refine ⟨out, r', ?_, hhands⟩
    rw [step, hread, Option.map_some]
    dsimp only
    rw [List.drop_left]

/-- What holds between calls. -/
structure Good (stream : Bytes) (s : Session) : Prop where
  valid : s.reader.Valid
  whole : s.reader.whole = stream
  handed : stream = s.handed ++ s.reader.unread

theorem Good.step {stream : Bytes} {s s' : Session} {op : Op} (hg : Good stream s)
    (h : step s op = some s') : Good stream s' := by
  obtain ⟨out, r', hstep, hhands⟩ := step_hands hg.valid op
  obtain rfl := Option.some.inj (hstep.symm.trans h)
  exact
    { valid := hhands.valid
      whole := hhands.whole.trans hg.whole
      handed := by rw [hg.handed, hhands.unread, List.append_assoc] }

theorem good_create {stream : Bytes} {capacity : Nat} {memory : Bool}
    (hcreate : create (some { rest := stream, outcomes := outcomes }) capacity memory = .ok r) :
    Good stream { reader := r } := by
  unfold create at hcreate
  rw [if_neg (by simp)] at hcreate
  split_ifs at hcreate with hzero hmemory
  cases hcreate
  refine ⟨⟨rfl, ?_, le_rfl, Nat.zero_le _⟩, rfl, ?_⟩
  · rw [List.length_replicate]
    exact Nat.pos_of_ne_zero hzero
  · rw [List.nil_append, unread_of_empty (le_rfl)]
    rfl

/-- What a reader over a stream promises: its positions are in bounds; the inner reader has given
what was handed out and what the buffer holds, in this order; every call returns. `fill_buf` shows
and `read` hands out what the buffer holds or else what the inner reader gives, and none only at the
end of the stream; `consume` accepts what the buffer holds; `read_until` appends the bytes through
the first delimiter or up to the end of the stream, or fails as the inner reader did or memory. -/
structure Transparent (stream : Bytes) (s : Session) : Prop where
  position_le : s.reader.position ≤ s.reader.filled
  filled_le : s.reader.filled ≤ s.reader.buffer.length
  length_held : s.reader.held.length = s.reader.bufferedLen
  whole : s.reader.consumed ++ s.reader.rest = stream
  handed : s.reader.consumed = s.handed ++ s.reader.held
  returns : ∀ op, (step s op).isSome
  readUntil : ∀ delimiter memory output, ∃ result out r',
    s.reader.readUntil delimiter memory output = some (result, output ++ out, r') ∧
      s.reader.Ends delimiter memory 0 out result
  fillBuf : s.reader.fillBuf.1 = s.reader.answer s.reader.buffer.length
  read : ∀ capacity, 0 < capacity → (s.reader.read false capacity).1 =
    (s.reader.answer (max capacity s.reader.buffer.length)).map (List.take capacity)
  read_none : ∀ capacity, 0 < capacity → (s.reader.read false capacity).1 = .ok [] →
    s.reader.held ++ s.reader.rest = []
  consume : ∀ amount, (s.reader.consume amount).1 = .ok () ↔ amount ≤ s.reader.bufferedLen

/-- **A buffered reader is transparent** in every sequence of calls, whatever the inner reader does.
-/
theorem buf_reader_transparent (stream : Bytes) (outcomes : List ReadOutcome) (capacity : Nat)
    (memory : Bool) (r : BufReader) (s : Session)
    (hcreate : create (some { rest := stream, outcomes := outcomes }) capacity memory = .ok r)
    (h : Reach step (fun _ _ => True) { reader := r } s) : Transparent stream s := by
  have hg : Good stream s :=
    h.invariant (Good stream) (good_create hcreate) fun _ _ _ hg _ => hg.step
  refine ⟨hg.valid.position, hg.valid.filled, hg.valid.length_held, hg.whole, ?_, fun op => ?_,
    fun delimiter memory output => ?_, fillBuf_answer hg.valid,
    fun _ hcapacity => read_answer hg.valid hcapacity, fun capacity hcapacity hnone => ?_,
    fun amount => ?_⟩
  · -- both sides stand in front of what the inner reader still has
    refine (List.append_left_inj s.reader.rest).mp ?_
    rw [List.append_assoc]
    exact hg.whole.trans hg.handed
  · obtain ⟨out, r', hstep, -⟩ := step_hands hg.valid op
    rw [hstep]
    rfl
  · obtain ⟨result, out, r', hread, -, hresult⟩ := readUntil_spec hg.valid delimiter memory output
    exact ⟨result, out, r', hread, hresult⟩
  · rw [read_answer hg.valid hcapacity] at hnone
    cases hanswer : s.reader.answer (max capacity s.reader.buffer.length) with
    | error e =>
      rw [hanswer] at hnone
      cases hnone
    | ok out =>
      rw [hanswer] at hnone
      obtain rfl :=
        (List.take_eq_nil_iff.mp (Except.ok.inj hnone)).resolve_left (Nat.ne_of_gt hcapacity)
      exact unread_of_answer hg.valid (Nat.lt_of_lt_of_le hcapacity (Nat.le_max_left _ _)) hanswer
  · obtain ⟨r', hconsume, hle, -⟩ | ⟨e, hconsume, hle⟩ := consume_spec hg.valid amount
    · rw [hconsume]
      exact iff_of_true rfl hle
    · rw [hconsume]
      exact iff_of_false (by simp) hle

/-- A line over two short reads with an interruption between them. -/
theorem buf_reader_transparent_line :
    ∃ s : Session, s.handed = [1, 2, 3, 10] ∧ s.reader.held = [4] ∧
      Transparent [1, 2, 3, 10, 4, 5] s := by
  let interruption : IoError := { kind := .interrupted, message := "interrupted" }
  let inner : Reader :=
    { rest := [1, 2, 3, 10, 4, 5], outcomes := [.short 1, .error interruption, .short 2] }
  have hrun : (run step (fun _ _ => true) [.read false 1, .readUntil 10 [] []]
      { reader := { inner := some inner, buffer := List.replicate 4 0 } }).any
      (fun s => s.handed == [1, 2, 3, 10] && s.reader.held == [4]) = true := by
    decide
  obtain ⟨s, hreach, hs⟩ := Reach.exists_of_run (fun _ _ _ => trivial) hrun
  rw [Bool.and_eq_true, beq_iff_eq, beq_iff_eq] at hs
  exact ⟨s, hs.1, hs.2, buf_reader_transparent _ _ 4 true _ s rfl hreach⟩

end BufReader

end Libca.Io
