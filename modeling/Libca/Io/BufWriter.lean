import Libca.Common.Run
import Libca.Io.Stream

/-!
# `BufWriter` (`io/buffered.cpp` 211-369)

A writer with a buffer in front of a byte sink. Objects are moved, assigned to and destroyed, and
the inner writer goes along; with it goes `sent`, the bytes that calls of `write` have accepted.

Left out: moved-from objects, `into_inner`.

* `Flushes w inner w'`, `flushBuffer_spec`: the buffer goes to the inner writer as far as it is
  taken, and what is left stays in the buffer.
* `write_spec`: a call adds what it accepted behind the bytes that are accounted for.
* `buf_writer_lossless`: what the inner writer has and what the buffer holds is what was accepted.
-/

namespace Libca.Io

open Common

/-- `inner` is null in a writer that was moved from or finished. -/
structure BufWriter where
  inner : Option Writer
  buffer : Bytes
  used : Nat := 0
deriving DecidableEq, Repr

namespace BufWriter

/-- `create`; `memory` says whether the buffer can be allocated. -/
def create (inner : Option Writer) (capacity : Nat) (memory : Bool) : Except IoError BufWriter :=
  if inner = none then .error { kind := .invalidInput, message := "BufWriter requires a Writer" }
  else if capacity = 0 then
    .error { kind := .invalidInput, message := "BufWriter capacity must be nonzero" }
  else if memory = true then .ok { inner := inner, buffer := List.replicate capacity 0 }
  else .error { kind := .outOfMemory, message :=
    "BufWriter buffer allocation failed: std::bad_alloc" }

/-- The bytes that the buffer holds. -/
def pending (w : BufWriter) : Bytes := w.buffer.take w.used

def discardWrittenPrefix (w : BufWriter) (count : Nat) : BufWriter :=
  if count = 0 then w
  else
    let remaining := w.used - count
    { w with
      buffer :=
        if remaining ≠ 0 then (w.buffer.drop count).take remaining ++ w.buffer.drop remaining
        else w.buffer
      used := remaining }

def writeZero : IoError where
  kind := .writeZero
  message := "Writer returned zero while flushing buffered data"

/-- The loop of `flush_buffer`, with the inner writer beside the object. -/
def flushLoop : Nat → Nat → Writer → BufWriter → Option (Except IoError Unit × BufWriter)
  | 0, _, _, _ => none
  | fuel + 1, written, inner, w =>
    if written < w.used then
      match inner.write ((w.buffer.drop written).take (w.used - written)) with
      | (.error e, inner) =>
        if e.kind = .interrupted then flushLoop fuel written inner w
        else some (.error e, discardWrittenPrefix { w with inner := some inner } written)
      | (.ok count, inner) =>
        if count > w.used - written then
          some (.error invalidWriteCount,
            discardWrittenPrefix { w with inner := some inner } written)
        else if count = 0 then
          some (.error writeZero, discardWrittenPrefix { w with inner := some inner } written)
        else flushLoop fuel (written + count) inner w
    else some (.ok (), { w with inner := some inner, used := 0 })

/-- `flush_buffer`; the loop takes a turn for each outcome of the inner writer, one to write in full
and one to end. -/
def flushBuffer (w : BufWriter) : Option (Except IoError Unit × BufWriter) :=
  match w.inner with
  | none => some (.error (invalidBufferedStream "flush_buffer"), w)
  | some inner => flushLoop (inner.outcomes.length + 2) 0 inner w

/-- `write` behind its flush. -/
def writeFlushed (w : BufWriter) (data : Bytes) : Except IoError Nat × BufWriter :=
  match w.inner with
  | none => (.error (invalidBufferedStream "write"), w)
  | some inner =>
    if data.length ≥ w.buffer.length then
      match inner.write data with
      | (.error e, inner) => (.error e, { w with inner := some inner })
      | (.ok count, inner) =>
        if count > data.length then (.error invalidWriteCount, { w with inner := some inner })
        else (.ok count, { w with inner := some inner })
    else
      (.ok data.length,
        { w with
          buffer := w.buffer.take w.used ++ data ++ w.buffer.drop (w.used + data.length)
          used := w.used + data.length })

/-- `write`; `isNull` says that there is no data. -/
def write (w : BufWriter) (isNull : Bool) (data : Bytes) :
    Option (Except IoError Nat × BufWriter) :=
  if data.length = 0 then some (.ok 0, w)
  else if isNull = true then
    some (.error { kind := .invalidInput
                   message := "write data must not be null when length is nonzero" }, w)
  else if w.inner = none then some (.error (invalidBufferedStream "write"), w)
  else if data.length > w.buffer.length - w.used then
    w.flushBuffer.map fun
      | (.error e, w) => (.error e, w)
      | (.ok _, w) => writeFlushed w data
  else some (writeFlushed w data)

def flush (w : BufWriter) : Option (Except IoError Unit × BufWriter) :=
  if w.inner = none then some (.error (invalidBufferedStream "flush"), w)
  else
    w.flushBuffer.map fun
      | (.error e, w) => (.error e, w)
      | (.ok _, w) =>
        match w.inner with
        | none => (.error (invalidBufferedStream "flush"), w)
        | some inner =>
          let (result, inner) := inner.flush
          (result, { w with inner := some inner })

/-- `finish`: the inner writer is moved out. -/
def finish (w : BufWriter) : Option (Except IoError (Option Writer) × BufWriter) :=
  w.flush.map fun
    | (.error e, w) => (.error e, w)
    | (.ok _, w) => (.ok w.inner, { w with inner := none })

/-- What a move leaves behind. -/
def moved : BufWriter := { inner := none, buffer := [] }

/-- What the destructor and the move assignment do to the object before its members go. -/
def settle (w : BufWriter) : Option BufWriter :=
  if w.inner = none then some w else w.flushBuffer.map (·.2)

/-! ## The bytes that are accounted for -/

/-- **The pending bytes go to the inner writer**, as far as it takes them. -/
structure Flushes (w : BufWriter) (inner : Writer) (bytes : Bytes) (w' : BufWriter) : Prop where
  buffer : w'.buffer.length = w.buffer.length
  used : w'.used ≤ w'.buffer.length
  accounted : ∃ inner', w'.inner = some inner' ∧ inner'.accepted ++ w'.pending = inner.accepted ++
    bytes

variable {w w' : BufWriter} {inner : Writer}

theorem pending_discard {count : Nat} (hused : w.used ≤ w.buffer.length) (hcount : count ≤ w.used) :
    (w.discardWrittenPrefix count).pending = w.pending.drop count := by
  unfold discardWrittenPrefix
  by_cases hzero : count = 0
  · rw [if_pos hzero, hzero, List.drop_zero]
  rw [if_neg hzero]
  by_cases hrest : w.used - count = 0
  · have hnil : w.pending.drop count = [] := by
      rw [List.drop_eq_nil_iff, pending, List.length_take]
      omega
    rw [hnil, pending, hrest, List.take_zero]
  · have hlength : ((w.buffer.drop count).take (w.used - count)).length = w.used - count := by
      rw [List.length_take, List.length_drop]
      omega
    rw [pending, pending]
    dsimp only
    rw [if_pos hrest, List.drop_take]
    exact List.take_left' hlength

theorem used_discard {count : Nat} (hused : w.used ≤ w.buffer.length) (hcount : count ≤ w.used) :
    (w.discardWrittenPrefix count).used ≤ (w.discardWrittenPrefix count).buffer.length ∧
      (w.discardWrittenPrefix count).buffer.length = w.buffer.length := by
  unfold discardWrittenPrefix
  by_cases hzero : count = 0
  · rw [if_pos hzero]
    exact ⟨hused, rfl⟩
  rw [if_neg hzero]
  dsimp only
  split_ifs
  · rw [List.length_append, List.length_take, List.length_drop, List.length_drop]
    omega
  · omega

theorem inner_discard (w : BufWriter) (count : Nat) :
    (w.discardWrittenPrefix count).inner = w.inner := by
  unfold discardWrittenPrefix
  split_ifs <;> rfl

/-- A flush that gives up keeps the bytes that were not written. -/
theorem flushes_discard {written : Nat} {inner' : Writer} (hused : w.used ≤ w.buffer.length)
    (hwritten : written ≤ w.used) (haccepted : inner'.accepted = inner.accepted) :
    Flushes w inner (w.pending.drop written)
      (discardWrittenPrefix { w with inner := some inner' } written) := by
  have hbounds := used_discard (w := { w with inner := some inner' }) hused hwritten
  refine ⟨hbounds.2, hbounds.1, inner', inner_discard _ _, ?_⟩
  rw [pending_discard (w := { w with inner := some inner' }) hused hwritten, haccepted]
  rfl

theorem slice_eq (w : BufWriter) (written : Nat) :
    (w.buffer.drop written).take (w.used - written) = w.pending.drop written := by
  rw [pending, List.drop_take]

/-- **The loop of `flush_buffer`** ends; `written` bytes of the buffer have gone to the inner
writer. -/
theorem flushLoop_spec (fuel written : Nat) (inner : Writer) (hused : w.used ≤ w.buffer.length)
    (hwritten : written ≤ w.used)
    (hfuel : inner.outcomes.length + 2 ≤ fuel ∨ (written = w.used ∧ 1 ≤ fuel)) :
    ∃ result w', flushLoop fuel written inner w = some (result, w') ∧
      Flushes w inner (w.pending.drop written) w' ∧ (result = .ok () → w'.used = 0) := by
  induction fuel generalizing written inner with
  | zero => omega
  | succ fuel ih =>
    unfold flushLoop
    by_cases hlt : written < w.used
    · rw [if_pos hlt, slice_eq]
      have hlength : (w.pending.drop written).length = w.used - written := by
        rw [List.length_drop, pending, List.length_take, Nat.min_eq_left hused]
      obtain ⟨count, outcomes, hcount, hprogress, hwrite⟩ | ⟨e, outcomes, hshorter, hwrite⟩ :=
        inner.write_cases (w.pending.drop written)
      · rw [hwrite]
        dsimp only
        rw [hlength] at hcount hprogress
        rw [if_neg (Nat.not_lt.mpr hcount)]
        by_cases hzero : count = 0
        · rw [if_pos hzero]
          refine ⟨_, _, rfl, flushes_discard hused hwritten ?_, by rintro ⟨⟩⟩
          rw [hzero, List.take_zero, List.append_nil]
        · rw [if_neg hzero]
          obtain ⟨result, w', hloop, hflushes, hresult⟩ :=
            ih (written + count)
              { accepted := inner.accepted ++ (w.pending.drop written).take count,
                outcomes := outcomes } (by omega) (by dsimp only; omega)
          refine ⟨result, w', hloop, ⟨hflushes.buffer, hflushes.used, ?_⟩, hresult⟩
          obtain ⟨inner', hinner', haccounted⟩ := hflushes.accounted
          refine ⟨inner', hinner', haccounted.trans ?_⟩
          rw [List.append_assoc, ← List.drop_drop, List.take_append_drop]
      · rw [hwrite]
        dsimp only
        by_cases hinterrupted : e.kind = .interrupted
        · rw [if_pos hinterrupted]
          obtain ⟨result, w', hloop, hflushes, hresult⟩ :=
            ih written { inner with outcomes := outcomes } hwritten (by dsimp only; omega)
          exact ⟨result, w', hloop, ⟨hflushes.buffer, hflushes.used, hflushes.accounted⟩, hresult⟩
        · rw [if_neg hinterrupted]
          exact ⟨_, _, rfl, flushes_discard hused hwritten rfl, by rintro ⟨⟩⟩
    · rw [if_neg hlt]
      have hend : w.pending.drop written = [] := by
        rw [List.drop_eq_nil_iff, pending, List.length_take]
        omega
      refine ⟨_, _, rfl, ⟨rfl, Nat.zero_le _, inner, rfl, ?_⟩, fun _ => rfl⟩
      rw [hend, pending, List.take_zero]

/-- A writer whose buffer is in order; without an inner writer it is empty. -/
structure Valid (w : BufWriter) : Prop where
  used : w.used ≤ w.buffer.length
  inner : w.inner = none → w.used = 0

/-- The bytes that the inner writer has and the buffer holds. -/
def accounted (w : BufWriter) : Bytes := (w.inner.map (·.accepted)).getD [] ++ w.pending

theorem flushBuffer_spec (h : w.Valid) (hinner : w.inner.isSome) :
    ∃ result w', w.flushBuffer = some (result, w') ∧ w'.Valid ∧ w'.inner.isSome ∧
      w'.accounted = w.accounted ∧ (result = .ok () → w'.used = 0) := by
  obtain ⟨inner, hsome⟩ := Option.isSome_iff_exists.mp hinner
  obtain ⟨result, w', hloop, hflushes, hresult⟩ :=
    flushLoop_spec _ 0 inner h.used (Nat.zero_le _) (.inl (le_rfl))
  obtain ⟨inner', hinner', haccounted⟩ := hflushes.accounted
  refine ⟨result, w', ?_, ⟨hflushes.used, fun hnone => ?_⟩, ?_, ?_, hresult⟩
  · rw [flushBuffer, hsome]
    exact hloop
  · rw [hinner'] at hnone
    cases hnone
  · rw [hinner']
    rfl
  · rw [accounted, accounted, hinner', hsome]
    exact haccounted

/-- **A write behind its flush** adds what it accepts. -/
theorem writeFlushed_spec (h : w.Valid) (hinner : w.inner.isSome) {data : Bytes}
    (hroom : data.length ≤ w.buffer.length - w.used ∨ w.used = 0) :
    ∃ result w', writeFlushed w data = (result, w') ∧ w'.Valid ∧ w'.inner.isSome ∧
      w'.accounted = w.accounted ++ match result with
        | .ok count => data.take count
        | .error _ => [] := by
  obtain ⟨inner, buffer, used⟩ := w
  obtain ⟨inner, rfl⟩ := Option.isSome_iff_exists.mp hinner
  have hused : used ≤ buffer.length := h.used
  unfold writeFlushed
  dsimp only at hroom ⊢
  by_cases hbypass : data.length ≥ buffer.length
  · -- nothing is in the buffer when the inner writer is called directly
    have hempty : used = 0 := by omega
    rw [if_pos hbypass]
    obtain ⟨count, outcomes, hcount, -, hwrite⟩ | ⟨e, outcomes, -, hwrite⟩ := inner.write_cases data
    · rw [hwrite]
      dsimp only
      rw [if_neg (Nat.not_lt.mpr hcount)]
      refine ⟨_, _, rfl, ⟨hused, by rintro ⟨⟩⟩, rfl, ?_⟩
      simp only [accounted, pending, hempty, List.take_zero, List.append_nil, Option.map_some,
        Option.getD_some]
    · rw [hwrite]
      refine ⟨_, _, rfl, ⟨hused, by rintro ⟨⟩⟩, rfl, ?_⟩
      rw [List.append_nil]
      rfl
  · rw [if_neg hbypass]
    have hfits : used + data.length ≤ buffer.length := by omega
    refine ⟨_, _, rfl, ⟨?_, by rintro ⟨⟩⟩, rfl, ?_⟩
    · show used + data.length ≤ _
      rw [List.length_append, List.length_append, List.length_take, List.length_drop]
      omega
    · have hlength : (buffer.take used ++ data).length = used + data.length := by
        rw [List.length_append, List.length_take, Nat.min_eq_left hused]
      rw [accounted, accounted, pending, pending]
      dsimp only
      rw [List.take_left' hlength, List.take_length, List.append_assoc]

theorem write_spec (h : w.Valid) (isNull : Bool) (data : Bytes) :
    ∃ result w', w.write isNull data = some (result, w') ∧ w'.Valid ∧
      w'.inner.isSome = w.inner.isSome ∧
      w'.accounted = w.accounted ++ match result with
        | .ok count => data.take count
        | .error _ => [] := by
  unfold write
  by_cases hempty : data.length = 0
  · rw [if_pos hempty]
    exact ⟨_, w, rfl, h, rfl, (List.append_nil _).symm⟩
  rw [if_neg hempty]
  by_cases hnull : isNull = true
  · rw [if_pos hnull]
    exact ⟨_, w, rfl, h, rfl, (List.append_nil _).symm⟩
  rw [if_neg hnull]
  by_cases hnone : w.inner = none
  · rw [if_pos hnone]
    exact ⟨_, w, rfl, h, rfl, (List.append_nil _).symm⟩
  rw [if_neg hnone]
  have hinner : w.inner.isSome := Option.isSome_iff_ne_none.mpr hnone
  by_cases hfull : data.length > w.buffer.length - w.used
  · rw [if_pos hfull]
    obtain ⟨result, w₁, hflush, hvalid, hinner₁, haccounted, hresult⟩ := flushBuffer_spec h hinner
    rw [hflush, Option.map_some]
    cases result with
    | error e =>
      exact ⟨_, w₁, rfl, hvalid, hinner₁.trans hinner.symm, by rw [haccounted, List.append_nil]⟩
    | ok =>
      obtain ⟨result, w', hwrite, hvalid', hinner', haccounted'⟩ :=
        writeFlushed_spec hvalid hinner₁ (.inr (hresult rfl))
      refine ⟨result, w', congrArg some hwrite, hvalid', hinner'.trans hinner.symm, ?_⟩
      rw [haccounted', haccounted]
  · rw [if_neg hfull]
    obtain ⟨result, w', hwrite, hvalid', hinner', haccounted'⟩ :=
      writeFlushed_spec h hinner (.inl (Nat.not_lt.mp hfull))
    exact ⟨result, w', congrArg some hwrite, hvalid', hinner'.trans hinner.symm, haccounted'⟩

theorem flush_spec (h : w.Valid) :
    ∃ result w', w.flush = some (result, w') ∧ w'.Valid ∧ w'.inner.isSome = w.inner.isSome ∧
      w'.accounted = w.accounted ∧ (result = .ok () → w'.used = 0 ∧ w'.inner.isSome) := by
  unfold flush
  by_cases hnone : w.inner = none
  · rw [if_pos hnone]
    exact ⟨_, w, rfl, h, rfl, rfl, by rintro ⟨⟩⟩
  rw [if_neg hnone]
  have hinner : w.inner.isSome := Option.isSome_iff_ne_none.mpr hnone
  obtain ⟨result, w₁, hflush, hvalid, hinner₁, haccounted, hresult⟩ := flushBuffer_spec h hinner
  rw [hflush, Option.map_some]
  cases result with
  | error e => exact ⟨_, w₁, rfl, hvalid, hinner₁.trans hinner.symm, haccounted, by rintro ⟨⟩⟩
  | ok =>
    obtain ⟨inner, buffer, used⟩ := w₁
    obtain ⟨inner, rfl⟩ := Option.isSome_iff_exists.mp hinner₁
    refine ⟨_, _, rfl, ⟨hvalid.used, by rintro ⟨⟩⟩, hinner.symm, ?_, fun _ => ⟨hresult rfl, rfl⟩⟩
    rw [← haccounted]
    exact congrArg (· ++ _) inner.flush_accepted

/-- A writer that finishes gives back an inner writer that has all bytes. -/
theorem finish_spec (h : w.Valid) :
    ∃ result w', w.finish = some (result, w') ∧ w'.Valid ∧
      match result with
      | .ok inner => w'.used = 0 ∧ w'.inner = none ∧ ∃ i, inner = some i ∧ i.accepted = w.accounted
      | .error _ => w'.inner.isSome = w.inner.isSome ∧ w'.accounted = w.accounted := by
  unfold finish
  obtain ⟨result, w₁, hflush, hvalid, hinner, haccounted, hresult⟩ := flush_spec h
  rw [hflush, Option.map_some]
  cases result with
  | error e => exact ⟨_, w₁, rfl, hvalid, hinner, haccounted⟩
  | ok =>
    obtain ⟨hused, hsome⟩ := hresult rfl
    obtain ⟨inner, hinner₁⟩ := Option.isSome_iff_exists.mp hsome
    refine ⟨_, _, rfl, ⟨hvalid.used, fun _ => hused⟩, hused, rfl, inner, hinner₁, ?_⟩
    rw [← haccounted, accounted, pending, hused, hinner₁, List.take_zero, List.append_nil]
    rfl

theorem settle_spec (h : w.Valid) :
    ∃ w', w.settle = some w' ∧ w'.Valid ∧ w'.inner.isSome = w.inner.isSome ∧
      w'.accounted = w.accounted := by
  unfold settle
  by_cases hnone : w.inner = none
  · rw [if_pos hnone]
    exact ⟨w, rfl, h, rfl, rfl⟩
  · have hinner : w.inner.isSome := Option.isSome_iff_ne_none.mpr hnone
    obtain ⟨result, w', hflush, hvalid, hinner', haccounted, -⟩ := flushBuffer_spec h hinner
    rw [if_neg hnone, hflush]
    exact ⟨w', rfl, hvalid, hinner'.trans hinner.symm, haccounted⟩

/-! ## Objects that are moved and destroyed -/

/-- An object, and what calls of `write` have accepted for its inner writer. -/
structure Object where
  writer : BufWriter
  sent : Bytes := []

/-- An inner writer that was given back or went with its object: what was left in the buffer then,
and what had been accepted for it. -/
structure Closed where
  inner : Writer
  left : Bytes
  sent : Bytes

/-- The objects, `none` when they are destroyed, and the inner writers that have none. -/
structure World where
  objects : List (Option Object) := []
  closed : List Closed := []

inductive Op
  | create (inner : Option Writer) (capacity : Nat) (memory : Bool)
  | write (i : Nat) (isNull : Bool) (data : Bytes)
  | flush (i : Nat)
  | finish (i : Nat)
  | moveConstruct (i : Nat)
  | moveAssign (i j : Nat)
  | destroy (i : Nat)
deriving DecidableEq, Repr

/-- What a call of `write` accepted. -/
def accepted (data : Bytes) : Except IoError Nat → Bytes
  | .ok count => data.take count
  | .error _ => []

/-- The inner writer that goes, if there is one. -/
def closing (w : BufWriter) (sent : Bytes) : List Closed :=
  match w.inner with
  | none => []
  | some inner => [{ inner := inner, left := w.pending, sent := sent }]

def World.set (s : World) (i : Nat) (o : Object) : World :=
  { s with objects := s.objects.set i (some o) }

/-- The object `i`. -/
def World.get (s : World) (i : Nat) : Option Object := s.objects[i]?.join

def step (s : World) : Op → Option World
  | .create inner capacity memory =>
    match create inner capacity memory with
    | .error _ => some s
    | .ok w =>
      some { s with
        objects := s.objects ++ [some { writer := w, sent := (inner.map (·.accepted)).getD [] }] }
  | .write i isNull data => do
    let o ← s.get i
    let (result, w) ← o.writer.write isNull data
    some (s.set i { writer := w, sent := o.sent ++ accepted data result })
  | .flush i => do
    let o ← s.get i
    let (_, w) ← o.writer.flush
    some (s.set i { o with writer := w })
  | .finish i => do
    let o ← s.get i
    let (result, w) ← o.writer.finish
    match result with
    | .error _ => some (s.set i { o with writer := w })
    | .ok inner =>
      some { s.set i { writer := w } with
        closed := closing { w with inner := inner } o.sent ++ s.closed }
  | .moveConstruct i => do
    let o ← s.get i
    let s := s.set i { writer := moved }
    some { s with objects := s.objects ++ [some o] }
  | .moveAssign i j => do
    let target ← s.get i
    let source ← s.get j
    if i = j then some s
    else
      let w ← target.writer.settle
      let s := (s.set i source).set j { writer := moved }
      some { s with closed := closing w target.sent ++ s.closed }
  | .destroy i => do
    let o ← s.get i
    let w ← o.writer.settle
    some { objects := s.objects.set i none, closed := closing w o.sent ++ s.closed }

/-- The bytes of an object are accounted for. -/
structure Object.Good (o : Object) : Prop where
  valid : o.writer.Valid
  sent : o.writer.accounted = o.sent

structure Good (s : World) : Prop where
  objects : ∀ i o, s.get i = some o → o.Good
  closed : ∀ c ∈ s.closed, c.inner.accepted ++ c.left = c.sent

theorem moved_good : Object.Good { writer := moved } where
  valid := ⟨le_rfl, fun _ => rfl⟩
  sent := rfl

variable {s s' : World} {o : Object} {i : Nat}

theorem Good.set (hg : Good s) (ho : o.Good) : Good (s.set i o) where
  objects := by
    intro j o' hget
    unfold World.get World.set at hget
    rw [List.getElem?_set] at hget
    split_ifs at hget
    · cases hget
      exact ho
    · cases hget
    · exact hg.objects j o' hget
  closed := hg.closed

/-- Another object. -/
theorem Good.append (hg : Good s)
    (ho : o.Good) : Good { s with objects := s.objects ++ [some o] } where
  objects := by
    intro j o' hget
    unfold World.get at hget
    rw [List.getElem?_append] at hget
    split_ifs at hget
    · exact hg.objects j o' hget
    · rw [List.getElem?_singleton] at hget
      split_ifs at hget <;> cases hget
      exact ho
  closed := hg.closed

/-- An inner writer that goes has what was accepted for it, but for what is left. -/
theorem Good.close (hg : Good s) {w : BufWriter} {sent : Bytes} (hsent : w.accounted = sent) :
    Good { s with closed := closing w sent ++ s.closed } where
  objects := hg.objects
  closed := by
    intro c hmem
    rcases List.mem_append.mp hmem with hmem | hmem
    · unfold closing at hmem
      split at hmem
      · cases hmem
      · next inner hinner =>
        obtain rfl := List.mem_singleton.mp hmem
        rw [← hsent, accounted, hinner]
        rfl
    · exact hg.closed c hmem

theorem create_good {inner : Option Writer} {capacity : Nat} {memory : Bool} {w : BufWriter}
    (h : create inner capacity memory = .ok w) :
    Object.Good { writer := w, sent := (inner.map (·.accepted)).getD [] } := by
  unfold create at h
  split_ifs at h with hnone hzero hmemory
  cases h
  refine ⟨⟨Nat.zero_le _, fun _ => rfl⟩, ?_⟩
  exact List.append_nil _

/-- **Every call keeps account of the bytes.** -/
theorem Good.step {op : Op} (hg : Good s) (h : step s op = some s') : Good s' := by
  cases op with
  | create inner capacity memory =>
    simp only [BufWriter.step] at h
    cases hcreate : create inner capacity memory with
    | error e =>
      rw [hcreate] at h
      cases h
      exact hg
    | ok w =>
      rw [hcreate] at h
      cases h
      exact hg.append (create_good hcreate)
  | write i isNull data =>
    obtain ⟨o, hget, h⟩ := Option.bind_eq_some_iff.mp h
    have ho := hg.objects i o hget
    obtain ⟨result, w', hwrite, hvalid, -, haccounted⟩ := write_spec ho.valid isNull data
    rw [hwrite] at h
    cases h
    refine hg.set ⟨hvalid, ?_⟩
    rw [haccounted, ho.sent]
    cases result <;> rfl
  | flush i =>
    obtain ⟨o, hget, h⟩ := Option.bind_eq_some_iff.mp h
    have ho := hg.objects i o hget
    obtain ⟨result, w', hflush, hvalid, -, haccounted, -⟩ := flush_spec ho.valid
    rw [hflush] at h
    cases h
    exact hg.set ⟨hvalid, haccounted.trans ho.sent⟩
  | finish i =>
    obtain ⟨o, hget, h⟩ := Option.bind_eq_some_iff.mp h
    have ho := hg.objects i o hget
    obtain ⟨result, w', hfinish, hvalid, hresult⟩ := finish_spec ho.valid
    rw [hfinish] at h
    cases result with
    | error e =>
      cases h
      exact hg.set ⟨hvalid, hresult.2.trans ho.sent⟩
    | ok inner =>
      cases h
      obtain ⟨hused, hnone, inner, rfl, haccepted⟩ := hresult
      refine (hg.set ⟨hvalid, ?_⟩).close ?_
      · rw [accounted, pending, hused, hnone]
        rfl
      · rw [accounted, pending, hused, List.take_zero, List.append_nil]
        exact haccepted.trans ho.sent
  | moveConstruct i =>
    obtain ⟨o, hget, h⟩ := Option.bind_eq_some_iff.mp h
    cases h
    exact (hg.set moved_good).append (hg.objects i o hget)
  | moveAssign i j =>
    obtain ⟨target, hi, h⟩ := Option.bind_eq_some_iff.mp h
    obtain ⟨source, hj, h⟩ := Option.bind_eq_some_iff.mp h
    have htarget := hg.objects i target hi
    by_cases hsame : i = j
    · rw [if_pos hsame] at h
      cases h
      exact hg
    · rw [if_neg hsame] at h
      obtain ⟨w', hsettle, -, -, haccounted⟩ := settle_spec htarget.valid
      rw [hsettle] at h
      cases h
      exact ((hg.set (hg.objects j source hj)).set moved_good).close (haccounted.trans htarget.sent)
  | destroy i =>
    obtain ⟨o, hget, h⟩ := Option.bind_eq_some_iff.mp h
    have ho := hg.objects i o hget
    obtain ⟨w', hsettle, -, -, haccounted⟩ := settle_spec ho.valid
    rw [hsettle] at h
    cases h
    have hremoved : Good { s with objects := s.objects.set i none } := by
      refine ⟨fun j o' hj => ?_, hg.closed⟩
      unfold World.get at hj
      rw [List.getElem?_set] at hj
      split_ifs at hj
      · cases hj
      · cases hj
      · exact hg.objects j o' hj
    exact hremoved.close (haccounted.trans ho.sent)

/-- What the writers promise: used bytes are within the capacity; the inner writer of an object and
the buffer have what was accepted, in this order, and so it was when an inner writer went; every
call returns, and a flush or a `finish` that succeeds leaves nothing in the buffer. -/
structure Lossless (s : World) : Prop where
  used_le : ∀ i o, s.get i = some o → o.writer.used ≤ o.writer.buffer.length
  sent : ∀ i o inner, s.get i = some o → o.writer.inner = some inner →
    inner.accepted ++ o.writer.pending = o.sent
  closed : ∀ c ∈ s.closed, c.inner.accepted ++ c.left = c.sent
  write : ∀ i o, s.get i = some o → ∀ isNull data, (o.writer.write isNull data).isSome
  flush : ∀ i o, s.get i = some o → ∃ result w, o.writer.flush = some (result, w) ∧
    (result = .ok () → w.used = 0)
  finish : ∀ i o, s.get i = some o → ∃ result w, o.writer.finish = some (result, w) ∧
    ∀ inner, result = .ok inner → w.used = 0 ∧ ∃ i, inner = some i ∧ i.accepted = o.sent

/-- **No byte is lost or written twice**, in any sequence of calls, whatever the inner writers do.
-/
theorem buf_writer_lossless (s : World) (h : Reach step (fun _ _ => True) {} s) : Lossless s := by
  have hg : Good s := by
    refine h.invariant Good ⟨fun i o hget => ?_, by rintro c ⟨⟩⟩ fun _ _ _ hg _ => hg.step
    cases hget
  refine ⟨fun i o hget => (hg.objects i o hget).valid.used, fun i o inner hget hinner => ?_,
    hg.closed, fun i o hget isNull data => ?_, fun i o hget => ?_, fun i o hget => ?_⟩
  · rw [← (hg.objects i o hget).sent, accounted, hinner]
    rfl
  · obtain ⟨result, w, hwrite, -⟩ := write_spec (hg.objects i o hget).valid isNull data
    rw [hwrite]
    rfl
  · obtain ⟨result, w, hflush, -, -, -, hresult⟩ := flush_spec (hg.objects i o hget).valid
    exact ⟨result, w, hflush, fun hok => (hresult hok).1⟩
  · obtain ⟨result, w, hfinish, -, hresult⟩ := finish_spec (hg.objects i o hget).valid
    refine ⟨result, w, hfinish, ?_⟩
    rintro inner rfl
    obtain ⟨hused, -, i', hsome, haccepted⟩ := hresult
    exact ⟨hused, i', hsome, haccepted.trans (hg.objects i o hget).sent⟩

/-- A flush stops in the middle, the object is moved, and its destructor writes the rest. -/
theorem buf_writer_lossless_moved :
    ∃ s : World,
      s.closed = [{ inner := { accepted := [1, 2, 3] }, left := [], sent := [1, 2, 3] }] ∧
      Lossless s := by
  let fault : IoError := { kind := .other, message := "fault" }
  let inner : Writer := { outcomes := [.short 1, .error fault] }
  obtain ⟨s, hs⟩ : ∃ s, run step (fun _ _ => true)
      [.create (some inner) 4 true, .write 0 false [1, 2, 3], .flush 0, .moveConstruct 0,
        .destroy 1]
      {} = some s := ⟨_, rfl⟩
  have hreach : Reach step (fun _ _ => True) {} s := Reach.run (fun _ _ _ => trivial) .init hs
  refine ⟨s, ?_, buf_writer_lossless s hreach⟩
  cases hs
  rfl

end BufWriter

end Libca.Io
