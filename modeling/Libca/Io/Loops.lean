import Libca.Common.Usize
import Libca.Io.Stream

/-!
# The loops of `Reader` and `Writer` (`io/reader.cpp` 25-85, `io/writer.cpp`)

`Reader::read_exact`, `Reader::read_to_end` and `Writer::write_all`, on top of a `read` or `write`
that moves a part of the bytes at a time and may be interrupted. A source hands its bytes over in
pieces, as large as the caller's buffer allows, and ends with the end of the stream, an error, or a
count that is too large.

Left out: the `OutOfMemory` of `read_to_end`.

* `ByteSource`, `ByteSink`: the callees. `ByteSource.read_cases`, `ByteSink.write_cases`.
* `readExact_spec`: **reading exactly `n` bytes succeeds just when the stream has them, stores the
  first `n`, and takes no more from it.**
* `readToEnd_spec`: **reading to the end succeeds just when the stream ends and is not too long,
  gives all its bytes, and never takes more than one byte above the limit.**
* `writeAll_spec`: **writing succeeds just when all bytes were accepted; those that were are the
  first ones, in order.**
-/

namespace Libca.Io

open Common

/-! ## Sources -/

/-- What the next call of `read` meets. -/
inductive ReadEvent where
  | piece (bytes : Bytes) (ne : bytes ≠ [])
  | interrupted (message : String)

/-- What a source does when its pieces are used up. -/
inductive ReadEnd where
  | eof
  | error (e : IoError) (ne : e.kind ≠ .interrupted)
  | overReport (excess : Nat)

/-- A byte stream in pieces. -/
structure ByteSource where
  events : List ReadEvent
  ending : ReadEnd

namespace ReadEvent

/-- The bytes of a piece. -/
def bytes : ReadEvent → Bytes
  | piece bytes _ => bytes
  | interrupted _ => []

end ReadEvent

namespace ByteSource

/-- What the stream delivers before it ends. -/
def bytes (s : ByteSource) : Bytes := s.events.flatMap ReadEvent.bytes

/-- The calls that it may still take to use the pieces up. -/
def calls (s : ByteSource) : Nat := s.events.length + s.bytes.length

/-- `read`: the result, the bytes at the front of the caller's buffer, and the source after it. -/
def read (s : ByteSource) (capacity : Nat) : Except IoError Nat × Bytes × ByteSource :=
  match s.events with
  | [] =>
    match s.ending with
    | .eof => (.ok 0, [], s)
    | .error e _ => (.error e, [], s)
    | .overReport excess => (.ok (capacity + excess + 1), [], s)
  | .interrupted message :: events =>
    (.error ⟨.interrupted, message⟩, [], { s with events := events })
  | .piece bytes ne :: events =>
    if h : capacity < bytes.length then
      (.ok capacity, bytes.take capacity,
        { s with events := .piece (bytes.drop capacity) (by simpa using h) :: events })
    else (.ok bytes.length, bytes, { s with events := events })

/-- What a call gives: a part of the bytes, an interruption, or the end. -/
inductive Reads (s : ByteSource) (capacity : Nat) : Except IoError Nat × Bytes × ByteSource → Prop
  | part {part : Bytes} {s' : ByteSource} : part ≠ [] →
    part.length ≤ capacity → s.bytes = part ++ s'.bytes →
      s'.ending = s.ending → s'.calls < s.calls → Reads s capacity (.ok part.length, part, s')
  | interrupted {message : String} {s' : ByteSource} : s'.bytes = s.bytes → s'.ending = s.ending →
      s'.calls < s.calls → Reads s capacity (.error ⟨.interrupted, message⟩, [], s')
  | eof : s.bytes = [] → s.ending = .eof → Reads s capacity (.ok 0, [], s)
  | error {e : IoError} {ne : e.kind ≠ .interrupted} : s.bytes = [] → s.ending = .error e ne →
      Reads s capacity (.error e, [], s)
  | overReport {excess : Nat} : s.bytes = [] → s.ending = .overReport excess →
      Reads s capacity (.ok (capacity + excess + 1), [], s)

theorem bytes_cons (event : ReadEvent) (events : List ReadEvent) (ending : ReadEnd) :
    bytes ⟨event :: events, ending⟩ = event.bytes ++ bytes ⟨events, ending⟩ := List.flatMap_cons

theorem calls_cons (event : ReadEvent) (events : List ReadEvent) (ending : ReadEnd) :
    calls ⟨event :: events, ending⟩ = calls ⟨events, ending⟩ + event.bytes.length + 1 := by
  rw [calls, calls, bytes_cons, List.length_append]
  dsimp only
  rw [List.length_cons]
  omega

variable {capacity : Nat}

/-- **What a call of `read` does.** -/
theorem read_cases (s : ByteSource) (hpos : 0 < capacity) : Reads s capacity (s.read capacity) := by
  obtain ⟨events, ending⟩ := s
  unfold read
  cases events with
  | nil =>
    cases ending with
    | eof => exact .eof rfl rfl
    | error e ne => exact .error rfl rfl
    | overReport excess => exact .overReport rfl rfl
  | cons event events =>
    cases event with
    | interrupted message =>
      refine .interrupted rfl rfl ?_
      rw [calls_cons]
      exact Nat.lt_succ_self _
    | piece bytes ne =>
      have hbytes : 0 < bytes.length := List.length_pos_iff.mpr ne
      dsimp only
      split_ifs with h
      · have hlength : (bytes.take capacity).length = capacity := List.length_take_of_le h.le
        have hne : bytes.drop capacity ≠ [] := by simpa using h
        have hpart : Reads ⟨.piece bytes ne :: events, ending⟩ capacity (.ok (bytes.take capacity).length,
            bytes.take capacity, ⟨.piece (bytes.drop capacity) hne :: events, ending⟩) :=
          .part
            (List.length_pos_iff.mp (by omega)) hlength.le
            (by
              rw [bytes_cons, bytes_cons, ← List.append_assoc]
              exact (List.take_append_drop ..).symm ▸ rfl) rfl
            (by
              rw [calls_cons, calls_cons]
              simp only [ReadEvent.bytes, List.length_drop]
              omega)
        rwa [hlength] at hpart
      · refine .part ne (Nat.le_of_not_lt h) (bytes_cons _ _ _) rfl ?_
        rw [calls_cons]
        omega

theorem reads_of_read {s : ByteSource} {result : Except IoError Nat × Bytes × ByteSource}
    (h : s.read capacity = result) (hpos : 0 < capacity) : Reads s capacity result :=
  h ▸ read_cases s hpos

/-- An interruption and a part bring the end nearer. -/
theorem calls_lt_of_interrupted {s s' : ByteSource} {e : IoError} {part : Bytes}
    (hpos : 0 < capacity)
    (h : s.read capacity = (.error e, part, s')) (he : e.kind = .interrupted) :
    s'.calls < s.calls := by
  cases reads_of_read h hpos with
  | interrupted _ _ hcalls => exact hcalls
  | @error _ ne => exact absurd he ne

theorem calls_lt_of_part {s s' : ByteSource} {count : Nat} {part : Bytes} (hpos : 0 < capacity)
    (h : s.read capacity = (.ok count, part, s')) (hle : count ≤ capacity) (hne : count ≠ 0) :
    s'.calls < s.calls := by
  cases reads_of_read h hpos with
  | part _ _ _ _ hcalls => exact hcalls
  | eof => exact absurd rfl hne
  | overReport => omega

end ByteSource

/-! ## Reading exactly -/

def invalidBuffer : IoError where
  kind := .invalidInput
  message := "read buffer must not be null when length is nonzero"

def exceededCapacity : IoError where
  kind := .invalidData
  message := "Reader returned more bytes than the requested capacity"

def endedEarly : IoError where
  kind := .unexpectedEof
  message := "stream ended before the requested bytes were read"

/-- The loop of `read_exact`, with what is stored in front of `offset`. -/
def readExactLoop (s : ByteSource) (length : UInt64) (offset : Nat) (stored : Bytes) :
    Except IoError Unit × Bytes × ByteSource :=
  if _hlt : offset < length.toNat then
    match _hread : s.read (differenceUsize length.toNat offset) with
    | (.error e, _, s) => if _he : e.kind = .interrupted then readExactLoop s length offset stored
    else (.error e, stored, s)
    | (.ok count, part, s) =>
      if _hmany : differenceUsize length.toNat offset < count then
        (.error exceededCapacity, stored, s)
      else if _hzero : count = 0 then (.error endedEarly, stored, s)
      else readExactLoop s length (sumUsize offset count) (stored ++ part)
  else (.ok (), stored, s)
termination_by s.calls
decreasing_by
  all_goals
    have hpos : 0 < differenceUsize length.toNat offset := by
      rw [differenceUsize_of_le _hlt.le length.toNat_lt]
      omega
  · exact ByteSource.calls_lt_of_interrupted hpos _hread _he
  · exact ByteSource.calls_lt_of_part hpos _hread (Nat.le_of_not_lt _hmany) _hzero

/-- `read_exact`. -/
def readExact (s : ByteSource) (isNull : Bool) (length : UInt64) :
    Except IoError Unit × Bytes × ByteSource :=
  if length ≠ 0 ∧ isNull then (.error invalidBuffer, [], s) else readExactLoop s length 0 []

/-- What was asked for is stored behind what was there and taken from the source, as far as it has
it. -/
structure ReadsExactly (s : ByteSource) (length : Nat) (before : Bytes)
    (result : Except IoError Unit × Bytes × ByteSource) : Prop where
  ok_iff : result.1 = .ok () ↔ length ≤ s.bytes.length
  stored : result.2.1 = before ++ s.bytes.take length
  rest : result.2.2.bytes = s.bytes.drop length

/-- Nothing is left of the source. -/
theorem ReadsExactly.failed {s : ByteSource} {length : Nat} (hbytes : s.bytes = [])
    (hlength : 0 < length)
    (before : Bytes) (e : IoError) : ReadsExactly s length before (.error e, before, s) where
  ok_iff := by
    rw [hbytes]
    exact iff_of_false nofun (Nat.not_le_of_lt hlength)
  stored := by rw [hbytes, List.take_nil, List.append_nil]
  rest := by rw [hbytes, List.drop_nil]

theorem readExactLoop_spec (s : ByteSource) (length : UInt64) {offset : Nat} (stored : Bytes)
    (hoffset : offset ≤ length.toNat) :
    ReadsExactly s (length.toNat - offset) stored (readExactLoop s length offset stored) := by
  have hlength := length.toNat_lt
  have hcapacity {offset : Nat} (hlt : offset < length.toNat) :
      differenceUsize length.toNat offset = length.toNat - offset :=
        differenceUsize_of_le hlt.le hlength
  have hpos {offset : Nat} (hlt : offset < length.toNat) : 0 <
    differenceUsize length.toNat offset := by
    rw [hcapacity hlt]
    omega
  fun_induction readExactLoop s length offset stored with
  | case1 s offset stored hlt e part s' hread he ih =>
    cases ByteSource.reads_of_read hread (hpos hlt) with
    | interrupted hbytes =>
      have hspec := ih hoffset
      exact ⟨hbytes ▸ hspec.ok_iff, hbytes ▸ hspec.stored, hbytes ▸ hspec.rest⟩
    | @error _ ne => exact absurd he ne
  | case2 s offset stored hlt e part s' hread he =>
    cases ByteSource.reads_of_read hread (hpos hlt) with
    | interrupted => exact absurd rfl he
    | error hbytes => exact .failed hbytes (by omega) stored e
  | case3 s offset stored hlt count part s' hread hmany =>
    cases ByteSource.reads_of_read hread (hpos hlt) with
    | part _ hle => exact absurd hmany (Nat.not_lt_of_le hle)
    | eof => exact absurd hmany (Nat.not_lt_zero _)
    | overReport hbytes => exact .failed hbytes (by omega) stored _
  | case4 s offset stored hlt part s' hread hmany =>
    generalize hcount : 0 = count at hread
    cases ByteSource.reads_of_read hread (hpos hlt) with
    | part hne => exact absurd (List.length_eq_zero_iff.mp hcount.symm) hne
    | eof hbytes => exact .failed hbytes (by omega) stored _
    | overReport => omega
  | case5 s offset stored hlt count part s' hread hmany hzero ih =>
    cases ByteSource.reads_of_read hread (hpos hlt) with
    | part hne hle hbytes =>
      rw [hcapacity hlt] at hle
      rw [sumUsize_of_lt (by omega)] at ih ⊢
      have hspec := ih (by omega)
      have hmore : length.toNat - offset = part.length +
        (length.toNat - (offset + part.length)) := by omega
      rw [hmore]
      refine ⟨?_, ?_, ?_⟩
      · rw [hspec.ok_iff, hbytes, List.length_append]
        exact (Nat.add_le_add_iff_left).symm
      · rw [hspec.stored, hbytes, List.take_length_add_append, List.append_assoc]
      · rw [hspec.rest, hbytes, List.drop_length_add_append]
    | eof => exact absurd rfl hzero
    | overReport => omega
  | case6 s offset stored hge =>
    have hnone : length.toNat - offset = 0 := by omega
    rw [hnone]
    exact ⟨iff_of_true rfl (Nat.zero_le _), (List.append_nil _).symm, rfl⟩

/-- **Reading exactly `n` bytes succeeds just when the source has them, stores the first `n`, and
takes no more.** -/
theorem readExact_spec (s : ByteSource) (length : UInt64) :
    ReadsExactly s length.toNat [] (readExact s false length) := by
  rw [readExact, if_neg (by simp)]
  exact readExactLoop_spec s length [] (Nat.zero_le _)

/-! ## Reading to the end -/

def exceedsLimit : IoError where
  kind := .invalidData
  message := "stream exceeds the configured read limit"

/-- The size of a request of `read_to_end`, never more than its buffer has. -/
def requestSize (remaining : Nat) : Nat := if remaining < 8192 then sumUsize remaining 1 else 8192

theorem requestSize_eq (remaining : Nat) : requestSize remaining = min (remaining + 1) 8192 := by
  unfold requestSize
  split_ifs with h
  · rw [sumUsize_of_lt (by omega)]
    omega
  · omega

theorem requestSize_pos (remaining : Nat) : 0 < requestSize remaining := by
  rw [requestSize_eq]
  omega

/-- The loop of `read_to_end`, with the output so far. -/
def readToEndLoop (s : ByteSource) (maxLength : UInt64) (total : Nat) (output : Bytes) :
    Except IoError Bytes × ByteSource :=
  let remaining := differenceUsize maxLength.toNat total
  match _hread : s.read (requestSize remaining) with
  | (.error e, _, s) => if _he : e.kind = .interrupted then readToEndLoop s maxLength total output
  else (.error e, s)
  | (.ok count, part, s) =>
    if _hmany : requestSize remaining < count then (.error exceededCapacity, s)
    else if _hzero : count = 0 then (.ok output, s)
    else if remaining < count then (.error exceedsLimit, s)
    else readToEndLoop s maxLength (sumUsize total count) (output ++ part)
termination_by s.calls
decreasing_by
  · exact ByteSource.calls_lt_of_interrupted (requestSize_pos _) _hread _he
  · exact ByteSource.calls_lt_of_part (requestSize_pos _) _hread (Nat.le_of_not_lt _hmany) _hzero

/-- `read_to_end`. -/
def readToEnd (s : ByteSource) (maxLength : UInt64) : Except IoError Bytes × ByteSource :=
  readToEndLoop s maxLength 0 []

/-- The source is read to its end, within a limit. -/
structure ReadsToEnd (s : ByteSource) (limit : Nat) (before : Bytes)
    (result : Except IoError Bytes × ByteSource) :
    Prop where
  ok_iff : (∃ output, result.1 = .ok output) ↔ s.ending = .eof ∧ s.bytes.length ≤ limit
  output : ∀ output, result.1 = .ok output → output = before ++ s.bytes
  taken : ∃ taken, s.bytes = taken ++ result.2.bytes ∧ taken.length ≤ limit + 1

/-- The source ended, but not with the end of the stream. -/
theorem ReadsToEnd.failed {s : ByteSource} (_ : s.bytes = []) (hending : s.ending ≠ .eof)
    (limit : Nat) (before : Bytes) (e : IoError) : ReadsToEnd s limit before (.error e, s) where
  ok_iff := iff_of_false nofun fun h => hending h.1
  output := nofun
  taken := ⟨[], rfl, Nat.zero_le _⟩

theorem readToEndLoop_spec (s : ByteSource) (maxLength : UInt64) {total : Nat} (output : Bytes)
    (htotal : total ≤ maxLength.toNat) :
    ReadsToEnd s (maxLength.toNat - total) output (readToEndLoop s maxLength total output) := by
  have hmax := maxLength.toNat_lt
  fun_induction readToEndLoop s maxLength total output with
  | case1 s total output remaining e part s' hread he ih =>
    cases ByteSource.reads_of_read hread (requestSize_pos _) with
    | interrupted hbytes hending =>
      have hspec := ih htotal
      exact ⟨hbytes ▸ hending ▸ hspec.ok_iff, hbytes ▸ hspec.output, hbytes ▸ hspec.taken⟩
    | @error _ ne => exact absurd he ne
  | case2 s total output remaining e part s' hread he =>
    cases ByteSource.reads_of_read hread (requestSize_pos _) with
    | interrupted => exact absurd rfl he
    | error hbytes hending => exact .failed hbytes (by rw [hending]; nofun) _ output e
  | case3 s total output remaining count part s' hread hmany =>
    cases ByteSource.reads_of_read hread (requestSize_pos _) with
    | part _ hle => exact absurd hmany (Nat.not_lt_of_le hle)
    | eof => exact absurd hmany (Nat.not_lt_zero _)
    | overReport hbytes hending => exact .failed hbytes (by rw [hending]; nofun) _ output _
  | case4 s total output remaining part s' hread hmany =>
    generalize hcount : 0 = count at hread
    cases ByteSource.reads_of_read hread (requestSize_pos _) with
    | part hne => exact absurd (List.length_eq_zero_iff.mp hcount.symm) hne
    | eof hbytes hending =>
      refine ⟨iff_of_true ⟨output, rfl⟩ ⟨hending, ?_⟩, fun out hout => ?_, [], rfl, Nat.zero_le _⟩
      · rw [hbytes]
        exact Nat.zero_le _
      · rw [hbytes, List.append_nil]
        exact (Except.ok.inj hout).symm
    | overReport => omega
  | case5 s total output remaining count part s' hread hmany hzero hlimit =>
    have hremaining : remaining = maxLength.toNat - total := differenceUsize_of_le htotal hmax
    cases ByteSource.reads_of_read hread (requestSize_pos _) with
    | part hne hle hbytes hending =>
      rw [requestSize_eq] at hle
      refine ⟨iff_of_false nofun fun h => ?_, nofun, part, hbytes, by omega⟩
      have hlong := h.2
      rw [hbytes, List.length_append] at hlong
      omega
    | eof => exact absurd rfl hzero
    | overReport => omega
  | case6 s total output remaining count part s' hread hmany hzero hlimit ih =>
    have hremaining : remaining = maxLength.toNat - total := differenceUsize_of_le htotal hmax
    cases ByteSource.reads_of_read hread (requestSize_pos _) with
    | part hne hle hbytes hending =>
      rw [sumUsize_of_lt (by omega)] at ih ⊢
      have hspec := ih (by omega)
      refine ⟨?_, ?_, ?_⟩
      · rw [hspec.ok_iff, hbytes, hending, List.length_append]
        exact and_congr_right fun _ => by omega
      · intro out hout
        rw [hspec.output out hout, hbytes, List.append_assoc]
      · obtain ⟨taken, htaken, hlength⟩ := hspec.taken
        refine ⟨part ++ taken, ?_, ?_⟩
        · rw [hbytes, htaken, List.append_assoc]
        · rw [List.length_append]
          omega
    | eof => exact absurd rfl hzero
    | overReport => omega

/-- **Reading to the end succeeds just when the stream ends and is not too long, gives all its
bytes, and never takes more than one byte above the limit.** -/
theorem readToEnd_spec (s : ByteSource) (maxLength : UInt64) :
    ReadsToEnd s maxLength.toNat [] (readToEnd s maxLength) :=
  readToEndLoop_spec s maxLength [] (Nat.zero_le _)

/-! ## Sinks -/

/-- What the next call of `write` meets. -/
inductive WriteEvent where
  | accept (more : Nat)
  | interrupted (message : String)

/-- What a sink does after that. -/
inductive WriteEnd where
  | all
  | zero
  | error (e : IoError) (ne : e.kind ≠ .interrupted)
  | overReport (excess : Nat)

/-- A byte sink, with what it has accepted. -/
structure ByteSink where
  accepted : Bytes := []
  events : List WriteEvent
  ending : WriteEnd

namespace ByteSink

/-- `write`: a call that accepts something accepts at most `more + 1` bytes. -/
def write (s : ByteSink) (data : Bytes) : Except IoError Nat × ByteSink :=
  match s.events with
  | [] =>
    match s.ending with
    | .all => (.ok data.length, { s with accepted := s.accepted ++ data })
    | .zero => (.ok 0, s)
    | .error e _ => (.error e, s)
    | .overReport excess => (.ok (data.length + excess + 1), s)
  | .interrupted message :: events => (.error ⟨.interrupted, message⟩, { s with events := events })
  | .accept more :: events =>
    (.ok (min data.length (more + 1)),
      { s with accepted := s.accepted ++ data.take (more + 1), events := events })

/-- What a call does: it accepts a part, is interrupted, or accepts nothing for good. -/
inductive Writes (s : ByteSink) (data : Bytes) : Except IoError Nat × ByteSink → Prop
  | part {count : Nat} {s' : ByteSink} : 0 < count → count ≤ data.length →
      s'.accepted = s.accepted ++ data.take count → s'.events.length ≤ s.events.length →
        Writes s data (.ok count, s')
  | interrupted {message : String} {s' : ByteSink} : s'.accepted = s.accepted →
      s'.events.length < s.events.length → Writes s data (.error ⟨.interrupted, message⟩, s')
  | zero : Writes s data (.ok 0, s)
  | error {e : IoError} : e.kind ≠ .interrupted → Writes s data (.error e, s)
  | overReport {count : Nat} : data.length < count → Writes s data (.ok count, s)

/-- **What a call of `write` does.** -/
theorem write_cases (s : ByteSink) {data : Bytes} (hne : data ≠ []) :
    Writes s data (s.write data) := by
  obtain ⟨accepted, events, ending⟩ := s
  have hpos : 0 < data.length := List.length_pos_iff.mpr hne
  unfold write
  cases events with
  | nil =>
    cases ending with
    | all => exact .part hpos (le_rfl) (by rw [List.take_length]) (le_rfl)
    | zero => exact .zero
    | error e ne => exact .error ne
    | overReport excess => exact .overReport (by omega)
  | cons event events =>
    cases event with
    | interrupted message => exact .interrupted rfl (Nat.lt_succ_self _)
    | accept more =>
      refine .part (by omega) (Nat.min_le_left _ _) ?_ (Nat.le_succ _)
      rw [Nat.min_comm, ← List.take_eq_take_min]

theorem writes_of_write {s : ByteSink} {data : Bytes} {result : Except IoError Nat × ByteSink}
    (h : s.write data = result) (hne : data ≠ []) : Writes s data result := h ▸ write_cases s hne

end ByteSink

/-! ## Writing all -/

def invalidData : IoError where
  kind := .invalidInput
  message := "write data must not be null when length is nonzero"

def exceededLength : IoError where
  kind := .invalidData
  message := "Writer returned more bytes than the requested length"

def acceptedNothing : IoError where
  kind := .writeZero
  message := "Writer returned zero before all bytes were written"

/-- A `ByteSlice`; its size is a `usize`. -/
structure ByteSlice where
  bytes : Bytes
  fits : bytes.length < 2 ^ 64

theorem ne_nil_of_lt {data : Bytes} {offset : Nat} (h : offset < data.length) :
    data.drop offset ≠ [] := by
  rw [ne_eq, List.drop_eq_nil_iff]
  omega

/-- The loop of `write_all`. -/
def writeAllLoop (s : ByteSink) (data : ByteSlice) (offset : Nat) :
    Except IoError Unit × ByteSink :=
  if _hlt : offset < data.bytes.length then
    match _hwrite : s.write (data.bytes.drop offset) with
    | (.error e, s) => if _he : e.kind = .interrupted then writeAllLoop s data offset
    else (.error e, s)
    | (.ok count, s) =>
      if _hmany : differenceUsize data.bytes.length offset < count then (.error exceededLength, s)
      else if _hzero : count = 0 then (.error acceptedNothing, s)
      else writeAllLoop s data (sumUsize offset count)
  else (.ok (), s)
termination_by data.bytes.length - offset + s.events.length
decreasing_by
  · cases ByteSink.writes_of_write _hwrite (ne_nil_of_lt _hlt) with
    | interrupted _ hevents => omega
    | error hne => exact absurd _he hne
  · have hfits := data.fits
    rw [differenceUsize_of_le _hlt.le hfits] at _hmany
    rw [sumUsize_of_lt (by omega)]
    cases ByteSink.writes_of_write _hwrite (ne_nil_of_lt _hlt) with
    | part hpos _ _ hevents => omega
    | zero => exact absurd rfl _hzero
    | overReport hcount =>
      rw [List.length_drop] at hcount
      omega

/-- `write_all`. -/
def writeAll (s : ByteSink) (isNull : Bool) (data : ByteSlice) : Except IoError Unit × ByteSink :=
  if data.bytes.length ≠ 0 ∧ isNull then (.error invalidData, s) else writeAllLoop s data 0

/-- The bytes are accepted in order, and all of them where that is reported. -/
structure WritesAll (s : ByteSink) (data : Bytes) (result : Except IoError Unit × ByteSink) :
    Prop where
  ok_iff : result.1 = .ok () ↔ result.2.accepted = s.accepted ++ data
  accepted : ∃ count ≤ data.length, result.2.accepted = s.accepted ++ data.take count

/-- The sink takes no more. -/
theorem WritesAll.failed {s : ByteSink} {data : Bytes} (hne : data ≠ []) (e : IoError) :
    WritesAll s data (.error e, s) where
  ok_iff := iff_of_false nofun fun h => hne (List.self_eq_append_right.mp h)
  accepted := ⟨0, Nat.zero_le _, (List.append_nil _).symm⟩

theorem writeAllLoop_spec (s : ByteSink) (data : ByteSlice) (offset : Nat)
    (hoffset : offset ≤ data.bytes.length) :
    WritesAll s (data.bytes.drop offset) (writeAllLoop s data offset) := by
  have hfits := data.fits
  fun_induction writeAllLoop s data offset with
  | case1 s offset hlt e s' hwrite he ih =>
    cases ByteSink.writes_of_write hwrite (ne_nil_of_lt hlt) with
    | interrupted haccepted =>
      have hspec := ih hoffset
      exact ⟨haccepted ▸ hspec.ok_iff, haccepted ▸ hspec.accepted⟩
    | error hne => exact absurd he hne
  | case2 s offset hlt e s' hwrite he =>
    cases ByteSink.writes_of_write hwrite (ne_nil_of_lt hlt) with
    | interrupted => exact absurd rfl he
    | error => exact .failed (ne_nil_of_lt hlt) e
  | case3 s offset hlt count s' hwrite hmany =>
    rw [differenceUsize_of_le hlt.le hfits] at hmany
    cases ByteSink.writes_of_write hwrite (ne_nil_of_lt hlt) with
    | part _ hle =>
      rw [List.length_drop] at hle
      exact absurd hmany (Nat.not_lt_of_le hle)
    | zero => exact absurd hmany (Nat.not_lt_zero _)
    | overReport => exact .failed (ne_nil_of_lt hlt) _
  | case4 s offset hlt s' hwrite hmany =>
    generalize hcount : 0 = count at hwrite
    cases ByteSink.writes_of_write hwrite (ne_nil_of_lt hlt) with
    | part hpos => omega
    | zero => exact .failed (ne_nil_of_lt hlt) _
    | overReport hlarge => omega
  | case5 s offset hlt count s' hwrite hmany hzero ih =>
    rw [differenceUsize_of_le hlt.le hfits] at hmany
    cases ByteSink.writes_of_write hwrite (ne_nil_of_lt hlt) with
    | part hpos hle haccepted =>
      rw [sumUsize_of_lt (by omega)] at ih ⊢
      have hspec := ih (by omega)
      have hsplit : data.bytes.drop offset = (data.bytes.drop offset).take count ++ data.bytes.drop
        (offset + count) := by
        rw [← List.drop_drop, List.take_append_drop]
      refine ⟨?_, ?_⟩
      · rw [hspec.ok_iff, haccepted, List.append_assoc, ← hsplit]
      · obtain ⟨more, hmore, htaken⟩ := hspec.accepted
        refine ⟨count + more, ?_, ?_⟩
        · rw [List.length_drop] at hmore ⊢
          omega
        · rw [htaken, haccepted, List.append_assoc, List.take_add, List.drop_drop]
    | zero => exact absurd rfl hzero
    | overReport hlarge =>
      rw [List.length_drop] at hlarge
      omega
  | case6 s offset hge =>
    have hnil : data.bytes.drop offset = [] := List.drop_eq_nil_of_le (Nat.le_of_not_lt hge)
    rw [hnil]
    exact ⟨iff_of_true rfl (List.append_nil _).symm, 0, Nat.zero_le _, (List.append_nil _).symm⟩

/-- **Writing succeeds just when all bytes were accepted; those that were are the first ones, in
order.** -/
theorem writeAll_spec (s : ByteSink) (data : ByteSlice) :
    WritesAll s data.bytes (writeAll s false data) := by
  rw [writeAll, if_neg (by simp)]
  exact writeAllLoop_spec s data 0 (Nat.zero_le _)

/-! ## The three loops -/

/-- **The loops of `Reader` and `Writer` move what they should, for every source, every sink and
every size.** -/
theorem loops_spec (source : ByteSource) (length maxLength : UInt64) (sink : ByteSink)
    (data : ByteSlice) :
    ReadsExactly source length.toNat [] (readExact source false length) ∧
      ReadsToEnd source maxLength.toNat [] (readToEnd source maxLength) ∧
      WritesAll sink data.bytes (writeAll sink false data) :=
  ⟨readExact_spec source length, readToEnd_spec source maxLength, writeAll_spec sink data⟩

end Libca.Io
