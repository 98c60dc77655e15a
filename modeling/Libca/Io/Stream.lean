import Libca.Common.Bytes

/-!
# `Reader` and `Writer` (`io/reader.hpp`, `io/writer.hpp`, `io/error.hpp`)

The byte streams that the buffered ones own. What such a stream does at its next calls is a list of
outcomes, and when the list is used up every call succeeds in full.

* `Reader.read_cases`: a call hands over a part of the stream, or fails and takes nothing from it.
* `Writer.write_cases`: a call takes a part of the bytes, or fails and takes none of them.
-/

namespace Libca.Io

open Common

inductive IoErrorKind
  | notFound
  | permissionDenied
  | connectionRefused
  | connectionReset
  | connectionAborted
  | notConnected
  | addrInUse
  | addrNotAvailable
  | brokenPipe
  | alreadyExists
  | wouldBlock
  | invalidInput
  | invalidData
  | timedOut
  | writeZero
  | interrupted
  | unexpectedEof
  | outOfMemory
  | unsupported
  | other
deriving DecidableEq, Repr

/-- `IoError::from_kind`. -/
structure IoError where
  kind : IoErrorKind
  message : String
deriving DecidableEq, Repr

def invalidBufferedStream (operation : String) : IoError where
  kind := .invalidInput
  message := operation ++ " on an empty buffered stream"

def invalidReadCount : IoError where
  kind := .invalidData
  message := "Reader returned more bytes than the provided buffer"

def invalidWriteCount : IoError where
  kind := .invalidData
  message := "Writer returned more bytes than the provided input"

/-! ## The reader -/

/-- What a call of `read` does: it gives at most `most + 1` bytes, fails, or reports more bytes than
it was asked for. -/
inductive ReadOutcome
  | short (most : Nat)
  | error (e : IoError)
  | overReport (excess : Nat)
deriving DecidableEq, Repr

/-- A byte stream: what it has given so far, what it still has, and what the next calls do. -/
structure Reader where
  consumed : Bytes := []
  rest : Bytes
  outcomes : List ReadOutcome := []
deriving DecidableEq, Repr

/-- The front of the stream, without an error. -/
def Reader.give (inner : Reader) (most : Nat) (outcomes : List ReadOutcome) :
    Except IoError Nat × Bytes × Reader :=
  (.ok (inner.rest.take most).length, inner.rest.take most,
    { consumed := inner.consumed ++ inner.rest.take most
      rest := inner.rest.drop most
      outcomes := outcomes })

/-- `read`: the result and the bytes at the front of the caller's buffer. Zero is the end of the
stream. -/
def Reader.read (inner : Reader) (capacity : Nat) : Except IoError Nat × Bytes × Reader :=
  match inner.outcomes with
  | [] => inner.give capacity []
  | .short most :: outcomes => inner.give (min capacity (most + 1)) outcomes
  | .error e :: outcomes => (.error e, [], { inner with outcomes := outcomes })
  | .overReport excess :: outcomes =>
    (.ok (capacity + excess + 1), [], { inner with outcomes := outcomes })

/-- **What a call of a reader does.** -/
theorem Reader.read_cases (inner : Reader) (capacity : Nat) :
    (∃ most outcomes, most ≤ capacity ∧ (0 < capacity → 0 < most) ∧
      outcomes <:+ inner.outcomes ∧ inner.read capacity = inner.give most outcomes) ∨
    (∃ e outcomes, inner.outcomes = .error e :: outcomes ∧
      inner.read capacity = (.error e, [], { inner with outcomes := outcomes })) ∨
    ∃ excess outcomes, inner.outcomes = .overReport excess :: outcomes ∧
      inner.read capacity = (.ok (capacity + excess + 1), [],
        { inner with outcomes := outcomes }) := by
  unfold Reader.read
  cases inner.outcomes with
  | nil => exact .inl ⟨capacity, [], le_rfl, id, List.suffix_refl _, rfl⟩
  | cons outcome outcomes =>
    cases outcome with
    | short most =>
      exact .inl ⟨min capacity (most + 1), outcomes, Nat.min_le_left _ _,
        fun h => Nat.lt_min.mpr ⟨h, Nat.succ_pos _⟩, List.suffix_cons _ _, rfl⟩
    | error e => exact .inr (.inl ⟨e, outcomes, rfl, rfl⟩)
    | overReport excess => exact .inr (.inr ⟨excess, outcomes, rfl, rfl⟩)

/-! ## The writer -/

/-- What a call of `write` or `flush` does: `write` takes at most `most` bytes, or the call fails.
-/
inductive WriteOutcome
  | short (most : Nat)
  | error (e : IoError)
deriving DecidableEq, Repr

/-- A byte sink: what it has accepted so far, and what the next calls do. -/
structure Writer where
  accepted : Bytes := []
  outcomes : List WriteOutcome := []
deriving DecidableEq, Repr

/-- `write`. -/
def Writer.write (inner : Writer) (data : Bytes) : Except IoError Nat × Writer :=
  match inner.outcomes with
  | [] => (.ok data.length, { accepted := inner.accepted ++ data, outcomes := [] })
  | .short most :: outcomes =>
    let count := min most data.length
    (.ok count, { accepted := inner.accepted ++ data.take count, outcomes := outcomes })
  | .error e :: outcomes => (.error e, { inner with outcomes := outcomes })

/-- `flush`. -/
def Writer.flush (inner : Writer) : Except IoError Unit × Writer :=
  match inner.outcomes with
  | [] | .short _ :: _ => (.ok (), { inner with outcomes := inner.outcomes.tail })
  | .error e :: outcomes => (.error e, { inner with outcomes := outcomes })

/-- **What a call of a writer does.** -/
theorem Writer.write_cases (inner : Writer) (data : Bytes) :
    (∃ count outcomes, count ≤ data.length ∧
      (outcomes.length < inner.outcomes.length ∨ count = data.length) ∧
      inner.write data =
        (.ok count, { accepted := inner.accepted ++ data.take count, outcomes := outcomes })) ∨
    ∃ e outcomes, outcomes.length < inner.outcomes.length ∧
      inner.write data = (.error e, { inner with outcomes := outcomes }) := by
  unfold Writer.write
  cases inner.outcomes with
  | nil =>
    refine .inl ⟨data.length, [], le_rfl, .inr rfl, ?_⟩
    rw [List.take_length]
  | cons outcome outcomes =>
    cases outcome with
    | short most =>
      exact .inl ⟨min most data.length, outcomes, Nat.min_le_right _ _, .inl (Nat.lt_succ_self _),
        rfl⟩
    | error e => exact .inr ⟨e, outcomes, Nat.lt_succ_self _, rfl⟩

theorem Writer.flush_accepted (inner : Writer) : inner.flush.2.accepted = inner.accepted := by
  unfold Writer.flush
  split <;> rfl

end Libca.Io
