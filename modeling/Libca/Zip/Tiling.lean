import Libca.Common.Except
import Libca.Common.Run
import Libca.Zip.InputStream

/-!
# Reading an entry in pieces (`zip/input_stream.cpp` 54-247)

* `Zlib.Delivers`: what is assumed of `inflate`; it may hold output back when it has taken all
  input.
* `Left`: the content of an entry that has not been returned yet. `Starved`: the compressed data is
  used up, but something is held back; `read` stops there.
* `ReadFits`, `FitsAll`: what a call of `read` and of `read_all` asks of the state it is made in.
* `inflateLoop_spec`, `read_spec`: **a call returns the next bytes, and none only when there are
  none.**
* `opened_of_getNextEntry`: an entry that was returned is open at the start of its data.
* `reads_tile`: **in every run whose calls fit, the pieces tile the content.** `not_reads_tile`: a
  run that starves.
-/

namespace Libca.Zip

open Common Fallible

variable {Z : Zlib}

/-- What is assumed of `inflate`: `I s z rest` holds of a stream that has `z` to take and, with it,
`rest` to give. A call with the next bytes of its input, or after the last of them, makes progress.
It may hold output back when it has taken all. -/
structure Zlib.Delivers (Z : Zlib) (Compressed : Bytes → Bytes → Prop)
    (I : Z.InflateStream → Bytes → Bytes → Prop) : Prop where
  init : ∃ s, Z.inflateInit2 = some s ∧ ∀ z c, Compressed z c → I s z c
  step : ∀ s z rest fed room, I s z rest → fed <+: z → fed ≠ [] ∨ fed = z → 0 < room →
    ((Z.inflate s fed room).status = .streamEnd ∧ (Z.inflate s fed room).output = rest ∧
        rest.length ≤ room ∧ fed = z) ∨
      ((Z.inflate s fed room).status = .ok ∧ (Z.inflate s fed room).consumed ≤ fed.length ∧
        (Z.inflate s fed room).output.length ≤ room ∧
        0 < (Z.inflate s fed room).consumed + (Z.inflate s fed room).output.length ∧
        ∃ rest', rest = (Z.inflate s fed room).output ++ rest' ∧
          I (Z.inflate s fed room).stream (z.drop (Z.inflate s fed room).consumed) rest')

variable {Compressed : Bytes → Bytes → Prop} {I : Z.InflateStream → Bytes → Bytes → Prop}

/-- **A stream that is given all of its input inflates to the content.** -/
theorem inflateLoop_delivers (hZ : Z.Delivers Compressed I) {fuel : Nat} {stream : Z.InflateStream}
    {z rest : Bytes} (h : I stream z rest) (hfuel : z.length + rest.length < fuel) (out : Bytes) :
    inflateLoop Z fuel stream z out = .ok (out ++ rest) := by
  induction fuel generalizing stream z rest out with
  | zero => omega
  | succ fuel ih =>
    unfold inflateLoop
    rcases hZ.step stream z rest z bufferSize h List.prefix_rfl (.inr rfl) (by decide) with
      ⟨hstatus, houtput, -, -⟩ | ⟨hstatus, hconsumed, -, hprogress, rest', hrest, hI⟩
    · simp only [hstatus, houtput]
    · have hshorter := congrArg List.length hrest
      rw [List.length_append] at hshorter
      simp only [hstatus]
      rw [ih hI (by rw [List.length_drop]; omega), hrest, List.append_assoc]

/-- **`inflate_raw` gives the content.** -/
theorem inflateRaw_delivers (hZ : Z.Delivers Compressed I) {fuel : Nat} {z c : Bytes}
    (h : Compressed z c)
    (hsize : z.length < 2 ^ 32) (hfuel : z.length + c.length < fuel) :
    inflateRaw Z fuel z = .ok c := by
  obtain ⟨stream, hinit, hI⟩ := hZ.init
  unfold inflateRaw
  rw [hinit]
  simp only
  rw [toU32, Nat.mod_eq_of_lt hsize, List.take_length, inflateLoop_delivers hZ (hI z c h) hfuel,
    List.nil_append]

namespace ZipInputStream

variable {s s' : ZipInputStream Z} {rest : Bytes}

/-! ## The compressed data that has not been fed -/

/-- The position lies in the data of the entry. -/
structure InRange (s : ZipInputStream Z) : Prop where
  cursor_le : s.entryDataStart + s.entryDataOffset ≤ s.entryDataEnd
  end_le : s.entryDataEnd ≤ s.data.length

/-- The data of the entry from the position on. -/
def unread (s : ZipInputStream Z) : Bytes :=
  (s.data.drop (s.entryDataStart + s.entryDataOffset)).take s.remaining

/-- The fields that stay while an entry is read. -/
structure Same (s s' : ZipInputStream Z) : Prop where
  data : s'.data = s.data
  entryDataStart : s'.entryDataStart = s.entryDataStart
  entryDataEnd : s'.entryDataEnd = s.entryDataEnd
  entryMethod : s'.entryMethod = s.entryMethod
  entryOpen : s'.entryOpen = s.entryOpen

theorem Same.refl (s : ZipInputStream Z) : Same s s := ⟨rfl, rfl, rfl, rfl, rfl⟩

theorem Same.trans {s'' : ZipInputStream Z} (h : Same s s') (h' : Same s' s'') : Same s s'' :=
  ⟨h'.data.trans h.data, h'.entryDataStart.trans h.entryDataStart,
    h'.entryDataEnd.trans h.entryDataEnd,
    h'.entryMethod.trans h.entryMethod, h'.entryOpen.trans h.entryOpen⟩

theorem length_unread (h : s.InRange) : s.unread.length = s.remaining := by
  have hcursor := h.cursor_le
  have hend := h.end_le
  unfold unread remaining
  rw [List.length_take, List.length_drop]
  omega

variable {n : Nat}

theorem readBytes_unread (h : s.InRange) (hn : n ≤ s.remaining) :
    readBytes s.data (s.entryDataStart + s.entryDataOffset) n = .ok (s.unread.take n) := by
  have hcursor := h.cursor_le
  have hend := h.end_le
  have hleft : s.remaining = s.entryDataEnd - (s.entryDataStart + s.entryDataOffset) := rfl
  unfold readBytes unread
  rw [if_pos (by omega), List.take_take, Nat.min_eq_left hn]

/-- Going on by some bytes. -/
def advanced (s : ZipInputStream Z) (n : Nat) : ZipInputStream Z :=
  { s with entryDataOffset := s.entryDataOffset + n }

theorem InRange.advanced (h : s.InRange) (hn : n ≤ s.remaining) : (s.advanced n).InRange := by
  have hcursor := h.cursor_le
  have hleft : s.remaining = s.entryDataEnd - (s.entryDataStart + s.entryDataOffset) := rfl
  refine ⟨?_, h.end_le⟩
  show s.entryDataStart + (s.entryDataOffset + n) ≤ s.entryDataEnd
  omega

theorem unread_advanced (s : ZipInputStream Z) (n : Nat) :
    (s.advanced n).unread = s.unread.drop n := by
  unfold unread remaining ZipInputStream.advanced
  dsimp only
  rw [List.drop_take, List.drop_drop, ← Nat.add_assoc, Nat.sub_sub _ _ n]

/-! ## The loop over `inflate` -/

/-- The decompressor has not reported the end, and has `rest` to give. -/
structure Deflating (I : Z.InflateStream → Bytes → Bytes → Prop) (s : ZipInputStream Z)
    (rest : Bytes) : Prop where
  inRange : s.InRange
  notDone : s.zstreamDone = false
  stream : ∃ stream, s.zstream = some stream ∧ I stream (s.fed ++ s.unread) rest

/-- All compressed data has been taken, but something is held back. -/
def Starved (I : Z.InflateStream → Bytes → Bytes → Prop) (s : ZipInputStream Z) : Prop :=
  s.fed = [] ∧ s.remaining = 0 ∧ ∃ stream rest, s.zstream = some stream ∧ I stream [] rest ∧
    rest ≠ []

/-- The states in which the loop of `read` looks for input, with the room that is left. -/
inductive Visits : Nat → ZipInputStream Z → Nat → ZipInputStream Z → Prop
  | here (room : Nat) (s : ZipInputStream Z) : Visits room s room s
  | next {room room' : Nat} {s t u s' : ZipInputStream Z} {step : ZStep Z.InflateStream}
      (hfeed : feed s = (.ok true, t)) (hcall : callInflate room t = (.ok step, u))
      (hok : step.status = .ok)
      (h : Visits (room - step.output.length) u room' s') : Visits room s room' s'

/-- Something is fed, or the data is used up. -/
theorem feed_spec (h : s.InRange) :
    (s.fed = [] ∧ s.remaining = 0 ∧ feed s = (.ok false, s)) ∨
      ∃ t, feed s = (.ok true, t) ∧ t.InRange ∧ t.fed ≠ [] ∧ t.fed ++ t.unread = s.fed ++ s.unread ∧
        t.zstream = s.zstream ∧ t.zstreamDone = s.zstreamDone ∧ Same s t := by
  unfold feed
  rw [getState_bind_apply]
  by_cases hfed : s.fed = []
  · by_cases hremaining : s.remaining = 0
    · refine .inl ⟨hfed, hremaining, ?_⟩
      rw [if_pos (by simp [hfed]), if_pos hremaining]
      rfl
    · have hle : min s.remaining 8192 ≤ s.remaining := Nat.min_le_left _ _
      have hlength : (s.unread.take (min s.remaining 8192)).length = min s.remaining 8192 := by
        rw [List.length_take, length_unread h, Nat.min_eq_left hle]
      refine .inr ⟨{ s.advanced (min s.remaining 8192) with
        fed := s.unread.take (min s.remaining 8192) }, ?_,
        ⟨(h.advanced hle).cursor_le, h.end_le⟩, ?_, ?_, rfl, rfl, rfl, rfl, rfl, rfl, rfl⟩
      · rw [if_pos (by simp [hfed]), if_neg hremaining, readBytes_unread h hle]
        show (Except.ok true, _) = _
        rw [hlength]
        rfl
      · refine List.ne_nil_of_length_pos ?_
        rw [hlength]
        omega
      · show s.unread.take _ ++ (s.advanced (min s.remaining 8192)).unread = _
        rw [unread_advanced, List.take_append_drop, hfed, List.nil_append]
  · refine .inr ⟨s, ?_, h, hfed, rfl, rfl, rfl, Same.refl s⟩
    rw [if_neg (by simpa using hfed)]
    rfl

/-- The stream after a call of `inflate`. -/
def called (s : ZipInputStream Z) (step : ZStep Z.InflateStream) : ZipInputStream Z :=
  { s with zstream := some step.stream, fed := s.fed.drop step.consumed }

theorem callInflate_eq {stream : Z.InflateStream} (h : s.zstream = some stream) (room : Nat) :
    callInflate room s = (.ok (Z.inflate stream s.fed room),
      s.called (Z.inflate stream s.fed room)) := by
  unfold callInflate
  rw [h]
  rfl

theorem same_called (s : ZipInputStream Z) (step : ZStep Z.InflateStream) :
    Same s (s.called step) :=
  ⟨rfl, rfl, rfl, rfl, rfl⟩

theorem length_input_called (s : ZipInputStream Z) {step : ZStep Z.InflateStream}
    (hconsumed : step.consumed ≤ s.fed.length) :
    ((s.called step).fed ++ (s.called step).unread).length + step.consumed =
    (s.fed ++ s.unread).length := by
  show (s.fed.drop _ ++ s.unread).length + _ = _
  rw [List.length_append, List.length_append, List.length_drop]
  omega

theorem deflating_called (hrange : s.InRange) (hdone : s.zstreamDone = false)
    {step : ZStep Z.InflateStream} (hconsumed : step.consumed ≤ s.fed.length)
    (hI : I step.stream ((s.fed ++ s.unread).drop step.consumed) rest) :
    Deflating I (s.called step) rest := by
  refine ⟨⟨hrange.cursor_le, hrange.end_le⟩, hdone, step.stream, rfl, ?_⟩
  rwa [List.drop_append_of_le_length hconsumed] at hI

/-- The decompressor has reported the end, and all data of the entry was fed. -/
structure Done (s : ZipInputStream Z) : Prop where
  done : s.zstreamDone = true
  remaining : s.remaining = 0
  stream : s.zstream.isSome = true

variable {fuel : Nat}

/-- **The loop gives the next bytes, up to the room there is**, when it does not stop while
something is held back. -/
theorem inflateLoop_spec (hZ : Z.Delivers Compressed I) {room : Nat} (h : Deflating I s rest)
    (hfuel : (s.fed ++ s.unread).length + rest.length < fuel)
    (hsteady : ∀ room' s', Visits room s room' s' → 0 < room' → ¬ Starved I s') (out : Bytes) :
    ∃ bytes rest' s', inflateLoop fuel room out s = (.ok (out ++ bytes), s') ∧
      rest = bytes ++ rest' ∧ bytes.length ≤ room ∧ (rest' = [] ∨ bytes.length = room) ∧ Same s s' ∧
      (Deflating I s' rest' ∧ (s'.fed ++ s'.unread).length ≤ (s.fed ++ s.unread).length ∨
        rest' = [] ∧ Done s') := by
  induction fuel generalizing room s rest out with
  | zero => omega
  | succ fuel ih =>
    unfold inflateLoop
    obtain ⟨stream, hstream, hI⟩ := h.stream
    by_cases hroom : room = 0
    · refine ⟨[], rest, s, ?_, rfl, Nat.zero_le _, .inr hroom.symm, Same.refl s, .inl ⟨h, le_rfl⟩⟩
      rw [if_pos hroom, List.append_nil]
      rfl
    · rw [if_neg hroom]
      rcases feed_spec h.inRange with ⟨hfed, hremaining, hfeed⟩ | ⟨t, hfeed, hrange, hfed, hinput,
        htstream, htdone, hsame⟩
      · -- Nothing is held back when the data is used up, so that everything has been given.
        have hunread : s.unread = [] :=
          List.eq_nil_of_length_eq_zero (by rw [length_unread h.inRange, hremaining])
        obtain rfl : rest = [] := by
          by_contra hrest
          rw [hfed, hunread] at hI
          exact hsteady room s (.here room s) (Nat.pos_of_ne_zero hroom)
            ⟨hfed, hremaining, stream, rest, hstream, hI, hrest⟩
        refine ⟨[], [], s, ?_, rfl, Nat.zero_le _, .inl rfl, Same.refl s, .inl ⟨h, le_rfl⟩⟩
        rw [bind_ok hfeed, List.append_nil]
        rfl
      · rw [bind_ok hfeed, if_pos rfl]
        have hcall := callInflate_eq (htstream.trans hstream) room
        rw [bind_ok hcall]
        rw [← hinput] at hI hfuel
        rcases hZ.step stream _ rest t.fed room hI (List.prefix_append _ _) (.inl hfed)
          (Nat.pos_of_ne_zero hroom) with ⟨hstatus, houtput, hfits, hall⟩ | ⟨hstatus, hconsumed,
            hfits, hprogress, rest', hrest, hI'⟩
        · have hunread : t.unread = [] := by simpa using hall.symm
          have hremaining : t.remaining = 0 := by
            rw [← length_unread hrange, hunread]
            rfl
          refine ⟨rest, [], { t.called (Z.inflate stream t.fed room) with zstreamDone := true }, ?_,
            (List.append_nil _).symm, hfits, .inl rfl, hsame.trans ⟨rfl, rfl, rfl, rfl, rfl⟩,
            .inr ⟨rfl, rfl, hremaining, rfl⟩⟩
          rw [if_pos hstatus, houtput]
          rfl
        · have hne : (Z.inflate stream t.fed room).status ≠ .streamEnd := by
            rw [hstatus]
            decide
          rw [if_neg hne, failIf_neg (not_not.mpr hstatus), pure_bind_apply]
          have hnext := deflating_called hrange (htdone.trans h.notDone) hconsumed hI'
          have hlength := congrArg List.length hrest
          rw [List.length_append] at hlength
          have hinput' := length_input_called t hconsumed
          obtain ⟨bytes, rest'', s', hloop, hbytes, hle, hend, hsame', hleft⟩ := ih hnext (by omega)
            (fun room' s' hvisits => hsteady room' s' (.next hfeed hcall hstatus hvisits))
            (out ++ (Z.inflate stream t.fed room).output)
          refine ⟨(Z.inflate stream t.fed room).output ++ bytes, rest'', s', ?_, ?_, ?_, ?_, ?_, ?_⟩
          · rw [hloop, List.append_assoc]
          · rw [hrest, hbytes, List.append_assoc]
          · rw [List.length_append]
            omega
          · rw [List.length_append]
            rcases hend with hnil | hfull
            · exact .inl hnil
            · exact .inr (by omega)
          · exact (hsame.trans (same_called t _)).trans hsame'
          · refine hleft.imp_left fun ⟨hdeflating, hshorter⟩ => ⟨hdeflating, ?_⟩
            rw [← hinput]
            omega

/-! ## A call of `read` -/

/-- `rest` is the content of the open entry that has not been returned yet. -/
def Left (I : Z.InflateStream → Bytes → Bytes → Prop) (s : ZipInputStream Z) (rest : Bytes) :
    Prop :=
  s.entryOpen = true ∧
    (s.entryMethod = 0 ∧ s.InRange ∧ s.unread = rest ∨
      s.entryMethod = 8 ∧ (Deflating I s rest ∨ rest = [] ∧ Done s))

/-- A call of `read` with `left` bytes of the content to come: its count fits an `int`, the size of
the buffer is not cut to zero by the cast to `uInt`, and the loop does not stop while something is
held back. -/
def ReadFits (I : Z.InflateStream → Bytes → Bytes → Prop) (size left : Nat) (s : ZipInputStream Z) :
    Prop :=
  (s.entryMethod = 0 → min size left < 2 ^ 31) ∧
    (s.entryMethod = 8 → s.zstreamDone = false →
      (left ≠ 0 → toU32 size ≠ 0) ∧ min (toU32 size) left < 2 ^ 31 ∧
        ∀ room s', Visits (toU32 size) s room s' → 0 < room → ¬ Starved I s')

theorem toInt_of_lt (h : n < 2 ^ 31) : toInt n = n := by
  unfold toInt
  rw [Nat.mod_eq_of_lt (by omega), if_pos h]

variable {size : Nat}

/-- The count of a call whose buffer was cut. -/
theorem toInt_written {written : Nat} (hle : written ≤ toU32 size) (h : written < 2 ^ 31) :
    toInt (size - (toU32 size - written)) = written := by
  have hmod : (size - (toU32 size - written)) % 2 ^ 32 = written := by
    unfold toU32 at hle ⊢
    omega
  unfold toInt
  rw [hmod, if_pos h]

/-- A call on a stored entry. -/
theorem read_stored (hopen : s.entryOpen = true) (hmethod : s.entryMethod = 0)
    (hrange : s.InRange) (hsize : 0 < size) (hcount : min size s.remaining < 2 ^ 31) :
    read fuel size s = (.ok (s.unread.take (min size s.remaining),
        ((s.unread.take (min size s.remaining)).length : Int)),
    s.advanced (min size s.remaining)) := by
  have hle : min size s.remaining ≤ s.remaining := Nat.min_le_right _ _
  have htake : (s.unread.take (min size s.remaining)).length = min size s.remaining := by
    rw [List.length_take, length_unread hrange, Nat.min_eq_left hle]
  unfold read
  rw [getState_bind_apply, if_neg (by simp [hopen]; omega), if_pos hmethod]
  by_cases hnone : min size s.remaining = 0
  · rw [if_pos hnone, hnone]
    rfl
  · rw [if_neg hnone, readBytes_unread hrange hle]
    show (Except.ok (_, toInt _), _) = _
    rw [htake, toInt_of_lt hcount]
    rfl

/-- A call for all that is left of a stored entry. -/
theorem read_remaining (hopen : s.entryOpen = true) (hmethod : s.entryMethod = 0)
    (hrange : s.InRange) (hcount : s.remaining < 2 ^ 31) :
    read fuel s.remaining s = (.ok (s.unread, (s.unread.length : Int)),
      s.advanced s.remaining) := by
  have hlength := length_unread hrange
  by_cases hnone : s.remaining = 0
  · have hunread : s.unread = [] := List.eq_nil_of_length_eq_zero (hlength.trans hnone)
    unfold read
    rw [getState_bind_apply, if_pos (.inr hnone), hnone, hunread]
    rfl
  · have hread := @read_stored Z s fuel s.remaining hopen hmethod hrange (Nat.pos_of_ne_zero hnone)
      (by rwa [Nat.min_self])
    rwa [Nat.min_self, List.take_of_length_le hlength.le] at hread

/-- A call on a deflated entry whose end has not been reported. -/
theorem read_deflating (hZ : Z.Delivers Compressed I) (hopen : s.entryOpen = true)
    (hmethod : s.entryMethod = 8) (h : Deflating I s rest) (hsize : 0 < size)
    (hfits : ReadFits I size rest.length s)
    (hfuel : (s.fed ++ s.unread).length + rest.length < fuel) :
    ∃ bytes rest' s', read fuel size s = (.ok (bytes, (bytes.length : Int)), s') ∧
      rest = bytes ++ rest' ∧ (bytes = [] → rest = []) ∧ Same s s' ∧
      (Deflating I s' rest' ∧ (s'.fed ++ s'.unread).length ≤ (s.fed ++ s.unread).length ∨
        rest' = [] ∧ Done s') := by
  obtain ⟨hroom, hcount, hsteady⟩ := hfits.2 hmethod h.notDone
  obtain ⟨bytes, rest', s', hloop, hrest, hle, hend, hsame, hleft⟩ :=
    inflateLoop_spec hZ h hfuel hsteady []
  rw [List.nil_append] at hloop
  have hlength : rest.length = bytes.length + rest'.length := by rw [hrest, List.length_append]
  refine ⟨bytes, rest', s', ?_, hrest, fun hnil => ?_, hsame, hleft⟩
  · unfold read
    rw [getState_bind_apply, if_neg (by simp [hopen]; omega), if_neg (by omega), if_pos hmethod,
      if_neg (by simp [h.notDone]), bind_ok hloop]
    show (Except.ok (bytes, toInt _), s') = _
    rw [toInt_written hle (by omega)]
  · rw [hnil, List.nil_append] at hrest
    rcases hend with hnil' | hfull
    · rw [hrest, hnil']
    · -- A full buffer of no bytes is one whose size was cut to zero.
      by_contra hcontent
      refine hroom (fun h0 => hcontent (List.eq_nil_of_length_eq_zero h0)) ?_
      rw [← hfull, hnil]
      rfl

/-- A call on a deflated entry whose end has been reported. -/
theorem read_done (hmethod : s.entryMethod = 8) (h : Done s) :
    read fuel size s = (.ok ([], 0), s) := by
  unfold read
  rw [getState_bind_apply]
  by_cases hclosed : s.entryOpen = false ∨ size = 0
  · rw [if_pos hclosed]
    rfl
  · rw [if_neg hclosed, if_neg (by omega), if_pos hmethod, if_pos h.done]
    rfl

/-- **A call returns the next bytes, and none only when there are none.** -/
theorem read_spec (hZ : Z.Delivers Compressed I) (h : Left I s rest) (hsize : 0 < size)
    (hfits : ReadFits I size rest.length s)
    (hfuel : s.entryMethod = 8 → s.zstreamDone = false → (s.fed ++ s.unread).length + rest.length <
      fuel) :
    ∃ bytes rest' s', read fuel size s = (.ok (bytes, (bytes.length : Int)), s') ∧
      rest = bytes ++ rest' ∧ (bytes = [] → rest = []) ∧ Same s s' ∧ Left I s' rest' ∧
      (s.entryMethod = 8 → s'.zstreamDone = false →
        s.zstreamDone = false ∧ (s'.fed ++ s'.unread).length ≤ (s.fed ++ s.unread).length) := by
  obtain ⟨hopen, ⟨hmethod, hrange, rfl⟩ | ⟨hmethod, hdeflating | ⟨rfl, hdone⟩⟩⟩ := h
  · have hle : min size s.remaining ≤ s.remaining := Nat.min_le_right _ _
    have hcount := hfits.1 hmethod
    rw [length_unread hrange] at hcount
    refine ⟨_, s.unread.drop (min size s.remaining), _,
      read_stored hopen hmethod hrange hsize hcount,
      (List.take_append_drop _ _).symm, fun hnil => ?_, ⟨rfl, rfl, rfl, rfl, rfl⟩,
      ⟨hopen, .inl ⟨hmethod, hrange.advanced hle, unread_advanced _ _⟩⟩, fun h8 => ?_⟩
    · have hlength := congrArg List.length hnil
      rw [List.length_take, length_unread hrange, List.length_nil] at hlength
      exact List.eq_nil_of_length_eq_zero (by rw [length_unread hrange]; omega)
    · exact absurd (hmethod.symm.trans h8) (by decide)
  · obtain ⟨bytes, rest', s', hread, hrest, hnone, hsame, hleft⟩ :=
      read_deflating hZ hopen hmethod hdeflating hsize hfits (hfuel hmethod hdeflating.notDone)
    refine ⟨bytes, rest', s', hread, hrest, hnone, hsame,
      ⟨hsame.entryOpen.trans hopen,
        .inr ⟨hsame.entryMethod.trans hmethod, hleft.imp_left And.left⟩⟩,
      fun _ hnotDone => ⟨hdeflating.notDone, ?_⟩⟩
    rcases hleft with ⟨-, hshorter⟩ | ⟨-, hdone⟩
    · exact hshorter
    · exact absurd (hdone.done.symm.trans hnotDone) (by decide)
  · refine ⟨[], [], s, read_done hmethod hdone, rfl, fun _ => rfl, Same.refl s,
      ⟨hopen, .inr ⟨hmethod, .inr ⟨rfl, hdone⟩⟩⟩, fun _ hnotDone => ⟨hnotDone, le_rfl⟩⟩

/-! ## The entry that was opened -/

/-- What `get_next_entry` leaves of an entry that it returns. -/
structure Opened (s : ZipInputStream Z) : Prop where
  opened : s.entryOpen = true
  offset : s.entryDataOffset = 0
  inRange : s.InRange
  size_lt : s.entryDataEnd - s.entryDataStart < 2 ^ 32
  notDone : s.zstreamDone = false
  stream : s.entryMethod = 8 → ∃ stream, Z.inflateInit2 = some stream ∧ s.zstream = some stream ∧
    s.fed = []

variable {data : Bytes}

theorem readU32_lt {p v : Nat} (h : readU32 data p = .ok v) : v < 2 ^ 32 := by
  unfold readU32 readNumber at h
  cases hread : readLe 4 data p with
  | none =>
    rw [hread] at h
    cases h
  | some w =>
    rw [hread] at h
    cases h
    exact readLe_lt hread

theorem readLocalHeader_size {pos : Nat} {header : LocalHeader}
    (h : readLocalHeader data pos = .ok (some header)) : header.compressedSize < 2 ^ 32 := by
  unfold readLocalHeader at h
  split_ifs at h
  · cases h
  · obtain ⟨signature, -, h⟩ := except_bind_eq_ok.mp h
    by_cases hsignature : signature ≠ locSig
    · rw [if_pos hsignature] at h
      cases h
    · rw [if_neg hsignature] at h
      simp only [except_bind_eq_ok] at h
      obtain ⟨_, -, _, -, _, -, compressedSize, hsize, _, -, _, -, _, -, h⟩ := h
      split_ifs at h
      · cases h
      · obtain ⟨_, -, h⟩ := except_bind_eq_ok.mp h
        cases h
        exact readU32_lt hsize

theorem scanCompressedSize_lt {pos : Nat} (h : scanCompressedSize data pos = .ok size) :
    size < 2 ^ 32 := by
  unfold scanCompressedSize at h
  simp only [except_bind_eq_ok] at h
  obtain ⟨_, -, _, -, h⟩ := h
  cases h
  exact Nat.mod_lt _ (by decide)

/-- The entry of a header is open at the start of its data. -/
theorem opened_of_openEntry {header : LocalHeader} {s₀ : ZipInputStream Z} {e : ZipEntry}
    (hheader : header.compressedSize < 2 ^ 32)
    (h : openEntry header s₀ = (.ok e, s)) : s.Opened := by
  unfold openEntry at h
  rw [modify_bind_apply, getState_bind_apply] at h
  obtain ⟨compressedSize, _, hsize, h⟩ := bind_eq_ok.mp h
  obtain ⟨hscan, rfl⟩ := lift_eq_ok.mp hsize
  rw [modify_bind_apply] at h
  obtain ⟨_, _, hfits, h⟩ := bind_eq_ok.mp h
  obtain ⟨hbound, rfl⟩ := failIf_eq_ok.mp hfits
  rw [modify_bind_apply] at h
  dsimp only at h hscan hbound
  have hlt : compressedSize < 2 ^ 32 := by
    split_ifs at hscan with hflag
    · exact scanCompressedSize_lt hscan
    · cases hscan
      exact hheader
  by_cases hmethod : header.method = 8
  · rw [if_pos hmethod] at h
    obtain ⟨_, _, hinit, h⟩ := bind_eq_ok.mp h
    cases h
    unfold initInflate at hinit
    cases hstream : Z.inflateInit2 with
    | none =>
      rw [hstream] at hinit
      cases hinit
    | some stream =>
      rw [hstream] at hinit
      cases hinit
      exact ⟨rfl, rfl, ⟨Nat.le_add_right _ _, Nat.le_of_not_lt hbound⟩, by simpa using hlt, rfl,
        fun _ => ⟨stream, hstream, rfl, rfl⟩⟩
  · rw [if_neg hmethod] at h
    cases h
    exact ⟨rfl, rfl, ⟨Nat.le_add_right _ _, Nat.le_of_not_lt hbound⟩, by simpa using hlt, rfl,
      fun h8 => absurd h8 hmethod⟩

/-- **An entry that is returned is open at the start of its data.** -/
theorem opened_of_getNextEntry {s₀ : ZipInputStream Z} {e : ZipEntry}
    (h : getNextEntry s₀ = (.ok (some e), s)) : s.Opened := by
  unfold getNextEntry at h
  obtain ⟨_, s₁, -, h⟩ := bind_eq_ok.mp h
  rw [getState_bind_apply] at h
  obtain ⟨header, _, hheader, h⟩ := bind_eq_ok.mp h
  obtain ⟨hlocal, rfl⟩ := lift_eq_ok.mp hheader
  cases header with
  | none => cases h
  | some header =>
    obtain ⟨entry, t, hopen, h⟩ := bind_eq_ok.mp h
    cases h
    exact opened_of_openEntry (readLocalHeader_size hlocal) hopen

/-- The data of the open entry is that of the content, from its start to its end. -/
def Delimits (Compressed : Bytes → Bytes → Prop) (s : ZipInputStream Z) (c : Bytes) : Prop :=
  s.entryMethod = 0 ∧ s.unread = c ∨ s.entryMethod = 8 ∧ Compressed s.unread c

theorem left_of_opened (hZ : Z.Delivers Compressed I) {c : Bytes} (h : s.Opened)
    (hdata : s.Delimits Compressed c) :
    Left I s c := by
  refine ⟨h.opened, ?_⟩
  rcases hdata with ⟨hmethod, hunread⟩ | ⟨hmethod, hcompressed⟩
  · exact .inl ⟨hmethod, h.inRange, hunread⟩
  · obtain ⟨stream, hinit, hstream, hfed⟩ := h.stream hmethod
    obtain ⟨stream', hinit', hI⟩ := hZ.init
    obtain rfl := Option.some.inj (hinit.symm.trans hinit')
    refine .inr ⟨hmethod, .inl ⟨h.inRange, h.notDone, stream, hstream, ?_⟩⟩
    rw [hfed, List.nil_append]
    exact hI _ _ hcompressed

/-! ## Runs -/

/-- An open entry, and what the calls of `read` have returned of it. -/
structure Piecewise (Z : Zlib) where
  stream : ZipInputStream Z
  returned : Bytes

namespace Piecewise

/-- A call of `read` with a buffer of some size. -/
def step (fuel : Nat) (r : Piecewise Z) (size : Nat) : Option (Piecewise Z) :=
  match read fuel size r.stream with
  | (.ok (bytes, count), s) => some ⟨s, r.returned ++ bytes.take count.toNat⟩
  | (.error _, _) => none

/-- What the call asks, when the content is `c`. -/
def Fits (I : Z.InflateStream → Bytes → Bytes → Prop) (c : Bytes) (r : Piecewise Z) (size : Nat) :
    Prop :=
  0 < size ∧ ReadFits I size (c.length - r.returned.length) r.stream

/-- What `read_all` asks: the count of a stored entry fits an `int`, and a deflated entry is at its
start or has been read up to the end that the decompressor reports. -/
def FitsAll (c : Bytes) (r : Piecewise Z) : Prop :=
  (r.stream.entryMethod = 0 → c.length - r.returned.length < 2 ^ 31) ∧
    (r.stream.entryMethod = 8 → r.returned = [] ∨ r.stream.zstreamDone = true)

/-- What holds between the calls: the content is what was returned and what is left. -/
structure Tiles (I : Z.InflateStream → Bytes → Bytes → Prop) (fuel : Nat) (s : ZipInputStream Z)
    (c : Bytes) (r : Piecewise Z) : Prop where
  same : Same s r.stream
  left : ∃ rest, r.returned ++ rest = c ∧ Left I r.stream rest
  fuel : s.entryMethod = 8 → r.stream.zstreamDone = false →
    (r.stream.fed ++ r.stream.unread).length + c.length < fuel

variable {c : Bytes} {r : Piecewise Z}

/-- **A call returns the next bytes of the content, and none only when all were returned.** -/
theorem Tiles.read (hZ : Z.Delivers Compressed I) {fuel size : Nat}
    (h : Tiles I fuel s c r) (hfits : Fits I c r size) :
    ∃ bytes s', ZipInputStream.read fuel size r.stream = (.ok (bytes, (bytes.length : Int)), s') ∧
      (bytes = [] → r.returned = c) ∧ Tiles I fuel s c ⟨s', r.returned ++ bytes⟩ := by
  obtain ⟨rest, hcontent, hleft⟩ := h.left
  have hlength := congrArg List.length hcontent
  rw [List.length_append] at hlength
  have hrest : c.length - r.returned.length = rest.length := by omega
  obtain ⟨hsize, hreadFits⟩ := hfits
  rw [hrest] at hreadFits
  have hfuel : r.stream.entryMethod = 8 → r.stream.zstreamDone = false →
      (r.stream.fed ++ r.stream.unread).length + rest.length < fuel := fun hmethod hnotDone => by
    have hfuel := h.fuel (h.same.entryMethod.symm.trans hmethod) hnotDone
    omega
  obtain ⟨bytes, rest', s', hread, hsplit, hnone, hsame, hleft', hshorter⟩ :=
    read_spec hZ hleft hsize hreadFits hfuel
  refine ⟨bytes, s', hread, fun hnil => ?_, h.same.trans hsame, ⟨rest', ?_, hleft'⟩,
    fun hmethod hnotDone => ?_⟩
  · rw [← hcontent, hnone hnil, List.append_nil]
  · rw [List.append_assoc, ← hsplit, hcontent]
  · obtain ⟨hnotDone', hle⟩ := hshorter (h.same.entryMethod.trans hmethod) hnotDone
    have hfuel := h.fuel hmethod hnotDone'
    show (s'.fed ++ s'.unread).length + c.length < fuel
    omega

theorem tiles_of_opened (hZ : Z.Delivers Compressed I) {fuel : Nat} (h : s.Opened)
    (hdata : s.Delimits Compressed c) (hfuel : s.unread.length + c.length < fuel) :
    Tiles I fuel s c ⟨s, []⟩ := by
  refine ⟨Same.refl s, ⟨c, rfl, left_of_opened hZ h hdata⟩, fun hmethod _ => ?_⟩
  obtain ⟨stream, -, -, hfed⟩ := h.stream hmethod
  rwa [hfed, List.nil_append]

/-- **`read_all` returns what is left.** -/
theorem Tiles.readAll (hZ : Z.Delivers Compressed I) {fuel : Nat} (hs : s.Opened)
    (hdata : s.Delimits Compressed c) (hfuel : s.unread.length + c.length < fuel)
    (h : Tiles I fuel s c r) (hfits : FitsAll c r) :
    ∃ rest s', ZipInputStream.readAll fuel r.stream = (.ok rest, s') ∧ r.returned ++ rest = c := by
  obtain ⟨rest, hcontent, hopen, ⟨hmethod, hrange, hunread⟩ | ⟨hmethod, hleft⟩⟩ := h.left
  · have hlength := congrArg List.length hcontent
    rw [List.length_append] at hlength
    have hremaining : r.stream.remaining = rest.length := by rw [← hunread, length_unread hrange]
    have hcount := hfits.1 hmethod
    have hread := @read_remaining Z r.stream fuel hopen hmethod hrange (by omega)
    refine ⟨rest, r.stream.advanced r.stream.remaining, ?_, hcontent⟩
    unfold ZipInputStream.readAll
    rw [getState_bind_apply, if_neg (by simp [hopen]), if_pos hmethod, bind_ok hread]
    simp only
    rw [failIf_neg (by omega), pure_bind_apply, Int.toNat_natCast, List.take_length, hunread]
    rfl
  · unfold ZipInputStream.readAll
    rw [getState_bind_apply, if_neg (by simp [hopen]), if_neg (by omega), if_pos hmethod]
    rcases hleft with hdeflating | ⟨rfl, hdone⟩
    · -- Nothing was returned, so that the start of the data is where the content goes on.
      have hstart : r.returned = [] := by
        rcases hfits.2 hmethod with hnil | hdone
        · exact hnil
        · exact absurd (hdone.symm.trans hdeflating.notDone) (by decide)
      have hcompressed : Compressed s.unread c := by
        rcases hdata with ⟨h0, -⟩ | ⟨-, hcompressed⟩
        · exact absurd (h0.symm.trans (h.same.entryMethod.symm.trans hmethod)) (by decide)
        · exact hcompressed
      have hall : readBytes r.stream.data r.stream.entryDataStart
          (r.stream.entryDataEnd - r.stream.entryDataStart) = .ok s.unread := by
        have hunread := readBytes_unread hs.inRange (le_rfl)
        rw [List.take_of_length_le (length_unread hs.inRange).le, remaining, hs.offset,
          Nat.add_zero] at hunread
        rw [h.same.data, h.same.entryDataStart, h.same.entryDataEnd, hunread]
      have hsize : s.unread.length < 2 ^ 32 := by
        have hlt := hs.size_lt
        rw [length_unread hs.inRange, remaining, hs.offset]
        omega
      refine ⟨c, r.stream, ?_, by rw [hstart, List.nil_append]⟩
      rw [if_neg (by simp [hdeflating.notDone]), hall]
      show (inflateRaw Z fuel s.unread, r.stream) = _
      rw [inflateRaw_delivers hZ hcompressed hsize hfuel]
    · refine ⟨[], { r.stream with zstream := none }, ?_, hcontent⟩
      rw [if_pos (by simp [hdone.stream, hdone.done, hdone.remaining])]
      rfl

/-- **The calls of `read`, and `read_all` behind them, tile the content**, in every run whose calls
all fit: what was returned is the start of the content, a call returns nothing only at its end, and
`read_all` returns the rest. -/
theorem reads_tile (hZ : Z.Delivers Compressed I) {s₀ : ZipInputStream Z} {e : ZipEntry} {c : Bytes}
    {fuel : Nat} (hnext : getNextEntry s₀ = (.ok (some e), s)) (hdata : s.Delimits Compressed c)
    (hfuel : s.unread.length + c.length < fuel) {r : Piecewise Z}
    (h : Reach (step fuel) (Fits I c) ⟨s, []⟩ r) :
    r.returned <+: c ∧
      (∀ size, Fits I c r size → ∃ bytes s',
        ZipInputStream.read fuel size r.stream = (.ok (bytes, (bytes.length : Int)), s') ∧
          r.returned ++ bytes <+: c ∧ (bytes.length = 0 → r.returned = c)) ∧
      (FitsAll c r → ∃ rest s', ZipInputStream.readAll fuel r.stream = (.ok rest, s') ∧
      r.returned ++ rest = c) := by
  have hs := opened_of_getNextEntry hnext
  have htiles : Tiles I fuel s c r := by
    refine h.invariant _ (tiles_of_opened hZ hs hdata hfuel) fun r size r' hr hfits hstep => ?_
    obtain ⟨bytes, s', hread, -, hr'⟩ := hr.read hZ hfits
    unfold step at hstep
    rw [hread] at hstep
    cases hstep
    simpa using hr'
  refine ⟨?_, fun size hfits => ?_, fun hfits => htiles.readAll hZ hs hdata hfuel hfits⟩
  · obtain ⟨rest, hcontent, -⟩ := htiles.left
    exact ⟨rest, hcontent⟩
  · obtain ⟨bytes, s', hread, hnone, hr'⟩ := htiles.read hZ hfits
    obtain ⟨rest, hcontent, -⟩ := hr'.left
    exact ⟨bytes, s', hread, ⟨rest, hcontent⟩, fun h0 => hnone (List.eq_nil_of_length_eq_zero h0)⟩

/-! ## A short entry -/

/-- A library that inflates one stream; it takes what it is given, and gives when it has taken all.
-/
def inflating (z c : Bytes) : Zlib where
  DeflateStream := Unit
  deflateInit2 _ := none
  deflate _ _ _ _ := ⟨.streamError, (), 0, []⟩
  InflateStream := Bytes × Bytes
  inflateInit2 := some (z, c)
  inflate s fed room :=
    if s.1.drop fed.length = [] then
      { status := if s.2.length ≤ room then .streamEnd else .ok
        stream := ([], s.2.drop room)
        consumed := s.1.length
        output := s.2.take room }
    else
      { status := .ok
        stream := (s.1.drop fed.length, s.2)
        consumed := fed.length
        output := [] }
  crcInit := 0
  crc32 crc _ := crc

theorem inflating_delivers (z c : Bytes) :
    (inflating z c).Delivers (fun z' c' => z' = z ∧ c' = c)
      (fun s z' rest => s = ((z', rest) : Bytes × Bytes)) := by
  refine ⟨⟨_, rfl, ?_⟩, ?_⟩
  · rintro z' c' ⟨rfl, rfl⟩
    rfl
  · rintro _ z' rest fed room rfl hprefix hsome hroom
    have hle := hprefix.length_le
    by_cases hall : z'.drop fed.length = []
    · have hfed : fed = z' := hprefix.eq_of_length_le (List.drop_eq_nil_iff.mp hall)
      have hinflate : (inflating z c).inflate (z', rest) fed room =
          { status := if rest.length ≤ room then .streamEnd else .ok
            stream := (([], rest.drop room) : Bytes × Bytes)
            consumed := z'.length
            output := rest.take room } := if_pos hall
      rw [hinflate]
      by_cases hfits : rest.length ≤ room
      · exact .inl ⟨if_pos hfits, List.take_of_length_le hfits, hfits, hfed⟩
      · refine .inr ⟨if_neg hfits, hfed ▸ le_rfl, List.length_take_le _ _, ?_, rest.drop room,
          (List.take_append_drop _ _).symm, by rw [List.drop_length]⟩
        rw [List.length_take]
        omega
    · have hinflate : (inflating z c).inflate (z', rest) fed room =
          { status := .ok
            stream := (z'.drop fed.length, rest)
            consumed := fed.length
            output := [] } := if_neg hall
      rw [hinflate]
      refine .inr ⟨rfl, le_rfl, Nat.zero_le _, ?_, rest, rfl, rfl⟩
      rcases hsome with hne | rfl
      · exact Nat.lt_of_lt_of_le (List.length_pos_iff.mpr hne) (Nat.le_add_right _ _)
      · exact absurd (List.drop_length) hall

/-- The compressed form of 21 letters. -/
def letters : Bytes := [0x4b, 0x4c, 0xc4, 0x02, 0x00]

/-- The local part of an entry of 21 letters. -/
def lettersArchive : Bytes :=
  [0x50, 0x4b, 0x03, 0x04, 20, 0, 0, 0, 8, 0, 0, 0, 0x21, 0x5a, 0x7f, 0x3e, 0x4d, 0x94, 5, 0, 0, 0,
    21, 0, 0, 0, 1, 0, 0, 0, 97] ++ letters

/-- A library that knows the entry. -/
abbrev lettersZlib : Zlib := inflating letters (List.replicate 21 97)

/-- The stream at the entry. -/
def atLetters : ZipInputStream lettersZlib := (getNextEntry { data := lettersArchive }).2

theorem getNextEntry_letters :
    ∃ e, getNextEntry { data := lettersArchive } = (.ok (some e), atLetters) ∧ e.name = [97] := by
  have hname : (getNextEntry (Z := lettersZlib) { data := lettersArchive }).1.map
    (Option.map ZipEntry.name) = .ok (some [97]) := by
    decide
  unfold atLetters
  cases hnext : getNextEntry (Z := lettersZlib) { data := lettersArchive } with
  | mk res s =>
    rw [hnext] at hname
    cases res with
    | error _ => cases hname
    | ok e =>
      cases e with
      | none => cases hname
      | some e => exact ⟨e, rfl, Option.some.inj (Except.ok.inj hname)⟩

theorem delimits_letters :
    atLetters.Delimits (fun z c => z = letters ∧ c = List.replicate 21 97)
      (List.replicate 21 97) := by
  refine .inr ⟨by decide, by decide, rfl⟩

/-- A buffer for the whole entry fits. -/
theorem fits_letters : Fits (fun s z rest => s = ((z, rest) : Bytes × Bytes)) (List.replicate 21 97)
    (⟨atLetters, []⟩ : Piecewise lettersZlib) 30 := by
  have hmethod : atLetters.entryMethod = 8 := by decide
  refine ⟨by decide, fun h0 => absurd (h0.symm.trans hmethod) (by decide), fun _ _ =>
    ⟨fun _ => by decide, by decide, fun room s' hvisits _ hstarved => ?_⟩⟩
  cases hvisits with
  | here => exact absurd hstarved.2.1 (by decide)
  | next hfeed hcall hok _ =>
    -- The first call of inflate reports the end.
    have hstatus : (callInflate 30 (feed atLetters).2).1.map ZStep.status = .ok .streamEnd := by
      decide
    rw [hfeed] at hstatus
    have hroom : toU32 30 = 30 := rfl
    rw [hroom] at hcall
    rw [hcall] at hstatus
    have hend := Except.ok.inj hstatus
    rw [hok] at hend
    cases hend

theorem step_of_read {fuel size : Nat} {bytes : Bytes} {count : Int}
    (h : (ZipInputStream.read fuel size r.stream).1 = .ok (bytes, count)) :
    step fuel r size =
      some ⟨(ZipInputStream.read fuel size r.stream).2, r.returned ++ bytes.take count.toNat⟩ := by
  unfold step
  cases hread : ZipInputStream.read fuel size r.stream with
  | mk res s =>
    rw [hread] at h
    obtain rfl : res = .ok (bytes, count) := h
    rfl

/-- The whole entry in one buffer. -/
theorem reads_tile_letters :
    List.replicate 21 97 <+: List.replicate 21 (97 : UInt8) ∧
      (∀ size, Fits (fun s z rest => s = ((z, rest) : Bytes × Bytes)) (List.replicate 21 97)
          (⟨(ZipInputStream.read 100 30 atLetters).2, List.replicate 21 97⟩ : Piecewise lettersZlib)
            size →
        ∃ bytes s', ZipInputStream.read 100 size (ZipInputStream.read 100 30 atLetters).2 =
            (.ok (bytes, (bytes.length : Int)), s') ∧
          List.replicate 21 97 ++ bytes <+: List.replicate 21 97 ∧
          (bytes.length = 0 → List.replicate 21 (97 : UInt8) = List.replicate 21 97)) ∧
      (FitsAll (List.replicate 21 97)
          (⟨(ZipInputStream.read 100 30 atLetters).2, List.replicate 21 97⟩ : Piecewise
      lettersZlib) →
        ∃ rest s', ZipInputStream.readAll 100 (ZipInputStream.read 100 30 atLetters).2 =
          (.ok rest, s') ∧ List.replicate 21 97 ++ rest = List.replicate 21 97) := by
  obtain ⟨e, hnext, -⟩ := getNextEntry_letters
  have hread : (ZipInputStream.read 100 30 atLetters).1 = .ok (List.replicate 21 97, 21) := by
    decide
  have hrun := Reach.step 30 .init fits_letters (step_of_read hread)
  exact reads_tile (inflating_delivers _ _) hnext delimits_letters (by decide) hrun

/-- **A buffer that is full when the compressed data is used up**: the next call returns nothing,
and `read_all` starts again. -/
theorem not_reads_tile :
    lettersZlib.Delivers (fun z c => z = letters ∧ c = List.replicate 21 97)
        (fun s z rest => s = ((z, rest) : Bytes × Bytes)) ∧
      (∃ e, getNextEntry { data := lettersArchive } = (.ok (some e), atLetters) ∧ e.name = [97]) ∧
      atLetters.Delimits (fun z c => z = letters ∧ c = List.replicate 21 97)
        (List.replicate 21 97) ∧
      (ZipInputStream.read 100 2 atLetters).1 = .ok ([97, 97], 2) ∧
      (ZipInputStream.read 100 2 (ZipInputStream.read 100 2 atLetters).2).1 = .ok ([], 0) ∧
      (ZipInputStream.readAll 100 (ZipInputStream.read 100 2 atLetters).2).1 =
        .ok (List.replicate 21 97) :=
  ⟨inflating_delivers _ _, getNextEntry_letters, delimits_letters, by decide, by decide,
    by decide⟩

end Piecewise

end ZipInputStream

end Libca.Zip
