import Libca.Zip.RoundTrip

/-!
# The lifetime of a stream (`zip/output_stream.cpp`)

A stream is opened, written to, closed and destroyed by calls of which any may fail, and goes on in
the state in which a failed call left it. `Lifetime.Intact` says that an open deflated entry has its
compressor, and that the directory has one record for each entry that was completed.

* `lifetime_intact`: it holds in every run in which no call of the library fails while a deflated
  entry is closed, and no entry is closed when 65535 are complete (`Lifetime.Steady`).
* `not_lifetime_intact`: a failed call of `deflate` at the end of an entry leaves the entry open
  without a compressor, and the destructor then goes through a null pointer.
-/

namespace Libca.Zip

open Common Fallible

variable {Z : Zlib}

/-- A stream, the names of the entries that were completed since it was opened, and whether it was
destroyed or the program went through a null pointer. -/
structure Lifetime (Z : Zlib) where
  writer : ZipOutputStream Z := {}
  completed : List Bytes := []
  destroyed : Bool := false
  crashed : Bool := false

/-- The calls on a stream; the destructor calls `close` on a stream that is open. -/
inductive LifeCall
  | openFile (path : Bytes)
  | call (c : Call)
  | destroy

/-- A call, with fuel for its loops and what the C library does in it. -/
structure LifeAction where
  call : LifeCall
  fuel : Nat := 0
  outcomes : List Outcome := []

namespace LifeCall

def run (fuel : Nat) : LifeCall → Writing Z Unit
  | .openFile path => Zip.openFile path
  | .call c => c.run fuel
  | .destroy => Zip.close fuel

/-- The call begins by closing an entry. -/
def closesEntry (w : ZipOutputStream Z) : LifeCall → Bool
  | .openFile _ => false
  | .call (.putNextEntry _ _) => w.opened && w.entryOpen
  | .call (.write _) => false
  | .call .closeEntry => w.entryOpen
  | .call .close => w.opened && w.entryOpen
  | .destroy => w.opened && w.entryOpen

/-- The call writes the directory when it succeeds. -/
def finishes (w : ZipOutputStream Z) : LifeCall → Bool
  | .call .close => w.opened
  | .destroy => w.opened
  | _ => false

end LifeCall

/-- The entry that closing completes. -/
def completedBy (fuel : Nat) (w : ZipOutputStream Z) : List Bytes :=
  match closeEntry fuel w with
  | (.ok _, _) => [w.entryName]
  | (.error _, _) => []

namespace Lifetime

/-- The entries that are complete after the call. -/
def completedAfter (s : Lifetime Z) (a : LifeAction) : List Bytes :=
  if a.call.closesEntry s.writer then
    s.completed ++ completedBy a.fuel { s.writer with outcomes := a.outcomes }
  else s.completed

/-- A call that returns or crashes. -/
def step (s : Lifetime Z) (a : LifeAction) : Option (Lifetime Z) :=
  if s.destroyed || s.crashed then none
  else
    let destroyed := match a.call with
      | .destroy => true
      | _ => false
    match a.call.run a.fuel { s.writer with outcomes := a.outcomes } with
    | (.ok _, w) =>
      some
        { writer := w
          completed := if a.call.finishes s.writer then [] else s.completedAfter a
          destroyed := destroyed }
    | (.error .noReturn, _) => none
    | (.error .outOfRange, w) => some { s with writer := w, crashed := true }
    | (.error (.error _ _), w) =>
      some { writer := w, completed := s.completedAfter a, destroyed := destroyed }

end Lifetime

/-- Directory records with names. -/
inductive HoldsRecords : List Bytes → Bytes → Prop
  | nil : HoldsRecords [] []
  | snoc {names : List Bytes} {cenData : Bytes} (h : HoldsRecords names cenData) (name : Bytes)
      (flags method crc compressed uncompressed offset : Nat) :
      HoldsRecords (names ++ [name])
        (cenData ++ (cenHeader flags method crc compressed uncompressed name.length offset ++ name))

/-- An open deflated entry has its compressor. -/
def HasCompressor (w : ZipOutputStream Z) : Prop :=
  w.entryOpen = true → w.entryMethod = 8 → w.zstream.isSome = true

/-- The directory has exactly `total_entries` records, one for each entry of a list. -/
structure Holds (names : List Bytes) (w : ZipOutputStream Z) : Prop where
  records : HoldsRecords names w.cenData
  total : w.totalEntries = names.length

/-- The compressor is there, the directory is that of the completed entries, and no null pointer was
used. -/
structure Lifetime.Intact (s : Lifetime Z) : Prop where
  compressor : HasCompressor s.writer
  directory : Holds s.completed s.writer
  crashed : s.crashed = false

/-- The calls of the library that close a deflated entry: those of the loop over `deflate` and the
write of the data descriptor. -/
def closingCalls (Z : Zlib) : Nat → Z.DeflateStream → Nat
  | 0, _ => 0
  | fuel + 1, stream =>
    let step := Z.deflate stream .finish [] bufferSize
    (if step.output.isEmpty then 1 else 2) +
      if step.status = .streamEnd then 1 else closingCalls Z fuel step.stream

/-- The next `n` calls of the library succeed. -/
def Succeeding (n : Nat) (outcomes : List Outcome) : Prop := ∀ o ∈ outcomes.take n, o = .success

/-- No entry is closed when 65535 are complete, and when a deflated entry is closed, none of the
calls of the library that this takes fails. -/
def Lifetime.Steady (s : Lifetime Z) (a : LifeAction) : Prop :=
  a.call.closesEntry s.writer = true →
    s.writer.totalEntries ≠ 0xFFFF ∧
      (s.writer.entryMethod = 8 → ∀ stream, s.writer.zstream = some stream →
        Succeeding (closingCalls Z a.fuel stream) a.outcomes)

variable {w w' : ZipOutputStream Z} {names : List Bytes} {s s' : Lifetime Z}

/-! ## Calls of the library that succeed -/

variable {n : Nat} {outcomes : List Outcome}

theorem Succeeding.mono {m : Nat} (h : Succeeding n outcomes) (hle : m ≤ n) :
    Succeeding m outcomes :=
  fun o ho => h o ((List.take_prefix_take_left hle).subset ho)

/-- The next call succeeds. -/
theorem Succeeding.head (h : Succeeding (n + 1) outcomes)
    (written : Nat) (rest : List Outcome) : outcomes ≠ .failure written :: rest := by
  rintro rfl
  have hhead := h (.failure written) (by simp)
  cases hhead

theorem Succeeding.tail (h : Succeeding (n + 1) outcomes) : Succeeding n outcomes.tail := by
  cases outcomes with
  | nil =>
    intro o ho
    simp at ho
  | cons o outcomes => exact fun o' ho' => h o' (.tail _ ho')

theorem fwrite_succeeding (h : Succeeding (n + 1) w.outcomes) (bytes : Bytes) (message : String) :
    fwrite bytes message w =
      (.ok (), { w with file := w.file ++ bytes, outcomes := w.outcomes.tail }) := by
  unfold fwrite
  split
  · exact absurd ‹_› (h.head _ _)
  · rfl

variable {stream : Z.DeflateStream}

theorem callDeflate_succeeding
    (h : Succeeding (n + 1) w.outcomes) (hstream : w.zstream = some stream) (flush : Flush)
    (input : Bytes) :
    callDeflate flush input w =
      (.ok (Z.deflate stream flush input bufferSize),
        { w with
          zstream := some (Z.deflate stream flush input bufferSize).stream
          outcomes := w.outcomes.tail }) := by
  unfold callDeflate
  rw [hstream]
  dsimp only
  split
  · exact absurd ‹_› (h.head _ _)
  · rfl

/-- The output of a round is written, which takes a call unless there is none. -/
theorem writeDeflated_succeeding {output : Bytes} (message : String)
    (h : Succeeding ((if output.isEmpty then 0 else 1) + n) w.outcomes) :
    ∃ file size outcomes, writeDeflated output message w =
      (.ok (), { w with file := file, currentCompressedSize := size, outcomes := outcomes }) ∧
      Succeeding n outcomes := by
  unfold writeDeflated
  by_cases hempty : output.isEmpty = true
  · rw [if_pos hempty, Nat.zero_add] at h
    rw [if_pos hempty]
    exact ⟨w.file, w.currentCompressedSize, w.outcomes, rfl, h⟩
  · rw [if_neg hempty, Nat.add_comm] at h
    rw [if_neg hempty, bind_ok (fwrite_succeeding h _ _)]
    exact ⟨_, _, _, rfl, h.tail⟩

variable {fuel : Nat}

/-- **The loop that ends the compressed data** succeeds when its calls do. -/
theorem finishLoop_succeeding
    (hZ : ∀ stream, (Z.deflate stream .finish [] bufferSize).status ≠ .streamError)
    (hstream : w.zstream = some stream) (h : Succeeding (closingCalls Z fuel stream) w.outcomes) :
    (∃ file size zstream outcomes, finishLoop fuel w =
      (.ok (), { w with
        file := file, currentCompressedSize := size, zstream := zstream, outcomes := outcomes }) ∧
        Succeeding 1 outcomes) ∨
      ∃ w', finishLoop fuel w = (.error .noReturn, w') := by
  induction fuel generalizing w stream with
  | zero => exact .inr ⟨w, rfl⟩
  | succ fuel ih =>
    unfold closingCalls at h
    dsimp only at h
    have hfirst : Succeeding ((if (Z.deflate stream .finish [] bufferSize).output.isEmpty then
      0 else 1) +
        (if (Z.deflate stream .finish [] bufferSize).status = .streamEnd then 1
          else closingCalls Z fuel (Z.deflate stream .finish [] bufferSize).stream) +
            1) w.outcomes := by
      refine h.mono ?_
      split_ifs <;> omega
    obtain ⟨file, size, outcomes, hwrite, hrest⟩ :=
      writeDeflated_succeeding (w := { w with
        zstream := some (Z.deflate stream .finish [] bufferSize).stream
        outcomes := w.outcomes.tail }) "Failed to write final deflated data" hfirst.tail
    unfold finishLoop
    rw [bind_ok (callDeflate_succeeding hfirst hstream _ _), failIf_neg (hZ stream),
      pure_bind_apply, bind_ok hwrite]
    by_cases hend : (Z.deflate stream .finish [] bufferSize).status = .streamEnd
    · rw [if_pos hend] at hrest ⊢
      exact .inl ⟨file, size, _, outcomes, rfl, hrest⟩
    · rw [if_neg hend] at hrest ⊢
      obtain ⟨file', size', zstream, outcomes', hloop, hone⟩ | ⟨w', hloop⟩ :=
        ih (w := { w with
          file := file
          currentCompressedSize := size
          zstream := some (Z.deflate stream .finish [] bufferSize).stream
          outcomes := outcomes }) rfl hrest
      · exact .inl ⟨file', size', zstream, outcomes', hloop, hone⟩
      · exact .inr ⟨w', hloop⟩

theorem finishAndReleaseZstream_succeeding
    (hZ : ∀ stream, (Z.deflate stream .finish [] bufferSize).status ≠ .streamError)
    (hstream : w.zstream = some stream) (h : Succeeding (closingCalls Z fuel stream) w.outcomes) :
    (∃ file size outcomes, finishAndReleaseZstream fuel w =
      (.ok (), { w with
        file := file, currentCompressedSize := size, zstream := none, outcomes := outcomes }) ∧
        Succeeding 1 outcomes) ∨
      ∃ w', finishAndReleaseZstream fuel w = (.error .noReturn, w') := by
  unfold finishAndReleaseZstream
  obtain ⟨file, size, zstream, outcomes, hloop, hone⟩ | ⟨w', hloop⟩ :=
    finishLoop_succeeding hZ hstream h
  · exact .inl ⟨file, size, outcomes, bind_ok (onError_ok hloop), hone⟩
  · exact .inr ⟨_, bind_error (onError_error hloop)⟩

/-! ## Closing an entry -/

/-- The end of `close_entry`: the write of the descriptor fails, or the entry is complete. -/
theorem recordEntry_cases (hd : Holds names w) (hfull : w.totalEntries ≠ 0xFFFF) :
    (∃ w', recordEntry w = (.ok (), w') ∧ w'.entryOpen = false ∧ w'.opened = w.opened ∧
      w'.entryMethod = 0 ∧ Holds (names ++ [w.entryName]) w') ∨
    ¬ Succeeding 1 w.outcomes ∧ ∃ code message file crc outcomes, recordEntry w =
      (.error (.error code message),
        { w with currentCrc32 := crc, file := file, outcomes := outcomes }) := by
  unfold recordEntry
  rw [modify_bind_apply, getState_bind_apply]
  dsimp only
  cases hwrite : fwrite
    (dataDescriptor w.crc32.toNat w.currentCompressedSize w.currentUncompressedSize)
      "Failed to write data descriptor" { w with currentCrc32 := w.crc32 } with
  | mk res t =>
    cases res with
    | ok u =>
      rw [bind_ok hwrite]
      obtain ⟨outcomes, rfl⟩ := fwrite_ok hwrite
      rw [modify_bind_apply, failIf_neg hfull, pure_bind_apply]
      refine .inl ⟨_, rfl, rfl, rfl, rfl, hd.records.snoc _ _ _ _ _ _ _, ?_⟩
      change w.totalEntries + 1 = _
      rw [hd.total, List.length_append, List.length_singleton]
    | error e =>
      rw [bind_error hwrite]
      refine .inr ⟨fun hsucceeds => ?_, ?_⟩
      · rw [fwrite_succeeding (n := 0) (by exact hsucceeds)] at hwrite
        cases hwrite
      · unfold fwrite at hwrite
        split at hwrite
        · cases hwrite
          exact ⟨_, _, _, _, _, rfl⟩
        · cases hwrite

/-- What holds between calls that are made carefully. -/
structure Good (names : List Bytes) (w : ZipOutputStream Z) : Prop extends Holds names w where
  compressor : HasCompressor w
  method : w.entryMethod = 0 ∨ w.entryMethod = 8

/-- What an error leaves. -/
def Ended (names : List Bytes) (e : ZipStop) (w : ZipOutputStream Z) : Prop :=
  e ≠ .outOfRange ∧ (e ≠ .noReturn → Good names w)

theorem closeEntry_closed (h : w.entryOpen = false) : closeEntry fuel w = (.ok (), w) := by
  unfold closeEntry
  rw [getState_bind_apply, h]
  rfl

/-- **Closing an open entry** in which no call fails that it takes to end the compressed data. -/
theorem closeEntry_open
    (hZ : ∀ stream, (Z.deflate stream .finish [] bufferSize).status ≠ .streamError)
    (hopen : w.entryOpen = true) (hg : Good names w) (hfull : w.totalEntries ≠ 0xFFFF)
    (hsucceeds : w.entryMethod = 8 → ∀ stream, w.zstream = some stream →
      Succeeding (closingCalls Z fuel stream) w.outcomes) :
    (∃ w', closeEntry fuel w = (.ok (), w') ∧ w'.entryOpen = false ∧ w'.opened = w.opened ∧
      Good (names ++ [w.entryName]) w') ∨
    ∃ e w', closeEntry fuel w = (.error e, w') ∧ Ended names e w' := by
  unfold closeEntry
  rw [getState_bind_apply, if_pos hopen]
  by_cases hmethod : w.entryMethod = 8
  · rw [if_pos hmethod]
    obtain ⟨stream, hstream⟩ := Option.isSome_iff_exists.mp (hg.compressor hopen hmethod)
    obtain ⟨file, size, outcomes, hfinish, hone⟩ | ⟨w', hfinish⟩ :=
      finishAndReleaseZstream_succeeding hZ hstream (hsucceeds hmethod stream hstream)
    · rw [bind_ok hfinish]
      obtain ⟨w', hrecord, hclosed, hopened, hzero, hholds⟩ | ⟨hfails, -⟩ :=
        recordEntry_cases (show Holds names { w with
          file := file, currentCompressedSize := size, zstream := none, outcomes := outcomes } from
          ⟨hg.records, hg.total⟩) hfull
      · refine .inl ⟨w', hrecord, hclosed, hopened, hholds, fun h => ?_, .inl hzero⟩
        rw [hclosed] at h
        cases h
      · exact absurd hone hfails
    · rw [bind_error hfinish]
      exact .inr ⟨_, w', rfl, by simp, fun h => absurd rfl h⟩
  · rw [if_neg hmethod, pure_bind_apply]
    obtain ⟨w', hrecord, hclosed, hopened, hzero, hholds⟩ |
      ⟨-, code, message, file, crc, outcomes, hrecord⟩ := recordEntry_cases hg.toHolds hfull
    · refine .inl ⟨w', hrecord, hclosed, hopened, hholds, fun h => ?_, .inl hzero⟩
      rw [hclosed] at h
      cases h
    · exact .inr ⟨_, _, hrecord, by simp, fun _ => { hg with }⟩

/-- The calls that closing takes succeed. -/
def Closable (fuel : Nat) (w : ZipOutputStream Z) : Prop :=
  w.entryOpen = true → w.totalEntries ≠ 0xFFFF ∧
    (w.entryMethod = 8 → ∀ stream, w.zstream = some stream →
      Succeeding (closingCalls Z fuel stream) w.outcomes)

/-- The entries that are complete when the one that is open was closed. -/
def closedNames (fuel : Nat) (names : List Bytes) (w : ZipOutputStream Z) : List Bytes :=
  if w.entryOpen then names ++ completedBy fuel w else names

/-- **Closing the entry that is open, if any**, and which entry that completes. -/
theorem closeEntry_good
    (hZ : ∀ stream, (Z.deflate stream .finish [] bufferSize).status ≠ .streamError)
    (hg : Good names w) (hclosable : Closable fuel w) :
    (∃ w', closeEntry fuel w = (.ok (), w') ∧ w'.entryOpen = false ∧ w'.opened = w.opened ∧
      Good (closedNames fuel names w) w') ∨
    ∃ e w', closeEntry fuel w = (.error e, w') ∧ Ended (closedNames fuel names w) e w' := by
  unfold closedNames
  by_cases hopen : w.entryOpen = true
  · obtain ⟨hfull, hsucceeds⟩ := hclosable hopen
    rw [if_pos hopen]
    obtain ⟨w', hclose, hclosed⟩ | ⟨e, w', hclose, hended⟩ :=
      closeEntry_open hZ hopen hg hfull hsucceeds
    · have hcompleted : completedBy fuel w = [w.entryName] := by
        unfold completedBy
        rw [hclose]
      rw [hcompleted]
      exact .inl ⟨w', hclose, hclosed⟩
    · have hcompleted : completedBy fuel w = [] := by
        unfold completedBy
        rw [hclose]
      rw [hcompleted, List.append_nil]
      exact .inr ⟨e, w', hclose, hended⟩
  · rw [if_neg hopen]
    have hclosed := Bool.not_eq_true _ ▸ hopen
    exact .inl ⟨w, closeEntry_closed hclosed, hclosed, rfl, hg⟩

/-! ## The other calls -/

variable {P : ZipOutputStream Z → Prop}

/-- What a write to the file does not touch is kept. -/
theorem fwrite_triple (bytes : Bytes) (message : String)
    (hP : ∀ w file outcomes, P w → P { w with file := file, outcomes := outcomes })
    (hgood : ∀ w, P w → Good names w) :
    Triple P (fwrite bytes message) (fun _ => P) (Ended names) := by
  intro w hw
  cases hwrite : fwrite bytes message w with
  | mk res t =>
    unfold fwrite at hwrite
    split at hwrite
    · cases hwrite
      exact ⟨by simp [zipError], fun _ => hgood _ (hP _ _ _ hw)⟩
    · cases hwrite
      exact hP _ _ _ hw

theorem fwriteNonempty_triple (bytes : Bytes) (message : String)
    (hP : ∀ w file outcomes, P w → P { w with file := file, outcomes := outcomes })
    (hgood : ∀ w, P w → Good names w) :
    Triple P (fwriteNonempty bytes message) (fun _ => P) (Ended names) :=
  triple_ite (fun _ => triple_pure fun _ h => h) fun _ => fwrite_triple bytes message hP hgood

/-- The compressor of a new entry. -/
theorem initDeflate_triple
    (hP : ∀ w zstream outcomes, P w → P { w with zstream := zstream, outcomes := outcomes })
    (hgood : ∀ w, P w → Good names w) :
    Triple P initDeflate (fun _ w => P w ∧ w.zstream.isSome = true) (Ended names) := by
  intro w hw
  cases hinit : initDeflate w with
  | mk res t =>
    unfold initDeflate at hinit
    split at hinit
    · cases hinit
      exact ⟨by simp [zipError], fun _ => hgood _ (hP _ w.zstream _ hw)⟩
    · cases hinit
      exact ⟨by simp [zipError], fun _ => hgood _ (hP _ w.zstream _ hw)⟩
    · cases hinit
      exact ⟨hP _ _ _ hw, rfl⟩

/-- No entry is open, and the next one has a method. -/
structure Pending (names : List Bytes) (method : Nat) (w : ZipOutputStream Z) : Prop
    extends Holds names w where
  entryOpen : w.entryOpen = false
  method : w.entryMethod = method

variable {method : Nat}

theorem Pending.good (h : Pending names method w) (hmethod : method = 0 ∨ method = 8) :
    Good names w where
  compressor hopen := by
    rw [h.entryOpen] at hopen
    cases hopen
  toHolds := h.toHolds
  method := h.method ▸ hmethod

/-- `put_next_entry` when no entry is open. -/
theorem putNextEntry_triple {name : Bytes} (hmethod : method = 0 ∨ method = 8) :
    Triple (fun w : ZipOutputStream Z => w.entryOpen = false ∧ Good names w)
      (putNextEntry fuel name method) (fun _ => Good names) (Ended names) := by
  have hgood : ∀ w : ZipOutputStream Z, Pending names method w → Good names w :=
    fun w h => h.good hmethod
  have hkept : ∀ (w : ZipOutputStream Z) (file : Bytes) (outcomes : List Outcome),
      Pending names method w → Pending names method { w with file := file, outcomes := outcomes } :=
    fun w file outcomes h => { h with }
  unfold putNextEntry
  refine triple_getState_bind fun t ht => triple_failIf_bind (fun s _ hs => ?_) fun _ => ?_
  · subst hs
    exact ⟨by simp [zipError], fun _ => ht.2⟩
  refine triple_bind (S := fun _ s => s = t) (fun s hs => ?_) fun _ => ?_
  · subst hs
    rw [closeEntry_closed ht.1]
  refine triple_bind (S := fun _ => Pending names method) (triple_modify fun s hs => ?_) fun _ => ?_
  · subst hs
    exact { ht.2 with entryOpen := ht.1, method := rfl }
  refine triple_bind (fwrite_triple _ _ hkept hgood) fun _ => ?_
  refine triple_bind (fwriteNonempty_triple _ _ hkept hgood) fun _ => ?_
  refine triple_ite (fun hdeflated => ?_) fun hstored => triple_modify fun s hs => ?_
  · refine triple_bind (initDeflate_triple (fun w zstream outcomes h => { h with }) hgood) fun _ =>
      ?_
    exact triple_modify fun s hs =>
      { hs.1 with compressor := fun _ _ => hs.2, method := hs.1.method ▸ hmethod }
  · exact
      { hs with
        compressor := fun _ h => absurd (hs.method.symm.trans h) hstored
        method := hs.method ▸ hmethod }

/-- A call of `deflate` on a compressor that is there. -/
theorem callDeflate_triple (flush : Flush) (input : Bytes) :
    Triple (fun w : ZipOutputStream Z => Good names w ∧ w.zstream.isSome = true)
      (callDeflate flush input) (fun _ w => Good names w ∧ w.zstream.isSome = true)
      (Ended names) := by
  rintro w ⟨hg, hstream⟩
  obtain ⟨stream, hstream⟩ := Option.isSome_iff_exists.mp hstream
  cases hcall : callDeflate flush input w with
  | mk res t =>
    unfold callDeflate at hcall
    rw [hstream] at hcall
    dsimp only at hcall
    split at hcall
    · cases hcall
      exact ⟨{ hg with compressor := fun _ _ => rfl }, rfl⟩
    · cases hcall
      exact ⟨{ hg with compressor := fun _ _ => rfl }, rfl⟩

/-- **The loop of `write`** keeps its compressor, also when a call in it fails. -/
theorem deflateLoop_triple (fuel : Nat) (input : Bytes) :
    Triple (fun w : ZipOutputStream Z => Good names w ∧ w.zstream.isSome = true)
      (deflateLoop fuel input) (fun _ => Good names) (Ended names) := by
  induction fuel generalizing input with
  | zero => exact triple_fail fun w _ => ⟨by simp, fun h => absurd rfl h⟩
  | succ fuel ih =>
    unfold deflateLoop
    refine triple_bind (callDeflate_triple _ _) fun step => ?_
    refine triple_failIf_bind (fun s _ hs => ⟨by simp [zipError], fun _ => hs.1⟩) fun _ => ?_
    refine triple_bind (S := fun _ w => Good names w ∧ w.zstream.isSome = true) ?_ fun _ => ?_
    · refine triple_ite (fun _ => triple_pure fun _ h => h) fun _ => ?_
      refine triple_bind (fwrite_triple _ _ (fun w file outcomes h => ?_) fun _ h => h.1) fun _ =>
        triple_modify fun w h => ?_
      · exact ⟨{ h.1 with }, h.2⟩
      · exact ⟨{ h.1 with }, h.2⟩
    · exact triple_ite (fun _ => ih _) fun _ => triple_pure fun _ h => h.1

/-- `write`. -/
theorem write_triple {data : Bytes} :
    Triple (fun w : ZipOutputStream Z => Good names w) (write fuel data) (fun _ => Good names)
      (Ended names) := by
  unfold write
  refine triple_getState_bind fun t ht => triple_failIf_bind (fun s _ hs => ?_) fun hopen => ?_
  · subst hs
    exact ⟨by simp [zipError], fun _ => ht⟩
  refine triple_ite (fun _ => triple_pure fun s hs => hs ▸ ht) fun _ => ?_
  refine triple_bind (S := fun _ s => Good names s ∧ s.zstream = t.zstream)
    (triple_modify fun s hs => ?_) fun _ => triple_ite (fun _ => ?_) fun hmethod => ?_
  · subst hs
    exact ⟨{ ht with }, rfl⟩
  · refine triple_bind (fwrite_triple _ _ (fun w file outcomes h => ?_) fun _ h => h.1) fun _ =>
      triple_modify fun w h => ?_
    · exact ⟨{ h.1 with }, h.2⟩
    · exact { h.1 with }
  · refine (deflateLoop_triple fuel _).mono (fun s hs => ⟨hs.1, ?_⟩) (fun _ _ h => h) fun _ _ h => h
    rw [hs.2]
    exact ht.compressor (Bool.not_eq_false _ ▸ hopen) (ht.method.resolve_left hmethod)

/-- `close` when no entry is open. -/
theorem close_triple :
    Triple (fun w : ZipOutputStream Z => w.opened = true ∧ w.entryOpen = false ∧ Good names w)
      (close fuel) (fun _ => Good []) (Ended names) := by
  unfold close
  refine triple_getState_bind fun t ht => triple_ite (fun _ => ?_) fun hclosed => ?_
  · have hkept : ∀ (w : ZipOutputStream Z) (file : Bytes) (outcomes : List Outcome),
        w.entryOpen = false ∧ Good names w →
          ({ w with file := file, outcomes := outcomes } : ZipOutputStream Z).entryOpen = false ∧
            Good names { w with file := file, outcomes := outcomes } :=
      fun w file outcomes h => ⟨h.1, { h.2 with }⟩
    refine triple_bind (S := fun _ s => s.entryOpen = false ∧ Good names s) (fun s hs =>
      ?_) fun _ => ?_
    · subst hs
      rw [closeEntry_closed ht.2.1]
      exact ht.2
    refine triple_getState_bind fun t' ht' => ?_
    refine triple_bind (S := fun _ s => s.entryOpen = false ∧ Good names s) ?_ fun _ => ?_
    · exact (fwriteNonempty_triple _ _ hkept fun _ h => h.2).mono (fun s hs => hs ▸ ht')
        (fun _ _ h => h) fun _ _ h => h
    refine triple_bind (fwrite_triple _ _ hkept fun _ h => h.2) fun _ => triple_modify fun s hs =>
      ?_
    refine ⟨⟨.nil, rfl⟩, fun h => ?_, hs.2.method⟩
    rw [hs.1] at h
    cases h
  · exact absurd ht.1 hclosed

/-- `open`. -/
theorem openFile_triple {path : Bytes} :
    Triple (fun w : ZipOutputStream Z => Good names w) (openFile path) (fun _ => Good names)
      (Ended names) := by
  unfold openFile
  refine triple_getState_bind fun t ht => triple_failIf_bind (fun s _ hs => ?_) fun _ => ?_
  · subst hs
    exact ⟨by simp [zipError], fun _ => ht⟩
  refine triple_bind (S := fun _ => Good names) (fun s hs => ?_) fun _ => triple_modify fun s hs =>
    { hs with }
  subst hs
  have hkept : ∀ (file : Bytes) (outcomes : List Outcome),
      Good names { s with file := file, outcomes := outcomes } :=
    fun file outcomes => { ht with }
  cases hcreate : createFile path s with
  | mk res t =>
    unfold createFile at hcreate
    split at hcreate
    · cases hcreate
      exact ⟨by simp, fun _ => hkept _ _⟩
    · cases hcreate
      exact hkept _ _

/-! ## Runs -/

/-- A call that begins with `close_entry` and goes on when it succeeds. -/
theorem closing_triple
    (hZ : ∀ stream, (Z.deflate stream .finish [] bufferSize).status ≠ .streamError)
    {x : Writing Z Unit} {Q : List Bytes → ZipOutputStream Z → Prop} (hg : Good names w)
    (hclosable : Closable fuel w)
    (hok : ∀ t, closeEntry fuel w = (.ok (), t) → t.entryOpen = false → t.opened = w.opened →
      x w = x t) (herror : ∀ e t, closeEntry fuel w = (.error e, t) → x w = (.error e, t))
    (hx : ∀ names, Triple (fun t : ZipOutputStream Z => t.opened = w.opened ∧ t.entryOpen = false ∧
      Good names t) x (fun _ => Q names) (Ended names)) :
    Triple (fun t => t = w) x (fun _ => Q (closedNames fuel names w))
      (Ended (closedNames fuel names w)) := by
  intro t ht
  subst ht
  obtain ⟨t', hclose, hclosed, hopened, hgood⟩ | ⟨e, t', hclose, hended⟩ :=
    closeEntry_good hZ hg hclosable
  · rw [hok t' hclose hclosed hopened]
    exact hx _ t' ⟨hopened, hclosed, hgood⟩
  · rw [herror e t' hclose]
    exact hended

theorem putNextEntry_good
    (hZ : ∀ stream, (Z.deflate stream .finish [] bufferSize).status ≠ .streamError)
    {name : Bytes} (hmethod : method = 0 ∨ method = 8) (hg : Good names w)
    (hclosable : w.opened = true → Closable fuel w) :
    Triple (fun t => t = w) (putNextEntry fuel name method)
      (fun _ => Good (if w.opened then closedNames fuel names w else names))
      (Ended (if w.opened then closedNames fuel names w else names)) := by
  by_cases hopened : w.opened = true
  · rw [if_pos hopened]
    refine closing_triple hZ hg (hclosable hopened) (fun t hclose hclosed ht => ?_)
      (fun e t hclose => ?_) fun names' => ?_
    · unfold putNextEntry
      rw [getState_bind_apply, getState_bind_apply, ht, hopened, failIf_neg (by decide),
        pure_bind_apply, pure_bind_apply, bind_ok hclose, bind_ok (closeEntry_closed hclosed)]
    · unfold putNextEntry
      rw [getState_bind_apply, hopened, failIf_neg (by decide), pure_bind_apply, bind_error hclose]
    · exact (putNextEntry_triple hmethod).mono (fun t ht => ht.2) (fun _ _ h => h) fun _ _ h => h
  · rw [if_neg hopened]
    rintro t rfl
    unfold putNextEntry
    rw [getState_bind_apply, failIf_pos (Bool.not_eq_true _ ▸ hopened), fail_bind_apply]
    exact ⟨by simp [zipError], fun _ => hg⟩

theorem close_good (hZ : ∀ stream, (Z.deflate stream .finish [] bufferSize).status ≠ .streamError)
    (hg : Good names w) (hclosable : w.opened = true → Closable fuel w) :
    Triple (fun t => t = w) (close fuel)
      (fun _ => Good (if w.opened then [] else names))
      (Ended (if w.opened then closedNames fuel names w else names)) := by
  by_cases hopened : w.opened = true
  · rw [if_pos hopened, if_pos hopened]
    refine closing_triple hZ hg (hclosable hopened) (Q := fun _ => Good [])
      (fun t hclose hclosed ht => ?_)
      (fun e t hclose => ?_) fun names' => ?_
    · unfold close
      rw [getState_bind_apply, getState_bind_apply, ht, hopened, if_pos rfl, bind_ok hclose,
        bind_ok (closeEntry_closed hclosed)]
    · unfold close
      rw [getState_bind_apply, hopened, if_pos rfl, bind_error hclose]
    · exact close_triple.mono (fun t ht => ⟨ht.1.trans hopened, ht.2⟩) (fun _ _ h => h) fun _ _ h =>
        h
  · rw [if_neg hopened, if_neg hopened]
    rintro t rfl
    unfold close
    rw [getState_bind_apply, if_neg hopened]
    exact hg

theorem closeEntry_triple
    (hZ : ∀ stream, (Z.deflate stream .finish [] bufferSize).status ≠ .streamError)
    (hg : Good names w) (hclosable : Closable fuel w) :
    Triple (fun t => t = w) (closeEntry fuel) (fun _ => Good (closedNames fuel names w))
      (Ended (closedNames fuel names w)) := by
  refine closing_triple hZ hg hclosable (fun t hclose hclosed _ => ?_) (fun e t hclose => hclose)
    fun names' t ht => ?_
  · rw [hclose, closeEntry_closed hclosed]
  · rw [closeEntry_closed ht.2.1]
    exact ht.2.2

variable {a : LifeAction}

/-- The entries that are complete after a call that closes an entry when the stream is open. -/
theorem completedAfter_eq
    (h : a.call.closesEntry s.writer = (s.writer.opened && s.writer.entryOpen)) :
    s.completedAfter a =
      if s.writer.opened then
        closedNames a.fuel s.completed { s.writer with outcomes := a.outcomes }
      else s.completed := by
  unfold Lifetime.completedAfter closedNames
  rw [h]
  cases s.writer.opened <;> rfl

theorem closable_of_steady
    (h : a.call.closesEntry s.writer = (s.writer.opened && s.writer.entryOpen))
    (hsteady : s.Steady a)
    (hopened : s.writer.opened = true) : Closable a.fuel { s.writer with outcomes :=
      a.outcomes } := by
  intro hopen
  refine hsteady ?_
  rw [h, hopened]
  exact hopen

/-- **One call.** -/
theorem run_triple (hZ : ∀ stream, (Z.deflate stream .finish [] bufferSize).status ≠ .streamError)
    (hg : Good s.completed s.writer) (hsteady : s.Steady a) :
    Triple (fun w => w = { s.writer with outcomes := a.outcomes }) (a.call.run a.fuel)
      (fun _ => Good (if a.call.finishes s.writer then [] else s.completedAfter a))
      (Ended (s.completedAfter a)) := by
  have hg' : Good s.completed { s.writer with outcomes := a.outcomes } := { hg with }
  have hclose : a.call.closesEntry s.writer = (s.writer.opened && s.writer.entryOpen) →
      a.call.finishes s.writer = s.writer.opened →
      Triple (fun w => w = { s.writer with outcomes := a.outcomes }) (close a.fuel)
        (fun _ => Good (if a.call.finishes s.writer then [] else s.completedAfter a))
        (Ended (s.completedAfter a)) := by
    intro hcloses hfinishes
    have hdone : (if a.call.finishes s.writer then [] else s.completedAfter a) =
        if s.writer.opened then [] else s.completed := by
      rw [hfinishes, completedAfter_eq hcloses]
      cases s.writer.opened <;> rfl
    rw [hdone, completedAfter_eq hcloses]
    exact close_good hZ hg' (closable_of_steady hcloses hsteady)
  obtain ⟨call, fuel, outcomes⟩ := a
  cases call with
  | openFile path =>
    exact openFile_triple.mono (fun t ht => ht ▸ hg') (fun _ _ h => h) fun _ _ h => h
  | destroy => exact hclose rfl rfl
  | call c =>
    cases c with
    | putNextEntry name deflated =>
      have hmethod : (if deflated then 8 else 0) = 0 ∨ (if deflated then 8 else 0) = 8 := by
        cases deflated
        · exact .inl rfl
        · exact .inr rfl
      have hput := fun entryName => @putNextEntry_good _ _ _ _ _ hZ entryName hmethod hg'
        (closable_of_steady (a := ⟨.call (.putNextEntry name deflated), fuel, outcomes⟩) rfl
          hsteady)
      rw [completedAfter_eq rfl]
      exact hput name
    | write data => exact write_triple.mono (fun t ht => ht ▸ hg') (fun _ _ h => h) fun _ _ h => h
    | closeEntry => exact closeEntry_triple hZ hg' hsteady
    | close => exact hclose rfl rfl

/-- **One step.** -/
theorem step_good (hZ : ∀ stream, (Z.deflate stream .finish [] bufferSize).status ≠ .streamError)
    (hs : s.Intact ∧ (s.writer.entryMethod = 0 ∨ s.writer.entryMethod = 8)) (hsteady : s.Steady a)
    (h : s.step a = some s') :
    s'.Intact ∧ (s'.writer.entryMethod = 0 ∨ s'.writer.entryMethod = 8) := by
  obtain ⟨⟨hcompressor, hdirectory, hcrashed⟩, hmethod⟩ := hs
  have hrun := run_triple hZ { hdirectory with compressor := hcompressor, method :=
    hmethod } hsteady
  unfold Lifetime.step at h
  by_cases hgone : (s.destroyed || s.crashed) = true
  · rw [if_pos hgone] at h
    cases h
  rw [if_neg hgone] at h
  dsimp only at h
  cases hres : a.call.run a.fuel { s.writer with outcomes := a.outcomes } with
  | mk res w =>
    rw [hres] at h
    cases res with
    | ok u =>
      cases h
      have hgood := hrun.ok rfl hres
      exact ⟨⟨hgood.compressor, hgood.toHolds, rfl⟩, hgood.method⟩
    | error e =>
      have hended := hrun.error rfl hres
      cases e with
      | noReturn => cases h
      | outOfRange => exact absurd rfl hended.1
      | error code message =>
        cases h
        have hgood := hended.2 (by simp)
        exact ⟨⟨hgood.compressor, hgood.toHolds, rfl⟩, hgood.method⟩

/-- **A stream survives errors**, in every run in which no call of the library fails while a
deflated entry is closed and no entry is closed when 65535 are complete. -/
theorem lifetime_intact
    (hZ : ∀ stream, (Z.deflate stream .finish [] bufferSize).status ≠ .streamError)
    (hs : Reach Lifetime.step Lifetime.Steady ({} : Lifetime Z) s) : s.Intact :=
  (hs.invariant (fun s => s.Intact ∧ (s.writer.entryMethod = 0 ∨ s.writer.entryMethod = 8))
    ⟨⟨fun h => (by cases h), ⟨.nil, rfl⟩, rfl⟩, .inl rfl⟩
    fun _ _ _ hgood hsteady hstep => step_good hZ hgood hsteady hstep).1

/-! ## Runs with and without errors -/

/-- Writes that fail in a stored and in a deflated entry, which are then closed. -/
theorem lifetime_intact_stored :
    ∃ s : Lifetime storing, Reach Lifetime.step Lifetime.Steady {} s ∧ s.Intact ∧
      s.completed = [ascii "a", ascii "b"] := by
  have hsteady : ∀ (s : Lifetime storing) (a : LifeAction),
      decide (s.writer.totalEntries ≠ 0xFFFF ∧
        (a.call.closesEntry s.writer = true → a.outcomes.isEmpty = true)) = true → s.Steady a := by
    intro s a h hcloses
    obtain ⟨hfull, hempty⟩ := of_decide_eq_true h
    refine ⟨hfull, fun _ _ _ o ho => ?_⟩
    rw [List.isEmpty_iff.mp (hempty hcloses), List.take_nil] at ho
    cases ho
  have hrun : (run Lifetime.step
      (fun s a => decide (s.writer.totalEntries ≠ 0xFFFF ∧
        (a.call.closesEntry s.writer = true → a.outcomes.isEmpty = true)))
      [{ call := .openFile (ascii "f") }, { call := .call (.putNextEntry (ascii "a") false) },
        { call := .call (.write (ascii "hi")), outcomes := [.failure 1] },
        { call := .call (.putNextEntry (ascii "b") true) },
        { call := .call (.write (ascii "ho")), fuel := 1, outcomes := [.failure 0] },
        { call := .call .closeEntry, fuel := 1 }] ({} : Lifetime storing)).any
      (fun s => s.completed == [ascii "a", ascii "b"]) = true := by
    decide +kernel
  obtain ⟨s, hs, hp⟩ := Reach.exists_of_run hsteady hrun
  refine ⟨s, hs, lifetime_intact (fun stream => ?_) hs, by simpa using hp⟩
  change (if _ then ZStatus.streamEnd else .ok) ≠ _
  split_ifs <;> simp

/-- A failed call of `deflate` while an entry is closed. -/
theorem not_lifetime_intact : ¬ ∀ (Z : Zlib) (s : Lifetime Z),
    (∀ stream, (Z.deflate stream .finish [] bufferSize).status ≠ .streamError) →
      Reach Lifetime.step (fun _ _ => True) {} s → s.Intact := by
  intro hall
  have hrun : (run Lifetime.step (fun _ _ => true)
      [{ call := .openFile (ascii "f") }, { call := .call (.putNextEntry (ascii "a") true) },
        { call := .call .closeEntry, fuel := 1, outcomes := [.failure 0] },
        { call := .destroy, fuel := 1 }] ({} : Lifetime storing)).any
      (fun s => s.crashed) = true := by
    decide +kernel
  obtain ⟨s, hs, hp⟩ := Reach.exists_of_run (fun _ _ _ => trivial) hrun
  have hintact := hall storing s (fun stream => ?_) hs
  · rw [hintact.crashed] at hp
    cases hp
  · change (if _ then ZStatus.streamEnd else .ok) ≠ _
    split_ifs <;> simp

end Libca.Zip
