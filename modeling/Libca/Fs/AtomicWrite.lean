import Libca.Common.Run
import Libca.Fs.FileUtil

/-!
# `atomic_write_bytes` (`fs/file_util.cpp` 42-402)

Calls that write to one destination, in any interleaving. The check of a name, the exclusive
creation, each `write`, the `close`, the `rename` and each `remove` are one step, and may fail. A
file is the number of its creation; a name is an entry of the directory of the destination, which
can be gone while a call writes through its descriptor.

Left out: the other modes of `write_bytes`, the creation of directories.

* `Owns`: the name that a call created still names the file that it created.
* `Sound`: the destination is complete, and every call that is to rename or remove its file owns it.
* `atomic_write_all_or_nothing`: so it is in every run in which no call clears a name that is taken
  after it failed to create it.
* `not_atomic_write_all_or_nothing`: two calls get one name, the one that comes second removes the
  file of the first, and a third file of that name is committed before it is complete.
-/

namespace Libca.Fs.AtomicWrite

open Common

/-- The names of `make_atomic_temp_path`: `<name>.tmp.<number>`, and `<name>.tmp` as the last
resort. -/
inductive Name
  | numbered (number : UInt64)
  | last
deriving DecidableEq, Repr

/-- A file; `creator` is the call that created it, if one did. -/
structure File where
  content : Bytes
  creator : Option Nat := none
deriving DecidableEq, Repr

/-- Where a call is: in `make_atomic_temp_path` after some names that were taken, in front of the
creation, with an open file and what is to be written, in front of `rename`, in front of
`remove_if_exists` with the file it created, if it created one, or back; `thrown` is the exception
of `exists`, which nothing catches. -/
inductive Phase
  | naming (tries : Nat)
  | named (name : Name)
  | writing (name : Name) (file : Nat) (rest : Bytes)
  | written (name : Name) (file : Nat)
  | failed (name : Name) (file : Option Nat) (e : FsError)
  | returned (result : Except FsError Unit)
  | thrown

structure WriteCall where
  content : Bytes
  phase : Phase := .naming 0

/-- A call renamed a file to the destination, with the content it had; or removed a file. -/
inductive Event
  | renamed (call file : Nat) (content : Bytes)
  | removed (call file : Nat)
deriving DecidableEq, Repr

/-- The files, what the destination and the temporary names name, and the calls. `log` is not in the
source. -/
structure State where
  files : List File
  target : Option Nat
  temps : Name → Option Nat := fun _ => none
  calls : List WriteCall := []
  log : List Event := []

/-- The destination holds `original`, or does not exist. -/
def init (original : Option Bytes) : State where
  files := original.toList.map fun content => { content := content }
  target := original.map fun _ => 0

/-! ## The steps -/

/-- The steps of the call `c`. A `failure` is an error of the system; `create` also stands for what
`write_bytes` does before it. -/
inductive Action
  | invoke (content : Bytes)
  | look (c : Nat) (number : UInt64)
  | lookThrows (c : Nat)
  | create (c : Nat) (failure : Option FsError)
  | write (c : Nat) (count : Nat)
  | writeFails (c : Nat) (e : FsError)
  | close (c : Nat) (fails : Bool)
  | rename (c : Nat) (failure : Option FsError)
  | remove (c : Nat) (fails : Bool)
deriving DecidableEq

def setPhase (s : State) (c : Nat) (call : WriteCall) (phase : Phase) : State :=
  { s with calls := s.calls.set c { call with phase := phase } }

/-- A turn of the loop of `make_atomic_temp_path`, and what follows the last one. -/
def lookStep (s : State) (c : Nat) (call : WriteCall) (tries : Nat) (number : UInt64) : State :=
  if s.temps (.numbered number) = none then setPhase s c call (.named (.numbered number))
  else if tries + 1 < 128 then setPhase s c call (.naming (tries + 1))
  else setPhase s c call (.named .last)

/-- `open` with `O_CREAT | O_EXCL`. -/
def createStep (s : State) (c : Nat) (call : WriteCall) (name : Name) : Option FsError → State
  | some e => setPhase s c call (.failed name none e)
  | none =>
    if s.temps name = none then
      setPhase { s with
        files := s.files ++ [{ content := [], creator := some c }]
        temps := Function.update s.temps name (some s.files.length) }
        c call (.writing name s.files.length call.content)
    else setPhase s c call (.failed name none .alreadyExists)

/-- `write` takes some bytes. -/
def writeStep (s : State) (c : Nat) (call : WriteCall) (name : Name) (file : Nat) (rest : Bytes)
    (count : Nat) : State :=
  setPhase { s with
    files := s.files.modify file fun f => { f with content := f.content ++ rest.take count } }
    c call (.writing name file (rest.drop count))

/-- `rename`. -/
def renameStep (s : State) (c : Nat) (call : WriteCall) (name : Name) (file : Nat) :
    Option FsError → State
  | some e => setPhase s c call (.failed name (some file) e)
  | none =>
    match s.temps name with
    | none => setPhase s c call (.failed name (some file) .fileNotFound)
    | some f =>
      setPhase { s with
        target := some f
        temps := Function.update s.temps name none
        log := .renamed c f ((s.files[f]?.map (·.content)).getD []) :: s.log }
        c call (.returned (.ok ()))

/-- `remove_if_exists`. -/
def removeStep (s : State) (c : Nat) (call : WriteCall) (name : Name) (e : FsError) (fails : Bool) :
    State :=
  match s.temps name, fails with
  | some f, false =>
    setPhase { s with temps := Function.update s.temps name none, log := .removed c f :: s.log }
      c call (.returned (.error e))
  | _, _ => setPhase s c call (.returned (.error e))

def step (s : State) : Action → Option State
  | .invoke content => some { s with calls := s.calls ++ [{ content := content }] }
  | .look c number =>
    match s.calls[c]? with
    | some { content, phase := .naming tries } =>
      some (lookStep s c { content, phase := .naming tries } tries number)
    | _ => none
  | .lookThrows c =>
    match s.calls[c]? with
    | some { content, phase := .naming tries } =>
      some (setPhase s c { content, phase := .naming tries } .thrown)
    | _ => none
  | .create c failure =>
    match s.calls[c]? with
    | some { content, phase := .named name } =>
      some (createStep s c { content, phase := .named name } name failure)
    | _ => none
  | .write c count =>
    match s.calls[c]? with
    | some { content, phase := .writing name file rest } =>
      if 0 < count ∧ count ≤ rest.length then
        some (writeStep s c { content, phase := .writing name file rest } name file rest count)
      else none
    | _ => none
  | .writeFails c e =>
    match s.calls[c]? with
    | some { content, phase := .writing name file rest } =>
      if rest = [] then none
      else some (setPhase s c { content, phase := .writing name file rest }
        (.failed name (some file) e))
    | _ => none
  | .close c fails =>
    match s.calls[c]? with
    | some { content, phase := .writing name file rest } =>
      if rest ≠ [] then none
      else if fails then
        some (setPhase s c { content, phase := .writing name file rest }
          (.failed name (some file) .writeFailed))
      else some (setPhase s c { content, phase := .writing name file rest } (.written name file))
    | _ => none
  | .rename c failure =>
    match s.calls[c]? with
    | some { content, phase := .written name file } =>
      some (renameStep s c { content, phase := .written name file } name file failure)
    | _ => none
  | .remove c fails =>
    match s.calls[c]? with
    | some { content, phase := .failed name file e } =>
      some (removeStep s c { content, phase := .failed name file e } name e fails)
    | _ => none

/-- A call that did not create its file does not clear a name that is taken. -/
def harmless (s : State) : Action → Bool
  | .remove c _ =>
    match s.calls[c]? with
    | some { content := _, phase := .failed name none _ } => (s.temps name).isNone
    | _ => true
  | _ => true

/-! ## What holds in every state -/

/-- The call created the file that the name names, and the file has this content. -/
def Owns (s : State) (c : Nat) (name : Name) (file : Nat) (content : Bytes) : Prop :=
  s.temps name = some file ∧ s.files[file]? = some { content := content, creator := some c }

/-- What a call can rely on. -/
def CallOk (s : State) (c : Nat) (call : WriteCall) : Prop :=
  match call.phase with
  | .naming _ | .named _ | .failed _ none _ | .returned (.error _) | .thrown => True
  | .writing name file rest => ∃ done, Owns s c name file done ∧ done ++ rest = call.content
  | .written name file => Owns s c name file call.content
  | .failed name (some file) _ => ∃ content, Owns s c name file content
  | .returned (.ok _) => ∃ file, .renamed c file call.content ∈ s.log

/-- A call renames and removes files of its own. -/
def EventOk (s : State) : Event → Prop
  | .renamed c file _ | .removed c file =>
    ∃ content, s.files[file]? = some { content := content, creator := some c }

/-- A call that came back with success. -/
def Succeeded (s : State) (c : Nat) (call : WriteCall) : Prop :=
  s.calls[c]? = some call ∧ call.phase = .returned (.ok ())

/-- The file holds what the destination held at first, or all that a call that succeeded wrote. -/
def Complete (original : Option Bytes) (s : State) (file : Nat) : Prop :=
  (∃ content, s.files[file]? = some { content := content } ∧ original = some content) ∨
  ∃ c call, Succeeded s c call ∧
    s.files[file]? = some { content := call.content, creator := some c }

structure Sound (original : Option Bytes) (s : State) : Prop where
  calls : ∀ c call, s.calls[c]? = some call → CallOk s c call
  renamed : ∀ c file content, .renamed c file content ∈ s.log → ∃ call, Succeeded s c call
  events : ∀ e ∈ s.log, EventOk s e
  target : ∀ file, s.target = some file → Complete original s file
  absent : s.target = none → original = none

/-- **A step of one call** that had not succeeded: the files and the names of the others stay. -/
structure Advance (s s' : State) (c : Nat) (call call' : WriteCall) : Prop where
  was : s.calls[c]? = some call
  pending : call.phase ≠ .returned (.ok ())
  calls : s'.calls = s.calls.set c call'
  content : call'.content = call.content
  files : ∀ (file : Nat) (f : File), s.files[file]? = some f →
    f.creator ≠ some c → s'.files[file]? = some f
  own : ∀ (file : Nat) (content : Bytes),
    s.files[file]? = some { content := content, creator := some c } →
    ∃ content', s'.files[file]? = some { content := content', creator := some c }
  temps : ∀ c' name file content, c' ≠ c → Owns s c' name file content → s'.temps name = some file
  log : ∀ e ∈ s.log, e ∈ s'.log

variable {s s' : State} {c : Nat} {call call' : WriteCall} {original : Option Bytes}

theorem Advance.get_self (h : Advance s s' c call call') : s'.calls[c]? = some call' := by
  rw [h.calls, List.getElem?_set_self (List.getElem?_eq_some_iff.mp h.was).1]

variable {c' : Nat}

theorem Advance.get_of_ne (h : Advance s s' c call call') (hne : c' ≠ c) :
    s'.calls[c']? = s.calls[c']? := by
  rw [h.calls, List.getElem?_set_ne (Ne.symm hne)]

variable {name : Name} {file : Nat} {content : Bytes}

theorem Advance.owns (h : Advance s s' c call call') (hne : c' ≠ c)
    (howns : Owns s c' name file content) : Owns s' c' name file content :=
  ⟨h.temps c' name file content hne howns,
    h.files _ _ howns.2 fun heq => hne (Option.some.inj heq)⟩

variable {other : WriteCall}

/-- The other calls rely on what they relied on. -/
theorem Advance.callOk (h : Advance s s' c call call') (hne : c' ≠ c)
    (hok : CallOk s c' other) : CallOk s' c' other := by
  unfold CallOk at hok ⊢
  split at hok
  · trivial
  · trivial
  · trivial
  · trivial
  · trivial
  · obtain ⟨done, howns, hcontent⟩ := hok
    exact ⟨done, h.owns hne howns, hcontent⟩
  · exact h.owns hne hok
  · obtain ⟨content, howns⟩ := hok
    exact ⟨content, h.owns hne howns⟩
  · obtain ⟨file, hmem⟩ := hok
    exact ⟨file, h.log _ hmem⟩

theorem Advance.ne_of_succeeded (h : Advance s s' c call call')
    (hother : Succeeded s c' other) : c' ≠ c := by
  rintro rfl
  obtain rfl := Option.some.inj (h.was.symm.trans hother.1)
  exact h.pending hother.2

theorem Advance.succeeded (h : Advance s s' c call call')
    (hother : Succeeded s c' other) : Succeeded s' c' other :=
  ⟨(h.get_of_ne (h.ne_of_succeeded hother)).trans hother.1, hother.2⟩

theorem Advance.complete (h : Advance s s' c call call')
    (hcomplete : Complete original s file) : Complete original s' file := by
  obtain ⟨content, hfile, horiginal⟩ | ⟨c', other, hother, hfile⟩ := hcomplete
  · exact .inl ⟨content, h.files _ _ hfile (by simp), horiginal⟩
  · refine .inr ⟨c', other, h.succeeded hother, h.files _ _ hfile fun heq => ?_⟩
    exact h.ne_of_succeeded hother (Option.some.inj heq)

theorem Advance.eventOk (h : Advance s s' c call call') {e : Event} (he : EventOk s e) :
    EventOk s' e := by
  have hkeep : ∀ {c' file : Nat},
      (∃ content, s.files[file]? = some { content := content, creator := some c' }) →
      ∃ content, s'.files[file]? = some { content := content, creator := some c' } := by
    rintro c' file ⟨content, hfile⟩
    by_cases hc : c' = c
    · subst hc
      exact h.own _ _ hfile
    · exact ⟨content, h.files _ _ hfile fun heq => hc (Option.some.inj heq)⟩
  cases e with
  | renamed => exact hkeep he
  | removed => exact hkeep he

/-- What a step tells: nothing new, a removal of a file of its own, or the rename of its complete
file. -/
inductive Tells (s s' : State) (c : Nat) (call call' : WriteCall) : Prop
  | nothing : s'.log = s.log → s'.target = s.target → Tells s s' c call call'
  | removed (file : Nat) : s'.log = .removed c file :: s.log → s'.target = s.target →
      EventOk s' (.removed c file) → Tells s s' c call call'
  | renamed (file : Nat) : s'.log = .renamed c file call.content :: s.log → s'.target = some file →
      call'.phase = .returned (.ok ()) →
      s'.files[file]? = some { content := call.content, creator := some c } →
        Tells s s' c call call'

/-- **The rule for the steps of a call.** -/
theorem Sound.advance (call' : WriteCall) (hs : Sound original s) (h : Advance s s' c call call')
    (hok : CallOk s' c call') (htells : Tells s s' c call call') : Sound original s' := by
  have hcalls : ∀ c' other, s'.calls[c']? = some other → CallOk s' c' other := by
    intro c' other hother
    by_cases hc : c' = c
    · subst hc
      obtain rfl := Option.some.inj (h.get_self.symm.trans hother)
      exact hok
    · exact h.callOk hc (hs.calls c' other ((h.get_of_ne hc).symm.trans hother))
  have hrenamed : ∀ c' file content, .renamed c' file content ∈ s.log → ∃ call,
    Succeeded s' c' call :=
    fun c' file content hmem =>
      let ⟨other, hother⟩ := hs.renamed c' file content hmem
      ⟨other, h.succeeded hother⟩
  have hevents : ∀ e ∈ s.log, EventOk s' e := fun e hmem => h.eventOk (hs.events e hmem)
  cases htells with
  | nothing hlog htarget =>
    rw [← hlog] at hrenamed hevents
    exact ⟨hcalls, hrenamed, hevents, fun file hfile =>
      h.complete (hs.target file (htarget ▸ hfile)), fun hnone => hs.absent (htarget ▸ hnone)⟩
  | removed file hlog htarget hevent =>
    refine ⟨hcalls, fun c' file' content hmem => ?_, fun e hmem => ?_,
      fun file hfile => h.complete (hs.target file (htarget ▸ hfile)),
      fun hnone => hs.absent (htarget ▸ hnone)⟩
    · rw [hlog] at hmem
      exact hrenamed c' file' content ((List.mem_cons.mp hmem).resolve_left (by simp))
    · rw [hlog] at hmem
      rcases List.mem_cons.mp hmem with rfl | hmem
      · exact hevent
      · exact hevents e hmem
  | renamed file hlog htarget hphase hfile =>
    have hself : Succeeded s' c call' := ⟨h.get_self, hphase⟩
    refine ⟨hcalls, fun c' file' content hmem => ?_, fun e hmem => ?_, fun file' hfile' => ?_,
      fun hnone => ?_⟩
    · rw [hlog] at hmem
      rcases List.mem_cons.mp hmem with heq | hmem
      · injection heq with hc
        subst hc
        exact ⟨call', hself⟩
      · exact hrenamed c' file' content hmem
    · rw [hlog] at hmem
      rcases List.mem_cons.mp hmem with rfl | hmem
      · exact ⟨_, hfile⟩
      · exact hevents e hmem
    · obtain rfl := Option.some.inj (htarget.symm.trans hfile')
      exact .inr ⟨c, call', hself, h.content ▸ hfile⟩
    · rw [htarget] at hnone
      cases hnone

/-! ## The steps keep it -/

/-- A step that changes the phase alone. -/
theorem advance_setPhase (hwas : s.calls[c]? = some call) (hpending : call.phase ≠ .returned (.ok ()))
    (phase : Phase) : Advance s (setPhase s c call phase) c call { call with phase := phase } where
  was := hwas
  pending := hpending
  calls := rfl
  content := rfl
  files := fun _ _ hfile _ => hfile
  own := fun _ content hfile => ⟨content, hfile⟩
  temps := fun _ _ _ _ _ howns => howns.1
  log := fun _ hmem => hmem

theorem Sound.setPhase (hs : Sound original s) (hwas : s.calls[c]? = some call)
    (hpending : call.phase ≠ .returned (.ok ())) (phase : Phase)
    (hok : CallOk s c { call with phase := phase }) : Sound original (setPhase s c call phase) :=
  hs.advance _ (advance_setPhase hwas hpending phase) hok (.nothing rfl rfl)

theorem lookStep_sound (hs : Sound original s) {tries : Nat} {number : UInt64}
    (hwas : s.calls[c]? = some { content := content, phase := .naming tries }) :
    Sound original (lookStep s c { content := content, phase := .naming tries } tries number) := by
  unfold lookStep
  split_ifs
  · exact hs.setPhase hwas (by simp) _ trivial
  · exact hs.setPhase hwas (by simp) _ trivial
  · exact hs.setPhase hwas (by simp) _ trivial

/-- **The exclusive creation** takes a name that no call owns. -/
theorem createStep_sound (hs : Sound original s)
    {failure : Option FsError}
    (hwas : s.calls[c]? = some { content := content, phase := .named name }) :
    Sound original (createStep s c { content := content, phase := .named name } name failure) := by
  cases failure with
  | some e => exact hs.setPhase hwas (by simp) _ trivial
  | none =>
    unfold createStep
    dsimp only
    by_cases hfree : s.temps name = none
    · rw [if_pos hfree]
      refine hs.advance { content := content, phase := .writing name s.files.length content }
        ⟨hwas, by simp, rfl, rfl, fun file f hfile _ => ?_, fun file content' hfile => ⟨content', ?_⟩,
          fun c' name' file content' _ howns => ?_, fun _ hmem => hmem⟩ ?_ (.nothing rfl rfl)
      · exact (List.getElem?_append_left (List.getElem?_eq_some_iff.mp hfile).1).trans hfile
      · exact (List.getElem?_append_left (List.getElem?_eq_some_iff.mp hfile).1).trans hfile
      · have hne : name' ≠ name := by
          rintro rfl
          cases hfree.symm.trans howns.1
        exact (Function.update_of_ne hne _ _).trans howns.1
      · exact ⟨[], ⟨Function.update_self .., List.getElem?_concat_length⟩, rfl⟩
    · rw [if_neg hfree]
      exact hs.setPhase hwas (by simp) _ trivial

theorem writeStep_sound (hs : Sound original s) {rest : Bytes} {count : Nat}
    (hwas : s.calls[c]? = some { content := content, phase := .writing name file rest }) :
    Sound original
      (writeStep s c { content := content, phase := .writing name file rest } name file rest
        count) := by
  obtain ⟨done, ⟨hname, hfile⟩, hcontent⟩ := hs.calls c _ hwas
  have hmodify : ∀ (i : Nat) (f : File), s.files[i]? = some f → f.creator ≠ some c →
      (s.files.modify file fun f => { f with content := f.content ++ rest.take count })[i]? =
        some f := by
    intro i f hf hne
    have hother : file ≠ i := by
      rintro rfl
      obtain rfl := Option.some.inj (hfile.symm.trans hf)
      exact hne rfl
    rw [List.getElem?_modify_ne _ _ hother, hf]
  have hself : (s.files.modify file fun f => { f with content := f.content ++ rest.take count })[file]? =
      some { content := done ++ rest.take count, creator := some c } := by
    rw [List.getElem?_modify_eq, hfile]
    rfl
  refine hs.advance { content := content, phase := .writing name file (rest.drop count) }
    ⟨hwas, by simp, rfl, rfl, hmodify, fun i content' hi => ?_, fun _ _ _ _ _ howns => howns.1,
      fun _ hmem => hmem⟩ ?_ (.nothing rfl rfl)
  · by_cases heq : file = i
    · subst heq
      exact ⟨_, hself⟩
    · refine ⟨content', ?_⟩
      show (s.files.modify file _)[i]? = _
      rw [List.getElem?_modify_ne _ _ heq, hi]
  · refine ⟨done ++ rest.take count, ⟨hname, hself⟩, ?_⟩
    rw [List.append_assoc, List.take_append_drop]
    exact hcontent

/-- A name that a call owns is not one that another call owns. -/
theorem Owns.name_ne {name' : Name} {file' : Nat} {content' : Bytes}
    (h : Owns s c name file content) (h' : Owns s c' name' file' content') (hne : c' ≠ c) :
    name' ≠ name := by
  rintro rfl
  obtain rfl := Option.some.inj (h.1.symm.trans h'.1)
  have hsame := Option.some.inj (h.2.symm.trans h'.2)
  injection hsame with _ hcreator
  exact hne (Option.some.inj hcreator).symm

/-- **The rename** commits the complete file of the call. -/
theorem renameStep_sound (hs : Sound original s) {failure : Option FsError}
    (hwas : s.calls[c]? = some { content := content, phase := .written name file }) :
    Sound original
      (renameStep s c { content := content, phase := .written name file } name file failure) := by
  have howns : Owns s c name file content := hs.calls c _ hwas
  cases failure with
  | some e => exact hs.setPhase hwas (by simp) _ ⟨content, howns⟩
  | none =>
    unfold renameStep
    rw [howns.1]
    dsimp only
    rw [howns.2]
    refine hs.advance { content := content, phase := .returned (.ok ()) }
      ⟨hwas, by simp, rfl, rfl, fun _ _ hf _ => hf, fun _ content' hf => ⟨content', hf⟩,
        fun c' name' file' content' hne howns' => ?_, fun _ hmem => .tail _ hmem⟩
      ⟨file, List.mem_cons_self⟩ (.renamed file rfl rfl rfl howns.2)
    exact (Function.update_of_ne (howns.name_ne howns' hne) _ _).trans howns'.1

/-- **The removal** of a file of the call, or of none. -/
theorem removeStep_sound (hs : Sound original s) {file : Option Nat} {e : FsError} {fails : Bool}
    (hwas : s.calls[c]? = some { content := content, phase := .failed name file e })
    (hharmless : file = none → s.temps name = none) :
    Sound original
      (removeStep s c { content := content, phase := .failed name file e } name e fails) := by
  have hquiet := hs.setPhase hwas (by simp) (.returned (.error e)) trivial
  unfold removeStep
  cases file with
  | none =>
    rw [hharmless rfl]
    exact hquiet
  | some file =>
    obtain ⟨content', howns⟩ := hs.calls c _ hwas
    rw [howns.1]
    cases fails with
    | true => exact hquiet
    | false =>
      refine hs.advance { content := content, phase := .returned (.error e) }
        ⟨hwas, by simp, rfl, rfl, fun _ _ hf _ => hf, fun _ content' hf => ⟨content', hf⟩,
          fun c' name' file' content' hne howns' => ?_, fun _ hmem => .tail _ hmem⟩
        trivial (.removed file rfl rfl ⟨content', howns.2⟩)
      exact (Function.update_of_ne (howns.name_ne howns' hne) _ _).trans howns'.1

theorem sound_init (original : Option Bytes) : Sound original (init original) := by
  cases original with
  | none =>
    refine ⟨fun c call hcall => ?_, by rintro c file content ⟨⟩, by rintro e ⟨⟩, by rintro file ⟨⟩,
      fun _ => rfl⟩
    cases hcall
  | some content =>
    refine ⟨fun c call hcall => ?_, by rintro c file content ⟨⟩, by rintro e ⟨⟩, fun file hfile =>
      ?_, by rintro ⟨⟩⟩
    · cases hcall
    · cases hfile
      exact .inl ⟨content, rfl, rfl⟩

/-- A new call. -/
theorem Sound.invoke (hs : Sound original s) (content : Bytes) :
    Sound original { s with calls := s.calls ++ [{ content := content }] } := by
  have hsucceeded : ∀ {c : Nat} {call : WriteCall}, Succeeded s c call →
      Succeeded { s with calls := s.calls ++ [{ content := content }] } c call := fun h =>
    ⟨(List.getElem?_append_left (List.getElem?_eq_some_iff.mp h.1).1).trans h.1, h.2⟩
  refine ⟨fun c call hcall => ?_, fun c file content' hmem => ?_, hs.events, fun file hfile => ?_,
    hs.absent⟩
  · rw [List.getElem?_append] at hcall
    split_ifs at hcall with hlt
    · exact hs.calls c call hcall
    · rw [List.getElem?_singleton] at hcall
      split_ifs at hcall
      cases hcall
      trivial
  · obtain ⟨call, hcall⟩ := hs.renamed c file content' hmem
    exact ⟨call, hsucceeded hcall⟩
  · obtain hcomplete | ⟨c, call, hcall, hcontent⟩ := hs.target file hfile
    · exact .inl hcomplete
    · exact .inr ⟨c, call, hsucceeded hcall, hcontent⟩

/-- **Every step that clears no name of another call** keeps all of it. -/
theorem Sound.step (hs : Sound original s) {a : Action} (hok : harmless s a = true)
    (h : step s a = some s') : Sound original s' := by
  cases a with
  | invoke content =>
    cases h
    exact hs.invoke content
  | look c number =>
    simp only [AtomicWrite.step] at h
    split at h
    · next hwas =>
      cases h
      exact lookStep_sound hs hwas
    · cases h
  | lookThrows c =>
    simp only [AtomicWrite.step] at h
    split at h
    · next hwas =>
      cases h
      exact hs.setPhase hwas (by simp) _ trivial
    · cases h
  | create c failure =>
    simp only [AtomicWrite.step] at h
    split at h
    · next hwas =>
      cases h
      exact createStep_sound hs hwas
    · cases h
  | write c count =>
    simp only [AtomicWrite.step] at h
    split at h
    · next hwas =>
      split_ifs at h
      cases h
      exact writeStep_sound hs hwas
    · cases h
  | writeFails c e =>
    simp only [AtomicWrite.step] at h
    split at h
    · next hwas =>
      obtain ⟨done, howns, -⟩ := hs.calls c _ hwas
      split_ifs at h
      cases h
      exact hs.setPhase hwas (by simp) _ ⟨done, howns⟩
    · cases h
  | close c fails =>
    simp only [AtomicWrite.step] at h
    split at h
    · next hwas =>
      obtain ⟨done, howns, hcontent⟩ := hs.calls c _ hwas
      split_ifs at h with hrest hfails
      · cases h
        exact hs.setPhase hwas (by simp) _ ⟨done, howns⟩
      · cases h
        rw [not_not.mp hrest, List.append_nil] at hcontent
        exact hs.setPhase hwas (by simp) _ (hcontent ▸ howns)
    · cases h
  | rename c failure =>
    simp only [AtomicWrite.step] at h
    split at h
    · next hwas =>
      cases h
      exact renameStep_sound hs hwas
    · cases h
  | remove c fails =>
    simp only [AtomicWrite.step] at h
    split at h
    · next hwas =>
      cases h
      refine removeStep_sound hs hwas ?_
      rintro rfl
      simp only [harmless, hwas] at hok
      exact Option.isNone_iff_eq_none.mp hok
    · cases h

/-! ## All or nothing -/

/-- What the destination holds. -/
def State.destination (s : State) : Option Bytes :=
  s.target.bind fun file => s.files[file]?.map (·.content)

/-- What writers to one destination are promised: it holds what it held at first or all that one of
the calls wrote; a call that returned `Ok` made it its own content at some moment, and one that
returned an error never changed it; and a call renames and removes files of its own. -/
structure AllOrNothing (original : Option Bytes) (s : State) : Prop where
  destination : s.destination = original ∨
    ∃ (c : Nat) (call : WriteCall), s.calls[c]? = some call ∧ s.destination = some call.content
  committed : ∀ (c : Nat) (call : WriteCall), s.calls[c]? = some call →
    call.phase = .returned (.ok ()) → ∃ file, .renamed c file call.content ∈ s.log
  unchanged : ∀ (c : Nat) (call : WriteCall) (e : FsError), s.calls[c]? = some call →
    call.phase = .returned (.error e) → ∀ file content, .renamed c file content ∉ s.log
  own : ∀ e ∈ s.log, EventOk s e

theorem Sound.allOrNothing (hs : Sound original s) : AllOrNothing original s := by
  refine ⟨?_, fun c call hcall hphase => ?_, fun c call e hcall hphase file content hmem => ?_,
    hs.events⟩
  · cases htarget : s.target with
    | none =>
      refine .inl ?_
      rw [State.destination, htarget, hs.absent htarget]
      rfl
    | some file =>
      rw [State.destination, htarget]
      obtain ⟨content, hfile, rfl⟩ | ⟨c, call, hcall, hfile⟩ := hs.target file htarget
      · refine .inl ?_
        rw [Option.bind_some, hfile]
        rfl
      · refine .inr ⟨c, call, hcall.1, ?_⟩
        rw [Option.bind_some, hfile]
        rfl
  · have hok := hs.calls c call hcall
    unfold CallOk at hok
    rw [hphase] at hok
    exact hok
  · obtain ⟨other, hother, hsucceeded⟩ := hs.renamed c file content hmem
    obtain rfl := Option.some.inj (hcall.symm.trans hother)
    rw [hphase] at hsucceeded
    cases hsucceeded

/-- **All or nothing between writers**, in every interleaving in which no call that failed to create
its file clears a name that is taken. -/
theorem atomic_write_all_or_nothing (original : Option Bytes) (s : State)
    (h : Reach step (fun s a => harmless s a = true) (init original) s) : AllOrNothing original s :=
  (h.invariant (Sound original) (sound_init original) fun _ _ _ hs hok hstep =>
    hs.step hok hstep).allOrNothing

/-- Two calls try one name; the second finds it taken and goes on. -/
theorem atomic_write_all_or_nothing_two :
    ∃ s, Reach step (fun s a => harmless s a = true) (init (some [0])) s ∧
      s.destination = some [1, 2] ∧ AllOrNothing (some [0]) s := by
  have hrun : (run step harmless
      [.invoke [1, 2], .invoke [3], .look 0 5, .create 0 none, .look 1 5, .look 1 6, .create 1 none,
        .write 0 1, .write 1 1, .close 1 false, .rename 1 none, .write 0 1, .close 0 false,
        .rename 0 none] (init (some [0]))).any (fun s => s.destination == some [1, 2]) = true := by
    decide
  obtain ⟨s, hreach, hs⟩ := Reach.exists_of_run (fun _ _ h => h) hrun
  exact ⟨s, hreach, beq_iff_eq.mp hs, atomic_write_all_or_nothing (some [0]) s hreach⟩

/-- **A name that two calls got**: the one that cannot create it removes the file of the other, a
third call creates the name again, and the first commits that file before it is complete. -/
theorem not_atomic_write_all_or_nothing :
    ¬ ∀ (original : Option Bytes) (s : State),
      Reach step (fun _ _ => True) (init original) s → AllOrNothing original s := by
  intro hclaim
  have hrun : (run step (fun _ _ => true)
      [.invoke [1, 2], .invoke [3, 4], .invoke [5, 6], .look 0 5, .look 1 5, .create 0 none,
        .write 0 2,
        .close 0 false, .create 1 none, .remove 1 false, .look 2 5, .create 2 none, .write 2 1,
        .rename 0 none] (init none)).any
      (fun s => s.destination == some [5] && s.calls.all fun call => call.content ≠ [5]) =
        true := by
    decide
  obtain ⟨s, hreach, hs⟩ := Reach.exists_of_run (fun _ _ _ => trivial) hrun
  rw [Bool.and_eq_true, beq_iff_eq, List.all_eq_true] at hs
  obtain hnone | ⟨c, call, hcall, hcontent⟩ := (hclaim none s hreach).destination
  · cases hs.1.symm.trans hnone
  · have hne := hs.2 call (List.mem_of_getElem? hcall)
    rw [decide_eq_true_iff] at hne
    exact hne (Option.some.inj (hcontent.symm.trans hs.1))

end Libca.Fs.AtomicWrite
