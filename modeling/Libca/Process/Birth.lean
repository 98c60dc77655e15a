import Libca.Common.Strtoll

/-!
# The start time of a process (`process/ipc.cpp` 1617-1645)

* `readProcessBirth`: `read_process_birth`, with the files as a function of their paths. A cursor is
  the buffer from its position on; `none` is a read outside of the buffer.
* `fieldLoop_fields`: the twentieth token behind the name is read.
* `StatLine`, `readProcessBirth_eq`: **for every line of the form, the value of field 22, or the
  largest value when it is out of range; for every content a result.** `not_alwaysValue`: a value
  out of range.
-/

namespace Libca.Process

open Common

/-! ## The function -/

/-- `fgets` into a buffer of zeros: a line up to its newline, as far as there is room for it and a
NUL. -/
def fgets (size : Nat) (file : Bytes) : Option Bytes :=
  let line := file.takeWhile (· ≠ 10) ++ (file.dropWhile (· ≠ 10)).take 1
  let text := line.take (size - 1)
  if text = [] then none else some (text ++ List.replicate (size - text.length) 0)

/-- `strrchr`, for the part of a string from here on, with what was found before. -/
def strrchr (c : UInt8) : Option Bytes → Bytes → Option (Option Bytes)
  | _, [] => none
  | found, b :: rest =>
    let found := if b = c then some (b :: rest) else found
    if b = 0 then some found else strrchr c found rest

/-- The first inner loop: spaces and tabs are passed. -/
def passBlanks : Bytes → Option Bytes
  | [] => none
  | b :: rest => if b = 32 ∨ b = 9 then passBlanks rest else some (b :: rest)

/-- What ends a token. -/
def endsToken (b : UInt8) : Bool := b == 0 || b == 32 || b == 9 || b == 10

/-- The second inner loop: a token is passed. -/
def passToken : Bytes → Option Bytes
  | [] => none
  | b :: rest => if endsToken b then some (b :: rest) else passToken rest

/-- The string at a position, up to its NUL. -/
def cString : Bytes → Option Bytes
  | [] => none
  | b :: rest => if b = 0 then some [] else (cString rest).map (b :: ·)

/-- The loop over the fields, with the rounds that are left. -/
def fieldLoop : Nat → Bytes → Option UInt64
  | 0, _ => some 0
  | left + 1, cursor => do
    let token ← passBlanks cursor
    let b ← token.head?
    if b = 0 then return 0
    let cursor ← passToken token
    if left = 0 then
      let text ← cString token
      return strtoull text
    fieldLoop left cursor

/-- What `snprintf` writes into `path`. -/
def statPath (pid : UInt64) : Bytes :=
  (ascii "/proc/" ++ toChars 10 pid.toNat ++ ascii "/stat").take 63

/-- `read_process_birth`; a file that cannot be opened or read is none. -/
def readProcessBirth (fopen : Bytes → Option Bytes) (pid : UInt64) : Option UInt64 :=
  match (fopen (statPath pid)).bind (fgets 1024) with
  | none => some 0
  | some buffer => do
    match ← strrchr 41 none buffer with
    | none => return 0
    | some cursor => fieldLoop 20 (cursor.drop 1)

/-! ## Every content -/

theorem passBlanks_of_nul {cursor : Bytes} (h : 0 ∈ cursor) :
    ∃ b rest, passBlanks cursor = some (b :: rest) ∧ 0 ∈ b :: rest := by
  induction cursor with
  | nil => cases h
  | cons b rest ih =>
    by_cases hb : b = 32 ∨ b = 9
    · rw [passBlanks, if_pos hb]
      refine ih ((List.mem_cons.mp h).resolve_left ?_)
      rintro rfl
      exact absurd hb (by decide)
    · exact ⟨b, rest, if_neg hb, h⟩

theorem passToken_of_nul {token : Bytes} (h : 0 ∈ token) :
    ∃ cursor, passToken token = some cursor ∧ 0 ∈ cursor := by
  induction token with
  | nil => cases h
  | cons b rest ih =>
    by_cases hb : endsToken b = true
    · exact ⟨b :: rest, if_pos hb, h⟩
    · rw [passToken, if_neg hb]
      refine ih ((List.mem_cons.mp h).resolve_left ?_)
      rintro rfl
      exact hb rfl

theorem cString_of_nul {text : Bytes} (h : 0 ∈ text) : ∃ s, cString text = some s := by
  induction text with
  | nil => cases h
  | cons b rest ih =>
    by_cases hb : b = 0
    · exact ⟨[], if_pos hb⟩
    · obtain ⟨s, hs⟩ := ih ((List.mem_cons.mp h).resolve_left fun e => hb e.symm)
      exact ⟨b :: s, by rw [cString, if_neg hb, hs, Option.map_some]⟩

/-- A NUL in front of the end keeps the loop inside. -/
theorem fieldLoop_of_nul (left : Nat) {cursor : Bytes} (h : 0 ∈ cursor) :
    ∃ v, fieldLoop left cursor = some v := by
  induction left generalizing cursor with
  | zero => exact ⟨0, rfl⟩
  | succ left ih =>
    obtain ⟨b, rest, hblanks, hnul⟩ := passBlanks_of_nul h
    obtain ⟨behind, hpass, hbehind⟩ := passToken_of_nul hnul
    obtain ⟨s, hs⟩ := cString_of_nul hnul
    unfold fieldLoop
    simp only [hblanks, hpass, hs, List.head?_cons, Option.bind_eq_bind, Option.bind_some]
    split_ifs
    · exact ⟨0, rfl⟩
    · exact ⟨strtoull s, rfl⟩
    · exact ih hbehind

theorem strrchr_of_nul {c : UInt8} (hc : c ≠ 0) {text : Bytes} (h : 0 ∈ text) (found : Option Bytes)
    (hfound : ∀ s ∈ found, 0 ∈ s.drop 1) :
    ∃ result, strrchr c found text = some result ∧ ∀ s ∈ result, 0 ∈ s.drop 1 := by
  induction text generalizing found with
  | nil => cases h
  | cons b rest ih =>
    unfold strrchr
    by_cases hb : b = 0
    · rw [if_pos hb, if_neg fun e => hc (e.symm.trans hb)]
      exact ⟨found, rfl, hfound⟩
    · rw [if_neg hb]
      have hrest : 0 ∈ rest := (List.mem_cons.mp h).resolve_left fun e => hb e.symm
      refine ih hrest _ ?_
      split_ifs
      · intro s hs
        rw [← Option.some.inj hs]
        exact hrest
      · exact hfound

theorem fgets_of_some {size : Nat} (hsize : 0 < size) {file buffer : Bytes}
    (h : fgets size file = some buffer) :
    0 ∈ buffer := by
  unfold fgets at h
  dsimp only at h
  split_ifs at h
  rw [← Option.some.inj h, List.mem_append]
  refine .inr (List.mem_replicate.mpr ⟨?_, rfl⟩)
  have hle := List.length_take_le (size - 1)
    (file.takeWhile (· ≠ 10) ++ (file.dropWhile (· ≠ 10)).take 1)
  omega

theorem readProcessBirth_inside (fopen : Bytes → Option Bytes) (pid : UInt64) :
    ∃ v, readProcessBirth fopen pid = some v := by
  unfold readProcessBirth
  rcases hbuffer : (fopen (statPath pid)).bind (fgets 1024) with _ | buffer
  · exact ⟨0, rfl⟩
  · obtain ⟨file, -, hfile⟩ := Option.bind_eq_some_iff.mp hbuffer
    have hnul := fgets_of_some (by decide) hfile
    obtain ⟨result, hresult, hin⟩ := strrchr_of_nul (c := 41) (by decide) hnul none nofun
    simp only [hresult, Option.bind_eq_bind, Option.bind_some]
    cases result with
    | none => exact ⟨0, rfl⟩
    | some cursor => exact fieldLoop_of_nul 20 (hin cursor rfl)

/-! ## A line of the form -/

/-- A field behind the name. -/
def IsField (f : Bytes) : Prop := f ≠ [] ∧ ∀ b ∈ f, isSpace b = false ∧ b ≠ 0 ∧ b ≠ 40 ∧ b ≠ 41

instance (f : Bytes) : Decidable (IsField f) := inferInstanceAs (Decidable (_ ∧ _))

/-- Fields with a space in front of each. -/
def spaced (fields : List Bytes) : Bytes := fields.flatMap (32 :: ·)

/-- A line of `/proc/<pid>/stat`: the number, the name in parentheses, the fields 3 to 21, field 22,
and the rest. -/
structure StatLine where
  pid : Bytes
  pid_decimal : ∀ b ∈ pid, decimalDigit b = true
  comm : Bytes
  comm_ok : ∀ b ∈ comm, b ≠ 0 ∧ b ≠ 10
  early : List Bytes
  early_ok : ∀ f ∈ early, IsField f
  early_length : early.length = 19
  startTime : Bytes
  startTime_ne_nil : startTime ≠ []
  startTime_decimal : ∀ b ∈ startTime, decimalDigit b = true
  late : List Bytes
  late_ok : ∀ f ∈ late, IsField f

namespace StatLine

/-- The line up to field 22. -/
def upToStartTime (l : StatLine) : Bytes :=
  l.pid ++ 32 :: 40 :: l.comm ++ 41 :: spaced (l.early ++ [l.startTime])

/-- The whole line. -/
def text (l : StatLine) : Bytes := l.upToStartTime ++ (spaced l.late ++ [10])

end StatLine

theorem endsToken_of_field {f : Bytes} (hf : IsField f) :
    ∀ b ∈ f, endsToken b = false ∧ ¬ (b = 32 ∨ b = 9) := by
  intro b hb
  obtain ⟨hspace, hnul, -, -⟩ := hf.2 b hb
  have hne (c : UInt8) (hc : isSpace c = true) : b ≠ c := by
    rintro rfl
    exact absurd hc (by rw [hspace]; exact Bool.false_ne_true)
  have h32 := hne 32 rfl
  have h9 := hne 9 rfl
  have h10 := hne 10 rfl
  exact ⟨by simp [endsToken, hnul, h32, h9, h10], by simp [h32, h9]⟩

variable {b : UInt8} {rest : Bytes}

theorem passToken_append {f stop : Bytes} (hf : ∀ b ∈ f, endsToken b = false)
    (hstop : stop = b :: rest) (hb : endsToken b = true) : passToken (f ++ stop) = some stop := by
  induction f with
  | nil =>
    subst hstop
    exact if_pos hb
  | cons a f ih =>
    rw [List.cons_append, passToken, if_neg (by rw [hf a (.head _)]; exact Bool.false_ne_true)]
    exact ih fun b hb => hf b (List.mem_cons_of_mem a hb)

/-- One round reads a field with a space in front of it. -/
theorem fieldLoop_succ (left : Nat) {f stop : Bytes} (hf : IsField f)
    (hstop : stop = b :: rest) (hb : endsToken b = true) :
    fieldLoop (left + 1) (32 :: (f ++ stop)) =
      if left = 0 then (cString (f ++ stop)).map strtoull else fieldLoop left stop := by
  have hends := endsToken_of_field hf
  have hpass := passToken_append (fun b hb => (hends b hb).1) hstop hb
  obtain ⟨a, f, rfl⟩ := List.exists_cons_of_ne_nil hf.1
  have ha : a ≠ 0 := (hf.2 a (.head _)).2.1
  rw [List.cons_append] at hpass ⊢
  have hblanks : passBlanks (32 :: a :: (f ++ stop)) = some (a :: (f ++ stop)) := by
    rw [passBlanks, if_pos (.inl rfl), passBlanks, if_neg (hends a (.head _)).2]
  rw [fieldLoop, hblanks]
  simp only [hpass, List.head?_cons, Option.bind_eq_bind, Option.bind_some, if_neg ha]
  split_ifs
  · cases cString (a :: (f ++ stop)) <;> rfl
  · rfl

/-- The rounds read the fields; the last one is the result. -/
theorem fieldLoop_fields (fields : List Bytes) (hfields : ∀ f ∈ fields, IsField f)
    {last stop : Bytes}
    (hlast : IsField last) (hstop : stop = b :: rest) (hb : endsToken b = true) :
    fieldLoop (fields.length + 1) (spaced (fields ++ [last]) ++ stop) =
      (cString (last ++ stop)).map strtoull := by
  induction fields with
  | nil =>
    have hone : spaced ([] ++ [last]) ++ stop = 32 :: (last ++ stop) := by
      simp only [spaced, List.nil_append, List.flatMap_cons, List.flatMap_nil, List.append_nil,
        List.cons_append]
    rw [hone]
    exact (fieldLoop_succ 0 hlast hstop hb).trans (if_pos rfl)
  | cons f fields ih =>
    obtain ⟨hf, hfields⟩ := List.forall_mem_cons.mp hfields
    have hnext : ∃ rest', spaced (fields ++ [last]) ++ stop = 32 :: rest' := by
      cases fields with
      | nil => exact ⟨_, rfl⟩
      | cons g fields => exact ⟨_, rfl⟩
    obtain ⟨rest', hnext⟩ := hnext
    have hsplit : spaced (f :: fields ++ [last]) ++ stop =
      32 :: (f ++ (spaced (fields ++ [last]) ++ stop)) := by
      simp only [spaced, List.cons_append, List.flatMap_cons, List.append_assoc]
    rw [hsplit, List.length_cons, fieldLoop_succ _ hf hnext rfl, if_neg (Nat.succ_ne_zero _),
      ih hfields]

/-- The last of the characters in front of the NUL. -/
theorem strrchr_append {c : UInt8} (hc : c ≠ 0) {pre post : Bytes} (hpre : 0 ∉ pre)
    (hpost : ∀ b ∈ post, b ≠ 0 ∧ b ≠ c) (more : Bytes) (found : Option Bytes) :
    strrchr c found (pre ++ c :: (post ++ 0 :: more)) = some (some (c :: (post ++ 0 :: more))) := by
  have hrest : ∀ (post : Bytes) (found : Option Bytes), (∀ b ∈ post, b ≠ 0 ∧ b ≠ c) →
      strrchr c found (post ++ 0 :: more) = some found := by
    intro post
    induction post with
    | nil =>
      intro found _
      rw [List.nil_append, strrchr, if_pos rfl, if_neg hc.symm]
    | cons b post ih =>
      intro found h
      obtain ⟨⟨hb, hbc⟩, h⟩ := List.forall_mem_cons.mp h
      rw [List.cons_append, strrchr, if_neg hb, if_neg hbc]
      exact ih found h
  induction pre generalizing found with
  | nil =>
    rw [List.nil_append, strrchr, if_neg hc, if_pos rfl]
    exact hrest post _ hpost
  | cons b pre ih =>
    have hb : b ≠ 0 := fun e => hpre (e ▸ .head _)
    rw [List.cons_append, strrchr, if_neg hb]
    exact ih (fun h => hpre (List.mem_cons_of_mem b h)) _

theorem cString_append {text : Bytes} (h : 0 ∉ text) (more : Bytes) :
    cString (text ++ 0 :: more) = some text := by
  induction text with
  | nil => exact if_pos rfl
  | cons b text ih =>
    have hb : b ≠ 0 := fun e => h (e ▸ .head _)
    rw [List.cons_append, cString, if_neg hb, ih fun hin => h (List.mem_cons_of_mem b hin),
      Option.map_some]

/-- A line with its newline fits but for what is cut off. -/
theorem fgets_line (size : Nat) {body : Bytes} (hsize : 1 < size) (hbody : ∀ b ∈ body, b ≠ 10) :
    ∃ more, fgets size (body ++ [10]) = some ((body ++ [10]).take (size - 1) ++ 0 :: more) := by
  have hpass : ∀ b ∈ body, decide (b ≠ 10) = true := fun b hb => decide_eq_true (hbody b hb)
  have hline : (body ++ [10]).takeWhile (· ≠ 10) ++ ((body ++ [10]).dropWhile (· ≠ 10)).take 1 =
    body ++ [10] := by
    rw [List.takeWhile_append_of_pos hpass, List.dropWhile_append_of_pos hpass]
    simp
  have hne : (body ++ [10]).take (size - 1) ≠ [] := by
    rw [ne_eq, List.take_eq_nil_iff]
    rintro (h | h)
    · omega
    · exact List.append_ne_nil_of_right_ne_nil body (List.cons_ne_nil 10 []) h
  have hroom : size - ((body ++ [10]).take (size - 1)).length =
      (size - 1 - ((body ++ [10]).take (size - 1)).length) + 1 := by
    have hle := List.length_take_le (size - 1) (body ++ [10])
    omega
  refine ⟨List.replicate (size - 1 - ((body ++ [10]).take (size - 1)).length) 0, ?_⟩
  unfold fgets
  dsimp only
  rw [hline, if_neg hne, hroom, List.replicate_succ]

/-- No byte of a field ends the line, the string or the name. -/
theorem mem_spaced {fields : List Bytes} (h : ∀ f ∈ fields, IsField f) :
    ∀ b ∈ spaced fields, b ≠ 0 ∧ b ≠ 10 ∧ b ≠ 41 := by
  intro b hb
  obtain ⟨f, hf, hb⟩ := List.mem_flatMap.mp hb
  rcases List.mem_cons.mp hb with rfl | hb
  · decide
  · obtain ⟨hspace, hnul, -, hclose⟩ := (h f hf).2 b hb
    refine ⟨hnul, ?_, hclose⟩
    rintro rfl
    cases hspace

namespace StatLine

variable (l : StatLine)

theorem startTime_isField : IsField l.startTime := by
  refine ⟨l.startTime_ne_nil, fun b hb => ?_⟩
  have hdigit := l.startTime_decimal b hb
  refine ⟨(not_space_of_digit ((isDigitOf_ten b).trans hdigit)).1, ?_, ?_, ?_⟩ <;>
  · rintro rfl
    cases hdigit

theorem early_startTime : ∀ f ∈ l.early ++ [l.startTime], IsField f := by
  intro f hf
  rcases List.mem_append.mp hf with hf | hf
  · exact l.early_ok f hf
  · rw [List.mem_singleton.mp hf]
    exact l.startTime_isField

theorem name_ok : ∀ b ∈ l.pid ++ 32 :: 40 :: l.comm, b ≠ 0 ∧ b ≠ 10 := by
  intro b hb
  rcases List.mem_append.mp hb with hb | hb
  · have hdigit := l.pid_decimal b hb
    constructor <;>
    · rintro rfl
      cases hdigit
  · rcases List.mem_cons.mp hb with rfl | hb
    · decide
    · rcases List.mem_cons.mp hb with rfl | hb
      · decide
      · exact l.comm_ok b hb

theorem body_ok : ∀ b ∈ l.upToStartTime ++ spaced l.late, b ≠ 10 := by
  intro b hb
  rcases List.mem_append.mp hb with hb | hb
  · unfold upToStartTime at hb
    rcases List.mem_append.mp hb with hb | hb
    · exact (l.name_ok b hb).2
    · rcases List.mem_cons.mp hb with rfl | hb
      · decide
      · exact (mem_spaced l.early_startTime b hb).2.1
  · exact (mem_spaced l.late_ok b hb).2.1

/-- What is behind field 22 starts with a space or the newline. -/
theorem head_after (m : Nat) : ∀ b ∈ ((spaced l.late ++ [10]).take m).head?, b = 32 ∨ b = 10 := by
  intro b hb
  cases m with
  | zero => cases hb
  | succ m =>
    cases hlate : l.late with
    | nil =>
      rw [hlate] at hb
      exact .inr (Option.some.inj hb).symm
    | cons f late =>
      rw [hlate] at hb
      exact .inl (Option.some.inj hb).symm

end StatLine

/-- The path fits into its buffer. -/
theorem statPath_eq (pid : UInt64) :
    statPath pid = ascii "/proc/" ++ toChars 10 pid.toNat ++ ascii "/stat" := by
  have hdigits : (toChars 10 pid.toNat).length ≤ 20 := by
    have hlt := pid.toNat_lt
    unfold toChars
    split_ifs
    · decide
    · rw [List.length_reverse, List.length_map]
      exact (Nat.digits_length_le_iff (by decide) pid.toNat).mpr (by omega)
  have hproc : (ascii "/proc/").length = 6 := rfl
  have hstat : (ascii "/stat").length = 5 := rfl
  refine List.take_of_length_le ?_
  rw [List.length_append, List.length_append, hproc, hstat]
  omega

/-- **The start time of a line of the form is its field 22**, or the largest value. -/
theorem readProcessBirth_line (fopen : Bytes → Option Bytes) (pid : UInt64) (l : StatLine)
    (hfile : fopen (statPath pid) = some l.text) (hshort : l.upToStartTime.length < 1024) :
    readProcessBirth fopen pid =
      some (UInt64.ofNat (min (ofChars 10 l.startTime) (2 ^ 64 - 1))) := by
  set after := (spaced l.late ++ [10]).take (1023 - l.upToStartTime.length) with hafter
  have htext : l.text = (l.upToStartTime ++ spaced l.late) ++ [10] := (List.append_assoc ..).symm
  obtain ⟨more, hbuffer⟩ := fgets_line 1024 (by decide) l.body_ok
  have htake : l.text.take 1023 = l.upToStartTime ++ after := by
    rw [StatLine.text, List.take_append, List.take_of_length_le (by omega)]
  rw [← htext, show 1024 - 1 = 1023 from rfl, htake] at hbuffer
  -- behind the name there is no closing parenthesis
  have hpost : ∀ b ∈ spaced (l.early ++ [l.startTime]) ++ after, b ≠ 0 ∧ b ≠ 41 := by
    intro b hb
    rcases List.mem_append.mp hb with hb | hb
    · exact ⟨(mem_spaced l.early_startTime b hb).1, (mem_spaced l.early_startTime b hb).2.2⟩
    · rcases List.mem_append.mp (List.mem_of_mem_take hb) with hb | hb
      · exact ⟨(mem_spaced l.late_ok b hb).1, (mem_spaced l.late_ok b hb).2.2⟩
      · rw [List.mem_singleton.mp hb]
        decide
  have hbuffer' : (fopen (statPath pid)).bind (fgets 1024) = some ((l.pid ++ 32 :: 40 :: l.comm) ++
      41 :: (spaced (l.early ++ [l.startTime]) ++ after ++ 0 :: more)) := by
    rw [hfile, Option.bind_some, hbuffer, StatLine.upToStartTime]
    simp only [List.append_assoc, List.cons_append]
  have hname :=
    strrchr_append (c := 41) (by decide) (fun h => (l.name_ok 0 h).1 rfl) hpost more none
  unfold readProcessBirth
  rw [hbuffer']
  simp only [hname, Option.bind_eq_bind, Option.bind_some, List.drop_one, List.tail_cons]
  -- the twentieth token
  have hstop : ∃ b rest, after ++ 0 :: more = b :: rest ∧ endsToken b = true := by
    have hhead := l.head_after (1023 - l.upToStartTime.length)
    rw [← hafter] at hhead
    cases hcut : after with
    | nil => exact ⟨0, more, rfl, rfl⟩
    | cons b rest =>
      refine ⟨b, rest ++ 0 :: more, rfl, ?_⟩
      rw [hcut] at hhead
      rcases hhead b rfl with rfl | rfl <;> rfl
  obtain ⟨b, rest, hstop, hb⟩ := hstop
  have hloop := fieldLoop_fields l.early l.early_ok l.startTime_isField hstop hb
  rw [l.early_length] at hloop
  have hstring : 0 ∉ l.startTime ++ after := fun h => by
    rcases List.mem_append.mp h with h | h
    · exact (l.startTime_isField.2 0 h).2.1 rfl
    · exact (hpost 0 (List.mem_append_right _ h)).1 rfl
  rw [List.append_assoc, hloop, ← List.append_assoc, cString_append hstring, Option.map_some,
    strtoull_digits l.startTime_ne_nil]
  · exact fun b hb => (isDigitOf_ten b).trans (l.startTime_decimal b hb)
  · intro b hb
    rcases l.head_after _ b hb with rfl | rfl <;> rfl

/-- Of every line of the form, whatever the name holds, field 22 is returned, or the largest value
when it is out of range; and whatever the files hold, nothing outside of the buffer is read. -/
theorem readProcessBirth_eq :
    (∀ (fopen : Bytes → Option Bytes) (pid : UInt64) (l : StatLine),
      fopen (ascii "/proc/" ++ toChars 10 pid.toNat ++ ascii "/stat") = some l.text →
      l.upToStartTime.length < 1024 →
        readProcessBirth fopen pid =
          some (UInt64.ofNat (min (ofChars 10 l.startTime) (2 ^ 64 - 1)))) ∧
    ∀ (fopen : Bytes → Option Bytes) (pid : UInt64), ∃ v, readProcessBirth fopen pid = some v := by
  refine ⟨fun fopen pid l hfile hshort => ?_, readProcessBirth_inside⟩
  rw [← statPath_eq] at hfile
  exact readProcessBirth_line fopen pid l hfile hshort

/-- A name with a parenthesis and digits in it, and a start time. -/
def lineOf (startTime : Bytes) (hne : startTime ≠ [])
    (hdecimal : ∀ b ∈ startTime, decimalDigit b = true) :
    StatLine where
  pid := ascii "7"
  pid_decimal := by decide
  comm := ascii "a) S 1 (2"
  comm_ok := by decide
  early := List.replicate 19 (ascii "0")
  early_ok f hf := by
    rw [(List.mem_replicate.mp hf).2]
    decide
  early_length := rfl
  startTime := startTime
  startTime_ne_nil := hne
  startTime_decimal := hdecimal
  late := []
  late_ok := nofun

/-- The name is passed, and the number behind nineteen fields is read. -/
theorem readProcessBirth_eq_nested :
    (lineOf (ascii "4711") (by decide) (by decide)).upToStartTime.length < 1024 ∧
      readProcessBirth (fun _ => some (lineOf (ascii "4711") (by decide) (by decide)).text) 7 =
        some 4711 :=
  ⟨by decide, readProcessBirth_eq.1 _ 7 (lineOf (ascii "4711") (by decide) (by decide)) rfl
    (by decide)⟩

/-- The start time 2^64. -/
def largeLine : StatLine := lineOf (ascii "18446744073709551616") (by decide) (by decide)

/-- A start time out of range is not returned. -/
theorem not_alwaysValue : ¬ ∀ (fopen : Bytes → Option Bytes) (pid : UInt64) (l : StatLine),
    fopen (statPath pid) = some l.text → l.upToStartTime.length < 1024 →
      (readProcessBirth fopen pid).map UInt64.toNat = some (ofChars 10 l.startTime) := by
  intro h
  have hvalue := h (fun _ => some largeLine.text) 7 largeLine rfl (by decide)
  obtain ⟨v, -, hv⟩ := Option.map_eq_some_iff.mp hvalue
  have hlarge : ofChars 10 largeLine.startTime = 2 ^ 64 := by decide
  rw [hlarge] at hv
  exact absurd hv (Nat.ne_of_lt v.toNat_lt)

end Libca.Process
