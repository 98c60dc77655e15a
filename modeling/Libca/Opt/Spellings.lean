import Libca.Opt.Parser
import Mathlib.Data.List.TakeWhile

/-!
# Spellings of an option (`opt/opt.cpp`)

* `Spelling`: an occurrence of options in one argument (`joined`) and in several (`apart`).
* `Spelling.Severed`: an equals sign in the argument ends more than a short option.
* `spellings_same_iff`: **the two spellings give the same unless the argument is severed.**
  `not_alwaysSame`: a definition with a value.
-/

namespace Libca.Opt

open Common

/-- A long option and its value, a short option and its value, or some flags. -/
inductive Spelling
  | long (name value : Bytes)
  | short (x : UInt8) (value : Bytes)
  | cluster (flags : Bytes)

/-- An option that takes a value, which is not optional. -/
def TakesNext (arg : Arg) : Prop := arg.kind.takesValue = true ∧ arg.kind ≠ .optionalString

namespace Spelling

/-- `--name=value`, `-xvalue` or `-abc`. -/
def joined : Spelling → Bytes
  | .long name value => longPrefix ++ (name ++ equalsSign :: value)
  | .short x value => hyphen :: x :: value
  | .cluster flags => hyphen :: flags

/-- `--name value`, `-x value` or `-a -b -c`. -/
def apart : Spelling → List Bytes
  | .long name value => [longPrefix ++ name, value]
  | .short x value => [[hyphen, x], value]
  | .cluster flags => flags.map fun x => [hyphen, x]

/-- The part of the one argument before an equals sign. -/
def probe (o : Spelling) : Bytes := (splitInline o.joined).1

/-- An occurrence of options of a command; no argument is `--`, and the one argument is no alias. -/
def Occurs (lookup : Lookup) : Spelling → Prop
  | .long name value => name ≠ [] ∧ equalsSign ∉ name ∧ value ≠ [] ∧
      ∃ arg, lookup.find (longPrefix ++ name) = some arg ∧ TakesNext arg
  | .short x value => x ≠ hyphen ∧ value ≠ [] ∧
      (lookup.find (probe (.short x value)) = none ∨ (probe (.short x value)).length ≤ 2) ∧
      ∃ arg, lookup.find [hyphen, x] = some arg ∧ TakesNext arg
  | .cluster flags => 2 ≤ flags.length ∧ lookup.find (hyphen :: flags) = none ∧
      ∀ x ∈ flags, x ≠ hyphen ∧ ∃ arg, lookup.find [hyphen, x] = some arg ∧ arg.kind.takesValue =
        false

/-- What is before an equals sign in the one argument is longer than a short option. -/
def Severed : Spelling → Prop
  | .long .. => False
  | .short x value => equalsSign ∈ x :: value ∧ 2 < (probe (.short x value)).length
  | .cluster flags => equalsSign ∈ flags ∧ 2 < (probe (.cluster flags)).length

end Spelling

/-- The same result, or errors of one category. -/
def Same : Except ParseError ParseResult → Except ParseError ParseResult → Prop
  | .ok result, .ok result' => result = result'
  | .error e, .error e' => e.category = e'.category
  | _, _ => False

theorem Same.refl : ∀ r, Same r r
  | .ok _ => rfl
  | .error _ => rfl

/-! ## One argument -/

variable {p : Setup} {s : State} {arg : Arg} {token value display : Bytes} {next : Option Bytes}
  {lookup : Lookup} {result : ParseResult}

theorem splitInline_of_not_mem (h : equalsSign ∉ token) : splitInline token = (token, none) := by
  have hall : ∀ b ∈ token, decide (b ≠ equalsSign) = true := fun b hb => decide_eq_true fun e =>
    h (e ▸ hb)
  rw [splitInline, List.takeWhile_eq_self_iff.mpr hall, if_neg h]

theorem splitInline_append (h : equalsSign ∉ token) :
    splitInline (token ++ equalsSign :: value) = (token, some value) := by
  have hall : ∀ b ∈ token, decide (b ≠ equalsSign) = true := fun b hb => decide_eq_true fun e =>
    h (e ▸ hb)
  rw [splitInline, List.takeWhile_append_of_pos hall, List.dropWhile_append_of_pos hall,
    List.takeWhile_cons_of_neg (by simp), List.dropWhile_cons_of_neg (by simp), List.append_nil,
    if_pos (List.mem_append_right token (.head _)), List.drop_one, List.tail_cons]

theorem step_option (hpositional : s.onlyPositional = false) (hne : token ≠ longPrefix)
    (hhelp : (s.lookup.find token).isNone → token ≠ ascii "--help" ∧ token ≠ ascii "-h")
    (hlength : 2 ≤ token.length)
    (hhead : token.head? = some hyphen) : step p s token next = optionStep s token next := by
  have hhelp' : ¬ ((token = ascii "--help" ∨ token = ascii "-h") ∧
    (s.lookup.find token).isNone) := by
    rintro ⟨htoken, hnone⟩
    rcases htoken with htoken | htoken
    · exact (hhelp hnone).1 htoken
    · exact (hhelp hnone).2 htoken
  rw [step, if_neg (by rw [hpositional]; exact Bool.false_ne_true), if_neg hne, if_neg hhelp',
    if_pos ⟨hlength, hhead⟩]

/-- The value of an option is stored. -/
def State.take (s : State) (arg : Arg) (display value : Bytes) : Except ParseError State :=
  (fun result => { s with result }) <$> storeValue arg display value s.result

theorem consumeOptionValue_inline (harg : TakesNext arg) :
    consumeOptionValue arg display (some value) next result =
    (·, false) <$> storeValue arg display value result := by
  rw [consumeOptionValue, if_neg (not_not.mpr harg.1), if_neg harg.2]

theorem consumeOptionValue_next (harg : TakesNext arg) :
    consumeOptionValue arg display none next result = storeNext arg display next result := by
  rw [consumeOptionValue, if_neg (not_not.mpr harg.1), if_neg harg.2]

/-- A value in the argument. -/
theorem optionStep_inline {f : Option Bytes → Except ParseError (ParseResult × Bool)} (s : State)
    (h : f next = (·, false) <$> storeValue arg display value s.result) :
    Prod.map (fun result => ({ s with result } : State)) id <$> f next =
      (·, false) <$> s.take arg display value := by
  rw [h, State.take]
  cases storeValue arg display value s.result <;> rfl

/-- A value in the next argument. -/
theorem optionStep_next {f : Option Bytes → Except ParseError (ParseResult × Bool)} (s : State)
    (h : f (some value) = storeNext arg display (some value) s.result) :
    Prod.map (fun result => ({ s with result } : State)) id <$> f (some value) =
      (·, true) <$> s.take arg display value := by
  rw [h, storeNext, State.take]
  cases storeValue arg display value s.result <;> rfl

/-- Storing a value from the same argument or from the next one goes on in the same way. -/
theorem parseLoop_take {r : Except ParseError State} {token' : Bytes} (rest : List Bytes)
    (hjoined : step p s token rest.head? = (·, false) <$> r)
    (hapart : step p s token' (some value) = (·, true) <$> r) :
    parseLoop p false s (token :: rest) = parseLoop p false s (token' :: value :: rest) := by
  rw [parseLoop_cons, parseLoop_cons, List.head?_cons, hjoined, hapart]
  cases r <;> rfl

/-! ## Long options -/

theorem longOption_eq (body : Bytes) : longOption lookup (longPrefix ++ body) next result =
    match lookup.find (longPrefix ++ (splitInline body).1) with
    | none => .error (unknownOption (splitInline body).1 (longPrefix ++ (splitInline body).1))
    | some arg => consumeOptionValue arg (longPrefix ++ (splitInline body).1)
      (splitInline body).2 next result := rfl

theorem parseLoop_long (hpositional : s.onlyPositional = false) {name : Bytes} (hname : name ≠ [])
    (hequals : equalsSign ∉ name) (hfind : s.lookup.find (longPrefix ++ name) = some arg)
    (harg : TakesNext arg) (value : Bytes) (rest : List Bytes) :
    parseLoop p false s ((longPrefix ++ (name ++ equalsSign :: value)) :: rest) =
      parseLoop p false s ((longPrefix ++ name) :: value :: rest) := by
  have hlong (body : Bytes) (hbody : body ≠ []) : longPrefix ++ body ≠ longPrefix := fun h =>
    hbody (List.append_right_eq_self.mp h)
  have hlength (body : Bytes) : 2 ≤ (longPrefix ++ body).length := by
    rw [List.length_append]
    exact Nat.le_add_right 2 _
  refine parseLoop_take (r := s.take arg (longPrefix ++ name) value) rest ?_ ?_
  · rw [step_option hpositional (hlong _ (List.append_ne_nil_of_left_ne_nil hname _)) ?_
      (hlength _) rfl, optionStep, if_pos (List.prefix_append ..)]
    · refine optionStep_inline (f := fun next => longOption s.lookup _ next s.result) s ?_
      rw [longOption_eq, splitInline_append hequals]
      dsimp only
      rw [hfind]
      exact consumeOptionValue_inline harg
    · intro _
      have hmem : equalsSign ∈ longPrefix ++ (name ++ equalsSign :: value) :=
        List.mem_append_right _ (List.mem_append_right _ (.head _))
      constructor
      · intro h
        rw [h] at hmem
        exact absurd hmem (by decide)
      · intro h
        rw [h] at hmem
        exact absurd hmem (by decide)
  · rw [step_option hpositional (hlong name hname) ?_ (hlength _) rfl, optionStep,
      if_pos (List.prefix_append ..)]
    · refine optionStep_next (f := fun next => longOption s.lookup _ next s.result) s ?_
      rw [longOption_eq, splitInline_of_not_mem hequals]
      dsimp only
      rw [hfind]
      exact consumeOptionValue_next harg
    · rw [hfind]
      exact nofun

/-! ## Short options -/

/-- An argument that is not severed is taken as a short option. -/
theorem singleHyphen_eq (hprobe : lookup.find (splitInline token).1 = none ∨
      (splitInline token).1.length ≤ 2)
    (hwhole : ¬ (equalsSign ∈ token ∧ 2 < (splitInline token).1.length)) :
    singleHyphen lookup token next result = shortOption lookup token next result := by
  unfold singleHyphen
  dsimp only
  by_cases hlength : 2 < token.length ∧ 2 < (splitInline token).1.length
  · have hnot : equalsSign ∉ token := fun h => hwhole ⟨h, hlength.2⟩
    have hinline : ¬ (splitInline token).2.isSome := by
      rw [splitInline_of_not_mem hnot]
      exact Bool.false_ne_true
    rw [if_pos hlength, hprobe.resolve_right (by omega)]
    exact if_neg hinline
  · rw [if_neg hlength]

/-- A severed argument is an unknown option. -/
theorem singleHyphen_severed (hprobe : lookup.find (splitInline token).1 = none)
    (hequals : equalsSign ∈ token) (hlong : 2 < (splitInline token).1.length) :
    singleHyphen lookup token next result =
      .error (unknownOption (splitInline token).1 (splitInline token).1) := by
  have hlength : (splitInline token).1.length ≤ token.length := (List.takeWhile_sublist _).length_le
  have hinline : (splitInline token).2.isSome := by
    rw [splitInline, if_pos hequals]
    rfl
  unfold singleHyphen
  dsimp only
  rw [if_pos ⟨by omega, hlong⟩, hprobe]
  exact if_pos hinline

variable {x : UInt8}

theorem step_hyphen (hpositional : s.onlyPositional = false) (hx : x ≠ hyphen)
    (hfind : s.lookup.find [hyphen, x] = some arg) (tail : Bytes) (next : Option Bytes) :
    step p s (hyphen :: x :: tail) next = Prod.map (fun result =>
      ({ s with result } : State)) id <$>
      singleHyphen s.lookup (hyphen :: x :: tail) next s.result := by
  have hsecond {more : Bytes} : hyphen :: x :: tail ≠ hyphen :: hyphen :: more := fun h =>
    hx (List.cons.inj (List.cons.inj h).2).1
  have hprefix : ¬ longPrefix <+: hyphen :: x :: tail := by
    rintro ⟨more, hmore⟩
    exact hsecond hmore.symm
  rw [step_option hpositional hsecond ?_ (Nat.le_add_left 2 _) rfl, optionStep, if_neg hprefix]
  refine fun hnone => ⟨hsecond, fun h => ?_⟩
  have htail : tail = [] := (List.cons.inj (List.cons.inj h).2).2
  subst htail
  rw [hfind] at hnone
  cases hnone

theorem shortOption_value (hfind : lookup.find [hyphen, x] = some arg) (harg : TakesNext arg)
    (hvalue : value ≠ []) : shortOption lookup (hyphen :: x :: value) next result =
      (·, false) <$> storeValue arg [hyphen, x] value result := by
  have hlength : 2 < (hyphen :: x :: value).length :=
    Nat.add_lt_add_right (List.length_pos_iff.mpr hvalue) 2
  rw [shortOption, show (hyphen :: x :: value).take 2 = [hyphen, x] from rfl, hfind]
  dsimp only
  rw [if_neg harg.2, if_neg (not_not.mpr harg.1), if_pos hlength]
  rfl

theorem shortOption_next (hfind : lookup.find [hyphen, x] = some arg) (harg : TakesNext arg) :
    shortOption lookup [hyphen, x] next result = storeNext arg [hyphen, x] next result := by
  have hpair : ¬ 2 < [hyphen, x].length := Nat.lt_irrefl 2
  rw [shortOption, show [hyphen, x].take 2 = [hyphen, x] from rfl, hfind]
  dsimp only
  rw [if_neg harg.2, if_neg (not_not.mpr harg.1), if_neg hpair]

/-- The argument of a short option alone has no part to probe. -/
theorem singleHyphen_pair (x : UInt8) :
    singleHyphen lookup [hyphen, x] next result = shortOption lookup [hyphen, x] next result := by
  unfold singleHyphen
  have hpair : ¬ (2 < [hyphen, x].length ∧ 2 < (splitInline [hyphen, x]).1.length) :=
    fun h => Nat.lt_irrefl 2 h.1
  exact if_neg hpair

theorem step_short_next (hpositional : s.onlyPositional = false) (hx : x ≠ hyphen)
    (hfind : s.lookup.find [hyphen, x] = some arg) (harg : TakesNext arg) (value : Bytes) :
    step p s [hyphen, x] (some value) = (·, true) <$> s.take arg [hyphen, x] value := by
  rw [step_hyphen hpositional hx hfind, singleHyphen_pair]
  exact optionStep_next (f := fun next => shortOption s.lookup [hyphen, x] next s.result) s
    (shortOption_next hfind harg)

theorem parseLoop_short (hpositional : s.onlyPositional = false) (hx : x ≠ hyphen)
    (hfind : s.lookup.find [hyphen, x] = some arg) (harg : TakesNext arg) (hvalue : value ≠ [])
    (hprobe : s.lookup.find (splitInline (hyphen :: x :: value)).1 = none ∨
      (splitInline (hyphen :: x :: value)).1.length ≤ 2)
    (hwhole : ¬ (equalsSign ∈ hyphen :: x :: value ∧
      2 < (splitInline (hyphen :: x :: value)).1.length))
    (rest : List Bytes) :
    parseLoop p false s ((hyphen :: x :: value) :: rest) =
      parseLoop p false s ([hyphen, x] :: value :: rest) := by
  refine parseLoop_take (r := s.take arg [hyphen, x] value) rest ?_
    (step_short_next hpositional hx hfind harg value)
  rw [step_hyphen hpositional hx hfind, singleHyphen_eq hprobe hwhole]
  exact optionStep_inline (f := fun next =>
    shortOption s.lookup (hyphen :: x :: value) next s.result) s
    (shortOption_value hfind harg hvalue)

/-! ## Flags -/

/-- A flag of a command. -/
def IsFlag (lookup : Lookup) (x : UInt8) : Prop :=
  x ≠ hyphen ∧ ∃ arg, lookup.find [hyphen, x] = some arg ∧ arg.kind.takesValue = false

theorem kind_of_flag (harg : arg.kind.takesValue = false) :
    arg.kind ≠ .optionalString ∧ ¬ arg.kind.takesValue = true := by
  constructor
  · intro h
    rw [h] at harg
    cases harg
  · rw [harg]
    exact Bool.false_ne_true

theorem step_flag (hpositional : s.onlyPositional = false) (hx : x ≠ hyphen)
    (hfind : s.lookup.find [hyphen, x] = some arg) (harg : arg.kind.takesValue = false)
    (next : Option Bytes) :
    step p s [hyphen, x] next =
      .ok ({ s with result := s.result.put arg.name (ascii "true") .commandLine }, false) := by
  obtain ⟨hoptional, hvalue⟩ := kind_of_flag harg
  rw [step_hyphen hpositional hx hfind, singleHyphen_pair, shortOption, show [hyphen, x].take 2 =
    [hyphen, x] from rfl, hfind]
  dsimp only
  have hpair : ¬ 2 < [hyphen, x].length := Nat.lt_irrefl 2
  rw [if_neg hoptional, if_pos hvalue, if_neg hpair]
  rfl

/-- Flags in one token and flags in tokens of their own give the same result. -/
theorem flags_apart (token : Bytes) (hpositional : s.onlyPositional = false) {flags : Bytes}
    (hflags : ∀ x ∈ flags, IsFlag s.lookup x) (result : ParseResult) :
    ∃ result', flags.foldlM (clusterFlag s.lookup token) result = .ok result' ∧
      ∀ rest, parseLoop p false { s with result } (flags.map (fun x => [hyphen, x]) ++ rest) =
        parseLoop p false { s with result := result' } rest := by
  induction flags generalizing result with
  | nil => exact ⟨result, rfl, fun _ => rfl⟩
  | cons x flags ih =>
    obtain ⟨⟨hx, arg, hfind, harg⟩, hflags⟩ := List.forall_mem_cons.mp hflags
    obtain ⟨result', hfold, hloop⟩ := ih hflags (result.put arg.name (ascii "true") .commandLine)
    refine ⟨result', ?_, fun rest => ?_⟩
    · have hone : clusterFlag s.lookup token result x =
        .ok (result.put arg.name (ascii "true") .commandLine) := by
        rw [clusterFlag, hfind]
        exact if_neg (kind_of_flag harg).2
      rw [List.foldlM_cons, hone]
      exact hfold
    · rw [← hloop rest, List.map_cons, List.cons_append, parseLoop_cons,
        step_flag (s := { s with result }) hpositional hx hfind harg]
      rfl

theorem parseLoop_cluster (hpositional : s.onlyPositional = false) {flags : Bytes}
    (hlength : 2 ≤ flags.length) (hflags : ∀ x ∈ flags, IsFlag s.lookup x)
    (hprobe : s.lookup.find (splitInline (hyphen :: flags)).1 = none ∨
      (splitInline (hyphen :: flags)).1.length ≤ 2)
    (hwhole : ¬ (equalsSign ∈ hyphen :: flags ∧ 2 < (splitInline (hyphen :: flags)).1.length))
    (rest : List Bytes) :
    parseLoop p false s ((hyphen :: flags) :: rest) =
      parseLoop p false s (flags.map (fun x => [hyphen, x]) ++ rest) := by
  obtain ⟨result', hfold, hloop⟩ :=
    flags_apart (p := p) (hyphen :: flags) hpositional hflags s.result
  obtain ⟨x, tail, rfl⟩ :=
    List.exists_cons_of_length_pos (Nat.lt_of_lt_of_le Nat.zero_lt_two hlength)
  obtain ⟨hx, arg, hfind, harg⟩ := hflags x (.head _)
  obtain ⟨hoptional, hvalue⟩ := kind_of_flag harg
  have hcluster : shortOption s.lookup (hyphen :: x :: tail) rest.head? s.result =
    .ok (result', false) := by
    rw [shortOption, show (hyphen :: x :: tail).take 2 = [hyphen, x] from rfl, hfind]
    dsimp only
    have hmore : 2 < (hyphen :: x :: tail).length := Nat.succ_lt_succ hlength
    rw [if_neg hoptional, if_pos hvalue, if_pos hmore, flagCluster, List.drop_one, List.tail_cons,
      hfold]
    rfl
  rw [hloop rest, parseLoop_cons, step_hyphen hpositional hx hfind, singleHyphen_eq hprobe hwhole,
    hcluster]
  rfl

/-! ## A severed argument -/

variable {e : ParseError}

/-- What is stored, and what a command ends with, is never an unknown option. -/
theorem storeValue_category (h : storeValue arg display value result = .error e) :
    e.category ≠ .unknownOption := by
  unfold storeValue at h
  split at h
  · cases h
    exact nofun
  · split at h
    · split at h
      · cases h
        exact nofun
      · cases h
    · cases h
    · cases h

theorem forM_category {α : Type} {f : α → Except ParseError Unit}
    (hf : ∀ a e, f a = .error e → e.category ≠ .unknownOption) (xs : List α) :
    ∀ e, xs.forM f = .error e → e.category ≠ .unknownOption := by
  induction xs with
  | nil => exact nofun
  | cons x xs ih =>
    intro e h
    change (f x).bind (fun _ => xs.forM f) = .error e at h
    rcases hx : f x with e' | _
    · rw [hx] at h
      cases h
      exact hf x e hx
    · rw [hx] at h
      exact ih e h

theorem finalize_category {cmd : Command} (h : finalize cmd result = .error e) :
    e.category ≠ .unknownOption := by
  unfold finalize at h
  generalize hcheck : (fun arg : Arg => (if arg.required ∧ arg.kind.takesValue ∧
    ¬ result.has arg.name then
      Except.error ⟨.missingRequired, arg.name, ascii "missing required option: --" ++ arg.name, []⟩
    else .ok () : Except ParseError Unit)) = check at h
  rcases hargs : cmd.args.forM check with e' | _
  · rw [hargs] at h
    cases h
    refine forM_category (fun arg e h => ?_) cmd.args e hargs
    rw [← hcheck] at h
    dsimp only at h
    split_ifs at h
    cases h
    exact nofun
  · rw [hargs] at h
    refine forM_category (fun group e h => ?_) cmd.mutexGroups e h
    dsimp only at h
    split_ifs at h
    · cases h
      exact nofun
    · cases h
      exact nofun

theorem conclude_category (h : conclude s = .error e) : e.category ≠ .unknownOption := by
  unfold conclude at h
  rcases hfinalize : finalize s.current s.result with e' | _
  · rw [hfinalize] at h
    cases h
    exact finalize_category hfinalize
  · rw [hfinalize] at h
    cases h

namespace Spelling

variable {o : Spelling}

/-- The occurrence apart, at the end of a command line, is no unknown option. -/
theorem apart_category (hpositional : s.onlyPositional = false) (ho : o.Occurs s.lookup)
    (hsevered : o.Severed)
    {e : ParseError} (h : (parseLoop p false s o.apart).bind conclude = .error e) :
    e.category ≠ .unknownOption := by
  cases o with
  | long name value => exact hsevered.elim
  | short x value =>
    obtain ⟨hx, -, -, arg, hfind, harg⟩ := ho
    change ((step p s [hyphen, x] (some value)).bind fun r => parseLoop p r.2 r.1 [value]).bind
      conclude = _ at h
    rw [step_short_next hpositional hx hfind harg, State.take] at h
    rcases hstore : storeValue arg [hyphen, x] value s.result with e' | result
    · rw [hstore] at h
      cases h
      exact storeValue_category hstore
    · rw [hstore] at h
      exact conclude_category h
  | cluster flags =>
    obtain ⟨-, -, hflags⟩ := ho
    obtain ⟨result', -, hloop⟩ := flags_apart (p := p) [] hpositional hflags s.result
    have hend := hloop []
    rw [List.append_nil] at hend
    change (parseLoop p false s (flags.map fun x => [hyphen, x])).bind conclude = _ at h
    rw [hend] at h
    exact conclude_category h

/-- The occurrence in one argument that is severed is one. -/
theorem parseLoop_severed (hpositional : s.onlyPositional = false) (ho : o.Occurs s.lookup)
    (hsevered : o.Severed) (hprobe : s.lookup.find o.probe = none) (rest : List Bytes) :
    parseLoop p false s (o.joined :: rest) = .error (unknownOption o.probe o.probe) := by
  have hstep {x : UInt8} {tail : Bytes} {arg : Arg} (hx : x ≠ hyphen)
    (hfind : s.lookup.find [hyphen, x] = some arg)
      (hjoined : o.joined = hyphen :: x :: tail) (hequals : equalsSign ∈ o.joined)
        (hlong : 2 < o.probe.length) :
      parseLoop p false s (o.joined :: rest) = .error (unknownOption o.probe o.probe) := by
    have herror : singleHyphen s.lookup o.joined rest.head? s.result =
      .error (unknownOption o.probe o.probe) :=
      singleHyphen_severed hprobe hequals hlong
    rw [parseLoop_cons, hjoined, step_hyphen hpositional hx hfind, ← hjoined, herror]
    rfl
  cases o with
  | long name value => exact hsevered.elim
  | short x value =>
    obtain ⟨hx, -, -, arg, hfind, -⟩ := ho
    exact hstep hx hfind rfl (.tail _ hsevered.1) hsevered.2
  | cluster flags =>
    obtain ⟨hlength, -, hflags⟩ := ho
    obtain ⟨x, tail, rfl⟩ :=
      List.exists_cons_of_length_pos (Nat.lt_of_lt_of_le Nat.zero_lt_two hlength)
    obtain ⟨hx, arg, hfind, -⟩ := hflags x (.head _)
    exact hstep hx hfind rfl (.tail _ hsevered.1) hsevered.2

/-- An argument that is not severed is parsed as the arguments apart. -/
theorem parseLoop_whole (hpositional : s.onlyPositional = false) (ho : o.Occurs s.lookup)
    (hsevered : ¬ o.Severed)
    (rest : List Bytes) :
    parseLoop p false s (o.joined :: rest) = parseLoop p false s (o.apart ++ rest) := by
  cases o with
  | long name value =>
    obtain ⟨hname, hequals, -, arg, hfind, harg⟩ := ho
    exact parseLoop_long hpositional hname hequals hfind harg value rest
  | short x value =>
    obtain ⟨hx, hvalue, hprobe, arg, hfind, harg⟩ := ho
    refine parseLoop_short hpositional hx hfind harg hvalue hprobe (fun h =>
      hsevered ⟨?_, h.2⟩) rest
    exact (List.mem_cons.mp h.1).resolve_left (by decide)
  | cluster flags =>
    obtain ⟨hlength, htoken, hflags⟩ := ho
    refine parseLoop_cluster hpositional hlength hflags ?_ (fun h => hsevered ⟨?_, h.2⟩) rest
    · by_cases hequals : equalsSign ∈ hyphen :: flags
      · refine .inr (Nat.le_of_not_lt fun hlong => hsevered ⟨?_, hlong⟩)
        exact (List.mem_cons.mp hequals).resolve_left (by decide)
      · rw [splitInline_of_not_mem hequals]
        exact .inl htoken
    · exact (List.mem_cons.mp h.1).resolve_left (by decide)

end Spelling

/-! ## The two spellings -/

theorem parse_append {before : List Bytes} (h : reach p before = .ok s) (more : List Bytes) :
    parse p (before ++ more) = (parseLoop p false s more).bind conclude := by
  rcases henter : enter p.initials p.root {} [] with e | s₀
  · rw [reach, henter] at h
    nomatch h
  · rw [reach, henter] at h
    rw [parse, reach, henter]
    exact congrArg (·.bind conclude)
      ((parseLoop_append p before more false s₀ (fun h => nomatch h)).1 s h)

/-- A command line that fails before the end fails in the same way whatever follows. -/
theorem parse_append_error {before : List Bytes} (h : reach p before = .error e)
    (he : e.category ≠ .missingValue) (more : List Bytes) : parse p (before ++ more) =
      .error e := by
  rcases henter : enter p.initials p.root {} [] with e' | s₀
  · rw [reach, henter] at h
    rw [parse, reach, henter]
    cases h
    rfl
  · rw [reach, henter] at h
    rw [parse, reach, henter]
    exact congrArg (·.bind conclude)
      ((parseLoop_append p before more false s₀ (fun h => nomatch h)).2 e h he)

/-- **An occurrence before `--` may be spelled in either way unless its argument is severed.** Where
the part before the equals sign is no alias, a severed argument is an unknown option, which the
arguments apart are not. -/
theorem spellings_same_iff (p : Setup) (before : List Bytes) (o : Spelling) :
    (∀ e, reach p before = .error e → e.category ≠ .missingValue → ∀ rest,
      Same (parse p (before ++ o.joined :: rest)) (parse p (before ++ (o.apart ++ rest)))) ∧
    ∀ s, reach p before = .ok s → s.onlyPositional = false → o.Occurs s.lookup →
      (¬ o.Severed → ∀ rest, Same (parse p (before ++ o.joined :: rest))
      (parse p (before ++ (o.apart ++ rest)))) ∧ ((o.Severed → s.lookup.find o.probe = none) →
        ((∀ rest, Same (parse p (before ++ o.joined :: rest))
      (parse p (before ++ (o.apart ++ rest)))) ↔ ¬ o.Severed)) := by
  constructor
  · intro e h he rest
    rw [parse_append_error h he, parse_append_error h he]
    exact Same.refl _
  · intro s h hpositional ho
    have hwhole (hsevered : ¬ o.Severed) (rest : List Bytes) :
        Same (parse p (before ++ o.joined :: rest)) (parse p (before ++ (o.apart ++ rest))) := by
      rw [parse_append h, parse_append h, Spelling.parseLoop_whole hpositional ho hsevered]
      exact Same.refl _
    refine ⟨hwhole, fun hprobe => ⟨fun hsame hsevered => ?_, hwhole⟩⟩
    have hend := hsame []
    rw [parse_append h, parse_append h, Spelling.parseLoop_severed hpositional ho hsevered
      (hprobe hsevered), List.append_nil] at hend
    rcases hparse : (parseLoop p false s o.apart).bind conclude with e | result
    · rw [hparse] at hend
      exact Spelling.apart_category hpositional ho hsevered hparse hend.symm
    · rw [hparse] at hend
      exact hend

/-- A command with an option `-D`. -/
def defineArg : Arg := { name := ascii "define", aliases := [ascii "-D"] }

def defineSetup : Setup := { root := { name := ascii "cc", args := [defineArg] } }

/-- The state in front of the first argument. -/
def defineState : State :=
  { current := defineSetup.root, lookup := [(ascii "--define", defineArg), (ascii "-D", defineArg)],
    result := {} }

theorem reach_define : reach defineSetup [] = .ok defineState := rfl

/-- A definition without an equals sign. -/
theorem spellings_same_iff_define :
    Same (parse defineSetup [ascii "-DFOO"]) (parse defineSetup [ascii "-D", ascii "FOO"]) :=
  ((spellings_same_iff defineSetup [] (.short 68 (ascii "FOO"))).2 defineState reach_define rfl
    ⟨by decide, by decide, .inl rfl, defineArg, rfl, rfl, by decide⟩).1 (fun h =>
      absurd h.1 (by decide)) []

/-- `-DFOO=1` and `-D FOO=1` are not the same. -/
theorem not_alwaysSame : ¬ ∀ (p : Setup) (before : List Bytes) (o : Spelling) (s : State),
    reach p before = .ok s → s.onlyPositional = false → o.Occurs s.lookup → ∀ rest,
      Same (parse p (before ++ o.joined :: rest)) (parse p (before ++ (o.apart ++ rest))) := by
  intro h
  exact h defineSetup [] (.short 68 (ascii "FOO=1")) defineState reach_define rfl
    ⟨by decide, by decide, .inl rfl, defineArg, rfl, rfl, by decide⟩ []

end Libca.Opt
