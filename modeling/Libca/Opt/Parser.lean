import Libca.Opt.Command

/-!
# `Parser::parse`

Model of `render_help`, `Parser::consume_option_value` and `Parser::parse` (`opt/opt.cpp`). The
arguments after the program name are a list; a step is given one of them and the one after it, and
says whether it took that one too.

* `step`: one turn of the loop.
* `parse`: the whole command line.
* `parseLoop_append`: a command line is parsed in two parts, where the first part is whole.
-/

namespace Libca.Opt

open Common

/-! ## Help -/

/-- `mutex_suffix`. -/
def mutexSuffix (cmd : Command) (argName : Bytes) : Bytes :=
  let groups := cmd.mutexGroups.filter fun group => group.names.contains argName
  if groups = [] then []
  else if groups.any (·.required) then ascii " [exclusive, one required]" else ascii " [exclusive]"

/-- `kind_metavar`. -/
def kindMetavar (arg : Arg) : Bytes :=
  if arg.kind = .optionalString then
    if arg.metavar = [] then ascii "[=value]" else ascii "[=" ++ arg.metavar ++ ascii "]"
  else if arg.metavar ≠ [] then arg.metavar
  else
    match arg.kind with
    | .int => ascii "<int>"
    | .stringList => ascii "<list>"
    | .string => ascii "<value>"
    | _ => []

/-- `render_option_row`. -/
def optionRow (cmd : Command) (arg : Arg) : Bytes :=
  let tokens := (longPrefix ++ arg.name) ::
    arg.aliases.takeWhile fun name => decide (2 ≤ name.length ∧ name.head? = some hyphen)
  let metavar := kindMetavar arg
  ascii "  " ++ (ascii ", ").intercalate tokens ++ (if metavar ≠ [] then
    ascii " " ++ metavar else []) ++
    ascii "\n      " ++ arg.help ++
    (if arg.kind = .stringList then ascii " (repeatable or comma-separated)" else []) ++
    (if metavar ≠ [] ∧ arg.defaultValue ≠ [] ∧ arg.kind ≠ .stringList ∧ arg.kind ≠ .flag then
      ascii " (default: " ++ arg.defaultValue ++ ascii ")" else []) ++
    (if arg.required then ascii " [required]" else []) ++ mutexSuffix cmd arg.name ++ ascii "\n"

/-- `render_help`; no groups are no filter. -/
def renderHelp (cmd : Command) (path : List Bytes) (groups : List Bytes) : Bytes :=
  let positionals := cmd.args.filter (·.kind = .positional)
  let options := cmd.args.filter (·.kind ≠ .positional)
  let usage :=
    if cmd.usage ≠ [] then cmd.usage
    else path.flatMap (· ++ ascii " ") ++ ascii "[options]" ++
      positionals.flatMap (fun arg => ascii " <" ++ arg.name ++ ascii ">") ++
      if cmd.subcommands.isEmpty then [] else ascii " <subcommand>"
  let ungrouped := options.filter fun arg => arg.group = [] ∧ groups = []
  let labels := (options.map (·.group)).filter fun label => label ≠ [] ∧
    (groups = [] ∨ label ∈ groups)
  ascii "Usage: " ++ usage ++ ascii "\n\n" ++ cmd.help ++ ascii "\n" ++
    (if positionals = [] then [] else ascii "\nArguments:\n") ++
    positionals.flatMap (fun arg => ascii "  <" ++ arg.name ++ ascii ">\n      " ++ arg.help ++
      ascii "\n") ++
    (if ungrouped = [] then [] else ascii "\nOptions:\n") ++ ungrouped.flatMap (optionRow cmd) ++
    labels.eraseDups.flatMap (fun label => ascii "\n" ++ label ++ ascii ":\n" ++
      (options.filter (·.group = label)).flatMap (optionRow cmd)) ++
    if cmd.subcommands.isEmpty then []
    else ascii "\nSubcommands:\n" ++
      cmd.subcommands.flatMap fun sub => ascii "  " ++ sub.name ++ ascii "\n      " ++ sub.help ++
        ascii "\n"

/-! ## Options -/

/-- A value for an option that takes one, under the name that errors show. -/
def storeValue (arg : Arg) (display value : Bytes) (result : ParseResult) :
    Except ParseError ParseResult :=
  if value = [] then
    .error ⟨.emptyValue, arg.name, ascii "option " ++ display ++
      ascii " requires a non-empty value", []⟩
  else
    match arg.kind with
    | .int =>
      if (parseIntStrict value).isNone then
        .error ⟨.invalidInteger, arg.name,
          ascii "option " ++ display ++ ascii " expects an integer, got '" ++ value ++ ascii "'",
            []⟩
      else .ok (result.put arg.name value .commandLine)
    | .stringList =>
      .ok ((result.append arg.name (splitComma value)).put arg.name value .commandLine)
    | _ => .ok (result.put arg.name value .commandLine)

/-- The value in the argument after the option. -/
def storeNext (arg : Arg) (display : Bytes) (next : Option Bytes) (result : ParseResult) :
    Except ParseError (ParseResult × Bool) :=
  match next with
  | none =>
    .error ⟨.missingValue, arg.name, ascii "option " ++ display ++ ascii " requires a value", []⟩
  | some value => (·, true) <$> storeValue arg display value result

/-- `consume_option_value`, and whether the next argument was taken. -/
def consumeOptionValue (arg : Arg) (display : Bytes) (inlineValue next : Option Bytes)
    (result : ParseResult) :
    Except ParseError (ParseResult × Bool) :=
  if ¬ arg.kind.takesValue then
    if inlineValue.isSome then
      .error ⟨.unexpectedArgument, arg.name, ascii "option " ++ display ++
        ascii " does not take a value", []⟩
    else .ok (result.put arg.name (ascii "true") .commandLine, false)
  else if arg.kind = .optionalString then
    .ok (result.put arg.name (inlineValue.getD []) .commandLine, false)
  else
    match inlineValue with
    | some value => (·, false) <$> storeValue arg display value result
    | none => storeNext arg display next result

def equalsSign : UInt8 := 0x3D

/-- What stands before the first `=`, and what after it, if there is one. -/
def splitInline (text : Bytes) : Bytes × Option Bytes :=
  (text.takeWhile (· ≠ equalsSign),
    if equalsSign ∈ text then some ((text.dropWhile (· ≠ equalsSign)).drop 1) else none)

def unknownOption (option name : Bytes) : ParseError :=
  ⟨.unknownOption, option, ascii "unknown option: " ++ name, []⟩

/-- A token that begins with `--`. -/
def longOption (lookup : Lookup) (token : Bytes) (next : Option Bytes) (result : ParseResult) :
    Except ParseError (ParseResult × Bool) :=
  let (body, inlineValue) := splitInline (token.drop 2)
  match lookup.find (longPrefix ++ body) with
  | none => .error (unknownOption body (longPrefix ++ body))
  | some arg => consumeOptionValue arg (longPrefix ++ body) inlineValue next result

/-- One of the flags in a token. -/
def clusterFlag (lookup : Lookup) (token : Bytes) (result : ParseResult) (ch : UInt8) :
    Except ParseError ParseResult :=
  match lookup.find [hyphen, ch] with
  | none => .error (unknownOption [hyphen, ch] [hyphen, ch])
  | some arg =>
    if arg.kind.takesValue then
      .error ⟨.unexpectedArgument, arg.name, ascii "option " ++ [hyphen, ch] ++
        ascii " takes a value; cannot combine in -" ++ token.drop 1, []⟩
    else .ok (result.put arg.name (ascii "true") .commandLine)

/-- `-abc`: some flags in one token. -/
def flagCluster (lookup : Lookup) (token : Bytes) (result : ParseResult) :
    Except ParseError ParseResult :=
  (token.drop 1).foldlM (clusterFlag lookup token) result

/-- A token that begins with `-` and another character, after no alias of several characters was
found. -/
def shortOption (lookup : Lookup) (token : Bytes) (next : Option Bytes) (result : ParseResult) :
    Except ParseError (ParseResult × Bool) :=
  match lookup.find (token.take 2) with
  | none => .error (unknownOption token token)
  | some arg =>
    if arg.kind = .optionalString then
      .ok (result.put arg.name (if 2 < token.length then token.drop 2 else []) .commandLine, false)
    else if ¬ arg.kind.takesValue then
      if 2 < token.length then (·, false) <$> flagCluster lookup token result
      else .ok (result.put arg.name (ascii "true") .commandLine, false)
    else if 2 < token.length then (·, false) <$> storeValue arg (token.take 2) (token.drop 2) result
    else storeNext arg (token.take 2) next result

/-- A token that begins with `-` and another character. -/
def singleHyphen (lookup : Lookup) (token : Bytes) (next : Option Bytes) (result : ParseResult) :
    Except ParseError (ParseResult × Bool) :=
  let (probe, inlineValue) := splitInline token
  if 2 < token.length ∧ 2 < probe.length then
    match lookup.find probe with
    | some arg => consumeOptionValue arg probe inlineValue next result
    | none =>
      if inlineValue.isSome then .error (unknownOption probe probe)
      else shortOption lookup token next result
  else shortOption lookup token next result

/-! ## Commands -/

/-- The required options and the mutex groups of a command that ends. -/
def finalize (cmd : Command) (result : ParseResult) : Except ParseError Unit := do
  cmd.args.forM fun arg =>
    if arg.required ∧ arg.kind.takesValue ∧ ¬ result.has arg.name then
      .error ⟨.missingRequired, arg.name, ascii "missing required option: --" ++ arg.name, []⟩
    else .ok ()
  checkMutexGroups cmd result

/-- An invalid definition. -/
def invalidDefinition {α : Type} : Except Bytes α → Except ParseError α
  | .ok a => .ok a
  | .error message => .error ⟨.invalidDefinition, [], message, []⟩

/-- What the loop of `parse` keeps. -/
structure State where
  current : Command
  lookup : Lookup
  result : ParseResult
  path : List Bytes := []
  onlyPositional : Bool := false

/-- The options of a command with their initial values, after what is parsed so far. -/
def enter (initials : AList fun _ : Bytes => Bytes) (cmd : Command) (result : ParseResult)
    (path : List Bytes) :
    Except ParseError State := do
  let lookup ← invalidDefinition (buildLookup cmd)
  invalidDefinition (validateMutexGroups cmd)
  let result ← seedOptionValues cmd initials result
  return { current := cmd, lookup, result, path }

/-- A command and its initial values, which all turns of the loop are given. -/
structure Setup where
  root : Command
  initials : AList fun _ : Bytes => Bytes := ∅

/-- A token that is an option. -/
def optionStep (s : State) (token : Bytes) (next : Option Bytes) :
    Except ParseError (State × Bool) :=
  Prod.map (fun result => { s with result }) id <$>
    if longPrefix <+: token then longOption s.lookup token next s.result
    else singleHyphen s.lookup token next s.result

/-- One turn of the loop, and whether it took the next argument too. -/
def step (p : Setup) (s : State) (token : Bytes) (next : Option Bytes) :
    Except ParseError (State × Bool) :=
  if s.onlyPositional then
    .ok ({ s with result := { s.result with positionals := s.result.positionals ++ [token] } },
      false)
  else if token = longPrefix then .ok ({ s with onlyPositional := true }, false)
  else if (token = ascii "--help" ∨ token = ascii "-h") ∧ (s.lookup.find token).isNone then
    .error ⟨.helpRequested, [], renderHelp s.current (p.root.name :: s.path) [], []⟩
  else if 2 ≤ token.length ∧ token.head? = some hyphen then optionStep s token next
  else
    match findSubcommand s.current token with
    | some sub => do
      finalize s.current s.result
      let s ← enter p.initials sub s.result (s.path ++ [sub.name])
      return (s, false)
    | none =>
      if hasPositionalSpec s.current then
        .ok ({ s with result := { s.result with positionals := s.result.positionals ++ [token] } },
          false)
      else .error ⟨.unexpectedArgument, token, ascii "unexpected argument: " ++ token, []⟩

/-- The loop of `parse`, where the first argument may be taken already. -/
def parseLoop (p : Setup) : Bool → State → List Bytes → Except ParseError State
  | _, s, [] => .ok s
  | true, s, _ :: rest => parseLoop p false s rest
  | false, s, token :: rest => do
    let (s, taken) ← step p s token rest.head?
    parseLoop p taken s rest

/-- The end of `parse`. -/
def conclude (s : State) : Except ParseError ParseResult := do
  finalize s.current s.result
  return { s.result with subcommandPath := s.path }

/-- What the loop reaches from the root command. -/
def reach (p : Setup) (argv : List Bytes) : Except ParseError State := do
  let s ← enter p.initials p.root {} []
  parseLoop p false s argv

/-- `parse`, of the arguments after the program name. -/
def parse (p : Setup) (argv : List Bytes) : Except ParseError ParseResult :=
  reach p argv >>= conclude

/-! ## A command line in two parts -/

section Append

variable {α β : Type}

/-- What ends without a next argument does not read it, unless the argument is what it misses. -/
def IgnoresNext (f : Option Bytes → Except ParseError (α × Bool)) : Prop :=
  (∀ a taken, f none = .ok (a, taken) → taken = false ∧ ∀ next, f next = .ok (a, false)) ∧
    ∀ e, f none = .error e → e.category ≠ .missingValue → ∀ next, f next = .error e

theorem ignoresNext_const (r : Except ParseError α) : IgnoresNext fun _ => (·, false) <$> r := by
  constructor
  · intro a taken h
    cases r with
    | error e => nomatch h
    | ok b =>
      cases h
      exact ⟨rfl, fun _ => rfl⟩
  · intro e h _ _
    exact h

theorem ignoresNext_error (e : ParseError) :
    IgnoresNext fun _ => (.error e : Except ParseError (α × Bool)) :=
  ignoresNext_const (.error e)

theorem ignoresNext_storeNext (arg : Arg) (display : Bytes) (result : ParseResult) :
    IgnoresNext fun next => storeNext arg display next result := by
  refine ⟨nofun, fun e h hne => ?_⟩
  cases h
  exact absurd rfl hne

theorem ignoresNext_consumeOptionValue (arg : Arg) (display : Bytes) (inlineValue : Option Bytes)
    (result : ParseResult) :
    IgnoresNext fun next => consumeOptionValue arg display inlineValue next result := by
  unfold consumeOptionValue
  by_cases hkind : ¬ arg.kind.takesValue
  · simp only [if_pos hkind]
    by_cases hinline : inlineValue.isSome
    · simp only [if_pos hinline]
      exact ignoresNext_error _
    · simp only [if_neg hinline]
      exact ignoresNext_const (.ok _)
  · simp only [if_neg hkind]
    by_cases hoptional : arg.kind = .optionalString
    · simp only [if_pos hoptional]
      exact ignoresNext_const (.ok _)
    · simp only [if_neg hoptional]
      cases inlineValue with
      | some value => exact ignoresNext_const _
      | none => exact ignoresNext_storeNext arg display result

theorem ignoresNext_longOption (lookup : Lookup) (token : Bytes) (result : ParseResult) :
    IgnoresNext fun next => longOption lookup token next result := by
  unfold longOption
  dsimp only
  cases lookup.find (longPrefix ++ (splitInline (token.drop 2)).1) with
  | none => exact ignoresNext_error _
  | some arg => exact ignoresNext_consumeOptionValue arg _ _ result

theorem ignoresNext_shortOption (lookup : Lookup) (token : Bytes) (result : ParseResult) :
    IgnoresNext fun next => shortOption lookup token next result := by
  unfold shortOption
  cases lookup.find (token.take 2) with
  | none => exact ignoresNext_error _
  | some arg =>
    dsimp only
    by_cases hoptional : arg.kind = .optionalString
    · simp only [if_pos hoptional]
      exact ignoresNext_const (.ok _)
    · simp only [if_neg hoptional]
      by_cases hkind : ¬ arg.kind.takesValue
      · simp only [if_pos hkind]
        by_cases hlength : 2 < token.length
        · simp only [if_pos hlength]
          exact ignoresNext_const _
        · simp only [if_neg hlength]
          exact ignoresNext_const (.ok _)
      · simp only [if_neg hkind]
        by_cases hlength : 2 < token.length
        · simp only [if_pos hlength]
          exact ignoresNext_const _
        · simp only [if_neg hlength]
          exact ignoresNext_storeNext arg _ result

theorem ignoresNext_singleHyphen (lookup : Lookup) (token : Bytes) (result : ParseResult) :
    IgnoresNext fun next => singleHyphen lookup token next result := by
  unfold singleHyphen
  dsimp only
  by_cases hprobe : 2 < token.length ∧ 2 < (splitInline token).1.length
  · simp only [if_pos hprobe]
    cases lookup.find (splitInline token).1 with
    | some arg => exact ignoresNext_consumeOptionValue arg _ _ result
    | none =>
      by_cases hinline : (splitInline token).2.isSome
      · simp only [if_pos hinline]
        exact ignoresNext_error _
      · simp only [if_neg hinline]
        exact ignoresNext_shortOption lookup token result
  · simp only [if_neg hprobe]
    exact ignoresNext_shortOption lookup token result

theorem IgnoresNext.map {f : Option Bytes → Except ParseError (α × Bool)} (hf : IgnoresNext f)
    (g : α → β) :
    IgnoresNext fun next => Prod.map g id <$> f next := by
  constructor
  · intro b taken h
    dsimp only at h
    rcases hnone : f none with e | ⟨a, taken'⟩
    · rw [hnone] at h
      nomatch h
    · obtain ⟨rfl, hall⟩ := hf.1 a taken' hnone
      rw [hnone] at h
      cases h
      refine ⟨rfl, fun next => ?_⟩
      dsimp only
      rw [hall next]
      rfl
  · intro e h hne next
    dsimp only at h
    rcases hnone : f none with e' | ⟨a, taken'⟩
    · rw [hnone] at h
      cases h
      dsimp only
      rw [hf.2 _ hnone hne next]
      rfl
    · rw [hnone] at h
      nomatch h

theorem ignoresNext_optionStep (s : State) (token : Bytes) : IgnoresNext (optionStep s token) := by
  unfold optionStep
  by_cases hlong : longPrefix <+: token
  · simp only [if_pos hlong]
    exact (ignoresNext_longOption s.lookup token s.result).map _
  · simp only [if_neg hlong]
    exact (ignoresNext_singleHyphen s.lookup token s.result).map _

theorem ignoresNext_step (p : Setup) (s : State)
    (token : Bytes) : IgnoresNext (step p s token) := by
  unfold step
  by_cases hpositional : s.onlyPositional = true
  · simp only [if_pos hpositional]
    exact ignoresNext_const (.ok _)
  simp only [if_neg hpositional]
  by_cases hterminator : token = longPrefix
  · simp only [if_pos hterminator]
    exact ignoresNext_const (.ok _)
  simp only [if_neg hterminator]
  by_cases hhelp : (token = ascii "--help" ∨ token = ascii "-h") ∧ (s.lookup.find token).isNone
  · simp only [if_pos hhelp]
    exact ignoresNext_error _
  simp only [if_neg hhelp]
  by_cases hoption : 2 ≤ token.length ∧ token.head? = some hyphen
  · simp only [if_pos hoption]
    exact ignoresNext_optionStep s token
  simp only [if_neg hoption]
  cases findSubcommand s.current token with
  | some sub =>
    dsimp only
    cases finalize s.current s.result with
    | error e => exact ignoresNext_error e
    | ok _ => exact ignoresNext_const (enter p.initials sub s.result (s.path ++ [sub.name]))
  | none =>
    by_cases hspec : hasPositionalSpec s.current
    · simp only [if_pos hspec]
      exact ignoresNext_const (.ok _)
    · simp only [if_neg hspec]
      exact ignoresNext_error _

end Append

theorem parseLoop_cons (p : Setup) (s : State) (token : Bytes) (rest : List Bytes) :
    parseLoop p false s (token :: rest) = (step p s token rest.head?).bind fun r =>
      parseLoop p r.2 r.1 rest := rfl

/-- **A command line whose first part is whole is parsed in two parts**, and it fails where the
first part fails. -/
theorem parseLoop_append (p : Setup) (before more : List Bytes) (taken : Bool) (s : State)
    (htaken : taken = true → before ≠ []) :
    (∀ s', parseLoop p taken s before = .ok s' →
      parseLoop p taken s (before ++ more) = parseLoop p false s' more) ∧
    ∀ e, parseLoop p taken s before = .error e → e.category ≠ .missingValue →
      parseLoop p taken s (before ++ more) = .error e := by
  induction before generalizing taken s with
  | nil =>
    cases taken with
    | true => exact absurd rfl (htaken rfl)
    | false =>
      constructor
      · intro s' h
        cases h
        rfl
      · intro e h
        cases h
  | cons token rest ih =>
    cases taken with
    | true => exact ih false s nofun
    | false =>
      rw [List.cons_append, parseLoop_cons, parseLoop_cons]
      cases rest with
      | nil =>
        -- the last argument of the first part
        obtain ⟨hok, herror⟩ := ignoresNext_step p s token
        rcases hstep : step p s token none with e | ⟨s₁, taken⟩
        · rw [List.head?_nil, hstep]
          refine ⟨fun s' h => (by cases h), fun e' h hne => ?_⟩
          cases h
          rw [herror e hstep hne]
          rfl
        · obtain ⟨rfl, hall⟩ := hok s₁ taken hstep
          rw [List.head?_nil, hstep, hall]
          exact ih false s₁ nofun
      | cons next rest =>
        rw [List.cons_append, List.head?_cons, List.head?_cons]
        rcases step p s token (some next) with e | ⟨s₁, taken⟩
        · exact ⟨fun s' h => (by cases h), fun e' h _ => h⟩
        · exact ih taken s₁ fun _ => List.cons_ne_nil next rest

end Libca.Opt
