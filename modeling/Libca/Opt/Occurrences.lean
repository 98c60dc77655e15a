import Libca.Opt.Parser

/-!
# What occurs on a command line (`opt/opt.cpp`)

* `Event`, `commandLine`: the commands that are entered, the options that occur with their values,
  and the positional arguments, found in the arguments by the tokens of the commands alone.
* `parse_replays`: **a parse that succeeds does what the events of its command line say, one after
  the other.**
-/

namespace Libca.Opt

open Common

/-- What an argument is. -/
inductive Event
  | enter (cmd : Command)
  | occur (arg : Arg) (value : Bytes)
  | positional (token : Bytes)

/-! ## The events of a command line -/

/-- The value of an option, and whether it is the next argument. -/
def valueOf (arg : Arg) (inlineValue next : Option Bytes) : Bytes × Bool :=
  if ¬ arg.kind.takesValue then (ascii "true", false)
  else if arg.kind = .optionalString then (inlineValue.getD [], false)
  else
    match inlineValue with
    | some value => (value, false)
    | none => (next.getD [], true)

/-- One occurrence. -/
def single (arg : Arg) (v : Bytes × Bool) : List (Arg × Bytes) × Bool := ([(arg, v.1)], v.2)

/-- The occurrences in a short option. -/
def shortOccurrences (lookup : Lookup) (token : Bytes) (next : Option Bytes) :
    List (Arg × Bytes) × Bool :=
  match lookup.find (token.take 2) with
  | none => ([], false)
  | some arg =>
    if ¬ arg.kind.takesValue ∧ 2 < token.length then
      ((token.drop 1).filterMap fun ch => (lookup.find [hyphen, ch]).map (·, ascii "true"), false)
    else single arg (valueOf arg (if 2 < token.length then some (token.drop 2) else none) next)

/-- The occurrences in an argument that begins with a hyphen. -/
def optionOccurrences (lookup : Lookup) (token : Bytes) (next : Option Bytes) :
    List (Arg × Bytes) × Bool :=
  if longPrefix <+: token then
    let (body, inlineValue) := splitInline (token.drop 2)
    match lookup.find (longPrefix ++ body) with
    | none => ([], false)
    | some arg => single arg (valueOf arg inlineValue next)
  else
    let (probe, inlineValue) := splitInline token
    match if 2 < token.length ∧ 2 < probe.length then lookup.find probe else none with
    | none => shortOccurrences lookup token next
    | some arg => single arg (valueOf arg inlineValue next)

/-- The tokens of a command. -/
def Command.tokens (cmd : Command) : Lookup := (buildLookup cmd).toOption.getD []

/-- Where a command line is: the command, and whether `--` is behind. -/
structure View where
  current : Command
  onlyPositional : Bool := false

/-- The events of an argument, and whether the next one is taken. -/
def turn (v : View) (token : Bytes) (next : Option Bytes) : List Event × View × Bool :=
  if v.onlyPositional then ([.positional token], v, false)
  else if token = longPrefix then ([], { v with onlyPositional := true }, false)
  else if 2 ≤ token.length ∧ token.head? = some hyphen then
    let (occurrences, taken) := optionOccurrences v.current.tokens token next
    (occurrences.map fun o => .occur o.1 o.2, v, taken)
  else
    match findSubcommand v.current token with
    | some sub => ([.enter sub], { current := sub }, false)
    | none => ([.positional token], v, false)

/-- The events of the arguments, where the first one may be taken already. -/
def events : Bool → View → List Bytes → List Event
  | _, _, [] => []
  | true, v, _ :: rest => events false v rest
  | false, v, token :: rest =>
    let (found, v', taken) := turn v token rest.head?
    found ++ events taken v' rest

/-- The events of a command line. -/
def commandLine (root : Command) (argv : List Bytes) : List Event :=
  .enter root :: events false { current := root } argv

/-! ## Replay -/

/-- An occurrence of an option. -/
def ParseResult.occur (result : ParseResult) (arg : Arg) (value : Bytes) : ParseResult :=
  let stored := if arg.kind = .stringList then result.append arg.name (splitComma value) else result
  stored.put arg.name value .commandLine

/-- What an event does. -/
def Event.apply (initials : AList fun _ : Bytes => Bytes) (result : ParseResult) :
    Event → Except ParseError ParseResult
  | .enter cmd => seedOptionValues cmd initials result
  | .occur arg value => .ok (result.occur arg value)
  | .positional token => .ok { result with positionals := result.positionals ++ [token] }

variable {arg : Arg} {display value token : Bytes} {next inlineValue : Option Bytes}
    {lookup : Lookup}
  {result result' : ParseResult} {taken : Bool}

/-- The occurrences are what a step stores. -/
def Stores (result result' : ParseResult) (occurrences : List (Arg × Bytes)) : Prop :=
  result' = occurrences.foldl (fun result o => result.occur o.1 o.2) result

theorem storeValue_ok (h : storeValue arg display value result = .ok result') :
    result' = result.occur arg value := by
  unfold storeValue at h
  split at h
  · cases h
  · unfold ParseResult.occur
    split at h
    · rename_i hkind
      split at h
      · cases h
      · cases h
        rw [hkind]
        rfl
    · rename_i hkind
      cases h
      rw [hkind]
      rfl
    · rename_i hint hlist
      cases h
      exact (congrArg (fun r : ParseResult => r.put arg.name value .commandLine)
        (if_neg hlist)).symm

theorem occur_of_not_list (hkind : arg.kind ≠ .stringList) (value : Bytes) :
    result.occur arg value = result.put arg.name value .commandLine := by
  rw [ParseResult.occur, if_neg hkind]

theorem consumeOptionValue_ok
    (h : consumeOptionValue arg display inlineValue next result = .ok (result', taken)) :
    Stores result result' (single arg (valueOf arg inlineValue next)).1 ∧
      (single arg (valueOf arg inlineValue next)).2 = taken := by
  unfold consumeOptionValue at h
  unfold valueOf
  by_cases hkind : ¬ arg.kind.takesValue
  · rw [if_pos hkind] at h ⊢
    split at h
    · cases h
    · cases h
      refine ⟨(occur_of_not_list (fun he => hkind ?_) _).symm, rfl⟩
      rw [he]
      rfl
  · rw [if_neg hkind] at h ⊢
    by_cases hoptional : arg.kind = .optionalString
    · rw [if_pos hoptional] at h ⊢
      cases h
      exact ⟨(occur_of_not_list (by rw [hoptional]; exact nofun) _).symm, rfl⟩
    · rw [if_neg hoptional] at h ⊢
      cases inlineValue with
      | some value =>
        change (·, false) <$> storeValue arg display value result = _ at h
        rcases hstore : storeValue arg display value result with e | r
        · rw [hstore] at h
          cases h
        · rw [hstore] at h
          cases h
          exact ⟨storeValue_ok hstore, rfl⟩
      | none =>
        cases next with
        | none => cases h
        | some value =>
          change (·, true) <$> storeValue arg display value result = _ at h
          rcases hstore : storeValue arg display value result with e | r
          · rw [hstore] at h
            cases h
          · rw [hstore] at h
            cases h
            exact ⟨storeValue_ok hstore, rfl⟩

/-- Flags in one argument. -/
theorem clusterFlags_ok (flags : Bytes)
    (h : flags.foldlM (clusterFlag lookup token) result = .ok result') :
    Stores result result' (flags.filterMap fun ch =>
      (lookup.find [hyphen, ch]).map (·, ascii "true")) := by
  induction flags generalizing result with
  | nil =>
    cases h
    rfl
  | cons ch flags ih =>
    rw [List.foldlM_cons] at h
    cases hfind : lookup.find [hyphen, ch] with
    | none =>
      rw [clusterFlag, hfind] at h
      cases h
    | some arg =>
      rw [clusterFlag, hfind] at h
      dsimp only at h
      by_cases hkind : arg.kind.takesValue = true
      · rw [if_pos hkind] at h
        cases h
      · rw [if_neg hkind] at h
        have hlist : arg.kind ≠ .stringList := fun he => hkind (by rw [he]; rfl)
        have hrest : Stores (result.put arg.name (ascii "true") .commandLine) result' _ := ih h
        rw [← occur_of_not_list hlist] at hrest
        rw [List.filterMap_cons, hfind]
        exact hrest

/-- A short option that is no cluster is taken as a long one is. -/
theorem shortOption_eq (hfind : lookup.find (token.take 2) = some arg) :
    shortOption lookup token next result =
      if ¬ arg.kind.takesValue ∧ 2 < token.length then
        (·, false) <$> flagCluster lookup token result
      else consumeOptionValue arg (token.take 2) (if 2 < token.length then
      some (token.drop 2) else none) next
        result := by
  unfold shortOption consumeOptionValue
  rw [hfind]
  dsimp only
  by_cases hkind : ¬ arg.kind.takesValue
  · have hoptional : arg.kind ≠ .optionalString := fun he => hkind (by rw [he]; rfl)
    by_cases hlength : 2 < token.length
    · rw [if_neg hoptional, if_pos hkind, if_pos hlength, if_pos ⟨hkind, hlength⟩]
    · have hcluster : ¬ (¬ arg.kind.takesValue ∧ 2 < token.length) := fun h => hlength h.2
      rw [if_neg hoptional, if_pos hkind, if_neg hlength, if_neg hcluster, if_pos hkind,
        if_neg hlength]
      rfl
  · have hcluster : ¬ (¬ arg.kind.takesValue ∧ 2 < token.length) := fun h => hkind h.1
    rw [if_neg hcluster, if_neg hkind, if_neg hkind]
    by_cases hoptional : arg.kind = .optionalString
    · rw [if_pos hoptional, if_pos hoptional]
      by_cases hlength : 2 < token.length
      · rw [if_pos hlength, if_pos hlength]
        rfl
      · rw [if_neg hlength, if_neg hlength]
        rfl
    · rw [if_neg hoptional, if_neg hoptional]
      by_cases hlength : 2 < token.length
      · rw [if_pos hlength, if_pos hlength]
      · rw [if_neg hlength, if_neg hlength]

theorem shortOption_ok (h : shortOption lookup token next result = .ok (result', taken)) :
    Stores result result' (shortOccurrences lookup token next).1 ∧
      (shortOccurrences lookup token next).2 = taken := by
  cases hfind : lookup.find (token.take 2) with
  | none =>
    rw [shortOption, hfind] at h
    cases h
  | some arg =>
    rw [shortOption_eq hfind] at h
    rw [shortOccurrences, hfind]
    dsimp only
    by_cases hcluster : ¬ arg.kind.takesValue ∧ 2 < token.length
    · rw [if_pos hcluster] at h ⊢
      rcases hflags : flagCluster lookup token result with e | r
      · rw [hflags] at h
        cases h
      · rw [hflags] at h
        cases h
        exact ⟨clusterFlags_ok _ hflags, rfl⟩
    · rw [if_neg hcluster] at h ⊢
      exact consumeOptionValue_ok h

/-- A step of an option stores what occurs in its argument. -/
theorem optionStep_ok {s s' : State} (h : optionStep s token next = .ok (s', taken)) :
    ∃ r, s' = { s with result := r } ∧ Stores s.result r (optionOccurrences s.lookup token next).1 ∧
      (optionOccurrences s.lookup token next).2 = taken := by
  have hmap {x : Except ParseError (ParseResult × Bool)}
      (h : Prod.map (fun result => { s with result }) id <$> x = .ok (s', taken)) :
      ∃ r, s' = { s with result := r } ∧ x = .ok (r, taken) := by
    rcases x with e | ⟨r, taken'⟩
    · cases h
    · cases h
      exact ⟨r, rfl, rfl⟩
  unfold optionStep at h
  unfold optionOccurrences
  by_cases hlong : longPrefix <+: token
  · rw [if_pos hlong] at h ⊢
    obtain ⟨r, hs', hr⟩ := hmap h
    refine ⟨r, hs', ?_⟩
    unfold longOption at hr
    dsimp only at hr ⊢
    cases hfind : s.lookup.find (longPrefix ++ (splitInline (token.drop 2)).1) with
    | none =>
      rw [hfind] at hr
      cases hr
    | some arg =>
      rw [hfind] at hr
      exact consumeOptionValue_ok hr
  · rw [if_neg hlong] at h ⊢
    obtain ⟨r, hs', hr⟩ := hmap h
    refine ⟨r, hs', ?_⟩
    unfold singleHyphen at hr
    dsimp only at hr ⊢
    by_cases hprobe : 2 < token.length ∧ 2 < (splitInline token).1.length
    · rw [if_pos hprobe] at hr ⊢
      cases hfind : s.lookup.find (splitInline token).1 with
      | none =>
        rw [hfind] at hr
        dsimp only at hr
        split at hr
        · cases hr
        · exact shortOption_ok hr
      | some arg =>
        rw [hfind] at hr
        exact consumeOptionValue_ok hr
    · rw [if_neg hprobe] at hr ⊢
      exact shortOption_ok hr

/-! ## Runs -/

/-- The events of a step do what it does. -/
def Replays (initials : AList fun _ : Bytes => Bytes) (result : ParseResult) (es : List Event)
    (result' : ParseResult) : Prop := es.foldlM (Event.apply initials) result = .ok result'

variable {initials : AList fun _ : Bytes => Bytes}

theorem Replays.append {result result' result'' : ParseResult}
    {es es' : List Event} (h : Replays initials result es result')
    (h' : Replays initials result' es' result'') :
    Replays initials result (es ++ es') result'' := by
  unfold Replays at h
  rw [Replays, List.foldlM_append, h]
  exact h'

theorem Stores.replays {occurrences : List (Arg × Bytes)} (h : Stores result result' occurrences) :
    Replays initials result (occurrences.map fun o => .occur o.1 o.2) result' := by
  induction occurrences generalizing result with
  | nil => exact congrArg Except.ok h.symm
  | cons o occurrences ih => exact ih h

/-- Where a state of the parser is. -/
def State.view (s : State) : View := { current := s.current, onlyPositional := s.onlyPositional }

/-- A command that is entered. -/
theorem enter_ok {cmd : Command} {path : List Bytes} {s : State}
    (h : enter initials cmd result path = .ok s) :
    s.view = { current := cmd } ∧ s.lookup = cmd.tokens ∧ s.path = path ∧
      Replays initials result [.enter cmd] s.result := by
  unfold enter at h
  rcases hlookup : buildLookup cmd with e | lookup
  · rw [hlookup] at h
    cases h
  rw [hlookup] at h
  rcases hgroups : validateMutexGroups cmd with e | _
  · rw [hgroups] at h
    cases h
  rw [hgroups] at h
  rcases hseed : seedOptionValues cmd initials result with e | seeded
  · rw [hseed] at h
    cases h
  rw [hseed] at h
  cases h
  refine ⟨rfl, ?_, rfl, ?_⟩
  · rw [Command.tokens, hlookup]
    rfl
  · rw [Replays, List.foldlM_cons, Event.apply, hseed]
    rfl

/-- The commands that are entered. -/
def entered (es : List Event) : List Command := es.filterMap fun
  | .enter cmd => some cmd
  | _ => none

theorem entered_append (es es' : List Event) : entered (es ++ es') = entered es ++ entered es' :=
  List.filterMap_append

theorem entered_occur (occurrences : List (Arg × Bytes)) :
    entered (occurrences.map fun o => .occur o.1 o.2) = [] := by
  induction occurrences with
  | nil => rfl
  | cons o occurrences ih => exact ih

/-- A state of the parser on the way: its tokens are those of its command. -/
structure Follows (p : Setup) (s : State) (es : List Event) (s' : State) : Prop where
  lookup : s'.lookup = s'.current.tokens
  path : s'.path = s.path ++ (entered es).map (·.name)
  replays : Replays p.initials s.result es s'.result

variable {p : Setup}

/-- One turn of the loop. -/
theorem step_ok {s s' : State} (h : step p s token next = .ok (s', taken))
    (hlookup : s.lookup = s.current.tokens) :
    (turn s.view token next).2 = (s'.view, taken) ∧ Follows p s (turn s.view token next).1 s' := by
  unfold step at h
  unfold turn
  by_cases hpositional : s.onlyPositional = true
  · rw [if_pos hpositional] at h
    rw [if_pos (show s.view.onlyPositional = true from hpositional)]
    cases h
    exact ⟨rfl, hlookup, (List.append_nil s.path).symm, rfl⟩
  rw [if_neg hpositional] at h
  rw [if_neg (show ¬ s.view.onlyPositional = true from hpositional)]
  by_cases hterminator : token = longPrefix
  · rw [if_pos hterminator] at h ⊢
    cases h
    exact ⟨rfl, hlookup, (List.append_nil s.path).symm, rfl⟩
  rw [if_neg hterminator] at h ⊢
  by_cases hhelp : (token = ascii "--help" ∨ token = ascii "-h") ∧ (s.lookup.find token).isNone
  · rw [if_pos hhelp] at h
    cases h
  rw [if_neg hhelp] at h
  by_cases hoption : 2 ≤ token.length ∧ token.head? = some hyphen
  · rw [if_pos hoption] at h ⊢
    obtain ⟨r, rfl, hstores, htaken⟩ := optionStep_ok h
    rw [hlookup] at hstores htaken
    refine ⟨congrArg (Prod.mk s.view) htaken, hlookup, ?_, hstores.replays⟩
    change s.path = s.path ++ (entered (_ : List Event)).map (·.name)
    rw [entered_occur, List.map_nil, List.append_nil]
  rw [if_neg hoption] at h ⊢
  cases hsub : findSubcommand s.current token with
  | some sub =>
    rw [show findSubcommand s.view.current token = some sub from hsub]
    rw [hsub] at h
    dsimp only at h ⊢
    rcases hfinalize : finalize s.current s.result with e | _
    · rw [hfinalize] at h
      cases h
    rw [hfinalize] at h
    rcases henter : enter p.initials sub s.result (s.path ++ [sub.name]) with e | s₁
    · rw [henter] at h
      cases h
    rw [henter] at h
    cases h
    obtain ⟨hview, htokens, hpath, hreplays⟩ := enter_ok henter
    have hcurrent : s'.current = sub := congrArg View.current hview
    exact ⟨by rw [hview], by rw [htokens, hcurrent], hpath, hreplays⟩
  | none =>
    rw [show findSubcommand s.view.current token = none from hsub]
    rw [hsub] at h
    dsimp only at h ⊢
    by_cases hspec : hasPositionalSpec s.current
    · rw [if_pos hspec] at h
      cases h
      exact ⟨rfl, hlookup, (List.append_nil s.path).symm, rfl⟩
    · rw [if_neg hspec] at h
      cases h

theorem Follows.trans {s s' s'' : State} {es es' : List Event} (h : Follows p s es s')
    (h' : Follows p s' es' s'') : Follows p s (es ++ es') s'' where
  lookup := h'.lookup
  path := by rw [h'.path, h.path, entered_append, List.map_append, List.append_assoc]
  replays := h.replays.append h'.replays

/-- The whole loop. -/
theorem parseLoop_ok (argv : List Bytes) {s s' : State} (h : parseLoop p taken s argv = .ok s')
    (hlookup : s.lookup = s.current.tokens) : Follows p s (events taken s.view argv) s' := by
  induction argv generalizing taken s with
  | nil =>
    cases taken <;> cases h <;> exact ⟨hlookup, (List.append_nil _).symm, rfl⟩
  | cons token rest ih =>
    cases taken with
    | true => exact ih h hlookup
    | false =>
      rw [parseLoop_cons] at h
      rcases hstep : step p s token rest.head? with e | ⟨s₁, taken⟩
      · rw [hstep] at h
        cases h
      · rw [hstep] at h
        obtain ⟨hturn, hfollows⟩ := step_ok hstep hlookup
        have hevents : events false s.view (token :: rest) = (turn s.view token rest.head?).1 ++
            events (turn s.view token rest.head?).2.2 (turn s.view token rest.head?).2.1 rest := rfl
        rw [hevents, hturn]
        exact hfollows.trans (ih h hfollows.lookup)

/-- **A parse that succeeds does what the events of its command line say.** -/
theorem parse_replays {argv : List Bytes} {result : ParseResult} (h : parse p argv = .ok result) :
    ∃ r, Replays p.initials {} (commandLine p.root argv) r ∧ result =
      { r with subcommandPath := ((entered (commandLine p.root argv)).drop 1).map (·.name) } := by
  unfold parse reach at h
  rcases henter : enter p.initials p.root {} [] with e | s₀
  · rw [henter] at h
    cases h
  rw [henter] at h
  rcases hloop : parseLoop p false s₀ argv with e | s
  · change (parseLoop p false s₀ argv).bind conclude = _ at h
    rw [hloop] at h
    cases h
  change (parseLoop p false s₀ argv).bind conclude = _ at h
  rw [hloop] at h
  obtain ⟨hview, htokens, hpath, hreplays⟩ := enter_ok henter
  have hcurrent : s₀.current = p.root := congrArg View.current hview
  have hfollows := parseLoop_ok argv hloop (by rw [htokens, hcurrent])
  rw [hview] at hfollows
  refine ⟨s.result, hreplays.append hfollows.replays, ?_⟩
  change conclude s = _ at h
  unfold conclude at h
  rcases hfinalize : finalize s.current s.result with e | _
  · rw [hfinalize] at h
    cases h
  · rw [hfinalize] at h
    cases h
    have hnames : s.path = ((entered (commandLine p.root argv)).drop 1).map (·.name) := by
      rw [hfollows.path, hpath]
      rfl
    rw [hnames]

end Libca.Opt
