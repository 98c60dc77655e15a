import Libca.Common.Bytes
import Libca.Common.Except
import Mathlib.Data.List.AList

/-!
# Commands and options

Model of the definitions of `opt/opt.hpp` and of the helpers of `Parser` in `opt/opt.cpp`: the
tokens of a command, its mutex groups, strict integers and lists, and the initial values of its
options.

* `buildLookup`: the tokens of a command, each with its option.
* `seedOptionValues`: static defaults and injected initial values.
-/

namespace Libca.Opt

open Common

/-! ## Definitions of commands -/

inductive OptKind
  | flag
  | string
  | int
  | stringList
  | optionalString
  | positional
  deriving DecidableEq, Repr

/-- `kind_takes_value`. -/
def OptKind.takesValue : OptKind → Bool
  | .string | .int | .stringList | .optionalString => true
  | .flag | .positional => false

structure Arg where
  name : Bytes
  aliases : List Bytes := []
  kind : OptKind := .string
  metavar : Bytes := []
  help : Bytes := []
  group : Bytes := []
  required : Bool := false
  defaultValue : Bytes := []
  deriving DecidableEq, Repr

structure MutexGroup where
  names : List Bytes
  required : Bool := false
  label : Bytes := []
  deriving DecidableEq, Repr

structure Command where
  name : Bytes
  help : Bytes := []
  args : List Arg := []
  mutexGroups : List MutexGroup := []
  subcommands : List Command := []
  usage : Bytes := []

/-! ## Errors -/

inductive ParseErrorCategory
  | helpRequested
  | unknownOption
  | missingValue
  | emptyValue
  | unexpectedArgument
  | missingRequired
  | invalidInteger
  | mutexConflict
  | mutexRequired
  | invalidDefinition
  deriving DecidableEq, Repr

structure ParseError where
  category : ParseErrorCategory
  option : Bytes
  message : Bytes
  group : Bytes := []
  deriving DecidableEq, Repr

/-! ## Tokens -/

def hyphen : UInt8 := 0x2D

def longPrefix : Bytes := ascii "--"

/-- `collect_tokens`. -/
def collectTokens (arg : Arg) : Except Bytes (List Bytes) :=
  arg.aliases.foldlM (fun tokens name =>
    if name.length < 2 ∨ name.head? ≠ some hyphen then
      .error (ascii "alias '" ++ name ++ ascii "' of option --" ++ arg.name ++
        ascii " must start with '-'")
    else .ok (tokens ++ [name])) [longPrefix ++ arg.name]

/-- `Lookup`: the tokens of a command, each with its option. -/
abbrev Lookup := List (Bytes × Arg)

/-- `by_token.find`. -/
def Lookup.find (lookup : Lookup) (token : Bytes) : Option Arg :=
  (List.find? (·.1 = token) lookup).map (·.2)

/-- `by_token[token] = &arg`, if the token is new. -/
def insertToken (arg : Arg) (lookup : Lookup) (token : Bytes) : Except Bytes Lookup :=
  if (lookup.find token).isSome then .error (ascii "duplicate option token: " ++ token)
  else .ok (lookup ++ [(token, arg)])

/-- The part of `build_lookup` for one option. -/
def insertArg (lookup : Lookup) (arg : Arg) : Except Bytes Lookup :=
  if arg.name = [] then .error (ascii "option with empty name is not allowed")
  else if arg.required ∧ arg.kind.takesValue ∧ arg.defaultValue ≠ [] then
    .error (ascii "required option --" ++ arg.name ++
      ascii " cannot have a default_value (default makes required check never trigger)")
  else do
    let tokens ← collectTokens arg
    tokens.foldlM (insertToken arg) lookup

/-- `build_lookup`. -/
def buildLookup (cmd : Command) : Except Bytes Lookup := cmd.args.foldlM insertArg []

/-! ## Mutex groups -/

/-- `validate_mutex_groups`. -/
def validateMutexGroups (cmd : Command) : Except Bytes Unit :=
  cmd.mutexGroups.forM fun group =>
    if group.names = [] then .error (ascii "mutex group must list at least one option name")
    else group.names.forM fun member =>
      if cmd.args.any (·.name = member) then .ok ()
      else .error (ascii "mutex group references unknown option: --" ++ member)

/-- `group_identity`. -/
def groupIdentity (group : MutexGroup) : Bytes :=
  if group.label ≠ [] then group.label else (ascii "|").intercalate group.names

inductive ValueSource
  | none
  | default
  | initial
  | commandLine
  deriving DecidableEq, Repr

/-- `ParseResult`. -/
structure ParseResult where
  values : AList fun _ : Bytes => Bytes := ∅
  lists : AList fun _ : Bytes => List Bytes := ∅
  sources : AList fun _ : Bytes => ValueSource := ∅
  positionals : List Bytes := []
  subcommandPath : List Bytes := []

namespace ParseResult

/-- `has`. -/
def has (result : ParseResult) (name : Bytes) : Bool := (result.values.lookup name).isSome

/-- `source_of`. -/
def sourceOf (result : ParseResult) (name : Bytes) : ValueSource :=
  (result.sources.lookup name).getD .none

/-- `result.values_[name] = value` and `result.sources_[name] = source`. -/
def put (result : ParseResult) (name value : Bytes) (source : ValueSource) : ParseResult :=
  { result with values := result.values.insert name value, sources :=
    result.sources.insert name source }

/-- The pieces are added to `result.lists_[name]`. -/
def append (result : ParseResult) (name : Bytes) (pieces : List Bytes) : ParseResult :=
  { result with lists := result.lists.insert name ((result.lists.lookup name).getD [] ++ pieces) }

end ParseResult

/-- `check_mutex_groups`. -/
def checkMutexGroups (cmd : Command) (result : ParseResult) : Except ParseError Unit :=
  cmd.mutexGroups.forM fun group =>
    let present := group.names.filter fun name =>
      result.sourceOf name = .commandLine ∨ result.sourceOf name = .initial
    if 1 < present.length then
      .error ⟨.mutexConflict, [], ascii "mutually exclusive options given: " ++
        (ascii ", ").intercalate (present.map (longPrefix ++ ·)), groupIdentity group⟩
    else if group.required ∧ present = [] then
      .error ⟨.mutexRequired, [], ascii "one of " ++ (ascii "|").intercalate
        (group.names.map (longPrefix ++ ·)) ++
        ascii " is required", groupIdentity group⟩
    else .ok ()

/-! ## Values -/

/-- `std::isdigit` in the C locale. -/
def isDecimal (c : UInt8) : Bool := 0x30 ≤ c && c ≤ 0x39

/-- `parse_int_strict`: `strtoll` reads up to the first NUL, and more than its range is more than
that of an `int`. -/
def parseIntStrict (text : Bytes) : Option Int :=
  match text with
  | [] => none
  | first :: _ =>
    if first ≠ 0x2B ∧ first ≠ hyphen ∧ ¬ isDecimal first then none
    else
      let cstr := text.takeWhile (· ≠ 0)
      let digits := if first = 0x2B ∨ first = hyphen then cstr.drop 1 else cstr
      if digits = [] ∨ ¬ digits.all isDecimal then none
      else
        let value : Int := if first = hyphen then -(ofChars 10 digits : Int) else ofChars 10 digits
        if value < -2147483648 ∨ 2147483647 < value then none else some value

/-- `split_comma`. -/
def splitComma (text : Bytes) : List Bytes := text.splitOn 0x2C

/-- The part of `seed_option_values` for one option. -/
def seedOptionValue (initials : AList fun _ : Bytes => Bytes) (result : ParseResult) (arg : Arg) :
    Except ParseError ParseResult :=
  if ¬ arg.kind.takesValue then .ok result
  else if result.sourceOf arg.name = .commandLine then .ok result
  else
    match initials.lookup arg.name with
    | some init =>
      if init = [] then
        .error ⟨.emptyValue, arg.name, ascii "initial value of --" ++ arg.name ++ ascii " is empty",
          []⟩
      else
        match arg.kind with
        | .int =>
          if (parseIntStrict init).isNone then
            .error ⟨.invalidInteger, arg.name, ascii "initial value of --" ++ arg.name ++
              ascii " expects an integer, got '" ++ init ++ ascii "'", []⟩
          else .ok (result.put arg.name init .initial)
        | .stringList => .ok ((result.append arg.name (splitComma init)).put arg.name init .initial)
        | _ => .ok (result.put arg.name init .initial)
    | none =>
      if arg.defaultValue ≠ [] then .ok (result.put arg.name arg.defaultValue .default)
      else .ok result

/-- `seed_option_values`. -/
def seedOptionValues (cmd : Command) (initials : AList fun _ : Bytes => Bytes)
    (result : ParseResult) :
    Except ParseError ParseResult :=
  cmd.args.foldlM (seedOptionValue initials) result

/-- `find_subcommand`. -/
def findSubcommand (cmd : Command) (token : Bytes) : Option Command :=
  cmd.subcommands.find? (·.name = token)

/-- `has_positional_spec`. -/
def hasPositionalSpec (cmd : Command) : Bool := cmd.args.any (·.kind = .positional)

end Libca.Opt
