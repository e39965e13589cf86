import LineAsm.Command.Settings

/-!
# Command line options

The arguments of a run are first cut into groups, each an option with its value, a flag or a
positional argument; then the groups are collected. An option may stand anywhere, but only once, so
the order of the groups does not matter, that of the positional arguments apart.

Arguments can also ask for a notice, help or the version. It is shown in place of a run and ends the
reading of the arguments: what stands before it has to be in order, what follows is not looked at.
The texts of the notices are left to the program that shows them.
-/

namespace LineAsm

/-- Why arguments are refused. Options are named without their hyphens. -/
inductive UsageError where
  | unknownOption (option : String)
  | missingValue (option : String)
  | unexpectedValue (option : String)
  | invalidValue (option value : String)
  | repeatedOption (option : String)
  | tooManyArguments (argument : String)
  | emptyArgument
  deriving Repr, DecidableEq

def UsageError.message : UsageError → String
  | .unknownOption option => "unknown option " ++ option
  | .missingValue option => "option " ++ option ++ " needs a value"
  | .unexpectedValue option => "option " ++ option ++ " takes no value"
  | .invalidValue option value => "option " ++ option ++ " does not take the value " ++ value
  | .repeatedOption option => "option " ++ option ++ " is given twice"
  | .tooManyArguments argument => "unexpected argument " ++ argument
  | .emptyArgument => "an argument is empty"

/-- What can be shown in place of a run. -/
inductive Notice where
  | help
  | version
  deriving Repr, DecidableEq

inductive Argument where
  | format (format : Format)
  | revision (revision : Revision)
  | config (path : String)
  | strict
  | keepGoing
  | printRevision
  | positional (path : String)
  deriving Repr, DecidableEq

namespace Argument

/-! ## Groups -/

/-- The flags: options without a value. -/
def flags : List (String × Argument) :=
  [("strict", .strict), ("keep-going", .keepGoing), ("print-revision", .printRevision)]

/-- The long options that ask for a notice. -/
def notices : List (String × Notice) := [("help", .help), ("version", .version)]

/-- The letters that ask for a notice, behind one hyphen. -/
def noticeLetters : List (Char × Notice) := [('h', .help), ('V', .version)]

/-- The options that take a value. -/
def valued : List String := ["format", "revision", "config"]

/-- An option with its value. -/
def ofValue (name value : String) : Except UsageError Argument :=
  let group? := match name with
    | "format" => (Format.ofName? value).map .format
    | "revision" => (Revision.read value).toOption.map .revision
    | _ => if value = "" then none else some (.config value)
  match group? with
  | some group => .ok group
  | none => .error (.invalidValue name value)

def ofPositional (argument : String) : Except UsageError Argument :=
  if argument = "" then .error .emptyArgument else .ok (.positional argument)

/-- The name of a long option and the value after its equals sign, if it has one. -/
def splitOption (option : List Char) : String × Option String :=
  let name := String.ofList (option.takeWhile (· ≠ '='))
  match option.dropWhile (· ≠ '=') with
  | [] => (name, none)
  | _ :: value => (name, some (String.ofList value))

/-- Does an argument look like an option? A hyphen alone does not. -/
def isHyphened (argument : String) : Bool :=
  match argument.toList with
  | '-' :: _ :: _ => true
  | _ => false

/-- What an argument is by itself. -/
inductive Form where
  /-- Two hyphens alone: all that follows is positional. -/
  | terminator
  | complete (group : Argument)
  /-- An option whose value is the next argument. -/
  | waiting (option : String)
  /-- All that follows is left aside. -/
  | notice (notice : Notice)
  deriving Repr, DecidableEq

/-- An option that takes no value. -/
def valueless? (name : String) : Option Form :=
  match flags.lookup name with
  | some group => some (.complete group)
  | none => (notices.lookup name).map .notice

/-- An option, without its two hyphens. -/
def formOfOption (option : List Char) : Except UsageError Form :=
  let (name, value?) := splitOption option
  match valueless? name, value? with
  | some form, none => .ok form
  | some _, some _ => .error (.unexpectedValue name)
  | none, value? =>
    if !valued.contains name then .error (.unknownOption name)
    else match value? with
      | some value => (ofValue name value).map .complete
      | none => .ok (.waiting name)

def form (argument : String) : Except UsageError Form :=
  match argument.toList with
  | ['-', '-'] => .ok .terminator
  | '-' :: '-' :: option => formOfOption option
  | '-' :: letter :: _ =>
    -- Letters may be run together, and the first one decides.
    match noticeLetters.lookup letter with
    | some notice => .ok (.notice notice)
    | none => .error (.unknownOption argument)
  | _ => (ofPositional argument).map .complete

/-- The groups, up to a notice if one is asked for. -/
def groups : List String → Except UsageError (List Argument × Option Notice)
  | [] => .ok ([], none)
  | argument :: rest => do
    match ← form argument with
    | .terminator => return (← rest.mapM ofPositional, none)
    | .notice notice => return ([], some notice)
    | .complete group =>
      let (others, notice?) ← groups rest
      return (group :: others, notice?)
    | .waiting option =>
      match rest with
      | [] => .error (.missingValue option)
      | value :: others =>
        if isHyphened value then .error (.missingValue option)
        else
          let group ← ofValue option value
          let (others, notice?) ← groups others
          return (group :: others, notice?)

/-! ## What a group says about each option -/

def format? : Argument → Option Format
  | .format f => some f
  | _ => none

def revision? : Argument → Option Revision
  | .revision r => some r
  | _ => none

def config? : Argument → Option String
  | .config path => some path
  | _ => none

def positional? : Argument → Option String
  | .positional path => some path
  | _ => none

def flag? (flag group : Argument) : Option Unit := if group = flag then some () else none

end Argument

structure Options where
  input? : Option String := none
  output? : Option String := none
  format? : Option Format := none
  revision? : Option Revision := none
  config? : Option String := none
  strict : Bool := false
  keepGoing : Bool := false
  printRevision : Bool := false
  deriving Repr, DecidableEq

/-- What arguments ask for. -/
inductive Request where
  | run (options : Options)
  | notice (notice : Notice)
  deriving Repr, DecidableEq

namespace Options

/-- What the groups say about an option, which may be said only once. -/
def atMostOnce {α : Type} (option : String) (pick : Argument → Option α) (groups : List Argument) :
    Except UsageError (Option α) :=
  match groups.filterMap pick with
  | [] => .ok none
  | [value] => .ok (some value)
  | _ => .error (.repeatedOption option)

/-- The input and the output, either of which may be missing, in that order. -/
def places (groups : List Argument) : Except UsageError (Option String × Option String) :=
  match groups.filterMap Argument.positional? with
  | [] => .ok (none, none)
  | [input] => .ok (some input, none)
  | [input, output] => .ok (some input, some output)
  | _ :: _ :: extra :: _ => .error (.tooManyArguments extra)

def ofGroups (groups : List Argument) : Except UsageError Options := do
  let format? ← atMostOnce "format" Argument.format? groups
  let revision? ← atMostOnce "revision" Argument.revision? groups
  let config? ← atMostOnce "config" Argument.config? groups
  let strict? ← atMostOnce "strict" (Argument.flag? .strict) groups
  let keepGoing? ← atMostOnce "keep-going" (Argument.flag? .keepGoing) groups
  let printRevision? ← atMostOnce "print-revision" (Argument.flag? .printRevision) groups
  let (input?, output?) ← places groups
  return { input?, output?, format?, revision?, config?, strict := strict?.isSome,
           keepGoing := keepGoing?.isSome, printRevision := printRevision?.isSome }

/-- Reads arguments. The groups before a notice have to be in order like all others. -/
def parse (arguments : List String) : Except UsageError Request := do
  let (groups, notice?) ← Argument.groups arguments
  let options ← ofGroups groups
  match notice? with
  | some notice => return .notice notice
  | none => return .run options

/-- Options win over settings. -/
def override (options : Options) (settings : Settings) : Settings where
  encoder := {
    revision := options.revision?.getD settings.encoder.revision
    mode := if options.strict then .strict else settings.encoder.mode }
  policy := if options.keepGoing then .continue else settings.policy
  format := options.format?.getD settings.format

end Options

end LineAsm
