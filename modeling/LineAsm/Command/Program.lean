import LineAsm.Command.FileTree
import LineAsm.Command.Options
import LineAsm.Isa.Description

/-!
# A run of the program

A run reads its options, then its settings, then assembles one source and puts the listing where the
options say. If a notice is asked for, that is the outcome and nothing is read. A run goes through a
*host*, which reads and writes files, prints and logs; everything else is decided here. One host is a
value, `World`, with a file tree and the output so far, so that a run is a function from arguments
and files to an outcome and files.
-/

namespace LineAsm

/-- What a run can ask for. -/
class Host (m : Type → Type) where
  /-- The text of the file at a path. -/
  readText : String → m (Except FileError String)
  /-- Writes a text to the file at a path. -/
  writeText : String → String → m (Except FileError Unit)
  /-- Writes a text to the standard output. -/
  print : String → m Unit
  /-- Adds events to the log, oldest first. -/
  log : List Event → m Unit

/-- A run that can fail has the host of the one that cannot. -/
instance {m : Type → Type} {ε : Type} [Monad m] [Host m] : Host (ExceptT ε m) where
  readText path := ExceptT.lift (Host.readText path)
  writeText path text := ExceptT.lift (Host.writeText path text)
  print text := ExceptT.lift (Host.print text)
  log events := ExceptT.lift (Host.log events)

/-! ## Failures -/

/-- Why a run with acceptable arguments fails. -/
inductive Failure where
  | readingSettings (path : String) (cause : FileError)
  | parsingSettings (path : String)
  | reading (path : String) (cause : FileError)
  | assembling (path : String) (cause : AssembleError)
  | writing (path : String) (cause : FileError)
  | failedLines (count : Nat)
  deriving Repr, DecidableEq

namespace Failure

def message : Failure → String
  | .readingSettings path _ => "reading settings " ++ path
  | .parsingSettings path => "parsing settings " ++ path
  | .reading path _ => "reading " ++ path
  | .assembling path _ => "assembling " ++ path
  | .writing path _ => "writing " ++ path
  | .failedLines count => count.repr ++ " line(s) failed to encode"

/-- What led to the failure, the nearest cause first. -/
def causes : Failure → List String
  | .readingSettings _ cause => [cause.message]
  | .parsingSettings _ => []
  | .reading _ cause => [cause.message]
  | .assembling _ cause =>
    cause.message :: cause.cause.message ::
      match cause.cause with
      | .rejected warning => [warning.message]
      | .unreadable .. => []
  | .writing _ cause => [cause.message]
  | .failedLines _ => []

/-- The causes under their heading; several are numbered. -/
def reportCauses : List String → String
  | [] => ""
  | [cause] => "\nCaused by:\n    " ++ cause ++ "\n"
  | causes => "\nCaused by:\n" ++
      String.join (causes.mapIdx fun i cause => "    " ++ i.repr ++ ": " ++ cause ++ "\n")

/-- The report of a failure. What is wrong with the text of settings is not told. -/
def report (failure : Failure) : String :=
  match failure with
  | .parsingSettings _ => "Error: " ++ failure.message
  | _ => "Error: " ++ failure.message ++ "\n" ++ reportCauses failure.causes

end Failure

inductive Outcome where
  | done
  /-- A notice is to be shown, and nothing was run. -/
  | noticed (notice : Notice)
  | failed (failure : Failure)
  | refused (error : UsageError)
  deriving Repr, DecidableEq

def Outcome.exitCode : Outcome → Nat
  | .done => 0
  | .noticed _ => 0
  | .failed _ => 1
  | .refused _ => 2

namespace Program

/-- The source that is assembled when no input is given. -/
def defaultInput : String := "progs/01_bypass_X_to_X.asm"

/-- Where the listings go when no input is given. -/
def defaultListings : List (String × Format) := [("out.vhdl", .vhdl), ("out.txt", .bin)]

variable {m : Type → Type} [Monad m] [Host m]

/-- The settings of a run: those of the file, if one is given, under the options. -/
def loadSettings (options : Options) : ExceptT Failure m Settings := do
  match options.config? with
  | none => return options.override default
  | some path =>
    match ← Host.readText path with
    | .error cause => throw (.readingSettings path cause)
    | .ok text =>
      match Settings.read? text with
      | none => throw (.parsingSettings path)
      | some settings => return options.override settings

def assembleFile (settings : Settings) (path : String) : ExceptT Failure m Assembly := do
  match ← Host.readText path with
  | .error cause => throw (.reading path cause)
  | .ok source =>
    let logged := settings.encoder.assembleLogged settings.policy source
    Host.log logged.events
    match logged.result with
    | .error cause => throw (.assembling path cause)
    | .ok assembly =>
      Host.log [.assembled path assembly.words.length settings.encoder.revision]
      return assembly

def writeListing (path : String) (format : Format) (words : List Word) :
    ExceptT Failure m Unit := do
  match ← Host.writeText path (Listing.render format words) with
  | .error cause => throw (.writing path cause)
  | .ok () => Host.log [.wrote path format]

/-- Puts the listing of an image where the options say. -/
def emit (options : Options) (settings : Settings) (words : List Word) :
    ExceptT Failure m Unit :=
  match options.input?, options.output? with
  | none, _ => defaultListings.forM fun (path, format) => writeListing path format words
  | some _, some output => writeListing output settings.format words
  | some _, none => Host.print (Listing.render settings.format words)

def execute (options : Options) : ExceptT Failure m Unit := do
  let settings ← loadSettings options
  if options.printRevision then
    Host.print (settings.encoder.revision.toJson.pretty ++ "\n")
  else
    let assembly ← assembleFile settings (options.input?.getD defaultInput)
    emit options settings assembly.words
    let failed := assembly.errors.length
    if failed ≠ 0 then throw (.failedLines failed)

def run (arguments : List String) : m Outcome :=
  match Options.parse arguments with
  | .error e => pure (.refused e)
  | .ok (.notice notice) => pure (.noticed notice)
  | .ok (.run options) => do
    match ← (execute options).run with
    | .error failure => return .failed failure
    | .ok () => return .done

end Program

/-! ## Files as values -/

/-- A file tree, with what was printed and logged so far. -/
structure World where
  files : FileTree
  output : String := ""
  events : List Event := []
  deriving Repr, DecidableEq

instance : Host (StateM World) where
  readText path := do
    return (← get).files.readText path
  writeText path text := do
    match (← get).files.writeText path text with
    | .error cause => return .error cause
    | .ok files => do
      modify ({ · with files })
      return .ok ()
  print text := modify fun world => { world with output := world.output ++ text }
  log events := modify fun world => { world with events := world.events ++ events }

def World.run (world : World) (arguments : List String) : Outcome × World :=
  (Program.run arguments : StateM World Outcome).run world

end LineAsm
