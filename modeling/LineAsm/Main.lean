import LineAsm.Command.Program

/-!
# The command line program

The host of a real run: files of the file system, standard output, and a log on standard error. The
log shows errors unless the environment names another threshold. The texts of the notices are here
as well.
-/

namespace LineAsm

/-- The environment variable that names the least severe level of the log. -/
def logVariable : String := "RUST_LOG"

def FileError.ofSystem : IO.Error → FileError
  | .noFileOrDirectory .. => .notFound
  | .inappropriateType _ 20 _ => .notDirectory
  | .inappropriateType .. => .isDirectory
  | .invalidArgument _ 40 _ => .tooManyLinks
  | e => .other e.toString

/-- A result, with a failure as a value. -/
def capture {α : Type} (action : IO α) : IO (Except FileError α) :=
  try
    return .ok (← action)
  catch e =>
    return .error (.ofSystem e)

/-- The threshold that a list of names asks for, in small or capital letters. The last name of a
level counts, and without one errors are shown. -/
def thresholdOf (names : String) : Threshold :=
  ((names.splitOn ",").filterMap fun name => Threshold.ofName? name.toLower).getLast?.getD .error

/-- The threshold that the environment asks for. -/
def logThreshold : IO Threshold := do
  let names? ← IO.getEnv logVariable
  return thresholdOf (names?.getD "")

instance : Host IO where
  readText path := do
    match ← capture (IO.FS.readBinFile path) with
    | .error cause => return .error cause
    | .ok bytes =>
      match String.fromUTF8? bytes with
      | some text => return .ok text
      | none => return .error .notText
  writeText path text := capture (IO.FS.writeFile path text)
  print text := IO.print text
  log events := do
    let threshold ← logThreshold
    for event in events do
      if threshold.shows event.level then
        IO.eprintln (event.level.name ++ " " ++ event.text)

def Notice.text : Notice → String
  | .version => "pmasm-cli 0.1.0\n"
  | .help =>
    let flags := Argument.flags.map (·.1) ++ Argument.notices.map (·.1)
    let options := Argument.valued.map (fun name => "--" ++ name ++ " <VALUE>")
      ++ flags.map fun name => "--" ++ name
    "Usage: pmasm [OPTIONS] [INPUT] [OUTPUT]\n\nOptions:\n"
      ++ String.join (options.map fun option => "  " ++ option ++ "\n")

end LineAsm

open LineAsm in
def main (arguments : List String) : IO UInt32 := do
  let outcome ← Program.run arguments
  match outcome with
  | .done => pure ()
  | .noticed notice => IO.print notice.text
  | .failed failure => IO.eprint failure.report
  | .refused e => IO.eprintln ("error: " ++ e.message)
  return UInt32.ofNat outcome.exitCode
