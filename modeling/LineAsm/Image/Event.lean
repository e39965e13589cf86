import LineAsm.Isa.Revision
import LineAsm.Line.Fault
import LineAsm.Image.Listing
import LineAsm.Text.Terminal

/-!
# Log events

What happens during a run is told as a list of events, oldest first. An event has a severity, and a
reader of the log chooses the least severe kind that is shown: a choice of what to see, with no
influence on what happens.
-/

namespace LineAsm

inductive Level where
  | error
  | warn
  | info
  | debug
  deriving Repr, DecidableEq

namespace Level

def name : Level → String
  | .error => "ERROR"
  | .warn => "WARN"
  | .info => "INFO"
  | .debug => "DEBUG"

/-- The place in the order of severity, the most severe first. -/
def rank : Level → Nat
  | .error => 1
  | .warn => 2
  | .info => 3
  | .debug => 4

end Level

inductive Threshold where
  | off
  | error
  | warn
  | info
  | debug
  | trace
  deriving Repr, DecidableEq

namespace Threshold

def ofName? : String → Option Threshold
  | "off" => some .off
  | "error" => some .error
  | "warn" => some .warn
  | "info" => some .info
  | "debug" => some .debug
  | "trace" => some .trace
  | _ => none

/-- The rank of the least severe level that is shown. -/
def rank : Threshold → Nat
  | .off => 0
  | .error => 1
  | .warn => 2
  | .info => 3
  | .debug => 4
  | .trace => 5

def shows (threshold : Threshold) (level : Level) : Bool := level.rank ≤ threshold.rank

end Threshold

/-- Something that happened. Lines are counted from one. -/
inductive Event where
  | warned (line : Nat) (warning : Warning)
  | encoded (line : Nat) (word : Word)
  | failed (line : Nat) (error : EncodeError)
  | assembled (input : String) (words : Nat) (revision : Revision)
  | wrote (output : String) (format : Format)
  deriving Repr, DecidableEq

namespace Event

def level : Event → Level
  | .warned .. => .warn
  | .encoded .. => .debug
  | .failed .. => .error
  | .assembled .. => .info
  | .wrote .. => .info

def message : Event → String
  | .warned _ warning => warning.message
  | .encoded .. => "encoded"
  | .failed _ error => error.message
  | .assembled .. => "assembled"
  | .wrote .. => "wrote"

/-- The circumstances of the event by name, in the order in which they are told. -/
def fields : Event → List (String × String)
  | .warned line _ => [("line", line.repr)]
  | .encoded line word =>
    [("line", line.repr), ("word", "0x" ++ String.ofList word.paddedHexDigits)]
  | .failed line _ => [("line", line.repr)]
  | .assembled input words revision =>
    [("input", input), ("words", words.repr), ("revision", revision.tag)]
  | .wrote output format => [("output", output), ("format", format.title)]

/-- The event as the log shows it: the message, with its terminal controls spelled out, then the
fields. The values of the fields are shown as they are. -/
def text (e : Event) : String :=
  Text.spellControls e.message ++
    String.join (e.fields.map fun (name, value) => " " ++ name ++ "=" ++ value)

end Event

end LineAsm
