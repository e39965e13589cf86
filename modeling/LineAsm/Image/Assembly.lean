import LineAsm.Image.Event
import LineAsm.Line.Encoder
import LineAsm.Text.Lines

/-!
# Assembling a source

A source is assembled line by line into an image of as many words as it has lines, together with the
diagnostics of its lines and the log of what happened. A line that cannot be encoded either ends the
work or leaves a zero word behind, as the policy says.

`Assembly` values can be put one after the other, and the assembly of a source is that of its lines
put together: a line contributes the same wherever it stands, its number apart.
-/

namespace LineAsm

/-- What to do about a line that cannot be encoded. -/
inductive Policy where
  | abort
  /-- Put a zero word in its place and go on. -/
  | continue
  deriving Repr, DecidableEq

instance : Inhabited Policy := ⟨.abort⟩

def Policy.name : Policy → String
  | .abort => "abort"
  | .continue => "continue"

inductive Severity where
  | warning
  | error
  deriving Repr, DecidableEq

def Severity.name : Severity → String
  | .warning => "warning"
  | .error => "error"

/-- A message about a line; lines are counted from one. -/
structure Diagnostic where
  line : Nat
  severity : Severity
  message : String
  deriving Repr, DecidableEq

/-- The words of an image and what there is to say about its lines. -/
structure Assembly where
  words : List Word
  diagnostics : List Diagnostic
  deriving Repr, DecidableEq

/-- The line that ended the work, and why. -/
structure AssembleError where
  line : Nat
  cause : EncodeError
  deriving Repr, DecidableEq

def AssembleError.message (e : AssembleError) : String :=
  "line " ++ e.line.repr ++ ": " ++ e.cause.message

namespace Assembly

def empty : Assembly := ⟨[], []⟩

/-- One image after the other. -/
def append (a b : Assembly) : Assembly := ⟨a.words ++ b.words, a.diagnostics ++ b.diagnostics⟩

/-- The lines that could not be encoded. -/
def errors (a : Assembly) : List Diagnostic := a.diagnostics.filter (·.severity = .error)

def hasErrors (a : Assembly) : Bool := a.diagnostics.any (·.severity = .error)

def ofEncoded (line : Nat) (encoded : Encoded) : Assembly :=
  ⟨[encoded.word], encoded.warnings.map fun w => ⟨line, .warning, w.message⟩⟩

def ofFailed (line : Nat) (cause : EncodeError) : Assembly := ⟨[0], [⟨line, .error, cause.message⟩]⟩

end Assembly

/-- What a piece of work gives: a result, and the log of it, which a failure does not undo. -/
structure Logged (α : Type) where
  events : List Event
  result : Except AssembleError α

namespace Encoder

def assembleLine (encoder : Encoder) (policy : Policy) (line : Nat) (text : String) :
    Logged Assembly :=
  match encoder.encodeLine text with
  | .ok encoded =>
    ⟨encoded.warnings.map (.warned line) ++ [.encoded line encoded.word],
      .ok (.ofEncoded line encoded)⟩
  | .error cause =>
    match policy with
    | .abort => ⟨[], .error ⟨line, cause⟩⟩
    | .continue => ⟨[.failed line cause], .ok (.ofFailed line cause)⟩

/-- Assembles lines, the first of which has the given number. -/
def assembleLines (encoder : Encoder) (policy : Policy) : Nat → List String → Logged Assembly
  | _, [] => ⟨[], .ok .empty⟩
  | line, text :: rest =>
    let first := encoder.assembleLine policy line text
    match first.result with
    | .error e => ⟨first.events, .error e⟩
    | .ok assembly =>
      let others := assembleLines encoder policy (line + 1) rest
      ⟨first.events ++ others.events, others.result.map assembly.append⟩

/-- Assembles a source, with the log of the work. -/
def assembleLogged (encoder : Encoder) (policy : Policy) (source : String) : Logged Assembly :=
  encoder.assembleLines policy 1 (Text.lines source)

def assemble (encoder : Encoder) (policy : Policy) (source : String) :
    Except AssembleError Assembly :=
  (encoder.assembleLogged policy source).result

end Encoder

end LineAsm
