import LineAsm.Line.Directive
import LineAsm.Line.Instruction
import LineAsm.Line.Token

/-!
# Encoding a line

A line with at most one token is blank. Otherwise its first token decides: the marker of a directive
makes it a directive, and anything else an instruction. Each of the three has a word, and the word of
a blank line is zero.

An encoder fixes a revision and a mode, and gives every line a sink of its own.
-/

namespace LineAsm

inductive Line where
  | blank
  | directive (d : Directive)
  | instruction (i : Instruction)
  deriving Repr, DecidableEq

namespace Line

def read (isa : Isa) : List String → Reading Line
  | [] => pure .blank
  | [_] => pure .blank
  | head :: literal :: rest =>
    match Directive.Kind.ofMarker? head with
    | some kind => .directive <$> Reading.ofExcept (Directive.read kind literal)
    | none => .instruction <$> Instruction.read isa (head :: literal :: rest)

def word (isa : Isa) : Line → Word
  | .blank => 0
  | .directive d => d.word
  | .instruction i => i.pack isa.layout

end Line

/-- The word of a line, with the warnings that arose. -/
structure Encoded where
  word : Word
  warnings : List Warning
  deriving Repr, DecidableEq

/-- A revision and a mode under which lines are encoded. -/
structure Encoder where
  revision : Revision := default
  mode : Mode := default
  deriving Repr, DecidableEq, Inhabited

namespace Encoder

/-- The tokens as a line, with the warnings that arose. -/
def parse (encoder : Encoder) (tokens : List String) :
    Except EncodeError (Line × List Warning) :=
  let (result, sink) := (Line.read encoder.revision.isa tokens).runOn (.fresh encoder.mode)
  result.map fun line => (line, sink.warnings)

def encodeTokens (encoder : Encoder) (tokens : List String) : Except EncodeError Encoded :=
  (encoder.parse tokens).map fun (line, warnings) =>
    ⟨line.word encoder.revision.isa, warnings⟩

def encodeLine (encoder : Encoder) (text : String) : Except EncodeError Encoded :=
  encoder.encodeTokens (tokenize text)

end Encoder

end LineAsm
