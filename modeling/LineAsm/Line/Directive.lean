import LineAsm.Line.Fault
import LineAsm.Literal.Single

/-!
# Data directives

A directive puts a literal into the image as a word of its own. The first token says how the second
is read: as a decimal integer, as a hexadecimal integer with an optional mark `0x`, or as a number in
single precision, kept as its bit pattern.
-/

namespace LineAsm

/-- How the literal of a directive is read. -/
inductive Directive.Kind where
  | decimal
  | hex
  | float
  deriving Repr, DecidableEq

/-- A directive, with the word of its literal. -/
structure Directive where
  kind : Directive.Kind
  word : Word
  deriving Repr, DecidableEq

namespace Directive

namespace Kind

def ofMarker? : String → Option Kind
  | "di" => some .decimal
  | "dh" => some .hex
  | "df" => some .float
  | _ => none

def name : Kind → String
  | .decimal => "decimal"
  | .hex => "hex"
  | .float => "float"

def subject : Kind → Subject
  | .decimal => .decimalLiteral
  | .hex => .hexLiteral
  | .float => .floatLiteral

end Kind

/-! ## Literals -/

/-- The word of an integer, or the reason why it has none. -/
def wordOf (value : Int) : Except Reason Word :=
  match Word.ofInt? value with
  | some word => .ok word
  | none => .error .outOfWordRange

def readDecimal (literal : List Char) : Except Reason Word := do
  let value ← (Literal.readSigned 10 literal).mapError .integer
  wordOf value

/-- Takes off the optional mark of a hexadecimal integer. -/
def dropHexMark : List Char → List Char
  | '0' :: 'x' :: rest => rest
  | '0' :: 'X' :: rest => rest
  | rest => rest

/-- A hexadecimal integer: an optional sign, an optional mark and digits. A sign in front of the digits
would be read as part of them, so it is refused first. -/
def readHex (literal : List Char) : Except Reason Word := do
  let (negative, rest) := Literal.splitSign literal
  let digits := dropHexMark rest
  if Literal.startsWithSign digits then throw .repeatedSign
  let value ← (Literal.readSigned 16 digits).mapError .integer
  wordOf (if negative then -value else value)

def readFloat (literal : List Char) : Except Reason Word :=
  (Decimal.Literal.read literal >>= Single.ofLiteral).mapError .float

def readLiteral : Kind → List Char → Except Reason Word
  | .decimal => readDecimal
  | .hex => readHex
  | .float => readFloat

def read (kind : Kind) (literal : String) : Except EncodeError Directive :=
  ((readLiteral kind literal.toList).map (Directive.mk kind)).mapError
    (.unreadable kind.subject literal)

/-- The directive that the two tokens form, if the first one is the marker of a directive. -/
def ofTokens (head literal : String) : Except EncodeError (Option Directive) :=
  match Kind.ofMarker? head with
  | some kind => (read kind literal).map some
  | none => .ok none

end Directive

end LineAsm
