import LineAsm.Literal.Sign

/-!
# Decimal literals

A decimal literal is an optional sign, digits with an optional point among or around them, and an
optional exponent. It denotes an exact number, `digits · 10 ^ exponent` with a sign, and is kept
as such: no digit is lost here. In place of the digits a literal may spell out an infinity or a
value that is no number, in any mixture of cases.
-/

namespace LineAsm

/-- The number `digits · 10 ^ exponent`, negated if `negative`. A zero keeps its sign. -/
structure Decimal where
  negative : Bool
  digits : Nat
  exponent : Int
  deriving Repr, DecidableEq

inductive Decimal.Literal where
  | finite (value : Decimal)
  | infinity (negative : Bool)
  | notANumber (negative : Bool)
  deriving Repr, DecidableEq

/-- Why a text gives no floating point number. -/
inductive FloatError where
  | empty
  | malformed
  /-- The number is too far from zero. -/
  | overflow
  /-- The number is not zero and would become so. -/
  | underflow
  deriving Repr, DecidableEq

def FloatError.message : FloatError → String
  | .empty => "cannot parse float from empty string"
  | .malformed => "invalid float literal"
  | .overflow => "overflows f32"
  | .underflow => "underflows f32"

namespace Decimal

/-- The exponent part: nothing at all, or a mark, an optional sign and at least one digit. -/
def readExponent? : List Char → Option Int
  | [] => some 0
  | mark :: rest =>
    let (negative, digits) := Literal.splitSign rest
    if (mark = 'e' ∨ mark = 'E') ∧ digits ≠ [] ∧ digits.all Char.isDigit then
      let value : Int := Nat.ofDigitChars 10 digits 0
      some (if negative then -value else value)
    else none

/-- A fraction part: a point and the digits after it, or nothing. -/
def splitFraction : List Char → List Char × List Char
  | '.' :: rest => (rest.takeWhile Char.isDigit, rest.dropWhile Char.isDigit)
  | rest => ([], rest)

/-- A number without a sign: digits with an optional point, at least one digit in all, and an
optional exponent. Every digit after the point lowers the exponent by one. -/
def readUnsigned? (text : List Char) : Option (Nat × Int) :=
  let whole := text.takeWhile Char.isDigit
  let (fraction, rest) := splitFraction (text.dropWhile Char.isDigit)
  if whole = [] ∧ fraction = [] then none
  else (readExponent? rest).map fun exponent =>
    (Nat.ofDigitChars 10 (whole ++ fraction) 0, exponent - fraction.length)

def Literal.read (text : List Char) : Except FloatError Literal :=
  if text = [] then .error .empty
  else
    let (negative, body) := Literal.splitSign text
    let word := String.ofList (body.map Char.toLower)
    if word = "inf" ∨ word = "infinity" then .ok (.infinity negative)
    else if word = "nan" then .ok (.notANumber negative)
    else match readUnsigned? body with
      | some (digits, exponent) => .ok (.finite ⟨negative, digits, exponent⟩)
      | none => .error .malformed

end Decimal

end LineAsm
