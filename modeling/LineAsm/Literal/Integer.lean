/-!
# Integer literals

An integer literal is an optional sign and at least one digit. It is read from left to right, and
the first fault wins: at each position the digit is checked before the range, so a text that is
both too long and malformed is reported for whichever comes first.

Two readings are offered. `Literal.readSigned` takes either sign and stays within 64 bits in two's
complement; `Literal.readUnsigned` takes a plus only and stays within 32 bits, so a minus is just
a character that is no digit.
-/

namespace LineAsm

inductive IntegerError where
  | empty
  | invalidDigit
  | tooLarge
  | tooSmall
  deriving Repr, DecidableEq

def IntegerError.message : IntegerError → String
  | .empty => "cannot parse integer from empty string"
  | .invalidDigit => "invalid digit found in string"
  | .tooLarge => "number too large to fit in target type"
  | .tooSmall => "number too small to fit in target type"

namespace Literal

/-- The value of a digit in the given radix, letters in either case. -/
def digitValue? (radix : Nat) (c : Char) : Option Nat :=
  let value :=
    if '0' ≤ c ∧ c ≤ '9' then c.toNat - '0'.toNat
    else if 'a' ≤ c ∧ c ≤ 'f' then c.toNat - 'a'.toNat + 10
    else if 'A' ≤ c ∧ c ≤ 'F' then c.toNat - 'A'.toNat + 10
    else radix
  if value < radix then some value else none

/-- Reads on from the value `acc` of the digits so far. Leaving the range is reported as `overrun`. -/
def accumulate (radix limit : Nat) (overrun : IntegerError) (acc : Nat) :
    List Char → Except IntegerError Nat
  | [] => .ok acc
  | c :: rest =>
    match digitValue? radix c with
    | none => .error .invalidDigit
    | some d =>
      if acc * radix + d ≤ limit then accumulate radix limit overrun (acc * radix + d) rest
      else .error overrun

/-- The digits after an optional sign. There is at least one, so a sign alone is a fault. -/
def readMagnitude (radix limit : Nat) (overrun : IntegerError) : List Char → Except IntegerError Nat
  | [] => .error .invalidDigit
  | digits => accumulate radix limit overrun 0 digits

/-- An integer of 64 bits in two's complement: either sign, then digits. -/
def readSigned (radix : Nat) : List Char → Except IntegerError Int
  | [] => .error .empty
  | '-' :: digits => (readMagnitude radix (1 <<< 63) .tooSmall digits).map fun n => -(n : Int)
  | '+' :: digits => (readMagnitude radix ((1 <<< 63) - 1) .tooLarge digits).map fun n => (n : Int)
  | digits => (readMagnitude radix ((1 <<< 63) - 1) .tooLarge digits).map fun n => (n : Int)

/-- An unsigned integer of 32 bits: an optional plus, then digits. -/
def readUnsigned (radix : Nat) : List Char → Except IntegerError Nat
  | [] => .error .empty
  | '+' :: digits => readMagnitude radix ((1 <<< 32) - 1) .tooLarge digits
  | digits => readMagnitude radix ((1 <<< 32) - 1) .tooLarge digits

end Literal

end LineAsm
