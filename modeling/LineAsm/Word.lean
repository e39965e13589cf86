/-!
# Machine words

One source line assembles to one word of 32 bits. This module fixes the type, the integers that
have a word, and the digit texts in which words are written.

An integer has a word in two ways: as an unsigned value up to `2 ^ 32 - 1`, or as a signed value
down to `-2 ^ 31`, kept in two's complement. The two readings overlap on the non-negative signed
values and agree there, so `Word.ofInt?` needs no hint which of them is meant.
-/

namespace LineAsm

abbrev Word := BitVec 32

namespace Word

/-- The word of an integer, in two's complement if it is negative. Integers below the least signed
or above the greatest unsigned value have none. -/
def ofInt? (v : Int) : Option Word :=
  if -0x80000000 ≤ v ∧ v < 0x100000000 then some (BitVec.ofInt 32 v) else none

/-- The word that stands for a flag: one if it is up, zero if not. -/
def ofBool (on : Bool) : Word := if on then 1 else 0

/-! ## Digit texts -/

/-- Lower case hexadecimal digits, as few as the value needs. -/
def hexDigits (w : Word) : List Char := Nat.toDigits 16 w.toNat

/-- Exactly eight lower case hexadecimal digits. -/
def paddedHexDigits (w : Word) : List Char := w.hexDigits.leftpad 8 '0'

/-- Exactly 32 binary digits. -/
def paddedBinaryDigits (w : Word) : List Char := (Nat.toDigits 2 w.toNat).leftpad 32 '0'

end Word

end LineAsm
