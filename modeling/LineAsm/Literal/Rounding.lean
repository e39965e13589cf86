/-!
# Rounding

To the nearest integer, a half to the even one, in exact arithmetic.
-/

namespace LineAsm.Rounding

/-- The quotient rounded to the nearest integer, a half to the even one. -/
def roundDiv (num den : Nat) : Nat :=
  let quotient := num / den
  let twice := 2 * (num % den)
  if twice < den then quotient
  else if den < twice then quotient + 1
  else quotient + quotient % 2

/-- The number rounded to at most `bits` significant binary digits. -/
def roundToBits (bits n : Nat) : Nat :=
  let unit := 1 <<< (n.log2 + 1 - bits)
  roundDiv n unit * unit

end LineAsm.Rounding
