import LineAsm.Literal.Decimal
import LineAsm.Literal.Rounding
import LineAsm.Word

/-!
# Single precision

Rounding an exact decimal to the 32-bit binary interchange format, to nearest with ties to even,
in exact arithmetic on natural numbers.

Without its sign bit a pattern is a natural number below `2 ^ 31`, and the patterns are in the order
of their values. On the grid of spacing `2 ^ q` the integer significand `m` has the pattern
`(q + 149) · 2 ^ 23 + m`: for the lowest grid, `q = -149`, that is `m` itself, and on every other grid
`m` lies in the binade `[2 ^ 23, 2 ^ 24]`, whose lower end carries into the exponent and whose upper
end is the lower end of the next binade. So rounding is one choice of grid and one rounded
division, with no case for subnormal numbers and none for a carry; what reaches the pattern of
infinity has overflowed.
-/

namespace LineAsm

namespace Single

/-- The quotient `num / (den · 2 ^ q)` as a pair of natural numbers. -/
def scale (num den : Nat) (q : Int) : Nat × Nat := (num <<< (-q).toNat, den <<< q.toNat)

/-- The exponent `e` with `2 ^ e ≤ num / den < 2 ^ (e + 1)`, for a positive quotient. -/
def binaryExponent (num den : Nat) : Int :=
  let guess : Int := (num.log2 : Int) - den.log2
  let (n, d) := scale num den guess
  if d ≤ n then guess else guess - 1

def infinity : Nat := 0x7F800000

/-- The pattern of the value that is no number. -/
def notANumber : Nat := 0x7FC00000

/-- The pattern of the number nearest to `num / den`, infinity if that is too large. -/
def nearest (num den : Nat) : Nat :=
  if num = 0 then 0
  else
    let q := max (-149) (binaryExponent num den - 23)
    let (n, d) := scale num den q
    min infinity (((q + 149).toNat <<< 23) + Rounding.roundDiv n d)

/-- The pattern nearest to a decimal's magnitude. Far above and far below the range the power of
ten is not worked out: ten to the 39th already rounds to infinity, and since ten is more than two
cubed, a number below `2 ^ (-160)` is recognised by the length of its digits. -/
def nearestDecimal (value : Decimal) : Nat :=
  if value.digits = 0 then 0
  else if 38 < value.exponent then infinity
  else if (value.digits.log2 : Int) + 1 + 3 * value.exponent < -160 then 0
  else nearest (value.digits * Nat.pow 10 value.exponent.toNat) (Nat.pow 10 (-value.exponent).toNat)

def toWord (negative : Bool) (pattern : Nat) : Word :=
  BitVec.ofNat 32 (if negative then (1 <<< 31) + pattern else pattern)

/-- The word of a literal. A finite literal must not reach infinity, nor vanish unless it is zero;
one that is spelled out is taken as it is. -/
def ofLiteral : Decimal.Literal → Except FloatError Word
  | .finite value =>
    let pattern := nearestDecimal value
    if pattern = infinity then .error .overflow
    else if pattern = 0 ∧ value.digits ≠ 0 then .error .underflow
    else .ok (toWord value.negative pattern)
  | .infinity negative => .ok (toWord negative infinity)
  | .notANumber negative => .ok (toWord negative notANumber)

end Single

end LineAsm
