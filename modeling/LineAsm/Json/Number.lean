import LineAsm.Literal.Rounding
import LineAsm.Literal.Sign

/-!
# JSON numbers

A number is kept as it was written: sign, digits before and after the point, exponent. Nothing here
needs its value, only whether a floating point number of 64 bits could hold it at all.
-/

namespace LineAsm.Json

structure Number where
  negative : Bool
  whole : List Char
  fraction : List Char
  exponent : Int
  deriving Repr, DecidableEq

namespace Number

def ofNat (n : Nat) : Number := ⟨false, Nat.toDigits 10 n, [], 0⟩

/-! ## Reading -/

/-- The digits at the front, at least one of them, and the rest. -/
def splitDigits? (text : List Char) : Option (List Char × List Char) :=
  match text.takeWhile Char.isDigit with
  | [] => none
  | digits => some (digits, text.dropWhile Char.isDigit)

/-- The digits before the point: a zero alone, or digits of which the first is not zero. -/
def splitWhole? : List Char → Option (List Char × List Char)
  | '0' :: rest => some (['0'], rest)
  | text => splitDigits? text

/-- A point and at least one digit, or nothing. -/
def splitFraction? : List Char → Option (List Char × List Char)
  | '.' :: rest => splitDigits? rest
  | rest => some ([], rest)

/-- A mark, an optional sign and at least one digit, or nothing. -/
def splitExponent? : List Char → Option (Int × List Char)
  | [] => some (0, [])
  | c :: rest =>
    if c = 'e' ∨ c = 'E' then
      let (negative, unsigned) := Literal.splitSign rest
      (splitDigits? unsigned).map fun (digits, rest) =>
        let value : Int := Nat.ofDigitChars 10 digits 0
        (if negative then -value else value, rest)
    else some (0, c :: rest)

def splitMinus : List Char → Bool × List Char
  | '-' :: rest => (true, rest)
  | rest => (false, rest)

/-- The number at the front, and the rest. -/
def split? (text : List Char) : Option (Number × List Char) := do
  let (negative, rest) := splitMinus text
  let (whole, rest) ← splitWhole? rest
  let (fraction, rest) ← splitFraction? rest
  let (exponent, rest) ← splitExponent? rest
  some (⟨negative, whole, fraction, exponent⟩, rest)

/-! Reading takes characters away and puts none back. -/

theorem length_of_splitDigits? {text digits rest : List Char}
    (h : splitDigits? text = some (digits, rest)) : rest.length < text.length := by
  unfold splitDigits? at h
  split at h
  · cases h
  · next hd =>
    cases h
    have hall := congrArg List.length (List.takeWhile_append_dropWhile (p := Char.isDigit) (l := text))
    rw [List.length_append] at hall
    have hpos := List.length_pos_iff.mpr hd
    omega

theorem length_of_splitWhole? {text digits rest : List Char}
    (h : splitWhole? text = some (digits, rest)) : rest.length < text.length := by
  unfold splitWhole? at h
  split at h
  · cases h; simp
  · exact length_of_splitDigits? h

theorem length_of_splitFraction? {text digits rest : List Char}
    (h : splitFraction? text = some (digits, rest)) : rest.length ≤ text.length := by
  unfold splitFraction? at h
  split at h
  · have := length_of_splitDigits? h
    simp only [List.length_cons]
    omega
  · cases h; simp

theorem length_splitSign (text : List Char) :
    (Literal.splitSign text).2.length ≤ text.length := by
  unfold Literal.splitSign
  split <;> simp

theorem length_of_splitExponent? {text rest : List Char} {exponent : Int}
    (h : splitExponent? text = some (exponent, rest)) : rest.length ≤ text.length := by
  unfold splitExponent? at h
  split at h
  · cases h; simp
  · next c tail =>
    split at h
    · simp only [Option.map_eq_some_iff, Prod.exists, Prod.mk.injEq] at h
      obtain ⟨digits, left, hd, -, rfl⟩ := h
      have h1 := length_of_splitDigits? hd
      have h2 := length_splitSign tail
      simp only [List.length_cons]
      omega
    · cases h; simp

theorem length_splitMinus (text : List Char) : (splitMinus text).2.length ≤ text.length := by
  unfold splitMinus
  split <;> simp

theorem length_of_split? {text rest : List Char} {n : Number} (h : split? text = some (n, rest)) :
    rest.length < text.length := by
  simp only [split?, Option.bind_eq_bind, Option.bind_eq_some_iff, Prod.exists, Option.some.injEq,
    Prod.mk.injEq] at h
  obtain ⟨_, _, hw, _, _, hf, _, _, he, -, rfl⟩ := h
  have h1 := length_splitMinus text
  have h2 := length_of_splitWhole? hw
  have h3 := length_of_splitFraction? hf
  have h4 := length_of_splitExponent? he
  omega

/-! ## Range -/

/-- Takes in digits as long as the value stays within 64 bits. The second component counts those
that are left over. -/
def absorb (value : Nat) : List Char → Nat × Nat
  | [] => (value, 0)
  | c :: rest =>
    let next := 10 * value + (c.toNat - '0'.toNat)
    if next < (1 <<< 64) then absorb next rest else (value, rest.length + 1)

/-- The leading digits, as a number of 64 bits, and the power of ten that goes with them. A digit
before the point that is left over raises the power; one after the point that is not lowers it. -/
def scientific (n : Number) : Nat × Int :=
  let (value, wholeLeft) := absorb 0 n.whole
  let (value, fractionLeft) := absorb value n.fraction
  (value, n.exponent + wholeLeft - (n.fraction.length - fractionLeft : Nat))

/-- Does the number stay below infinity when its leading digits and its power of ten are each rounded
to 53 bits and multiplied? -/
def isFinite (n : Number) : Bool :=
  let (value, exponent) := n.scientific
  value = 0 || exponent < 0 || exponent ≤ 308 &&
    Rounding.roundToBits 53 value * Rounding.roundToBits 53 (Nat.pow 10 exponent.toNat)
      < (1 <<< 1024) - (1 <<< 970)

/-! ## Writing -/

def toChars (n : Number) : List Char :=
  (if n.negative then ['-'] else []) ++ n.whole
    ++ (if n.fraction = [] then [] else '.' :: n.fraction)
    ++ if n.exponent = 0 then [] else 'e' :: (toString n.exponent).toList

end Number

end LineAsm.Json
