import LineAsm.Word

/-!
# Bit fields

A field is a run of bits of the machine word, given by the bit it starts at and by its width. The
start lies inside the word, which the type says; the width is free, so a field may be empty or
reach over the upper end of the word, and then only its bits inside the word count.

Everything is said through two operations: `Field.place` moves a value into position and drops the
bits that the field has no room for, and `Field.mask` marks the bits of the field. Every placed
value lies within the mask, so values of fields that share no bit can be joined by a bitwise or.
-/

namespace LineAsm

/-- The bits from `shift` upwards, `width` of them, as far as the word reaches. -/
structure Field where
  shift : Fin 32
  width : Nat
  deriving Repr, DecidableEq

/-- Why numbers do not describe a field. -/
inductive FieldError where
  /-- The field would start above the highest bit of a word. -/
  | shiftTooLarge
  deriving Repr, DecidableEq

def FieldError.message : FieldError → String
  | .shiftTooLarge => "attempt to shift left with overflow"

namespace Field

/-- The field with these bounds, if it starts inside the word. -/
def ofBounds (shift width : Nat) : Except FieldError Field :=
  if h : shift < 32 then .ok ⟨⟨shift, h⟩, width⟩ else .error .shiftTooLarge

/-- The greatest value that fits: all of the field's bits set, not yet in position. -/
def max (f : Field) : Word := BitVec.ofNat 32 ((1 <<< f.width) - 1)

/-- The bits of the field, in position. -/
def mask (f : Field) : Word := f.max <<< f.shift.val

/-- Does the field hold `v` without loss? -/
def fits (f : Field) (v : Word) : Bool := decide (v ≤ f.max)

/-- The value moved into position. Bits above the width of the field are dropped. -/
def place (f : Field) (v : Word) : Word := (v &&& f.max) <<< f.shift.val

def flag (f : Field) (on : Bool) : Word := f.place (Word.ofBool on)

end Field

end LineAsm
