import LineAsm.Field

/-!
# Layouts

A layout says which bits of the word each part of an instruction takes and which token of the line
it is read from. The tokens of a line are read strictly in order, so a layout gives rise to a list
of slots, its *shape*, in the order in which they are read and packed. A line that ends early
fills a first part of its shape and leaves the rest of the word zero.

The shape has two forms. From the eighth token on, some classes carry a signed flag and the others
a memory offset; both meanings share the bits, so each form of the shape holds one of them.
-/

namespace LineAsm

inductive Part where
  | immediate
  | writeEnable
  | opClass
  | opcode
  | register (index : Nat)
  | signed
  | setFlags
  | offset
  | condition
  | predicate
  deriving Repr, DecidableEq

/-- A field and the token position it is read from. -/
structure Slot where
  token : Nat
  field : Field
  deriving Repr, DecidableEq

/-- What the tokens after the registers mean. -/
inductive Tail where
  | signed
  | offset
  deriving Repr, DecidableEq

/-- The parts after the registers. The condition may stand at a different token for either tail. -/
structure Operands where
  signed : Field
  setFlags? : Option Slot
  offset : Field
  condition : Field
  conditionTokenSigned : Nat
  conditionTokenOffset : Nat
  predicate? : Option Slot
  deriving Repr, DecidableEq

/-- The fields of a word. A layout without register fields ends with the opcode. -/
structure Layout where
  immediate : Field
  writeEnable : Field
  opClass : Field
  opcode : Field
  registers : List Field
  operands? : Option Operands
  deriving Repr, DecidableEq

/-! ## Shapes

The positions of the tokens up to the operand are the same in all layouts. -/

def classToken : Nat := 2

def registerToken (index : Nat) : Nat := 4 + index

/-- The token of the signed flag or of the offset. -/
def operandToken : Nat := 7

namespace Operands

/-- The slots after the registers, in reading order. -/
def shape (o : Operands) : Tail → List (Part × Slot)
  | .signed =>
    (.signed, ⟨operandToken, o.signed⟩) :: o.setFlags?.toList.map (.setFlags, ·)
      ++ (.condition, ⟨o.conditionTokenSigned, o.condition⟩) ::
        o.predicate?.toList.map (.predicate, ·)
  | .offset =>
    (.offset, ⟨operandToken, o.offset⟩) ::
      (.condition, ⟨o.conditionTokenOffset, o.condition⟩) ::
        o.predicate?.toList.map (.predicate, ·)

end Operands

namespace Layout

def registerShape (l : Layout) : List (Part × Slot) :=
  l.registers.mapIdx fun i field => (.register i, ⟨registerToken i, field⟩)

/-- The slots of a line with the given tail, in reading order. -/
def shape (l : Layout) (tail : Tail) : List (Part × Slot) :=
  [(.immediate, ⟨0, l.immediate⟩), (.writeEnable, ⟨1, l.writeEnable⟩),
    (.opClass, ⟨classToken, l.opClass⟩), (.opcode, ⟨3, l.opcode⟩)]
    ++ l.registerShape ++ l.operands?.elim [] (·.shape tail)

end Layout

end LineAsm
