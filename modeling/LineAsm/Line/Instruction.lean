import LineAsm.Isa.Revision
import LineAsm.Line.Reading

/-!
# Instructions

An instruction holds the values of its parts, each already resolved to a number or a flag. Parts that
the line does not reach are absent, so an instruction shows where its line ended.

Two walks over the parts are defined here, both in the order of the layout. *Packing* collects the
fields that are reached, with their values, and joins the placed values; it is total and takes any
instruction, also one that no line gives rise to. *Reading* follows the shape of the line: each slot
takes its token and fills one part, and the first slot whose token is missing ends the walk.
-/

namespace LineAsm

/-- What the tokens after the registers gave. -/
inductive Operand where
  | signed (signed : Bool) (setFlags? : Option Bool)
  | offset (value : Word)
  deriving Repr, DecidableEq

/-- An instruction. The parts from the class on may be absent. -/
structure Instruction where
  immediate : Bool := false
  writeEnable : Bool := false
  opClass? : Option OpClass := none
  opcode? : Option Word := none
  registers : List Word := []
  operand? : Option Operand := none
  condition? : Option Word := none
  predicate? : Option Bool := none
  deriving Repr, DecidableEq

namespace Instruction

/-! ## Packing -/

/-- The optional slot with the flag that goes there, if both are present. -/
def placeFlag? (slot? : Option Slot) (flag? : Option Bool) : List (Field × Word) :=
  match slot?, flag? with
  | some slot, some flag => [(slot.field, Word.ofBool flag)]
  | _, _ => []

def operandPlacements (o : Operands) (i : Instruction) : List (Field × Word) :=
  match i.operand? with
  | none => []
  | some operand =>
    (match operand with
      | .signed signed setFlags? =>
        (o.signed, Word.ofBool signed) :: placeFlag? o.setFlags? setFlags?
      | .offset value => [(o.offset, value)])
    ++ match i.condition? with
      | none => []
      | some condition => (o.condition, condition) :: placeFlag? o.predicate? i.predicate?

/-- The fields reached after the opcode. Registers beyond the fields are left out, and an instruction
with fewer registers than fields ends with them. -/
def registerPlacements (l : Layout) (i : Instruction) : List (Field × Word) :=
  l.registers.zip i.registers
    ++ if i.registers.length < l.registers.length then []
      else l.operands?.elim [] (operandPlacements · i)

/-- The fields that the instruction reaches, with the values that go there, in packing order. -/
def placements (l : Layout) (i : Instruction) : List (Field × Word) :=
  (l.immediate, Word.ofBool i.immediate) :: (l.writeEnable, Word.ofBool i.writeEnable) ::
    match i.opClass? with
    | none => []
    | some opClass =>
      (l.opClass, opClass.code) ::
        match i.opcode? with
        | none => []
        | some opcode => (l.opcode, opcode) :: registerPlacements l i

/-- The word with the given values in the given fields. -/
def join (placements : List (Field × Word)) : Word :=
  placements.foldr (fun placed word => placed.1.place placed.2 ||| word) 0

def pack (l : Layout) (i : Instruction) : Word := join (placements l i)

/-! ## Reading -/

/-- A register operand: any one character, then the number of the register. -/
def readRegister (token : String) : Except Reason Word :=
  ((Literal.readUnsigned 10 (token.toList.drop 1)).map (BitVec.ofNat 32)).mapError .integer

def readOffset (token : String) : Except Reason Word :=
  ((Literal.readUnsigned 10 token.toList).map (BitVec.ofNat 32)).mapError .integer

/-- Reads one token into the part whose slot it stands in.

- A token that names no class gives the class whose code is zero.
- A register number that does not fit loses its upper bits.
- An offset that does not fit, an unknown mnemonic and an unknown condition become zero. The empty
  condition is no fault: it is how a line leaves the condition out. -/
def fill (isa : Isa) (part : Part) (field : Field) (token : String) (i : Instruction) :
    Reading Instruction :=
  match part with
  | .immediate => pure { i with immediate := token == "i" }
  | .writeEnable => pure { i with writeEnable := token == "1" }
  | .opClass => do
    let opClass ← Reading.orWarn (OpClass.ofMarker? token) (.unknownClass token) .alu
    pure { i with opClass? := some opClass }
  | .opcode => do
    let opClass := i.opClass?.getD .alu
    let opcode ← Reading.orWarn (isa.opcode? opClass token) (.unknownMnemonic opClass token) 0
    pure { i with opcode? := some opcode }
  | .register index => do
    let value ← Reading.expect .registerOperand token (readRegister token)
    if !field.fits value then
      Reading.warn (.registerOutOfRange index value field.max)
    pure { i with registers := i.registers ++ [value &&& field.max] }
  | .signed => pure { i with operand? := some (.signed (token == "s") none) }
  | .setFlags =>
    match i.operand? with
    | some (.signed signed _) =>
      pure { i with operand? := some (.signed signed (some (token == "sf"))) }
    | _ => pure i
  | .offset => do
    let value ← Reading.expect .memoryOffset token (readOffset token)
    let fitting? := if field.fits value then some value else none
    let offset ← Reading.orWarn fitting? (.offsetOutOfRange value) 0
    pure { i with operand? := some (.offset offset) }
  | .condition => do
    let found? := if token == "" then some 0 else isa.condition? token
    let condition ← Reading.orWarn found? (.unknownCondition token) 0
    pure { i with condition? := some condition }
  | .predicate => pure { i with predicate? := some (token == "p") }

/-- Fills the slots of a shape from the tokens of a line, up to the first slot without a token. -/
def fillShape (isa : Isa) (tokens : List String) :
    List (Part × Slot) → Instruction → Reading Instruction
  | [], i => pure i
  | (part, slot) :: rest, i =>
    match tokens[slot.token]? with
    | none => pure i
    | some token => do
      let filled ← fill isa part slot.field token i
      fillShape isa tokens rest filled

/-- The shape of the line with these tokens. Without a class token the tail is never reached. -/
def shapeOf (isa : Isa) (tokens : List String) : List (Part × Slot) :=
  isa.layout.shape (tokens[classToken]?.elim .offset isa.tailOf)

def read (isa : Isa) (tokens : List String) : Reading Instruction :=
  fillShape isa tokens (shapeOf isa tokens) {}

end Instruction

end LineAsm
