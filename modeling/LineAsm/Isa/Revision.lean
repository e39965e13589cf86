import LineAsm.Isa.Flags
import LineAsm.Isa.Layout
import LineAsm.Isa.OpClass

/-!
# Instruction set revisions

There are three revisions of the instruction set. Each is a set of tables: the layout of its words,
the opcodes of its mnemonics by class, the values of its condition names, and the classes that
carry a signed flag in place of a memory offset.

- The *early* revision (v1) has a flag for setting the flags and a condition of four bits, and no
  predicate.
- The *refined* revision (v2) has more mnemonics, a condition of three bits and a predicate flag. Its
  condition `ge` has the value zero, which is also the value of no condition at all.
- The *stripped* revision (v3) is the refined one without register operands: its words end with the
  opcode.
-/

namespace LineAsm

/-- Names and the values that stand for them. -/
abbrev Table := List (String × Word)

/-- The opcodes by class. The float class has the mnemonics of the alu class. -/
structure Opcodes where
  alu : Table
  memory : Table
  control : Table
  deriving Repr, DecidableEq

def Opcodes.table (opcodes : Opcodes) : OpClass → Table
  | .alu => opcodes.alu
  | .control => opcodes.control
  | .memory => opcodes.memory
  | .float => opcodes.alu

structure Isa where
  layout : Layout
  opcodes : Opcodes
  conditions : Table
  signedClasses : List OpClass
  deriving Repr, DecidableEq

namespace Isa

def opcode? (isa : Isa) (opClass : OpClass) (mnemonic : String) : Option Word :=
  (isa.opcodes.table opClass).lookup mnemonic

/-- The value of a condition name, relative to its field. -/
def condition? (isa : Isa) (name : String) : Option Word := isa.conditions.lookup name

/-- Does the class carry a signed flag in place of an offset? -/
def isSigned (isa : Isa) (opClass : OpClass) : Bool := isa.signedClasses.contains opClass

/-- The tail of a line whose class token is this one. A token that names no class takes the offset. -/
def tailOf (isa : Isa) (classToken : String) : Tail :=
  match OpClass.ofMarker? classToken with
  | some opClass => if isa.isSigned opClass then .signed else .offset
  | none => .offset

/-- Every field that an instruction of the class can fill, in packing order. -/
def fieldsFor (isa : Isa) (opClass : OpClass) : List Field :=
  (isa.layout.shape (if isa.isSigned opClass then .signed else .offset)).map (·.2.field)

end Isa

/-! ## Fields and tables of several revisions -/

/-- The fields before the operands. -/
def headerLayout : Layout where
  immediate := ⟨31, 1⟩
  writeEnable := ⟨30, 1⟩
  opClass := ⟨28, 2⟩
  opcode := ⟨24, 4⟩
  registers := []
  operands? := none

/-- The header followed by three registers and the operands. -/
def registerLayout (operands : Operands) : Layout :=
  { headerLayout with registers := [⟨20, 4⟩, ⟨16, 4⟩, ⟨12, 4⟩], operands? := some operands }

def memoryOpcodes : Table := [("lw", 1), ("sw", 2)]

def controlOpcodes : Table := [("jmp", 1), ("hlt", 2), ("int", 3)]

/-! ## The early revision -/

/-- The components of an early condition. -/
def earlyFlags : FlagFamily := ⟨[("LE", 1), ("LT", 2), ("Z", 4), ("N", 8)]⟩

def earlyIsa : Isa where
  layout := registerLayout {
    signed := ⟨11, 1⟩
    setFlags? := some ⟨8, ⟨10, 1⟩⟩
    offset := ⟨4, 8⟩
    condition := ⟨0, 4⟩
    conditionTokenSigned := 10
    conditionTokenOffset := 9
    predicate? := none }
  opcodes := {
    alu := [("nop", 0), ("shl", 1), ("shr", 2), ("mov", 3), ("add", 4), ("adc", 5), ("sub", 6),
      ("sbc", 7), ("and", 8), ("or", 9), ("not", 10), ("xor", 11), ("mfh", 12), ("mul", 15)]
    memory := memoryOpcodes
    control := controlOpcodes }
  conditions := [("z", 4), ("eq", 4), ("nz", 12), ("ne", 12), ("lt", 2), ("gt", 9), ("ge", 10),
    ("le", 1)]
  signedClasses := [.alu]

/-! ## The refined revision -/

/-- The components of a refined condition. -/
def refinedFlags : FlagFamily := ⟨[("LESS", 1), ("EQUAL", 2), ("INVERT", 4)]⟩

def refinedIsa : Isa where
  layout := registerLayout {
    signed := ⟨11, 1⟩
    setFlags? := none
    offset := ⟨4, 8⟩
    condition := ⟨1, 3⟩
    conditionTokenSigned := 8
    conditionTokenOffset := 8
    predicate? := some ⟨9, ⟨0, 1⟩⟩ }
  opcodes := {
    alu := [("nop", 0), ("mov", 1), ("add", 2), ("sub", 3), ("adc", 4), ("cmp", 5), ("and", 6),
      ("or", 7), ("not", 8), ("xor", 9), ("shl", 10), ("shr", 11), ("mul", 12)]
    memory := memoryOpcodes
    control := controlOpcodes }
  conditions := [("eq", 2), ("z", 2), ("ne", 6), ("nz", 6), ("lt", 1), ("le", 3), ("gt", 5),
    ("ge", 0)]
  signedClasses := [.alu, .control]

/-! ## The stripped revision -/

def strippedIsa : Isa where
  layout := headerLayout
  opcodes := refinedIsa.opcodes
  conditions := []
  signedClasses := []

/-! ## Revisions -/

inductive Revision where
  | v1
  | v2
  | v3
  deriving Repr, DecidableEq

instance : Inhabited Revision := ⟨.v2⟩

/-- A text that names no revision. -/
structure UnknownRevision where
  text : String
  deriving Repr, DecidableEq

def UnknownRevision.message (e : UnknownRevision) : String :=
  "unknown ISA revision `" ++ e.text ++ "` (expected v1, v2 or v3)"

namespace Revision

def tag : Revision → String
  | .v1 => "v1"
  | .v2 => "v2"
  | .v3 => "v3"

def name : Revision → String
  | .v1 => "early"
  | .v2 => "refined"
  | .v3 => "stripped"

def number : Revision → String
  | .v1 => "1"
  | .v2 => "2"
  | .v3 => "3"

def all : List Revision := [.v1, .v2, .v3]

/-- The revision that a text names, by its tag, its number or its name, whatever the case of the
letters. -/
def read (text : String) : Except UnknownRevision Revision :=
  let lower := String.ofList (text.toList.map Char.toLower)
  match all.find? fun r => lower = r.tag ∨ lower = r.number ∨ lower = r.name with
  | some revision => .ok revision
  | none => .error ⟨text⟩

def isa : Revision → Isa
  | .v1 => earlyIsa
  | .v2 => refinedIsa
  | .v3 => strippedIsa

/-- The components of the revision's conditions, if it has conditions. -/
def conditionFlags? : Revision → Option FlagFamily
  | .v1 => some earlyFlags
  | .v2 => some refinedFlags
  | .v3 => none

end Revision

end LineAsm
