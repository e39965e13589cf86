import LineAsm.Word

/-!
# Instruction classes

The third token of an instruction names its class. The class picks the table in which the mnemonic
is looked up, and with it the shape of the rest of the line.
-/

namespace LineAsm

inductive OpClass where
  | alu
  | control
  | memory
  | float
  deriving Repr, DecidableEq

namespace OpClass

/-- All classes, in the order of their codes. -/
def all : List OpClass := [.alu, .control, .memory, .float]

def ofMarker? : String → Option OpClass
  | "a" => some .alu
  | "c" => some .control
  | "m" => some .memory
  | "f" => some .float
  | _ => none

/-- The two bits that stand for the class in a word. -/
def code : OpClass → Word
  | .alu => 0
  | .control => 1
  | .memory => 2
  | .float => 3

/-- The class in lower case, as tables name it. -/
def name : OpClass → String
  | .alu => "alu"
  | .control => "control"
  | .memory => "memory"
  | .float => "float"

/-- The class as messages name it. -/
def title : OpClass → String
  | .alu => "Alu"
  | .control => "Control"
  | .memory => "Memory"
  | .float => "Float"

end OpClass

end LineAsm
