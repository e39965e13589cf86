import LineAsm.Isa.Revision
import LineAsm.Json.Printer

/-!
# Describing a revision

All tables of a revision as one JSON value: names, layout, opcodes, conditions and signed classes.
What a revision does not have is null.
-/

namespace LineAsm

namespace Field

def toJson (f : Field) : Json :=
  .ofMembers [("shift", .ofNat f.shift.val), ("width", .ofNat f.width)]

end Field

namespace Slot

def toJson (s : Slot) : Json :=
  .ofMembers [("token", .ofNat s.token), ("field", s.field.toJson)]

end Slot

namespace Operands

def toJson (o : Operands) : Json :=
  .ofMembers [
    ("signed", o.signed.toJson),
    ("set_flags", o.setFlags?.elim .null Slot.toJson),
    ("offset", o.offset.toJson),
    ("condition", o.condition.toJson),
    ("condition_token_signed", .ofNat o.conditionTokenSigned),
    ("condition_token_offset", .ofNat o.conditionTokenOffset),
    ("predicate", o.predicate?.elim .null Slot.toJson)]

end Operands

namespace Layout

def toJson (l : Layout) : Json :=
  .ofMembers [
    ("immediate", l.immediate.toJson),
    ("write_enable", l.writeEnable.toJson),
    ("class", l.opClass.toJson),
    ("opcode", l.opcode.toJson),
    ("registers", if l.registers.isEmpty then .null else .array (l.registers.map Field.toJson)),
    ("operand", l.operands?.elim .null Operands.toJson)]

end Layout

namespace Table

/-- A table is an array of pairs. -/
def toJson (table : Table) : Json :=
  .array (table.map fun (name, value) => .array [.ofString name, .ofNat value.toNat])

end Table

namespace Opcodes

def toJson (o : Opcodes) : Json :=
  .ofMembers [
    ("alu", Table.toJson o.alu),
    ("memory", Table.toJson o.memory),
    ("control", Table.toJson o.control)]

end Opcodes

namespace Revision

def toJson (revision : Revision) : Json :=
  let isa := revision.isa
  .ofMembers [
    ("id", .ofString revision.tag),
    ("name", .ofString revision.name),
    ("layout", isa.layout.toJson),
    ("opcodes", isa.opcodes.toJson),
    ("conditions", Table.toJson isa.conditions),
    ("signed_classes", .array (isa.signedClasses.map fun c => .ofString c.name))]

end Revision

end LineAsm
