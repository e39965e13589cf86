import LineAsm.Isa.OpClass
import LineAsm.Literal.Decimal
import LineAsm.Literal.Integer

/-!
# What can be wrong with a line

There are two kinds of fault. A *warning* leaves a way to go on: the field in question becomes zero,
or loses the bits that do not fit. An *error* ends the line. Which of the two a fault is depends on
the mode only for warnings: strict mode turns the first one into an error.

Faults are kept as causes, and each has its wording in one function.
-/

namespace LineAsm

inductive Mode where
  /-- Fill the field with zero, note the warning and go on. -/
  | lenient
  | strict
  deriving Repr, DecidableEq

instance : Inhabited Mode := ⟨.lenient⟩

def Mode.name : Mode → String
  | .lenient => "lenient"
  | .strict => "strict"

/-- A fault that lenient mode tolerates. -/
inductive Warning where
  | unknownMnemonic (opClass : OpClass) (mnemonic : String)
  | unknownClass (token : String)
  | unknownCondition (token : String)
  | offsetOutOfRange (value : Word)
  | registerOutOfRange (index : Nat) (value max : Word)
  deriving Repr, DecidableEq

def Warning.message : Warning → String
  | .unknownMnemonic opClass mnemonic =>
    "unknown " ++ opClass.title ++ " mnemonic `" ++ mnemonic ++ "`, opcode left zero"
  | .unknownClass token =>
    "unknown instruction class `" ++ token ++ "`, class bits left zero"
  | .unknownCondition token =>
    "unknown condition `" ++ token ++ "`, condition left zero"
  | .offsetOutOfRange value =>
    "memory offset " ++ value.toNat.repr ++ " exceeds 255, offset left zero"
  | .registerOutOfRange index value max =>
    "register operand " ++ index.repr ++ " value " ++ value.toNat.repr ++ " exceeds "
      ++ max.toNat.repr ++ ", truncated"

inductive Subject where
  | decimalLiteral
  | hexLiteral
  | floatLiteral
  | registerOperand
  | memoryOffset
  deriving Repr, DecidableEq

def Subject.name : Subject → String
  | .decimalLiteral => "decimal literal"
  | .hexLiteral => "hex literal"
  | .floatLiteral => "float literal"
  | .registerOperand => "register operand"
  | .memoryOffset => "memory offset"

inductive Reason where
  | integer (cause : IntegerError)
  | float (cause : FloatError)
  /-- A second sign, after the first one or after the mark of the radix. -/
  | repeatedSign
  /-- An integer that has no word. -/
  | outOfWordRange
  deriving Repr, DecidableEq

def Reason.message : Reason → String
  | .integer cause => cause.message
  | .float cause => cause.message
  | .repeatedSign => "repeated sign"
  | .outOfWordRange => "out of 32-bit range"

/-- A fault that ends a line. -/
inductive EncodeError where
  | unreadable (subject : Subject) (token : String) (reason : Reason)
  /-- The first warning of the line, in strict mode. -/
  | rejected (warning : Warning)
  deriving Repr, DecidableEq

def EncodeError.message : EncodeError → String
  | .unreadable subject token reason =>
    "cannot parse " ++ subject.name ++ " from `" ++ token ++ "`: " ++ reason.message
  | .rejected warning => "rejected in strict mode: " ++ warning.message

end LineAsm
