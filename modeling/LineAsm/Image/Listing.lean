import LineAsm.Word

/-!
# Listings

A program image is a list of words, and a listing is its text. There are three formats: one
hexadecimal number per line, one binary number per line, and the initializer of a program memory in
a hardware description language. All three are lossless.
-/

namespace LineAsm

inductive Format where
  | hex
  | bin
  | vhdl
  deriving Repr, DecidableEq

instance : Inhabited Format := ⟨.hex⟩

namespace Format

def name : Format → String
  | .hex => "hex"
  | .bin => "bin"
  | .vhdl => "vhdl"

/-- The format as the log names it. -/
def title : Format → String
  | .hex => "Hex"
  | .bin => "Bin"
  | .vhdl => "Vhdl"

def all : List Format := [.hex, .bin, .vhdl]

def ofName? (name : String) : Option Format := all.find? (·.name == name)

end Format

namespace Listing

/-- A hexadecimal number with its mark, in as few digits as it needs. -/
def hexLine (word : Word) : List Char := '0' :: 'x' :: word.hexDigits

/-- A binary number of 32 digits. -/
def binLine (word : Word) : List Char := word.paddedBinaryDigits

/-- What stands in front of the words of a memory initializer. -/
def vhdlPreamble : String := "signal program : PROGRAM_MEMORY := \n  ( \n"

/-- What stands behind the words of a memory initializer: all other cells are zero. -/
def vhdlPostamble : String := "  others => x\"00000000\" \n  ); \n"

/-- One cell of a memory initializer: its index and its word in eight hexadecimal digits. -/
def vhdlLine (index : Nat) (word : Word) : List Char :=
  "  ".toList ++ Nat.toDigits 10 index ++ " => x\"".toList ++ word.paddedHexDigits ++ "\",".toList

/-- The lines, each with its line ending. -/
def joinLines (lines : List (List Char)) : List Char := lines.flatMap (· ++ ['\n'])

def render (format : Format) (words : List Word) : String :=
  match format with
  | .hex => String.ofList (joinLines (words.map hexLine))
  | .bin => String.ofList (joinLines (words.map binLine))
  | .vhdl =>
    vhdlPreamble ++ String.ofList (joinLines (words.mapIdx vhdlLine)) ++ vhdlPostamble

end Listing

end LineAsm
