/-!
# Flag sets

A set of flags is kept in one byte. A family names some of its bits; the other bits are unknown to
the family but may be set all the same, and most operations keep them. Only `FlagFamily.truncate`
and `FlagFamily.complement` drop what the family does not know, and `FlagFamily.ofBits?` refuses it.
-/

namespace LineAsm

/-- A set of flags: bit by bit, in or out. -/
abbrev Flags := BitVec 8

/-- Named flags, in the order in which they are written. -/
structure FlagFamily where
  flags : List (String × Flags)
  deriving Repr, DecidableEq

namespace Flags

def insert (a b : Flags) : Flags := a ||| b

/-- Takes out the flags of `b`, and nothing else. -/
def remove (a b : Flags) : Flags := a &&& ~~~b

def toggle (a b : Flags) : Flags := a ^^^ b

def intersection (a b : Flags) : Flags := a &&& b

/-- Puts the flags of `b` in or takes them out. -/
def assign (a b : Flags) (on : Bool) : Flags := if on then a.insert b else a.remove b

def insertAll (a : Flags) (list : List Flags) : Flags := list.foldl insert a

def contains (a b : Flags) : Bool := a &&& b == b

def intersects (a b : Flags) : Bool := a &&& b != 0

end Flags

namespace FlagFamily

def all (family : FlagFamily) : Flags := Flags.insertAll 0 (family.flags.map (·.2))

/-- The set without its unknown flags. -/
def truncate (family : FlagFamily) (a : Flags) : Flags := a &&& family.all

/-- The set with these bits, if the family knows them all. -/
def ofBits? (family : FlagFamily) (bits : Flags) : Option Flags :=
  if family.truncate bits = bits then some bits else none

def ofName? (family : FlagFamily) (name : String) : Option Flags := family.flags.lookup name

/-- The known flags that are not in the set. -/
def complement (family : FlagFamily) (a : Flags) : Flags := family.truncate (~~~a)

/-- The named flags of the set, in the order of the family. -/
def names (family : FlagFamily) (a : Flags) : List (String × Flags) :=
  family.flags.filter fun flag => a.contains flag.2

/-- What is left of the set without its named flags. -/
def unknown (family : FlagFamily) (a : Flags) : Flags := a.remove family.all

/-- The set cut into its named flags and, if there is one, the unknown rest. -/
def parts (family : FlagFamily) (a : Flags) : List Flags :=
  (family.names a).map (·.2) ++ if family.unknown a = 0 then [] else [family.unknown a]

/-- Are all flags of the family in the set? Unknown flags do not matter. -/
def isAll (family : FlagFamily) (a : Flags) : Bool := a.contains family.all

/-! ## Texts -/

/-- The set as text: its names, then the unknown rest as one hexadecimal number; the empty set is
written as the number zero. -/
def describe (family : FlagFamily) (a : Flags) : String :=
  let number (rest : Flags) := "0x" ++ String.ofList (Nat.toDigits 16 rest.toNat)
  let rest := if a = 0 ∨ family.unknown a ≠ 0 then [number (family.unknown a)] else []
  "Cond(" ++ " | ".intercalate ((family.names a).map (·.1) ++ rest) ++ ")"

end FlagFamily

namespace Flags

/-- The bits in binary, octal and hexadecimal (lower and upper case), then in binary with a mark and
eight digits, and in hexadecimal with a mark. -/
def numerals (a : Flags) : List String :=
  let digits (radix : Nat) := Nat.toDigits radix a.toNat
  [String.ofList (digits 2), String.ofList (digits 8), String.ofList (digits 16),
    String.ofList ((digits 16).map Char.toUpper),
    "0b" ++ String.ofList ((digits 2).leftpad 8 '0'), "0x" ++ String.ofList (digits 16)]

end Flags

end LineAsm
