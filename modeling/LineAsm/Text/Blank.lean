/-!
# Blank characters

The characters that count as blank in a source line: those with the Unicode property
`White_Space`. A source line is read as if it had none of them.
-/

namespace LineAsm.Text

/-- The code points with the property `White_Space`, as ranges from the first to the last. -/
def blankRanges : List (Nat × Nat) :=
  [(0x0009, 0x000D), (0x0020, 0x0020), (0x0085, 0x0085), (0x00A0, 0x00A0), (0x1680, 0x1680),
    (0x2000, 0x200A), (0x2028, 0x2029), (0x202F, 0x202F), (0x205F, 0x205F), (0x3000, 0x3000)]

def isBlank (c : Char) : Bool := blankRanges.any fun r => r.1 ≤ c.toNat && c.toNat ≤ r.2

def compact (text : List Char) : List Char := text.filter fun c => !isBlank c

end LineAsm.Text
