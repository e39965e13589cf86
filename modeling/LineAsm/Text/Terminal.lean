/-!
# Text for a terminal

A message may quote a token of the source, and a token may hold characters that a terminal obeys
instead of showing: the bell, those that move back or wipe, and those that start a control
sequence. In text for a terminal each of them is spelled by its code, so that a quoted token can
be seen and does nothing. All other characters stand for themselves, a backslash too: the spelling
is for a reader, not for reading back.
-/

namespace LineAsm.Text

/-- The characters of one byte that a terminal obeys: bell, backspace, form feed, escape and
delete. -/
def terminalControls : List Char := ['\x07', '\x08', '\x0c', '\x1b', '\x7f']

/-- Is the character one of the C1 controls, the code points from 80 to 9f in hexadecimal? -/
def isUpperControl (c : Char) : Bool := 0x80 ≤ c.toNat && c.toNat ≤ 0x9F

/-- A character as a terminal may see it. A control of one byte is spelled with two digits, an
upper one with its code point in braces. -/
def spellChar (c : Char) : List Char :=
  let digits := Nat.toDigits 16 c.toNat
  if terminalControls.contains c then '\\' :: 'x' :: digits.leftpad 2 '0'
  else if isUpperControl c then ['\\', 'u', '\x7b'] ++ digits ++ ['\x7d']
  else [c]

/-- The text with its terminal controls spelled out. -/
def spellControls (text : String) : String := String.ofList (text.toList.flatMap spellChar)

end LineAsm.Text
