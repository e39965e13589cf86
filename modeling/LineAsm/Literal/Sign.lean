/-!
# Signs

Several literals start with an optional sign.
-/

namespace LineAsm.Literal

/-- Takes off an optional sign; the first component says whether it was a minus. -/
def splitSign : List Char → Bool × List Char
  | '-' :: rest => (true, rest)
  | '+' :: rest => (false, rest)
  | rest => (false, rest)

def startsWithSign : List Char → Bool
  | '-' :: _ => true
  | '+' :: _ => true
  | _ => false

end LineAsm.Literal
