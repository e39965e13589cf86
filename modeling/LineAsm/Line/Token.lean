import LineAsm.Text.Blank

/-!
# Tokens

A source line is a list of tokens between commas. Blanks mean nothing, inside a token as little as
around it, so a line is freed of them before it is cut. A token may be empty, and a line always
has at least one: the empty line is one empty token.

`joinTokens` goes the other way. The two are inverse up to blanks, as long as no token holds a
comma or a blank.
-/

namespace LineAsm

/-- What stands between two tokens. -/
def delimiter : Char := ','

def tokenize (line : String) : List String :=
  ((Text.compact line.toList).splitOn delimiter).map String.ofList

def joinTokens (tokens : List String) : String :=
  String.ofList ([delimiter].intercalate (tokens.map String.toList))

end LineAsm
