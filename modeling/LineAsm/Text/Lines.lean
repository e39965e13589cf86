/-!
# Source lines

A newline ends a line, and one carriage return right before it belongs to the line ending. What
follows the last newline is a line only if it is not empty, so a text that ends in a newline has
as many lines as newlines.
-/

namespace LineAsm.Text

/-- The lines of a text, without their line endings. -/
def splitLines : List Char → List (List Char)
  | [] => []
  | '\n' :: rest => [] :: splitLines rest
  | '\r' :: '\n' :: rest => [] :: splitLines rest
  | c :: rest =>
    match splitLines rest with
    | [] => [[c]]
    | line :: lines => (c :: line) :: lines

/-- The lines of a text, without their line endings. -/
def lines (text : String) : List String := (splitLines text.toList).map String.ofList

end LineAsm.Text
