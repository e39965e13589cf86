import LineAsm.Json.Value

/-!
# Writing JSON

A value is written over several lines: two blanks for each level, one item or member per line, a
blank after a colon. An array or object that holds nothing is written without a line break.
-/

namespace LineAsm.Json

def escapeChar (c : Char) : List Char :=
  match c with
  | '"' => ['\\', '"']
  | '\\' => ['\\', '\\']
  | '\n' => ['\\', 'n']
  | '\r' => ['\\', 'r']
  | '\t' => ['\\', 't']
  | '\x08' => ['\\', 'b']
  | '\x0c' => ['\\', 'f']
  | c =>
    if c.toNat < 0x20 then ['\\', 'u'] ++ (Nat.toDigits 16 c.toNat).leftpad 4 '0' else [c]

/-- A string with its quotes. One without a text is written as a replacement character. -/
def renderString (text? : Option String) : String :=
  let text := text?.getD "\ufffd"
  "\"" ++ String.ofList (text.toList.flatMap escapeChar) ++ "\""

/-- The start of a line at the given level. -/
def indent (level : Nat) : String := "\n" ++ String.ofList (List.replicate (2 * level) ' ')

mutual

/-- The text of a value that stands at the given level. -/
def render (level : Nat) : Json → String
  | .null => "null"
  | .bool true => "true"
  | .bool false => "false"
  | .number n => String.ofList n.toChars
  | .string text? => renderString text?
  | .array [] => "[]"
  | .array (item :: items) =>
    "[" ++ indent (level + 1) ++ render (level + 1) item ++ renderItems (level + 1) items
      ++ indent level ++ "]"
  | .object [] => "\x7b\x7d"
  | .object ((key?, value) :: members) =>
    "\x7b" ++ indent (level + 1) ++ renderString key? ++ ": " ++ render (level + 1) value
      ++ renderMembers (level + 1) members ++ indent level ++ "\x7d"

def renderItems (level : Nat) : List Json → String
  | [] => ""
  | item :: items => "," ++ indent level ++ render level item ++ renderItems level items

def renderMembers (level : Nat) : List (Option String × Json) → String
  | [] => ""
  | (key?, value) :: members =>
    "," ++ indent level ++ renderString key? ++ ": " ++ render level value
      ++ renderMembers level members

end

def pretty (value : Json) : String := render 0 value

end LineAsm.Json
