import LineAsm.Json.Lexeme

/-!
# Reading JSON

The lexemes of a text are taken in one after the other by a machine that keeps the arrays and objects
still open on a stack. A state is that stack and what may come next; a text is a value if all of it
is taken in and the machine ends with nothing open and one value done.
-/

namespace LineAsm.Json

/-- An array or object still open, with what it holds so far, newest first. -/
inductive Frame where
  | items (before : List Json)
  | member (before : List (Option String × Json)) (key? : Option String)

inductive Expectation where
  | value
  /-- Right after the opening of an array. -/
  | itemOrClose
  /-- Right after the opening of an object. -/
  | keyOrClose
  | key (before : List (Option String × Json))
  | colon (before : List (Option String × Json)) (key? : Option String)
  /-- A value is done, and goes into the innermost frame. -/
  | done (value : Json)

structure State where
  frames : List Frame
  next : Expectation

namespace State

/-- Takes in a lexeme where a value starts. -/
def start? (frames : List Frame) : Lexeme → Option State
  | .leftBracket => some ⟨frames, .itemOrClose⟩
  | .leftBrace => some ⟨frames, .keyOrClose⟩
  | .null => some ⟨frames, .done .null⟩
  | .bool value => some ⟨frames, .done (.bool value)⟩
  | .number value => some ⟨frames, .done (.number value)⟩
  | .string text? => some ⟨frames, .done (.string text?)⟩
  | _ => none

/-- Takes in a lexeme after a value. -/
def close? (value : Json) : List Frame → Lexeme → Option State
  | .items before :: frames, .comma => some ⟨.items (value :: before) :: frames, .value⟩
  | .items before :: frames, .rightBracket =>
    some ⟨frames, .done (.array (value :: before).reverse)⟩
  | .member before key? :: frames, .comma => some ⟨frames, .key ((key?, value) :: before)⟩
  | .member before key? :: frames, .rightBrace =>
    some ⟨frames, .done (.object ((key?, value) :: before).reverse)⟩
  | _, _ => none

def step? (state : State) (lexeme : Lexeme) : Option State :=
  match state.next, lexeme with
  | .value, _ => start? state.frames lexeme
  | .itemOrClose, .rightBracket => some ⟨state.frames, .done (.array [])⟩
  | .itemOrClose, _ => start? (.items [] :: state.frames) lexeme
  | .keyOrClose, .rightBrace => some ⟨state.frames, .done (.object [])⟩
  | .keyOrClose, .string key? => some ⟨state.frames, .colon [] key?⟩
  | .key before, .string key? => some ⟨state.frames, .colon before key?⟩
  | .colon before key?, .colon => some ⟨.member before key? :: state.frames, .value⟩
  | .done value, _ => close? value state.frames lexeme
  | _, _ => none

def result? : State → Option Json
  | ⟨[], .done value⟩ => some value
  | _ => none

end State

def parse? (text : String) : Option Json := do
  let lexemes ← lexemes? text.toList
  let final ← lexemes.foldlM State.step? ⟨[], .value⟩
  final.result?

end LineAsm.Json
