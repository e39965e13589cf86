import LineAsm.Json.Value
import LineAsm.Literal.Integer

/-!
# JSON lexemes

A JSON text is cut into lexemes, with blanks between them dropped. Every lexeme takes at least one
character, which is why cutting ends.

In a string, an escape by code gives one unit of a 16-bit encoding. Two such units that form a
surrogate pair give one character; a surrogate without its partner leaves the string without a text.
-/

namespace LineAsm.Json

/-- The smallest pieces of a JSON text. -/
inductive Lexeme where
  | leftBracket
  | rightBracket
  | leftBrace
  | rightBrace
  | comma
  | colon
  | null
  | bool (value : Bool)
  | number (value : Number)
  | string (text? : Option String)
  deriving Repr, DecidableEq

/-! ## Strings -/

/-- What stands in a string: a character, or a unit of a 16-bit encoding given by its code. -/
inductive StringUnit where
  | char (c : Char)
  | code (unit : Nat)
  deriving Repr, DecidableEq

/-- The character that a short escape stands for. -/
def shortEscape? : Char → Option Char
  | '"' => some '"'
  | '\\' => some '\\'
  | '/' => some '/'
  | 'b' => some '\x08'
  | 'f' => some '\x0c'
  | 'n' => some '\n'
  | 'r' => some '\r'
  | 't' => some '\t'
  | _ => none

/-- The number of four hexadecimal digits. -/
def hexUnit? (a b c d : Char) : Option Nat := do
  let a ← Literal.digitValue? 16 a
  let b ← Literal.digitValue? 16 b
  let c ← Literal.digitValue? 16 c
  let d ← Literal.digitValue? 16 d
  some (((a * 16 + b) * 16 + c) * 16 + d)

/-- The units of a string up to its closing quote, and the rest. Control characters have to be
escaped. -/
def splitString? : List Char → Option (List StringUnit × List Char)
  | [] => none
  | '"' :: rest => some ([], rest)
  | '\\' :: 'u' :: a :: b :: c :: d :: rest => do
    let unit ← hexUnit? a b c d
    let (units, rest) ← splitString? rest
    some (.code unit :: units, rest)
  | '\\' :: escape :: rest => do
    let c ← shortEscape? escape
    let (units, rest) ← splitString? rest
    some (.char c :: units, rest)
  | c :: rest =>
    if c.toNat < 0x20 ∨ c = '\\' then none
    else (splitString? rest).map fun (units, rest) => (.char c :: units, rest)

def isLeadingSurrogate (unit : Nat) : Bool := 0xD800 ≤ unit && unit < 0xDC00

def isTrailingSurrogate (unit : Nat) : Bool := 0xDC00 ≤ unit && unit < 0xE000

/-- The text of a string, unless it holds an unpaired surrogate. -/
def decodeUnits? : List StringUnit → Option (List Char)
  | [] => some []
  | .char c :: rest => (decodeUnits? rest).map (c :: ·)
  | .code a :: .code b :: rest =>
    if isLeadingSurrogate a then
      if isTrailingSurrogate b then
        (decodeUnits? rest).map
          (Char.ofNat (0x10000 + (a - 0xD800) * 0x400 + (b - 0xDC00)) :: ·)
      else none
    else if isTrailingSurrogate a then none
    else (decodeUnits? (.code b :: rest)).map (Char.ofNat a :: ·)
  | .code a :: rest =>
    if isLeadingSurrogate a || isTrailingSurrogate a then none
    else (decodeUnits? rest).map (Char.ofNat a :: ·)

/-! ## Cutting -/

def isSpace (c : Char) : Bool := c = ' ' || c = '\t' || c = '\n' || c = '\r'

/-- The lexeme at the front of a text without leading blanks, and the rest. -/
def splitLexeme? : List Char → Option (Lexeme × List Char)
  | '[' :: rest => some (.leftBracket, rest)
  | ']' :: rest => some (.rightBracket, rest)
  | '\x7b' :: rest => some (.leftBrace, rest)
  | '\x7d' :: rest => some (.rightBrace, rest)
  | ',' :: rest => some (.comma, rest)
  | ':' :: rest => some (.colon, rest)
  | 'n' :: 'u' :: 'l' :: 'l' :: rest => some (.null, rest)
  | 't' :: 'r' :: 'u' :: 'e' :: rest => some (.bool true, rest)
  | 'f' :: 'a' :: 'l' :: 's' :: 'e' :: rest => some (.bool false, rest)
  | '"' :: rest => (splitString? rest).map fun (units, rest) =>
      (.string ((decodeUnits? units).map String.ofList), rest)
  | text => (Number.split? text).map fun (n, rest) => (.number n, rest)

theorem length_of_splitString? {text rest : List Char} {units : List StringUnit}
    (h : splitString? text = some (units, rest)) : rest.length < text.length := by
  fun_induction splitString? text generalizing units rest with
  | case1 => cases h
  | case2 => cases h; simp
  | case3 a b c d tail ih =>
    simp only [Option.bind_eq_bind, Option.bind_eq_some_iff, Prod.exists, Option.some.injEq,
      Prod.mk.injEq] at h
    obtain ⟨_, -, _, _, hs, -, rfl⟩ := h
    have := ih hs
    simp only [List.length_cons]
    omega
  | case4 escape tail _ ih =>
    simp only [Option.bind_eq_bind, Option.bind_eq_some_iff, Prod.exists, Option.some.injEq,
      Prod.mk.injEq] at h
    obtain ⟨_, -, _, _, hs, -, rfl⟩ := h
    have := ih hs
    simp only [List.length_cons]
    omega
  | case5 => cases h
  | case6 c tail _ _ _ _ ih =>
    simp only [Option.map_eq_some_iff, Prod.exists, Prod.mk.injEq] at h
    obtain ⟨_, _, hs, -, rfl⟩ := h
    have := ih hs
    simp only [List.length_cons]
    omega

theorem length_of_splitLexeme? {text rest : List Char} {lexeme : Lexeme}
    (h : splitLexeme? text = some (lexeme, rest)) : rest.length < text.length := by
  unfold splitLexeme? at h
  split at h
  case h_10 =>
    simp only [Option.map_eq_some_iff, Prod.exists, Prod.mk.injEq] at h
    obtain ⟨_, _, hs, -, rfl⟩ := h
    have := length_of_splitString? hs
    simp only [List.length_cons]
    omega
  case h_11 =>
    simp only [Option.map_eq_some_iff, Prod.exists, Prod.mk.injEq] at h
    obtain ⟨_, _, hs, -, rfl⟩ := h
    exact Number.length_of_split? hs
  all_goals
    cases h
    simp only [List.length_cons]
    omega

/-- The lexemes of a text, if it can be cut into lexemes at all. -/
def lexemes? (text : List Char) : Option (List Lexeme) :=
  match _hskip : text.dropWhile isSpace with
  | [] => some []
  | c :: tail =>
    match _hsplit : splitLexeme? (c :: tail) with
    | none => none
    | some (lexeme, rest) => (lexemes? rest).map (lexeme :: ·)
termination_by text.length
decreasing_by
  have h1 := length_of_splitLexeme? _hsplit
  have h2 := (List.dropWhile_suffix (l := text) isSpace).length_le
  rw [_hskip] at h2
  omega

end LineAsm.Json
