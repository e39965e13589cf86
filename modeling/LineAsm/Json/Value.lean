import LineAsm.Json.Number

/-!
# JSON values

Members of an object stay in the order in which they were written, repeated ones included. A string
may spell out half of a surrogate pair, and then it has no text: that is no fault as long as nobody
asks for the text, so it is part of the value.
-/

namespace LineAsm

/-- A JSON value. The text of a string is `none` if it holds an unpaired surrogate. -/
inductive Json where
  | null
  | bool (value : Bool)
  | number (value : Json.Number)
  | string (text? : Option String)
  | array (items : List Json)
  | object (members : List (Option String × Json))
  deriving Repr

namespace Json

def ofNat (n : Nat) : Json := .number (.ofNat n)

def ofString (text : String) : Json := .string (some text)

def ofMembers (members : List (String × Json)) : Json :=
  .object (members.map fun (key, value) => (some key, value))

mutual

/-- How many arrays and objects stand within one another. -/
def depth : Json → Nat
  | .array items => depthOfItems items + 1
  | .object members => depthOfMembers members + 1
  | _ => 0

def depthOfItems : List Json → Nat
  | [] => 0
  | item :: items => max item.depth (depthOfItems items)

def depthOfMembers : List (Option String × Json) → Nat
  | [] => 0
  | (_, value) :: members => max value.depth (depthOfMembers members)

end

mutual

/-- Can the value be kept in memory: does every string have a text, and is every number in range? -/
def isStorable : Json → Bool
  | .number n => n.isFinite
  | .string text? => text?.isSome
  | .array items => areStorableItems items
  | .object members => areStorableMembers members
  | _ => true

def areStorableItems : List Json → Bool
  | [] => true
  | item :: items => item.isStorable && areStorableItems items

def areStorableMembers : List (Option String × Json) → Bool
  | [] => true
  | (key?, value) :: members => key?.isSome && value.isStorable && areStorableMembers members

end

end Json

end LineAsm
