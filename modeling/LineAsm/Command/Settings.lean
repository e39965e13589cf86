import LineAsm.Image.Assembly
import LineAsm.Json.Reader

/-!
# Settings

Settings are read from a JSON object. Every key is optional, keys of other names are ignored, and a
key that counts may stand only once. A value is the name of a choice; the name may also be the only
key of an object whose value is null.

Two objects are read. That of an encoder has the keys `revision` and `mode`, and what it ignores is
only checked for its grammar; it may also be written as an array. That of a whole run has the keys
`on_error` and `format` as well. It has to be kept in memory before the first two keys are looked at,
so that all of it must be storable and of limited depth, and an empty object passes for a null there.
-/

namespace LineAsm

/-- What a run depends on, besides its files. -/
structure Settings where
  encoder : Encoder := default
  policy : Policy := default
  format : Format := default
  deriving Repr, DecidableEq, Inhabited

/-! ## Choices -/

/-- The name of a choice: a string, or the key of an object with the one value null. -/
def Json.choiceName? : Json → Option String
  | .string text? => text?
  | .object [(key?, .null)] => key?
  | _ => none

/-- The name of a choice in a value that was kept in memory, where nothing is left of the difference
between a null and an object without members. -/
def Json.storedChoiceName? : Json → Option String
  | .object [(key?, .object [])] => key?
  | value => value.choiceName?

/-- A kind of setting: its choices with their names. -/
structure Choices (α : Type) where
  all : List α
  name : α → String

namespace Choices

def ofName? {α : Type} (choices : Choices α) (name : String) : Option α :=
  choices.all.find? fun choice => choices.name choice = name

def revision : Choices Revision := ⟨Revision.all, Revision.tag⟩

def mode : Choices Mode := ⟨[.lenient, .strict], Mode.name⟩

def policy : Choices Policy := ⟨[.abort, .continue], Policy.name⟩

def format : Choices Format := ⟨Format.all, Format.name⟩

/-- The choice that the members of an object make for a key: the default one if the key is missing,
and none at all if the key is repeated or its value names no choice. -/
def ofMembers? {α : Type} [Inhabited α] (choices : Choices α) (nameOf : Json → Option String)
    (key : String) (members : List (Option String × Json)) : Option α :=
  match members.filter fun member => member.1 = some key with
  | [] => some default
  | [(_, value)] => nameOf value >>= choices.ofName?
  | _ => none

/-- The choice of an item of an array, if the array has that item. -/
def ofItem? {α : Type} [Inhabited α] (choices : Choices α) : Option Json → Option α
  | none => some default
  | some value => value.choiceName? >>= choices.ofName?

end Choices

/-! ## Objects -/

def Encoder.ofJson? : Json → Option Encoder
  | .object members => do
    if members.any (·.1.isNone) then none
    let revision ← Choices.revision.ofMembers? Json.choiceName? "revision" members
    let mode ← Choices.mode.ofMembers? Json.choiceName? "mode" members
    some ⟨revision, mode⟩
  | .array items => do
    if 2 < items.length then none
    let revision ← Choices.revision.ofItem? items[0]?
    let mode ← Choices.mode.ofItem? items[1]?
    some ⟨revision, mode⟩
  | _ => none

def Encoder.read? (text : String) : Option Encoder := Json.parse? text >>= Encoder.ofJson?

namespace Settings

/-- How many arrays and objects may stand within one another, the outermost object included. -/
def maxDepth : Nat := 127

/-- The settings that the members of an object make. -/
def ofMembers? (members : List (Option String × Json)) : Option Settings := do
  let revision ← Choices.revision.ofMembers? Json.storedChoiceName? "revision" members
  let mode ← Choices.mode.ofMembers? Json.storedChoiceName? "mode" members
  let policy ← Choices.policy.ofMembers? Json.choiceName? "on_error" members
  let format ← Choices.format.ofMembers? Json.choiceName? "format" members
  some ⟨⟨revision, mode⟩, policy, format⟩

def ofJson? (value : Json) : Option Settings :=
  match value with
  | .object members =>
    if value.isStorable && value.depth ≤ maxDepth then ofMembers? members else none
  | _ => none

def read? (text : String) : Option Settings := Json.parse? text >>= ofJson?

end Settings

end LineAsm
