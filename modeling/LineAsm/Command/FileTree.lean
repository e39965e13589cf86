/-!
# File trees

A file system as a value: what stands at which places, what the files hold, and the directory in
which a run works. A *place* is the list of names that leads to it from the root; the root itself is
the empty list. Files have numbers, so that one file may stand at several places, and a link stands
for another path.

A *path* is a text. It starts at the root or in the working directory and is followed name by name,
through directories and links, to one place, where something may stand or not. Trees have neither
permissions nor devices.
-/

namespace LineAsm

inductive FileError where
  | notFound
  | isDirectory
  /-- Something else stands where a directory is needed. -/
  | notDirectory
  | tooManyLinks
  /-- The content is no text in UTF-8. -/
  | notText
  | other (text : String)
  deriving Repr, DecidableEq

def FileError.message : FileError → String
  | .notFound => "No such file or directory (os error 2)"
  | .isDirectory => "Is a directory (os error 21)"
  | .notDirectory => "Not a directory (os error 20)"
  | .tooManyLinks => "Too many levels of symbolic links (os error 40)"
  | .notText => "stream did not contain valid UTF-8"
  | .other text => text

inductive Content where
  | text (content : String)
  /-- Bytes that are no text in UTF-8. -/
  | binary (bytes : List UInt8)
  deriving Repr, DecidableEq

def Content.ofBytes (bytes : List UInt8) : Content :=
  match String.fromUTF8? ⟨bytes.toArray⟩ with
  | some decoded => .text decoded
  | none => .binary bytes

/-- What stands at a place. -/
inductive Entry where
  /-- The file with this number, which may stand at other places too. -/
  | file (number : Nat)
  | directory
  /-- A symbolic link. -/
  | link (target : String)
  deriving Repr, DecidableEq

/-- The least number above that of a file. -/
def Entry.bound : Entry → Nat
  | .file number => number + 1
  | _ => 0

structure FileTree where
  entries : List (List String × Entry) := []
  /-- What the files hold. The first that is said of a number counts. -/
  contents : List (Nat × Content) := []
  /-- The working directory. -/
  working : List String := []
  deriving Repr, DecidableEq

/-- What a path is followed for. -/
inductive Use where
  | read
  /-- A file that does not exist is made. -/
  | write
  deriving Repr, DecidableEq

namespace FileTree

def entryAt? (tree : FileTree) (place : List String) : Option Entry :=
  if place = [] then some .directory else tree.entries.lookup place

/-- What a file holds. A file of which nothing is said is empty. -/
def content (tree : FileTree) (number : Nat) : Content :=
  (tree.contents.lookup number).getD (.text "")

/-- What the file at a place holds, if one stands there. -/
def contentAt? (tree : FileTree) (place : List String) : Option Content :=
  match tree.entryAt? place with
  | some (.file number) => some (tree.content number)
  | _ => none

/-- A number that no file has. -/
def fresh (tree : FileTree) : Nat := tree.entries.foldr (fun e bound => max e.2.bound bound) 0

/-- Gives a file new content, at all its places. -/
def fill (tree : FileTree) (number : Nat) (content : Content) : FileTree :=
  { tree with contents := (number, content) :: tree.contents }

/-- Makes a file at a place where nothing stands. -/
def create (tree : FileTree) (place : List String) (content : Content) : FileTree :=
  { tree.fill tree.fresh content with entries := tree.entries ++ [(place, .file tree.fresh)] }

/-! ## Paths -/

/-- The names in a path. Where slashes follow one another or end the path, a name is empty. -/
def names (path : String) : List String := (path.toList.splitOn '/').map String.ofList

/-- Does a path start at the root? -/
def isAbsolute (path : String) : Bool := path.toList.head? = some '/'

/-- Do slashes and nothing else follow? -/
def onlySlashes (names : List String) : Bool := names ≠ [] && names.all (· = "")

/-- Follows names from a directory. All but the last have to lead to directories, and the last as
well if a slash follows. How to go on from the target of a link is left open. -/
def walk (tree : FileTree) (use : Use)
    (jump : List String → String → List String → Except FileError (List String))
    (directory : List String) : List String → Except FileError (List String)
  | [] => .ok directory
  | name :: rest =>
    if name = "" ∨ name = "." then tree.walk use jump directory rest
    else if name = ".." then tree.walk use jump directory.dropLast rest
    else if use = .write ∧ onlySlashes rest then .error .isDirectory
    else
      match tree.entryAt? (directory ++ [name]) with
      | some .directory => tree.walk use jump (directory ++ [name]) rest
      | some (.link target) => jump directory target rest
      | some (.file _) => if rest = [] then .ok (directory ++ [name]) else .error .notDirectory
      | none => if rest = [] then .ok (directory ++ [name]) else .error .notFound

/-- Follows names from a directory, through so many links at most. -/
def follow (tree : FileTree) (use : Use) (links : Nat) :
    List String → List String → Except FileError (List String) :=
  match links with
  | 0 => tree.walk use fun _ _ _ => .error .tooManyLinks
  | links + 1 => tree.walk use fun directory target rest =>
      tree.follow use links (if isAbsolute target then [] else directory) (names target ++ rest)

/-- How many links may stand in the way of a path. -/
def maxLinks : Nat := 40

/-- The place to which a path leads. No link stands there, but there may be nothing. -/
def locate (tree : FileTree) (use : Use) (path : String) : Except FileError (List String) :=
  tree.follow use maxLinks []
    (if isAbsolute path then names path else tree.working ++ names path)

/-! ## Reading and writing -/

def readText (tree : FileTree) (path : String) : Except FileError String := do
  match tree.entryAt? (← tree.locate .read path) with
  | some (.file number) =>
    match tree.content number with
    | .text text => .ok text
    | .binary _ => .error .notText
  | some .directory => .error .isDirectory
  | _ => .error .notFound

/-- The tree after a text was written to a file, which is made if need be. -/
def writeText (tree : FileTree) (path text : String) : Except FileError FileTree := do
  let place ← tree.locate .write path
  match tree.entryAt? place with
  | some (.file number) => .ok (tree.fill number (.text text))
  | some .directory => .error .isDirectory
  | _ => .ok (tree.create place (.text text))

/-! ## Building and comparing trees -/

/-- Makes a directory and those above it, as far as they are missing. -/
def makeDirectory (tree : FileTree) (place : List String) : FileTree :=
  let wanted := (List.range (place.length + 1)).map place.take
  let missing := wanted.filter fun directory => (tree.entryAt? directory).isNone
  { tree with entries := tree.entries ++ missing.map (·, .directory) }

/-- Nothing but a working directory and those above it. -/
def ofWorking (working : List String) : FileTree := { makeDirectory {} working with working }

/-- Puts a file, or a directory without content, at a path below the working directory. -/
def insert (tree : FileTree) (path : String) (content? : Option Content) : FileTree :=
  let place := tree.working ++ (names path).filter fun name => name ≠ "" ∧ name ≠ "."
  match content? with
  | some content => (tree.makeDirectory place.dropLast).create place content
  | none => tree.makeDirectory place

/-- The files that do not hold what stood at their place in an earlier tree. -/
def changesSince (tree before : FileTree) : List (List String × Content) :=
  tree.entries.filterMap fun (place, _) =>
    match tree.contentAt? place with
    | none => none
    | some content => if before.contentAt? place = some content then none else some (place, content)

end FileTree

end LineAsm
