import Chiptune.Fault
import Chiptune.Files.Path

/-!
# Trees of files

Files and directories as values. A place is the list of names from the root down to it; the root
itself is always a directory. A path is walked component by component, and every component on the
way has to be a directory.
-/

namespace Chiptune

/-- The names from the root down to a file or directory. -/
abbrev Place := List String

/-- Files with their bytes, and directories. -/
structure FileTree where
  files : List (Place × List UInt8) := []
  directories : List Place := []
deriving DecidableEq

namespace FileTree

/-- The longest name of a file in bytes. -/
def longestName : Nat := 255

/-- The longest path in bytes. -/
def longestPath : Nat := 4095

/-- The bytes of the file at a place. -/
def file? (tree : FileTree) (place : Place) : Option (List UInt8) := tree.files.lookup place

/-- Whether there is a directory at a place. -/
def isDirectory (tree : FileTree) (place : Place) : Bool :=
  place.isEmpty || tree.directories.contains place

/-! ## Walking -/

/-- One component further down. The place must be a directory, and what is named must be there. -/
def step (tree : FileTree) (place : Place) (component : String) : Except FileFault Place :=
  if ¬ tree.isDirectory place then .error .notADirectory
  else if Path.isIdle component then .ok place
  else if component = ".." then .ok place.dropLast
  else if longestName < component.utf8ByteSize then .error .nameTooLong
  else
    let next := place ++ [component]
    if tree.isDirectory next ∨ (tree.file? next).isSome then .ok next else .error .notFound

/-- The place that components lead to. -/
def walk (tree : FileTree) (place : Place) (components : List String) : Except FileFault Place :=
  components.foldlM tree.step place

/-- The place where a path starts, and its components from there. -/
def startOf (current : Place) (path : String) : Except FileFault (Place × List String) :=
  if path.toList.contains '\x00' then .error .nullInPath
  else if path.isEmpty then .error .notFound
  else if longestPath < path.utf8ByteSize then .error .nameTooLong
  else if Path.isAbsolute path then .ok ([], (Path.components path).drop 1)
  else .ok (current, Path.components path)

/-- The place that a path leads to from `current`. -/
def resolve (tree : FileTree) (current : Place) (path : String) : Except FileFault Place := do
  let (start, components) ← startOf current path
  tree.walk start components

/-! ## Operations -/

/-- Whether a path leads to something. -/
def holds (tree : FileTree) (current : Place) (path : String) : Bool :=
  (tree.resolve current path).toBool

/-- The bytes of the file that a path leads to. -/
def read (tree : FileTree) (current : Place) (path : String) : Except FileFault (List UInt8) := do
  let place ← tree.resolve current path
  match tree.file? place with
  | some bytes => .ok bytes
  | none => .error .isADirectory

/-- The tree with `bytes` in the file at a place. -/
def setFile (tree : FileTree) (place : Place) (bytes : List UInt8) : FileTree :=
  { tree with files := (place, bytes) :: tree.files.filter (·.1 != place) }

/-- Whether a path leads to a directory. -/
def leadsToDirectory (tree : FileTree) (current : Place) (path : String) : Bool :=
  match tree.resolve current path with
  | .ok place => tree.isDirectory place
  | .error _ => false

/-- Where a path puts something new: the directory, the name in it, and whether slashes follow the
name. The directory must be there. -/
def target (tree : FileTree) (current : Place) (path : String) :
    Except FileFault (Place × String × Bool) := do
  let (start, components) ← startOf current path
  let named := (components.reverse.dropWhile (· = "")).reverse
  let directory ← tree.walk start named.dropLast
  if tree.isDirectory directory then
    return (directory, named.getLast?.getD ".", named.length < components.length)
  else .error .notADirectory

/-- The tree with a file written anew. A path that ends in a slash is that of a directory. -/
def write (tree : FileTree) (current : Place) (path : String) (bytes : List UInt8) :
    Except FileFault FileTree := do
  let (directory, name, slashed) ← tree.target current path
  if slashed ∨ name = "." ∨ name = ".." then .error .isADirectory
  else if longestName < name.utf8ByteSize then .error .nameTooLong
  else if tree.isDirectory (directory ++ [name]) then .error .isADirectory
  else .ok (tree.setFile (directory ++ [name]) bytes)

/-- The tree with one directory more, where there was nothing. -/
def makeDirectory (tree : FileTree) (current : Place) (path : String) :
    Except FileFault FileTree := do
  let (directory, name, _) ← tree.target current path
  let place := directory ++ [name]
  if name = "." ∨ name = ".." then .error .alreadyExists
  else if longestName < name.utf8ByteSize then .error .nameTooLong
  else if tree.isDirectory place ∨ (tree.file? place).isSome then .error .alreadyExists
  else .ok { tree with directories := place :: tree.directories }

end FileTree

end Chiptune
