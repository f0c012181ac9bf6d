import Chiptune.Files.Tree

/-!
# Hosts

What a command needs of the machine it runs on: files, a place to print, and chance. A `Computer` is
a host that is a value, so that what a command does to its files can be computed and reasoned about.
-/

namespace Chiptune

/-- A machine that commands run on. -/
class Host (m : Type → Type) extends Monad m where
  /-- Whether a path leads to something. -/
  pathExists : String → m Bool
  readFile : String → m (Except FileFault (List UInt8))
  writeFile : String → List UInt8 → m (Except FileFault Unit)
  /-- Whether a path leads to a directory. -/
  isDirectory : String → m Bool
  /-- Makes one directory in another. -/
  makeDirectory : String → m (Except FileFault Unit)
  print : String → m Unit
  /-- A seed that cannot be foreseen. -/
  chance : m UInt64

/-- A machine as a value. -/
structure Computer where
  tree : FileTree
  /-- The directory that relative paths start from. -/
  current : Place
  printed : String
  seed : UInt64

namespace Computer

/-- Tries to change the files; a fault leaves them as they were. -/
def attempt (change : FileTree → Except FileFault FileTree) :
    StateM Computer (Except FileFault Unit) := do
  let computer ← get
  match change computer.tree with
  | .ok tree => set { computer with tree }; return .ok ()
  | .error fault => return .error fault

instance : Host (StateM Computer) where
  pathExists path := return (← get).tree.holds (← get).current path
  readFile path := return (← get).tree.read (← get).current path
  writeFile path bytes := do attempt (·.write (← get).current path bytes)
  isDirectory path := return (← get).tree.leadsToDirectory (← get).current path
  makeDirectory path := do attempt (·.makeDirectory (← get).current path)
  print text := modify fun computer => { computer with printed := computer.printed ++ text }
  chance := return (← get).seed

end Computer

variable {m : Type → Type} [Host m]

/-- Goes outward along paths until a directory stands there, old or just made. Answers with the
paths that were passed, put in front of `inside`, the outermost first. -/
def findStanding (inside : List String) : List String → m (Except FileFault (List String))
  | [] => return .ok inside
  | path :: around => do
    match ← Host.makeDirectory path with
    | .ok () => return .ok inside
    | .error .notFound => findStanding (path :: inside) around
    | .error fault => if ← Host.isDirectory path then return .ok inside else return .error fault

/-- Makes the directories that are not there yet, one after the other. -/
def makeMissing : List String → m (Except FileFault Unit)
  | [] => return .ok ()
  | path :: inside => do
    match ← Host.makeDirectory path with
    | .ok () => makeMissing inside
    | .error fault => if ← Host.isDirectory path then makeMissing inside else return .error fault

/-- Makes a directory and those around it. The whole path is tried first. A file that stands in the
way of that attempt is not a directory; one that is met at the end of a path on the way back inside
is what exists already. -/
def makeDirectories (path : String) : m (Except FileFault Unit) := do
  match ← findStanding [] (Path.outward path) with
  | .error fault => return .error fault
  | .ok inside => makeMissing inside

/-- The text of a file. -/
def readText (path : String) : m (Except FileFault String) := do
  match ← Host.readFile path with
  | .error fault => return .error fault
  | .ok bytes =>
    match String.fromUTF8? ⟨bytes.toArray⟩ with
    | some text => return .ok text
    | none => return .error .notText

end Chiptune
