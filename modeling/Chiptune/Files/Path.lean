/-!
# Paths

A path is a text of components between slashes. A slash in front makes it absolute. Joining is
textual: nothing is normalised, so what is joined is found again in the result.
-/

namespace Chiptune.Path

/-- A path that starts at the root. -/
def isAbsolute (path : String) : Bool := path.toList.head? = some '/'

/-- The path of `name` in `directory`: an absolute name stands for itself, and a slash comes between
the two unless one is there or the directory is empty. -/
def join (directory name : String) : String :=
  if isAbsolute name then name
  else if directory.isEmpty ∨ directory.toList.getLast? = some '/' then directory ++ name
  else directory ++ "/" ++ name

/-- Cuts at slashes; `part` holds the component in progress, its last character first. -/
def componentsFrom (part : List Char) : List Char → List String
  | [] => [String.ofList part.reverse]
  | c :: cs =>
    if c = '/' then String.ofList part.reverse :: componentsFrom [] cs
    else componentsFrom (c :: part) cs

/-- The texts between the slashes; the first one of an absolute path is empty. -/
def components (path : String) : List String := componentsFrom [] path.toList

/-- A component that stands for the place it is found in. -/
def isIdle (component : String) : Bool := component = "" || component = "."

/-- Components without idle ones at the end. -/
def dropIdle (components : List String) : List String :=
  (components.reverse.dropWhile isIdle).reverse

/-- The path of the directory that a path is in, without idle components at its end. The root and
the empty path are in none, and a path of one component is in the empty path. -/
def parent? (path : String) : Option String :=
  let absolute := isAbsolute path
  let parts := components path
  match dropIdle (if absolute then parts.drop 1 else parts) with
  | [] => if ¬ absolute ∧ parts.head? = some "." then some "" else none
  | inner =>
    let above := dropIdle inner.dropLast
    if absolute then some ("/" ++ String.intercalate "/" above)
    else if above.isEmpty ∧ inner.length ≠ 1 ∧ parts.head? = some "." then some "."
    else some (String.intercalate "/" above)

/-- A path and the paths around it, `limit` at most. -/
def outwardWithin : Nat → String → List String
  | 0, _ => []
  | limit + 1, path =>
    match parent? path with
    | none => []
    | some around => path :: outwardWithin limit around

/-- A path and the paths of the directories around it, from the inside out. The root and the empty
path, which are in no directory, are left out, so there are no more paths than components. -/
def outward (path : String) : List String := outwardWithin (components path).length path

end Chiptune.Path
