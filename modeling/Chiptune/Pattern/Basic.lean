/-!
# Patterns

The rhythm and the notes of a melody: one step after the other, each a rest or a note. Notes are
kept as they are written; what they mean is settled when they are played.
-/

namespace Chiptune

/-- One step of a pattern. -/
inductive Step where
  | rest
  | note (name : String)
deriving DecidableEq

namespace Step

/-- A dot is a rest, anything else a note. -/
def ofToken (token : String) : Step := if token = "." then .rest else .note token

/-- The token of a step. -/
def token : Step → String
  | .rest => "."
  | .note name => name

/-- A step without sound. -/
def isRest : Step → Bool
  | .rest => true
  | .note _ => false

/-- The note of a step that sounds. -/
def note? : Step → Option String
  | .rest => none
  | .note name => some name

end Step

/-- A named list of steps. -/
structure Pattern where
  name : String
  steps : List Step
deriving DecidableEq

namespace Pattern

/-- The pattern with one step per token. -/
def ofTokens (name : String) (tokens : List String) : Pattern := ⟨name, tokens.map Step.ofToken⟩

/-- The number of steps. -/
def length (pattern : Pattern) : Nat := pattern.steps.length

/-- A pattern without steps. -/
def isEmpty (pattern : Pattern) : Bool := pattern.steps.isEmpty

/-- A pattern of rests only. -/
def isSilent (pattern : Pattern) : Bool := pattern.steps.all Step.isRest

/-- The tokens of the steps, one after the other. -/
def text (pattern : Pattern) : String := String.join (pattern.steps.map Step.token)

end Pattern

end Chiptune
