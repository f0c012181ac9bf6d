import Chiptune.Phrase.Basic

/-!
# Tunes

A tune plays named phrases in a sequence; a phrase may be played many times.
-/

namespace Chiptune

/-- A named sequence of phrases. -/
structure Tune where
  name : String
  sequence : List String
  phrases : Catalog Phrase
deriving DecidableEq

namespace Tune

/-- The phrase of a name. -/
def phrase (tune : Tune) (name : String) : Except Fault Phrase :=
  match tune.phrases.get? name with
  | some phrase => .ok phrase
  | none => .error (.undefinedPhrase name)

/-- The phrases in the order they are played, one for each time. -/
def sequenced (tune : Tune) : Except Fault (List Phrase) := tune.sequence.mapM tune.phrase

/-- The length of a tune in frames, as a 64-bit count. -/
def frameCount (tune : Tune) : Except Fault Nat := do
  return ((← tune.sequenced).map Phrase.frameCount).foldr (· + ·) 0 % UInt64.size

/-- The length of a tune in seconds. -/
def duration (tune : Tune) : Except Fault Float := do
  return asFloat (← tune.frameCount) / asFloat sampleRate

end Tune

end Chiptune
