import Chiptune.Phrase.Basic
import Chiptune.Report

/-!
# Scores

A score says which frames of a measure each step of each melody writes, before any sound is made. A
note always finishes the cycle it is in, even past the end of its step; when the next step sounds
too, it resumes where the note stopped instead of at its own origin. With `S` frames per step, a
note that resumes at `c`, sounds for `q` quarters of the step and has `n` frames per cycle takes the
least number `m` of whole cycles with

  `4 * (c + m * n) ≥ q * S`,

and the next step resumes at `c + m * n - S`, or at its origin if the note ends earlier.
-/

namespace Chiptune

/-- The frames that one step writes: whole cycles from `first` on. -/
structure Span where
  /-- Counted from the start of the measure. -/
  first : Nat
  count : Nat
  /-- The number of frames in a cycle. -/
  cycle : Nat
deriving DecidableEq

namespace Span

/-- The number of frames in the whole cycles that reach `quarters / 4` of a step of `step` frames
from `resume` on. -/
def soundingFrames (step quarters resume cycle : Nat) : Nat :=
  cycle * ((quarters * step - 4 * resume + (4 * cycle - 1)) / (4 * cycle))

/-- The frames of a span that lie within a buffer. -/
def within (span : Span) (size : Nat) : Nat := min span.count (size - span.first)

end Span

/-- The spans of one melody, up to its first faulty note. -/
structure Part where
  melody : Melody
  step : Nat
  spans : List Span
  fault : Option NoteFault

namespace Part

/-- Places the steps from `origin` on, the first one resuming `resume` frames after it. A rest lets
the next note start at its own origin; a faulty note ends the melody. -/
def place (step quarters origin resume : Nat) : List Step → List Span × Option NoteFault
  | [] => ([], none)
  | .rest :: steps => place step quarters (origin + step) 0 steps
  | .note name :: steps =>
    match Pitch.cycleLength name with
    | .error fault => ([], some fault)
    | .ok frames =>
      let cycle := max frames 1
      let count := Span.soundingFrames step quarters resume cycle
      let (spans, fault) := place step quarters (origin + step) (resume + count - step) steps
      (⟨origin + resume, count, cycle⟩ :: spans, fault)

/-- The part of a melody on a grid of steps of `step` frames. -/
def ofMelody (step : Nat) (melody : Melody) : Part :=
  let (spans, fault) := place step melody.instrument.length.quarters 0 0 melody.pattern.steps
  ⟨melody, step, spans, fault⟩

/-- The report on a part. -/
def event (part : Part) : Event :=
  let instrument := part.melody.instrument
  let pattern := part.melody.pattern
  if pattern.isSilent then .silentMelody instrument.name pattern.name
  else .soundingMelody instrument.name pattern.name part.step
    (instrument.length.quarters * part.step)

end Part

/-- What a measure plays: its length and the parts of its melodies, up to the first faulty one. -/
structure Score where
  phrase : Phrase
  parts : List Part

namespace Score

/-- The parts of melodies, up to the first faulty one. -/
def partsOf (step : Nat) : List Melody → List Part
  | [] => []
  | melody :: melodies =>
    let part := Part.ofMelody step melody
    part :: if part.fault.isSome then [] else partsOf step melodies

/-- The fault in a score. -/
def fault? (score : Score) : Option NoteFault := score.parts.findSome? Part.fault

/-- The reports on a score. -/
def events (score : Score) : List Event :=
  .renderingPhrase score.phrase.name score.phrase.frameCount score.phrase.melodies.length ::
    score.parts.map Part.event

end Score

/-- The score of a valid phrase. -/
def Phrase.score (phrase : Phrase) : Except Fault Score := do
  phrase.validate
  return ⟨phrase, Score.partsOf phrase.stepSize phrase.melodies⟩

end Chiptune
