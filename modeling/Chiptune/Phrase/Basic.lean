import Chiptune.Fault
import Chiptune.Instrument
import Chiptune.Pattern.Basic

/-!
# Phrases

A phrase is one measure: a tempo and a grid of beats and subbeats, on which melodies play together.
Its length in frames and the length of its steps come from binary64 arithmetic on the tempo; the
steps are rounded up, so that the grid may reach past the end of the measure.
-/

namespace Chiptune

/-- One pattern played on one instrument. -/
structure Melody where
  instrument : Instrument
  pattern : Pattern
deriving DecidableEq

/-- One measure of melodies that sound together. -/
structure Phrase where
  name : String
  /-- Beats per minute. -/
  tempo : Nat
  beats : Nat
  subbeats : Nat
  melodies : List Melody
deriving DecidableEq

namespace Phrase

/-! ## Timing -/

/-- The length of a beat in seconds. -/
def secondsPerBeat (phrase : Phrase) : Float := 60 / asFloat phrase.tempo

/-- The length of the measure in seconds. -/
def secondsPerMeasure (phrase : Phrase) : Float := phrase.secondsPerBeat * asFloat phrase.beats

/-- The length of the measure in frames; it means something only when the tempo is not zero. -/
def frameCount (phrase : Phrase) : Nat :=
  roundCount (phrase.secondsPerMeasure * asFloat sampleRate)

/-- The number of steps that a pattern has to have. -/
def stepCount (phrase : Phrase) : Nat := phrase.beats * phrase.subbeats

/-- The length of a step in frames, rounded up. -/
def stepSize (phrase : Phrase) : Nat :=
  ceilCount (asFloat phrase.frameCount / asFloat phrase.stepCount)

/-! ## Validity -/

/-- A timing setting must not be zero. -/
def checkPositive (phrase : Phrase) (setting : String) (value : Nat) : Except Fault Unit :=
  if value = 0 then .error (.invalidSetting .phrase phrase.name setting (toString value))
  else .ok ()

/-- The pattern of a melody must fit the grid. -/
def checkSteps (phrase : Phrase) (melody : Melody) : Except Fault Unit :=
  if melody.pattern.length = phrase.stepCount then .ok ()
  else
    .error (.stepCountMismatch melody.pattern.name melody.pattern.length phrase.name phrase.beats
      phrase.subbeats)

/-- The timing must not be zero and every pattern must fit the grid. -/
def validate (phrase : Phrase) : Except Fault Unit := do
  phrase.checkPositive "tempo" phrase.tempo
  phrase.checkPositive "beats" phrase.beats
  phrase.checkPositive "subbeats" phrase.subbeats
  phrase.melodies.forM phrase.checkSteps

end Phrase

end Chiptune
