import Chiptune.Rounding

/-!
# Pitch

A note is a name on the twelve-tone scale followed by the digit of an octave from 1 to 8, such as
`C4`, `F#2` or `Bb7`. Octave 1 has a fixed table of frequencies; every octave above multiplies by
the twelfth power of the semitone ratio. A note is played with a whole number of frames per cycle.
-/

namespace Chiptune

/-- The number of frames in a second. -/
def sampleRate : Nat := 11468

/-- What can be wrong with a note. -/
inductive NoteFault where
  /-- The name is not on the scale. -/
  | badName (name note : String)
  /-- The octave is not a digit from 1 to 8. -/
  | badOctave (octave note : String)
deriving DecidableEq

namespace Pitch

/-- The frequencies of octave 1 in hertz; a sharp and the flat above it are the same note. -/
def scale : List (String × Float) :=
  [("C", 32.70), ("C#", 34.65), ("Db", 34.65), ("D", 36.71), ("D#", 38.89), ("Eb", 38.89),
   ("E", 41.20), ("F", 43.65), ("F#", 46.25), ("Gb", 46.25), ("G", 49.0), ("G#", 51.91),
   ("Ab", 51.91), ("A", 55.00), ("A#", 58.27), ("Bb", 58.27), ("B", 61.74)]

/-- The ratio of two neighbouring semitones. -/
def semitone : Float := 1.059463

/-- The ratio of two neighbouring octaves: twelve semitones, multiplied out by squaring. -/
def octaveRatio : Float :=
  let square := semitone * semitone
  let fourth := square * square
  fourth * (fourth * fourth)

/-- The number of an octave. -/
def octave? (c : Char) : Option Nat :=
  if '1' ≤ c ∧ c ≤ '8' then some (c.toNat - '0'.toNat) else none

/-- The name of a note: all but its last character. -/
def noteName (note : String) : String := String.ofList note.toList.dropLast

/-- The frequency of a note in hertz. -/
def frequency (note : String) : Except NoteFault Float :=
  match scale.lookup (noteName note) with
  | none => .error (.badName (noteName note) note)
  | some base =>
    match note.toList.getLast?.bind octave? with
    | none => .error (.badOctave ((note.toList.getLast?.map String.singleton).getD "") note)
    | some octave => .ok (Nat.repeat (· * octaveRatio) (octave - 1) base)

/-- The number of frames in one cycle of a frequency, rounded up. -/
def framesPerCycle (frequency : Float) : Nat := ceilCount (asFloat sampleRate / frequency)

/-- The number of frames in one cycle of a note. -/
def cycleLength (note : String) : Except NoteFault Nat := (frequency note).map framesPerCycle

end Pitch

end Chiptune
