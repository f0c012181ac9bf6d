import Chiptune.Decimal.Fixed
import Chiptune.Tune.Basic

/-!
# Overviews of tunes

A description of a tune that needs no sound: what it plays, on which instruments and for how long.
-/

namespace Chiptune.Tune

/-- Texts in the order of their code points, each of them once. -/
def sortedOnce (texts : List String) : List String :=
  (texts.mergeSort fun a b => decide (a ≤ b)).eraseDups

/-- All melodies of a tune. -/
def melodies (tune : Tune) : List Melody := tune.phrases.values.flatMap Phrase.melodies

/-- The line of a phrase in an overview, with the names and the tempos in columns. -/
def phraseLine (phrase : Phrase) : String :=
  let name := String.ofList (phrase.name.toList.rightpad 12 ' ')
  let tempo := String.ofList ((Nat.toDigits 10 phrase.tempo).leftpad 3 ' ')
  s!"  {name} tempo {tempo}  {phrase.beats}x{phrase.subbeats}  {phrase.melodies.length} melodies" ++
    s!"  {phrase.frameCount} samples"

/-- The lines of an overview. -/
def overview (tune : Tune) : Except Fault (List String) := do
  let instruments := tune.melodies.map fun melody =>
    s!"{melody.instrument.name} ({melody.instrument.tone.word})"
  let patterns := tune.melodies.map fun melody =>
    s!"{melody.pattern.name} ({melody.pattern.length} steps)"
  let duration ← tune.duration
  return ["Tune:        " ++ tune.name,
      "Instruments: " ++ String.intercalate ", " (sortedOnce instruments),
      "Patterns:    " ++ String.intercalate ", " (sortedOnce patterns),
      "Phrases:"] ++
    tune.phrases.sorted.map (fun entry => phraseLine entry.2) ++
    ["Sequence:    " ++ String.intercalate " " tune.sequence,
      s!"Duration:    {Decimal.fixed duration 3} seconds at {sampleRate} Hz"]

end Chiptune.Tune
