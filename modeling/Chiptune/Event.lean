import Chiptune.Decimal.Fixed
import Chiptune.Pitch
import Chiptune.Record.Basic

/-!
# Events

What the library reports while it works. Events never influence a result.
-/

namespace Chiptune

/-- Something worth reporting. -/
inductive Event where
  /-- A line before the first record. -/
  | strayLine (line : Nat) (text : String)
  /-- A pattern that starts by holding a step. -/
  | leadingHold (text : String)
  /-- A second record of a kind of which there is one. -/
  | extraRecord (line : Nat) (kind : RecordKind) (first : Nat)
  /-- A definition of a name that is taken. -/
  | redefinition (line : Nat) (kind : RecordKind) (name : String)
  | emptyPattern (line : Nat) (name : String)
  | assembled (tune : String) (instruments patterns phrases sequence : Nat)
  | renderingPhrase (phrase : String) (frames melodies : Nat)
  | silentMelody (instrument pattern : String)
  /-- A melody with the length of its steps and the quarters of a frame that each of them sounds. -/
  | soundingMelody (instrument pattern : String) (step quarters : Nat)
  | placingPhrase (phrase : String) (frame : Nat)
  | renderedTune (tune : String) (phrases frames : Nat)
  | encoding (frames rate : Nat) (path : String)
  | wroteFile (tune : String) (frames : Nat) (format path : String)
  | noConfiguration (path : String)
deriving DecidableEq

/-- How much an event matters. -/
inductive Severity where
  | debug
  | info
  | warning
deriving DecidableEq

/-- The name of a severity in a report. -/
def Severity.word : Severity → String
  | .debug => "DEBUG"
  | .info => "INFO"
  | .warning => "WARN"

namespace Event

/-- Oddities of a text are warnings, finished work is information, the rest are details. -/
def severity : Event → Severity
  | .strayLine .. | .leadingHold .. | .extraRecord .. | .redefinition .. | .emptyPattern .. =>
    .warning
  | .assembled .. | .renderedTune .. | .wroteFile .. => .info
  | _ => .debug

/-- The text of an event. -/
def message : Event → String
  | .strayLine line text => s!"Line {line}: \"{text}\" appears before any record, ignoring"
  | .leadingHold text => s!"Pattern \"{text}\" starts with a sustain, treating it as a rest"
  | .extraRecord line kind first =>
    s!"Line {line}: extra {kind.keyword} record ignored, using the one on line {first}"
  | .redefinition line kind name =>
    s!"Line {line}: {kind.keyword} \"{name}\" is already defined, keeping the first one"
  | .emptyPattern line name => s!"Line {line}: pattern \"{name}\" has no steps"
  | .assembled tune instruments patterns phrases sequence =>
    s!"Assembled tune \"{tune}\": {instruments} instruments, {patterns} patterns, " ++
      s!"{phrases} phrases, sequence of {sequence}"
  | .renderingPhrase phrase frames melodies =>
    s!"Rendering phrase \"{phrase}\": {frames} samples, {melodies} melodies"
  | .silentMelody instrument pattern => s!"  melody {instrument} / {pattern}: all rests"
  | .soundingMelody instrument pattern step quarters =>
    s!"  melody {instrument} / {pattern}: step {step} samples, sounding " ++
      Decimal.fixedRatio quarters 4 1
  | .placingPhrase phrase frame => s!"Placing phrase \"{phrase}\" at sample {frame}"
  | .renderedTune tune phrases frames =>
    s!"Rendered tune \"{tune}\": {phrases} phrases, {frames} samples (" ++
      Decimal.fixed (asFloat frames / asFloat sampleRate) 2 ++ "s)"
  | .encoding frames rate path => s!"Encoding {frames} frames at {rate} Hz to {path}"
  | .wroteFile tune frames format path =>
    s!"Wrote \"{tune}\": {frames} frames ({format}) to {path}"
  | .noConfiguration path => s!"No config at {path}, using defaults"

/-- The line of an event in a report. -/
def line (event : Event) : String := event.severity.word ++ " " ++ event.message

end Event

end Chiptune
