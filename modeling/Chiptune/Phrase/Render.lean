import Chiptune.Buffer
import Chiptune.Phrase.Score

/-!
# Playing a score

The melodies of a measure are merged into one buffer, one after the other. A melody with reverb is
played on a buffer of its own first, so that only its own sound is echoed, and then merged. Frames
past the end of the measure are dropped before they are computed, so they draw nothing from the
random source.
-/

namespace Chiptune

variable {R : Type} [Amplitude R] {σ : Type} [RandomSource σ]

/-- Merges `count` frames of an instrument into a buffer from `first` on, starting `index` frames
into the wave. -/
@[specialize] def Instrument.playFrames (instrument : Instrument) (oscillator : Oscillator R)
    (first index count : Nat) (buffer : Buffer R) (source : σ) : Buffer R × σ :=
  match count with
  | 0 => (buffer, source)
  | count + 1 =>
    let (frame, source) := instrument.frameAt oscillator (index % oscillator.cycle) source
    playFrames instrument oscillator first (index + 1) count (buffer.addAt (first + index) frame)
      source

/-- Merges the frames of a span that lie within a buffer. -/
@[specialize] def Span.play (span : Span) (instrument : Instrument) (buffer : Buffer R)
    (source : σ) : Buffer R × σ :=
  instrument.playFrames (Oscillator.ofTone instrument.tone span.cycle) span.first 0
    (span.within buffer.size) buffer source

/-- Merges spans one after the other. -/
@[specialize] def Span.playAll (instrument : Instrument) :
    List Span → Buffer R → σ → Buffer R × σ
  | [], buffer, source => (buffer, source)
  | span :: spans, buffer, source =>
    let (buffer, source) := span.play instrument buffer source
    playAll instrument spans buffer source

/-- Merges a part into a buffer, by way of a buffer of its own if it is to be echoed. -/
@[specialize] def Part.play (part : Part) (buffer : Buffer R) (source : σ) : Buffer R × σ :=
  let instrument := part.melody.instrument
  if instrument.reverb.isEnabled then
    let (dry, source) := Span.playAll instrument part.spans (Buffer.silence buffer.size) source
    (buffer.overlay (dry.echo instrument.reverb.delay instrument.reverb.decay) 0, source)
  else Span.playAll instrument part.spans buffer source

/-- Merges parts one after the other. -/
@[specialize] def Part.playAll : List Part → Buffer R → σ → Buffer R × σ
  | [], buffer, source => (buffer, source)
  | part :: parts, buffer, source =>
    let (buffer, source) := part.play buffer source
    playAll parts buffer source

/-- Plays a score on a silent measure. -/
@[specialize] def Score.play (score : Score) (source : σ) : Buffer R × σ :=
  Part.playAll score.parts (Buffer.silence score.phrase.frameCount) source

/-- The sound of a phrase. A faulty note ends it, after the draws of the steps before it. -/
@[specialize] def Phrase.render (phrase : Phrase) : Performance σ (Buffer R) := fun source =>
  match phrase.score with
  | .error fault => (.fail fault, source)
  | .ok score =>
    let (buffer, source) := score.play source
    (⟨score.events, match score.fault? with
      | some fault => .error (.badNote fault)
      | none => .ok buffer⟩, source)

end Chiptune
