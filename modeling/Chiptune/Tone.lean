import Chiptune.Random.Source

/-!
# Tones and oscillators

An oscillator maps a position within one cycle to an amplitude. Cycles are whole numbers of frames,
which gives the low sampling rate its grit. Only noise needs a random source.
-/

namespace Chiptune

/-- The shape of a wave. -/
inductive Tone where
  | square
  | sine
  | triangle
  | noise
  | saw
deriving DecidableEq

namespace Tone

/-- The word for a tone. -/
def word : Tone → String
  | .square => "square"
  | .sine => "sine"
  | .triangle => "triangle"
  | .noise => "noise"
  | .saw => "saw"

/-- The tone that a word stands for. -/
def ofWord? : String → Option Tone
  | "square" => some .square
  | "sine" => some .sine
  | "triangle" => some .triangle
  | "noise" => some .noise
  | "saw" => some .saw
  | _ => none

instance : Inhabited Tone := ⟨.sine⟩

/-- The amplitude of a tone when none is asked for. -/
def defaultAmplitude {R : Type} [Amplitude R] : Tone → R
  | .square => 1 / 4
  | .sine | .triangle | .noise | .saw => 1 / 2

end Tone

/-- One cycle of a tone at a fixed length in frames. -/
structure Oscillator (R : Type) where
  tone : Tone
  cycle : Nat
  amplitude : R

namespace Oscillator

open Amplitude

variable {R : Type} [Amplitude R] {σ : Type} [RandomSource σ]

/-- The oscillator of a tone; a cycle has at least one frame. -/
def ofTone (tone : Tone) (cycle : Nat) : Oscillator R :=
  ⟨tone, max cycle 1, tone.defaultAmplitude⟩

/-! ## Wave shapes -/

/-- A sine over the whole cycle. -/
@[specialize] def sineAt (o : Oscillator R) (index : Nat) : R :=
  sin (ofCount index * 2 * halfTurn / ofCount o.cycle) * o.amplitude

/-- High up to the middle of the cycle, then low. -/
@[specialize] def squareAt (o : Oscillator R) (index : Nat) : R :=
  (if index ≤ o.cycle / 2 then 1 else -1) * o.amplitude

/-- Two ramps per cycle, each starting in its middle. Counts have 64 bits, also the one that is
moved by half a ramp. -/
@[specialize] def sawAt (o : Oscillator R) (index : Nat) : R :=
  let interval := max (o.cycle / 2) 1
  let moved := (index + interval / 2) % UInt64.size
  let phase : R := ofCount (moved % interval) / ofCount interval
  (6 / 10 * phase - 3 / 10) * o.amplitude

/-- Up to the first quarter, down through the middle to the third, and up again. -/
@[specialize] def triangleAt (o : Oscillator R) (index : Nat) : R :=
  let half := o.cycle / 2
  let quarter := max (o.cycle / 4) 1
  let ramp : R := 1 / ofCount quarter
  let level : R :=
    if index ≤ half then
      if index ≤ quarter then ofCount index * ramp else (ofCount half - ofCount index) * ramp
    else if index ≤ half + quarter then -(ofCount (index - half) * ramp)
    else -((ofCount o.cycle - ofCount index) * ramp)
  level * o.amplitude

/-- The sine scaled by a random word, read as a number in `[-1/2, 1/2)`. -/
@[specialize] def noiseAt (o : Oscillator R) (index : Nat) (word : UInt64) : R :=
  o.sineAt index * (unitFraction word - 1 / 2) * o.amplitude

/-- The amplitude at a position in the cycle. Noise draws once, the other tones never. -/
@[specialize] def valueAt (o : Oscillator R) (index : Nat) (source : σ) : R × σ :=
  match o.tone with
  | .square => (o.squareAt index, source)
  | .sine => (o.sineAt index, source)
  | .triangle => (o.triangleAt index, source)
  | .saw => (o.sawAt index, source)
  | .noise =>
    let (word, source) := RandomSource.draw source
    (o.noiseAt index word, source)

end Oscillator

end Chiptune
