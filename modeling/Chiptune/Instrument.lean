import Chiptune.Frame
import Chiptune.Pitch
import Chiptune.Tone

/-!
# Instruments

A tone with settings for length, volume, position between the ears and reverb. Each setting has a
few steps, and each step has a word in the text of a tune.
-/

namespace Chiptune

/-! ## Settings -/

/-- The scale shared by note length and volume: a number of quarters. -/
inductive Level where
  | none
  | quarter
  | half
  | threeQuarters
  | full
deriving DecidableEq

namespace Level

instance : Inhabited Level := ⟨.full⟩

/-- The number of quarters. -/
def quarters : Level → Nat
  | .none => 0
  | .quarter => 1
  | .half => 2
  | .threeQuarters => 3
  | .full => 4

/-- The level as a fraction of one. -/
def value {R : Type} [Amplitude R] (level : Level) : R := Amplitude.ofCount level.quarters / 4

/-- The word for a level. -/
def word : Level → String
  | .none => "none"
  | .quarter => "quarter"
  | .half => "half"
  | .threeQuarters => "threequarters"
  | .full => "full"

/-- The level that a word stands for. -/
def ofWord? : String → Option Level
  | "none" => some .none
  | "quarter" => some .quarter
  | "half" => some .half
  | "threequarters" => some .threeQuarters
  | "full" => some .full
  | _ => Option.none

end Level

/-- The position between the ears. -/
inductive Pan where
  | left
  | centerLeft
  | center
  | centerRight
  | right
deriving DecidableEq

namespace Pan

instance : Inhabited Pan := ⟨.center⟩

/-- The number of quarters of the way from left to right. -/
def index : Pan → Nat
  | .left => 0
  | .centerLeft => 1
  | .center => 2
  | .centerRight => 3
  | .right => 4

/-- The share of the right ear. -/
def rightGain {R : Type} [Amplitude R] (pan : Pan) : R := Amplitude.ofCount pan.index / 4

/-- The share of the left ear, what the right one leaves. -/
def leftGain {R : Type} [Amplitude R] (pan : Pan) : R := 1 - pan.rightGain

/-- The position with the ears exchanged. -/
def opposite : Pan → Pan
  | .left => .right
  | .centerLeft => .centerRight
  | .center => .center
  | .centerRight => .centerLeft
  | .right => .left

/-- The word for a position. -/
def word : Pan → String
  | .left => "left"
  | .centerLeft => "centerleft"
  | .center => "center"
  | .centerRight => "centerright"
  | .right => "right"

/-- The position that a word stands for. -/
def ofWord? : String → Option Pan
  | "left" => some .left
  | "centerleft" => some .centerLeft
  | "center" => some .center
  | "centerright" => some .centerRight
  | "right" => some .right
  | _ => none

end Pan

/-- The loudness of a single delayed copy of the sound. -/
inductive Reverb where
  | none
  | some
  | more
  | lots
deriving DecidableEq

namespace Reverb

instance : Inhabited Reverb := ⟨.none⟩

/-- Whether there is a copy at all. -/
def isEnabled (reverb : Reverb) : Bool := reverb ≠ .none

/-- The loudness of the copy in quarters of the sound. -/
def quarters : Reverb → Nat
  | .none => 0
  | .some => 1
  | .more => 2
  | .lots => 3

/-- The loudness of the copy as a fraction of the sound. -/
def decay {R : Type} [Amplitude R] (reverb : Reverb) : R := Amplitude.ofCount reverb.quarters / 4

/-- The delay of the copy in frames, a tenth of a second. -/
def delay (reverb : Reverb) : Nat := if reverb.isEnabled then sampleRate / 10 else 0

/-- The word for a reverb. -/
def word : Reverb → String
  | .none => "none"
  | .some => "some"
  | .more => "more"
  | .lots => "lots"

/-- The reverb that a word stands for. -/
def ofWord? : String → Option Reverb
  | "none" => Option.some .none
  | "some" => Option.some .some
  | "more" => Option.some .more
  | "lots" => Option.some .lots
  | _ => Option.none

end Reverb

/-! ## Instruments -/

/-- A named tone with its settings. -/
structure Instrument where
  name : String
  tone : Tone := default
  length : Level := default
  volume : Level := default
  pan : Pan := default
  reverb : Reverb := default
deriving DecidableEq

namespace Instrument

variable {R : Type} [Amplitude R] {σ : Type} [RandomSource σ]

/-- The oscillator of an instrument tuned to `note`. -/
def oscillator (instrument : Instrument) (note : String) : Except NoteFault (Oscillator R) :=
  (Pitch.cycleLength note).map (Oscillator.ofTone instrument.tone)

/-- An amplitude at the volume and the position of an instrument. -/
@[specialize] def place (instrument : Instrument) (value : R) : Frame R :=
  let loud := value * instrument.volume.value
  ⟨loud * instrument.pan.leftGain, loud * instrument.pan.rightGain⟩

/-- The frame of an instrument at a position in the cycle of an oscillator. -/
@[specialize] def frameAt (instrument : Instrument) (oscillator : Oscillator R) (index : Nat)
    (source : σ) : Frame R × σ :=
  let (value, source) := oscillator.valueAt index source
  (instrument.place value, source)

end Instrument

end Chiptune
