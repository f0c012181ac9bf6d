import Chiptune.Buffer
import Chiptune.Decimal.Fixed
import Chiptune.Pitch

/-!
# Statistics of a sound

The length of a sound, and for each ear its peak and its root mean square.
-/

namespace Chiptune

/-- What can be said about a sound without hearing it. -/
structure Statistics where
  /-- In seconds. -/
  duration : Float
  frameCount : Nat
  peakLeft : Float
  peakRight : Float
  rmsLeft : Float
  rmsRight : Float

namespace Statistics

/-- The largest magnitude of a channel; what is no number is passed over. -/
def peak (channel : Frame Float → Float) (frames : Buffer Float) : Float :=
  frames.foldl (fun most frame =>
    let level := (channel frame).abs
    if most < level then level else most) 0

/-- The root mean square of a channel. The sum starts at negative zero, the number that changes
nothing when added. -/
def rms (channel : Frame Float → Float) (frames : Buffer Float) : Float :=
  let sum := frames.foldl (fun sum frame => sum + channel frame * channel frame) (-0.0)
  (sum / asFloat (max frames.size 1)).sqrt

/-- The statistics of a sound. -/
def ofFrames (frames : Buffer Float) : Statistics where
  duration := asFloat frames.size / asFloat sampleRate
  frameCount := frames.size
  peakLeft := peak Frame.left frames
  peakRight := peak Frame.right frames
  rmsLeft := rms Frame.left frames
  rmsRight := rms Frame.right frames

/-- The lines of a summary. -/
def summary (s : Statistics) : List String :=
  ["Render Statistics:",
   s!"  Duration:       {Decimal.fixed s.duration 3} seconds",
   s!"  Frames:         {s.frameCount}",
   s!"  Sample rate:    {sampleRate} Hz",
   s!"  Peak (L/R):     {Decimal.fixed s.peakLeft 3} / {Decimal.fixed s.peakRight 3}",
   s!"  RMS (L/R):      {Decimal.fixed s.rmsLeft 3} / {Decimal.fixed s.rmsRight 3}"]

end Statistics

end Chiptune
