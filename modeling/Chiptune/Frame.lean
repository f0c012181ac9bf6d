import Chiptune.Amplitude

/-!
# Stereo frames

A frame holds one amplitude for each ear. Frames are merged by adding them and folding what
overshoots back into range, instead of clipping it: both channels of a merged frame lie in
`[-1, 1]`, however many voices meet there.
-/

namespace Chiptune

/-- One amplitude for each ear. -/
structure Frame (R : Type) where
  left : R
  right : R
deriving DecidableEq, Inhabited

open Amplitude

variable {R : Type} [Amplitude R]

/-! ## Folding -/

/-- Folding repeats every 4; a value more than 3 from zero is first taken into `[-1, 3)`. -/
@[specialize] def unwind (v : R) : R :=
  if 3 < magnitude v then remainder (v + 1) 4 - 1 else v

/-- Reflects an overshoot beyond 1 or -1 back by the amount of the overshoot. -/
@[specialize] def reflect (v : R) : R :=
  if 1 < v then 1 - (v - 1) else if v < -1 then -1 - (v + 1) else v

/-- Brings any value into `[-1, 1]` by reflecting it between the two bounds. -/
@[specialize] def fold (v : R) : R := reflect (unwind v)

namespace Frame

/-- The same amplitude for both ears. -/
def mono (v : R) : Frame R := ⟨v, v⟩

/-- No sound. -/
def silent : Frame R := ⟨0, 0⟩

/-- Merges two frames, folding each channel back into range. -/
@[specialize] def add (a b : Frame R) : Frame R :=
  ⟨fold (a.left + b.left), fold (a.right + b.right)⟩

/-- Both channels multiplied by `gain`. -/
@[specialize] def scale (a : Frame R) (gain : R) : Frame R :=
  ⟨a.left * gain, a.right * gain⟩

/-- The frame with its ears exchanged. -/
def swap (a : Frame R) : Frame R := ⟨a.right, a.left⟩

end Frame

end Chiptune
