import Chiptune.Frame

/-!
# Buffers of frames

Operations on a run of frames: overlaying another run at an offset, and echoing a run onto itself.
The echo walks from the end to the start, so every frame is read before it receives its own echo:
what is echoed is the sound as it was, never an echo.
-/

namespace Chiptune

/-- A run of frames, one per sampling instant. -/
abbrev Buffer (R : Type) := Array (Frame R)

namespace Buffer

open Amplitude

variable {R : Type} [Amplitude R]

/-- A buffer without sound. -/
def silence (size : Nat) : Buffer R := Array.replicate size Frame.silent

/-- Merges `frame` into the frame at `index`; past the end it is dropped. -/
@[specialize] def addAt (buffer : Buffer R) (index : Nat) (frame : Frame R) : Buffer R :=
  buffer.modify index (·.add frame)

/-- Merges the frames of `source` from its position `i` on into `target`, `offset` frames later. -/
@[specialize] def overlayFrom (target source : Buffer R) (offset i : Nat) : Buffer R :=
  if h : i < source.size then
    overlayFrom (target.addAt (offset + i) source[i]) source offset (i + 1)
  else target
termination_by source.size - i

/-- Merges `source` into `target` starting at `offset`. Frames that would land past the end of
`target` are dropped. -/
@[specialize] def overlay (target source : Buffer R) (offset : Nat) : Buffer R :=
  overlayFrom target source offset 0

/-- Echoes the frames below `count`, the last one first, each `delay` frames later. -/
@[specialize] def echoBelow (buffer : Buffer R) (delay : Nat) (decay : R) : Nat → Buffer R
  | 0 => buffer
  | i + 1 =>
    match buffer[i]? with
    | some frame => echoBelow (buffer.addAt (i + delay) (frame.scale decay)) delay decay i
    | none => echoBelow buffer delay decay i

/-- Adds one copy of the buffer onto itself, `delay` frames later and `decay` times as loud. The
copy is cut off at the end of the buffer. -/
@[specialize] def echo (buffer : Buffer R) (delay : Nat) (decay : R) : Buffer R :=
  if delay = 0 ∨ buffer.size ≤ delay then buffer
  else echoBelow buffer delay decay (buffer.size - delay)

end Buffer

end Chiptune
