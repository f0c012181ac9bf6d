import Chiptune.Phrase.Render
import Chiptune.Tune.Basic

/-!
# Rendering a tune

Every phrase of the sequence is rendered once, when it is first met. The buffers are then laid end
to end in the order of the sequence.
-/

namespace Chiptune

/-- The sound of a tune, with the buffers it was built from. -/
structure RenderedTune (R : Type) where
  name : String
  /-- The buffer of each phrase in the sequence. -/
  phrases : Catalog (Buffer R)
  buffer : Buffer R

/-- The length of the sound in seconds. -/
def RenderedTune.duration {R : Type} (rendered : RenderedTune R) : Float :=
  asFloat rendered.buffer.size / asFloat sampleRate

namespace Tune

variable {R : Type} [Amplitude R] {σ : Type} [RandomSource σ]

/-- Renders the phrases of a sequence that have no buffer yet. -/
@[specialize] def renderPhrases (tune : Tune) (buffers : Catalog (Buffer R)) :
    List String → Performance σ (Catalog (Buffer R))
  | [] => pure buffers
  | name :: names =>
    if buffers.contains name then renderPhrases tune buffers names
    else do
      let phrase ← Report.ofExcept (tune.phrase name)
      let buffer ← phrase.render
      renderPhrases tune (buffers.put name buffer) names

/-- The frame at which each phrase of a sequence starts, the first one at `offset`, as a 64-bit
count. -/
def placements (tune : Tune) (offset : Nat) : List String → List (String × Nat)
  | [] => []
  | name :: names =>
    let frames := (tune.phrases.get? name).elim 0 Phrase.frameCount
    (name, offset) :: placements tune ((offset + frames) % UInt64.size) names

/-- Overlays the buffers of phrases at their places. -/
@[specialize] def layOut (buffers : Catalog (Buffer R)) (buffer : Buffer R) :
    List (String × Nat) → Buffer R
  | [] => buffer
  | (name, offset) :: places =>
    match buffers.get? name with
    | some phrase => layOut buffers (buffer.overlay phrase offset) places
    | none => layOut buffers buffer places

/-- The sound of a tune. -/
@[specialize] def render (tune : Tune) : Performance σ (RenderedTune R) := do
  let buffers ← tune.renderPhrases {} tune.sequence
  let size ← Report.ofExcept tune.frameCount
  let places := tune.placements 0 tune.sequence
  Report.tellAll (places.map fun (name, offset) => .placingPhrase name offset)
  Report.tell (.renderedTune tune.name tune.sequence.length size)
  return ⟨tune.name, buffers, layOut buffers (Buffer.silence size) places⟩

end Tune

end Chiptune
