import Chiptune.Amplitude

/-!
# Random sources

Noise is the only sound that needs chance. A source hands out 64-bit words one after the other;
the upper 53 bits of a word make a fraction in `[0, 1)`. `Tally` counts how many words were taken
from a source.
-/

namespace Chiptune

/-- A state from which 64-bit words can be drawn. -/
class RandomSource (σ : Type) where
  draw : σ → UInt64 × σ

/-- The upper 53 bits of a word as a fraction of `2 ^ 53`, a number in `[0, 1)`. -/
@[inline] def unitFraction {R : Type} [Amplitude R] (word : UInt64) : R :=
  Amplitude.ofCount (word >>> 11).toNat / Amplitude.ofCount (1 <<< 53)

/-- A random source with the number of words drawn from it. -/
structure Tally (σ : Type) where
  source : σ
  drawn : Nat

instance {σ : Type} [RandomSource σ] : RandomSource (Tally σ) where
  draw t :=
    let (word, source) := RandomSource.draw t.source
    (word, ⟨source, t.drawn + 1⟩)

end Chiptune
