import Chiptune.Proofs.Buffer
import Chiptune.Proofs.Exact.Reflection

/-!
# The echo that is made in place

A buffer is echoed onto itself without a second buffer. The walk goes from the end to the start, so
that it only ever writes above the frame that it has just read: everything it reads is still the
sound as it was. It therefore gives what is computed from a buffer that nothing is written to, which
is the sound with a quieter copy of itself laid over it.

* `Buffer.tapped`, the echo in a second buffer, and `Buffer.tapped_eq_overlay`, as an overlay;
* `Buffer.echo_eq_tapped`, the walk and the second buffer;
* `Buffer.echo_readsOriginal`, all frames of a buffer that is echoed in place.
-/

namespace Chiptune.Buffer

variable {R : Type} [Amplitude R]

/-! ## A second buffer -/

/-- The buffer with one copy of it, `delay` frames later and `decay` times as loud. Nothing is
written to the buffer that is read. -/
def tapped (b : Buffer R) (delay : ℕ) (decay : R) : Buffer R :=
  Array.ofFn fun i : Fin b.size =>
    if delay ≤ i then b[i].add (b[i - delay].scale decay) else b[i]

theorem getElem?_tapped (b : Buffer R) (delay : ℕ) (decay : R) {i : ℕ} (hi : i < b.size) :
    (b.tapped delay decay)[i]?
      = some (if delay ≤ i then b[i].add (b[i - delay].scale decay) else b[i]) := by
  rw [tapped, Array.getElem?_ofFn, dif_pos hi]
  rfl

@[simp] theorem size_tapped (b : Buffer R) (delay : ℕ) (decay : R) :
    (b.tapped delay decay).size = b.size :=
  Array.size_ofFn

/-- The second buffer is the sound with a quieter copy of it laid over it. -/
theorem tapped_eq_overlay (b : Buffer R) (delay : ℕ) (decay : R) :
    b.tapped delay decay = b.overlay (b.map (·.scale decay)) delay := by
  refine Array.ext_getElem? fun i => ?_
  rcases Nat.lt_or_ge i b.size with hi | hi
  · rw [getElem?_tapped b delay decay hi, getElem?_overlay, Array.getElem?_map,
      Array.getElem?_eq_getElem hi]
    split_ifs
    · rw [Array.getElem?_eq_getElem (by omega : i - delay < b.size)]
      rfl
    · rfl
  · rw [Array.getElem?_eq_none (by rwa [size_tapped]),
      Array.getElem?_eq_none (by rwa [size_overlay])]

/-! ## One buffer -/

/-- The walk reads no frame that it has written. -/
theorem echo_eq_tapped (b : Buffer R) {delay : ℕ} (hdelay : 0 < delay) (decay : R) :
    b.echo delay decay = b.tapped delay decay := by
  rw [tapped_eq_overlay]
  refine Array.ext_getElem? fun i => ?_
  rw [getElem?_echo, getElem?_overlay]
  split_ifs with hecho hlate hlate
  · rw [Array.getElem?_map]
    cases b[i - delay]? <;> rfl
  · exact absurd hecho.2 hlate
  · exact absurd ⟨hdelay, hlate⟩ hecho
  · rfl

/-- Echoing in place keeps the length of a buffer, and the whole buffer if there is no delay or one
that lasts to the end. Otherwise the frames before the delay stay, and into every later one the
frame from one delay before it is merged, as that frame was at first, also where it has received an
echo itself. -/
theorem echo_readsOriginal (b : Buffer R) (delay : ℕ) (decay : R) :
    (b.echo delay decay).size = b.size ∧
      (delay = 0 ∨ b.size ≤ delay → b.echo delay decay = b) ∧
      (0 < delay → delay < b.size →
        b.echo delay decay = b.overlay (b.map (·.scale decay)) delay ∧
        ∀ (i : ℕ) (hi : i < b.size), (b.echo delay decay)[i]?
          = some (if delay ≤ i then b[i].add (b[i - delay].scale decay) else b[i])) := by
  refine ⟨size_echo b delay decay, fun hnone => if_pos hnone, fun hdelay _ => ?_⟩
  have htapped := echo_eq_tapped b hdelay decay
  exact ⟨htapped.trans (tapped_eq_overlay b delay decay),
    fun i hi => htapped ▸ getElem?_tapped b delay decay hi⟩

/-- A click and three frames of silence. -/
def click : Buffer ℚ := #[⟨1 / 2, 0⟩, ⟨0, 0⟩, ⟨0, 0⟩, ⟨0, 0⟩]

/-- The click as it is echoed without rounding, half as loud. -/
def echoedClick (delay : ℕ) : Buffer ℚ := @echo ℚ (.exact id 0) click delay (1 / 2)

/-- The click comes back one frame later, and its echo does not come back once more. -/
theorem click_readsOriginal :
    0 < 1 ∧ 1 < click.size ∧ (echoedClick 1)[1]? = some ⟨1 / 4, 0⟩ ∧
      (echoedClick 1)[2]? = some ⟨0, 0⟩ ∧ click.size ≤ 4 ∧ echoedClick 4 = click := by
  let := Amplitude.exact (id : ℚ → ℚ) 0
  obtain ⟨-, -, hframes⟩ := echo_readsOriginal click 1 (1 / 2)
  obtain ⟨-, hframes⟩ := hframes (by decide) (by decide)
  obtain ⟨-, hlate, -⟩ := echo_readsOriginal click 4 (1 / 2)
  exact ⟨by decide, by decide, (hframes 1 (by decide)).trans (by decide +kernel),
    (hframes 2 (by decide)).trans (by decide +kernel), by decide, hlate (Or.inr (by decide))⟩

end Chiptune.Buffer
