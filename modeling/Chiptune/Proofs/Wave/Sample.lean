import Chiptune.Proofs.Binary32
import Chiptune.Proofs.WholePart

/-!
# What becomes of an amplitude

An amplitude is brought into `[-1, 1]` and then either rounded to binary32 or scaled to a whole
number. Scaling rounds once, drops the fraction and so stays within one unit of the exact product;
each of its steps keeps the order and treats both signs alike.

* `limit_spec`, the amplitude in range;
* `scaled_eq`, the whole number as a function of the exact product;
* `Quantizes`, what integer samples are, and `quantizes_scaled`.
-/

namespace Chiptune.Wave

open Binary64

/-- The number in `[-1, 1]` that is nearest to `q`. -/
def clamp (q : ℚ) : ℚ := max (-1) (min 1 q)

theorem abs_clamp_le (q : ℚ) : |clamp q| ≤ 1 :=
  abs_le.mpr ⟨le_max_left _ _, max_le (by norm_num) (min_le_left _ _)⟩

/-- An amplitude is limited to the clamped value and keeps its sign, also as a zero. -/
theorem limit_spec {x : Float} (hx : x.isFinite = true) :
    (limit x).isFinite = true ∧ value (limit x) = clamp (value x) ∧
      (limit x).toBits.toNat / 2 ^ 63 = x.toBits.toNat / 2 ^ 63 := by
  have hone := one_spec
  have hneg : (-1 : Float).isFinite = true ∧ value (-1) = -1 :=
    ⟨isFinite_neg hone.1, by rw [value_neg, hone.2]⟩
  unfold limit clamp
  split_ifs with hlow hhigh
  · rw [lt_iff hx hneg.1, hneg.2] at hlow
    refine ⟨hneg.1, ?_, ?_⟩
    · rw [hneg.2, min_eq_right (by linarith), max_eq_left hlow.le]
    · rw [signBit_of_neg hneg.1 (by rw [hneg.2]; norm_num), signBit_of_neg hx (by linarith)]
  · rw [lt_iff hone.1 hx, hone.2] at hhigh
    refine ⟨hone.1, ?_, ?_⟩
    · rw [hone.2, min_eq_left hhigh.le, max_eq_right (by norm_num)]
    · rw [signBit_of_pos hone.1 (by rw [hone.2]; norm_num), signBit_of_pos hx (by linarith)]
  · rw [lt_iff hx hneg.1, hneg.2, not_lt] at hlow
    rw [lt_iff hone.1 hx, hone.2, not_lt] at hhigh
    exact ⟨hx, by rw [min_eq_right hhigh, max_eq_right hlow], rfl⟩

/-! ## Whole numbers -/

theorem truncate_neg (q : ℚ) : truncate (-q) = -truncate q := by
  rcases lt_trichotomy q 0 with h | rfl | h
  · rw [truncate, truncate, if_neg (by linarith), if_pos h, Int.floor_neg]
  · rw [neg_zero, ← Int.cast_zero, truncate_intCast, neg_zero]
  · rw [truncate, truncate, if_pos (by linarith), if_neg h.not_gt, Int.ceil_neg]

theorem truncate_mono {a b : ℚ} (h : a ≤ b) : truncate a ≤ truncate b := by
  unfold truncate
  split_ifs with ha hb hb
  · exact Int.ceil_mono h
  · calc ⌈a⌉ ≤ 0 := Int.ceil_le.mpr (by exact_mod_cast ha.le)
      _ ≤ ⌊b⌋ := Int.floor_nonneg.mpr (not_lt.mp hb)
  · exact absurd (h.trans_lt hb) ha
  · exact Int.floor_mono h

/-- Rounding a number of moderate size and dropping the fraction stays within one unit. -/
theorem abs_truncate_nearest_sub_lt {q : ℚ} (hq : |q| < 2 ^ 52) :
    |(truncate (nearest q) : ℚ) - q| < 1 := by
  rw [abs_lt] at hq
  have hfloor : |⌊q⌋| < 2 ^ 53 := by
    have h₁ : -2 ^ 52 ≤ ⌊q⌋ := Int.le_floor.mpr (by push_cast; exact hq.1.le)
    have h₂ : ⌊q⌋ < 2 ^ 52 := Int.floor_lt.mpr (by push_cast; exact hq.2)
    exact abs_lt.mpr ⟨by omega, by omega⟩
  have hceil : |⌈q⌉| < 2 ^ 53 := by
    have h₁ : -2 ^ 52 < ⌈q⌉ := Int.lt_ceil.mpr (by push_cast; exact hq.1)
    have h₂ : ⌈q⌉ ≤ 2 ^ 52 := Int.ceil_le.mpr (by push_cast; exact hq.2.le)
    exact abs_lt.mpr ⟨by omega, by omega⟩
  -- neither step crosses a whole number
  have hlow := truncate_mono (le_nearest (representable_intCast hfloor) (Int.floor_le q))
  have hhigh := truncate_mono (nearest_le (representable_intCast hceil) (Int.le_ceil q))
  rw [truncate_intCast] at hlow hhigh
  have hlow' : (⌊q⌋ : ℚ) ≤ truncate (nearest q) := by exact_mod_cast hlow
  have hhigh' : (truncate (nearest q) : ℚ) ≤ ⌈q⌉ := by exact_mod_cast hhigh
  have h₁ := Int.lt_floor_add_one q
  have h₂ := Int.ceil_lt_add_one q
  rw [abs_lt]
  constructor <;> linarith

/-- Taking a number to a count, by its distance from zero, drops its fraction. -/
theorem floorCount_eq {x : Float} (hx : x.isFinite = true) (hnonneg : 0 ≤ value x)
    (hlt : value x < 2 ^ 64) : (floorCount x : ℤ) = ⌊value x⌋ := by
  rw [floorCount, toNat_toUInt64 hx hnonneg hlt]
  exact Int.natCast_floor_eq_floor hnonneg

/-- Scaling a number within `[-1, 1]` rounds the exact product and drops its fraction. -/
theorem scaled_eq {y : Float} {M : ℕ} (hM : M < 2 ^ 53) (hy : y.isFinite = true)
    (hle : |value y| ≤ 1) :
    scaled (Amplitude.ofCount M) y = truncate (nearest (value y * M)) := by
  obtain ⟨hs, hscale⟩ := count_spec hM.le
  have hM' : (M : ℚ) < 2 ^ 53 := by exact_mod_cast hM
  have hexact : Representable M := by
    exact_mod_cast representable_intCast (n := M) (by rw [Nat.abs_cast]; exact_mod_cast hM)
  have hbound : |nearest (value y * M)| ≤ M := by
    refine abs_nearest_le hexact ?_
    rw [abs_mul, Nat.abs_cast]
    exact mul_le_of_le_one_left (Nat.cast_nonneg M) hle
  have hrounds := rounds_mul hy hs
  rw [hscale] at hrounds
  have htop : (2 : ℚ) ^ 53 < 2 ^ (1024 : ℤ) := by
    rw [← zpow_natCast]
    exact zpow_lt_zpow_right₀ (by norm_num) (by norm_num)
  obtain ⟨hp, hv⟩ := hrounds (hbound.trans_lt (hM'.trans htop))
  rw [← hv, abs_le] at hbound
  rw [← hv, scaled, truncate]
  simp only [lt_iff hp zero_spec.1, zero_spec.2]
  split_ifs with hneg
  · rw [floorCount_eq (isFinite_neg hp) (by rw [value_neg]; linarith)
      (by rw [value_neg]; linarith), value_neg, Int.floor_neg, neg_neg]
  · exact floorCount_eq hp (not_lt.mp hneg) (by linarith)

-- the fraction is dropped on both sides of zero
example : scaled 127 (limit 0.5) = 63 ∧ scaled 127 (limit (-0.5)) = -63 := by decide +kernel

/-! ## Integer samples -/

/-- What the whole numbers `q x` of a scale of `M` are for amplitudes `x` that are finite: within
the scale, within one unit of the exact product, in the same order and alike for both signs. -/
structure Quantizes (M : ℤ) (q : Float → ℤ) : Prop where
  bounded : ∀ x : Float, x.isFinite = true → |q x| ≤ M
  near : ∀ x : Float, x.isFinite = true → |(q x : ℚ) - clamp (value x) * M| < 1
  mono : ∀ x y : Float, x.isFinite = true → y.isFinite = true →
    clamp (value x) ≤ clamp (value y) → q x ≤ q y
  odd : ∀ x y : Float, x.isFinite = true → y.isFinite = true →
    clamp (value y) = -clamp (value x) → q y = -q x

/-- Scaling limited amplitudes gives such numbers. -/
theorem quantizes_scaled {M : ℕ} (hM : M < 2 ^ 52) :
    Quantizes M fun x => scaled (Amplitude.ofCount M) (limit x) := by
  have hM' : (M : ℚ) < 2 ^ 52 := by exact_mod_cast hM
  have heq : ∀ x : Float, x.isFinite = true →
      scaled (Amplitude.ofCount M) (limit x) = truncate (nearest (clamp (value x) * M)) := by
    intro x hx
    obtain ⟨hl, hv, -⟩ := limit_spec hx
    rw [scaled_eq (by omega) hl (by rw [hv]; exact abs_clamp_le _), hv]
  have hproduct : ∀ x : Float, |clamp (value x) * M| ≤ M := by
    intro x
    rw [abs_mul, Nat.abs_cast]
    exact mul_le_of_le_one_left (Nat.cast_nonneg M) (abs_clamp_le _)
  have hexact : Representable M := by
    exact_mod_cast representable_intCast (n := M) (by rw [Nat.abs_cast]; omega)
  refine ⟨?_, ?_, ?_, ?_⟩
  · intro x hx
    rw [heq x hx]
    exact_mod_cast (abs_truncate_le _).trans (abs_nearest_le hexact (hproduct x))
  · intro x hx
    rw [heq x hx]
    exact abs_truncate_nearest_sub_lt ((hproduct x).trans_lt hM')
  · intro x y hx hy hle
    rw [heq x hx, heq y hy]
    exact truncate_mono (nearest_mono (mul_le_mul_of_nonneg_right hle (Nat.cast_nonneg M)))
  · intro x y hx hy hneg
    rw [heq x hx, heq y hy, hneg, neg_mul, nearest_neg, truncate_neg]

end Chiptune.Wave
