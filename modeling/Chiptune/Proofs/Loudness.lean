import Chiptune.Proofs.Tone
import Chiptune.Random.ChaCha

/-!
# Tones and their amplitudes

Four of the five tones stay within their amplitude, and a saw within three tenths of it, for every
length of a cycle. A triangle climbs by one over a quarter of its cycle in each frame. It stays
within its amplitude as long as it climbs no longer than a quarter, but the last stretch of a cycle
of `4 * k + 3` frames begins `k + 1` frames before its end.

* `InRange.abs_mul_le`, levels and amplitudes;
* `one_lt_climb` and `value_mul_lt`, one frame more than a quarter;
* `Overshoots` and `overshoots_iff`, where a triangle climbs that long;
* `valueWith_withinAmplitude`, the tones.
-/

namespace Chiptune

open Amplitude Binary64

/-! ## Levels and amplitudes -/

/-- Products of numbers in range are rounded once. -/
theorem InRange.value_mul {x y : Float} (hx : InRange x) (hy : InRange y) :
    value (x * y) = nearest (value x * value y) := by
  have hprod : |value x * value y| ≤ 2 ^ (64 : ℤ) := by
    rw [abs_mul]
    exact (mul_le_one₀ hx.2 (abs_nonneg _) hy.2).trans (by norm_num)
  exact ((rounds_mul hx.1 hy.1).of_abs_le hprod).2

/-- Of two levels the larger one gives the larger product with an amplitude. -/
theorem InRange.abs_mul_le {level bound amplitude : Float} (hl : InRange level)
    (hb : InRange bound) (hle : |value level| ≤ value bound) (ha : InRange amplitude)
    (ha0 : 0 ≤ value amplitude) :
    |value (level * amplitude)| ≤ value (bound * amplitude) := by
  obtain ⟨hge, hle⟩ := abs_le.mp hle
  rw [hl.value_mul ha, hb.value_mul ha, abs_le, ← nearest_neg, ← neg_mul]
  exact ⟨nearest_mono (mul_le_mul_of_nonneg_right hge ha0),
    nearest_mono (mul_le_mul_of_nonneg_right hle ha0)⟩

/-- A level in range gives nothing above the amplitude. -/
theorem InRange.abs_mul_le_amplitude {level amplitude : Float} (hl : InRange level)
    (ha : InRange amplitude) (ha0 : 0 ≤ value amplitude) :
    |value (level * amplitude)| ≤ value amplitude := by
  obtain ⟨-, hv1⟩ := count_spec (n := 1) (by norm_num)
  rw [Nat.cast_one] at hv1
  have h := hl.abs_mul_le one_inRange (by rw [hv1]; exact hl.2) ha ha0
  rwa [one_inRange.value_mul ha, hv1, one_mul, nearest_value] at h

/-- Between an amplitude and its opposite, in the order of binary64 numbers. -/
theorem within_of_abs_le {v amplitude : Float} (hv : v.isFinite = true)
    (ha : amplitude.isFinite = true) (hle : |value v| ≤ value amplitude) :
    -amplitude ≤ v ∧ v ≤ amplitude := by
  rw [le_iff (isFinite_neg ha) hv, le_iff hv ha, value_neg]
  exact abs_le.mp hle

/-- Amplitudes between 0 and 1 are in range. -/
theorem inRange_of_nonneg {amplitude : Float} (h : 0 ≤ amplitude ∧ amplitude ≤ 1) :
    InRange amplitude ∧ 0 ≤ value amplitude := by
  have hf := isFinite_of_le ⟨Or.inr h.1, h.2⟩
  rw [le_iff zero_spec.1 hf, le_iff hf one_spec.1, zero_spec.2, one_spec.2] at h
  exact ⟨⟨hf, abs_le.mpr ⟨by linarith [h.1], h.2⟩⟩, h.1⟩

namespace Oscillator

/-! ## The top of a triangle -/

/-- One frame more than a quarter takes a triangle above 1. -/
theorem one_lt_climb {quarter : ℕ} (hpos : 0 < quarter) (h51 : quarter ≤ 2 ^ 51) {k : Float}
    (hk : k.isFinite = true) (hv : value k = (quarter + 1 : ℕ)) :
    (k * (ofCount 1 / ofCount quarter)).isFinite = true ∧
      1 + 1 / 2 ^ 52 ≤ value (k * (ofCount 1 / ofCount quarter)) ∧
      value (k * (ofCount 1 / ofCount quarter)) ≤ 2 ^ (52 : ℤ) := by
  have h64 : quarter < 2 ^ 64 := by omega
  obtain ⟨hfs, hs0, hs1⟩ := ratio_spec (m := 1) hpos hpos h64
  obtain ⟨-, hvq⟩ := count_spec (n := quarter) (by omega)
  have hquarter := abs_le.mp (abs_quarter_mul_slope_sub_one hpos h64)
  rw [hvq] at hquarter
  have hmul := rounds_mul hk hfs
  rw [hv] at hmul
  set slope := value (ofCount 1 / ofCount quarter : Float)
  have hq : (quarter : ℚ) ≤ 2 ^ 51 := by exact_mod_cast h51
  have hprod : ((quarter + 1 : ℕ) : ℚ) * slope = quarter * slope + slope := by
    push_cast
    ring
  rw [hprod] at hmul
  -- the frame too many climbs by a whole unit of the last place and more
  have hslope : 3 / 2 ^ 53 ≤ slope := by
    have := mul_le_mul_of_nonneg_right hq hs0
    linarith [hquarter.1]
  have hone : Representable (1 + 1 / 2 ^ 52) :=
    ⟨2 ^ 52 + 1, -52, by norm_num, by norm_num, by norm_num⟩
  have hmin : -2 ^ (1024 : ℤ) < (1 + 1 / 2 ^ 52 : ℚ) :=
    (neg_lt_zero.mpr (two_zpow_pos _)).trans (by norm_num)
  exact hmul.between hone (representable_two_zpow (e := 52) (by norm_num)) hmin
    (zpow_lt_zpow_right₀ (by norm_num) (by norm_num)) (by linarith [hquarter.1])
    (by norm_num; linarith [hquarter.2])

/-- No rounding takes that back, unless the amplitude is below `2 ^ (-1022)`. -/
theorem value_mul_lt {level amplitude : Float} (hl : level.isFinite = true)
    (hlow : value level ≤ -(1 + 1 / 2 ^ 52)) (hmin : -2 ^ (52 : ℤ) ≤ value level)
    (ha : InRange amplitude) (hnormal : 2 ^ (-1022 : ℤ) ≤ value amplitude) :
    (level * amplitude).isFinite = true ∧ value (level * amplitude) < -value amplitude := by
  have hpos : 0 < value amplitude := (two_zpow_pos _).trans_le hnormal
  have hmore : value level * value amplitude ≤ -(1 + 1 / 2 ^ 52) * value amplitude :=
    mul_le_mul_of_nonneg_right hlow hpos.le
  have hneg : value level * value amplitude ≤ 0 := by linarith
  have hsize : |value level * value amplitude| ≤ 2 ^ (64 : ℤ) := by
    have hlevel : -value level ≤ 2 ^ (52 : ℤ) := by linarith
    have h := mul_le_mul hlevel (abs_le.mp ha.2).2 hpos.le (by positivity)
    rw [abs_of_nonpos hneg]
    norm_num at h ⊢
    linarith
  obtain ⟨hf, hv⟩ := (rounds_mul hl ha.1).of_abs_le hsize
  have hround := abs_nearest_sub_le_mul (q := value level * value amplitude) (by
    rw [abs_of_nonpos hneg]
    linarith)
  rw [abs_of_nonpos hneg] at hround
  refine ⟨hf, ?_⟩
  rw [hv]
  linarith [(abs_le.mp hround).2]

/-- A triangle overshoots where it is farther from its zero than the quarter its slope is made
for. -/
def Overshoots (o : Oscillator Float) (index : ℕ) : Prop :=
  o.tone = .triangle ∧
    (ofCount (max (o.cycle / 4) 1) : Float) < fromZero ofCount o.cycle index

/-- Where counts are exact, it does so in one frame of a cycle of `4 * k + 3` frames. -/
theorem overshoots_iff {o : Oscillator Float} {index : ℕ} (hi : index < o.cycle)
    (hc : o.cycle ≤ 2 ^ 53) :
    o.Overshoots index ↔ o.tone = .triangle ∧ o.cycle % 4 = 3 ∧ 7 ≤ o.cycle ∧
      index = 3 * (o.cycle / 4) + 2 := by
  obtain ⟨hfk, hk⟩ := fromZero_spec hi hc
  obtain ⟨hfq, hq⟩ := count_spec (n := max (o.cycle / 4) 1) (by omega)
  unfold Overshoots
  rw [lt_iff hfq hfk, hk, hq, Nat.cast_lt]
  apply and_congr_right
  intro _
  unfold fromZero
  simp only [id]
  split_ifs <;> omega

/-- The distance of a triangle from its zero does not overflow. -/
theorem fromZero_bounds {cycle index : ℕ} (hi : index < cycle) (hc : cycle < 2 ^ 64) :
    (fromZero ofCount cycle index : Float).isFinite = true ∧
      0 ≤ value (fromZero ofCount cycle index : Float) := by
  have hcount : ∀ n < 2 ^ 64, (ofCount n : Float).isFinite = true ∧ 0 ≤ value (ofCount n : Float) :=
    fun n hn => ⟨(wideCount_spec hn).1, (wideCount_bounds hn).1⟩
  have hsub : ∀ {m n : ℕ}, n ≤ m → m < 2 ^ 64 → (ofCount m - ofCount n : Float).isFinite = true ∧
      0 ≤ value (ofCount m - ofCount n : Float) := by
    intro m n hnm hm
    obtain ⟨hfm, hvm⟩ := wideCount_spec hm
    obtain ⟨hfn, hvn⟩ := wideCount_spec (hnm.trans_lt hm)
    obtain ⟨-, hm64, -⟩ := wideCount_bounds hm
    obtain ⟨hn0, -, -⟩ := wideCount_bounds (hnm.trans_lt hm)
    have hle : value (ofCount n : Float) ≤ value (ofCount m) := by
      rw [hvn, hvm]
      exact nearest_mono (by exact_mod_cast hnm)
    obtain ⟨hf, h₁, -⟩ := (rounds_sub hfm hfn).between_zpow 0 64 (by norm_num) (by norm_num)
      (by norm_num) (by push_cast; linarith) (by linarith)
    exact ⟨hf, by exact_mod_cast h₁⟩
  unfold fromZero
  simp only
  split_ifs with h₁ h₂ h₃
  · exact hcount _ (by omega)
  · exact hsub h₁ (by omega)
  · exact hcount _ (by omega)
  · exact hsub hi.le hc

/-- Where it does not overshoot, a triangle is within its amplitude. -/
theorem abs_triangleAt_le {o : Oscillator Float} (ha : InRange o.amplitude)
    (ha0 : 0 ≤ value o.amplitude) (hc : o.cycle < 2 ^ 64) {index : ℕ} (hi : index < o.cycle)
    (hle : ¬(ofCount (max (o.cycle / 4) 1) : Float) < fromZero ofCount o.cycle index) :
    (o.triangleAt index).isFinite = true ∧ |value (o.triangleAt index)| ≤ value o.amplitude := by
  have hpos : 0 < max (o.cycle / 4) 1 := by omega
  have h64 : max (o.cycle / 4) 1 < 2 ^ 64 := by omega
  obtain ⟨hfk, hk0⟩ := fromZero_bounds hi hc
  rw [lt_iff (wideCount_spec h64).1 hfk, not_lt] at hle
  have hlevel : InRange _ := climb_le hpos h64 hfk hk0 zero_le_one (by rwa [one_mul])
    (by norm_num) nearest_tie.1
  rw [triangleAt_eq]
  split_ifs
  · exact ⟨(hlevel.mul ha).1, hlevel.abs_mul_le_amplitude ha ha0⟩
  · exact ⟨(hlevel.neg.mul ha).1, hlevel.neg.abs_mul_le_amplitude ha ha0⟩

/-- Where it overshoots, it is below its amplitude. -/
theorem triangleAt_lt {o : Oscillator Float} (ha : InRange o.amplitude)
    (hnormal : 2 ^ (-1022 : ℤ) ≤ value o.amplitude) (hc : o.cycle ≤ 2 ^ 53) (h4 : o.cycle % 4 = 3)
    (h7 : 7 ≤ o.cycle) :
    (o.triangleAt (3 * (o.cycle / 4) + 2)).isFinite = true ∧
      value (o.triangleAt (3 * (o.cycle / 4) + 2)) < -value o.amplitude := by
  have hi : 3 * (o.cycle / 4) + 2 < o.cycle := by omega
  obtain ⟨hfk, hk⟩ := fromZero_spec hi hc
  have hmore : fromZero id o.cycle (3 * (o.cycle / 4) + 2) = max (o.cycle / 4) 1 + 1 := by
    unfold fromZero
    simp only [id]
    split_ifs <;> omega
  rw [hmore] at hk
  obtain ⟨hfl, hone, hle⟩ := one_lt_climb (by omega) (by omega) hfk hk
  have hlast : ¬3 * (o.cycle / 4) + 2 ≤ o.cycle / 2 := by omega
  rw [triangleAt_eq, if_neg hlast]
  exact value_mul_lt (isFinite_neg hfl) (by rw [value_neg]; exact neg_le_neg hone)
    (by rw [value_neg]; exact neg_le_neg hle) ha hnormal

/-! ## Tones -/

/-- A saw is within three tenths of its amplitude. -/
theorem sawAt_within {o : Oscillator Float} (ha : InRange o.amplitude) (ha0 : 0 ≤ value o.amplitude)
    (hc : o.cycle < 2 ^ 64) (index : ℕ) :
    -(0.3 * o.amplitude) ≤ o.sawAt index ∧ o.sawAt index ≤ 0.3 * o.amplitude := by
  have hthree : InRange (ofCount 3 / ofCount 10) :=
    ratio_inRange (by norm_num) (by norm_num) (by norm_num)
  obtain ⟨hlevel, hle⟩ := sawLevel_spec hc ((index + max (o.cycle / 2) 1 / 2) % UInt64.size)
  rw [tenths_spec.1]
  exact within_of_abs_le (hlevel.mul ha).1 (hthree.mul ha).1 (hlevel.abs_mul_le hthree hle ha ha0)

section

variable {sine : Float → Float} {σ : Type} [RandomSource σ]

/-- The amplitude at a position in the cycle, with a given sine. -/
def valueWith (sine : Float → Float) (o : Oscillator Float) (index : ℕ) (source : σ) : Float × σ :=
  @valueAt Float (.binary64 sine) σ _ o index source

theorem valueWith_sin (o : Oscillator Float) (index : ℕ) (source : σ) :
    o.valueWith Float.sin index source = o.valueAt index source := rfl

/-- Every tone that does not overshoot is within its amplitude. -/
theorem abs_valueWith_le (hsine : ∀ x, x.isFinite = true → InRange (sine x))
    {o : Oscillator Float} (ha : InRange o.amplitude) (ha0 : 0 ≤ value o.amplitude)
    (hc : o.cycle < 2 ^ 64) {index : ℕ} (hi : index < o.cycle) (hnot : ¬o.Overshoots index)
    (source : σ) :
    (o.valueWith sine index source).1.isFinite = true ∧
      |value (o.valueWith sine index source).1| ≤ value o.amplitude := by
  obtain ⟨tone, cycle, amplitude⟩ := o
  have hlevel : ∀ {level : Float}, InRange level → (level * amplitude).isFinite = true ∧
      |value (level * amplitude)| ≤ value amplitude :=
    fun hl => ⟨(hl.mul ha).1, hl.abs_mul_le_amplitude ha ha0⟩
  have hwave := hlevel (hsine _ (angle_isFinite hi hc))
  cases tone with
  | square =>
    show (ite _ _ _ * amplitude).isFinite = true ∧ |value (ite _ _ _ * amplitude)| ≤ _
    split_ifs
    · exact hlevel one_inRange
    · exact hlevel one_inRange.neg
  | sine => exact hwave
  | triangle => exact abs_triangleAt_le ha ha0 hc hi fun hlt => hnot ⟨rfl, hlt⟩
  | noise =>
    have hscaled := mul_le_of_inRange hwave.1
      (unitFraction_sub_inRange (RandomSource.draw source).1)
    have hnoise := mul_le_of_inRange hscaled.1 ha
    exact ⟨hnoise.1, hnoise.2.trans (hscaled.2.trans hwave.2)⟩
  | saw =>
    obtain ⟨hsaw, -⟩ := sawLevel_spec hc ((index + max (cycle / 2) 1 / 2) % UInt64.size)
    exact hlevel hsaw

/-- No tone is louder than its amplitude, for every length of a cycle, every position in it and
every random word, with the exception of a triangle that climbs longer than a quarter of its cycle.
Up to `2 ^ 53` frames that is a single frame, and only of cycles of `4 * k + 3` frames from 7 on; it
is below the amplitude unless that is smaller than all normal numbers. A saw is within three tenths
of its amplitude. -/
theorem valueWith_withinAmplitude (hsine : ∀ x, x.isFinite = true → -1 ≤ sine x ∧ sine x ≤ 1)
    {o : Oscillator Float} (hamplitude : 0 ≤ o.amplitude ∧ o.amplitude ≤ 1)
    (hcycle : o.cycle < 2 ^ 64) {index : ℕ} (hindex : index < o.cycle) (source : σ) :
    (¬o.Overshoots index → -o.amplitude ≤ (o.valueWith sine index source).1 ∧
      (o.valueWith sine index source).1 ≤ o.amplitude) ∧
    (o.tone = .saw → -(0.3 * o.amplitude) ≤ (o.valueWith sine index source).1 ∧
      (o.valueWith sine index source).1 ≤ 0.3 * o.amplitude) ∧
    (o.cycle ≤ 2 ^ 53 →
      (o.Overshoots index ↔ o.tone = .triangle ∧ o.cycle % 4 = 3 ∧ 7 ≤ o.cycle ∧
        index = 3 * (o.cycle / 4) + 2) ∧
      (o.Overshoots index → 2 ^ (-1022 : ℤ) ≤ value o.amplitude →
        (o.valueWith sine index source).1 < -o.amplitude)) := by
  obtain ⟨ha, ha0⟩ := inRange_of_nonneg hamplitude
  have hsine' : ∀ x, x.isFinite = true → InRange (sine x) :=
    fun x hx => inRange_of_le (hsine x hx)
  refine ⟨fun hnot => ?_, fun hsaw => ?_, fun hc => ⟨overshoots_iff hindex hc, ?_⟩⟩
  · obtain ⟨hf, hle⟩ := abs_valueWith_le hsine' ha ha0 hcycle hindex hnot source
    exact within_of_abs_le hf ha.1 hle
  · obtain ⟨tone, cycle, amplitude⟩ := o
    subst hsaw
    exact sawAt_within ha ha0 hcycle index
  · intro hover hnormal
    obtain ⟨htone, h4, h7, rfl⟩ := (overshoots_iff hindex hc).mp hover
    obtain ⟨tone, cycle, amplitude⟩ := o
    subst htone
    obtain ⟨hf, hlt⟩ := triangleAt_lt ha hnormal hc h4 h7
    exact (lt_iff hf (isFinite_neg ha.1)).mpr (by rwa [value_neg])

end

/-- The triangle of the lowest note. -/
def lowTriangle : Oscillator Float := .ofTone .triangle 351

/-- It reaches its amplitude after a quarter, and in one frame it is below. A triangle never asks
for a sine. -/
theorem lowTriangle_withinAmplitude :
    (-lowTriangle.amplitude ≤ (lowTriangle.valueWith (fun _ => 0) 87 (ChaCha.ofSeed 1)).1 ∧
      (lowTriangle.valueWith (fun _ => 0) 87 (ChaCha.ofSeed 1)).1 ≤ lowTriangle.amplitude) ∧
    (lowTriangle.valueWith (fun _ => 0) 263 (ChaCha.ofSeed 1)).1 < -lowTriangle.amplitude := by
  have hsine : ∀ x : Float, x.isFinite = true →
      -1 ≤ (fun _ => 0 : Float → Float) x ∧ (fun _ => 0 : Float → Float) x ≤ 1 := by
    intro _ _
    show -1 ≤ (0 : Float) ∧ (0 : Float) ≤ 1
    decide
  have hhalf : lowTriangle.amplitude = 0.5 := half_eq.symm
  have hamplitude : 0 ≤ lowTriangle.amplitude ∧ lowTriangle.amplitude ≤ 1 := by
    rw [hhalf]
    decide
  have hnormal : (2 : ℚ) ^ (-1022 : ℤ) ≤ value lowTriangle.amplitude := by
    have hpow : (1 / 2 : ℚ) = 2 ^ (-1 : ℤ) := by norm_num
    rw [hhalf, half_spec.2, hpow]
    exact zpow_le_zpow_right₀ (by norm_num) (by norm_num)
  have hcycle : lowTriangle.cycle < 2 ^ 64 := by decide
  have hshort : lowTriangle.cycle ≤ 2 ^ 53 := by decide
  have htop : 87 < lowTriangle.cycle := by decide
  have hlast : 263 < lowTriangle.cycle := by decide
  have hnot : ¬lowTriangle.Overshoots 87 := by
    rw [overshoots_iff htop hshort]
    decide
  have hover : lowTriangle.Overshoots 263 := by
    rw [overshoots_iff hlast hshort]
    decide
  exact ⟨(valueWith_withinAmplitude hsine hamplitude hcycle htop (ChaCha.ofSeed 1)).1 hnot,
    ((valueWith_withinAmplitude hsine hamplitude hcycle hlast (ChaCha.ofSeed 1)).2.2 hshort).2
      hover hnormal⟩

/-- Seven frames are the shortest cycle that overshoots: it climbs to twice its amplitude. -/
theorem shortTriangle_overshoots :
    let o : Oscillator Float := ⟨.triangle, 7, 1⟩
    (0 ≤ o.amplitude ∧ o.amplitude ≤ 1) ∧ 5 < o.cycle ∧
      (o.valueAt 5 (ChaCha.ofSeed 1)).1 = -2 ∧
      ¬(-o.amplitude ≤ (o.valueAt 5 (ChaCha.ofSeed 1)).1 ∧
        (o.valueAt 5 (ChaCha.ofSeed 1)).1 ≤ o.amplitude) := by
  decide

end Oscillator

end Chiptune
