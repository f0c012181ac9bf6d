import Chiptune.Instrument
import Chiptune.Proofs.Binary64.Optimal
import Chiptune.Proofs.Settled

/-!
# What an instrument contributes

The sine is a function of the machine; the arithmetic says nothing about it, so that it is a
parameter here, and all that is ever asked of it is that it is finite, or in `[-1, 1]`, at finite
angles. Every other step of the five tones is rounded arithmetic on small counts: each tone is in
range if the sine is, and finite if the sine is. Volume and position are factors of at most 1.

* `Amplitude.binary64`, binary64 arithmetic with a given sine;
* `mul_le_of_inRange`, a factor in range, and `ratio_spec`, a share of 1;
* `Oscillator.sawLevel_spec`, `Oscillator.climb_le` and `Oscillator.fromZero`, the shapes;
* `Oscillator.valueAt_le`, the tones;
* `Instrument.frameAt_isFinite` and `Instrument.frameAt_inRange`, the frames of an instrument.
-/

namespace Chiptune

open Binary64

/-- Binary64 arithmetic with a given sine; with the sine of the machine it is the one that sound is
computed in. -/
@[reducible] def Amplitude.binary64 (sine : Float → Float) : Amplitude Float :=
  { (inferInstance : Amplitude Float) with sin := sine }

/-- No sine takes part in merging. -/
theorem Amplitude.lawfulFolding_binary64 (sine : Float → Float) :
    @LawfulFolding Float (.binary64 sine) :=
  let lawful : LawfulFolding Float := inferInstance
  @LawfulFolding.mk Float (.binary64 sine) lawful.settled_silent lawful.settled_add
    lawful.add_silent

open Amplitude

/-! ## Factors in range -/

/-- The range in terms of the order of binary64 numbers. -/
theorem inRange_iff {v : Float} :
    InRange v ↔ v.isFinite = true ∧ -ofCount 1 ≤ v ∧ v ≤ ofCount 1 := by
  obtain ⟨hf1, hv1⟩ := count_spec (n := 1) (by norm_num)
  push_cast at hv1
  constructor
  · rintro ⟨hf, hle⟩
    rw [abs_le] at hle
    exact ⟨hf, (le_iff (isFinite_neg hf1) hf).mpr (by rw [value_neg, hv1]; exact hle.1),
      (le_iff hf hf1).mpr (by rw [hv1]; exact hle.2)⟩
  · rintro ⟨hf, hge, hle⟩
    rw [le_iff (isFinite_neg hf1) hf, value_neg, hv1] at hge
    rw [le_iff hf hf1, hv1] at hle
    exact ⟨hf, abs_le.mpr ⟨hge, hle⟩⟩

/-- What lies between bounds is finite, since the order says nothing of what is not a number. -/
theorem isFinite_of_le {v : Float} (h : (-1 ≤ v ∨ 0 ≤ v) ∧ v ≤ 1) : v.isFinite = true := by
  by_contra hf
  rcases eq_of_not_isFinite hf with rfl | rfl | rfl <;> exact absurd h (by decide)

theorem inRange_of_le {v : Float} (h : -1 ≤ v ∧ v ≤ 1) : InRange v := by
  have hf := isFinite_of_le ⟨Or.inl h.1, h.2⟩
  rw [one_eq] at h
  exact inRange_iff.mpr ⟨hf, h⟩

/-- A factor in range makes nothing larger. -/
theorem mul_le_of_inRange {x y : Float} (hx : x.isFinite = true) (hy : InRange y) :
    (x * y).isFinite = true ∧ |value (x * y)| ≤ |value x| := by
  have hrep : Representable |value x| := by
    rcases abs_choice (value x) with h | h <;> rw [h]
    · exact representable_value x
    · exact (representable_value x).neg
  have hprod : |value x * value y| ≤ |value x| := by
    rw [abs_mul]
    exact mul_le_of_le_one_right (abs_nonneg _) hy.2
  obtain ⟨hge, hle⟩ := abs_le.mp hprod
  have hlt := abs_value_lt x
  obtain ⟨hf, h₁, h₂⟩ := (rounds_mul hx hy.1).between hrep.neg hrep (neg_lt_neg hlt) hlt hge hle
  exact ⟨hf, abs_le.mpr ⟨h₁, h₂⟩⟩

theorem InRange.mul {x y : Float} (hx : InRange x) (hy : InRange y) : InRange (x * y) :=
  ⟨(mul_le_of_inRange hx.1 hy).1, (mul_le_of_inRange hx.1 hy).2.trans hx.2⟩

/-- The quotient of two counts of which the first is not larger. -/
theorem ratio_spec {m n : ℕ} (hn : 0 < n) (hmn : m ≤ n) (h64 : n < 2 ^ 64) :
    (ofCount m / ofCount n : Float).isFinite = true ∧
      0 ≤ value (ofCount m / ofCount n) ∧ value (ofCount m / ofCount n) ≤ 1 := by
  obtain ⟨hfm, hvm⟩ := wideCount_spec (n := m) (by omega)
  obtain ⟨hm0, -, hm1⟩ := wideCount_bounds (n := m) (by omega)
  obtain ⟨hn0, -, hn1⟩ := wideCount_bounds h64
  have hle : value (ofCount m : Float) ≤ value (ofCount n) := by
    rw [hvm, (wideCount_spec h64).2]
    exact nearest_mono (by exact_mod_cast hmn)
  have hdiv := rounds_div_count hfm (fun hne => ?_) hn h64
  · have h := hdiv.between_int 0 1 (by norm_num) (by norm_num)
      (by push_cast; exact div_nonneg hm0 hn0)
      (by push_cast; exact div_le_one_of_le₀ hle hn0)
    exact_mod_cast h
  · rcases Nat.eq_zero_or_pos m with rfl | hpos
    · rw [hvm, Nat.cast_zero, nearest_zero] at hne
      exact absurd rfl hne
    · exact (hm1 hpos).trans (le_abs_self _)

theorem ratio_inRange {m n : ℕ} (hn : 0 < n) (hmn : m ≤ n) (h64 : n < 2 ^ 64) :
    InRange (ofCount m / ofCount n) := by
  obtain ⟨hf, h0, h1⟩ := ratio_spec hn hmn h64
  exact ⟨hf, abs_le.mpr ⟨by linarith, h1⟩⟩

/-- The difference of two shares of 1. -/
theorem sub_inRange {x y : Float} (hx : x.isFinite = true) (hy : y.isFinite = true)
    (hx0 : 0 ≤ value x) (hx1 : value x ≤ 1) (hy0 : 0 ≤ value y) (hy1 : value y ≤ 1) :
    InRange (x - y) := by
  obtain ⟨hf, h₁, h₂⟩ := (rounds_sub hx hy).between_int (-1) 1 (by norm_num) (by norm_num)
    (by push_cast; linarith) (by push_cast; linarith)
  push_cast at h₁ h₂
  exact ⟨hf, abs_le.mpr ⟨h₁, h₂⟩⟩

theorem zero_inRange : InRange (ofCount 0) := by
  obtain ⟨hf, hv⟩ := count_spec (n := 0) (by norm_num)
  exact ⟨hf, by rw [hv]; norm_num⟩

theorem one_inRange : InRange (ofCount 1) := by
  obtain ⟨hf, hv⟩ := count_spec (n := 1) (by norm_num)
  exact ⟨hf, by rw [hv]; norm_num⟩

theorem InRange.neg {x : Float} (hx : InRange x) : InRange (-x) :=
  ⟨isFinite_neg hx.1, by rw [value_neg, abs_neg]; exact hx.2⟩

/-! ## Shapes -/

theorem defaultAmplitude_inRange (tone : Tone) : InRange tone.defaultAmplitude := by
  cases tone with
  | square => exact ratio_inRange (m := 1) (n := 4) (by norm_num) (by norm_num) (by norm_num)
  | _ => exact ratio_inRange (m := 1) (n := 2) (by norm_num) (by norm_num) (by norm_num)

namespace Oscillator

theorem squareAt_inRange {o : Oscillator Float} (ho : InRange o.amplitude) (index : ℕ) :
    InRange (o.squareAt index) := by
  unfold squareAt
  refine InRange.mul ?_ ho
  split_ifs
  · exact one_inRange
  · exact one_inRange.neg

/-- Of the constants of a saw one is twice the other, also when they are rounded. -/
theorem tenths_spec : (0.3 : Float) = ofCount 3 / ofCount 10 ∧
    value (ofCount 6 / ofCount 10 : Float) = 2 * value (ofCount 3 / ofCount 10) := by
  decide +kernel

/-- A saw is at most three tenths high, in the arithmetic that sound is computed in. -/
theorem sawLevel_spec {cycle : ℕ} (hc : cycle < 2 ^ 64) (moved : ℕ) :
    let interval := max (cycle / 2) 1
    let level : Float := ofCount 6 / ofCount 10 * (ofCount (moved % interval) / ofCount interval)
      - ofCount 3 / ofCount 10
    InRange level ∧ |value level| ≤ value (ofCount 3 / ofCount 10) := by
  intro interval level
  have hpos : 0 < interval := by omega
  obtain ⟨hf6, h60, -⟩ := ratio_spec (m := 6) (n := 10) (by norm_num) (by norm_num) (by norm_num)
  obtain ⟨hf3, h30, h31⟩ := ratio_spec (m := 3) (n := 10) (by norm_num) (by norm_num) (by norm_num)
  obtain ⟨-, hdouble⟩ := tenths_spec
  have hmod := Nat.mod_lt moved hpos
  obtain ⟨hfp, hp0, hp1⟩ := ratio_spec hpos hmod.le (by omega)
  have hrep : ∀ x : Float, -2 ^ (1024 : ℤ) < value x ∧ value x < 2 ^ (1024 : ℤ) :=
    fun x => abs_lt.mp (abs_value_lt x)
  obtain ⟨hfm, hm0, hm1⟩ := (rounds_mul hf6 hfp).between
    (representable_intCast (n := 0) (by norm_num)) (representable_value (ofCount 6 / ofCount 10))
    (by norm_num) (hrep _).2 (by push_cast; exact mul_nonneg h60 hp0)
    (mul_le_of_le_one_right h60 hp1)
  push_cast at hm0
  have hthree := representable_value (ofCount 3 / ofCount 10)
  obtain ⟨hf, h₁, h₂⟩ := (rounds_sub hfm hf3).between hthree.neg hthree
    (neg_lt_neg (hrep _).2) (hrep _).2 (by linarith) (by linarith)
  have hle := abs_le.mpr ⟨h₁, h₂⟩
  exact ⟨⟨hf, hle.trans h31⟩, hle⟩

theorem sawAt_inRange {o : Oscillator Float} (ho : InRange o.amplitude) (hc : o.cycle < 2 ^ 64)
    (index : ℕ) : InRange (o.sawAt index) := by
  obtain ⟨hlevel, -⟩ := sawLevel_spec hc ((index + max (o.cycle / 2) 1 / 2) % UInt64.size)
  exact hlevel.mul ho

section

variable {quarter : ℕ}

/-- One over a quarter, rounded. -/
theorem slope_eq (hpos : 0 < quarter) (h64 : quarter < 2 ^ 64) :
    value (ofCount 1 / ofCount quarter) = nearest (1 / value (ofCount quarter : Float)) := by
  obtain ⟨hf1, hv1⟩ := count_spec (n := 1) (by norm_num)
  obtain ⟨hq0, -, hq1⟩ := wideCount_bounds h64
  rw [Nat.cast_one] at hv1
  have hdiv := rounds_div_count hf1 (fun _ => by rw [hv1, abs_one]) hpos h64
  rw [hv1] at hdiv
  refine (hdiv.of_abs_le ?_).2
  rw [abs_of_nonneg (by positivity)]
  exact (div_le_self zero_le_one (hq1 hpos)).trans (by norm_num)

/-- A quarter of the cycle climbs to 1, except for one rounding. -/
theorem abs_quarter_mul_slope_sub_one (hpos : 0 < quarter) (h64 : quarter < 2 ^ 64) :
    |value (ofCount quarter : Float) * value (ofCount 1 / ofCount quarter) - 1| ≤ 1 / 2 ^ 53 := by
  obtain ⟨hq0, hq64, hq1⟩ := wideCount_bounds h64
  have hq : 0 < value (ofCount quarter : Float) := zero_lt_one.trans_le (hq1 hpos)
  set q := value (ofCount quarter : Float)
  have hrecip : 0 < 1 / q := by positivity
  have hnormal : (2 : ℚ) ^ (-1022 : ℤ) ≤ |1 / q| := by
    have hmin : (2 : ℚ) ^ (-1022 : ℤ) ≤ 1 / 2 ^ (64 : ℤ) := by
      rw [one_div, ← zpow_neg]
      exact zpow_le_zpow_right₀ (by norm_num) (by norm_num)
    rw [abs_of_pos hrecip]
    exact hmin.trans (one_div_le_one_div_of_le hq hq64)
  have hround := abs_nearest_sub_le_mul hnormal
  rw [abs_of_pos hrecip] at hround
  calc |q * value (ofCount 1 / ofCount quarter) - 1| = q * |nearest (1 / q) - 1 / q| := by
        rw [slope_eq hpos h64, ← abs_of_pos hq, ← abs_mul, abs_of_pos hq, mul_sub,
          mul_one_div_cancel hq.ne']
    _ ≤ q * (1 / 2 ^ 53 * (1 / q)) := mul_le_mul_of_nonneg_left hround hq.le
    _ = 1 / 2 ^ 53 := by field_simp

/-- Half a unit of the last place above a power of two is a tie, and the power is even. -/
theorem nearest_tie : nearest (1 * (1 + 1 / 2 ^ 53)) = 1 ∧ nearest (2 * (1 + 1 / 2 ^ 53)) = 2 := by
  decide +kernel

/-- A triangle that climbs for a quarter, or for two, rounds to no more than the height it is to
reach. -/
theorem climb_le (hpos : 0 < quarter) (h64 : quarter < 2 ^ 64) {k : Float}
    (hk : k.isFinite = true) (hk0 : 0 ≤ value k) {height : ℚ} (hheight : 0 ≤ height)
    (hle : value k ≤ height * value (ofCount quarter : Float)) (hsmall : height ≤ 2 ^ 63)
    (htie : nearest (height * (1 + 1 / 2 ^ 53)) = height) :
    (k * (ofCount 1 / ofCount quarter)).isFinite = true ∧
      |value (k * (ofCount 1 / ofCount quarter))| ≤ height := by
  obtain ⟨hfs, hs0, -⟩ := ratio_spec (m := 1) hpos hpos h64
  have hquarter := abs_le.mp (abs_quarter_mul_slope_sub_one hpos h64)
  have hnonneg := mul_nonneg hk0 hs0
  have hprod : value k * value (ofCount 1 / ofCount quarter : Float)
      ≤ height * (1 + 1 / 2 ^ 53) := by
    refine (mul_le_mul_of_nonneg_right hle hs0).trans ?_
    rw [mul_assoc]
    exact mul_le_mul_of_nonneg_left (by linarith) hheight
  obtain ⟨hf, hv⟩ := (rounds_mul hk hfs).of_abs_le (by
    rw [abs_of_nonneg hnonneg]
    norm_num at hprod hsmall ⊢
    linarith)
  refine ⟨hf, ?_⟩
  rw [hv, abs_le]
  constructor
  · have hzero := le_nearest (representable_intCast (n := 0) (by norm_num))
      (by exact_mod_cast hnonneg)
    rw [Int.cast_zero] at hzero
    linarith
  · exact (nearest_mono hprod).trans htie.le

end

/-- The difference of two counts up to `2 ^ 53` is exact. -/
theorem count_sub {m n : ℕ} (hn : n ≤ m) (hm : m ≤ 2 ^ 53) :
    (ofCount m - ofCount n : Float).isFinite = true ∧
      value (ofCount m - ofCount n) = (m - n : ℕ) := by
  obtain ⟨hfm, hvm⟩ := count_spec hm
  obtain ⟨hfn, hvn⟩ := count_spec (hn.trans hm)
  obtain ⟨-, hvd⟩ := count_spec (n := m - n) (by omega)
  have hsub := rounds_sub hfm hfn
  rw [hvm, hvn, ← Nat.cast_sub hn, ← hvd] at hsub
  rw [← hvd]
  exact hsub.exact (representable_value _) (abs_value_lt _)

/-- How many frames away from its nearer zero a triangle is, in any kind of number. In whole numbers
it is at most one frame more than a quarter. -/
def fromZero {N : Type} [Sub N] (count : ℕ → N) (cycle index : ℕ) : N :=
  let half := cycle / 2
  let quarter := max (cycle / 4) 1
  if index ≤ half then
    if index ≤ quarter then count index else count half - count index
  else if index ≤ half + quarter then count (index - half)
  else count cycle - count index

theorem fromZero_le {cycle index : ℕ} (hi : index < cycle) :
    fromZero id cycle index ≤ max (cycle / 4) 1 + 1 := by
  unfold fromZero
  simp only [id]
  split_ifs <;> omega

/-- Where counts are exact, so is the distance. -/
theorem fromZero_spec {cycle index : ℕ} (hi : index < cycle) (hc : cycle ≤ 2 ^ 53) :
    (fromZero ofCount cycle index : Float).isFinite = true ∧
      value (fromZero ofCount cycle index) = fromZero id cycle index := by
  unfold fromZero
  simp only [id]
  split_ifs with h₁ h₂ h₃
  · exact count_spec (by omega)
  · exact count_sub h₁ (by omega)
  · exact count_spec (by omega)
  · exact count_sub hi.le hc

/-- The four stretches of a triangle differ in their distance from zero and in their sign. -/
theorem triangleAt_eq {R : Type} [Amplitude R] (o : Oscillator R) (index : ℕ) :
    let level := fromZero ofCount o.cycle index * (ofCount 1 / ofCount (max (o.cycle / 4) 1))
    o.triangleAt index = (if index ≤ o.cycle / 2 then level else -level) * o.amplitude := by
  unfold triangleAt fromZero
  simp only
  split_ifs <;> rfl

theorem triangleAt_inRange {o : Oscillator Float} (hf : o.amplitude.isFinite = true)
    (hhalf : |value o.amplitude| ≤ 1 / 2) (hc : o.cycle < 2 ^ 32) {index : ℕ}
    (hi : index < o.cycle) : InRange (o.triangleAt index) := by
  obtain ⟨hfk, hk⟩ := fromZero_spec hi (by omega)
  obtain ⟨-, hq⟩ := count_spec (n := max (o.cycle / 4) 1) (by omega)
  have htwice : value (fromZero ofCount o.cycle index : Float)
      ≤ 2 * value (ofCount (max (o.cycle / 4) 1) : Float) := by
    have hle := fromZero_le hi
    rw [hk, hq]
    exact_mod_cast (by omega : fromZero id o.cycle index ≤ 2 * max (o.cycle / 4) 1)
  obtain ⟨hfl, hl⟩ := climb_le (by omega) (by omega) hfk (by rw [hk]; exact Nat.cast_nonneg _)
    zero_le_two htwice (by norm_num) nearest_tie.2
  have htimes : ∀ level : Float, level.isFinite = true → |value level| ≤ 2 →
      InRange (level * o.amplitude) := by
    intro level hfl hl
    have hprod : |value level * value o.amplitude| ≤ 2 * (1 / 2) := by
      rw [abs_mul]
      exact mul_le_mul hl hhalf (abs_nonneg _) (by norm_num)
    rw [abs_le] at hprod
    obtain ⟨hf', h₁, h₂⟩ := (rounds_mul hfl hf).between_int (-1) 1 (by norm_num) (by norm_num)
      (by push_cast; linarith) (by push_cast; linarith)
    push_cast at h₁ h₂
    exact ⟨hf', abs_le.mpr ⟨h₁, h₂⟩⟩
  rw [triangleAt_eq]
  split_ifs
  · exact htimes _ hfl hl
  · exact htimes _ (isFinite_neg hfl) (by rwa [value_neg, abs_neg])

theorem halfTurn_spec : (halfTurn : Float).isFinite = true ∧
    3 ≤ value (halfTurn : Float) ∧ value (halfTurn : Float) ≤ 4 := by
  obtain ⟨hf3, hv3⟩ := count_spec (n := 3) (by norm_num)
  obtain ⟨hf4, hv4⟩ := count_spec (n := 4) (by norm_num)
  push_cast at hv3 hv4
  have hf : (halfTurn : Float).isFinite = true := by decide
  have h₁ : (ofCount 3 : Float) ≤ halfTurn := by decide
  have h₂ : (halfTurn : Float) ≤ ofCount 4 := by decide
  rw [le_iff hf3 hf, hv3] at h₁
  rw [le_iff hf hf4, hv4] at h₂
  exact ⟨hf, h₁, h₂⟩

/-- A count of whole turns is an angle that is zero or at least 1. -/
theorem turns_spec {index : ℕ} (hi : index < 2 ^ 64) :
    (ofCount index * ofCount 2 * halfTurn : Float).isFinite = true ∧
      0 ≤ value (ofCount index * ofCount 2 * halfTurn) ∧
      value (ofCount index * ofCount 2 * halfTurn) ≤ 2 ^ (67 : ℤ) ∧
      (value (ofCount index * ofCount 2 * halfTurn) ≠ 0 →
        1 ≤ |value (ofCount index * ofCount 2 * halfTurn)|) := by
  obtain ⟨hfi, hvi⟩ := wideCount_spec hi
  obtain ⟨-, hi64, hione⟩ := wideCount_bounds hi
  obtain ⟨hf2, hv2⟩ := count_spec (n := 2) (by norm_num)
  obtain ⟨hfh, hh3, hh4⟩ := halfTurn_spec
  push_cast at hv2
  -- an index of 0 gives an exact zero, any other one at least 2 half turns
  rcases Nat.eq_zero_or_pos index with rfl | hpos
  · rw [Nat.cast_zero, nearest_zero] at hvi
    obtain ⟨hfd, hvd⟩ := isZero_iff.mp (isZero_mul hfi hf2 (Or.inl hvi))
    obtain ⟨hft, hvt⟩ := isZero_iff.mp (isZero_mul hfd hfh (Or.inl hvd))
    rw [hvt]
    exact ⟨hft, le_rfl, by positivity, fun h => absurd rfl h⟩
  · have hi1 := hione hpos
    obtain ⟨hfd, hd1, hd⟩ := (rounds_mul hfi hf2).between_zpow 1 65 (by norm_num) (by norm_num)
      (by norm_num) (by rw [hv2]; push_cast; linarith) (by rw [hv2]; norm_num at hi64 ⊢; linarith)
    push_cast at hd1
    have hlower : 1 * 3 ≤ value (ofCount index * ofCount 2 : Float) * value (halfTurn : Float) :=
      mul_le_mul hd1 hh3 (by norm_num) (by linarith)
    have hupper : value (ofCount index * ofCount 2 : Float) * value (halfTurn : Float)
        ≤ 2 ^ (65 : ℤ) * 4 :=
      mul_le_mul hd hh4 (by linarith) (by positivity)
    obtain ⟨hft, ht1, ht⟩ := (rounds_mul hfd hfh).between_zpow 1 67 (by norm_num) (by norm_num)
      (by norm_num) (by push_cast; linarith) (by norm_num at hupper ⊢; linarith)
    push_cast at ht1
    exact ⟨hft, by linarith, ht, fun _ => ht1.trans (le_abs_self _)⟩

/-- The angle at a position in a cycle is finite. -/
theorem angle_isFinite {index cycle : ℕ} (hi : index < cycle) (hc : cycle < 2 ^ 64) :
    (ofCount index * ofCount 2 * halfTurn / ofCount cycle : Float).isFinite = true := by
  obtain ⟨hft, ht0, ht, hone⟩ := turns_spec (hi.trans hc)
  have hpos : 0 < cycle := by omega
  have hc1 := (wideCount_bounds hc).2.2 hpos
  exact ((rounds_div_count hft hone hpos hc).between_zpow 0 67 (by norm_num) (by norm_num)
    (by norm_num) (by push_cast; exact div_nonneg ht0 (by linarith))
    ((div_le_self ht0 hc1).trans ht)).1

/-- A random word is read as a number in range. -/
theorem unitFraction_sub_inRange (word : UInt64) :
    InRange (unitFraction word - ofCount 1 / ofCount 2) := by
  have hword : (word >>> 11).toNat ≤ 2 ^ 53 := by
    have hlt := word.toNat_lt
    have h11 : UInt64.toNat 11 % 64 = 11 := rfl
    rw [UInt64.toNat_shiftRight, h11, Nat.shiftRight_eq_div_pow]
    omega
  obtain ⟨hfu, hu0, hu1⟩ := ratio_spec (n := 2 ^ 53) (by norm_num) hword (by norm_num)
  obtain ⟨hfh, hh0, hh1⟩ := ratio_spec (m := 1) (n := 2) (by norm_num) (by norm_num) (by norm_num)
  exact sub_inRange hfu hfh hu0 hu1 hh0 hh1

/-! ## Tones -/

variable {sine : Float → Float} {σ : Type} [RandomSource σ]

theorem half_le : |value (ofCount 1 / ofCount 2 : Float)| ≤ 1 / 2 := by
  rw [← half_eq, half_spec.2]
  norm_num

/-- No tone is louder than 1, or than the sine if that is louder. -/
theorem valueAt_le {b : ℚ} (hb : 1 ≤ b)
    (hsine : ∀ x, x.isFinite = true → (sine x).isFinite = true ∧ |value (sine x)| ≤ b) (tone : Tone)
    {cycle index : ℕ} (hc : cycle < 2 ^ 32) (hi : index < max cycle 1) (source : σ) :
    (@valueAt Float (.binary64 sine) σ _ (@ofTone Float (.binary64 sine) tone cycle) index
        source).1.isFinite = true ∧
      |value (@valueAt Float (.binary64 sine) σ _ (@ofTone Float (.binary64 sine) tone cycle) index
        source).1| ≤ b := by
  have hamplitude := defaultAmplitude_inRange tone
  have hcycle : max cycle 1 < 2 ^ 32 := by omega
  obtain ⟨hf, hle⟩ := hsine _ (angle_isFinite hi (by omega))
  have hwave := mul_le_of_inRange hf hamplitude
  -- only where the sine takes part can a tone be louder than 1
  have hshape : ∀ {v : Float}, InRange v → v.isFinite = true ∧ |value v| ≤ b :=
    fun hv => ⟨hv.1, hv.2.trans hb⟩
  cases tone with
  | square => exact hshape (squareAt_inRange (o := ofTone .square cycle) hamplitude index)
  | sine => exact ⟨hwave.1, hwave.2.trans hle⟩
  | triangle =>
    exact hshape (triangleAt_inRange (o := ofTone .triangle cycle) hamplitude.1 half_le hcycle hi)
  | noise =>
    have hscaled := mul_le_of_inRange hwave.1
      (unitFraction_sub_inRange (RandomSource.draw source).1)
    have hnoise := mul_le_of_inRange hscaled.1 hamplitude
    exact ⟨hnoise.1, hnoise.2.trans (hscaled.2.trans (hwave.2.trans hle))⟩
  | saw =>
    have h64 : max cycle 1 < 2 ^ 64 := by omega
    exact hshape (sawAt_inRange (o := ofTone .saw cycle) hamplitude h64 index)

end Oscillator

/-! ## Frames -/

theorem Level.value_inRange (level : Level) : InRange level.value :=
  ratio_inRange (by norm_num) (by cases level <;> decide) (by norm_num)

theorem Pan.rightGain_inRange (pan : Pan) : InRange pan.rightGain :=
  ratio_inRange (by norm_num) (by cases pan <;> decide) (by norm_num)

theorem Pan.leftGain_inRange (pan : Pan) : InRange pan.leftGain := by
  obtain ⟨hf1, hv1⟩ := count_spec (n := 1) (by norm_num)
  obtain ⟨hf, h0, h1⟩ := ratio_spec (m := pan.index) (n := 4) (by norm_num)
    (by cases pan <;> decide) (by norm_num)
  push_cast at hv1
  exact sub_inRange hf1 hf (zero_le_one.trans hv1.ge) hv1.le h0 h1

theorem Reverb.decay_inRange (reverb : Reverb) : InRange reverb.decay :=
  ratio_inRange (by norm_num) (by cases reverb <;> decide) (by norm_num)

/-- Neither volume nor position makes an amplitude larger. -/
theorem Instrument.place_le (instrument : Instrument) {v : Float} (hv : v.isFinite = true) :
    (instrument.place v).IsFinite ∧ |value (instrument.place v).left| ≤ |value v| ∧
      |value (instrument.place v).right| ≤ |value v| := by
  obtain ⟨hf, hle⟩ := mul_le_of_inRange hv instrument.volume.value_inRange
  obtain ⟨hfl, hl⟩ := mul_le_of_inRange hf instrument.pan.leftGain_inRange
  obtain ⟨hfr, hr⟩ := mul_le_of_inRange hf instrument.pan.rightGain_inRange
  exact ⟨⟨hfl, hfr⟩, hl.trans hle, hr.trans hle⟩

section

variable {sine : Float → Float} {σ : Type} [RandomSource σ]

/-- The frames of an instrument are finite when the sine is. -/
theorem Instrument.frameAt_isFinite (hsine : ∀ x, x.isFinite = true → (sine x).isFinite = true)
    (instrument : Instrument) {cycle index : ℕ} (hc : cycle < 2 ^ 32) (hi : index < max cycle 1)
    (source : σ) :
    (@frameAt Float (.binary64 sine) σ _ instrument
      (@Oscillator.ofTone Float (.binary64 sine) instrument.tone cycle) index
        source).1.IsFinite := by
  have hbound : (1 : ℚ) ≤ 2 ^ (1024 : ℤ) := one_le_zpow₀ (by norm_num) (by norm_num)
  obtain ⟨hf, -⟩ := Oscillator.valueAt_le hbound
    (fun x hx => ⟨hsine x hx, (abs_value_lt _).le⟩) instrument.tone hc hi source
  exact (instrument.place_le hf).1

/-- The frames of an instrument are in range when the sine is. -/
theorem Instrument.frameAt_inRange (hsine : ∀ x, x.isFinite = true → InRange (sine x))
    (instrument : Instrument) {cycle index : ℕ} (hc : cycle < 2 ^ 32) (hi : index < max cycle 1)
    (source : σ) :
    (@frameAt Float (.binary64 sine) σ _ instrument
      (@Oscillator.ofTone Float (.binary64 sine) instrument.tone cycle) index
        source).1.InRange := by
  obtain ⟨hf, hle⟩ := Oscillator.valueAt_le le_rfl hsine instrument.tone hc hi source
  obtain ⟨⟨hfl, hfr⟩, hl, hr⟩ := instrument.place_le hf
  exact ⟨⟨hfl, hl.trans hle⟩, ⟨hfr, hr.trans hle⟩⟩

end

end Chiptune
