import Chiptune.Proofs.Binary64.Nearest

/-!
# Rounding is optimal

A rounded number is at least as near as everything else that could have been the result, and from
that alone rounding keeps the order of numbers.

* `abs_roundEven_sub_le_abs` and `roundEven_even_of_tie`, whole numbers;
* `abs_roundEven_mul_sub_le` and `roundEven_div_even_of_tie`, the multiples of a unit;
* `abs_nearest_sub_le` and `nearest_mono`, numbers of 53 bits;
* `abs_nearest_sub_le_mul`, the distance in parts of the number, and `Drifts`, the distance that
  several roundings add up to.
-/

namespace Chiptune.Binary64

/-! ## Whole numbers -/

/-- No whole number is nearer. -/
theorem abs_roundEven_sub_le_abs (q : ℚ) (n : ℤ) : |(roundEven q : ℚ) - q| ≤ |(n : ℚ) - q| := by
  by_cases hn : n = roundEven q
  · rw [hn]
  · have hhalf := abs_roundEven_sub_le q
    have hone : (1 : ℚ) ≤ |((n - roundEven q : ℤ) : ℚ)| := by
      exact_mod_cast Int.one_le_abs (sub_ne_zero.mpr hn)
    have htriangle := abs_sub_le (n : ℚ) q (roundEven q)
    rw [abs_sub_comm q] at htriangle
    push_cast at hone
    linarith

/-- Of two equally near whole numbers the even one is taken. -/
theorem roundEven_even_of_tie {q : ℚ} {n : ℤ} (h : |(n : ℚ) - q| = |(roundEven q : ℚ) - q|)
    (hne : n ≠ roundEven q) : roundEven q % 2 = 0 := by
  have hhalf := abs_roundEven_sub_le q
  have hone : (1 : ℚ) ≤ |((n - roundEven q : ℤ) : ℚ)| := by
    exact_mod_cast Int.one_le_abs (sub_ne_zero.mpr hne)
  have htriangle := abs_sub_le (n : ℚ) q (roundEven q)
  rw [abs_sub_comm q] at htriangle
  push_cast at hone
  -- the two are one apart and both a half away
  have hdist : |(roundEven q : ℚ) - q| = 1 / 2 := by linarith
  have hq := Int.floor_add_fract q
  have hpos := Int.fract_nonneg q
  have hlt := Int.fract_lt_one q
  unfold roundEven at hdist ⊢
  split_ifs at hdist ⊢ with h₁ h₂
  · rw [abs_of_nonpos (by linarith)] at hdist
    linarith
  · push_cast at hdist
    rw [abs_of_nonneg (by linarith)] at hdist
    linarith
  · omega

/-! ## Grids -/

/-- Distances on a grid are distances of whole numbers. -/
theorem abs_mul_sub {u : ℚ} (hu : 0 < u) (q : ℚ) (n : ℤ) : |n * u - q| = |n - q / u| * u := by
  calc |n * u - q| = |(n - q / u) * u| := by rw [sub_mul, div_mul_cancel₀ _ hu.ne']
    _ = |n - q / u| * u := by rw [abs_mul, abs_of_pos hu]

/-- Nothing on the grid of `u` is nearer. -/
theorem abs_roundEven_mul_sub_le {u : ℚ} (hu : 0 < u) (q : ℚ) (n : ℤ) :
    |roundEven (q / u) * u - q| ≤ |n * u - q| := by
  rw [abs_mul_sub hu, abs_mul_sub hu]
  exact mul_le_mul_of_nonneg_right (abs_roundEven_sub_le_abs _ n) hu.le

/-- Whatever lies below a grid point that `q` reaches is farther away. -/
theorem abs_roundEven_mul_sub_lt {u : ℚ} (hu : 0 < u) {q v : ℚ} {n : ℤ} (hv : v < n * u)
    (hn : n * u ≤ q) : |roundEven (q / u) * u - q| < |v - q| := by
  refine (abs_roundEven_mul_sub_le hu q n).trans_lt ?_
  rw [abs_of_nonpos (by linarith), abs_of_nonpos (by linarith)]
  linarith

/-- Of two equally near grid points the even one is taken. -/
theorem roundEven_div_even_of_tie {u : ℚ} (hu : 0 < u) {q : ℚ} {n : ℤ}
    (h : |n * u - q| = |roundEven (q / u) * u - q|) (hne : (n : ℚ) * u ≠ roundEven (q / u) * u) :
    roundEven (q / u) % 2 = 0 := by
  rw [abs_mul_sub hu, abs_mul_sub hu] at h
  exact roundEven_even_of_tie (mul_right_cancel₀ hu.ne' h) fun heq => hne (by rw [heq])

/-! ## 53 bits -/

theorem abs_nearest_sub_le_of_pos {q r : ℚ} (hq : 0 < q) (hr : Representable r) :
    |nearest q - q| ≤ |r - q| := by
  rcases hr.on_grid_or_lt hq with ⟨n, rfl⟩ | ⟨hlt, n, hn⟩
  · exact abs_roundEven_mul_sub_le (two_zpow_pos _) q n
  · have hlog : (2 : ℚ) ^ Int.log 2 q ≤ q := by
      exact_mod_cast Int.zpow_log_le_self (by norm_num) hq
    rw [hn] at hlt hlog
    exact (abs_roundEven_mul_sub_lt (two_zpow_pos _) ((le_abs_self r).trans_lt hlt) hlog).le

/-- No representable number is nearer. -/
theorem abs_nearest_sub_le {r : ℚ} (hr : Representable r) (q : ℚ) :
    |nearest q - q| ≤ |r - q| := by
  rcases lt_trichotomy q 0 with hq | rfl | hq
  · have h := abs_nearest_sub_le_of_pos (neg_pos.mpr hq) hr.neg
    rwa [nearest_neg, ← neg_sub', ← neg_sub', abs_neg, abs_neg] at h
  · rw [nearest_zero, sub_zero, abs_zero]
    exact abs_nonneg _
  · exact abs_nearest_sub_le_of_pos hq hr

theorem representable_nearest_of_pos {q : ℚ} (hq : 0 < q) : Representable (nearest q) := by
  have hmin : -1074 ≤ lastPlace q := le_max_right _ _
  have hnonneg : 0 ≤ roundEven (q / 2 ^ lastPlace q) :=
    le_roundEven (by exact_mod_cast (div_pos hq (two_zpow_pos _)).le)
  rcases (roundEven_div_lastPlace_le hq).lt_or_eq with hlt | heq
  · exact ⟨_, _, by rwa [abs_of_nonneg hnonneg], hmin, rfl⟩
  -- rounding up has carried into a 54th bit
  · refine ⟨1, 53 + lastPlace q, by norm_num, by omega, ?_⟩
    rw [nearest, heq, zpow_add₀ (by norm_num)]
    norm_num

/-- Rounding gives a representable number. -/
theorem representable_nearest (q : ℚ) : Representable (nearest q) := by
  rcases lt_trichotomy q 0 with hq | rfl | hq
  · have h := (representable_nearest_of_pos (neg_pos.mpr hq)).neg
    rwa [nearest_neg, neg_neg] at h
  · rw [nearest_zero]
    exact_mod_cast representable_intCast (n := 0) (by norm_num)
  · exact representable_nearest_of_pos hq

/-- Rounding keeps the order. -/
theorem nearest_mono {a b : ℚ} (h : a ≤ b) : nearest a ≤ nearest b := by
  by_contra hlt
  rw [not_le] at hlt
  -- neither result lies between the two numbers, or the other one would not have crossed it
  have ha : nearest b < a := by
    by_contra hle
    exact hlt.not_ge (nearest_le (representable_nearest b) (not_lt.mp hle))
  have hb : b < nearest a := by
    by_contra hle
    exact hlt.not_ge (le_nearest (representable_nearest a) (not_lt.mp hle))
  have hnear₁ := abs_nearest_sub_le (representable_nearest b) a
  have hnear₂ := abs_nearest_sub_le (representable_nearest a) b
  rw [abs_of_pos (by linarith), abs_of_neg (by linarith)] at hnear₁
  rw [abs_of_neg (by linarith), abs_of_pos (by linarith)] at hnear₂
  have heq : a = b := by linarith
  rw [heq] at hlt
  exact lt_irrefl _ hlt

/-! ## How far rounding goes -/

/-- Rounding moves a number by at most half a unit of its last place. -/
theorem abs_nearest_sub_le_half (q : ℚ) : |nearest q - q| ≤ 1 / 2 * 2 ^ lastPlace q := by
  rw [nearest, abs_mul_sub (two_zpow_pos _)]
  exact mul_le_mul_of_nonneg_right (abs_roundEven_sub_le _) (two_zpow_pos _).le

/-- That is at most `2 ^ (-53)` of the number, unless the number is below `2 ^ (-1022)`. -/
theorem abs_nearest_sub_le_mul {q : ℚ} (hq : 2 ^ (-1022 : ℤ) ≤ |q|) :
    |nearest q - q| ≤ 1 / 2 ^ 53 * |q| := by
  have hpos : 0 < |q| := (two_zpow_pos _).trans_le hq
  have hlog : -1022 ≤ Int.log 2 |q| :=
    (Int.zpow_le_iff_le_log (by norm_num) hpos).mp (by exact_mod_cast hq)
  have hlast : lastPlace q = Int.log 2 |q| - 52 := by
    rw [lastPlace]
    omega
  have hle : (2 : ℚ) ^ Int.log 2 |q| ≤ |q| := by
    exact_mod_cast Int.zpow_log_le_self (by norm_num) hpos
  calc |nearest q - q| ≤ 1 / 2 * 2 ^ lastPlace q := abs_nearest_sub_le_half q
    _ = 1 / 2 ^ 53 * 2 ^ Int.log 2 |q| := by
        rw [hlast, zpow_sub₀ (by norm_num)]
        norm_num
        ring
    _ ≤ 1 / 2 ^ 53 * |q| := mul_le_mul_of_nonneg_left hle (by norm_num)

/-- `x` is what `k` roundings on the way may make of the positive number `q`. -/
def Drifts (k : ℕ) (x q : ℚ) : Prop := |x - q| ≤ ((1 + 1 / 2 ^ 53) ^ k - 1) * q

namespace Drifts

variable {k : ℕ} {x q : ℚ}

theorem refl (q : ℚ) : Drifts 0 q q := by
  unfold Drifts
  simp

/-- A factor stretches a number and its distance alike. -/
theorem mul (h : Drifts k x q) {c : ℚ} (hc : 0 ≤ c) : Drifts k (x * c) (q * c) := by
  unfold Drifts at *
  calc |x * c - q * c| = |x - q| * c := by rw [← sub_mul, abs_mul, abs_of_nonneg hc]
    _ ≤ ((1 + 1 / 2 ^ 53) ^ k - 1) * q * c := mul_le_mul_of_nonneg_right h hc
    _ = ((1 + 1 / 2 ^ 53) ^ k - 1) * (q * c) := by ring

/-- One rounding more. -/
theorem nearest (h : Drifts k x q) (hx : 2 ^ (-1022 : ℤ) ≤ x) :
    Drifts (k + 1) (nearest x) q := by
  have hpos : 0 < x := (two_zpow_pos _).trans_le hx
  have hround := abs_nearest_sub_le_mul (q := x) (by rwa [abs_of_pos hpos])
  rw [abs_of_pos hpos] at hround
  unfold Drifts at *
  have hsize : x ≤ (1 + 1 / 2 ^ 53) ^ k * q := by linarith [(abs_le.mp h).2]
  calc |Binary64.nearest x - q| ≤ |Binary64.nearest x - x| + |x - q| := abs_sub_le _ _ _
    _ ≤ 1 / 2 ^ 53 * ((1 + 1 / 2 ^ 53) ^ k * q) + ((1 + 1 / 2 ^ 53) ^ k - 1) * q := by linarith
    _ = ((1 + 1 / 2 ^ 53) ^ (k + 1) - 1) * q := by ring

end Drifts

end Chiptune.Binary64
