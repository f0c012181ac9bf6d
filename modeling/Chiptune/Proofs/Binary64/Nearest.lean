import Mathlib

/-!
# Rounding to binary64 precision

The result of a binary64 operation is the exact rational result rounded to the nearest number with
53 significant bits, of two equally near ones to the one with an even last bit. Below `2 ^ (-1022)`
the last place stays at `2 ^ (-1074)`. Overflow is not part of this file: `nearest` knows no largest
number.

* `roundEven`, the nearest whole number, and `nearest`, the nearest number of 53 bits;
* `Representable`, what 53 bits can hold, and the two bounds `nearest_le` and `le_nearest`: rounding
  never crosses a representable number;
* `abs_nearest_lt`, the room that is left below the overflow threshold.
-/

namespace Chiptune.Binary64

/-! ## Whole numbers -/

/-- The whole number nearest to `q`; of two equally near ones the even one. -/
def roundEven (q : ℚ) : ℤ :=
  if Int.fract q < 1 / 2 then ⌊q⌋
  else if 1 / 2 < Int.fract q then ⌊q⌋ + 1
  else ⌊q⌋ + ⌊q⌋ % 2

theorem floor_le_roundEven (q : ℚ) : ⌊q⌋ ≤ roundEven q := by
  unfold roundEven
  split_ifs <;> omega

theorem roundEven_le_floor_add_one (q : ℚ) : roundEven q ≤ ⌊q⌋ + 1 := by
  unfold roundEven
  split_ifs <;> omega

@[simp] theorem roundEven_intCast (n : ℤ) : roundEven n = n := by
  simp [roundEven]

/-- Rounding does not go below a whole number. -/
theorem le_roundEven {n : ℤ} {q : ℚ} (h : n ≤ q) : n ≤ roundEven q :=
  (Int.le_floor.mpr h).trans (floor_le_roundEven q)

/-- Rounding does not go above a whole number. -/
theorem roundEven_le {n : ℤ} {q : ℚ} (h : q ≤ n) : roundEven q ≤ n := by
  rcases h.lt_or_eq with hlt | rfl
  · have hfloor : ⌊q⌋ < n := Int.floor_lt.mpr hlt
    have := roundEven_le_floor_add_one q
    omega
  · exact (roundEven_intCast n).le

/-- Rounding treats both signs alike, ties included. -/
theorem roundEven_neg (q : ℚ) : roundEven (-q) = -roundEven q := by
  by_cases hq : Int.fract q = 0
  · obtain ⟨n, rfl⟩ := Int.fract_eq_zero_iff.mp hq
    rw [← Int.cast_neg, roundEven_intCast, roundEven_intCast]
  · have hfract : Int.fract (-q) = 1 - Int.fract q := Int.fract_neg hq
    have hfloor : ⌊-q⌋ = -⌊q⌋ - 1 := by
      have h₁ := Int.floor_add_fract (-q)
      have h₂ := Int.floor_add_fract q
      have : (⌊-q⌋ : ℚ) = -⌊q⌋ - 1 := by linarith
      exact_mod_cast this
    unfold roundEven
    rw [hfract, hfloor]
    split_ifs <;> first | omega | (exfalso; linarith)

theorem abs_roundEven_sub_le (q : ℚ) : |(roundEven q : ℚ) - q| ≤ 1 / 2 := by
  have hq := Int.floor_add_fract q
  have hpos := Int.fract_nonneg q
  have hlt := Int.fract_lt_one q
  rw [abs_le]
  unfold roundEven
  split_ifs with h₁ h₂
  · constructor <;> linarith
  · push_cast
    constructor <;> linarith
  -- in the middle it does not matter for the distance which neighbour is even
  · have hmod : ⌊q⌋ % 2 = 0 ∨ ⌊q⌋ % 2 = 1 := by omega
    rcases hmod with h | h <;> rw [h] <;> push_cast <;> constructor <;> linarith

/-! ## 53 bits -/

/-- The exponent of the last place that a number of the size of `q` has. -/
def lastPlace (q : ℚ) : ℤ := max (Int.log 2 |q| - 52) (-1074)

/-- The number of 53 bits that is nearest to `q`; of two equally near ones the even one. -/
def nearest (q : ℚ) : ℚ := roundEven (q / 2 ^ lastPlace q) * 2 ^ lastPlace q

/-- What 53 bits can hold, whatever its size. -/
def Representable (r : ℚ) : Prop :=
  ∃ m e : ℤ, |m| < 2 ^ 53 ∧ -1074 ≤ e ∧ r = m * 2 ^ e

theorem two_zpow_pos (e : ℤ) : (0 : ℚ) < 2 ^ e := zpow_pos (by norm_num) e

theorem lastPlace_neg (q : ℚ) : lastPlace (-q) = lastPlace q := by
  rw [lastPlace, lastPlace, abs_neg]

theorem nearest_neg (q : ℚ) : nearest (-q) = -nearest q := by
  rw [nearest, nearest, lastPlace_neg, neg_div, roundEven_neg]
  push_cast
  ring

@[simp] theorem nearest_zero : nearest 0 = 0 := by
  rw [nearest, zero_div, ← Int.cast_zero, roundEven_intCast, Int.cast_zero, zero_mul]

theorem Representable.neg {r : ℚ} (h : Representable r) : Representable (-r) := by
  obtain ⟨m, e, hm, he, rfl⟩ := h
  exact ⟨-m, e, by rwa [abs_neg], he, by push_cast; ring⟩

/-- Small whole numbers are representable. -/
theorem representable_intCast {n : ℤ} (h : |n| < 2 ^ 53) : Representable n :=
  ⟨n, 0, h, by norm_num, by simp⟩

theorem representable_two_zpow {e : ℤ} (h : -1074 ≤ e) : Representable (2 ^ e) :=
  ⟨1, e, by norm_num, h, by simp⟩

/-- A representable number is either on the grid of the last place of `q` or below the power of two
that `q` starts at. -/
theorem Representable.on_grid_or_lt {r : ℚ} (hr : Representable r) {q : ℚ} (hq : 0 < q) :
    (∃ n : ℤ, r = n * 2 ^ lastPlace q) ∨
      (|r| < 2 ^ Int.log 2 q ∧ ∃ n : ℤ, (2 : ℚ) ^ Int.log 2 q = n * 2 ^ lastPlace q) := by
  obtain ⟨m, e, hm, he, rfl⟩ := hr
  have hlast : lastPlace q = max (Int.log 2 q - 52) (-1074) := by rw [lastPlace, abs_of_pos hq]
  rcases le_or_gt (lastPlace q) e with hle | hlt
  · refine Or.inl ⟨m * 2 ^ (e - lastPlace q).toNat, ?_⟩
    push_cast
    rw [mul_assoc, ← zpow_natCast, ← zpow_add₀ (by norm_num)]
    congr 2
    omega
  -- an exponent below the last place of `q` leaves too few bits to reach the leading one of `q`
  · have hlog : lastPlace q = Int.log 2 q - 52 := by omega
    refine Or.inr ⟨?_, 2 ^ 52, ?_⟩
    · have hm' : |(m : ℚ)| < 2 ^ (53 : ℤ) := by exact_mod_cast hm
      rw [abs_mul, abs_of_pos (two_zpow_pos e)]
      calc |(m : ℚ)| * 2 ^ e
          < 2 ^ (53 : ℤ) * 2 ^ e := mul_lt_mul_of_pos_right hm' (two_zpow_pos e)
        _ = 2 ^ (53 + e) := (zpow_add₀ (by norm_num) _ _).symm
        _ ≤ 2 ^ Int.log 2 q := zpow_le_zpow_right₀ (by norm_num) (by omega)
    · have hsum : Int.log 2 q = 52 + lastPlace q := by omega
      rw [hsum, zpow_add₀ (by norm_num)]
      norm_num

/-- On its own grid a number is not rounded past a grid point. -/
theorem nearest_le_of_grid {q : ℚ} {n : ℤ} (h : q ≤ n * 2 ^ lastPlace q) :
    nearest q ≤ n * 2 ^ lastPlace q := by
  have hq : q / 2 ^ lastPlace q ≤ n := (div_le_iff₀ (two_zpow_pos _)).mpr h
  exact mul_le_mul_of_nonneg_right (by exact_mod_cast roundEven_le hq) (two_zpow_pos _).le

theorem le_nearest_of_grid {q : ℚ} {n : ℤ} (h : n * 2 ^ lastPlace q ≤ q) :
    n * 2 ^ lastPlace q ≤ nearest q := by
  have hq : (n : ℚ) ≤ q / 2 ^ lastPlace q := (le_div_iff₀ (two_zpow_pos _)).mpr h
  exact mul_le_mul_of_nonneg_right (by exact_mod_cast le_roundEven hq) (two_zpow_pos _).le

theorem nearest_le_of_pos {q r : ℚ} (hq : 0 < q) (hr : Representable r) (h : q ≤ r) :
    nearest q ≤ r := by
  rcases hr.on_grid_or_lt hq with ⟨n, rfl⟩ | ⟨hlt, -⟩
  · exact nearest_le_of_grid h
  · have hlog : (2 : ℚ) ^ Int.log 2 q ≤ q := by
      exact_mod_cast Int.zpow_log_le_self (by norm_num) hq
    exact absurd (hlt.trans_le hlog) (not_lt.mpr (h.trans (le_abs_self r)))

theorem le_nearest_of_pos {q r : ℚ} (hq : 0 < q) (hr : Representable r) (h : r ≤ q) :
    r ≤ nearest q := by
  rcases hr.on_grid_or_lt hq with ⟨n, rfl⟩ | ⟨hlt, n, hn⟩
  · exact le_nearest_of_grid h
  · have hlog : (2 : ℚ) ^ Int.log 2 q ≤ q := by
      exact_mod_cast Int.zpow_log_le_self (by norm_num) hq
    calc r ≤ |r| := le_abs_self r
      _ ≤ n * 2 ^ lastPlace q := by rw [← hn]; exact hlt.le
      _ ≤ nearest q := le_nearest_of_grid (by rw [← hn]; exact hlog)

/-- Rounding does not go above a representable number. -/
theorem nearest_le {q r : ℚ} (hr : Representable r) (h : q ≤ r) : nearest q ≤ r := by
  rcases lt_trichotomy q 0 with hq | rfl | hq
  · have hneg := le_nearest_of_pos (neg_pos.mpr hq) hr.neg (neg_le_neg h)
    rw [nearest_neg] at hneg
    linarith
  · rwa [nearest_zero]
  · exact nearest_le_of_pos hq hr h

/-- Rounding does not go below a representable number. -/
theorem le_nearest {q r : ℚ} (hr : Representable r) (h : r ≤ q) : r ≤ nearest q := by
  have hneg := nearest_le hr.neg (neg_le_neg h)
  rw [nearest_neg] at hneg
  linarith

/-- A representable number is rounded to itself. -/
theorem nearest_of_representable {r : ℚ} (hr : Representable r) : nearest r = r :=
  le_antisymm (nearest_le hr le_rfl) (le_nearest hr le_rfl)

theorem abs_nearest_le {q r : ℚ} (hr : Representable r) (h : |q| ≤ r) : |nearest q| ≤ r := by
  rw [abs_le] at h ⊢
  exact ⟨le_nearest hr.neg h.1, nearest_le hr h.2⟩

/-! ## The number of bits -/

/-- In units of its last place a number is rounded to at most 53 bits, or to `2 ^ 53` itself. -/
theorem roundEven_div_lastPlace_le {q : ℚ} (hq : 0 < q) :
    roundEven (q / 2 ^ lastPlace q) ≤ 2 ^ 53 := by
  have hlast : Int.log 2 q - 52 ≤ lastPlace q := by
    rw [lastPlace, abs_of_pos hq]
    exact le_max_left _ _
  refine roundEven_le ?_
  rw [div_le_iff₀ (two_zpow_pos _)]
  calc q ≤ 2 ^ (Int.log 2 q + 1) := by
        exact_mod_cast (Int.lt_zpow_succ_log_self (by norm_num) q).le
    _ ≤ 2 ^ (53 + lastPlace q) := zpow_le_zpow_right₀ (by norm_num) (by omega)
    _ = ((2 ^ 53 : ℤ) : ℚ) * 2 ^ lastPlace q := by rw [zpow_add₀ (by norm_num)]; norm_num

/-- Above the least exponent the leading bit is in use. -/
theorem le_roundEven_div_lastPlace {q : ℚ} (hq : 0 < q) :
    2 ^ 52 ≤ roundEven (q / 2 ^ lastPlace q) ∨ lastPlace q = -1074 := by
  rcases eq_or_ne (lastPlace q) (-1074) with h | h
  · exact Or.inr h
  · have hlast : Int.log 2 q = 52 + lastPlace q := by
      rw [lastPlace, abs_of_pos hq] at h ⊢
      omega
    refine Or.inl (le_roundEven ?_)
    rw [le_div_iff₀ (two_zpow_pos _)]
    calc ((2 ^ 52 : ℤ) : ℚ) * 2 ^ lastPlace q = 2 ^ (52 + lastPlace q) := by
          rw [zpow_add₀ (by norm_num)]; norm_num
      _ = 2 ^ Int.log 2 q := by rw [hlast]
      _ ≤ q := by exact_mod_cast Int.zpow_log_le_self (by norm_num) hq

/-! ## Below the overflow threshold -/

/-- The largest finite number, `2 ^ 1024 - 2 ^ 971`, can be exceeded by less than half its last
place before a sum overflows. -/
theorem abs_nearest_lt {q : ℚ} (h : |q| < 2 ^ (1024 : ℤ) - 2 ^ (970 : ℤ)) :
    |nearest q| < 2 ^ (1024 : ℤ) := by
  rcases le_or_gt |q| (2 ^ (1023 : ℤ)) with hle | hgt
  · exact (abs_nearest_le (representable_two_zpow (by norm_num)) hle).trans_lt
      (zpow_lt_zpow_right₀ (by norm_num) (by norm_num))
  · have hlog : Int.log 2 |q| = 1023 := by
      have hpos : 0 < |q| := (two_zpow_pos _).trans hgt
      have hlo : 1023 ≤ Int.log 2 |q| :=
        (Int.zpow_le_iff_le_log (by norm_num) hpos).mp (by exact_mod_cast hgt.le)
      have hhi : Int.log 2 |q| < 1024 :=
        (Int.lt_zpow_iff_log_lt (by norm_num) hpos).mp
          (by exact_mod_cast h.trans (sub_lt_self _ (two_zpow_pos _)))
      omega
    have hlast : lastPlace q = 971 := by rw [lastPlace, hlog]; norm_num
    have htop : (2 : ℚ) ^ (1024 : ℤ) = 2 ^ 53 * 2 ^ (971 : ℤ) := by
      rw [← zpow_natCast, ← zpow_add₀ (by norm_num)]
      norm_num
    have hhalf : (2 : ℚ) ^ (971 : ℤ) = 2 * 2 ^ (970 : ℤ) := by
      rw [← zpow_one_add₀ (by norm_num)]
      norm_num
    -- half a unit is what rounding can add, so that the mantissa does not reach 54 bits
    have hround := abs_roundEven_sub_le (q / 2 ^ (971 : ℤ))
    have hquot : |q / 2 ^ (971 : ℤ)| < 2 ^ 53 - 1 / 2 := by
      rw [abs_div, abs_of_pos (two_zpow_pos 971), div_lt_iff₀ (two_zpow_pos 971)]
      calc |q| < 2 ^ (1024 : ℤ) - 2 ^ (970 : ℤ) := h
        _ = (2 ^ 53 - 1 / 2) * 2 ^ (971 : ℤ) := by rw [htop, hhalf]; ring
    have hmant : |(roundEven (q / 2 ^ (971 : ℤ)) : ℚ)| < 2 ^ 53 := by
      have := abs_add_le ((roundEven (q / 2 ^ (971 : ℤ)) : ℚ) - q / 2 ^ (971 : ℤ))
        (q / 2 ^ (971 : ℤ))
      rw [sub_add_cancel] at this
      linarith
    rw [nearest, hlast, abs_mul, abs_of_pos (two_zpow_pos 971)]
    calc |(roundEven (q / 2 ^ (971 : ℤ)) : ℚ)| * 2 ^ (971 : ℤ)
        < 2 ^ 53 * 2 ^ (971 : ℤ) := mul_lt_mul_of_pos_right hmant (two_zpow_pos 971)
      _ = 2 ^ (1024 : ℤ) := htop.symm

end Chiptune.Binary64
