import Chiptune.Amplitude
import Chiptune.Proofs.Binary64.Order

/-!
# Counts and whole parts of binary64 amplitudes

Counts up to `2 ^ 53` are exact amplitudes, and so is the whole part of every finite number: either
the number is below `2 ^ 53` and its whole part is such a count, or it has no other part.

* `count_spec`, the counts that numerals stand for;
* `wideCount_spec` and `rounds_div_count`, counts of 64 bits and quotients by them;
* `truncate` and `wholePart_spec`, the whole part.
-/

namespace Chiptune

open Binary64

/-! ## Counts -/

/-- Counts up to `2 ^ 53` are exact amplitudes. -/
theorem count_spec {n : ℕ} (hn : n ≤ 2 ^ 53) :
    (Amplitude.ofCount n : Float).isFinite = true ∧ value (Amplitude.ofCount n) = n := by
  have hnat : n.toUInt64.toNat = n := Nat.mod_eq_of_lt (by omega)
  have h := value_toFloat (n := n.toUInt64) (by rwa [hnat])
  rwa [hnat] at h

/-- Counts of 64 bits are rounded. -/
theorem wideCount_spec {n : ℕ} (hn : n < 2 ^ 64) :
    (Amplitude.ofCount n : Float).isFinite = true ∧ value (Amplitude.ofCount n) = nearest n := by
  have hnat : n.toUInt64.toNat = n := Nat.mod_eq_of_lt hn
  have hrounds := rounds_toFloat n.toUInt64
  rw [hnat] at hrounds
  apply hrounds.of_abs_le
  rw [Nat.abs_cast]
  exact_mod_cast hn.le

/-- They are 0, or between 1 and `2 ^ 64`. -/
theorem wideCount_bounds {n : ℕ} (hn : n < 2 ^ 64) :
    0 ≤ value (Amplitude.ofCount n : Float) ∧
      value (Amplitude.ofCount n : Float) ≤ 2 ^ (64 : ℤ) ∧
      (0 < n → 1 ≤ value (Amplitude.ofCount n : Float)) := by
  obtain ⟨-, hv⟩ := wideCount_spec hn
  rw [hv]
  have hzero := le_nearest (representable_intCast (n := 0) (by norm_num)) (q := n) (by simp)
  have hle : (n : ℚ) ≤ 2 ^ (64 : ℤ) := by exact_mod_cast hn.le
  refine ⟨by exact_mod_cast hzero, nearest_le (representable_two_zpow (by norm_num)) hle, ?_⟩
  intro hpos
  have hone := le_nearest (representable_intCast (n := 1) (by norm_num)) (q := n)
    (by exact_mod_cast hpos)
  exact_mod_cast hone

/-- A quotient by a count is rounded once. -/
theorem rounds_div_count {x : Float} (hx : x.isFinite = true) (hx1 : value x ≠ 0 → 1 ≤ |value x|)
    {n : ℕ} (hpos : 0 < n) (hn : n < 2 ^ 64) :
    Rounds (x / Amplitude.ofCount n) (value x / value (Amplitude.ofCount n : Float)) := by
  obtain ⟨hnonneg, hle, hone⟩ := wideCount_bounds hn
  have hone := hone hpos
  exact rounds_div_of_one_le hx (wideCount_spec hn).1 hx1 (by linarith)
    (by rwa [abs_of_nonneg hnonneg])

theorem zero_spec : (0 : Float).isFinite = true ∧ value 0 = 0 := by
  have h : (0 : Float) = Amplitude.ofCount 0 := by decide
  rw [h]
  exact_mod_cast count_spec (n := 0) (by norm_num)

theorem one_eq : (1 : Float) = Amplitude.ofCount 1 := rfl

theorem one_spec : (1 : Float).isFinite = true ∧ value 1 = 1 := by
  rw [one_eq]
  exact_mod_cast count_spec (n := 1) (by norm_num)

/-- From `2 ^ 53` on every number is whole. -/
theorem limit_spec : (9007199254740992 : Float).isFinite = true ∧
    value 9007199254740992 = 2 ^ 53 := by
  have h : (9007199254740992 : Float) = Amplitude.ofCount (2 ^ 53) := by decide
  rw [h]
  exact_mod_cast count_spec (n := 2 ^ 53) le_rfl

theorem half_eq : (0.5 : Float) = Amplitude.ofCount 1 / Amplitude.ofCount 2 := by decide +kernel

theorem half_spec : (0.5 : Float).isFinite = true ∧ value 0.5 = 1 / 2 := by
  obtain ⟨hf1, hv1⟩ := one_spec
  obtain ⟨-, hv2⟩ := count_spec (n := 2) (by norm_num)
  have hdiv := rounds_div_count (n := 2) hf1 (fun _ => by rw [hv1, abs_one]) (by norm_num)
    (by norm_num)
  have hhalf : (1 : ℚ) / (2 : ℕ) = 2 ^ (-1 : ℤ) := by norm_num
  rw [hv1, hv2, hhalf] at hdiv
  rw [half_eq, ← one_eq, show (1 : ℚ) / 2 = 2 ^ (-1 : ℤ) by norm_num]
  apply hdiv.exact (representable_two_zpow (by norm_num))
  rw [abs_of_pos (two_zpow_pos _)]
  exact zpow_lt_zpow_right₀ (by norm_num) (by norm_num)

/-! ## Whole parts -/

/-- The whole part of a rational number, toward zero. -/
def truncate (q : ℚ) : ℤ := if q < 0 then ⌈q⌉ else ⌊q⌋

theorem truncate_intCast (n : ℤ) : truncate n = n := by
  unfold truncate
  split_ifs <;> simp

theorem truncate_of_nonneg {q : ℚ} (hq : 0 ≤ q) : (truncate q : ℚ) ≤ q ∧ q < truncate q + 1 := by
  rw [truncate, if_neg hq.not_gt]
  exact ⟨Int.floor_le q, Int.lt_floor_add_one q⟩

theorem truncate_of_neg {q : ℚ} (hq : q < 0) : q ≤ truncate q ∧ (truncate q : ℚ) < q + 1 := by
  rw [truncate, if_pos hq]
  exact ⟨Int.le_ceil q, Int.ceil_lt_add_one q⟩

theorem abs_truncate_le (q : ℚ) : |(truncate q : ℚ)| ≤ |q| := by
  rcases lt_or_ge q 0 with hq | hq
  · have hle : (truncate q : ℚ) ≤ 0 := by
      rw [truncate, if_pos hq]
      exact_mod_cast Int.ceil_le.mpr (by exact_mod_cast hq.le)
    rw [abs_of_nonpos hle, abs_of_neg hq]
    exact neg_le_neg (truncate_of_neg hq).1
  · have hge : (0 : ℚ) ≤ truncate q := by
      rw [truncate, if_neg hq.not_gt]
      exact_mod_cast Int.floor_nonneg.mpr hq
    rw [abs_of_nonneg hge, abs_of_nonneg hq]
    exact (truncate_of_nonneg hq).1

/-- Representable numbers from `2 ^ 53` on are whole. -/
theorem Binary64.Representable.exists_int {r : ℚ} (hr : Representable r) (hbig : 2 ^ 53 ≤ |r|) :
    ∃ n : ℤ, r = n := by
  obtain ⟨m, e, hm, -, rfl⟩ := hr
  have he : 0 ≤ e := by
    by_contra hneg
    have hpow : (2 : ℚ) ^ e ≤ 1 := zpow_le_one_of_nonpos₀ (by norm_num) (by omega)
    have hm' : |(m : ℚ)| < 2 ^ 53 := by exact_mod_cast hm
    rw [abs_mul, abs_of_pos (two_zpow_pos e)] at hbig
    have := mul_le_mul_of_nonneg_left hpow (abs_nonneg (m : ℚ))
    linarith
  refine ⟨m * 2 ^ e.toNat, ?_⟩
  push_cast
  rw [← zpow_natCast, Int.toNat_of_nonneg he]

/-- What a number has beyond its whole part needs no more bits than the number. -/
theorem Binary64.Representable.sub_floor {r : ℚ} (hr : Representable r) (hnonneg : 0 ≤ r) :
    Representable (r - ⌊r⌋₊) := by
  obtain ⟨m, e, hm, he, rfl⟩ := hr
  have hm0 : 0 ≤ m := by
    by_contra hneg
    have hm1 : (m : ℚ) < 0 := by exact_mod_cast not_le.mp hneg
    exact hnonneg.not_gt (mul_neg_of_neg_of_pos hm1 (two_zpow_pos e))
  obtain ⟨n, rfl⟩ := Int.eq_ofNat_of_zero_le hm0
  by_cases he0 : 0 ≤ e
  · have hwhole : ((n : ℤ) : ℚ) * 2 ^ e = ((n * 2 ^ e.toNat : ℕ) : ℚ) := by
      push_cast
      rw [← zpow_natCast, Int.toNat_of_nonneg he0]
    rw [hwhole, Nat.floor_natCast, sub_self]
    exact_mod_cast representable_intCast (n := 0) (by norm_num)
  -- below the point there are the last bits of the mantissa
  · set d := 2 ^ (-e).toNat with hd
    have hd0 : (d : ℚ) ≠ 0 := by
      rw [hd]
      positivity
    have hpow : (2 : ℚ) ^ e = 1 / d := by
      have hcast : ((-e).toNat : ℤ) = -e := by omega
      rw [hd, Nat.cast_pow, Nat.cast_ofNat, ← zpow_natCast, hcast, zpow_neg, one_div, inv_inv]
    have hquot : ((n : ℤ) : ℚ) * 2 ^ e = n / d := by rw [hpow, Int.cast_natCast, mul_one_div]
    refine ⟨(n % d : ℕ), e, ?_, he, ?_⟩
    · rw [Nat.abs_cast] at hm ⊢
      have hle := Nat.mod_le n d
      omega
    · have hsplit : (d : ℚ) * (n / d : ℕ) + (n % d : ℕ) = n := by
        exact_mod_cast Nat.div_add_mod n d
      rw [hquot, Nat.floor_div_natCast, Nat.floor_natCast, hpow, Int.cast_natCast, mul_one_div,
        eq_div_iff hd0, sub_mul, div_mul_cancel₀ _ hd0]
      linarith

/-- Counting down to the whole part and back is exact. -/
theorem toUInt64_toFloat_spec {u : Float} (hu : u.isFinite = true) (hnonneg : 0 ≤ value u)
    (hlt : value u < 2 ^ 53) :
    u.toUInt64.toFloat.isFinite = true ∧ value u.toUInt64.toFloat = ⌊value u⌋ := by
  have hnat := toNat_toUInt64 hu hnonneg (hlt.trans (by norm_num))
  have hsmall : u.toUInt64.toNat < 2 ^ 53 := by
    rw [hnat, Nat.floor_lt hnonneg]
    exact_mod_cast hlt
  obtain ⟨hf, hv⟩ := value_toFloat hsmall.le
  refine ⟨hf, ?_⟩
  rw [hv, hnat, ← Int.natCast_floor_eq_floor hnonneg, Int.cast_natCast]

/-- The whole part is exact. -/
theorem wholePart_spec {u : Float} (hu : u.isFinite = true) :
    (wholePart u).isFinite = true ∧ value (wholePart u) = truncate (value u) := by
  have hlarge : 2 ^ 53 ≤ |value u| → value u = truncate (value u) := by
    intro hbig
    obtain ⟨n, hn⟩ := (representable_value u).exists_int hbig
    rw [hn, truncate_intCast]
  have hlimit : (-9007199254740992 : Float).isFinite = true ∧
      value (-9007199254740992) = -2 ^ 53 :=
    ⟨isFinite_neg limit_spec.1, by rw [value_neg, limit_spec.2]⟩
  unfold wholePart
  split_ifs with hneg hmore hless
  -- negative numbers are counted by their distance from zero
  · rw [lt_iff hu zero_spec.1, zero_spec.2] at hneg
    rw [lt_iff hlimit.1 hu, hlimit.2] at hmore
    obtain ⟨hf, hv⟩ := toUInt64_toFloat_spec (isFinite_neg hu) (by rw [value_neg]; linarith)
      (by rw [value_neg]; linarith)
    refine ⟨isFinite_neg hf, ?_⟩
    rw [value_neg, hv, value_neg, truncate, if_pos hneg, Int.floor_neg]
    push_cast
    ring
  · rw [lt_iff hu zero_spec.1, zero_spec.2] at hneg
    rw [lt_iff hlimit.1 hu, hlimit.2, not_lt] at hmore
    exact ⟨hu, hlarge (by rw [abs_of_neg hneg]; linarith)⟩
  · rw [lt_iff hu zero_spec.1, zero_spec.2, not_lt] at hneg
    rw [lt_iff hu limit_spec.1, limit_spec.2] at hless
    obtain ⟨hf, hv⟩ := toUInt64_toFloat_spec hu hneg hless
    exact ⟨hf, by rw [hv, truncate, if_neg hneg.not_gt]⟩
  · rw [lt_iff hu limit_spec.1, limit_spec.2, not_lt] at hless
    exact ⟨hu, hlarge (hless.trans (le_abs_self _))⟩

end Chiptune
