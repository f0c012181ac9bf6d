import Chiptune.Proofs.Binary64.Arithmetic

/-!
# The order of binary64 numbers and their whole parts

Canonical numbers are compared by their exponents first and their mantissas second. For finite
numbers that is the order of their values, and taking a number to a count takes the floor of its
value.

* `lt_iff` and `le_iff`, the order;
* `toNat_toUInt64`, the whole part as a count.
-/

namespace Chiptune.Binary64

open Float.Model Float.Model.UnpackedFloat

/-! ## Order -/

/-- Of two canonical numbers the one with the lower exponent is smaller, whatever its mantissa. -/
theorem scaled_lt_of_exponent_lt {m n : ℕ} {e f : ℤ} (he : -1074 ≤ e) (hm : m < 2 ^ 53)
    (hn : 2 ^ 52 ≤ n ∨ f = -1074) (hef : e < f) : (m : ℚ) * 2 ^ e < n * 2 ^ f := by
  have hn' : (2 : ℚ) ^ 52 ≤ n := by
    have : 2 ^ 52 ≤ n := by omega
    exact_mod_cast this
  have hm' : (m : ℚ) < 2 ^ 52 * 2 := by
    have : m < 2 ^ 52 * 2 := by omega
    exact_mod_cast this
  calc (m : ℚ) * 2 ^ e < 2 ^ 52 * 2 * 2 ^ e := mul_lt_mul_of_pos_right hm' (two_zpow_pos e)
    _ = 2 ^ 52 * 2 ^ (e + 1) := by rw [zpow_add₀ (by norm_num)]; ring
    _ ≤ n * 2 ^ f := mul_le_mul hn' (zpow_le_zpow_right₀ (by norm_num) (by omega))
        (two_zpow_pos _).le (Nat.cast_nonneg n)

/-- Exponents first and mantissas second is the order of the numbers. -/
theorem compare_scaled {s t : Sign} {m n : ℕ} {e f : ℤ} {hm : 0 < m} {hn : 0 < n}
    (hu : Canonical (.finite s m e hm)) (hv : Canonical (.finite t n f hn)) :
    (compare e f).then (compare m n) = compare ((m : ℚ) * 2 ^ e) (n * 2 ^ f) := by
  obtain ⟨hm53, he, hm52⟩ := hu
  obtain ⟨hn53, hf, hn52⟩ := hv
  rcases lt_trichotomy e f with hlt | rfl | hgt
  · rw [compare_lt_iff_lt.mpr hlt,
      compare_lt_iff_lt.mpr (scaled_lt_of_exponent_lt he hm53 hn52 hlt)]
    rfl
  · rw [compare_eq_iff_eq.mpr rfl]
    rcases lt_trichotomy m n with hlt | rfl | hgt
    · rw [compare_lt_iff_lt.mpr hlt, compare_lt_iff_lt.mpr
        (mul_lt_mul_of_pos_right (by exact_mod_cast hlt) (two_zpow_pos e))]
      rfl
    · rw [compare_eq_iff_eq.mpr rfl, compare_eq_iff_eq.mpr rfl]
      rfl
    · rw [compare_gt_iff_gt.mpr hgt, compare_gt_iff_gt.mpr
        (mul_lt_mul_of_pos_right (by exact_mod_cast hgt) (two_zpow_pos e))]
      rfl
  · rw [compare_gt_iff_gt.mpr hgt,
      compare_gt_iff_gt.mpr (scaled_lt_of_exponent_lt hf hn53 hm52 hgt)]
    rfl

/-- Comparing finite numbers compares their values. -/
theorem compare_unpack {x y : Float} (hx : x.isFinite = true) (hy : y.isFinite = true) :
    UnpackedFloat.compare x.toModel.unpack y.toModel.unpack
      = some (compare (value x) (value y)) := by
  have hcx := canonical_unpack x
  have hcy := canonical_unpack y
  rw [value, value]
  have hpos : ∀ {m : ℕ} {e : ℤ}, 0 < m → (0 : ℚ) < (m : ℚ) * 2 ^ e := fun hm =>
    mul_pos (by exact_mod_cast hm) (two_zpow_pos _)
  rcases unpack_of_isFinite hx with ⟨s, hu⟩ | ⟨s, m, e, hm, hu⟩ <;>
    rcases unpack_of_isFinite hy with ⟨t, hv⟩ | ⟨t, n, f, hn, hv⟩ <;>
    rw [hu] at hcx ⊢ <;> rw [hv] at hcy ⊢
  · rfl
  · have h := hpos (e := f) hn
    cases t
    · rw [compare_gt_iff_gt.mpr (by simpa [rational, Sign.apply] using h)]
      rfl
    · rw [compare_lt_iff_lt.mpr (by simpa [rational, Sign.apply] using h)]
      rfl
  · have h := hpos (e := e) hm
    cases s
    · rw [compare_lt_iff_lt.mpr (by simpa [rational, Sign.apply] using h)]
      rfl
    · rw [compare_gt_iff_gt.mpr (by simpa [rational, Sign.apply] using h)]
      rfl
  -- the signs decide, unless they agree; two negative numbers are compared the other way round
  · have hx' := hpos (e := e) hm
    have hy' := hpos (e := f) hn
    cases s <;> cases t
    · simp only [UnpackedFloat.compare, compare_scaled hcx hcy, rational, Sign.apply]
      push_cast
      rw [neg_mul, neg_mul]
      rcases lt_trichotomy ((m : ℚ) * 2 ^ e) (n * 2 ^ f) with h | h | h
      · rw [compare_lt_iff_lt.mpr h, compare_gt_iff_gt.mpr (neg_lt_neg h)]
        rfl
      · rw [compare_eq_iff_eq.mpr h, compare_eq_iff_eq.mpr (by rw [h])]
        rfl
      · rw [compare_gt_iff_gt.mpr h, compare_lt_iff_lt.mpr (neg_lt_neg h)]
        rfl
    · rw [compare_lt_iff_lt.mpr (by simp only [rational, Sign.apply]; push_cast; linarith)]
      rfl
    · rw [compare_gt_iff_gt.mpr (by simp only [rational, Sign.apply]; push_cast; linarith)]
      rfl
    · simp only [UnpackedFloat.compare, compare_scaled hcx hcy, rational, Sign.apply]
      push_cast
      rfl

/-- The order of finite numbers is the order of their values. -/
theorem lt_iff {x y : Float} (hx : x.isFinite = true) (hy : y.isFinite = true) :
    x < y ↔ value x < value y := by
  have h : x < y ↔ (UnpackedFloat.compare x.toModel.unpack y.toModel.unpack == some .lt) = true :=
    decide_eq_true_iff
  rw [h, compare_unpack hx hy, beq_iff_eq, Option.some_inj, compare_lt_iff_lt]

theorem le_iff {x y : Float} (hx : x.isFinite = true) (hy : y.isFinite = true) :
    x ≤ y ↔ value x ≤ value y := by
  have h : x ≤ y ↔ (UnpackedFloat.compare x.toModel.unpack y.toModel.unpack).any (·.isLE) = true :=
    decide_eq_true_iff
  rw [h, compare_unpack hx hy, Option.any_some, Ordering.isLE_iff_ne_gt, compare_gt_iff_gt,
    not_lt]

/-! ## Whole parts -/

/-- Shifting to exponent zero leaves the floor of the number. -/
theorem roundToInt_positive (m : ℕ) (e : ℤ) :
    roundToInt .positive m e = ⌊(m : ℚ) * 2 ^ e⌋ := by
  have hvalue := decreaseExponent_value m e 0
  have hle : (decreaseExponent m e 0).2 ≤ 0 := by
    simp only [decreaseExponent]
    omega
  simp only [roundToInt, shiftToExponent, Sign.apply]
  rw [← hvalue]
  generalize (decreaseExponent m e 0).1 = n at *
  generalize (decreaseExponent m e 0).2 = t at *
  have hreads := (reads_exact n).shiftRight (0 - t).toNat
  have hscale : (n : ℚ) / 2 ^ (0 - t).toNat = n * 2 ^ t := by
    have hcast : ((0 - t).toNat : ℤ) = -t := by omega
    rw [← zpow_natCast, hcast, zpow_neg, div_inv_eq_mul]
  rw [hscale] at hreads
  exact hreads.whole.symm

/-- Taking a number to a count rounds it down. -/
theorem toNat_toUInt64 {x : Float} (hx : x.isFinite = true) (hnonneg : 0 ≤ value x)
    (hlt : value x < 2 ^ 64) : x.toUInt64.toNat = ⌊value x⌋₊ := by
  have hfloor : UnpackedFloat.toInt 0 (UInt64.size - 1) x.toModel.unpack = ⌊value x⌋ := by
    rw [value] at *
    rcases unpack_of_isFinite hx with ⟨s, hu⟩ | ⟨s, m, e, hm, hu⟩ <;> rw [hu] at hnonneg ⊢
    · exact (Int.floor_zero).symm
    · have hpos : (0 : ℚ) < m * 2 ^ e := mul_pos (by exact_mod_cast hm) (two_zpow_pos e)
      cases s
      · simp only [rational, Sign.apply] at hnonneg
        push_cast at hnonneg
        linarith
      · exact roundToInt_positive m e
  have hcount : x.toUInt64
      = UInt64.ofNatClamp (UnpackedFloat.toInt 0 (UInt64.size - 1) x.toModel.unpack).toNat := rfl
  have hsize : ⌊value x⌋.toNat < UInt64.size := by
    have : ⌊value x⌋ < 2 ^ 64 := Int.floor_lt.mpr (by exact_mod_cast hlt)
    rw [UInt64.size]
    omega
  rw [hcount, hfloor, UInt64.ofNatClamp, dif_pos hsize]
  exact (Int.floor_toNat _)

end Chiptune.Binary64
