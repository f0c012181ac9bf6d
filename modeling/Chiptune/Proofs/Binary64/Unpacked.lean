import Chiptune.Proofs.Binary64.Nearest

/-!
# Unpacked binary64 numbers

Binary64 arithmetic is defined on unpacked numbers: a sign, a mantissa and an exponent. An exact
result is shifted to the exponent that its size asks for, with two bits that remember what was
shifted out, and then rounded. This file reads all of that as rational arithmetic.

* `rational`, the number behind an unpacked one, and `Canonical`, the form that packing expects;
* `Reads`, what a mantissa and its two residual bits say about the exact number;
* `roundWithAccuracy_spec` and `normalize_spec`: rounding gives a canonical number, and its value is
  `nearest` of the exact one.
-/

namespace Chiptune.Binary64

open Float.Model Float.Model.UnpackedFloat

/-- The rational number behind an unpacked one; what is not finite counts as zero. -/
def rational : UnpackedFloat → ℚ
  | .finite s m e _ => (s.apply m : ℤ) * 2 ^ e
  | _ => 0

theorem abs_rational (s : Sign) {m : ℕ} (e : ℤ) (hm : 0 < m) :
    |rational (.finite s m e hm)| = m * 2 ^ e := by
  rw [rational, abs_mul, abs_of_pos (two_zpow_pos e)]
  cases s <;> simp [Sign.apply]

/-- What packing expects: at most 53 bits, all of them in use unless the exponent is the least. -/
def Canonical : UnpackedFloat → Prop
  | .finite _ m e _ => m < 2 ^ 53 ∧ -1074 ≤ e ∧ (2 ^ 52 ≤ m ∨ e = -1074)
  | _ => True

theorem Canonical.representable {u : UnpackedFloat} (hu : Canonical u) :
    Representable (rational u) := by
  cases u with
  | finite s m e hm =>
    obtain ⟨hlt, he, -⟩ := hu
    refine ⟨s.apply m, e, ?_, he, rfl⟩
    have habs : |s.apply (m : ℤ)| = m := by cases s <;> simp [Sign.apply]
    rw [habs]
    exact_mod_cast hlt
  | _ => exact ⟨0, 0, by norm_num, by norm_num, by simp [rational]⟩

/-! ## Residual bits -/

/-- `em` holds the whole part of `x`; its round bit tells whether the rest reaches a half, its
sticky bit whether the rest is neither nothing nor a half. -/
structure Reads (em : ExtendedMantissa) (x : ℚ) : Prop where
  whole : ⌊x⌋ = em.mantissa
  round : em.roundBit = true ↔ 1 / 2 ≤ Int.fract x
  sticky : em.stickyBit = true ↔ Int.fract x ≠ 0 ∧ Int.fract x ≠ 1 / 2

theorem reads_exact (m : ℕ) : Reads (.ofMantissaAndAccuracy m .exact) m where
  whole := by simp [ExtendedMantissa.ofMantissaAndAccuracy]
  round := by simp [ExtendedMantissa.ofMantissaAndAccuracy]
  sticky := by simp [ExtendedMantissa.ofMantissaAndAccuracy]

/-- A quotient is read from its whole part and the comparison of twice the remainder with the
divisor. -/
theorem reads_quotient (a : ℕ) {b : ℕ} (hb : 0 < b) :
    Reads (.ofMantissaAndAccuracy (a / b) (accuracyOfFraction (a % b) b)) ((a : ℚ) / b) := by
  have hb' : (0 : ℚ) < b := by exact_mod_cast hb
  have hfloor : ⌊(a : ℚ) / b⌋ = ((a / b : ℕ) : ℤ) := Rat.floor_natCast_div_natCast a b
  have hfract : Int.fract ((a : ℚ) / b) = ((a % b : ℕ) : ℚ) / b :=
    Int.fract_div_natCast_eq_div_natCast_mod
  have hmod : a % b < b := Nat.mod_lt a hb
  have hhalf : (1 / 2 ≤ Int.fract ((a : ℚ) / b)) ↔ b ≤ 2 * (a % b) := by
    rw [hfract, div_le_div_iff₀ (by norm_num) hb']
    constructor
    · intro h
      have : (b : ℚ) ≤ 2 * ((a % b : ℕ) : ℚ) := by linarith
      exact_mod_cast this
    · intro h
      have : (b : ℚ) ≤ 2 * ((a % b : ℕ) : ℚ) := by exact_mod_cast h
      linarith
  have hzero : Int.fract ((a : ℚ) / b) = 0 ↔ a % b = 0 := by
    rw [hfract, div_eq_zero_iff]
    simp [hb.ne']
  have htie : Int.fract ((a : ℚ) / b) = 1 / 2 ↔ 2 * (a % b) = b := by
    rw [hfract, div_eq_div_iff hb'.ne' (by norm_num)]
    constructor
    · intro h
      have : 2 * ((a % b : ℕ) : ℚ) = b := by linarith
      exact_mod_cast this
    · intro h
      have : 2 * ((a % b : ℕ) : ℚ) = b := by exact_mod_cast h
      linarith
  -- the two bits tell no rest, less than a half, a half and more than a half apart
  by_cases hz : a % b = 0
  · have hacc : accuracyOfFraction (a % b) b = .exact := if_pos hz
    rw [hacc]
    exact ⟨hfloor, by rw [hhalf]; simp [ExtendedMantissa.ofMantissaAndAccuracy]; omega,
      by rw [Ne, hzero]; simp [ExtendedMantissa.ofMantissaAndAccuracy, hz]⟩
  · have hacc : accuracyOfFraction (a % b) b = .inexact (compare (2 * (a % b)) b) := if_neg hz
    rw [hacc]
    rcases lt_trichotomy (2 * (a % b)) b with hlt | heq | hgt
    · rw [Nat.compare_eq_lt.mpr hlt]
      exact ⟨hfloor, by rw [hhalf]; simp [ExtendedMantissa.ofMantissaAndAccuracy]; omega,
        by rw [Ne, Ne, hzero, htie]; simp [ExtendedMantissa.ofMantissaAndAccuracy]; omega⟩
    · rw [Nat.compare_eq_eq.mpr heq]
      exact ⟨hfloor, by rw [hhalf]; simp [ExtendedMantissa.ofMantissaAndAccuracy]; omega,
        by rw [Ne, Ne, hzero, htie]; simp [ExtendedMantissa.ofMantissaAndAccuracy]; omega⟩
    · rw [Nat.compare_eq_gt.mpr hgt]
      exact ⟨hfloor, by rw [hhalf]; simp [ExtendedMantissa.ofMantissaAndAccuracy]; omega,
        by rw [Ne, Ne, hzero, htie]; simp [ExtendedMantissa.ofMantissaAndAccuracy]; omega⟩

/-- The residual bits are what rounding to the even neighbour needs. -/
theorem Reads.roundedMantissa {em : ExtendedMantissa} {x : ℚ} (h : Reads em x) :
    (em.roundedMantissa : ℤ) = roundEven x := by
  obtain ⟨m, r, s⟩ := em
  obtain ⟨hw, hr, hs⟩ := h
  simp only at hw hr hs
  unfold roundEven
  rw [hw]
  cases r <;> cases s <;>
    simp only [ExtendedMantissa.roundedMantissa, ExtendedMantissa.accuracy,
      Accuracy.roundToNearestEven, Bool.false_eq_true, false_iff, true_iff, not_le] at hr hs ⊢
  · rw [if_pos hr]
  · rw [if_pos hr]
  · have htie : Int.fract x = 1 / 2 := by
      by_contra hne
      exact hs ⟨by intro h0; rw [h0] at hr; norm_num at hr, hne⟩
    rw [htie, if_neg (lt_irrefl _), if_neg (lt_irrefl _)]
    push_cast
    rfl
  · have hgt : 1 / 2 < Int.fract x := lt_of_le_of_ne hr hs.2.symm
    rw [if_neg hgt.le.not_gt, if_pos hgt]
    push_cast
    rfl

/-- Shifting by one place halves the number that is read. -/
theorem Reads.shiftRightOne {em : ExtendedMantissa} {x : ℚ} (h : Reads em x) :
    Reads em.shiftRightOne (x / 2) := by
  obtain ⟨m, r, s⟩ := em
  obtain ⟨hw, hr, hs⟩ := h
  simp only at hw hr hs
  have hx : (m : ℚ) + Int.fract x = x := by
    have := Int.floor_add_fract x
    rwa [hw, Int.cast_natCast] at this
  have hnonneg := Int.fract_nonneg x
  have hlt := Int.fract_lt_one x
  have hm : ((2 * (m / 2) + m % 2 : ℕ) : ℚ) = m := by rw [Nat.div_add_mod]
  push_cast at hm
  have hbit : m % 2 = 0 ∨ m % 2 = 1 := by omega
  have hfloor : ⌊x / 2⌋ = ((m / 2 : ℕ) : ℤ) := by
    rw [Int.floor_eq_iff, Int.cast_natCast]
    rcases hbit with h | h <;> rw [h] at hm <;> push_cast at hm <;> constructor <;> linarith
  have hfract : Int.fract (x / 2) = (((m % 2 : ℕ) : ℚ) + Int.fract x) / 2 := by
    rw [Int.fract, hfloor, Int.cast_natCast]
    linarith
  refine ⟨hfloor, ?_, ?_⟩
  -- the last bit of the mantissa is the new round bit, the old round bit becomes sticky
  · rw [hfract]
    rcases hbit with h | h <;> simp [ExtendedMantissa.shiftRightOne, h] <;> linarith
  · have hrest : (r || s) = true ↔ Int.fract x ≠ 0 := by
      rw [Bool.or_eq_true, hr, hs]
      constructor
      · rintro (h | h)
        · intro h0
          rw [h0] at h
          norm_num at h
        · exact h.1
      · intro h
        by_cases htie : Int.fract x = 1 / 2
        · exact Or.inl htie.ge
        · exact Or.inr ⟨h, htie⟩
    rw [hfract]
    simp only [ExtendedMantissa.shiftRightOne]
    rw [hrest]
    rcases hbit with h | h <;> rw [h] <;> push_cast
    · constructor
      · intro h0
        exact ⟨by intro h1; exact h0 (by linarith), by intro h1; linarith⟩
      · intro h0 h1
        exact h0.1 (by rw [h1]; norm_num)
    · constructor
      · intro h0
        exact ⟨by intro h1; linarith, by intro h1; exact h0 (by linarith)⟩
      · intro h0 h1
        exact h0.2 (by rw [h1]; norm_num)

theorem Reads.shiftRight {em : ExtendedMantissa} {x : ℚ} (h : Reads em x) (n : ℕ) :
    Reads (em >>> n) (x / 2 ^ n) := by
  show Reads (n.repeat ExtendedMantissa.shiftRightOne em) _
  induction n with
  | zero => simpa [Nat.repeat] using h
  | succ n ih =>
    rw [Nat.repeat, pow_succ, ← div_div]
    exact ih.shiftRightOne

/-! ## Shifting to the last place -/

/-- The target exponent of a mantissa is the last place of the number that it reads. -/
theorem targetExponent_eq_lastPlace {m : ℕ} {e : ℤ} {x : ℚ} (hm : 0 < m)
    (hx : ⌊x / 2 ^ e⌋ = (m : ℤ)) :
    0 < x ∧ Format.binary64.targetExponent (totalExponent m e) = lastPlace x := by
  obtain ⟨hlo, hhi⟩ := Int.floor_eq_iff.mp hx
  rw [Int.cast_natCast, le_div_iff₀ (two_zpow_pos e)] at hlo
  rw [Int.cast_natCast, div_lt_iff₀ (two_zpow_pos e)] at hhi
  have hm' : (0 : ℚ) < m := by exact_mod_cast hm
  have hpos : 0 < x := (mul_pos hm' (two_zpow_pos e)).trans_le hlo
  have hlog₁ : (m.log2 : ℤ) + e ≤ Int.log 2 x := by
    refine (Int.zpow_le_iff_le_log (by norm_num) hpos).mp ?_
    have hpow : ((2 : ℚ) ^ (m.log2 : ℤ)) ≤ m := by
      rw [zpow_natCast]
      exact_mod_cast Nat.log2_self_le hm.ne'
    push_cast
    rw [zpow_add₀ (by norm_num)]
    exact (mul_le_mul_of_nonneg_right hpow (two_zpow_pos e).le).trans hlo
  have hlog₂ : Int.log 2 x < (m.log2 : ℤ) + 1 + e := by
    refine (Int.lt_zpow_iff_log_lt (by norm_num) hpos).mp ?_
    have hpow : (m : ℚ) + 1 ≤ 2 ^ ((m.log2 : ℤ) + 1) := by
      have : m + 1 ≤ 2 ^ (m.log2 + 1) := Nat.lt_log2_self
      exact_mod_cast this
    push_cast
    rw [zpow_add₀ (by norm_num)]
    exact hhi.trans_le (mul_le_mul_of_nonneg_right hpow (two_zpow_pos e).le)
  refine ⟨hpos, ?_⟩
  rw [lastPlace, abs_of_pos hpos, Format.targetExponent, totalExponent]
  simp only [Format.mantissaBits, Format.minExponent]
  norm_num
  omega

/-- A number below `2 ^ 53` units of the exponent is not shifted; one of exactly that size is
shifted by one place. -/
theorem shiftToTargetExponent_carry {m : ℕ} {t : ℤ} (hm : m ≤ 2 ^ 53) (ht : -1074 ≤ t) :
    shiftToTargetExponent Format.binary64 m t .exact =
      if m < 2 ^ 53 then (⟨m, false, false⟩, t) else (⟨2 ^ 52, false, false⟩, t + 1) := by
  split_ifs with hlt
  · have hlog : m.log2 ≤ 52 := by
      rcases m.eq_zero_or_pos with rfl | hpos
      · simp
      · have := (Nat.log2_lt hpos.ne').mpr hlt
        omega
    have htarget : Format.binary64.targetExponent (totalExponent m t) ≤ t := by
      simp only [Format.targetExponent, totalExponent, Format.mantissaBits, Format.minExponent]
      norm_num
      omega
    have hshift : (Format.binary64.targetExponent (totalExponent m t) - t).toNat = 0 := by omega
    simp [shiftToTargetExponent, shiftToExponent, hshift, HShiftRight.hShiftRight, Nat.repeat,
      ExtendedMantissa.ofMantissaAndAccuracy]
  · obtain rfl : m = 2 ^ 53 := by omega
    have htarget : Format.binary64.targetExponent (totalExponent (2 ^ 53) t) = t + 1 := by
      simp only [Format.targetExponent, totalExponent, Format.mantissaBits, Format.minExponent,
        Nat.log2_two_pow]
      norm_num
      omega
    have hshift : (t + 1 - t).toNat = 1 := by omega
    unfold shiftToTargetExponent
    rw [htarget]
    simp only [shiftToExponent, hshift]
    rfl

/-- Shifting to the target exponent reads the number in units of its last place. -/
theorem shiftToTargetExponent_reads {m : ℕ} {e : ℤ} {a : Accuracy} {x : ℚ} (hm : 0 < m)
    (hx : Reads (.ofMantissaAndAccuracy m a) (x / 2 ^ e)) (he : e ≤ lastPlace x) :
    0 < x ∧ ∃ em, shiftToTargetExponent Format.binary64 m e a = (em, lastPlace x) ∧
      Reads em (x / 2 ^ lastPlace x) := by
  have hmant : (ExtendedMantissa.ofMantissaAndAccuracy m a).mantissa = m := by
    unfold ExtendedMantissa.ofMantissaAndAccuracy
    split <;> rfl
  obtain ⟨hpos, htarget⟩ := targetExponent_eq_lastPlace hm (by rw [hx.whole, hmant])
  have hsum : e + ((lastPlace x - e).toNat : ℤ) = lastPlace x := by omega
  refine ⟨hpos, ExtendedMantissa.ofMantissaAndAccuracy m a >>> (lastPlace x - e).toNat, ?_, ?_⟩
  · simp only [shiftToTargetExponent, shiftToExponent, htarget, hsum]
  · have h := hx.shiftRight (lastPlace x - e).toNat
    rwa [div_div, ← zpow_natCast, ← zpow_add₀ (by norm_num), hsum] at h

/-! ## Rounding -/

/-- Rounding a positive number that is known to the accuracy of a mantissa: the result is canonical
and has the value of the nearest number of 53 bits. -/
theorem roundWithAccuracy_spec (s : Sign) {m : ℕ} {e : ℤ} {a : Accuracy} {x : ℚ} (hm : 0 < m)
    (hx : Reads (.ofMantissaAndAccuracy m a) (x / 2 ^ e)) (he : e ≤ lastPlace x) :
    Canonical (roundWithAccuracy Format.binary64 s m e a) ∧
      (roundWithAccuracy Format.binary64 s m e a).isFinite = true ∧
      rational (roundWithAccuracy Format.binary64 s m e a) = (s.apply 1 : ℤ) * nearest x := by
  obtain ⟨hpos, em, hshift, hem⟩ := shiftToTargetExponent_reads hm hx he
  have hmin : -1074 ≤ lastPlace x := le_max_right _ _
  have hround := hem.roundedMantissa
  have hvalue : (em.roundedMantissa : ℚ) * 2 ^ lastPlace x = nearest x := by
    rw [nearest, ← hround, Int.cast_natCast]
  have h53 : em.roundedMantissa ≤ 2 ^ 53 := by
    have := roundEven_div_lastPlace_le hpos
    rw [← hround] at this
    exact_mod_cast this
  have h52 : 2 ^ 52 ≤ em.roundedMantissa ∨ lastPlace x = -1074 := by
    have := le_roundEven_div_lastPlace hpos
    rw [← hround] at this
    exact this.imp_left fun h => by exact_mod_cast h
  generalize em.roundedMantissa = r, hr : em.roundedMantissa = r at *
  -- rounding up may have carried into a 54th bit
  simp only [roundWithAccuracy, hshift, hr, shiftToTargetExponent_carry h53 hmin]
  split_ifs with hlt hzero
  -- underflow to zero
  · refine ⟨trivial, rfl, ?_⟩
    simp only at hzero
    rw [← hvalue, hzero]
    simp [rational]
  · refine ⟨⟨hlt, hmin, h52⟩, rfl, ?_⟩
    rw [← hvalue]
    cases s <;> simp [rational, Sign.apply]
  · rename_i h
    exact absurd h (by norm_num)
  -- the carry: `2 ^ 53` units become `2 ^ 52` units of the next exponent
  · refine ⟨⟨by norm_num, by omega, Or.inl le_rfl⟩, rfl, ?_⟩
    obtain rfl : r = 2 ^ 53 := by omega
    rw [← hvalue]
    simp only [rational]
    rw [zpow_add₀ (by norm_num)]
    cases s <;> simp [Sign.apply] <;> ring

/-- Lowering an exponent keeps the number. -/
theorem decreaseExponent_value (m : ℕ) (e t : ℤ) :
    ((decreaseExponent m e t).1 : ℚ) * 2 ^ (decreaseExponent m e t).2 = m * 2 ^ e := by
  simp only [decreaseExponent, Nat.shiftLeft_eq]
  push_cast
  rw [← zpow_natCast, mul_assoc, ← zpow_add₀ (by norm_num)]
  congr 2
  omega

/-- Rounding a positive mantissa at any exponent. -/
theorem round_spec (s : Sign) {m : ℕ} (hm : 0 < m) (e : ℤ) :
    Canonical (UnpackedFloat.round Format.binary64 s m e) ∧
      (UnpackedFloat.round Format.binary64 s m e).isFinite = true ∧
      rational (UnpackedFloat.round Format.binary64 s m e)
        = (s.apply 1 : ℤ) * nearest (m * 2 ^ e) := by
  have hfloor : ⌊(m : ℚ) * 2 ^ e / 2 ^ e⌋ = (m : ℤ) := by
    rw [mul_div_cancel_right₀ _ (two_zpow_pos e).ne', Int.floor_natCast]
  have htarget := (targetExponent_eq_lastPlace hm hfloor).2
  have hvalue := decreaseExponent_value m e (lastPlace (m * 2 ^ e))
  have hle : (decreaseExponent m e (lastPlace (m * 2 ^ e))).2 ≤ lastPlace (m * 2 ^ e) := by
    simp only [decreaseExponent]
    omega
  have hpos : 0 < (decreaseExponent m e (lastPlace (m * 2 ^ e))).1 := by
    simp only [decreaseExponent, Nat.shiftLeft_eq]
    positivity
  have hreads := reads_exact (decreaseExponent m e (lastPlace (m * 2 ^ e))).1
  rw [← eq_div_iff (two_zpow_pos _).ne'] at hvalue
  rw [hvalue] at hreads
  simp only [UnpackedFloat.round, htarget]
  exact roundWithAccuracy_spec s hpos hreads hle

/-- Rounding a signed mantissa at any exponent; it is what sums and differences end with. -/
theorem normalize_spec (m e : ℤ) (zero : Sign) :
    Canonical (UnpackedFloat.normalize Format.binary64 m e zero) ∧
      (UnpackedFloat.normalize Format.binary64 m e zero).isFinite = true ∧
      rational (UnpackedFloat.normalize Format.binary64 m e zero) = nearest (m * 2 ^ e) := by
  rcases lt_trichotomy m 0 with hneg | rfl | hpos
  · have hcast : (((-m).toNat : ℕ) : ℚ) = -m := by
      exact_mod_cast Int.toNat_of_nonneg (by omega : 0 ≤ -m)
    have h := round_spec .negative (m := (-m).toNat) (by omega) e
    rw [hcast, neg_mul, nearest_neg] at h
    rw [UnpackedFloat.normalize, Int.compare_eq_lt.mpr hneg]
    simpa [Sign.apply] using h
  · rw [UnpackedFloat.normalize, Int.compare_eq_eq.mpr rfl]
    exact ⟨trivial, rfl, by simp [rational]⟩
  · have hcast : ((m.toNat : ℕ) : ℚ) = m := by exact_mod_cast Int.toNat_of_nonneg hpos.le
    have h := round_spec .positive (m := m.toNat) (by omega) e
    rw [hcast] at h
    rw [UnpackedFloat.normalize, Int.compare_eq_gt.mpr hpos]
    simpa [Sign.apply] using h

end Chiptune.Binary64
