import Chiptune.Proofs.Binary64.Packing

/-!
# Binary64 arithmetic as rounded rational arithmetic

A finite binary64 number stands for a rational `value`. Each operation on finite numbers gives the
exact rational result rounded to 53 bits, unless that overflows: `Rounds x q` says so, and there is
one such lemma for each operation. From there on nothing is unpacked any more: `Rounds.between`
keeps a result between two representable bounds, and `Rounds.exact` is the case without rounding.
-/

namespace Chiptune.Binary64

open Float.Model Float.Model.UnpackedFloat

/-- The rational number that a binary64 number stands for; what is not finite counts as zero. -/
def value (x : Float) : ℚ := rational x.toModel.unpack

/-- The binary64 number of an unpacked one. -/
def ofUnpacked (u : UnpackedFloat) : Float := .ofModel (.pack u)

theorem canonical_unpack (x : Float) : Canonical x.toModel.unpack := (unpack_spec _).1

theorem representable_value (x : Float) : Representable (value x) :=
  (canonical_unpack x).representable

theorem abs_value_lt (x : Float) : |value x| < 2 ^ (1024 : ℤ) := (unpack_spec _).2

/-- The largest finite number. -/
theorem abs_value_le (x : Float) : |value x| ≤ 2 ^ (1024 : ℤ) - 2 ^ (971 : ℤ) := by
  have hlt := abs_value_lt x
  have hc := canonical_unpack x
  have htop : (2 : ℚ) ^ (1024 : ℤ) - 2 ^ (971 : ℤ) = (2 ^ 53 - 1) * 2 ^ (971 : ℤ) := by
    have hpow : (2 : ℚ) ^ (1024 : ℤ) = 2 ^ 53 * 2 ^ (971 : ℤ) := by
      rw [← zpow_natCast, ← zpow_add₀ (by norm_num)]
      norm_num
    rw [hpow]
    ring
  rw [value] at hlt ⊢
  cases hu : x.toModel.unpack with
  | finite s m e hm =>
    rw [hu] at hc hlt
    have he : (2 : ℚ) ^ e ≤ 2 ^ (971 : ℤ) :=
      zpow_le_zpow_right₀ (by norm_num) (hc.exponent_le hlt)
    have hm53 : (m : ℚ) ≤ 2 ^ 53 - 1 := by
      have : (m : ℚ) + 1 ≤ 2 ^ 53 := by exact_mod_cast hc.1
      linarith
    rw [abs_rational, htop]
    exact mul_le_mul hm53 he (two_zpow_pos e).le (by norm_num)
  | _ =>
    rw [htop]
    simp only [rational, abs_zero]
    exact mul_nonneg (by norm_num) (two_zpow_pos 971).le

theorem nearest_value (x : Float) : nearest (value x) = value x :=
  nearest_of_representable (representable_value x)

/-- Packing a canonical number below the overflow threshold loses nothing. -/
theorem unpack_ofUnpacked {u : UnpackedFloat} (hu : Canonical u)
    (hlt : |rational u| < 2 ^ (1024 : ℤ)) : (ofUnpacked u).toModel.unpack = u :=
  unpack_pack hu hlt

/-- Unpacking loses nothing. -/
theorem ofUnpacked_unpack (x : Float) : ofUnpacked x.toModel.unpack = x := by
  obtain ⟨⟨bits, valid⟩⟩ := x
  have hbits := pack_unpack_of_valid valid
  simp only [ofUnpacked, Float.Model.pack, Float.Model.unpack, hbits]

/-- A finite number is a zero, or a sign with a positive mantissa and an exponent. -/
theorem unpack_of_isFinite {x : Float} (hx : x.isFinite = true) :
    (∃ s, x.toModel.unpack = .zero s) ∨
      ∃ s m e, ∃ hm : 0 < m, x.toModel.unpack = .finite s m e hm := by
  change x.toModel.unpack.isFinite = true at hx
  cases hu : x.toModel.unpack with
  | notANumber => rw [hu] at hx; cases hx
  | infinity s => rw [hu] at hx; cases hx
  | zero s => exact Or.inl ⟨s, rfl⟩
  | finite s m e hm => exact Or.inr ⟨s, m, e, hm, rfl⟩

/-! ## Results of operations -/

/-- `x` is what rounding makes of the exact result `q`, unless that overflows. -/
def Rounds (x : Float) (q : ℚ) : Prop :=
  |nearest q| < 2 ^ (1024 : ℤ) → x.isFinite = true ∧ value x = nearest q

theorem rounds_ofUnpacked {u : UnpackedFloat} {q : ℚ} (hu : Canonical u)
    (hfinite : u.isFinite = true) (hvalue : rational u = nearest q) : Rounds (ofUnpacked u) q := by
  intro hlt
  have hback := unpack_ofUnpacked hu (by rwa [hvalue])
  exact ⟨by show (ofUnpacked u).toModel.unpack.isFinite = true; rwa [hback],
    by rw [value, hback, hvalue]⟩

/-- A number is its own rounding. -/
theorem rounds_value {x : Float} (hx : x.isFinite = true) : Rounds x (value x) :=
  fun _ => ⟨hx, (nearest_value x).symm⟩

/-- Whole numbers of 53 bits are far below the overflow threshold. -/
theorem abs_intCast_lt {n : ℤ} (hn : |n| < 2 ^ 53) : |(n : ℚ)| < 2 ^ (1024 : ℤ) := by
  have hle : (2 : ℚ) ^ (53 : ℤ) ≤ 2 ^ (1024 : ℤ) :=
    zpow_le_zpow_right₀ (by norm_num) (by norm_num)
  refine lt_of_lt_of_le ?_ hle
  rw [← Int.cast_abs]
  exact_mod_cast hn

/-- A result stays between two representable bounds that the exact one stays between. -/
theorem Rounds.between {x : Float} {q lo hi : ℚ} (h : Rounds x q) (hlo : Representable lo)
    (hhi : Representable hi) (hlo' : -2 ^ (1024 : ℤ) < lo) (hhi' : hi < 2 ^ (1024 : ℤ))
    (hge : lo ≤ q) (hle : q ≤ hi) : x.isFinite = true ∧ lo ≤ value x ∧ value x ≤ hi := by
  have h₁ := le_nearest hlo hge
  have h₂ := nearest_le hhi hle
  obtain ⟨hx, hv⟩ := h (abs_lt.mpr ⟨hlo'.trans_le h₁, h₂.trans_lt hhi'⟩)
  rw [hv]
  exact ⟨hx, h₁, h₂⟩

/-- The bounds of most results are whole numbers. -/
theorem Rounds.between_int {x : Float} {q : ℚ} (h : Rounds x q) (lo hi : ℤ) (hlo : |lo| < 2 ^ 53)
    (hhi : |hi| < 2 ^ 53) (hge : lo ≤ q) (hle : q ≤ hi) :
    x.isFinite = true ∧ lo ≤ value x ∧ value x ≤ hi :=
  h.between (representable_intCast hlo) (representable_intCast hhi)
    (abs_lt.mp (abs_intCast_lt hlo)).1 (abs_lt.mp (abs_intCast_lt hhi)).2 hge hle

/-- Rounding stays between a whole number of 53 bits and a power of two. -/
theorem Rounds.between_zpow {x : Float} {q : ℚ} (h : Rounds x q) (lo e : ℤ) (hlo : |lo| < 2 ^ 53)
    (hmin : -1074 ≤ e) (hmax : e < 1024) (hge : lo ≤ q) (hle : q ≤ 2 ^ e) :
    x.isFinite = true ∧ lo ≤ value x ∧ value x ≤ 2 ^ e :=
  h.between (representable_intCast hlo) (representable_two_zpow hmin)
    (abs_lt.mp (abs_intCast_lt hlo)).1 (zpow_lt_zpow_right₀ (by norm_num) hmax) hge hle

/-- A representable result is not rounded. -/
theorem Rounds.exact {x : Float} {q : ℚ} (h : Rounds x q) (hq : Representable q)
    (hlt : |q| < 2 ^ (1024 : ℤ)) : x.isFinite = true ∧ value x = q := by
  rw [abs_lt] at hlt
  obtain ⟨hx, hge, hle⟩ := h.between hq hq hlt.1 hlt.2 le_rfl le_rfl
  exact ⟨hx, le_antisymm hle hge⟩

/-- A result that does not reach the middle between the largest finite number and the next power of
two does not overflow. -/
theorem Rounds.of_abs_lt {x : Float} {q : ℚ} (h : Rounds x q)
    (hq : |q| < 2 ^ (1024 : ℤ) - 2 ^ (970 : ℤ)) : x.isFinite = true ∧ value x = nearest q :=
  h (abs_nearest_lt hq)

/-- No result of the size of a count overflows. -/
theorem Rounds.of_abs_le {x : Float} {q : ℚ} (h : Rounds x q) (hq : |q| ≤ 2 ^ (64 : ℤ)) :
    x.isFinite = true ∧ value x = nearest q := by
  apply h
  exact (abs_nearest_le (representable_two_zpow (by norm_num)) hq).trans_lt
    (zpow_lt_zpow_right₀ (by norm_num) (by norm_num))

/-! ## Signs -/

theorem rational_finite (s : Sign) {m : ℕ} (e : ℤ) (hm : 0 < m) :
    rational (.finite s m e hm) = (s.apply 1 : ℤ) * (m * 2 ^ e) := by
  cases s <;> simp [rational, Sign.apply]

theorem apply_mul_nearest (s : Sign) (q : ℚ) :
    ((s.apply 1 : ℤ) : ℚ) * nearest q = nearest ((s.apply 1 : ℤ) * q) := by
  cases s <;> simp [Sign.apply, nearest_neg]

theorem apply_mul (s t : Sign) :
    (((s * t).apply 1 : ℤ) : ℚ) = (s.apply 1 : ℤ) * (t.apply 1 : ℤ) := by
  have hpos : ((Sign.positive.apply 1 : ℤ) : ℚ) = 1 := by norm_num [Sign.apply]
  have hneg : ((Sign.negative.apply 1 : ℤ) : ℚ) = -1 := by norm_num [Sign.apply]
  cases s <;> cases t
  · exact hpos.trans (by rw [hneg]; norm_num)
  · exact hneg.trans (by rw [hneg, hpos]; norm_num)
  · exact hneg.trans (by rw [hneg, hpos]; norm_num)
  · exact hpos.trans (by rw [hpos]; norm_num)

theorem apply_div (s t : Sign) :
    (((s / t).apply 1 : ℤ) : ℚ) = (s.apply 1 : ℤ) / (t.apply 1 : ℤ) := by
  have hself : ((t.apply 1 : ℤ) : ℚ) / 1 = ((t.apply 1 : ℤ) : ℚ)⁻¹ := by
    cases t <;> norm_num [Sign.apply]
  have hmul : s / t = s * t := rfl
  rw [hmul, apply_mul, div_eq_mul_inv, ← hself, div_one]

theorem apply_neg (s : Sign) (n : ℤ) : (-s).apply n = -s.apply n := by
  cases s
  · exact (neg_neg n).symm
  · rfl

theorem rational_neg (u : UnpackedFloat) : rational u.neg = -rational u := by
  cases u with
  | finite s m e hm =>
    show rational (.finite (-s) m e hm) = _
    simp only [rational, apply_neg]
    push_cast
    rw [neg_mul]
  | _ => simp [UnpackedFloat.neg, rational]

theorem unpack_neg (x : Float) : (-x).toModel.unpack = x.toModel.unpack.neg := by
  have hu : Canonical x.toModel.unpack.neg := by
    have h := canonical_unpack x
    cases hx : x.toModel.unpack <;> rw [hx] at h <;> exact h
  have hlt : |rational x.toModel.unpack.neg| < 2 ^ (1024 : ℤ) := by
    rw [rational_neg, abs_neg]
    exact abs_value_lt x
  exact unpack_ofUnpacked hu hlt

/-- Negation is exact. -/
theorem value_neg (x : Float) : value (-x) = -value x := by
  rw [value, unpack_neg, rational_neg, value]

theorem isFinite_neg {x : Float} (hx : x.isFinite = true) : (-x).isFinite = true := by
  show (-x).toModel.unpack.isFinite = true
  rw [unpack_neg]
  rcases unpack_of_isFinite hx with ⟨s, h⟩ | ⟨s, m, e, hm, h⟩ <;> rw [h] <;> rfl

/-! ## Sums and differences -/

/-- Bringing an operand to a lower exponent keeps its number. -/
theorem aligned_value (s : Sign) (m : ℕ) {e t : ℤ} (ht : t ≤ e) :
    ((s.apply ((decreaseExponent m e t).1 : ℤ) : ℤ) : ℚ) * 2 ^ t = (s.apply m : ℤ) * 2 ^ e := by
  have h := decreaseExponent_value m e t
  have hexp : (decreaseExponent m e t).2 = t := by
    simp only [decreaseExponent]
    omega
  rw [hexp] at h
  cases s <;> simp only [Sign.apply] <;> push_cast <;> linarith

theorem rounds_add {x y : Float} (hx : x.isFinite = true) (hy : y.isFinite = true) :
    Rounds (x + y) (value x + value y) := by
  show Rounds (ofUnpacked (UnpackedFloat.add _ x.toModel.unpack y.toModel.unpack)) _
  rcases unpack_of_isFinite hx with ⟨s, hu⟩ | ⟨s, m, e, hm, hu⟩ <;>
    rcases unpack_of_isFinite hy with ⟨s', hv⟩ | ⟨s', m', e', hm', hv⟩
  · rw [value, value, hu, hv]
    have hzero : ∃ s'', UnpackedFloat.add Format.binary64 (.zero s) (.zero s') = .zero s'' := by
      cases s <;> cases s' <;> exact ⟨_, rfl⟩
    obtain ⟨s'', hzero⟩ := hzero
    rw [hzero]
    exact rounds_ofUnpacked trivial rfl (by simp [rational])
  -- a sum with one zero is the other summand, which needs no rounding
  · have hsum : value x + value y = value y := by rw [value, hu]; simp [rational]
    rw [hsum, hu, hv]
    show Rounds (ofUnpacked (.finite s' m' e' hm')) _
    rw [← hv, ofUnpacked_unpack]
    exact rounds_value hy
  · have hsum : value x + value y = value x := by rw [value, value, hv]; simp [rational]
    rw [hsum, hu, hv]
    show Rounds (ofUnpacked (.finite s m e hm)) _
    rw [← hu, ofUnpacked_unpack]
    exact rounds_value hx
  -- both summands are brought to the lower exponent, added exactly and rounded once
  · rw [value, value, hu, hv]
    simp only [UnpackedFloat.add]
    obtain ⟨hc, hf, hr⟩ := normalize_spec (s.apply ((decreaseExponent m e (min e e')).1 : ℤ)
      + s'.apply ((decreaseExponent m' e' (min e e')).1 : ℤ)) (min e e') .positive
    refine rounds_ofUnpacked hc hf ?_
    rw [hr]
    congr 1
    push_cast
    rw [add_mul, aligned_value s m (min_le_left e e'), aligned_value s' m' (min_le_right e e')]
    rfl

/-- A finite number has room for a summand of `[-1, 1]`. -/
theorem finite_add {x y : Float} (hx : x.isFinite = true) (hy : y.isFinite = true)
    (hsmall : |value x| ≤ 1 ∨ |value y| ≤ 1) :
    (x + y).isFinite = true ∧ value (x + y) = nearest (value x + value y) := by
  refine (rounds_add hx hy).of_abs_lt ?_
  have hsum : |value x + value y| ≤ 2 ^ (1024 : ℤ) - 2 ^ (971 : ℤ) + 1 := by
    refine (abs_add_le _ _).trans ?_
    rcases hsmall with h | h
    · rw [add_comm]
      exact add_le_add (abs_value_le y) h
    · exact add_le_add (abs_value_le x) h
  have hone : (1 : ℚ) < 2 ^ (970 : ℤ) := one_lt_zpow₀ (by norm_num) (by norm_num)
  have hstep : (2 : ℚ) ^ (971 : ℤ) = 2 * 2 ^ (970 : ℤ) := by
    rw [← zpow_one_add₀ (by norm_num)]
    norm_num
  rw [hstep] at hsum
  -- a summand of 1 is less than the half of a last place that is left
  refine hsum.trans_lt ?_
  rw [sub_add, two_mul, add_sub_assoc]
  exact sub_lt_sub_left (lt_add_of_pos_right _ (sub_pos.mpr hone)) _

/-- A difference is the sum with the negated number. -/
theorem sub_eq_add (x y : Float) : x - y = x + -y := by
  have hneg : (-y).toModel.unpack = y.toModel.unpack.neg := unpack_neg y
  show ofUnpacked (UnpackedFloat.sub _ x.toModel.unpack y.toModel.unpack)
    = ofUnpacked (UnpackedFloat.add _ x.toModel.unpack (-y).toModel.unpack)
  rw [hneg]
  cases x.toModel.unpack with
  | finite s m e hm =>
    cases y.toModel.unpack with
    | finite t n f hn =>
      simp only [UnpackedFloat.sub, UnpackedFloat.neg, UnpackedFloat.add, apply_neg,
        Int.sub_eq_add_neg]
    | _ => rfl
  | _ => cases y.toModel.unpack <;> rfl

theorem rounds_sub {x y : Float} (hx : x.isFinite = true) (hy : y.isFinite = true) :
    Rounds (x - y) (value x - value y) := by
  have h := rounds_add hx (isFinite_neg hy)
  rwa [value_neg, ← sub_eq_add, ← sub_eq_add_neg] at h

/-! ## Products and quotients -/

/-- A number of at least `2 ^ 52` units of an exponent has its last place there or above. -/
theorem le_lastPlace {q : ℚ} {e : ℤ} (h : (2 : ℚ) ^ (52 : ℤ) * 2 ^ e ≤ q) : e ≤ lastPlace q := by
  rw [← zpow_add₀ (by norm_num)] at h
  have hpos : 0 < q := (two_zpow_pos _).trans_le h
  have hlog := (Int.zpow_le_iff_le_log (b := 2) (by norm_num) hpos).mp (by exact_mod_cast h)
  rw [lastPlace, abs_of_pos hpos]
  omega

/-- The product of two canonical mantissas needs all its bits, unless it underflows. -/
theorem le_lastPlace_mul {s t : Sign} {m n : ℕ} {e f : ℤ} {hm : 0 < m} {hn : 0 < n}
    (hu : Canonical (.finite s m e hm)) (hv : Canonical (.finite t n f hn)) :
    e + f ≤ lastPlace ((m * n : ℕ) * 2 ^ (e + f)) := by
  obtain ⟨-, -, hm'⟩ := hu
  obtain ⟨-, -, hn'⟩ := hv
  have hlarge : 2 ^ 52 ≤ m * n → e + f ≤ lastPlace ((m * n : ℕ) * 2 ^ (e + f)) := by
    intro hle
    refine le_lastPlace (mul_le_mul_of_nonneg_right ?_ (two_zpow_pos _).le)
    exact_mod_cast hle
  rcases hm' with hm' | rfl
  · exact hlarge (hm'.trans (Nat.le_mul_of_pos_right m hn))
  · rcases hn' with hn' | rfl
    · exact hlarge (hn'.trans (Nat.le_mul_of_pos_left n hm))
    -- two of the least exponents are below the last place of anything
    · exact (by norm_num : (-1074 : ℤ) + -1074 ≤ -1074).trans (le_max_right _ _)

theorem rounds_mul {x y : Float} (hx : x.isFinite = true) (hy : y.isFinite = true) :
    Rounds (x * y) (value x * value y) := by
  show Rounds (ofUnpacked (UnpackedFloat.mul _ x.toModel.unpack y.toModel.unpack)) _
  have hcx := canonical_unpack x
  have hcy := canonical_unpack y
  rw [value, value]
  rcases unpack_of_isFinite hx with ⟨s, hu⟩ | ⟨s, m, e, hm, hu⟩ <;>
    rcases unpack_of_isFinite hy with ⟨t, hv⟩ | ⟨t, n, f, hn, hv⟩ <;>
    rw [hu] at hcx ⊢ <;> rw [hv] at hcy ⊢
  · exact rounds_ofUnpacked trivial rfl (by simp [rational, UnpackedFloat.mul])
  · exact rounds_ofUnpacked trivial rfl (by simp [rational, UnpackedFloat.mul])
  · exact rounds_ofUnpacked trivial rfl (by simp [rational, UnpackedFloat.mul])
  · have hreads := reads_exact (m * n)
    rw [← mul_div_cancel_right₀ (((m * n : ℕ)) : ℚ) (two_zpow_pos (e + f)).ne'] at hreads
    obtain ⟨hc, hf, hr⟩ := roundWithAccuracy_spec (s * t) (Nat.mul_pos hm hn) hreads
      (le_lastPlace_mul hcx hcy)
    refine rounds_ofUnpacked hc hf ?_
    rw [UnpackedFloat.mul, hr, apply_mul_nearest, apply_mul, rational_finite, rational_finite,
      zpow_add₀ (by norm_num)]
    push_cast
    congr 1
    ring

/-- The exponent that a quotient is computed at leaves no bit of its last place out. -/
theorem divCore_le_lastPlace {m n : ℕ} (e f : ℤ) (hm : 0 < m) (hn : 0 < n) :
    (divCore Format.binary64 m e n f).2.1 ≤ lastPlace (m * 2 ^ e / (n * 2 ^ f)) := by
  have hm' : (0 : ℚ) < m := by exact_mod_cast hm
  have hn' : (0 : ℚ) < n := by exact_mod_cast hn
  have hpos : (0 : ℚ) < m * 2 ^ e / (n * 2 ^ f) :=
    div_pos (mul_pos hm' (two_zpow_pos e)) (mul_pos hn' (two_zpow_pos f))
  have hlog : (m.log2 : ℤ) + e - ((n.log2 : ℤ) + 1 + f) ≤
      Int.log 2 ((m : ℚ) * 2 ^ e / (n * 2 ^ f)) := by
    refine (Int.zpow_le_iff_le_log (by norm_num) hpos).mp ?_
    have hnum : (2 : ℚ) ^ (m.log2 : ℤ) ≤ m := by
      rw [zpow_natCast]
      exact_mod_cast Nat.log2_self_le hm.ne'
    have hden : (n : ℚ) ≤ 2 ^ ((n.log2 : ℤ) + 1) := by
      have : n ≤ 2 ^ (n.log2 + 1) := Nat.lt_log2_self.le
      exact_mod_cast this
    push_cast
    rw [zpow_sub₀ (by norm_num), zpow_add₀ (by norm_num), zpow_add₀ (by norm_num) _ f]
    exact div_le_div₀ (mul_pos hm' (two_zpow_pos e)).le
      (mul_le_mul_of_nonneg_right hnum (two_zpow_pos e).le) (mul_pos hn' (two_zpow_pos f))
      (mul_le_mul_of_nonneg_right hden (two_zpow_pos f).le)
  rw [lastPlace, abs_of_pos hpos]
  simp only [divCore, Format.targetExponent, totalExponent, Format.mantissaBits, Format.minExponent]
  norm_num
  omega

/-- A quotient that does not underflow is computed with a positive mantissa, and read exactly. -/
theorem divCore_reads {m n : ℕ} {e f : ℤ} (hm : 0 < m) (hn : 0 < n)
    (hq : 2 ^ (-1074 : ℤ) ≤ (m : ℚ) * 2 ^ e / (n * 2 ^ f)) :
    0 < (divCore Format.binary64 m e n f).1 ∧
      Reads (.ofMantissaAndAccuracy (divCore Format.binary64 m e n f).1
          (divCore Format.binary64 m e n f).2.2)
        (m * 2 ^ e / (n * 2 ^ f) / 2 ^ (divCore Format.binary64 m e n f).2.1) := by
  have hle := divCore_le_lastPlace e f hm hn
  have hmin : (divCore Format.binary64 m e n f).2.1 ≤ e - f := min_le_left _ _
  have hmant : (divCore Format.binary64 m e n f).1
      = m <<< (e - f - (divCore Format.binary64 m e n f).2.1).toNat / n := rfl
  have hacc : (divCore Format.binary64 m e n f).2.2
      = accuracyOfFraction (m <<< (e - f - (divCore Format.binary64 m e n f).2.1).toNat % n) n :=
    rfl
  rw [hmant, hacc]
  generalize (divCore Format.binary64 m e n f).2.1 = t at *
  have hn' : (0 : ℚ) < n := by exact_mod_cast hn
  have hshift : ((m <<< (e - f - t).toNat : ℕ) : ℚ) / n = m * 2 ^ e / (n * 2 ^ f) / 2 ^ t := by
    have hcast : ((e - f - t).toNat : ℤ) = e - f - t := Int.toNat_of_nonneg (by omega)
    rw [Nat.shiftLeft_eq]
    push_cast
    rw [← zpow_natCast, hcast, zpow_sub₀ (by norm_num), zpow_sub₀ (by norm_num)]
    field_simp
  have hreads := reads_quotient (m <<< (e - f - t).toNat) hn
  rw [hshift] at hreads
  refine ⟨?_, hreads⟩
  -- the quotient has at least one unit of its exponent, or it would have underflowed
  have hpos := (two_zpow_pos (-1074)).trans_le hq
  have hone : 1 ≤ (m : ℚ) * 2 ^ e / (n * 2 ^ f) / 2 ^ t := by
    rw [one_le_div (two_zpow_pos t)]
    refine (zpow_le_zpow_right₀ (by norm_num) hle).trans ?_
    have hlog := Int.zpow_log_le_self (b := 2) (by norm_num) hpos
    rw [lastPlace, abs_of_pos hpos]
    rcases max_choice (Int.log 2 ((m : ℚ) * 2 ^ e / (n * 2 ^ f)) - 52) (-1074) with h | h <;> rw [h]
    · refine le_trans (zpow_le_zpow_right₀ (by norm_num) ?_) (by exact_mod_cast hlog)
      omega
    · exact hq
  rw [← hshift, one_le_div hn'] at hone
  exact Nat.div_pos (by exact_mod_cast hone) hn

/-- A quotient by a number that is not zero, unless it underflows. -/
theorem rounds_div {x y : Float} (hx : x.isFinite = true) (hy : y.isFinite = true)
    (hy0 : value y ≠ 0) (hq : value x ≠ 0 → 2 ^ (-1074 : ℤ) ≤ |value x / value y|) :
    Rounds (x / y) (value x / value y) := by
  show Rounds (ofUnpacked (UnpackedFloat.div _ x.toModel.unpack y.toModel.unpack)) _
  unfold value at *
  rcases unpack_of_isFinite hy with ⟨t, hv⟩ | ⟨t, n, f, hn, hv⟩
  · exact absurd (by rw [hv]; rfl) hy0
  rcases unpack_of_isFinite hx with ⟨s, hu⟩ | ⟨s, m, e, hm, hu⟩ <;> rw [hu, hv] at hq ⊢
  · exact rounds_ofUnpacked trivial rfl (by simp [rational, UnpackedFloat.div])
  · have hm' : (0 : ℚ) < m := by exact_mod_cast hm
    have hn' : (0 : ℚ) < n := by exact_mod_cast hn
    have hpos : (0 : ℚ) < m * 2 ^ e / (n * 2 ^ f) :=
      div_pos (mul_pos hm' (two_zpow_pos e)) (mul_pos hn' (two_zpow_pos f))
    have hquot : rational (.finite s m e hm) / rational (.finite t n f hn)
        = ((s / t).apply 1 : ℤ) * (m * 2 ^ e / (n * 2 ^ f)) := by
      rw [rational_finite, rational_finite, apply_div, mul_div_mul_comm]
    have habs : |rational (.finite s m e hm) / rational (.finite t n f hn)|
        = m * 2 ^ e / (n * 2 ^ f) := by
      rw [hquot, abs_mul, abs_of_pos hpos]
      generalize s / t = r
      cases r <;> simp [Sign.apply]
    have hne : rational (.finite s m e hm) ≠ 0 := by
      intro h0
      rw [h0, zero_div, abs_zero] at habs
      exact hpos.ne habs
    have hbound := hq hne
    rw [habs] at hbound
    obtain ⟨hmant, hreads⟩ := divCore_reads hm hn hbound
    obtain ⟨hc, hf, hr⟩ := roundWithAccuracy_spec (s / t) hmant hreads
      (divCore_le_lastPlace e f hm hn)
    refine rounds_ofUnpacked hc hf ?_
    rw [UnpackedFloat.div, hr, hquot, apply_mul_nearest]

/-- No number of at least 1 underflows when it is divided by one of at most `2 ^ 64`. -/
theorem rounds_div_of_one_le {x y : Float} (hx : x.isFinite = true) (hy : y.isFinite = true)
    (hx1 : value x ≠ 0 → 1 ≤ |value x|) (hy0 : value y ≠ 0) (hy64 : |value y| ≤ 2 ^ (64 : ℤ)) :
    Rounds (x / y) (value x / value y) := by
  refine rounds_div hx hy hy0 fun hx0 => ?_
  have hmin : (2 : ℚ) ^ (-1074 : ℤ) ≤ 2 ^ (-64 : ℤ) :=
    zpow_le_zpow_right₀ (by norm_num) (by norm_num)
  refine hmin.trans ?_
  rw [abs_div, zpow_neg, ← one_div]
  exact div_le_div₀ (abs_nonneg _) (hx1 hx0) (abs_pos.mpr hy0) hy64

/-! ## Counts -/

/-- A count of 64 bits is rounded to 53. -/
theorem rounds_toFloat (n : UInt64) : Rounds n.toFloat n.toNat := by
  obtain ⟨hc, hf, hr⟩ := normalize_spec (n.toNat : ℤ) 0 .positive
  rw [zpow_zero, mul_one, Int.cast_natCast] at hr
  exact rounds_ofUnpacked hc hf hr

/-- Counts up to `2 ^ 53` are exact. -/
theorem value_toFloat {n : UInt64} (hn : n.toNat ≤ 2 ^ 53) :
    n.toFloat.isFinite = true ∧ value n.toFloat = n.toNat := by
  rcases hn.lt_or_eq with hlt | heq
  · have habs : |(n.toNat : ℤ)| < 2 ^ 53 := by
      rw [Nat.abs_cast]
      exact_mod_cast hlt
    exact (rounds_toFloat n).exact (representable_intCast habs) (abs_intCast_lt habs)
  · have hpow : (n.toNat : ℚ) = 2 ^ (53 : ℤ) := by
      rw [heq]
      norm_num
    have h := rounds_toFloat n
    rw [hpow] at h ⊢
    refine h.exact (representable_two_zpow (by norm_num)) ?_
    rw [abs_of_pos (two_zpow_pos 53)]
    exact zpow_lt_zpow_right₀ (by norm_num) (by norm_num)

end Chiptune.Binary64
