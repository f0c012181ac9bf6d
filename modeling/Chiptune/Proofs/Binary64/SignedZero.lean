import Chiptune.Proofs.Binary64.Arithmetic

/-!
# The negative zero

Binary64 has two zeros, and adding a positive zero turns the negative one into it while it leaves
every other number alone. A sum is the negative zero only if both summands are, so that a sound that
starts from positive zeros never meets the negative one.

* `IsNegativeZero.of_add` and `IsNegativeZero.of_sub`, where a negative zero can come from;
* `zero_add_of_not` and `add_zero_of_not`, the numbers that a positive zero leaves alone;
* `isZero_iff` and `isZero_mul`, zeros of either sign.
-/

namespace Chiptune.Binary64

open Float.Model Float.Model.UnpackedFloat

/-- The zero with a sign. -/
def IsNegativeZero (x : Float) : Prop := x.toModel.unpack = .zero .negative

/-- What overflows is packed as an infinity. -/
theorem pack_overflow {s : Sign} {m : ℕ} {e : ℤ} {hm : 0 < m} (hu : Canonical (.finite s m e hm))
    (hge : 2 ^ (1024 : ℤ) ≤ |rational (.finite s m e hm)|) :
    UnpackedFloat.pack Format.binary64 (.finite s m e hm)
      = UnpackedFloat.pack Format.binary64 (.infinity s) := by
  have he : 971 < e := by
    by_contra hle
    have hm53 : (m : ℚ) < 2 ^ (53 : ℤ) := by exact_mod_cast hu.1
    have hlt : (m : ℚ) * 2 ^ e < 2 ^ (1024 : ℤ) := by
      calc (m : ℚ) * 2 ^ e < 2 ^ (53 : ℤ) * 2 ^ e := mul_lt_mul_of_pos_right hm53 (two_zpow_pos e)
        _ = 2 ^ (53 + e) := (zpow_add₀ (by norm_num) _ _).symm
        _ ≤ 2 ^ (1024 : ℤ) := zpow_le_zpow_right₀ (by norm_num) (by omega)
    rw [abs_rational] at hge
    exact absurd hlt hge.not_gt
  have hbias := biased_exponent e
  have hfits : 2 ^ Format.binary64.exponentBits ≤ (e + 1075).toNat + 1 := by
    norm_num
    omega
  unfold UnpackedFloat.pack
  simp only [hbias, if_pos hfits]

/-- Only the negative zero is packed as one. -/
theorem eq_of_isNegativeZero {u : UnpackedFloat} (hu : Canonical u)
    (h : IsNegativeZero (ofUnpacked u)) : u = .zero .negative := by
  rcases lt_or_ge |rational u| (2 ^ (1024 : ℤ)) with hlt | hge
  · exact (unpack_ofUnpacked hu hlt).symm.trans h
  · have hzero : |(0 : ℚ)| < 2 ^ (1024 : ℤ) := by
      rw [abs_zero]
      exact two_zpow_pos _
    cases u with
    | finite s m e hm =>
      have hinf : ofUnpacked (.finite s m e hm) = ofUnpacked (.infinity s) := by
        unfold ofUnpacked Float.Model.pack
        simp only [pack_overflow hu hge]
      rw [hinf] at h
      exact absurd ((unpack_ofUnpacked (u := .infinity s) trivial hzero).symm.trans h) nofun
    | _ => exact absurd hzero hge.not_gt

/-- A sum of two finite numbers never underflows, and when it is zero it is the positive one. -/
theorem normalize_ne_negativeZero (n : ℤ) {e : ℤ} (he : -1074 ≤ e) :
    UnpackedFloat.normalize Format.binary64 n e .positive ≠ .zero .negative := by
  intro h
  obtain ⟨-, -, hr⟩ := normalize_spec n e .positive
  rw [h] at hr
  have hn : n ≠ 0 := by
    rintro rfl
    rw [UnpackedFloat.normalize, Int.compare_eq_eq.mpr rfl] at h
    cases h
  have hmin : (2 : ℚ) ^ (-1074 : ℤ) ≤ |(n : ℚ) * 2 ^ e| := by
    rw [abs_mul, abs_of_pos (two_zpow_pos e)]
    have hone : (1 : ℚ) ≤ |(n : ℚ)| := by exact_mod_cast Int.one_le_abs hn
    calc (2 : ℚ) ^ (-1074 : ℤ) ≤ 2 ^ e := zpow_le_zpow_right₀ (by norm_num) he
      _ ≤ |(n : ℚ)| * 2 ^ e := le_mul_of_one_le_left (two_zpow_pos e).le hone
  have hpos := two_zpow_pos (-1074)
  have hrep := representable_two_zpow (e := -1074) le_rfl
  simp only [rational] at hr
  rcases le_abs.mp hmin with hge | hle
  · have := le_nearest hrep hge
    rw [← hr] at this
    exact hpos.not_ge this
  · have := le_nearest hrep hle
    rw [nearest_neg, ← hr, neg_zero] at this
    exact hpos.not_ge this

/-! ## Where a negative zero comes from -/

/-- A sum of canonical numbers is canonical, and the negative zero only if its first summand is. -/
theorem add_spec {u v : UnpackedFloat} (hu : Canonical u) (hv : Canonical v) :
    Canonical (UnpackedFloat.add Format.binary64 u v) ∧
      (UnpackedFloat.add Format.binary64 u v = .zero .negative → u = .zero .negative) := by
  cases u with
  | notANumber => exact ⟨trivial, nofun⟩
  | infinity s =>
    cases v with
    | infinity t => cases s <;> cases t <;> exact ⟨trivial, nofun⟩
    | _ => exact ⟨trivial, nofun⟩
  | zero s =>
    cases v with
    | zero t =>
      cases s
      · cases t <;> exact ⟨trivial, fun _ => rfl⟩
      · cases t <;> exact ⟨trivial, nofun⟩
    | finite t n f hn => exact ⟨hv, nofun⟩
    | _ => exact ⟨trivial, nofun⟩
  | finite s m e hm =>
    cases v with
    | finite t n f hn =>
      exact ⟨(normalize_spec _ _ _).1,
        fun h => absurd h (normalize_ne_negativeZero _ (le_min hu.2.1 hv.2.1))⟩
    | zero t => exact ⟨hu, nofun⟩
    | _ => exact ⟨trivial, nofun⟩

/-- A sum is the negative zero only if its first summand is. -/
theorem IsNegativeZero.of_add {x y : Float} (h : IsNegativeZero (x + y)) : IsNegativeZero x := by
  obtain ⟨hc, hsum⟩ := add_spec (canonical_unpack x) (canonical_unpack y)
  exact hsum (eq_of_isNegativeZero hc h)

/-- So is a difference. -/
theorem IsNegativeZero.of_sub {x y : Float} (h : IsNegativeZero (x - y)) : IsNegativeZero x := by
  rw [sub_eq_add] at h
  exact h.of_add

/-! ## What a positive zero does -/

/-- The zero without a sign. -/
def IsPositiveZero (x : Float) : Prop := x.toModel.unpack = .zero .positive

theorem IsPositiveZero.not_isNegativeZero {z : Float} (hz : IsPositiveZero z) :
    ¬IsNegativeZero z := by
  intro h
  exact absurd (hz.symm.trans h) nofun

/-- A positive zero may stand on either side. -/
theorem IsPositiveZero.add_comm {z : Float} (hz : IsPositiveZero z) (x : Float) :
    z + x = x + z := by
  show ofUnpacked (UnpackedFloat.add _ z.toModel.unpack x.toModel.unpack)
    = ofUnpacked (UnpackedFloat.add _ x.toModel.unpack z.toModel.unpack)
  unfold IsPositiveZero at hz
  rw [hz]
  cases x.toModel.unpack with
  | zero s => cases s <;> rfl
  | _ => rfl

/-- Adding a positive zero changes nothing but the negative zero. -/
theorem add_zero_of_not {z x : Float} (hz : IsPositiveZero z) (hx : ¬IsNegativeZero x) :
    x + z = x := by
  show ofUnpacked (UnpackedFloat.add _ x.toModel.unpack z.toModel.unpack) = x
  unfold IsPositiveZero at hz
  unfold IsNegativeZero at hx
  conv_rhs => rw [← ofUnpacked_unpack x]
  rw [hz]
  cases hu : x.toModel.unpack with
  | zero s =>
    cases s
    · exact absurd hu hx
    · rfl
  | _ => rfl

theorem zero_add_of_not {z x : Float} (hz : IsPositiveZero z) (hx : ¬IsNegativeZero x) :
    z + x = x := by
  rw [hz.add_comm, add_zero_of_not hz hx]

/-- Adding a negative zero changes nothing. -/
theorem add_negativeZero {z : Float} (x : Float) (hz : IsNegativeZero z) : x + z = x := by
  show ofUnpacked (UnpackedFloat.add _ x.toModel.unpack z.toModel.unpack) = x
  unfold IsNegativeZero at hz
  conv_rhs => rw [← ofUnpacked_unpack x]
  rw [hz]
  cases x.toModel.unpack with
  | zero s => cases s <;> rfl
  | _ => rfl

/-! ## Zeros of either sign -/

/-- One of the two zeros. -/
def IsZero (v : Float) : Prop := IsPositiveZero v ∨ IsNegativeZero v

theorem isZero_iff {v : Float} : IsZero v ↔ v.isFinite = true ∧ value v = 0 := by
  constructor
  · intro h
    have hunpack : ∃ s, v.toModel.unpack = .zero s := by
      rcases h with h | h <;> exact ⟨_, h⟩
    obtain ⟨s, hs⟩ := hunpack
    constructor
    · show v.toModel.unpack.isFinite = true
      rw [hs]
      rfl
    · rw [value, hs]
      rfl
  · rintro ⟨hf, hv⟩
    rcases unpack_of_isFinite hf with ⟨s, hs⟩ | ⟨s, m, e, hm, hs⟩
    · cases s
      · exact Or.inr hs
      · exact Or.inl hs
    · have hpos : 0 < |value v| := by
        rw [value, hs, abs_rational]
        exact mul_pos (by exact_mod_cast hm) (two_zpow_pos e)
      rw [hv, abs_zero] at hpos
      exact absurd hpos (lt_irrefl 0)

/-- A product with a zero is a zero. -/
theorem isZero_mul {v w : Float} (hv : v.isFinite = true) (hw : w.isFinite = true)
    (h : value v = 0 ∨ value w = 0) : IsZero (v * w) := by
  have hrounds := rounds_mul hv hw
  rw [mul_eq_zero.mpr h] at hrounds
  have hzero : Representable 0 := by exact_mod_cast representable_intCast (n := 0) (by norm_num)
  exact isZero_iff.mpr (hrounds.exact hzero (by rw [abs_zero]; exact two_zpow_pos _))

end Chiptune.Binary64
