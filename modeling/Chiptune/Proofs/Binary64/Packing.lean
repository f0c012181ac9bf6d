import Chiptune.Proofs.Binary64.Unpacked

/-!
# Packing binary64 numbers

A binary64 number is stored as 64 bits: a sign, eleven bits of exponent and 52 bits of mantissa.
Every operation unpacks its operands and packs its result, so what is known of unpacked numbers
reaches the stored ones through two facts: unpacked bits are canonical, and packing and unpacking a
canonical number below the overflow threshold gives it back.
-/

namespace Chiptune.Binary64

open Float.Model Float.Model.UnpackedFloat

/-! ## Unpacking -/

theorem toNat_append {n k : ℕ} (a : BitVec n) (b : BitVec k) :
    (a ++ b).toNat = a.toNat * 2 ^ k + b.toNat := by
  rw [BitVec.toNat_append, ← Nat.shiftLeft_add_eq_or_of_lt b.isLt, Nat.shiftLeft_eq]

/-- What a canonical number comes to in the eleven bits of its exponent. -/
theorem Canonical.exponent_le {s : Sign} {m : ℕ} {e : ℤ} {hm : 0 < m}
    (hu : Canonical (.finite s m e hm)) (hlt : |rational (.finite s m e hm)| < 2 ^ (1024 : ℤ)) :
    e ≤ 971 := by
  obtain ⟨-, -, h52 | rfl⟩ := hu
  · by_contra he
    have hm' : (2 : ℚ) ^ (52 : ℤ) ≤ m := by exact_mod_cast h52
    have hge : (2 : ℚ) ^ (1024 : ℤ) ≤ m * 2 ^ e := by
      calc (2 : ℚ) ^ (1024 : ℤ) ≤ 2 ^ (52 + e) := zpow_le_zpow_right₀ (by norm_num) (by omega)
        _ = 2 ^ (52 : ℤ) * 2 ^ e := zpow_add₀ (by norm_num) _ _
        _ ≤ m * 2 ^ e := mul_le_mul_of_nonneg_right hm' (two_zpow_pos e).le
    rw [abs_rational] at hlt
    exact absurd hlt hge.not_gt
  · norm_num

/-- Unpacked bits are canonical, and their size is below the overflow threshold. -/
theorem unpack_spec (b : BitVec Format.binary64.numBits) :
    Canonical (unpack Format.binary64 b) ∧
      |rational (unpack Format.binary64 b)| < 2 ^ (1024 : ℤ) := by
  have hm : (unpackMantissa b).toNat < 2 ^ 52 := (unpackMantissa b).isLt
  have he : (unpackExponent b).toNat < 2 ^ 11 := (unpackExponent b).isLt
  have hfinite : ∀ (s : Sign) (m : ℕ) (e : ℤ) (hm : 0 < m), m < 2 ^ 53 → e ≤ 971 →
      |rational (.finite s m e hm)| < 2 ^ (1024 : ℤ) := by
    intro s m e hm hlt hle
    have hm' : (m : ℚ) < 2 ^ (53 : ℤ) := by exact_mod_cast hlt
    rw [abs_rational]
    calc m * (2 : ℚ) ^ e < 2 ^ (53 : ℤ) * 2 ^ e := mul_lt_mul_of_pos_right hm' (two_zpow_pos e)
      _ = 2 ^ (53 + e) := (zpow_add₀ (by norm_num) _ _).symm
      _ ≤ 2 ^ (1024 : ℤ) := zpow_le_zpow_right₀ (by norm_num) (by omega)
  have hzero : |(0 : ℚ)| < 2 ^ (1024 : ℤ) := by rw [abs_zero]; exact two_zpow_pos _
  unfold UnpackedFloat.unpack
  simp only
  split_ifs with hinf hnan hsub h0
  · exact ⟨trivial, hzero⟩
  · exact ⟨trivial, hzero⟩
  · exact ⟨trivial, hzero⟩
  -- no leading one, the least exponent
  · have hexp : (unpackExponent b).toNat = 0 := by rw [hsub]; rfl
    simp only [Format.exponentBias, hexp]
    refine ⟨⟨by omega, by norm_num, Or.inr (by norm_num)⟩, hfinite _ _ _ _ (by omega) (by norm_num)⟩
  · have hne : (unpackExponent b).toNat ≠ 0 := fun h => hsub (BitVec.eq_of_toNat_eq h)
    have hne' : (unpackExponent b).toNat ≠ 2047 := fun h => hinf (BitVec.eq_of_toNat_eq h)
    have hmant : (1#1 ++ unpackMantissa b).toNat = 2 ^ 52 + (unpackMantissa b).toNat :=
      toNat_append _ _
    have hbias : ((unpackExponent b).toNat : ℤ) - ((Format.binary64.exponentBias : ℤ)
        + (Format.binary64.mantissaBitsWithoutImplicit : ℤ))
      = (unpackExponent b).toNat - 1075 := rfl
    rw [hbias]
    exact ⟨⟨by omega, by omega, Or.inl (by omega)⟩, hfinite _ _ _ _ (by omega) (by omega)⟩

/-! ## Packing -/

/-- The exponent field counts from the least exponent on. -/
theorem biased_exponent (e : ℤ) :
    (e + (Format.binary64.exponentBias : ℤ)
      + (Format.binary64.mantissaBitsWithoutImplicit : ℤ)).toNat = (e + 1075).toNat := by
  simp only [Format.exponentBias]
  norm_num
  omega

/-- A number below `2 ^ 52` units of the least exponent is stored with an exponent field of zero. -/
theorem pack_subnormal (s : Sign) {m : ℕ} (hm : 0 < m) (hsub : m < 2 ^ 52) :
    UnpackedFloat.pack Format.binary64 (.finite s m (-1074) hm)
      = packComponents Format.binary64 s 0#11 (BitVec.ofNat 52 m) := by
  have hlog : m.log2 + 1 ≠ Format.binary64.mantissaBits := by
    have := (Nat.log2_lt hm.ne').mpr hsub
    simp only [Format.mantissaBits]
    omega
  simp [UnpackedFloat.pack, hlog, Format.exponentBias]

/-- A number with all 53 bits is stored without the leading one. -/
theorem pack_normal (s : Sign) {m : ℕ} {e : ℤ} (hm : 0 < m) (hlead : 2 ^ 52 ≤ m) (h53 : m < 2 ^ 53)
    (hmin : -1074 ≤ e) (hmax : e ≤ 971) :
    UnpackedFloat.pack Format.binary64 (.finite s m e hm)
      = packComponents Format.binary64 s (BitVec.ofNat 11 (e + 1075).toNat)
          (BitVec.ofNat 52 m) := by
  have hbias := biased_exponent e
  have hfits : ¬ 2 ^ Format.binary64.exponentBits ≤ (e + 1075).toNat + 1 := by
    norm_num
    omega
  have hlog : m.log2 + 1 = Format.binary64.mantissaBits := by
    have := (Nat.log2_eq_iff hm.ne').mpr ⟨hlead, h53⟩
    simp only [Format.mantissaBits]
    omega
  unfold UnpackedFloat.pack
  simp only [hbias, if_neg hfits, if_pos hlog]

/-- Packing a canonical number below the overflow threshold loses nothing. -/
theorem unpack_pack {u : UnpackedFloat} (hu : Canonical u) (hlt : |rational u| < 2 ^ (1024 : ℤ)) :
    UnpackedFloat.unpack Format.binary64 (UnpackedFloat.pack Format.binary64 u) = u := by
  cases u with
  | notANumber => rfl
  | infinity s => cases s <;> rfl
  | zero s => cases s <;> rfl
  | finite s m e hm =>
    have hmax := hu.exponent_le hlt
    obtain ⟨h53, hmin, hlead⟩ := hu
    rcases lt_or_ge m (2 ^ 52) with hsub | hnormal
    · obtain rfl : e = -1074 := by omega
      have hmant : (BitVec.ofNat 52 m).toNat = m := by
        rw [BitVec.toNat_ofNat, Nat.mod_eq_of_lt hsub]
      have hne : BitVec.ofNat 52 m ≠ 0#52 := by
        intro h
        rw [h] at hmant
        exact hm.ne hmant
      rw [pack_subnormal s hm hsub]
      simp [UnpackedFloat.unpack, hne, hmant, Format.exponentBias]
    -- the exponent field is neither all zeros nor all ones, which unpack differently
    · have hexp : (BitVec.ofNat 11 (e + 1075).toNat).toNat = (e + 1075).toNat := by
        rw [BitVec.toNat_ofNat, Nat.mod_eq_of_lt (by omega)]
      have hzero : BitVec.ofNat 11 (e + 1075).toNat ≠ 0#11 := by
        intro h
        rw [h] at hexp
        simp only [BitVec.toNat_ofNat, Nat.zero_mod] at hexp
        omega
      have hones : BitVec.ofNat 11 (e + 1075).toNat ≠ 2047#11 := by
        intro h
        rw [h] at hexp
        simp only [BitVec.toNat_ofNat] at hexp
        omega
      have hmant : (1#1 ++ BitVec.ofNat 52 m).toNat = m := by
        rw [toNat_append, BitVec.toNat_ofNat]
        show 1 * 2 ^ 52 + m % 2 ^ 52 = m
        omega
      have hback : max (e + 1075) 0 - 1075 = e := by omega
      rw [pack_normal s hm hnormal h53 hmin hmax]
      simp [UnpackedFloat.unpack, hzero, hones, hmant, hexp, hback, Format.exponentBias]

end Chiptune.Binary64
