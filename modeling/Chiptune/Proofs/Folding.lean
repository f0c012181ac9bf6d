import Chiptune.Frame
import Chiptune.Proofs.Binary64.SignedZero
import Chiptune.Proofs.WholePart

/-!
# Folding binary64 amplitudes

Folding brings every finite number into `[-1, 1]` and leaves what is in there alone. The first half
is a chain of roundings between whole numbers, with one exact step in it: taking off whole multiples
of 4. What is not finite folds to something that is not a number.

* `remainder_four`, what is left of a multiple of 4;
* `fold_inRange`, the bound, and `fold_of_inRange`, the numbers that stay;
* `fold_fold`, folding twice, and `not_isNegativeZero_fold`, the zero that folding never makes.
-/

namespace Chiptune

open Amplitude Binary64

/-- A binary64 number in `[-1, 1]`. -/
def InRange (v : Float) : Prop := v.isFinite = true ∧ |value v| ≤ 1

/-! ## Multiples of 4 -/

/-- A quarter of a number of at least 1 has no more bits than the number. -/
theorem Binary64.Representable.quarter {r : ℚ} (hr : Representable r) (hone : 1 ≤ |r|) :
    Representable (r / 4) := by
  obtain ⟨m, e, hm, he, rfl⟩ := hr
  have he' : -1072 ≤ e := by
    by_contra hneg
    have hpow : (2 : ℚ) ^ e ≤ 2 ^ (-53 : ℤ) := zpow_le_zpow_right₀ (by norm_num) (by omega)
    have hm' : |(m : ℚ)| < 2 ^ 53 := by exact_mod_cast hm
    have hlt : |(m : ℚ)| * 2 ^ e < 2 ^ 53 * 2 ^ (-53 : ℤ) :=
      mul_lt_mul hm' hpow (two_zpow_pos e) (by norm_num)
    rw [abs_mul, abs_of_pos (two_zpow_pos e)] at hone
    norm_num at hlt
    linarith
  refine ⟨m, e - 2, hm, by omega, ?_⟩
  rw [zpow_sub₀ (by norm_num)]
  norm_num
  ring

theorem Binary64.Representable.four_mul {r : ℚ} (hr : Representable r) : Representable (4 * r) := by
  obtain ⟨m, e, hm, he, rfl⟩ := hr
  refine ⟨m, e + 2, hm, by omega, ?_⟩
  rw [zpow_add₀ (by norm_num)]
  norm_num
  ring

/-- The largest multiple of 4 toward zero is taken off exactly, up to the last subtraction. -/
theorem sub_four_mul_whole {w : Float} (hw : w.isFinite = true) (hone : 1 ≤ |value w|) :
    Rounds (w - 4 * whole (w / 4)) (value w - 4 * truncate (value w / 4)) := by
  obtain ⟨hf4, hv4⟩ := count_spec (n := 4) (by norm_num)
  push_cast at hv4
  have hlt := abs_value_lt w
  have hquarter : |value w / 4| < 2 ^ (1024 : ℤ) := by
    rw [abs_div, abs_of_pos (by norm_num : (0 : ℚ) < 4)]
    refine lt_of_le_of_lt (div_le_self (abs_nonneg _) (by norm_num)) hlt
  have hdiv := rounds_div_of_one_le hw hf4 (fun _ => hone) (by rw [hv4]; norm_num)
    (by rw [hv4]; norm_num)
  rw [hv4] at hdiv
  -- the quotient, its whole part and four times that are all representable
  obtain ⟨hfq, hvq⟩ := hdiv.exact ((representable_value w).quarter hone) hquarter
  obtain ⟨hfk, hvk⟩ := wholePart_spec hfq
  rw [hvq] at hvk
  have hmul := rounds_mul hf4 hfk
  rw [hv4, hvk] at hmul
  obtain ⟨hfm, hvm⟩ := hmul.exact (hvk ▸ (representable_value _).four_mul) (by
    refine lt_of_le_of_lt ?_ hlt
    have h := abs_truncate_le (value w / 4)
    rw [abs_div, abs_of_pos (by norm_num : (0 : ℚ) < 4), le_div_iff₀ (by norm_num)] at h
    rw [abs_mul, abs_of_pos (by norm_num : (0 : ℚ) < 4), mul_comm]
    exact h)
  have hsub := rounds_sub hw hfm
  rw [hvm] at hsub
  exact hsub

/-- What is left of a multiple of 4 lies between 0 and 4. -/
theorem remainder_four {w : Float} (hw : w.isFinite = true) (hone : 1 ≤ |value w|) :
    (remainder w 4).isFinite = true ∧ 0 ≤ value (remainder w 4) ∧ value (remainder w 4) ≤ 4 := by
  obtain ⟨hf0, hv0⟩ := count_spec (n := 0) (by norm_num)
  obtain ⟨hf4, hv4⟩ := count_spec (n := 4) (by norm_num)
  push_cast at hv0 hv4
  have hsub := sub_four_mul_whole hw hone
  have hbounds : -4 ≤ value w - 4 * truncate (value w / 4) ∧
      value w - 4 * truncate (value w / 4) ≤ 4 := by
    rcases lt_or_ge (value w / 4) 0 with hneg | hpos
    · obtain ⟨h₁, h₂⟩ := truncate_of_neg hneg
      constructor <;> linarith
    · obtain ⟨h₁, h₂⟩ := truncate_of_nonneg hpos
      constructor <;> linarith
  obtain ⟨hfr, hge, hle⟩ := hsub.between_int (-4) 4 (by norm_num) (by norm_num)
    (by exact_mod_cast hbounds.1) (by exact_mod_cast hbounds.2)
  push_cast at hge hle
  unfold remainder
  simp only
  split_ifs with hneg
  · have hneg' := (lt_iff hfr hf0).mp hneg
    rw [hv0] at hneg'
    have hadd := rounds_add hfr hf4
    rw [hv4] at hadd
    have h := hadd.between_int 0 4 (by norm_num) (by norm_num)
      (by push_cast; linarith) (by push_cast; linarith)
    exact_mod_cast h
  · have hnonneg := mt (lt_iff hfr hf0).mpr hneg
    rw [hv0, not_lt] at hnonneg
    exact ⟨hfr, hnonneg, hle⟩

/-! ## Folding into range -/

/-- A test for a magnitude above 3 looks at both signs. -/
theorem magnitude_spec {v : Float} (hv : v.isFinite = true) :
    (magnitude v).isFinite = true ∧ value (magnitude v) = |value v| := by
  obtain ⟨hf0, hv0⟩ := count_spec (n := 0) (by norm_num)
  push_cast at hv0
  unfold magnitude
  split_ifs with hneg
  · have hneg' := (lt_iff hv hf0).mp hneg
    rw [hv0] at hneg'
    exact ⟨isFinite_neg hv, by rw [abs_of_neg hneg']; exact value_neg v⟩
  · have hnonneg := mt (lt_iff hv hf0).mpr hneg
    rw [hv0, not_lt] at hnonneg
    exact ⟨hv, (abs_of_nonneg hnonneg).symm⟩

/-- Unwinding brings every finite number within 3 of zero. -/
theorem unwind_bounds {v : Float} (hv : v.isFinite = true) :
    (unwind v).isFinite = true ∧ |value (unwind v)| ≤ 3 := by
  obtain ⟨hf1, hv1⟩ := count_spec (n := 1) (by norm_num)
  obtain ⟨hf3, hv3⟩ := count_spec (n := 3) (by norm_num)
  obtain ⟨hfm, hvm⟩ := magnitude_spec hv
  push_cast at hv1 hv3
  unfold unwind
  split_ifs with hbig
  · have hbig' := (lt_iff hf3 hfm).mp hbig
    rw [hv3, hvm] at hbig'
    obtain ⟨hfw, hvw⟩ := finite_add hv hf1 (Or.inr (by rw [hv1]; norm_num))
    -- adding 1 may round, but not across 1 or -1
    have hone : 1 ≤ |value (v + ofCount 1)| := by
      rw [hvw, hv1, le_abs]
      rcases lt_abs.mp hbig' with h | h
      · left
        exact_mod_cast le_nearest (representable_intCast (n := 1) (by norm_num))
          (by push_cast; linarith)
      · right
        have := nearest_le (representable_intCast (n := -1) (by norm_num))
          (by push_cast; linarith : value v + 1 ≤ ((-1 : ℤ) : ℚ))
        push_cast at this
        linarith
    obtain ⟨hfr, hge, hle⟩ := remainder_four hfw hone
    have hsub := rounds_sub hfr hf1
    rw [hv1] at hsub
    obtain ⟨hf, h₁, h₂⟩ := hsub.between_int (-1) 3 (by norm_num) (by norm_num)
      (by push_cast; linarith) (by push_cast; linarith)
    push_cast at h₁ h₂
    have habs : |value (remainder (v + ofCount 1) 4 - ofCount 1)| ≤ 3 :=
      abs_le.mpr ⟨by linarith, h₂⟩
    exact ⟨hf, habs⟩
  · have hsmall := mt (lt_iff hf3 hfm).mpr hbig
    rw [hv3, hvm, not_lt] at hsmall
    exact ⟨hv, hsmall⟩

/-- One reflection brings a number within 3 of zero into range. -/
theorem reflect_inRange {v : Float} (hv : v.isFinite = true) (h3 : |value v| ≤ 3) :
    InRange (reflect v) := by
  obtain ⟨hf1, hv1⟩ := count_spec (n := 1) (by norm_num)
  push_cast at hv1
  have hfn : (-ofCount 1 : Float).isFinite = true := isFinite_neg hf1
  have hvn : value (-ofCount 1) = -1 := by rw [← hv1]; exact value_neg _
  rw [abs_le] at h3
  unfold reflect InRange
  rw [abs_le]
  split_ifs with hhigh hlow
  · have hhigh' := (lt_iff hf1 hv).mp hhigh
    rw [hv1] at hhigh'
    have hover := rounds_sub hv hf1
    rw [hv1] at hover
    -- an overshoot of at most 2 is reflected to no less than -1
    obtain ⟨hfo, h₁, h₂⟩ := hover.between_int 0 2 (by norm_num) (by norm_num)
      (by push_cast; linarith) (by push_cast; linarith)
    push_cast at h₁ h₂
    have hback := rounds_sub hf1 hfo
    rw [hv1] at hback
    have h := hback.between_int (-1) 1 (by norm_num) (by norm_num)
      (by push_cast; linarith) (by push_cast; linarith)
    exact_mod_cast h
  · have hlow' := (lt_iff hv hfn).mp hlow
    rw [hvn] at hlow'
    have hover := rounds_add hv hf1
    rw [hv1] at hover
    obtain ⟨hfo, h₁, h₂⟩ := hover.between_int (-2) 0 (by norm_num) (by norm_num)
      (by push_cast; linarith) (by push_cast; linarith)
    push_cast at h₁ h₂
    have hback := rounds_sub hfn hfo
    rw [hvn] at hback
    have h := hback.between_int (-1) 1 (by norm_num) (by norm_num)
      (by push_cast; linarith) (by push_cast; linarith)
    exact_mod_cast h
  · have h₁ := mt (lt_iff hf1 hv).mpr hhigh
    have h₂ := mt (lt_iff hv hfn).mpr hlow
    rw [hv1, not_lt] at h₁
    rw [hvn, not_lt] at h₂
    exact ⟨hv, h₂, h₁⟩

/-- Folding brings every finite number into range. -/
theorem fold_inRange {v : Float} (hv : v.isFinite = true) : InRange (fold v) :=
  reflect_inRange (unwind_bounds hv).1 (unwind_bounds hv).2

/-- What is in range stays as it is. -/
theorem fold_of_inRange {v : Float} (hv : InRange v) : fold v = v := by
  obtain ⟨hf, hle⟩ := hv
  obtain ⟨hf1, hv1⟩ := count_spec (n := 1) (by norm_num)
  obtain ⟨hf3, hv3⟩ := count_spec (n := 3) (by norm_num)
  obtain ⟨hfm, hvm⟩ := magnitude_spec hf
  push_cast at hv1 hv3
  have hfn : (-ofCount 1 : Float).isFinite = true := isFinite_neg hf1
  have hvn : value (-ofCount 1) = -1 := by rw [← hv1]; exact value_neg _
  have hunwind : unwind v = v := by
    refine if_neg fun hbig => ?_
    have hbig' := (lt_iff hf3 hfm).mp hbig
    rw [hv3, hvm] at hbig'
    linarith
  rw [abs_le] at hle
  rw [fold, hunwind]
  unfold reflect
  rw [if_neg, if_neg]
  · intro hlow
    have := (lt_iff hf hfn).mp hlow
    rw [hvn] at this
    linarith
  · intro hhigh
    have := (lt_iff hf1 hf).mp hhigh
    rw [hv1] at this
    linarith

/-! ## Folding twice -/

/-- What is not finite is one of two infinities or not a number. -/
theorem Binary64.eq_of_not_isFinite {v : Float} (hv : ¬v.isFinite = true) :
    v = ofUnpacked (.infinity .positive) ∨ v = ofUnpacked (.infinity .negative) ∨
      v = ofUnpacked .notANumber := by
  change ¬v.toModel.unpack.isFinite = true at hv
  rw [← ofUnpacked_unpack v]
  cases hu : v.toModel.unpack with
  | notANumber => exact Or.inr (Or.inr rfl)
  | infinity s =>
    cases s
    · exact Or.inr (Or.inl rfl)
    · exact Or.inl rfl
  | _ =>
    rw [hu] at hv
    exact absurd rfl hv

theorem fold_notANumber : fold (ofUnpacked .notANumber) = ofUnpacked .notANumber := by
  decide

/-- What is not finite folds to something that is not a number. -/
theorem fold_of_not_isFinite {v : Float} (hv : ¬v.isFinite = true) :
    fold v = ofUnpacked .notANumber := by
  rcases eq_of_not_isFinite hv with rfl | rfl | rfl <;> decide +kernel

/-- Folding twice is folding once. -/
theorem fold_fold (v : Float) : fold (fold v) = fold v := by
  by_cases hv : v.isFinite = true
  · exact fold_of_inRange (fold_inRange hv)
  · rw [fold_of_not_isFinite hv, fold_notANumber]

/-- Folding makes no negative zero. Whatever it does to a number is a sum or a difference that
starts from the number itself or from 1 or -1. -/
theorem not_isNegativeZero_fold {v : Float} (hv : ¬IsNegativeZero v) :
    ¬IsNegativeZero (fold v) := by
  have hunwind : ¬IsNegativeZero (unwind v) := by
    unfold unwind remainder
    simp only
    split_ifs
    · exact fun h => hv h.of_sub.of_add.of_sub.of_add
    · exact fun h => hv h.of_sub.of_sub.of_add
    · exact hv
  unfold fold reflect
  split_ifs
  · exact fun h => absurd h.of_sub nofun
  · exact fun h => absurd h.of_sub nofun
  · exact hunwind

end Chiptune
