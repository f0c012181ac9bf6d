import Chiptune.Frame
import Mathlib.Algebra.Order.Floor.Ring
import Mathlib.Data.Rat.Floor
import Mathlib.Tactic.LinearCombination
import Mathlib.Tactic.Linarith

/-!
# Folding is iterated reflection

Without rounding, folding is the triangle wave that is the identity on `[-1, 1]` and repeats every
4. All of it follows from what a value and the value that it folds to have to do with one another:
`v` folds to `s` when `s` is in range and `v` is a multiple of 4 away from `s` or from `2 - s`. At
most one `s` is like that, folding gives one, and reflecting `v` at a bound changes nothing about
it.

* `Amplitude.exact` and `foldExact`, folding in an ordered field;
* `FoldsTo` and `FoldsTo.abs_sub_le`, the relation and how far apart its values are;
* `foldsTo_foldExact`, what folding computes, and `exists_iterate_bounce`, what reflections reach;
* `fold_isIteratedReflection`, both are the same.
-/

namespace Chiptune

variable {K : Type} [Field K] [LinearOrder K]

/-! ## Without rounding -/

section

variable [FloorRing K]

/-- The whole part of a number, toward zero. -/
def towardZero (v : K) : ℤ := if v < 0 then ⌈v⌉ else ⌊v⌋

/-- Arithmetic without rounding, with a given sine and half turn. -/
@[reducible] def Amplitude.exact (sine : K → K) (halfTurn : K) : Amplitude K where
  ofCount n := n
  whole v := towardZero v
  sin := sine
  halfTurn := halfTurn
  decidableLT := inferInstance

/-- Folding without rounding. Neither a sine nor a turn takes part in it. -/
def foldExact (v : K) : K := @fold K (.exact id 0) v

end

/-- One reflection at a bound, of a value beyond it. -/
def bounce (v : K) : K := if 1 < v then 2 - v else if v < -1 then -2 - v else v

/-! ## What a value folds to -/

/-- `s` is in range, and `v` is a multiple of 4 away from `s` or from its reflection. -/
def FoldsTo (v s : K) : Prop := |s| ≤ 1 ∧ ∃ k : ℤ, v = s + 4 * k ∨ v = 2 - s + 4 * k

namespace FoldsTo

variable {v w s t : K}

theorem of_inRange (h : |v| ≤ 1) : FoldsTo v v := ⟨h, 0, Or.inl (by simp)⟩

theorem neg (h : FoldsTo v s) : FoldsTo (-v) (-s) := by
  obtain ⟨hs, k, rfl | rfl⟩ := h
  · exact ⟨by rwa [abs_neg], -k, Or.inl (by push_cast; ring)⟩
  · exact ⟨by rwa [abs_neg], -k - 1, Or.inr (by push_cast; ring)⟩

theorem add_four_mul (h : FoldsTo v s) (m : ℤ) : FoldsTo (v + 4 * m) s := by
  obtain ⟨hs, k, rfl | rfl⟩ := h
  · exact ⟨hs, k + m, Or.inl (by push_cast; ring)⟩
  · exact ⟨hs, k + m, Or.inr (by push_cast; ring)⟩

/-- A value folds to what its reflection folds to. -/
theorem of_bounce (h : FoldsTo (bounce v) s) : FoldsTo v s := by
  obtain ⟨hs, k, hk⟩ := h
  unfold bounce at hk
  split_ifs at hk
  · rcases hk with hk | hk
    · exact ⟨hs, -k, Or.inr (by push_cast; linear_combination -hk)⟩
    · exact ⟨hs, -k, Or.inl (by push_cast; linear_combination -hk)⟩
  · rcases hk with hk | hk
    · exact ⟨hs, -k - 1, Or.inr (by push_cast; linear_combination -hk)⟩
    · exact ⟨hs, -k - 1, Or.inl (by push_cast; linear_combination -hk)⟩
  · exact ⟨hs, k, hk⟩

theorem of_iterate {n : ℕ} (h : FoldsTo (bounce^[n] v) s) : FoldsTo v s := by
  induction n generalizing v with
  | zero => exact h
  | succ n ih => exact (ih h).of_bounce

variable [IsStrictOrderedRing K]

/-- Two values are at least as far apart as what they fold to. -/
theorem abs_sub_le (hv : FoldsTo v s) (hw : FoldsTo w t) : |s - t| ≤ |v - w| := by
  have hone : ∀ {v w s t : K}, FoldsTo v s → FoldsTo w t → s - t ≤ |v - w| := by
    rintro v w s t ⟨hs, k, hk⟩ ⟨ht, m, hm⟩
    rw [abs_le] at hs ht
    -- the multiples of 4 are equal or at least 4 apart
    have hle : (m : K) ≤ k ∨ (k : K) + 1 ≤ m := by exact_mod_cast le_or_gt m k
    have hge : (k : K) ≤ m ∨ (m : K) + 1 ≤ k := by exact_mod_cast le_or_gt k m
    rw [le_abs]
    rcases hk with rfl | rfl <;> rcases hm with rfl | rfl
    · exact hle.imp (fun _ => by linarith) (fun _ => by linarith)
    · exact hge.symm.imp (fun _ => by linarith) (fun _ => by linarith)
    · exact hle.imp (fun _ => by linarith) (fun _ => by linarith)
    · exact hge.symm.imp (fun _ => by linarith) (fun _ => by linarith)
  have hts := hone hw hv
  rw [abs_sub_comm] at hts
  exact abs_le.mpr ⟨by linarith, hone hv hw⟩

theorem unique (hs : FoldsTo v s) (ht : FoldsTo v t) : s = t := by
  have h := hs.abs_sub_le ht
  rwa [sub_self, abs_zero, abs_nonpos_iff, sub_eq_zero] at h

end FoldsTo

variable [IsStrictOrderedRing K]

/-! ## What reflections reach -/

/-- A reflection takes 2 off the distance from zero, down to 1. -/
theorem abs_bounce_le {v r : K} (hr : 1 ≤ r) (h : |v| ≤ r + 2) : |bounce v| ≤ r := by
  rw [abs_le] at *
  unfold bounce
  split_ifs <;> constructor <;> linarith

/-- Finitely many reflections bring every value into range. -/
theorem exists_iterate_bounce_of_le {v : K} (n : ℕ) (h : |v| ≤ 2 * n + 1) :
    ∃ m, |bounce^[m] v| ≤ 1 ∧ ∀ i < m, 1 < |bounce^[i] v| := by
  induction n generalizing v with
  | zero => exact ⟨0, by simpa using h, nofun⟩
  | succ n ih =>
    rcases le_or_gt |v| 1 with hin | hout
    · exact ⟨0, hin, nofun⟩
    · have hle : (1 : K) ≤ 2 * n + 1 := by linarith [n.cast_nonneg (α := K)]
      obtain ⟨m, hm, hbefore⟩ := ih (abs_bounce_le hle (by push_cast at h; linarith))
      refine ⟨m + 1, hm, fun i hi => ?_⟩
      cases i with
      | zero => exact hout
      | succ i => exact hbefore i (by omega)

variable [FloorRing K]

theorem exists_iterate_bounce (v : K) :
    ∃ m, |bounce^[m] v| ≤ 1 ∧ ∀ i < m, 1 < |bounce^[i] v| :=
  exists_iterate_bounce_of_le ⌈|v|⌉₊ (by linarith [Nat.le_ceil |v|, abs_nonneg v])

/-! ## What folding computes -/

theorem abs_sub_towardZero_lt (v : K) : |v - towardZero v| < 1 := by
  unfold towardZero
  rw [abs_lt]
  split_ifs
  · constructor <;> linarith [Int.ceil_lt_add_one v, Int.le_ceil v]
  · constructor <;> linarith [Int.lt_floor_add_one v, Int.floor_le v]

/-- Division by 4 leaves a remainder between 0 and 4. -/
theorem remainder_exact (v : K) : ∃ k : ℤ,
    @Amplitude.remainder K (.exact id 0) v (4 : ℕ) = v - 4 * k ∧ 0 ≤ v - 4 * k ∧ v - 4 * k < 4 := by
  have hwhole := abs_lt.mp (abs_sub_towardZero_lt (v / 4))
  set q := towardZero (v / 4) with hq
  have hr : @Amplitude.remainder K (.exact id 0) v (4 : ℕ)
      = if v - 4 * q < 0 then v - 4 * q + 4 else v - 4 * q := by
    rw [hq, ← Nat.cast_ofNat (R := K) (n := 4), ← Nat.cast_zero]
    rfl
  rw [hr]
  split_ifs with hneg
  · exact ⟨q - 1, by push_cast; ring, by push_cast; linarith, by push_cast; linarith⟩
  · exact ⟨q, rfl, not_lt.mp hneg, by linarith⟩

theorem magnitude_exact (v : K) : @Amplitude.magnitude K (.exact id 0) v = |v| := by
  have h : @Amplitude.magnitude K (.exact id 0) v = if v < 0 then -v else v := by
    rw [← Nat.cast_zero (R := K)]
    rfl
  rw [h]
  split_ifs with hneg
  · exact (abs_of_neg hneg).symm
  · exact (abs_of_nonneg (not_lt.mp hneg)).symm

/-- Unwinding takes off a multiple of 4 and leaves nothing more than 3 from zero. -/
theorem unwind_exact (v : K) : ∃ k : ℤ,
    v = @unwind K (.exact id 0) v + 4 * k ∧ |@unwind K (.exact id 0) v| ≤ 3 := by
  obtain ⟨k, hk, h0, h4⟩ := remainder_exact (v + 1)
  have hunwind : @unwind K (.exact id 0) v = if 3 < |v| then v + 1 - 4 * k - 1 else v := by
    rw [← hk, ← magnitude_exact, ← Nat.cast_one (R := K), ← Nat.cast_ofNat (R := K) (n := 3)]
    rfl
  rw [hunwind]
  split_ifs with hfar
  · exact ⟨k, by ring, abs_le.mpr ⟨by linarith, by linarith⟩⟩
  · exact ⟨0, by simp, not_lt.mp hfar⟩

omit [IsStrictOrderedRing K] in
theorem reflect_exact (v : K) : @reflect K (.exact id 0) v = bounce v := by
  have h : @reflect K (.exact id 0) v
      = if 1 < v then 1 - (v - 1) else if v < -1 then -1 - (v + 1) else v := by
    rw [← Nat.cast_one (R := K)]
    rfl
  rw [h, bounce]
  split_ifs <;> ring

/-- Folding gives what a value folds to. -/
theorem foldsTo_foldExact (v : K) : FoldsTo v (foldExact v) := by
  obtain ⟨k, hk, h3⟩ := unwind_exact v
  set u := @unwind K (.exact id 0) v
  have hfold : foldExact v = bounce u := reflect_exact u
  have hrange : |bounce u| ≤ 1 := abs_bounce_le le_rfl (by linarith)
  rw [hfold, hk]
  exact (FoldsTo.of_inRange hrange).of_bounce.add_four_mul k

theorem abs_foldExact_le (v : K) : |foldExact v| ≤ 1 := (foldsTo_foldExact v).1

theorem foldExact_of_inRange {v : K} (h : |v| ≤ 1) : foldExact v = v :=
  (foldsTo_foldExact v).unique (.of_inRange h)

/-- Folding brings every value into range, to where reflecting it at the bounds ends once it is in
range; and that it is, after finitely many reflections. So folding leaves alone what is in range, it
is odd, it repeats every 4, and it takes no two values farther apart than they are. -/
theorem fold_isIteratedReflection (v : K) :
    |foldExact v| ≤ 1 ∧
    (∃ n, bounce^[n] v = foldExact v ∧ ∀ i < n, 1 < |bounce^[i] v|) ∧
    (|v| ≤ 1 → foldExact v = v) ∧
    foldExact (-v) = -foldExact v ∧
    foldExact (v + 4) = foldExact v ∧
    ∀ w, |foldExact v - foldExact w| ≤ |v - w| := by
  have hv := foldsTo_foldExact v
  obtain ⟨n, hn, hbefore⟩ := exists_iterate_bounce v
  have hreached : bounce^[n] v = foldExact v := (FoldsTo.of_inRange hn).of_iterate.unique hv
  have hodd : foldExact (-v) = -foldExact v := (foldsTo_foldExact (-v)).unique hv.neg
  have hperiod : FoldsTo (v + 4) (foldExact v) := by
    have h := hv.add_four_mul 1
    rwa [Int.cast_one, mul_one] at h
  exact ⟨hv.1, ⟨n, hreached, hbefore⟩, foldExact_of_inRange, hodd,
    (foldsTo_foldExact (v + 4)).unique hperiod, fun w => hv.abs_sub_le (foldsTo_foldExact w)⟩

/-- A value that is reflected at both bounds, and one that is reflected at none. -/
theorem fold_overshootTwice :
    (∃ n, bounce^[n] (17 / 5 : ℚ) = foldExact (17 / 5) ∧ ∀ i < n, 1 < |bounce^[i] (17 / 5 : ℚ)|) ∧
    bounce^[2] (17 / 5 : ℚ) = -3 / 5 ∧ foldExact (17 / 5 : ℚ) = -3 / 5 ∧
    |foldExact (17 / 5) - foldExact (3 : ℚ)| ≤ |17 / 5 - 3| ∧
    foldExact (-1 : ℚ) = -1 := by
  obtain ⟨-, hreached, -, -, -, hnear⟩ := fold_isIteratedReflection (17 / 5 : ℚ)
  obtain ⟨-, -, hsame, -⟩ := fold_isIteratedReflection (-1 : ℚ)
  have hbounced : bounce^[2] (17 / 5 : ℚ) = -3 / 5 := by
    show bounce (bounce (17 / 5 : ℚ)) = -3 / 5
    norm_num [bounce]
  have hfolds : FoldsTo (17 / 5 : ℚ) (-3 / 5) := ⟨by norm_num [abs_le], 1, Or.inl (by norm_num)⟩
  exact ⟨hreached, hbounced, (foldsTo_foldExact _).unique hfolds, hnear 3, hsame (by norm_num)⟩

end Chiptune
