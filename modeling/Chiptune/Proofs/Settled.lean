import Chiptune.Proofs.Buffer
import Chiptune.Proofs.Folding

/-!
# Settled frames

Merging silence into a frame may change it: a channel beyond 1 is folded, and a negative zero loses
its sign. Frames that silence leaves alone are *settled*. Every frame that a buffer ever holds is
settled, because a buffer starts silent and merging keeps frames settled, whatever is merged.

* `Frame.Settled`, `Frame.Direct` and `LawfulFolding`, what the arithmetic has to provide;
* `Buffer.overlay_silence` and `Buffer.overlay_addAll`, merging by way of a buffer of its own;
* the instance for binary64 numbers, those that are not numbers included.
-/

namespace Chiptune

open Amplitude Binary64

/-- Merging the frame into silence gives the frame. -/
def Frame.Settled {R : Type} [Amplitude R] (frame : Frame R) : Prop :=
  Frame.silent.add frame = frame

/-- Merging the frame into silence first and then the result is merging the frame directly. -/
def Frame.Direct {R : Type} [Amplitude R] (frame : Frame R) : Prop :=
  ∀ a : Frame R, a.Settled → a.add (Frame.silent.add frame) = a.add frame

/-- Arithmetic in which merging keeps frames settled. -/
class LawfulFolding (R : Type) [Amplitude R] : Prop where
  settled_silent : (Frame.silent : Frame R).Settled
  settled_add (a b : Frame R) : a.Settled → (a.add b).Settled
  add_silent (a : Frame R) : a.Settled → a.add Frame.silent = a

/-! ## Buffers of settled frames -/

namespace Buffer

variable {R : Type} [Amplitude R]

/-- A settled buffer that is merged into silence stays as it is. -/
theorem overlay_silence {s : Buffer R} (hs : s.All Frame.Settled) (front : Buffer R) (n : ℕ) :
    overlay (front ++ silence (s.size + n)) s front.size
      = front ++ s ++ silence n := by
  refine Array.ext_getElem? fun i => ?_
  rw [getElem?_overlay, Array.append_assoc]
  rcases Nat.lt_or_ge i front.size with hfront | hfront
  · rw [if_neg (by omega), Array.getElem?_append_left hfront, Array.getElem?_append_left hfront]
  · rw [if_pos hfront, Array.getElem?_append_right hfront, Array.getElem?_append_right hfront,
      getElem?_silence]
    rcases Nat.lt_or_ge (i - front.size) s.size with hs' | hs'
    · rw [if_pos (by omega), Array.getElem?_append_left hs', Array.getElem?_eq_getElem hs']
      exact congrArg some (hs _ (Array.getElem_mem hs'))
    · rw [Array.getElem?_append_right hs', getElem?_silence, Array.getElem?_eq_none hs']
      split_ifs <;> first | rfl | omega

/-- A settled buffer is what it is when merged into silence of its own length. -/
theorem silence_overlay {s : Buffer R} (hs : s.All Frame.Settled) :
    (silence s.size).overlay s 0 = s := by
  have hzero : (silence 0 : Buffer R) = #[] := rfl
  have h := overlay_silence hs #[] 0
  rwa [hzero, Array.append_empty, Array.empty_append, Array.empty_append] at h

omit [Amplitude R] in
/-- Of frames for different places at most one is for a given place. -/
theorem filter_of_nodup {vs : List (ℕ × Frame R)} (h : (vs.map Prod.fst).Nodup) (j : ℕ) :
    vs.filter (·.1 = j) = [] ∨ ∃ v ∈ vs, vs.filter (·.1 = j) = [v] := by
  induction vs with
  | nil => exact Or.inl rfl
  | cons v vs ih =>
    rw [List.map_cons, List.nodup_cons] at h
    by_cases hv : v.1 = j
    · have hrest : vs.filter (·.1 = j) = [] := by
        rw [List.filter_eq_nil_iff]
        intro w hw hwj
        exact h.1 (List.mem_map.mpr ⟨w, hw, (of_decide_eq_true hwj).trans hv.symm⟩)
      exact Or.inr ⟨v, List.mem_cons_self, by
        rw [List.filter_cons_of_pos (by simpa using hv), hrest]⟩
    · rw [List.filter_cons_of_neg (by simpa using hv)]
      exact (ih h.2).imp_right fun ⟨w, hw, hfilter⟩ => ⟨w, List.mem_cons_of_mem v hw, hfilter⟩

/-- Frames for different places may as well be merged into silence first, if each of them may. -/
theorem overlay_addAll [LawfulFolding R] {target : Buffer R} (htarget : target.All Frame.Settled)
    {vs : List (ℕ × Frame R)} (hplaces : (vs.map Prod.fst).Nodup) (hvs : ∀ v ∈ vs, v.2.Direct) :
    target.overlay ((silence target.size).addAll vs) 0 = target.addAll vs := by
  refine Array.ext_getElem? fun j => ?_
  rw [getElem?_overlay, if_pos (Nat.zero_le j), Nat.sub_zero, getElem?_addAll, getElem?_addAll,
    getElem?_silence]
  cases hj : target[j]? with
  | none => rfl
  | some f =>
    have hlt : j < target.size := (Array.getElem?_eq_some_iff.mp hj).1
    have hf : f.Settled := all_iff.mp htarget j f hj
    rw [if_pos hlt]
    refine congrArg some ?_
    -- with two frames for one place the silence between them would fold the first one
    rcases filter_of_nodup hplaces j with hfilter | ⟨v, hv, hfilter⟩ <;> rw [hfilter]
    · exact LawfulFolding.add_silent f hf
    · exact hvs v hv f hf

end Buffer

/-! ## Binary64 -/

/-- The amplitude of silence is the zero without a sign. -/
theorem isPositiveZero_zero : IsPositiveZero (ofCount 0) := rfl

/-- A channel of a settled frame has been folded and is not the negative zero. -/
theorem settled_channel {v : Float} (hv : fold (ofCount 0 + v) = v) :
    fold v = v ∧ ¬IsNegativeZero v := by
  constructor
  · rw [← hv, fold_fold]
  · rw [← hv]
    exact not_isNegativeZero_fold fun h => isPositiveZero_zero.not_isNegativeZero h.of_add

/-- Folding anything but the negative zero settles it. -/
theorem zero_add_fold {v : Float} (hv : ¬IsNegativeZero v) :
    fold (ofCount 0 + fold v) = fold v := by
  rw [zero_add_of_not isPositiveZero_zero (not_isNegativeZero_fold hv), fold_fold]

instance : LawfulFolding Float where
  settled_silent := by
    have h := zero_add_fold isPositiveZero_zero.not_isNegativeZero
    have hzero : fold (ofCount 0 : Float) = ofCount 0 := by decide
    rw [hzero] at h
    exact congrArg₂ Frame.mk h h
  settled_add a b ha := by
    obtain ⟨-, hl⟩ := settled_channel (congrArg Frame.left ha)
    obtain ⟨-, hr⟩ := settled_channel (congrArg Frame.right ha)
    exact congrArg₂ Frame.mk (zero_add_fold fun h => hl h.of_add)
      (zero_add_fold fun h => hr h.of_add)
  add_silent a ha := by
    obtain ⟨hfl, hl⟩ := settled_channel (congrArg Frame.left ha)
    obtain ⟨hfr, hr⟩ := settled_channel (congrArg Frame.right ha)
    have hleft : fold (a.left + ofCount 0) = a.left := by
      rw [add_zero_of_not isPositiveZero_zero hl, hfl]
    have hright : fold (a.right + ofCount 0) = a.right := by
      rw [add_zero_of_not isPositiveZero_zero hr, hfr]
    exact congrArg₂ Frame.mk hleft hright

/-- Both channels are in range. -/
def Frame.InRange (frame : Frame Float) : Prop :=
  Chiptune.InRange frame.left ∧ Chiptune.InRange frame.right

/-- Both channels are finite. -/
def Frame.IsFinite (frame : Frame Float) : Prop :=
  frame.left.isFinite = true ∧ frame.right.isFinite = true

/-- Silence leaves a frame in range as it is, but for the sign of a zero, which is lost anyway. -/
theorem Frame.InRange.direct {b : Frame Float} (hb : b.InRange) : b.Direct := by
  intro a ha
  have hchannel : ∀ {v w : Float}, fold (ofCount 0 + v) = v → Chiptune.InRange w →
      fold (v + fold (ofCount 0 + w)) = fold (v + w) := by
    intro v w hv hw
    by_cases hzero : IsNegativeZero w
    · have hfold : fold (ofCount 0 : Float) = ofCount 0 := by decide
      rw [add_negativeZero _ hzero, hfold,
        add_zero_of_not isPositiveZero_zero (settled_channel hv).2, add_negativeZero v hzero]
    · rw [zero_add_of_not isPositiveZero_zero hzero, fold_of_inRange hw]
  exact congrArg₂ Frame.mk (hchannel (congrArg Frame.left ha) hb.1)
    (hchannel (congrArg Frame.right ha) hb.2)

end Chiptune
