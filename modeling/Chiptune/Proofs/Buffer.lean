import Chiptune.Buffer
import Mathlib.Order.Nat
import Mathlib.Tactic.Common

/-!
# What merging does to a buffer

Frame by frame, merging is `Frame.add`: overlaying adds the frame that comes to lie there, and a
list of frames with their places adds those of one place in the order of the list. No operation
changes the length of a buffer.

* `getElem?_addAt`, `getElem?_overlay`, `getElem?_echo` and `getElem?_addAll`, the frames
  afterwards, and `getElem?_addAll_within` for frames that follow one another;
* `All`, a property of every frame, and what it takes to keep it;
* `AgreeBelow`, two buffers that start alike, and what keeps them so.
-/

namespace Chiptune.Buffer

variable {R : Type} [Amplitude R]

/-! ## Lengths -/

@[simp] theorem size_silence (n : ℕ) : (silence n : Buffer R).size = n := Array.size_replicate

@[simp] theorem size_addAt (b : Buffer R) (i : ℕ) (f : Frame R) : (b.addAt i f).size = b.size :=
  Array.size_modify

@[simp] theorem size_overlayFrom (t s : Buffer R) (offset i : ℕ) :
    (t.overlayFrom s offset i).size = t.size := by
  fun_induction overlayFrom t s offset i with
  | case1 t i h ih => rw [ih, size_addAt]
  | case2 t i h => rfl

@[simp] theorem size_overlay (t s : Buffer R) (offset : ℕ) : (t.overlay s offset).size = t.size :=
  size_overlayFrom t s offset 0

@[simp] theorem size_echoBelow (b : Buffer R) (delay : ℕ) (decay : R) (n : ℕ) :
    (b.echoBelow delay decay n).size = b.size := by
  induction n generalizing b with
  | zero => rfl
  | succ n ih =>
    rw [echoBelow]
    split
    · rw [ih, size_addAt]
    · exact ih b

@[simp] theorem size_echo (b : Buffer R) (delay : ℕ) (decay : R) :
    (b.echo delay decay).size = b.size := by
  unfold echo
  split_ifs
  · rfl
  · exact size_echoBelow b delay decay _

/-! ## Frames -/

theorem getElem?_silence (n i : ℕ) :
    (silence n : Buffer R)[i]? = if i < n then some Frame.silent else none :=
  Array.getElem?_replicate

theorem getElem?_addAt (b : Buffer R) (i j : ℕ) (f : Frame R) :
    (b.addAt i f)[j]? = if i = j then b[j]?.map (·.add f) else b[j]? :=
  Array.getElem?_modify

theorem getElem?_overlayFrom (t s : Buffer R) (offset i j : ℕ) :
    (t.overlayFrom s offset i)[j]? =
      if offset + i ≤ j then t[j]?.map fun f => (s[j - offset]?).elim f f.add else t[j]? := by
  fun_induction overlayFrom t s offset i with
  | case1 t i h ih =>
    rw [ih, getElem?_addAt]
    rcases lt_trichotomy (offset + i) j with hlt | rfl | hgt
    · rw [if_pos (by omega), if_pos hlt.le, if_neg hlt.ne]
    · rw [if_neg (by omega), if_pos rfl, if_pos le_rfl, Nat.add_sub_cancel_left,
        Array.getElem?_eq_getElem h]
      rfl
    · rw [if_neg (by omega), if_neg hgt.ne', if_neg (by omega)]
  | case2 t i h =>
    split_ifs with hle
    · have hnone : s[j - offset]? = none := Array.getElem?_eq_none (by omega)
      rw [hnone]
      simp
    · rfl

/-- Overlaying adds the frame that comes to lie there, if there is one. -/
theorem getElem?_overlay (t s : Buffer R) (offset j : ℕ) :
    (t.overlay s offset)[j]? =
      if offset ≤ j then t[j]?.map fun f => (s[j - offset]?).elim f f.add else t[j]? :=
  getElem?_overlayFrom t s offset 0 j

/-- The echo of a frame is merged into the frame `delay` later, and no echo is echoed again. -/
theorem getElem?_echoBelow (b : Buffer R) (delay : ℕ) (decay : R) (n j : ℕ) :
    (b.echoBelow delay decay n)[j]? =
      if delay ≤ j ∧ j - delay < n then
        b[j]?.map fun f => (b[j - delay]?).elim f fun g => f.add (g.scale decay)
      else b[j]? := by
  induction n generalizing b with
  | zero => rw [echoBelow, if_neg (by omega)]
  | succ n ih =>
    rw [echoBelow]
    split
    -- the frames that are still to be echoed lie below the one that has just been written
    · rename_i frame hframe
      rw [ih, getElem?_addAt, getElem?_addAt]
      by_cases hj : n + delay = j
      · have hsource : j - delay = n := by omega
        rw [if_neg (by omega), if_pos hj, if_pos (by omega), hsource, hframe]
        rfl
      · rw [if_neg hj]
        by_cases hecho : delay ≤ j ∧ j - delay < n
        · rw [if_pos hecho, if_neg (by omega), if_pos (by omega)]
        · rw [if_neg hecho, if_neg (by omega)]
    · rename_i hframe
      have hsize : b.size ≤ n := Array.getElem?_eq_none_iff.mp hframe
      rw [ih]
      by_cases hj : j < n + delay
      · by_cases hecho : delay ≤ j ∧ j - delay < n
        · rw [if_pos hecho, if_pos (by omega)]
        · rw [if_neg hecho, if_neg (by omega)]
      · rw [Array.getElem?_eq_none (by omega : b.size ≤ j)]
        split_ifs <;> rfl

/-- Echoing merges into every frame the one `delay` before it as it was. -/
theorem getElem?_echo (b : Buffer R) (delay : ℕ) (decay : R) (j : ℕ) :
    (b.echo delay decay)[j]? =
      if 0 < delay ∧ delay ≤ j then
        b[j]?.map fun f => (b[j - delay]?).elim f fun g => f.add (g.scale decay)
      else b[j]? := by
  unfold echo
  by_cases hj : j < b.size
  · split_ifs with hnone hecho hecho
    · omega
    · rfl
    · rw [getElem?_echoBelow, if_pos (by omega)]
    · rw [getElem?_echoBelow, if_neg (by omega)]
  · have hnone : b[j]? = none := Array.getElem?_eq_none (by omega)
    split_ifs <;> simp [getElem?_echoBelow, hnone]

/-- Merges frames at their places, in order. -/
def addAll (b : Buffer R) (voices : List (ℕ × Frame R)) : Buffer R :=
  voices.foldl (fun b v => b.addAt v.1 v.2) b

theorem addAll_append (b : Buffer R) (vs ws : List (ℕ × Frame R)) :
    b.addAll (vs ++ ws) = (b.addAll vs).addAll ws :=
  List.foldl_append

@[simp] theorem size_addAll (b : Buffer R) (vs : List (ℕ × Frame R)) :
    (b.addAll vs).size = b.size := by
  induction vs generalizing b with
  | nil => rfl
  | cons v vs ih => exact (ih (b.addAt v.1 v.2)).trans (size_addAt b v.1 v.2)

/-- A place receives the frames that are for it, in order. -/
theorem getElem?_addAll (b : Buffer R) (vs : List (ℕ × Frame R)) (j : ℕ) :
    (b.addAll vs)[j]?
      = b[j]?.map fun f => (vs.filter (·.1 = j)).foldl (fun f v => f.add v.2) f := by
  induction vs generalizing b with
  | nil => exact Option.map_id'.symm
  | cons v vs ih =>
    have hstep : b.addAll (v :: vs) = (b.addAt v.1 v.2).addAll vs := rfl
    rw [hstep, ih, getElem?_addAt]
    by_cases hv : v.1 = j
    · rw [if_pos hv, List.filter_cons_of_pos (by simpa using hv), Option.map_map]
      rfl
    · rw [if_neg hv, List.filter_cons_of_neg (by simpa using hv)]

/-- Frames that are merged one after the other from a place on meet one frame each. -/
theorem getElem?_addAll_range (b : Buffer R) (first count : ℕ) (frameOf : ℕ → Frame R) (j : ℕ) :
    (b.addAll ((List.range count).map fun k => (first + k, frameOf k)))[j]?
      = if first ≤ j ∧ j < first + count then b[j]?.map (·.add (frameOf (j - first)))
        else b[j]? := by
  induction count with
  | zero => rw [if_neg (by omega)]; rfl
  | succ count ih =>
    rw [List.range_succ, List.map_append, addAll_append]
    show ((b.addAll _).addAt (first + count) (frameOf count))[j]? = _
    rw [getElem?_addAt, ih]
    -- the last frame meets one that none before it has met
    by_cases hlast : first + count = j
    · have hplace : j - first = count := by omega
      rw [if_pos hlast, if_neg (by omega), if_pos (by omega), hplace]
    · rw [if_neg hlast]
      by_cases hj : first ≤ j ∧ j < first + count
      · rw [if_pos hj, if_pos (by omega)]
      · rw [if_neg hj, if_neg (by omega)]

/-- Those past the end of a buffer can be left out. -/
theorem getElem?_addAll_within (b : Buffer R) (first count : ℕ) (frameOf : ℕ → Frame R) (j : ℕ) :
    (b.addAll ((List.range (min count (b.size - first))).map fun k =>
        (first + k, frameOf k)))[j]?
      = if first ≤ j ∧ j < first + count then b[j]?.map (·.add (frameOf (j - first)))
        else b[j]? := by
  rw [getElem?_addAll_range]
  rcases Nat.lt_or_ge j b.size with hj | hj
  · have hwithin : (first ≤ j ∧ j < first + min count (b.size - first)) ↔
        first ≤ j ∧ j < first + count := by omega
    rw [if_congr hwithin rfl rfl]
  · rw [Array.getElem?_eq_none hj]
    exact (ite_self _).trans (ite_self _).symm

/-! ## Properties of every frame -/

/-- Every frame has the property. -/
def All {R : Type} (P : Frame R → Prop) (b : Buffer R) : Prop := ∀ f ∈ b, P f

variable {P Q : Frame R → Prop}

omit [Amplitude R] in
theorem all_iff {b : Buffer R} : All P b ↔ ∀ (i : ℕ) (f : Frame R), b[i]? = some f → P f := by
  simp only [All, Array.mem_iff_getElem?]
  exact ⟨fun h i f hf => h f ⟨i, hf⟩, fun h f ⟨i, hf⟩ => h i f hf⟩

theorem all_silence (n : ℕ) (h : P Frame.silent) : All P (silence n : Buffer R) := by
  intro f hf
  rwa [Array.eq_of_mem_replicate hf]

theorem All.addAt {b : Buffer R} (hb : All P b) (i : ℕ) {g : Frame R}
    (hg : ∀ f, P f → P (f.add g)) : All P (b.addAt i g) := by
  rw [all_iff] at *
  intro j f hf
  rw [getElem?_addAt] at hf
  split_ifs at hf
  · obtain ⟨f', hf', rfl⟩ := Option.map_eq_some_iff.mp hf
    exact hg f' (hb j f' hf')
  · exact hb j f hf

theorem All.addAll {b : Buffer R} (hb : All P b) {vs : List (ℕ × Frame R)}
    (hvs : ∀ v ∈ vs, ∀ f, P f → P (f.add v.2)) : All P (b.addAll vs) := by
  induction vs generalizing b with
  | nil => exact hb
  | cons v vs ih =>
    exact ih (hb.addAt v.1 (hvs v List.mem_cons_self))
      fun w hw => hvs w (List.mem_cons_of_mem v hw)

theorem All.overlay {t s : Buffer R} (ht : All P t) (hs : All Q s) (offset : ℕ)
    (hadd : ∀ f g, P f → Q g → P (f.add g)) : All P (t.overlay s offset) := by
  rw [all_iff] at *
  intro j f hf
  rw [getElem?_overlay] at hf
  split_ifs at hf
  · obtain ⟨f', hf', rfl⟩ := Option.map_eq_some_iff.mp hf
    cases hg : s[j - offset]? with
    | none => exact ht j f' hf'
    | some g => exact hadd f' g (ht j f' hf') (hs _ g hg)
  · exact ht j f hf

theorem All.echoBelow {b : Buffer R} (hb : All P b) (delay : ℕ) (decay : R) (n : ℕ)
    (hadd : ∀ f g, P f → P g → P (f.add (g.scale decay))) :
    All P (b.echoBelow delay decay n) := by
  induction n generalizing b with
  | zero => exact hb
  | succ n ih =>
    rw [Buffer.echoBelow]
    split
    · rename_i g hg
      exact ih (hb.addAt _ fun f hf => hadd f g hf (all_iff.mp hb n g hg))
    · exact ih hb

theorem All.echo {b : Buffer R} (hb : All P b) (delay : ℕ) (decay : R)
    (hadd : ∀ f g, P f → P g → P (f.add (g.scale decay))) : All P (b.echo delay decay) := by
  unfold Buffer.echo
  split_ifs
  · exact hb
  · exact hb.echoBelow delay decay _ hadd

/-! ## Buffers that start alike -/

/-- Two buffers have the same frames below `n`. -/
def AgreeBelow {R : Type} (n : ℕ) (b d : Buffer R) : Prop := ∀ j < n, b[j]? = d[j]?

namespace AgreeBelow

variable {n : ℕ} {b d s t : Buffer R}

omit [Amplitude R] in
theorem refl (n : ℕ) (b : Buffer R) : AgreeBelow n b b := fun _ _ => rfl

omit [Amplitude R] in
theorem symm (hbd : AgreeBelow n b d) : AgreeBelow n d b := fun j hj => (hbd j hj).symm

omit [Amplitude R] in
theorem trans {e : Buffer R} (hbd : AgreeBelow n b d) (hde : AgreeBelow n d e) :
    AgreeBelow n b e :=
  fun j hj => (hbd j hj).trans (hde j hj)

omit [Amplitude R] in
/-- A buffer that agrees with another one up to its end is where that one starts. -/
theorem isPrefix (h : AgreeBelow b.size b d) : b.toList <+: d.toList := by
  rw [List.prefix_iff_getElem?]
  intro i hi
  have hframe := h i hi
  rw [Array.getElem?_eq_getElem hi] at hframe
  rw [Array.getElem?_toList, ← hframe]
  rfl

/-- Silences are alike up to the end of the shorter one. -/
theorem silence {m k : ℕ} (hm : n ≤ m) (hk : n ≤ k) :
    AgreeBelow n (Buffer.silence m : Buffer R) (Buffer.silence k) := by
  intro j hj
  rw [getElem?_silence, getElem?_silence, if_pos (by omega), if_pos (by omega)]

/-- Merging what agrees below `n` keeps buffers alike: nothing is moved to the front. -/
theorem overlay (hbd : AgreeBelow n b d) (hst : AgreeBelow n s t) (offset : ℕ) :
    AgreeBelow n (b.overlay s offset) (d.overlay t offset) := by
  intro j hj
  rw [getElem?_overlay, getElem?_overlay, hbd j hj, hst (j - offset) (by omega)]

theorem echo (hbd : AgreeBelow n b d) (delay : ℕ) (decay : R) :
    AgreeBelow n (b.echo delay decay) (d.echo delay decay) := by
  intro j hj
  rw [getElem?_echo, getElem?_echo, hbd j hj, hbd (j - delay) (by omega)]

theorem addAll (hbd : AgreeBelow n b d) {vs ws : List (ℕ × Frame R)}
    (hvs : ∀ j < n, vs.filter (·.1 = j) = ws.filter (·.1 = j)) :
    AgreeBelow n (b.addAll vs) (d.addAll ws) := by
  intro j hj
  rw [getElem?_addAll, getElem?_addAll, hbd j hj, hvs j hj]

end AgreeBelow

end Chiptune.Buffer
