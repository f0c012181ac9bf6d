import Chiptune.Proofs.Exact.Tone
import Chiptune.Proofs.Phrase.Draws
import Chiptune.Proofs.Phrase.Ears
import Chiptune.Proofs.Phrase.Solo
import Chiptune.Random.ChaCha

/-!
# Quiet mixes are plain sums

Merging folds after every addition, so that in general it matters in which order melodies are
merged. Without rounding it does not as long as nothing overshoots: if the distances from zero of
all solos add up to no more than 1 at every frame, so does every sum of some of them, and folding
leaves each sum alone. What is merged is then the sum of the solos, in any order.

* `Part.playAll_eq_overlays`, melodies without chance as buffers that are laid over one another;
* `Buffer.quiet_of_abs_level_le`, a bound for every buffer that keeps them quiet;
* `Buffer.level_foldl_overlay` and `Buffer.foldl_overlay`, quiet buffers laid over one another;
* `Phrase.render_isPlainSum`, the whole phrase.
-/

namespace Chiptune

/-! ## Solos laid over one another -/

section

variable {R : Type} [Amplitude R] {σ : Type} [RandomSource σ]

/-- The sound of a melody on its own. -/
def Melody.alone (step size : ℕ) (source : σ) (melody : Melody) : Buffer R :=
  ((Part.ofMelody step melody).play (Buffer.silence size) source).1

@[simp] theorem Melody.size_alone (step size : ℕ) (source : σ) (melody : Melody) :
    (melody.alone step size source : Buffer R).size = size :=
  (Part.size_play _ _ source).trans (Buffer.size_silence size)

/-- Melodies without chance are merged as they sound on their own, and draw nothing. -/
theorem Part.playAll_eq_overlays [LawfulFolding R] {step : ℕ} {melodies : List Melody}
    (hfree : ∀ melody ∈ melodies, melody.instrument.tone ≠ .noise)
    (hdry : ∀ melody ∈ melodies, melody.instrument.reverb.isEnabled = false →
      Span.InOrder (ofMelody step melody).spans ∧
        (ofMelody step melody).Sounds σ (Frame.Direct (R := R)))
    {buffer : Buffer R} (hbuffer : buffer.All Frame.Settled) (source : σ) :
    playAll (melodies.map (ofMelody step)) buffer source
      = ((melodies.map (Melody.alone step buffer.size source)).foldl (·.overlay · 0) buffer,
        source) := by
  induction melodies generalizing buffer with
  | nil => rfl
  | cons melody melodies ih =>
    rw [List.forall_mem_cons] at hfree hdry
    set part := ofMelody step melody
    have hunmoved := part.play_of_ne_noise hfree.1 (Buffer.silence buffer.size : Buffer R) source
      source
    have hplay := part.play_eq_overlay hdry.1 hbuffer source
    rw [hunmoved] at hplay
    -- the buffer that the first melody leaves is settled and as long as before
    have hsettled := part.all_play kept_settled (fun _ _ _ _ _ => trivial) hbuffer source
    rw [hplay] at hsettled
    rw [List.map_cons, playAll, hplay]
    simp only
    rw [ih hfree.2 hdry.2 hsettled, Buffer.size_overlay]
    rfl

/-- A melody without chance has its sound as a solo and draws nothing. -/
theorem Phrase.render_solo_of_ne_noise {phrase : Phrase} (hvalid : phrase.validate = .ok ())
    {melody : Melody} (hmelody : melody ∈ phrase.melodies)
    (hfree : melody.instrument.tone ≠ .noise) (hplayable : Part.Playable melody.pattern.steps)
    (source : σ) :
    (phrase.solo melody).render.outcome source
      = (.ok (melody.alone phrase.stepSize phrase.frameCount source : Buffer R), source) := by
  have hunmoved := (Part.ofMelody phrase.stepSize melody).play_of_ne_noise hfree
    (Buffer.silence phrase.frameCount : Buffer R) source source
  have hsolo := render_solo (R := R) hvalid hmelody hplayable source
  rw [hunmoved] at hsolo
  exact hsolo

theorem Buffer.size_foldl_overlay (buffers : List (Buffer R)) (b : Buffer R) :
    (buffers.foldl (·.overlay · 0) b).size = b.size := by
  induction buffers generalizing b with
  | nil => rfl
  | cons s buffers ih => exact (ih _).trans (size_overlay b s 0)

end

/-! ## Levels -/

namespace Buffer

variable {K : Type} [Field K]

/-- What an ear hears in a frame of a buffer, nothing past its end. -/
def level (ear : Ear) (buffer : Buffer K) (i : ℕ) : K := (buffer[i]?.map ear.hear).getD 0

/-- The sum of buffers, frame by frame. -/
def plainSum (size : ℕ) (buffers : List (Buffer K)) : Buffer K :=
  Array.ofFn fun i : Fin size =>
    ⟨(buffers.map (·.level .left i)).sum, (buffers.map (·.level .right i)).sum⟩

theorem level_of_lt {buffer : Buffer K} {i : ℕ} (hi : i < buffer.size) (ear : Ear) :
    buffer.level ear i = ear.hear buffer[i] := by
  rw [level, Array.getElem?_eq_getElem hi]
  rfl

theorem level_plainSum {size i : ℕ} (hi : i < size) (buffers : List (Buffer K)) (ear : Ear) :
    (plainSum size buffers).level ear i = (buffers.map (·.level ear i)).sum := by
  rw [level, plainSum, Array.getElem?_ofFn, dif_pos hi]
  cases ear <;> rfl

/-- Buffers of one length are equal if both ears hear the same at every frame. -/
theorem ext_level {b d : Buffer K} (hsize : b.size = d.size)
    (h : ∀ ear, ∀ i < b.size, b.level ear i = d.level ear i) : b = d := by
  refine Array.ext hsize fun i hb hd => ?_
  have hear := fun ear => h ear i hb
  simp only [level_of_lt hb, level_of_lt hd] at hear
  exact congrArg₂ Frame.mk (hear .left) (hear .right)

/-- The order of buffers does not matter to their sum. -/
theorem plainSum_perm (size : ℕ) {buffers others : List (Buffer K)} (h : buffers.Perm others) :
    plainSum size buffers = plainSum size others := by
  unfold plainSum
  congr 1
  funext i
  exact congrArg₂ Frame.mk (h.map _).sum_eq (h.map _).sum_eq

variable [LinearOrder K] [IsStrictOrderedRing K] [FloorRing K] {sine : K → K} {halfTurn : K}

/-- At every frame the distances of buffers from zero add up to no more than 1, for both ears. -/
def Quiet (size : ℕ) (buffers : List (Buffer K)) : Prop :=
  ∀ ear, ∀ i < size, (buffers.map fun buffer => |buffer.level ear i|).sum ≤ 1

omit [IsStrictOrderedRing K] [FloorRing K] in
theorem Quiet.perm {size : ℕ} {buffers others : List (Buffer K)} (h : Quiet size buffers)
    (hperm : buffers.Perm others) : Quiet size others := by
  intro ear i hi
  rw [← (hperm.map fun buffer => |buffer.level ear i|).sum_eq]
  exact h ear i hi

omit [FloorRing K] in
/-- Buffers are quiet if none is louder than its share of 1. -/
theorem quiet_of_abs_level_le {size : ℕ} {buffers : List (Buffer K)} {share : K}
    (hshare : buffers.length * share ≤ 1)
    (h : ∀ buffer ∈ buffers, ∀ ear i, |buffer.level ear i| ≤ share) : Quiet size buffers := by
  intro ear i _
  have hsum := List.sum_le_card_nsmul (buffers.map fun buffer => |buffer.level ear i|) share
    (List.forall_mem_map.mpr fun buffer hbuffer => h buffer hbuffer ear i)
  rw [List.length_map, nsmul_eq_mul] at hsum
  exact hsum.trans hshare

omit [FloorRing K] in
/-- An ear hears no more than the loudest channel of any frame. -/
theorem abs_level_le {buffer : Buffer K} {limit : K} (hlimit : 0 ≤ limit)
    (h : ∀ frame ∈ buffer, |frame.left| ≤ limit ∧ |frame.right| ≤ limit) (ear : Ear) (i : ℕ) :
    |buffer.level ear i| ≤ limit := by
  unfold level
  cases hframe : buffer[i]? with
  | none => exact abs_zero.trans_le hlimit
  | some frame =>
    obtain ⟨hl, hr⟩ := h frame (Array.mem_of_getElem? hframe)
    cases ear
    · exact hl
    · exact hr

omit [IsStrictOrderedRing K] in
/-- Overlaying adds levels and folds the sum. -/
theorem level_overlay {b s : Buffer K} (hsize : s.size = b.size) {i : ℕ} (hi : i < b.size)
    (ear : Ear) :
    (@overlay K (.exact sine halfTurn) b s 0).level ear i
      = foldExact (b.level ear i + s.level ear i) := by
  let := Amplitude.exact sine halfTurn
  have hs : i < s.size := hsize ▸ hi
  rw [level_of_lt hi, level_of_lt hs, level, getElem?_overlay, if_pos (Nat.zero_le i), Nat.sub_zero,
    Array.getElem?_eq_getElem hi, Array.getElem?_eq_getElem hs]
  exact ear.hear_add _ _

/-- Quiet buffers are added without a fold. -/
theorem level_foldl_overlay {buffers : List (Buffer K)} {b : Buffer K} {ear : Ear} {i : ℕ}
    (hi : i < b.size) (hsizes : ∀ s ∈ buffers, s.size = b.size)
    (hquiet : |b.level ear i| + (buffers.map fun s => |s.level ear i|).sum ≤ 1) :
    (buffers.foldl (@overlay K (.exact sine halfTurn) · · 0) b).level ear i
      = b.level ear i + (buffers.map (·.level ear i)).sum := by
  induction buffers generalizing b with
  | nil => rw [List.foldl_nil, List.map_nil, List.sum_nil, add_zero]
  | cons s buffers ih =>
    obtain ⟨hs, hsizes⟩ := List.forall_mem_cons.mp hsizes
    rw [List.map_cons, List.sum_cons] at hquiet
    have hrest : 0 ≤ (buffers.map fun s => |s.level ear i|).sum :=
      List.sum_nonneg (List.forall_mem_map.mpr fun _ _ => abs_nonneg _)
    have htriangle := abs_add_le (b.level ear i) (s.level ear i)
    have hstep : (@overlay K (.exact sine halfTurn) b s 0).level ear i
        = b.level ear i + s.level ear i := by
      rw [level_overlay hs hi, foldExact_of_inRange (by linarith)]
    have hsize := @size_overlay K (.exact sine halfTurn) b s 0
    rw [List.foldl_cons, ih (hsize ▸ hi) (fun t ht => (hsizes t ht).trans hsize.symm)
      (by rw [hstep]; linarith), hstep, List.map_cons, List.sum_cons, add_assoc]

omit [IsStrictOrderedRing K] in
variable (sine halfTurn) in
theorem level_silence (size : ℕ) (ear : Ear) (i : ℕ) :
    (@silence K (.exact sine halfTurn) size).level ear i = 0 := by
  let := Amplitude.exact sine halfTurn
  rw [level, getElem?_silence]
  split_ifs
  · exact (ear.hear_silent (R := K)).trans Nat.cast_zero
  · rfl

variable (sine halfTurn) in
/-- Quiet buffers that are laid over one another on silence are added. -/
theorem foldl_overlay {size : ℕ} {buffers : List (Buffer K)}
    (hsizes : ∀ s ∈ buffers, s.size = size) (hquiet : Quiet size buffers) :
    buffers.foldl (@overlay K (.exact sine halfTurn) · · 0)
      (@silence K (.exact sine halfTurn) size) = plainSum size buffers := by
  let := Amplitude.exact sine halfTurn
  have hsilence : (silence size : Buffer K).size = size := size_silence size
  have hsize : (buffers.foldl (·.overlay · 0) (silence size : Buffer K)).size = size :=
    (size_foldl_overlay buffers _).trans hsilence
  refine ext_level (hsize.trans Array.size_ofFn.symm) fun ear i hi => ?_
  rw [hsize] at hi
  have hnone := level_silence sine halfTurn size ear i
  have hlevels : |(silence size : Buffer K).level ear i|
      + (buffers.map fun s => |s.level ear i|).sum ≤ 1 := by
    rw [hnone, abs_zero, zero_add]
    exact hquiet ear i hi
  rw [level_foldl_overlay (hsilence.symm ▸ hi) (fun s hs => (hsizes s hs).trans hsilence.symm)
    hlevels, hnone, zero_add, level_plainSum hi]

end Buffer

/-! ## Phrases -/

namespace Phrase

variable {K : Type} [Field K] [LinearOrder K] [IsStrictOrderedRing K] [FloorRing K]
  {σ : Type} [RandomSource σ]

/-- The sound of a phrase without rounding, with a given sine and half turn. -/
def renderExact (sine : K → K) (halfTurn : K) (phrase : Phrase) : Performance σ (Buffer K) :=
  @render K (.exact sine halfTurn) σ _ phrase

/-- The phrase with other melodies. -/
def withMelodies (phrase : Phrase) (melodies : List Melody) : Phrase :=
  { phrase with melodies := melodies }

/-- Without rounding, chance and faulty notes every melody of a valid phrase has a solo, where a
note without reverb has to have a cycle of at most one step. If the distances of the solos from zero
add up to no more than 1 at every frame, the phrase is the sum of the solos, frame by frame, and so
is the phrase with its melodies in any other order. -/
theorem render_isPlainSum {sine : K → K} (hsine : ∀ x, |sine x| ≤ 1) (halfTurn : K)
    {phrase : Phrase} (hvalid : phrase.validate = .ok ()) (hfree : phrase.NoiseFree)
    (hplayable : ∀ melody ∈ phrase.melodies, Part.Playable melody.pattern.steps)
    (hdry : ∀ melody ∈ phrase.melodies, melody.instrument.reverb.isEnabled = false →
      Part.CyclesWithin phrase.stepSize melody.pattern.steps) (source : σ) :
    ∃ solo : Melody → Buffer K,
      (∀ melody ∈ phrase.melodies,
        ((phrase.solo melody).renderExact sine halfTurn).outcome source
          = (.ok (solo melody), source)) ∧
      (Buffer.Quiet phrase.frameCount (phrase.melodies.map solo) →
        ∀ melodies : List Melody, melodies.Perm phrase.melodies →
          ((phrase.withMelodies melodies).renderExact sine halfTurn).outcome source
            = (.ok (Buffer.plainSum phrase.frameCount (phrase.melodies.map solo)), source)) := by
  let := Amplitude.exact sine halfTurn
  have := Amplitude.lawfulFolding_exact sine halfTurn
  have hseparate : ∀ melody ∈ phrase.melodies, melody.instrument.reverb.isEnabled = false →
      Span.InOrder (Part.ofMelody phrase.stepSize melody).spans ∧
        (Part.ofMelody phrase.stepSize melody).Sounds σ (Frame.Direct (R := K)) := by
    intro melody hmelody hreverb
    refine ⟨Part.inOrder_ofMelody (hdry melody hmelody hreverb), ?_⟩
    intro span _ index hindex source
    exact (Instrument.frameAt_exact hsine (hfree melody hmelody) hindex source).direct
  refine ⟨Melody.alone phrase.stepSize phrase.frameCount source, fun melody hmelody =>
    render_solo_of_ne_noise hvalid hmelody (hfree melody hmelody) (hplayable melody hmelody) source,
    fun hquiet melodies hperm => ?_⟩
  have hmem : ∀ melody ∈ melodies, melody ∈ phrase.melodies := fun _ => hperm.mem_iff.mp
  obtain ⟨htiming, hgrid⟩ := validate_eq_ok.mp hvalid
  have hvalid' : (phrase.withMelodies melodies).validate = .ok () :=
    validate_eq_ok.mpr ⟨htiming, fun melody hmelody => hgrid melody (hmem melody hmelody)⟩
  have hrender := render_of_playable (R := K) hvalid'
    (fun melody hmelody => hplayable melody (hmem melody hmelody)) source
  have hplay := Part.playAll_eq_overlays (R := K)
    (fun melody hmelody => hfree melody (hmem melody hmelody))
    (fun melody hmelody => hseparate melody (hmem melody hmelody))
    (Buffer.all_silence phrase.frameCount LawfulFolding.settled_silent) source
  have hsum := Buffer.foldl_overlay sine halfTurn
    (List.forall_mem_map.mpr fun melody _ => Melody.size_alone phrase.stepSize phrase.frameCount
      source melody) (hquiet.perm (hperm.symm.map _))
  rw [Buffer.size_silence, hsum, Buffer.plainSum_perm _ (hperm.map _)] at hplay
  exact hrender.trans (congrArg (fun played => (Except.ok played.1, played.2)) hplay)

/-- Two voices of seven frames, the second one with a reverb that has no time to be heard. -/
def murmurPhrase : Phrase :=
  ⟨"murmur", 100000, 1, 2,
    [⟨{ name := "lead", tone := .square, pan := .left }, ⟨"both", [.note "C8", .note "A8"]⟩⟩,
      ⟨{ name := "low", tone := .triangle, reverb := .more }, ⟨"once", [.note "C6", .rest]⟩⟩]⟩

/-- Its notes exist, those without reverb are no longer than a step, and neither of its solos is
louder than a half. -/
theorem murmurPhrase_measures : ∀ melody ∈ murmurPhrase.melodies,
    (∀ s ∈ melody.pattern.steps, s = .rest ∨
      (Pitch.cycleLength s.token).toOption.any (fun frames =>
        melody.instrument.reverb.isEnabled || frames ≤ murmurPhrase.stepSize) = true) ∧
    (((murmurPhrase.solo melody).renderExact (fun _ => 0) 0).outcome
      (ChaCha.ofSeed 1)).1.toOption.any (fun buffer : Buffer ℚ =>
        buffer.all fun frame => |frame.left| ≤ 1 / 2 ∧ |frame.right| ≤ 1 / 2) = true := by
  decide +kernel

theorem murmurPhrase_cycles {melody : Melody} (hmelody : melody ∈ murmurPhrase.melodies)
    {name : String} (hname : Step.note name ∈ melody.pattern.steps) :
    ∃ frames, Pitch.cycleLength name = .ok frames ∧
      (melody.instrument.reverb.isEnabled || frames ≤ murmurPhrase.stepSize) = true :=
  exists_eq_ok_of_any
    (((murmurPhrase_measures melody hmelody).1 _ hname).resolve_left Step.noConfusion)

/-- The two melodies may change places. -/
theorem murmurPhrase_isPlainSum : ∃ solo : Melody → Buffer ℚ,
    (∀ melody ∈ murmurPhrase.melodies,
      ((murmurPhrase.solo melody).renderExact (fun _ => 0) 0).outcome (ChaCha.ofSeed 1)
        = (.ok (solo melody), ChaCha.ofSeed 1)) ∧
    Buffer.Quiet murmurPhrase.frameCount (murmurPhrase.melodies.map solo) ∧
    ((murmurPhrase.withMelodies murmurPhrase.melodies.reverse).renderExact
      (fun _ => 0) 0).outcome (ChaCha.ofSeed 1)
        = (.ok (Buffer.plainSum murmurPhrase.frameCount (murmurPhrase.melodies.map solo)),
          ChaCha.ofSeed 1) := by
  have hfree : murmurPhrase.NoiseFree := by
    unfold NoiseFree
    decide
  obtain ⟨solo, hsolo, hsum⟩ := render_isPlainSum (K := ℚ)
    (fun _ => abs_zero.trans_le zero_le_one) 0 (by decide : murmurPhrase.validate = .ok ()) hfree
    (fun melody hmelody name hname => (murmurPhrase_cycles hmelody hname).imp fun _ h => h.1)
    (fun melody hmelody hreverb name frames hname hcycle => by
      obtain ⟨frames', hcycle', hle⟩ := murmurPhrase_cycles hmelody hname
      obtain rfl := Except.ok.inj (hcycle.symm.trans hcycle')
      rw [hreverb, Bool.false_or] at hle
      exact of_decide_eq_true hle) (ChaCha.ofSeed 1)
  have hquiet : Buffer.Quiet murmurPhrase.frameCount (murmurPhrase.melodies.map solo) := by
    have hshare : ((murmurPhrase.melodies.map solo).length : ℚ) * (1 / 2) ≤ 1 := by
      rw [List.length_map]
      norm_num [murmurPhrase]
    refine Buffer.quiet_of_abs_level_le hshare (List.forall_mem_map.mpr fun melody hmelody => ?_)
    have hall := (murmurPhrase_measures melody hmelody).2
    rw [hsolo melody hmelody] at hall
    exact Buffer.abs_level_le one_half_pos.le fun frame hframe =>
      of_decide_eq_true (Array.all_eq_true_iff_forall_mem.mp hall frame hframe)
  exact ⟨solo, hsolo, hquiet, hsum hquiet _ (List.reverse_perm _)⟩

end Phrase

end Chiptune
