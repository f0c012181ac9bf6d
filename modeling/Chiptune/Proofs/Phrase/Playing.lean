import Chiptune.Proofs.Performance
import Chiptune.Proofs.Phrase.Placement
import Chiptune.Proofs.Phrase.Strokes
import Chiptune.Proofs.Settled
import Chiptune.Proofs.Tone

/-!
# What playing keeps

A phrase is written into a buffer by its steps, by notes that overlap, by the echo of a melody onto
itself and by the merge of an echoed melody. All of them go through `Frame.add`, so that a property
of frames holds at the end if silence has it and merging keeps it, whatever may be merged.

* `Kept`, the conditions on such a property, and `Part.Sounds`, the frames that a part contributes;
* `Score.all_play`, playing keeps the property, and `Score.size_play`, the length of the result;
* `Phrase.render_eq_ok`, a rendered phrase is a score that was played.
-/

namespace Chiptune

variable {R : Type} [Amplitude R] {σ : Type} [RandomSource σ]

/-- `P` holds of silence and is kept when a frame with `Q` is merged; what is merged may be another
frame of a buffer or its echo. -/
structure Kept (P Q : Frame R → Prop) : Prop where
  silent : P Frame.silent
  add (a b : Frame R) : P a → Q b → P (a.add b)
  whole (a : Frame R) : P a → Q a
  echo (a : Frame R) (reverb : Reverb) : P a → Q (a.scale reverb.decay)

/-- Whatever the random source gives, the frames of a part have the property. -/
def Part.Sounds (σ : Type) [RandomSource σ] (Q : Frame R → Prop) (part : Part) : Prop :=
  ∀ span ∈ part.spans, ∀ index < max span.cycle 1, ∀ source : σ,
    Q (part.melody.instrument.frameAt
      (Oscillator.ofTone part.melody.instrument.tone span.cycle) index source).1

/-- Buffers start silent, and merging keeps their frames settled. -/
theorem kept_settled [LawfulFolding R] : Kept (R := R) Frame.Settled fun _ => True where
  silent := LawfulFolding.settled_silent
  add a b ha _ := LawfulFolding.settled_add a b ha
  whole _ _ := trivial
  echo _ _ _ := trivial

variable {P Q : Frame R → Prop}

/-! ## Parts -/

/-- The voices of a part have the property of its frames. -/
theorem Part.Sounds.voices {part : Part} (h : part.Sounds σ Q) (size : ℕ) (source : σ) :
    ∀ v ∈ (part.melody.instrument.voices (Span.strokesOf part.spans size) source).1, Q v.2 := by
  refine Instrument.forall_mem_voices (σ := σ) _ (fun stroke hstroke source => ?_) source
  obtain ⟨span, hspan, hmem⟩ := List.mem_flatMap.mp hstroke
  obtain ⟨-, -, -, hcycle, hindex⟩ := Span.mem_strokes hmem
  rw [hcycle, hindex]
  exact h span hspan _ (Nat.mod_lt _ (by omega)) source

@[simp] theorem Span.size_playAll (instrument : Instrument) (spans : List Span) (buffer : Buffer R)
    (source : σ) : (Span.playAll instrument spans buffer source).1.size = buffer.size := by
  rw [Span.playAll_eq]
  exact Buffer.size_addAll _ _

theorem Part.all_playAll_spans (hkept : Kept P Q) {part : Part} (h : part.Sounds σ Q)
    {buffer : Buffer R} (hbuffer : buffer.All P) (source : σ) :
    Buffer.All P (Span.playAll part.melody.instrument part.spans buffer source).1 := by
  rw [Span.playAll_eq]
  exact hbuffer.addAll fun v hv f hf => hkept.add f v.2 hf (h.voices buffer.size source v hv)

@[simp] theorem Part.size_play (part : Part) (buffer : Buffer R) (source : σ) :
    (part.play buffer source).1.size = buffer.size := by
  unfold Part.play
  simp only
  split_ifs
  · exact Buffer.size_overlay _ _ _
  · exact Span.size_playAll _ _ _ _

theorem Part.all_play (hkept : Kept P Q) (part : Part) (h : part.Sounds σ Q) {buffer : Buffer R}
    (hbuffer : buffer.All P) (source : σ) : Buffer.All P (part.play buffer source).1 := by
  unfold Part.play
  simp only
  split_ifs
  -- the echo stays in a buffer of its own, which is then merged as a whole
  · have hdry := Part.all_playAll_spans hkept h
      (Buffer.all_silence buffer.size hkept.silent) source
    have hecho := hdry.echo part.melody.instrument.reverb.delay
      part.melody.instrument.reverb.decay
      fun f g hf hg => hkept.add f _ hf (hkept.echo g _ hg)
    exact hbuffer.overlay hecho 0 fun f g hf hg => hkept.add f g hf (hkept.whole g hg)
  · exact Part.all_playAll_spans hkept h hbuffer source

@[simp] theorem Part.size_playAll (parts : List Part) (buffer : Buffer R) (source : σ) :
    (Part.playAll parts buffer source).1.size = buffer.size := by
  induction parts generalizing buffer source with
  | nil => rfl
  | cons part parts ih =>
    rw [Part.playAll]
    exact (ih _ _).trans (Part.size_play part buffer source)

theorem Part.all_playAll (hkept : Kept P Q) {parts : List Part}
    (h : ∀ part ∈ parts, part.Sounds σ Q) {buffer : Buffer R} (hbuffer : buffer.All P)
    (source : σ) :
    Buffer.All P (Part.playAll parts buffer source).1 := by
  induction parts generalizing buffer source with
  | nil => exact hbuffer
  | cons part parts ih =>
    rw [Part.playAll]
    exact ih (fun p hp => h p (List.mem_cons_of_mem part hp))
      (Part.all_play hkept part (h part List.mem_cons_self) hbuffer source) _

/-! ## Scores and phrases -/

@[simp] theorem Score.size_play (score : Score) (source : σ) :
    (score.play source : Buffer R × σ).1.size = score.phrase.frameCount := by
  rw [Score.play, Part.size_playAll, Buffer.size_silence]

theorem Score.all_play (hkept : Kept P Q) {score : Score}
    (h : ∀ part ∈ score.parts, part.Sounds σ Q) (source : σ) :
    Buffer.All P (score.play source).1 :=
  Part.all_playAll hkept h (Buffer.all_silence _ hkept.silent) source

/-- The outcome of a phrase with a score. -/
theorem Phrase.render_of_score {phrase : Phrase} {score : Score} (h : phrase.score = .ok score)
    (source : σ) :
    (phrase.render.outcome source : Except Fault (Buffer R) × σ) =
      (match score.fault? with
        | some fault => .error (.badNote fault)
        | none => .ok (score.play source).1, (score.play (R := R) source).2) := by
  unfold Phrase.render Performance.outcome
  generalize phrase.score = result at h ⊢
  subst h
  rfl

/-- A phrase that is rendered is a score that is played. -/
theorem Phrase.render_eq_ok {phrase : Phrase} {source source' : σ} {buffer : Buffer R}
    (h : phrase.render.outcome source = (.ok buffer, source')) :
    ∃ score, phrase.score = .ok score ∧ score.play source = (buffer, source') := by
  cases hscore : phrase.score with
  | error fault =>
    unfold Phrase.render Performance.outcome at h
    rw [hscore] at h
    exact absurd (congrArg Prod.fst h) nofun
  | ok score =>
    rw [Phrase.render_of_score hscore] at h
    cases hfault : score.fault? with
    | some fault =>
      rw [hfault] at h
      exact absurd (congrArg Prod.fst h) nofun
    | none =>
      rw [hfault] at h
      obtain ⟨hbuffer, hsource⟩ := Prod.mk.inj h
      exact ⟨score, rfl, Prod.ext (Except.ok.inj hbuffer) hsource⟩

/-- A phrase is rendered when it is valid and no note of it is faulty; then all of its melodies are
played. -/
theorem Phrase.render_eq_ok_iff {phrase : Phrase} {source source' : σ} {buffer : Buffer R} :
    phrase.render.outcome source = (.ok buffer, source') ↔
      phrase.validate = .ok () ∧
        (Score.partsOf phrase.stepSize phrase.melodies).findSome? Part.fault = none ∧
        Part.playAll (phrase.melodies.map (Part.ofMelody phrase.stepSize))
          (Buffer.silence phrase.frameCount) source = (buffer, source') := by
  constructor
  · intro h
    obtain ⟨score, hscore, hplay⟩ := Phrase.render_eq_ok h
    obtain ⟨hvalid, rfl⟩ := Phrase.score_eq_ok.mp hscore
    have hfault : (Score.partsOf phrase.stepSize phrase.melodies).findSome? Part.fault = none := by
      rw [Phrase.render_of_score hscore, Score.fault?] at h
      cases hfault : (Score.partsOf phrase.stepSize phrase.melodies).findSome? Part.fault with
      | none => rfl
      | some fault =>
        rw [hfault] at h
        cases congrArg Prod.fst h
    refine ⟨hvalid, hfault, ?_⟩
    rwa [Score.play, Score.partsOf_of_fault_eq_none hfault] at hplay
  · rintro ⟨hvalid, hfault, hplay⟩
    rw [Phrase.render_of_score (Phrase.score_eq_ok.mpr ⟨hvalid, rfl⟩), Score.fault?, hfault,
      Score.play, Score.partsOf_of_fault_eq_none hfault, hplay]

/-- A rendered phrase has the length of its measure. -/
theorem Phrase.size_render {phrase : Phrase} {source source' : σ} {buffer : Buffer R}
    (h : phrase.render.outcome source = (.ok buffer, source')) :
    buffer.size = phrase.frameCount := by
  obtain ⟨score, hscore, hplay⟩ := Phrase.render_eq_ok h
  obtain ⟨-, hparts⟩ := Phrase.score_eq_ok.mp hscore
  have hsize := score.size_play (R := R) source
  rwa [hplay, hparts] at hsize

/-- A property that playing keeps holds of every frame of a rendered phrase. -/
theorem Phrase.all_render (hkept : Kept P Q) {phrase : Phrase}
    (hsounds : ∀ score, phrase.score = .ok score → ∀ part ∈ score.parts, part.Sounds σ Q)
    {source source' : σ} {buffer : Buffer R}
    (h : phrase.render.outcome source = (.ok buffer, source')) : buffer.All P := by
  obtain ⟨score, hscore, hplay⟩ := Phrase.render_eq_ok h
  have hall := Score.all_play hkept (hsounds score hscore) source
  rwa [hplay] at hall

/-- The sound of a phrase with a given sine. -/
def Phrase.renderWith (sine : Float → Float) (phrase : Phrase) : Performance σ (Buffer Float) :=
  @Phrase.render Float (.binary64 sine) σ _ phrase

theorem Phrase.renderWith_sin (phrase : Phrase) :
    (phrase.renderWith Float.sin : Performance σ (Buffer Float)) = phrase.render := rfl

end Chiptune
