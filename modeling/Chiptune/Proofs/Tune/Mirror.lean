import Chiptune.Proofs.Likeness
import Chiptune.Proofs.Phrase.Playing

/-!
# Exchanging the ears

A tune whose instruments are all moved to the opposite position sounds like the tune with the ears
exchanged. The gains of opposite positions are exchanged exactly, and everything that is done with a
frame afterwards is done to both of its channels alike.

* `Tune.mirror` and `RenderedTune.swap`, the two exchanges;
* `Tune.render_swapsChannels`, the render of the one is the other of the render.
-/

namespace Chiptune

variable {R : Type} [Amplitude R] {σ : Type} [RandomSource σ]

/-! ## Exchanges -/

/-- The instrument at the opposite position. -/
def Instrument.mirror (instrument : Instrument) : Instrument :=
  { instrument with pan := instrument.pan.opposite }

/-- The melody on the instrument at the opposite position. -/
def Melody.mirror (melody : Melody) : Melody :=
  { melody with instrument := melody.instrument.mirror }

/-- The phrase with the ears exchanged. -/
def Phrase.mirror (phrase : Phrase) : Phrase :=
  { phrase with melodies := phrase.melodies.map Melody.mirror }

/-- The tune with the ears exchanged. -/
def Tune.mirror (tune : Tune) : Tune := tune.mapPhrases fun _ => Phrase.mirror

/-- The frames with their channels exchanged. -/
def Buffer.swap {R : Type} (buffer : Buffer R) : Buffer R := buffer.map Frame.swap

/-- The sound with the channels exchanged, in the buffers that it was built from and as a whole. -/
def RenderedTune.swap {R : Type} (rendered : RenderedTune R) : RenderedTune R :=
  ⟨rendered.name, rendered.phrases.map fun _ => Buffer.swap, rendered.buffer.swap⟩

/-! ## Frames -/

/-- The second frame is the first one with its channels exchanged. -/
def Frame.Mirrors {R : Type} (a b : Frame R) : Prop := a.swap = b

theorem congruence_mirrors : Congruence (R := R) Frame.Mirrors where
  silent := rfl
  add := by
    rintro a _ f _ rfl rfl
    rfl
  scale := by
    rintro a _ gain rfl
    rfl

omit [Amplitude R] in
theorem Buffer.alike_mirrors_iff {b d : Buffer R} : b.Alike Frame.Mirrors d ↔ b.swap = d := by
  have h : b.Alike Frame.Mirrors d ↔ b.map Frame.swap = d.map id := Buffer.Alike.eq_iff_map
  rwa [Array.map_id] at h

omit [Amplitude R] in
theorem Catalog.alike_map_swap (buffers : Catalog (Buffer R)) :
    buffers.Alike Frame.Mirrors (buffers.map fun _ => Buffer.swap) := by
  intro name
  rw [get?_map]
  cases buffers.get? name with
  | none => exact .none
  | some buffer => exact .some (Buffer.alike_mirrors_iff.mpr rfl)

/-- The positions have opposite gains. -/
class LawfulPan (R : Type) [Amplitude R] : Prop where
  leftGain_opposite (pan : Pan) : (pan.opposite.leftGain : R) = pan.rightGain
  rightGain_opposite (pan : Pan) : (pan.opposite.rightGain : R) = pan.leftGain

instance : LawfulPan Float where
  leftGain_opposite pan := by cases pan <;> decide +kernel
  rightGain_opposite pan := by cases pan <;> decide +kernel

variable [LawfulPan R]

theorem Instrument.resembles_mirror (instrument : Instrument) :
    instrument.Resembles (R := R) Frame.Mirrors instrument.mirror where
  tone := rfl
  length := rfl
  reverb := rfl
  place value := by
    have hleft : (instrument.mirror.pan.leftGain : R) = instrument.pan.rightGain :=
      LawfulPan.leftGain_opposite instrument.pan
    have hright : (instrument.mirror.pan.rightGain : R) = instrument.pan.leftGain :=
      LawfulPan.rightGain_opposite instrument.pan
    refine Eq.symm (?_ : instrument.mirror.place value = (instrument.place value).swap)
    rw [Instrument.place, hleft, hright]
    rfl

/-! ## Phrases -/

/-- The part on the instrument at the opposite position. -/
def Part.mirror (part : Part) : Part := { part with melody := part.melody.mirror }

theorem Part.playAll_mirror (parts : List Part) (buffer : Buffer R) (source : σ) :
    playAll (parts.map mirror) buffer.swap source
      = ((playAll parts buffer source).1.swap, (playAll (R := R) parts buffer source).2) := by
  induction parts generalizing buffer source with
  | nil => rfl
  | cons part parts ih =>
    have hspans : part.spans = part.mirror.spans := rfl
    obtain ⟨hbuffer, hsource⟩ := alike_play congruence_mirrors hspans
      part.melody.instrument.resembles_mirror
      (Buffer.alike_mirrors_iff.mpr (rfl : buffer.swap = buffer.swap)) source
    rw [Buffer.alike_mirrors_iff] at hbuffer
    rw [List.map_cons, playAll, playAll, ← ih, hbuffer, hsource]

namespace Phrase

omit [LawfulPan R] in
theorem partsOf_mirror (step : ℕ) (melodies : List Melody) :
    Score.partsOf step (melodies.map Melody.mirror)
      = (Score.partsOf step melodies).map Part.mirror := by
  induction melodies with
  | nil => rfl
  | cons melody melodies ih =>
    have hpart : Part.ofMelody step melody.mirror = (Part.ofMelody step melody).mirror := rfl
    have hfault : (Part.ofMelody step melody).mirror.fault = (Part.ofMelody step melody).fault :=
      rfl
    rw [List.map_cons, Score.partsOf, Score.partsOf, hpart, hfault, List.map_cons, ih]
    split_ifs <;> rfl

/-- Positions are not checked. -/
theorem validate_mirror (phrase : Phrase) : phrase.mirror.validate = phrase.validate := by
  have hsteps : ∀ melodies : List Melody,
      (melodies.map Melody.mirror).forM phrase.mirror.checkSteps
        = melodies.forM phrase.checkSteps := by
    intro melodies
    induction melodies with
    | nil => rfl
    | cons melody melodies ih => exact congrArg (phrase.checkSteps melody >>= fun _ => ·) ih
  unfold validate
  rw [← hsteps phrase.melodies]
  rfl

/-- The score is that of the mirrored melodies. -/
theorem score_mirror (phrase : Phrase) :
    phrase.mirror.score
      = phrase.score.map fun score => ⟨phrase.mirror, score.parts.map Part.mirror⟩ := by
  have hparts : Score.partsOf phrase.mirror.stepSize phrase.mirror.melodies
      = (Score.partsOf phrase.stepSize phrase.melodies).map Part.mirror :=
    partsOf_mirror phrase.stepSize phrase.melodies
  rw [score, score, validate_mirror, hparts]
  cases phrase.validate <;> rfl

theorem render_mirror (phrase : Phrase) :
    Performance.Maps (σ := σ) Buffer.swap (phrase.render (R := R)) phrase.mirror.render := by
  intro source
  unfold render
  rw [score_mirror]
  cases hscore : phrase.score with
  | error fault => rfl
  | ok score =>
    obtain ⟨-, rfl⟩ := score_eq_ok.mp hscore
    set parts := Score.partsOf phrase.stepSize phrase.melodies
    have hplay : Score.play (R := R) ⟨phrase.mirror, parts.map Part.mirror⟩ source
        = ((Score.play ⟨phrase, parts⟩ source).1.swap,
          (Score.play (R := R) ⟨phrase, parts⟩ source).2) := by
      have hsilence : (Buffer.silence phrase.frameCount : Buffer R).swap
          = Buffer.silence phrase.frameCount :=
        Buffer.alike_mirrors_iff.mp (.silence congruence_mirrors _)
      show Part.playAll (parts.map Part.mirror) (Buffer.silence phrase.frameCount) source = _
      rw [← hsilence, Part.playAll_mirror]
      rfl
    have hevents : Score.events ⟨phrase.mirror, parts.map Part.mirror⟩
        = Score.events ⟨phrase, parts⟩ := by
      rw [Score.events, Score.events, List.map_map]
      show Event.renderingPhrase _ _ (phrase.melodies.map Melody.mirror).length :: _ = _
      rw [List.length_map]
      rfl
    have hfault : Score.fault? ⟨phrase.mirror, parts.map Part.mirror⟩
        = Score.fault? ⟨phrase, parts⟩ := by
      rw [Score.fault?, Score.fault?, List.findSome?_map]
      rfl
    simp only [Except.map, hplay, hevents, hfault]
    cases Score.fault? ⟨phrase, parts⟩ <;> rfl

end Phrase

/-! ## Tunes -/

namespace Tune

theorem renderPhrases_mirror (tune : Tune) (buffers : Catalog (Buffer R)) (names : List String) :
    Performance.Maps (σ := σ) (Catalog.map fun _ => Buffer.swap)
      (tune.renderPhrases buffers names)
      (tune.mirror.renderPhrases (buffers.map fun _ => Buffer.swap) names) := by
  induction names generalizing buffers with
  | nil => exact .pure _ buffers
  | cons name names ih =>
    rw [renderPhrases, renderPhrases, Catalog.contains_map]
    split_ifs
    · exact ih buffers
    · have hphrase : Performance.Maps (σ := σ) Phrase.mirror
          (Performance.ofReport (Report.ofExcept (tune.phrase name)))
          (Performance.ofReport (Report.ofExcept (tune.mirror.phrase name))) :=
        .ofReport rfl (phrase_mapPhrases _ tune name)
      refine hphrase.bind fun phrase => phrase.render_mirror.bind fun buffer => ?_
      rw [← Catalog.map_put (fun _ => Buffer.swap)]
      exact ih _

/-- A tune with the ears exchanged gives the report of the tune, event for event and be it a fault
or a sound, and moves every random source on alike; the sound has its channels exchanged in every
frame of every buffer. -/
theorem render_swapsChannels (tune : Tune) (source : σ) :
    let original : Report (RenderedTune Float) × σ := tune.render source
    tune.mirror.render source
      = (⟨original.1.events, original.1.result.map RenderedTune.swap⟩, original.2) := by
  have htiming : ∀ (_ : String) (phrase : Phrase), phrase.mirror.frameCount = phrase.frameCount :=
    fun _ _ => rfl
  have hframes : tune.mirror.frameCount = tune.frameCount := frameCount_mapPhrases htiming tune
  have hplaces : tune.mirror.placements 0 tune.mirror.sequence
      = tune.placements 0 tune.sequence :=
    placements_mapPhrases htiming tune 0 tune.sequence
  have hmaps : Performance.Maps (σ := σ) RenderedTune.swap (tune.render (R := Float))
      tune.mirror.render := by
    unfold render
    rw [hframes, hplaces]
    refine (renderPhrases_mirror tune {} tune.sequence).bind fun buffers => ?_
    refine (Performance.Maps.refl _).bind fun size => ?_
    refine (Performance.Maps.refl _).bind fun _ => (Performance.Maps.refl _).bind fun _ => ?_
    -- what is left is the layout of the exchanged buffers
    have hlayout := alike_layOut congruence_mirrors (Catalog.alike_map_swap buffers)
      (tune.placements 0 tune.sequence) (.silence congruence_mirrors size)
    rw [Buffer.alike_mirrors_iff] at hlayout
    rw [id, ← hlayout]
    exact .pure _ _
  exact hmaps source

end Tune

end Chiptune
