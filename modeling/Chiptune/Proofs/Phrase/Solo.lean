import Chiptune.Proofs.Check
import Chiptune.Proofs.Phrase.Playing
import Chiptune.Random.ChaCha

/-!
# A phrase is the mix of its solos

A melody with reverb is played apart and merged as a whole; any other is merged frame by frame into
what the melodies before it have left. Both come to the same as long as no frame receives two
contributions of one melody: a single contribution in range is left as it is by the silence that it
meets when the melody is played apart. Cycles of at most one step make sure of that, because a note
that sounds past its step then ends before the step after the next.

* `Phrase.solo` and `Phrase.mixSolos`, the melodies played apart;
* `Part.play_eq_overlay`, one melody;
* `Phrase.render_isMixOfSolos`, the whole phrase.
-/

namespace Chiptune

variable {R : Type} [Amplitude R] {σ : Type} [RandomSource σ]

/-! ## One melody -/

/-- A part is merged into a buffer as it sounds on its own. -/
theorem Part.play_eq_overlay [LawfulFolding R] (part : Part)
    (hdry : part.melody.instrument.reverb.isEnabled = false →
      Span.InOrder part.spans ∧ part.Sounds σ (Frame.Direct (R := R)))
    {buffer : Buffer R} (hbuffer : buffer.All Frame.Settled) (source : σ) :
    part.play buffer source
      = (buffer.overlay (part.play (Buffer.silence buffer.size) source).1 0,
        (part.play (R := R) (Buffer.silence buffer.size) source).2) := by
  unfold Part.play
  simp only [Buffer.size_silence]
  split_ifs with hreverb
  -- what is echoed on its own is settled, so that merging it into silence changes nothing
  · have hsilent := Buffer.all_silence (R := R) buffer.size LawfulFolding.settled_silent
    have hplayed := part.all_playAll_spans kept_settled (fun _ _ _ _ _ => trivial) hsilent source
    have hecho := hplayed.echo part.melody.instrument.reverb.delay
      part.melody.instrument.reverb.decay fun f g hf _ => LawfulFolding.settled_add f _ hf
    have halone := Buffer.silence_overlay hecho
    rw [Buffer.size_echo, Span.size_playAll, Buffer.size_silence] at halone
    simp only
    rw [halone]
  · obtain ⟨hspans, hsounds⟩ := hdry (Bool.eq_false_iff.mpr hreverb)
    have hplaces : ((part.melody.instrument.voices (R := R)
        (Span.strokesOf part.spans buffer.size) source).1.map Prod.fst).Nodup := by
      rw [Instrument.map_fst_voices]
      exact Span.nodup_strokesOf hspans buffer.size
    rw [Span.playAll_eq, Span.playAll_eq, Buffer.size_silence]
    simp only
    rw [Buffer.overlay_addAll hbuffer hplaces (hsounds.voices buffer.size source)]

/-! ## All melodies -/

namespace Phrase

/-- The phrase with one melody alone. -/
def solo (phrase : Phrase) (melody : Melody) : Phrase := { phrase with melodies := [melody] }

/-- Renders the solos of melodies one after the other and merges each into a buffer. -/
def mixSolos (phrase : Phrase) : List Melody → Buffer R → Performance σ (Buffer R)
  | [], buffer => pure buffer
  | melody :: melodies, buffer => do
    let sound ← (phrase.solo melody).render
    mixSolos phrase melodies (buffer.overlay sound 0)

/-- The outcome of a valid phrase whose melodies can be played. -/
theorem render_of_playable {phrase : Phrase} (hvalid : phrase.validate = .ok ())
    (hplayable : ∀ melody ∈ phrase.melodies, Part.Playable melody.pattern.steps) (source : σ) :
    let played := Part.playAll (R := R) (phrase.melodies.map (Part.ofMelody phrase.stepSize))
      (Buffer.silence phrase.frameCount) source
    phrase.render.outcome source = (.ok played.1, played.2) := by
  rw [render_of_score (score_eq_ok.mpr ⟨hvalid, rfl⟩), Score.fault?_of_playable hplayable,
    Score.play, Score.partsOf_of_playable _ hplayable]

/-- A melody of a valid phrase that can be played has a solo. -/
theorem render_solo {phrase : Phrase} (hvalid : phrase.validate = .ok ()) {melody : Melody}
    (hmelody : melody ∈ phrase.melodies) (hplayable : Part.Playable melody.pattern.steps)
    (source : σ) :
    let played := (Part.ofMelody phrase.stepSize melody).play (R := R)
      (Buffer.silence phrase.frameCount) source
    (phrase.solo melody).render.outcome source = (.ok played.1, played.2) := by
  rw [validate_eq_ok] at hvalid
  have hsolo : (phrase.solo melody).validate = .ok () :=
    validate_eq_ok.mpr ⟨hvalid.1, List.forall_mem_singleton.mpr (hvalid.2 melody hmelody)⟩
  exact render_of_playable hsolo (List.forall_mem_singleton.mpr hplayable) source

/-- Playing melodies into a settled buffer is mixing their solos into it. -/
theorem mixSolos_outcome [LawfulFolding R] {phrase : Phrase} (hvalid : phrase.validate = .ok ())
    {melodies : List Melody} (hmelodies : ∀ melody ∈ melodies, melody ∈ phrase.melodies)
    (hplayable : ∀ melody ∈ melodies, Part.Playable melody.pattern.steps)
    (hdry : ∀ melody ∈ melodies, melody.instrument.reverb.isEnabled = false →
      Span.InOrder (Part.ofMelody phrase.stepSize melody).spans ∧
        (Part.ofMelody phrase.stepSize melody).Sounds σ (Frame.Direct (R := R)))
    {buffer : Buffer R} (hbuffer : buffer.All Frame.Settled)
    (hsize : buffer.size = phrase.frameCount) (source : σ) :
    let played := Part.playAll (melodies.map (Part.ofMelody phrase.stepSize)) buffer source
    (phrase.mixSolos melodies buffer).outcome source = (.ok played.1, played.2) := by
  induction melodies generalizing buffer source with
  | nil => rfl
  | cons melody melodies ih =>
    rw [List.forall_mem_cons] at hmelodies hplayable hdry
    -- the buffer that the first melody leaves is settled and as long as before
    set part := Part.ofMelody phrase.stepSize melody
    have hplay := part.play_eq_overlay hdry.1 hbuffer source
    rw [hsize] at hplay
    have hsettled := part.all_play kept_settled (fun _ _ _ _ _ => trivial) hbuffer source
    have hlength := part.size_play buffer source
    rw [hplay] at hsettled hlength
    rw [mixSolos, Performance.outcome_bind_of_ok
      (render_solo hvalid hmelodies.1 hplayable.1 source), List.map_cons, Part.playAll, hplay]
    exact ih hmelodies.2 hplayable.2 hdry.2 hsettled (hlength.trans hsize) _

/-! ## Binary64 -/

/-- The mix of all solos of a phrase, rendered with a given sine and merged into silence. -/
def mixSolosWith (sine : Float → Float) (phrase : Phrase) : Performance σ (Buffer Float) :=
  @mixSolos Float (.binary64 sine) σ _ phrase phrase.melodies
    (@Buffer.silence Float (.binary64 sine) phrase.frameCount)

/-- A phrase is the mix of its solos, frame for frame, and the solos draw what the phrase draws. All
notes have to be playable, and a note without reverb has to have a cycle of at most one step. -/
theorem render_isMixOfSolos {sine : Float → Float}
    (hsine : ∀ x, x.isFinite = true → -1 ≤ sine x ∧ sine x ≤ 1) {phrase : Phrase}
    (hvalid : phrase.validate = .ok ())
    (hplayable : ∀ melody ∈ phrase.melodies, Part.Playable melody.pattern.steps)
    (hdry : ∀ melody ∈ phrase.melodies, melody.instrument.reverb.isEnabled = false →
      Part.CyclesWithin phrase.stepSize melody.pattern.steps) (source : σ) :
    ∃ (buffer : Buffer Float) (source' : σ),
      (phrase.renderWith sine).outcome source = (.ok buffer, source') ∧
      (phrase.mixSolosWith sine).outcome source = (.ok buffer, source') := by
  let := Amplitude.binary64 sine
  have := Amplitude.lawfulFolding_binary64 sine
  have hsounds : ∀ melody, (Part.ofMelody phrase.stepSize melody).Sounds σ
      (Frame.Direct (R := Float)) := by
    intro melody span hspan index hindex source
    obtain ⟨-, hcycle⟩ := Part.cycle_bounds hspan
    have hframe := Instrument.frameAt_inRange (fun x hx => inRange_of_le (hsine x hx))
      melody.instrument (by omega) hindex source
    exact hframe.direct
  have hmix := mixSolos_outcome hvalid (fun _ hmelody => hmelody) hplayable
    (fun melody hmelody hreverb =>
      ⟨Part.inOrder_ofMelody (hdry melody hmelody hreverb), hsounds melody⟩)
    (Buffer.all_silence phrase.frameCount LawfulFolding.settled_silent)
    (Buffer.size_silence phrase.frameCount) source
  exact ⟨_, _, render_of_playable hvalid hplayable source, hmix⟩

/-- A square wave that is played as it is, and one with an echo, over half a second. -/
def duet : Phrase :=
  ⟨"duet", 120, 1, 2,
    [⟨{ name := "lead", tone := .square }, ⟨"rise", [.note "A4", .note "C5"]⟩⟩,
      ⟨{ name := "echo", tone := .square, reverb := .more }, ⟨"once", [.note "E3", .rest]⟩⟩]⟩

/-- The cycles of the notes that are played as they are have 27 and 22 frames, the steps 2867. -/
theorem duet_isMixOfSolos :
    ∃ (buffer : Buffer Float) (source' : ChaCha.Generator),
      (duet.renderWith fun _ => 0).outcome (ChaCha.ofSeed 1) = (.ok buffer, source') ∧
      (duet.mixSolosWith fun _ => 0).outcome (ChaCha.ofSeed 1) = (.ok buffer, source') := by
  have hstep : duet.stepSize = 2867 := by decide +kernel
  have hcheck : ∀ melody ∈ duet.melodies, ∀ s ∈ melody.pattern.steps, s = .rest ∨
      (Pitch.cycleLength s.token).toOption.any (· ≤ 70) = true := by decide +kernel
  have hmelodies : ∀ melody ∈ duet.melodies, ∀ name, Step.note name ∈ melody.pattern.steps →
      ∃ frames ≤ 70, Pitch.cycleLength name = .ok frames := by
    intro melody hmelody name hname
    have hany := (hcheck melody hmelody _ hname).resolve_left nofun
    obtain ⟨frames, hframes, hle⟩ := exists_eq_ok_of_any hany
    exact ⟨frames, of_decide_eq_true hle, hframes⟩
  refine render_isMixOfSolos (fun _ _ => by decide +kernel) (by decide) ?_ ?_ _
  · intro melody hmelody name hname
    obtain ⟨frames, -, hframes⟩ := hmelodies melody hmelody name hname
    exact ⟨frames, hframes⟩
  · intro melody hmelody _ name frames hname hframes
    obtain ⟨frames', hle, hframes'⟩ := hmelodies melody hmelody name hname
    obtain rfl := Except.ok.inj (hframes.symm.trans hframes')
    rw [hstep]
    omega

end Phrase

end Chiptune
