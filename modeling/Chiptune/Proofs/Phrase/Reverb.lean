import Chiptune.Proofs.Phrase.Ears
import Chiptune.Proofs.Phrase.Solo
import Chiptune.Random.ChaCha

/-!
# Reverb is one echo of the dry sound

The settings of an instrument other than its reverb decide which frames a melody writes, what is in
them and what is drawn for them. With reverb these frames are written into a buffer of their own,
which is echoed onto itself from its end to its start and then merged into silence. What is echoed
is therefore the sound without reverb, never an echo, and the merge changes nothing, because frames
that have been merged before are settled.

* `Melody.withReverb`, a melody with another reverb, and `Instrument.voices_withReverb`;
* `Part.play_withReverb`, a melody alone is the echo of itself without reverb;
* `Phrase.render_echoesOnce`, the frames of a phrase with one melody.
-/

namespace Chiptune

variable {R : Type} [Amplitude R] {σ : Type} [RandomSource σ]

/-! ## Another reverb -/

/-- The melody with another reverb on its instrument. -/
def Melody.withReverb (melody : Melody) (reverb : Reverb) : Melody :=
  { melody with instrument := { melody.instrument with reverb := reverb } }

/-- Reverb takes no part in the frames of an instrument. -/
theorem Instrument.voices_withReverb (instrument : Instrument) (reverb : Reverb)
    (strokes : List Stroke) (source : σ) :
    ({ instrument with reverb := reverb }.voices strokes source : List (ℕ × Frame R) × σ)
      = instrument.voices strokes source := by
  induction strokes generalizing source with
  | nil => rfl
  | cons stroke strokes ih =>
    rw [voices, voices]
    exact congrArg (fun rest : List (ℕ × Frame R) × σ => (_ :: rest.1, rest.2)) (ih _)

theorem Span.playAll_withReverb (instrument : Instrument) (reverb : Reverb) (spans : List Span)
    (buffer : Buffer R) (source : σ) :
    playAll { instrument with reverb := reverb } spans buffer source
      = playAll instrument spans buffer source := by
  rw [playAll_eq, playAll_eq, Instrument.voices_withReverb]

/-! ## A melody alone -/

/-- Without a delay there is no echo. -/
theorem Buffer.echo_zero (buffer : Buffer R) (decay : R) : buffer.echo 0 decay = buffer :=
  if_pos (Or.inl rfl)

/-- A melody that is played on silence gives the echo of its spans, and draws what they draw. -/
theorem Part.play_ofMelody [LawfulFolding R] (step : ℕ) (melody : Melody) (size : ℕ) (source : σ) :
    (ofMelody step melody).play (Buffer.silence size : Buffer R) source
      = let dry := Span.playAll melody.instrument (ofMelody step melody).spans
          (Buffer.silence size : Buffer R) source
        (dry.1.echo melody.instrument.reverb.delay melody.instrument.reverb.decay, dry.2) := by
  unfold Part.play
  simp only [Buffer.size_silence]
  set dry := Span.playAll melody.instrument (ofMelody step melody).spans
    (Buffer.silence size : Buffer R) source with hdry
  split_ifs with hreverb
  · have hsettled : dry.1.All Frame.Settled :=
      (ofMelody step melody).all_playAll_spans kept_settled (fun _ _ _ _ _ => trivial)
        (Buffer.all_silence size LawfulFolding.settled_silent) source
    have hsize : dry.1.size = size := by
      rw [hdry, Span.size_playAll, Buffer.size_silence]
    -- the echo is settled too, so that silence leaves it as it is
    have hecho := hsettled.echo melody.instrument.reverb.delay melody.instrument.reverb.decay
      fun f g hf _ => LawfulFolding.settled_add f _ hf
    have hmerge := Buffer.silence_overlay hecho
    rw [Buffer.size_echo, hsize] at hmerge
    exact congrArg (·, dry.2) hmerge
  · have hdelay : melody.instrument.reverb.delay = 0 := if_neg hreverb
    rw [hdelay, Buffer.echo_zero]
    rfl

/-- With reverb a melody alone is the echo of itself without reverb. -/
theorem Part.play_withReverb [LawfulFolding R] (step : ℕ) (melody : Melody) (reverb : Reverb)
    (size : ℕ) (source : σ) :
    (ofMelody step (melody.withReverb reverb)).play (Buffer.silence size : Buffer R) source
      = let dry := (ofMelody step (melody.withReverb .none)).play
          (Buffer.silence size : Buffer R) source
        (dry.1.echo reverb.delay reverb.decay, dry.2) := by
  have hspans : ∀ other, (ofMelody step (melody.withReverb other)).spans
      = (ofMelody step melody).spans := fun _ => rfl
  have hplay : ∀ other, Span.playAll (melody.withReverb other).instrument
      (ofMelody step melody).spans (Buffer.silence size : Buffer R) source
        = Span.playAll melody.instrument (ofMelody step melody).spans
          (Buffer.silence size) source :=
    fun other => Span.playAll_withReverb melody.instrument other _ _ _
  have hdry : (melody.withReverb .none).instrument.reverb.delay = 0 := rfl
  rw [play_ofMelody, play_ofMelody, hspans, hspans, hplay, hplay, hdry]
  simp only [Buffer.echo_zero]
  rfl

/-! ## Phrases -/

namespace Phrase

/-- A phrase with one melody renders with every reverb or with none, and draws the same. -/
theorem render_solo_withReverb [LawfulFolding R] {phrase : Phrase} {melody : Melody}
    {source source' : σ} {sound : Buffer R}
    (h : (phrase.solo melody).render.outcome source = (.ok sound, source')) :
    ∃ dry : Buffer R, ∀ reverb : Reverb,
      (phrase.solo (melody.withReverb reverb)).render.outcome source
        = (.ok (dry.echo reverb.delay reverb.decay), source') := by
  obtain ⟨hvalid, hfault, hplay⟩ := render_eq_ok_iff.mp h
  have hstart := Part.play_withReverb (R := R) (phrase.solo melody).stepSize melody
    melody.instrument.reverb (phrase.solo melody).frameCount source
  set dry := (Part.ofMelody (phrase.solo melody).stepSize (melody.withReverb .none)).play
    (Buffer.silence (phrase.solo melody).frameCount : Buffer R) source
  refine ⟨dry.1, fun reverb => render_eq_ok_iff.mpr ⟨hvalid, hfault, ?_⟩⟩
  have hsource : dry.2 = source' := (congrArg Prod.snd hstart).symm.trans (congrArg Prod.snd hplay)
  rw [← hsource]
  exact Part.play_withReverb _ melody reverb _ source

/-- A phrase with one melody that renders at all renders with every reverb and without, and draws
the same random words. The sound with a reverb has the length of the dry sound. It is the dry sound
up to the delay, and from there on it is the dry sound with one copy of itself, so much later and
so much quieter, folded into it. -/
theorem render_echoesOnce (sine : Float → Float) {phrase : Phrase} {melody : Melody}
    {source source' : σ} {sound : Buffer Float}
    (h : ((phrase.solo melody).renderWith sine).outcome source = (.ok sound, source')) :
    ∃ dry : Buffer Float,
      ((phrase.solo (melody.withReverb .none)).renderWith sine).outcome source
        = (.ok dry, source') ∧
      ∀ reverb : Reverb, reverb.isEnabled = true → ∃ wet : Buffer Float,
        ((phrase.solo (melody.withReverb reverb)).renderWith sine).outcome source
          = (.ok wet, source') ∧
        wet.size = dry.size ∧ (∀ i < reverb.delay, wet[i]? = dry[i]?) ∧
        ∀ (i : ℕ) (early late : Frame Float), dry[i]? = some early →
          dry[i + reverb.delay]? = some late → ∃ frame, wet[i + reverb.delay]? = some frame ∧
            ∀ ear : Ear, ear.hear frame = fold (ear.hear late + ear.hear early * reverb.decay) := by
  let := Amplitude.binary64 sine
  have := Amplitude.lawfulFolding_binary64 sine
  obtain ⟨dry, hrender⟩ := render_solo_withReverb h
  have hnone : Reverb.none.delay = 0 := rfl
  have hdry := hrender .none
  rw [hnone, Buffer.echo_zero] at hdry
  refine ⟨dry, hdry, fun reverb hreverb => ⟨_, hrender reverb, Buffer.size_echo _ _ _, ?_, ?_⟩⟩
  · intro i hi
    rw [Buffer.getElem?_echo, if_neg (by omega)]
  · intro i early late hearly hlate
    have hdelay : 0 < reverb.delay := by
      rw [Reverb.delay, if_pos hreverb]
      decide
    refine ⟨late.add (early.scale reverb.decay), ?_, fun ear => ?_⟩
    · rw [Buffer.getElem?_echo, if_pos ⟨hdelay, by omega⟩, Nat.add_sub_cancel, hlate, hearly]
      rfl
    · rw [Ear.hear_add, Ear.hear_scale]
      rfl

/-- A knock in a hall, twice the delay of an echo long. -/
def hallPhrase : Phrase := ⟨"hall", 300, 1, 2, []⟩

/-- A square wave that sounds for the first half. -/
def knock : Melody :=
  ⟨{ name := "knock", tone := .square, reverb := .lots }, ⟨"once", [.note "A4", .rest]⟩⟩

/-- The first frame comes back 1146 frames later. -/
theorem hallPhrase_echoesOnce :
    ∃ (dry wet : Buffer Float) (source : ChaCha.Generator),
      ((hallPhrase.solo (knock.withReverb .none)).renderWith fun _ => 0).outcome (ChaCha.ofSeed 1)
        = (.ok dry, source) ∧
      ((hallPhrase.solo (knock.withReverb .some)).renderWith fun _ => 0).outcome (ChaCha.ofSeed 1)
        = (.ok wet, source) ∧
      wet.size = 2294 ∧ wet[1145]? = dry[1145]? ∧
      ∃ early late frame : Frame Float, dry[0]? = some early ∧ dry[1146]? = some late ∧
        wet[1146]? = some frame ∧
        frame.left = fold (late.left + early.left * Reverb.some.decay) := by
  let := Amplitude.binary64 fun _ => 0
  have hrender : ∃ (sound : Buffer Float) (source : ChaCha.Generator),
      ((hallPhrase.solo knock).renderWith fun _ => 0).outcome (ChaCha.ofSeed 1)
        = (.ok sound, source) :=
    ⟨_, _, render_eq_ok_iff.mpr ⟨by decide, by decide, rfl⟩⟩
  obtain ⟨sound, source, hsound⟩ := hrender
  obtain ⟨dry, hdry, hwet⟩ := render_echoesOnce _ hsound
  obtain ⟨wet, hwet, hsize, hearly, hlate⟩ := hwet .some rfl
  have hframes : (hallPhrase.solo (knock.withReverb .none)).frameCount = 2294 := by decide +kernel
  have hdrysize : dry.size = 2294 := (size_render hdry).trans hframes
  obtain ⟨frame, hframe, hears⟩ := hlate 0 dry[0] dry[1146]
    (Array.getElem?_eq_getElem _) (Array.getElem?_eq_getElem _)
  exact ⟨dry, wet, source, hdry, hwet, hsize.trans hdrysize, hearly 1145 (by decide), dry[0],
    dry[1146], frame, Array.getElem?_eq_getElem _, Array.getElem?_eq_getElem _, hframe, hears .left⟩

end Phrase

end Chiptune
