import Chiptune.Proofs.Phrase.Playing
import Chiptune.Proofs.Tune.Notes
import Chiptune.Random.ChaCha

/-!
# Melodies that cannot sound

A pattern of rests places no notes, and notes that sound for no quarter of a step are placed but do
not begin a cycle. Neither writes a frame nor draws a word. With reverb there is still a buffer of
silence to echo and to merge, which would fold what overshoots; but a buffer holds nothing that
overshoots. A phrase is the same with such a melody and without it, wherever the melody stands.

* `Part.IsEmpty`, a part that writes nothing, and `Part.IsEmpty.play`;
* `Part.playAll_insert`, such a part among others;
* `Melody.IsMute` and `Phrase.render_insertMelody`, the whole phrase.
-/

namespace Chiptune

/-! ## Nothing to write -/

/-- A note that is to sound for no time begins no cycle. -/
theorem Span.soundingFrames_zero (step resume : ℕ) {cycle : ℕ} (hcycle : 0 < cycle) :
    soundingFrames step 0 resume cycle = 0 := by
  obtain ⟨hdvd, -, hleast⟩ := soundingFrames_spec step 0 resume hcycle
  rcases hleast with hnone | hless
  · exact hnone
  · apply Nat.eq_zero_of_dvd_of_lt hdvd
    omega

namespace Part

/-- A part that writes no frame. -/
def IsEmpty (part : Part) : Prop := ∀ span ∈ part.spans, span.count = 0

theorem place_of_rests (step quarters origin resume : ℕ) {steps : List Step}
    (h : steps.all Step.isRest = true) : place step quarters origin resume steps = ([], none) := by
  induction steps generalizing origin resume with
  | nil => rfl
  | cons s steps ih =>
    rw [List.all_cons, Bool.and_eq_true] at h
    cases s with
    | rest => exact ih _ _ h.2
    | note name => exact absurd h.1 nofun

theorem count_of_mem_place {step origin resume : ℕ} {steps : List Step} {span : Span}
    (h : span ∈ (place step 0 origin resume steps).1) : span.count = 0 := by
  induction steps generalizing origin resume with
  | nil => exact absurd h List.not_mem_nil
  | cons s steps ih =>
    cases s with
    | rest => exact ih h
    | note name =>
      rw [place] at h
      cases hframes : Pitch.cycleLength name with
      | error fault =>
        rw [hframes] at h
        exact absurd h List.not_mem_nil
      | ok frames =>
        rw [hframes] at h
        rcases List.mem_cons.mp h with rfl | h
        · exact Span.soundingFrames_zero step resume (by omega)
        · exact ih h

variable {R : Type} [Amplitude R] {σ : Type} [RandomSource σ] {part : Part}

/-- Nothing is played and nothing is drawn. -/
theorem IsEmpty.playAll_spans (h : part.IsEmpty) (instrument : Instrument) (buffer : Buffer R)
    (source : σ) : Span.playAll instrument part.spans buffer source = (buffer, source) := by
  have hstrokes : Span.strokesOf part.spans buffer.size = [] := by
    apply List.flatMap_eq_nil_iff.mpr
    intro span hspan
    rw [Span.strokes, Span.within, h span hspan, Nat.zero_min]
    rfl
  rw [Span.playAll_eq, hstrokes]
  rfl

end Part

/-! ## Silence -/

/-- Merging silence leaves a settled buffer as it is. -/
theorem Buffer.overlay_of_silent {R : Type} [Amplitude R] [LawfulFolding R]
    {target silent : Buffer R} (htarget : target.All Frame.Settled)
    (hsilent : silent.All (· = Frame.silent)) (offset : ℕ) :
    target.overlay silent offset = target := by
  refine Array.ext_getElem? fun j => ?_
  rw [getElem?_overlay]
  split_ifs
  · cases hf : target[j]? with
    | none => rfl
    | some f =>
      cases hg : silent[j - offset]? with
      | none => rfl
      | some g =>
        obtain rfl := all_iff.mp hsilent _ g hg
        exact congrArg some (LawfulFolding.add_silent f (all_iff.mp htarget j f hf))
  · rfl

/-- Silence has a silent echo. -/
theorem Frame.scale_silent (reverb : Reverb) :
    (Frame.silent.scale reverb.decay : Frame Float) = Frame.silent := by
  cases reverb <;> decide

namespace Part

variable {σ : Type} [RandomSource σ] {part : Part}

/-- An empty part changes neither a settled buffer nor the random source, also by way of a buffer of
its own. -/
theorem IsEmpty.play (h : part.IsEmpty) {buffer : Buffer Float}
    (hbuffer : buffer.All Frame.Settled) (source : σ) :
    part.play buffer source = (buffer, source) := by
  unfold Part.play
  simp only [h.playAll_spans]
  split_ifs
  · have hsilent : (Buffer.silence buffer.size : Buffer Float).All (· = Frame.silent) :=
      Buffer.all_silence _ rfl
    have hecho := hsilent.echo part.melody.instrument.reverb.delay
      part.melody.instrument.reverb.decay (by
        rintro f g rfl rfl
        rw [Frame.scale_silent]
        exact LawfulFolding.settled_silent)
    rw [Buffer.overlay_of_silent hbuffer hecho]
  · rfl

/-- An empty part can be put anywhere. -/
theorem playAll_insert (h : part.IsEmpty) (before after : List Part) {buffer : Buffer Float}
    (hbuffer : buffer.All Frame.Settled) (source : σ) :
    playAll (before ++ part :: after) buffer source = playAll (before ++ after) buffer source := by
  induction before generalizing buffer source with
  | nil =>
    show playAll after (part.play buffer source).1 (part.play buffer source).2 = _
    rw [h.play hbuffer]
    rfl
  | cons other before ih =>
    have hplayed := other.all_play kept_settled (fun _ _ _ _ _ => trivial) hbuffer source
    exact ih hplayed _

end Part

/-! ## Melodies -/

/-- A melody that cannot sound: its pattern is all rests, or all of its notes are valid and sound
for no part of a step. -/
def Melody.IsMute (melody : Melody) : Prop :=
  melody.pattern.isSilent = true ∨
    melody.instrument.length = .none ∧ ∀ note ∈ melody.pattern.notes, Pitch.IsNote note

/-- Its part is empty and has no fault. -/
theorem Melody.IsMute.ofMelody {melody : Melody} (h : melody.IsMute) (step : ℕ) :
    (Part.ofMelody step melody).IsEmpty ∧ (Part.ofMelody step melody).fault = none := by
  rcases h with hrests | ⟨hlength, hnotes⟩
  · have hplace := Part.place_of_rests step melody.instrument.length.quarters 0 0 hrests
    constructor
    · intro span hspan
      rw [Part.spans_ofMelody, hplace] at hspan
      exact absurd hspan List.not_mem_nil
    · exact congrArg Prod.snd hplace
  · constructor
    · intro span hspan
      rw [Part.spans_ofMelody, hlength] at hspan
      exact Part.count_of_mem_place hspan
    · refine (Part.place_fault_eq step _ 0 0 _).trans (List.findSome?_eq_none_iff.mpr ?_)
      intro note hnote
      exact if_pos (hnotes note hnote)

/-- A melody without a fault adds its part to a score, unless a melody before it is faulty. -/
theorem Score.partsOf_insert {step : ℕ} {melody : Melody}
    (h : (Part.ofMelody step melody).fault = none) (before after : List Melody) :
    ∃ front back, partsOf step (before ++ after) = front ++ back ∧
      (partsOf step (before ++ melody :: after) = front ++ back ∨
        partsOf step (before ++ melody :: after)
          = front ++ Part.ofMelody step melody :: back) := by
  induction before with
  | nil =>
    refine ⟨[], partsOf step after, rfl, Or.inr ?_⟩
    rw [List.nil_append, partsOf, h]
    rfl
  | cons first before ih =>
    rw [List.cons_append, List.cons_append, partsOf, partsOf]
    cases hfault : (Part.ofMelody step first).fault with
    | some fault => exact ⟨[Part.ofMelody step first], [], rfl, Or.inl rfl⟩
    | none =>
      obtain ⟨front, back, hwithout, hwith⟩ := ih
      refine ⟨Part.ofMelody step first :: front, back, congrArg _ hwithout, ?_⟩
      exact hwith.imp (congrArg _) (congrArg _)

/-- A melody that cannot sound makes no difference to the faults of a score, nor to what is
played. -/
theorem Score.insert_isMute {σ : Type} [RandomSource σ] {melody : Melody} (h : melody.IsMute)
    (step : ℕ) (before after : List Melody) {buffer : Buffer Float}
    (hbuffer : buffer.All Frame.Settled) (source : σ) :
    (partsOf step (before ++ melody :: after)).findSome? Part.fault
        = (partsOf step (before ++ after)).findSome? Part.fault ∧
      Part.playAll (partsOf step (before ++ melody :: after)) buffer source
        = Part.playAll (partsOf step (before ++ after)) buffer source := by
  obtain ⟨hempty, hfault⟩ := h.ofMelody step
  obtain ⟨front, back, hwithout, hwith⟩ := partsOf_insert hfault before after
  rw [hwithout]
  rcases hwith with hwith | hwith <;> rw [hwith]
  · exact ⟨rfl, rfl⟩
  · constructor
    · rw [List.findSome?_append, List.findSome?_append, List.findSome?_cons, hfault]
    · exact Part.playAll_insert hempty front back hbuffer source

/-! ## Phrases -/

namespace Phrase

/-- The phrase with one more melody, at a position in its list. -/
def insertMelody (phrase : Phrase) (position : ℕ) (melody : Melody) : Phrase :=
  { phrase with
    melodies := phrase.melodies.take position ++ melody :: phrase.melodies.drop position }

/-- A melody that fits the grid makes no difference to the checks of a phrase. -/
theorem validate_insertMelody {phrase : Phrase} {melody : Melody}
    (hlength : melody.pattern.length = phrase.stepCount) (position : ℕ) :
    (phrase.insertMelody position melody).validate = phrase.validate := by
  have hfits : phrase.checkSteps melody = .ok () := by
    unfold checkSteps
    exact if_pos hlength
  have hmelodies : (phrase.insertMelody position melody).melodies.forM phrase.checkSteps
      = phrase.melodies.forM phrase.checkSteps := by
    conv_rhs => rw [← List.take_append_drop position phrase.melodies]
    show forM (phrase.melodies.take position ++ melody :: phrase.melodies.drop position)
        phrase.checkSteps
      = forM (phrase.melodies.take position ++ phrase.melodies.drop position) phrase.checkSteps
    rw [List.forM_append, List.forM_append, List.forM_cons, hfits]
    rfl
  show (do
    phrase.checkPositive "tempo" phrase.tempo
    phrase.checkPositive "beats" phrase.beats
    phrase.checkPositive "subbeats" phrase.subbeats
    (phrase.insertMelody position melody).melodies.forM phrase.checkSteps) = phrase.validate
  rw [hmelodies]
  rfl

variable {σ : Type} [RandomSource σ]

/-- A phrase that does not pass its checks gives what they report. -/
theorem render_of_error {R : Type} [Amplitude R] {phrase : Phrase} {fault : Fault}
    (h : phrase.validate = .error fault) (source : σ) :
    (phrase.render.outcome source : Except Fault (Buffer R) × σ) = (.error fault, source) := by
  have hscore : phrase.score = .error fault := by
    rw [score, h]
    rfl
  unfold render Performance.outcome
  rw [hscore]
  rfl

/-- A melody that cannot sound makes no difference: a phrase gives the same buffer or the same
fault with it and without it, and leaves the random source in the same state, wherever the melody
stands and whatever its tone, its volume, its position and its reverb are. -/
theorem render_insertMelody {melody : Melody} (hmute : melody.IsMute) {phrase : Phrase}
    (hlength : melody.pattern.length = phrase.stepCount) (position : ℕ) (source : σ) :
    (phrase.insertMelody position melody).render.outcome source
      = (phrase.render.outcome source : Except Fault (Buffer Float) × σ) := by
  have hvalidate := validate_insertMelody hlength position
  cases hcheck : phrase.validate with
  | error fault =>
    rw [hcheck] at hvalidate
    rw [render_of_error hvalidate, render_of_error hcheck]
  | ok _ =>
    rw [hcheck] at hvalidate
    have hsilence : (Buffer.silence phrase.frameCount : Buffer Float).All Frame.Settled :=
      Buffer.all_silence _ LawfulFolding.settled_silent
    obtain ⟨hfaults, hplay⟩ := Score.insert_isMute hmute phrase.stepSize
      (phrase.melodies.take position) (phrase.melodies.drop position) hsilence source
    rw [List.take_append_drop] at hfaults hplay
    let inserted := phrase.insertMelody position melody
    let score : Score := ⟨inserted, Score.partsOf inserted.stepSize inserted.melodies⟩
    have hfault? : score.fault?
        = Score.fault? ⟨phrase, Score.partsOf phrase.stepSize phrase.melodies⟩ := hfaults
    have hplayed : (score.play source : Buffer Float × σ)
        = Score.play ⟨phrase, Score.partsOf phrase.stepSize phrase.melodies⟩ source := hplay
    rw [render_of_score (score_eq_ok.mpr ⟨hvalidate, rfl⟩),
      render_of_score (score_eq_ok.mpr ⟨hcheck, rfl⟩), ← hfault?, ← hplayed]

/-- A gust of wind and a tone, seven frames long. -/
def gustPhrase : Phrase :=
  ⟨"gust", 100000, 1, 2,
    [⟨{ name := "wind", tone := .noise }, ⟨"gust", [.note "A4", .rest]⟩⟩,
      ⟨{ name := "lead", tone := .square, reverb := .some }, ⟨"once", [.note "C6", .rest]⟩⟩]⟩

/-- Noise with an echo, on notes of no length. -/
def hush : Melody :=
  ⟨{ name := "hush", tone := .noise, length := .none, reverb := .lots },
    ⟨"held", [.note "A4", .note "C6"]⟩⟩

/-- It may stand between the two. -/
theorem gustPhrase_insertMelody : ∃ (buffer : Buffer Float) (source : ChaCha.Generator),
    gustPhrase.render.outcome (ChaCha.ofSeed 1) = (.ok buffer, source) ∧
      (gustPhrase.insertMelody 1 hush).render.outcome (ChaCha.ofSeed 1) = (.ok buffer, source) := by
  have hmute : hush.IsMute := Or.inr ⟨rfl, by decide⟩
  have hfault : (Score.partsOf gustPhrase.stepSize gustPhrase.melodies).findSome? Part.fault
      = none := by
    rw [Score.partsOf_fault_eq]
    decide
  obtain ⟨buffer, source, hrender⟩ : ∃ (buffer : Buffer Float) (source : ChaCha.Generator),
      gustPhrase.render.outcome (ChaCha.ofSeed 1) = (.ok buffer, source) :=
    ⟨_, _, render_eq_ok_iff.mpr ⟨by decide, hfault, rfl⟩⟩
  refine ⟨buffer, source, hrender, ?_⟩
  rw [render_insertMelody hmute (by decide), hrender]

end Phrase

end Chiptune
