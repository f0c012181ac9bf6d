import Chiptune.Proofs.Tone
import Chiptune.Proofs.Tune.Concatenation

/-!
# Everything that is rendered is in range

Merging a finite frame into a frame in range gives a frame in range: the sum cannot overflow, and
folding brings it back. Since nothing is ever written into a buffer but by merging, every frame of
every buffer is in range, whatever finite amplitudes come out of the oscillators and however many of
them meet.

* `kept_inRange`, one merge;
* `Part.sounds_isFinite`, what is merged;
* `rendered_inRange`, phrases and tunes.
-/

namespace Chiptune

open Amplitude Binary64

variable {sine : Float → Float} {σ : Type} [RandomSource σ]

/-! ## One merge -/

theorem InRange.fold_add {v w : Float} (hv : InRange v) (hw : w.isFinite = true) :
    InRange (fold (v + w)) :=
  fold_inRange (finite_add hv.1 hw (Or.inl hv.2)).1

/-- Merging what is finite keeps a frame in range, and so do echoes. -/
theorem kept_inRange (sine : Float → Float) :
    @Kept Float (.binary64 sine) Frame.InRange Frame.IsFinite := by
  let := Amplitude.binary64 sine
  exact {
    silent := ⟨zero_inRange, zero_inRange⟩
    add := fun a b ha hb => ⟨ha.1.fold_add hb.1, ha.2.fold_add hb.2⟩
    whole := fun a ha => ⟨ha.1.1, ha.2.1⟩
    echo := fun a reverb ha => ⟨(mul_le_of_inRange ha.1.1 reverb.decay_inRange).1,
      (mul_le_of_inRange ha.2.1 reverb.decay_inRange).1⟩ }

/-! ## What is merged -/

/-- The frames of every part of a score are finite when the sine is. -/
theorem Part.sounds_isFinite (hsine : ∀ x, x.isFinite = true → (sine x).isFinite = true)
    {phrase : Phrase} {score : Score} (hscore : phrase.score = .ok score) {part : Part}
    (hpart : part ∈ score.parts) : @Part.Sounds Float (.binary64 sine) σ _ Frame.IsFinite part := by
  obtain ⟨-, rfl⟩ := Phrase.score_eq_ok.mp hscore
  intro span hspan index hindex source
  rw [Score.eq_ofMelody hpart] at hspan
  obtain ⟨-, hle⟩ := Part.cycle_bounds hspan
  exact Instrument.frameAt_isFinite hsine part.melody.instrument (by omega) hindex source

/-! ## Phrases and tunes -/

/-- Overlaying buffers keeps a property that merging keeps. -/
theorem Tune.all_layOut {R : Type} [Amplitude R] {P Q : Frame R → Prop} (hkept : Kept P Q)
    {buffers : Catalog (Buffer R)}
    (hbuffers : ∀ name sound, buffers.get? name = some sound → sound.All P)
    (places : List (String × ℕ)) {buffer : Buffer R} (hbuffer : buffer.All P) :
    (layOut buffers buffer places).All P := by
  induction places generalizing buffer with
  | nil => exact hbuffer
  | cons place places ih =>
    obtain ⟨name, offset⟩ := place
    rw [layOut]
    split
    · rename_i sound hsound
      exact ih (hbuffer.overlay (hbuffers name sound hsound) offset
        fun f g hf hg => hkept.add f g hf (hkept.whole g hg))
    · exact ih hbuffer

/-- Both channels lie between -1 and 1. -/
def Frame.Bounded (frame : Frame Float) : Prop :=
  (-1 ≤ frame.left ∧ frame.left ≤ 1) ∧ -1 ≤ frame.right ∧ frame.right ≤ 1

theorem Frame.InRange.bounded {frame : Frame Float} (h : frame.InRange) : frame.Bounded := by
  unfold Frame.Bounded
  rw [one_eq]
  exact ⟨(inRange_iff.mp h.1).2, (inRange_iff.mp h.2).2⟩

/-- The sound of a tune with a given sine. -/
def Tune.renderWith (sine : Float → Float) (tune : Tune) : Performance σ (RenderedTune Float) :=
  @Tune.render Float (.binary64 sine) σ _ tune

theorem Tune.renderWith_sin (tune : Tune) :
    (tune.renderWith Float.sin : Performance σ (RenderedTune Float)) = tune.render := rfl

/-- A rendered phrase has the length of its measure, and all that is rendered is in range: the
phrase, every buffer that a tune is built from, and the tune. -/
theorem rendered_inRange {sine : Float → Float}
    (hsine : ∀ x, x.isFinite = true → (sine x).isFinite = true) (source : σ) :
    (∀ (phrase : Phrase) (buffer : Buffer Float),
      ((phrase.renderWith sine).outcome source).1 = .ok buffer →
        buffer.size = phrase.frameCount ∧ buffer.All Frame.Bounded) ∧
    (∀ (tune : Tune) (rendered : RenderedTune Float),
      ((tune.renderWith sine).outcome source).1 = .ok rendered →
        (∀ entry ∈ rendered.phrases.entries, entry.2.All Frame.Bounded) ∧
          rendered.buffer.All Frame.Bounded) := by
  let := Amplitude.binary64 sine
  have hphrase : ∀ {phrase : Phrase} {before after : σ} {buffer : Buffer Float},
      phrase.render.outcome before = (.ok buffer, after) → buffer.All Frame.InRange :=
    fun h => Phrase.all_render (kept_inRange sine)
      (fun _ hscore _ hpart => Part.sounds_isFinite hsine hscore hpart) h
  constructor
  · intro phrase buffer h
    have houtcome : phrase.render.outcome source = (.ok buffer, (phrase.render.outcome source).2) :=
      Prod.ext h rfl
    exact ⟨Phrase.size_render houtcome, fun f hf => (hphrase houtcome f hf).bounded⟩
  -- the cached buffers are rendered phrases, and the layout only merges them
  · intro tune rendered h
    obtain ⟨entries, size, hentries, -, rfl⟩ := Tune.render_eq_ok (Prod.ext h rfl)
    obtain ⟨-, hspec⟩ := Tune.renderEach_spec hentries
    have hall : ∀ entry ∈ entries, entry.2.All Frame.InRange := by
      intro entry hentry
      obtain ⟨phrase, -, before, after, hplay⟩ := hspec entry hentry
      exact hphrase hplay
    have hget : ∀ name sound, (⟨entries⟩ : Catalog (Buffer Float)).get? name = some sound →
        sound.All Frame.InRange :=
      fun name sound hsound => hall _ (Catalog.mem_of_get?_eq_some hsound)
    have hlayout := Tune.all_layOut (kept_inRange sine) hget
      (tune.placements 0 tune.sequence) (Buffer.all_silence size (kept_inRange sine).silent)
    exact ⟨fun entry hentry f hf => (hall entry hentry f hf).bounded,
      fun f hf => (hlayout f hf).bounded⟩

/-- Five square waves on the left, a quarter loud each. They never ask for a sine. -/
def loudPhrase : Phrase :=
  ⟨"loud", 100000, 1, 2, List.replicate 5
    ⟨{ name := "lead", tone := .square, pan := .left }, ⟨"once", [.note "C6", .rest]⟩⟩⟩

/-- The phrase two times. -/
def loudTune : Tune := ⟨"loud", ["loud", "loud"], ⟨[("loud", loudPhrase)]⟩⟩

/-- Together they overshoot by a quarter, first upward and in the last frame downward, and are
folded back. -/
theorem loudTune_inRange : ∃ (buffer : Buffer Float) (rendered : RenderedTune Float),
    ((loudPhrase.renderWith fun _ => 0).outcome (ChaCha.ofSeed 1)).1 = .ok buffer ∧
    buffer[0]? = some ⟨3 / 4, 0⟩ ∧ buffer.size = 7 ∧ buffer.All Frame.Bounded ∧
    ((loudTune.renderWith fun _ => 0).outcome (ChaCha.ofSeed 1)).1 = .ok rendered ∧
    rendered.buffer[13]? = some ⟨-(3 / 4), 0⟩ ∧
    (∀ entry ∈ rendered.phrases.entries, entry.2.All Frame.Bounded) ∧
    rendered.buffer.All Frame.Bounded := by
  have hphrase : ((loudPhrase.renderWith fun _ => 0).outcome (ChaCha.ofSeed 1)).1.toOption.any
      (fun buffer => buffer[0]? = some ⟨3 / 4, 0⟩) = true := by
    decide +kernel
  have htune : ((loudTune.renderWith fun _ => 0).outcome (ChaCha.ofSeed 1)).1.toOption.any
      (fun rendered => rendered.buffer[13]? = some ⟨-(3 / 4), 0⟩) = true := by
    decide +kernel
  have hframes : loudPhrase.frameCount = 7 := by decide +kernel
  have hsine : ∀ x : Float, x.isFinite = true →
      ((fun _ => 0 : Float → Float) x).isFinite = true := fun _ _ => zero_spec.1
  obtain ⟨hphrases, htunes⟩ := rendered_inRange hsine (ChaCha.ofSeed 1)
  obtain ⟨buffer, hbuffer, hfirst⟩ := exists_eq_ok_of_any hphrase
  obtain ⟨rendered, hrendered, hlast⟩ := exists_eq_ok_of_any htune
  obtain ⟨hsize, hbounded⟩ := hphrases _ buffer hbuffer
  exact ⟨buffer, rendered, hbuffer, of_decide_eq_true hfirst, hsize.trans hframes, hbounded,
    hrendered, of_decide_eq_true hlast, htunes _ rendered hrendered⟩

end Chiptune
