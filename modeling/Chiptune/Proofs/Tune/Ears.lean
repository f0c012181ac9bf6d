import Chiptune.Proofs.Phrase.Ears
import Chiptune.Proofs.Range
import Chiptune.Proofs.Tune.Concatenation

/-!
# Tunes with one ear

What holds of the melodies of a phrase holds of a tune: whatever is played all the way on one side
is not heard on the other one. The phrases that are left without such melodies are as long as
before, so that they lie at the same places.

* `Tune.without`, a tune without some of its melodies, and `Tune.renderEach_without`;
* `Tune.render_hearsOwnSide`, the whole tune.
-/

namespace Chiptune

variable {R : Type}

/-- What one ear hears of a tune: of every buffer that it was built from, and of the whole. -/
def RenderedTune.channel (ear : Ear) (rendered : RenderedTune R) : Catalog (Array R) × Array R :=
  (rendered.phrases.map fun _ => Buffer.channel ear, rendered.buffer.channel ear)

variable [Amplitude R] {σ : Type} [RandomSource σ] {ear : Ear} {P Q : Frame R → Prop}

/-! ## Tunes -/

namespace Tune

/-- The tune without some of the melodies of its phrases. -/
def without (drop : String → Melody → Bool) (tune : Tune) : Tune :=
  tune.mapPhrases fun name => Phrase.without (drop name)

theorem renderEach_without [LawfulFolding R] (h : Mutes ear P Q) {drop : String → Melody → Bool}
    (hdrop : ∀ name melody, drop name melody = true → ∀ step,
      (Part.ofMelody step melody).Sounds σ Q ∧ melody.instrument.tone ≠ .noise)
    {tune : Tune} {names : List String} {source after : σ} {entries : List (String × Buffer R)}
    (hrender : (tune.renderEach names).outcome source = (.ok entries, after)) :
    ∃ entries' : List (String × Buffer R),
      ((tune.without drop).renderEach names).outcome source = (.ok entries', after) ∧
      (⟨entries'⟩ : Catalog (Buffer R)).map (fun _ => Buffer.channel ear)
        = (⟨entries⟩ : Catalog (Buffer R)).map fun _ => Buffer.channel ear := by
  induction names generalizing source after entries with
  | nil =>
    obtain ⟨rfl, rfl⟩ := Performance.eq_of_outcome_pure hrender
    exact ⟨[], rfl, rfl⟩
  | cons name names ih =>
    obtain ⟨phrase, s₁, hphrase, hrender⟩ := Performance.outcome_bind_eq_ok hrender
    obtain ⟨buffer, s₂, hbuffer, hrender⟩ := Performance.outcome_bind_eq_ok hrender
    obtain ⟨rest, s₃, hrest, hrender⟩ := Performance.outcome_bind_eq_ok hrender
    obtain ⟨rfl, rfl⟩ := Performance.eq_of_outcome_pure hrender
    have hget : tune.phrases.get? name = some phrase :=
      phrase_eq_ok.mp (congrArg Prod.fst hphrase)
    obtain rfl : source = s₁ := congrArg Prod.snd hphrase
    have hget' : (tune.without drop).phrases.get? name = some (phrase.without (drop name)) := by
      rw [without, get?_mapPhrases, hget]
      rfl
    obtain ⟨buffer', hbuffer', hchannel⟩ :=
      Phrase.render_without h (fun melody hmelody => hdrop name melody hmelody _) hbuffer
    obtain ⟨rest', hrest', hchannels⟩ := ih hrest
    refine ⟨(name, buffer') :: rest', ?_, ?_⟩
    · refine (Performance.outcome_bind_of_ok (outcome_phrase hget' _) _).trans ?_
      refine (Performance.outcome_bind_of_ok hbuffer' _).trans ?_
      exact Performance.outcome_bind_of_ok hrest' _
    · refine congrArg Catalog.mk (List.cons_eq_cons.mpr ⟨congrArg (Prod.mk name) hchannel, ?_⟩)
      exact congrArg Catalog.entries hchannels

end Tune

/-! ## Whole tunes -/

omit [Amplitude R] in
/-- Catalogs of which an ear hears the same are laid out alike. -/
theorem Catalog.alike_of_channel {ear : Ear} {buffers others : Catalog (Buffer R)}
    (h : (buffers.map fun _ => Buffer.channel ear) = others.map fun _ => Buffer.channel ear) :
    buffers.Alike ear.HearsAlike others := by
  intro name
  have hname := congrArg (·.get? name) h
  simp only [get?_map] at hname
  have hrel : Buffer.Alike (R := R) ear.HearsAlike = fun b d => b.channel ear = d.channel ear :=
    funext fun _ => funext fun _ => propext Buffer.alike_iff_channel
  rw [hrel]
  exact rel_eq_iff.mpr hname

namespace Tune

variable {sine : Float → Float}

/-- Melodies on an instrument that is moved all the way to one side can be left out of any phrases
of a tune: it is rendered as before, with the same draws, and the ear on the other side hears the
same in every buffer. Noise has to stay, but it is not heard either: where all melodies are on one
side, the other ear hears zeros. -/
theorem render_hearsOwnSide (hsine : ∀ x, x.isFinite = true → (sine x).isFinite = true)
    {tune : Tune} {source after : σ} {rendered : RenderedTune Float}
    (hrender : (tune.renderWith sine).outcome source = (.ok rendered, after)) (ear : Ear) :
    (∀ drop : String → Melody → Bool,
      (∀ name melody, drop name melody = true →
        melody.instrument.pan = ear.other.side ∧ melody.instrument.tone ≠ .noise) →
      ∃ rendered' : RenderedTune Float,
        ((tune.without drop).renderWith sine).outcome source = (.ok rendered', after) ∧
        rendered'.channel ear = rendered.channel ear) ∧
    ((∀ name ∈ tune.sequence, ∀ phrase, tune.phrases.get? name = some phrase →
        ∀ melody ∈ phrase.melodies, melody.instrument.pan = ear.other.side) →
      (∀ entry ∈ rendered.phrases.entries, ∀ frame ∈ entry.2, ear.hear frame = 0) ∧
        ∀ frame ∈ rendered.buffer, ear.hear frame = 0) := by
  have hmutes := mutes_binary64 sine ear
  let := Amplitude.binary64 sine
  have := Amplitude.lawfulFolding_binary64 sine
  obtain ⟨entries, size, hentries, hsize, rfl⟩ := render_eq_ok hrender
  constructor
  · intro drop hdrop
    obtain ⟨entries', hentries', hchannels⟩ := renderEach_without hmutes
      (fun name melody hmelody step => ⟨Part.sounds_isZero hsine (hdrop name melody hmelody).1 step,
        (hdrop name melody hmelody).2⟩) hentries
    have htiming : ∀ name (phrase : Phrase),
        (phrase.without (drop name)).frameCount = phrase.frameCount := fun _ _ => rfl
    have hsize' : (tune.without drop).frameCount = .ok size :=
      (frameCount_mapPhrases htiming tune).trans hsize
    have hplaces : (tune.without drop).placements 0 tune.sequence
        = tune.placements 0 tune.sequence := placements_mapPhrases htiming tune 0 tune.sequence
    refine ⟨_, render_of_renderEach hentries' hsize', Prod.ext hchannels ?_⟩
    show Buffer.channel ear (layOut _ _ ((tune.without drop).placements 0 tune.sequence)) = _
    rw [hplaces]
    exact Buffer.alike_iff_channel.mp (alike_layOut ear.congruence_hearsAlike
      (Catalog.alike_of_channel hchannels) _ (.silence ear.congruence_hearsAlike size))
  · intro hpan
    obtain ⟨hnames, hspec⟩ := renderEach_spec hentries
    have hall : ∀ entry ∈ entries, entry.2.All fun frame => ear.hear frame = 0 := by
      intro entry hentry
      obtain ⟨phrase, hphrase, before, after, hplay⟩ := hspec entry hentry
      have hname : entry.1 ∈ tune.sequence := by
        rw [← List.mem_eraseDups, ← hnames]
        exact List.mem_map_of_mem hentry
      refine Phrase.all_render hmutes.toKept (fun score hscore part hpart => ?_) hplay
      obtain ⟨-, rfl⟩ := Phrase.score_eq_ok.mp hscore
      rw [Score.eq_ofMelody hpart]
      exact Part.sounds_isZero hsine (hpan _ hname phrase hphrase _ (Score.melody_mem hpart)) _
    have hget : ∀ name sound, (⟨entries⟩ : Catalog (Buffer Float)).get? name = some sound →
        sound.All fun frame => ear.hear frame = 0 :=
      fun name sound hsound => hall _ (Catalog.mem_of_get?_eq_some hsound)
    exact ⟨hall, all_layOut hmutes.toKept hget _ (Buffer.all_silence size hmutes.silent)⟩

/-- A phrase of seven frames with a square wave and noise on the left, and an echoed square wave on
the right. -/
def stereoTune : Tune :=
  let lead : Instrument := { name := "lead", tone := .square, pan := .left }
  let hiss : Instrument := { name := "hiss", tone := .noise, pan := .left }
  let bass : Instrument := { name := "bass", tone := .square, pan := .right, reverb := .more }
  let on : Pattern := ⟨"on", [.note "C6", .rest]⟩
  ⟨"stereo", ["a", "a"],
    ⟨[("a", ⟨"a", 100000, 1, 2, [⟨lead, on⟩, ⟨hiss, on⟩, ⟨bass, on⟩]⟩)]⟩⟩

/-- The melodies on the left, without noise. -/
def tonesOnLeft (_ : String) (melody : Melody) : Bool :=
  melody.instrument.pan = .left ∧ melody.instrument.tone ≠ .noise

/-- All melodies on the right. -/
def allOnRight (_ : String) (melody : Melody) : Bool := melody.instrument.pan = .right

/-- Without its square wave on the left the tune sounds the same on the right, and without the one
on the right nothing is heard there. -/
theorem stereoTune_hearsOwnSide :
    (∃ rendered rendered' after,
      (stereoTune.renderWith fun _ => 0).outcome (ChaCha.ofSeed 1) = (.ok rendered, after) ∧
      ((stereoTune.without tonesOnLeft).renderWith fun _ => 0).outcome (ChaCha.ofSeed 1)
        = (.ok rendered', after) ∧
      rendered'.channel .right = rendered.channel .right) ∧
    ∃ rendered after,
      ((stereoTune.without allOnRight).renderWith fun _ => 0).outcome (ChaCha.ofSeed 1)
        = (.ok rendered, after) ∧
      rendered.buffer.size = 14 ∧ ∀ frame ∈ rendered.buffer, frame.right = 0 := by
  have hsine : ∀ x : Float, x.isFinite = true →
      ((fun _ => 0 : Float → Float) x).isFinite = true := fun _ _ => zero_spec.1
  have hboth : ((stereoTune.renderWith fun _ => 0).outcome
      (ChaCha.ofSeed 1)).1.toOption.isSome = true := by
    decide +kernel
  have hleft : (((stereoTune.without allOnRight).renderWith fun _ => 0).outcome
      (ChaCha.ofSeed 1)).1.toOption.any (·.buffer.size = 14) = true := by
    decide +kernel
  have hpan : ∀ entry ∈ (stereoTune.without allOnRight).phrases.entries,
      ∀ melody ∈ entry.2.melodies, melody.instrument.pan = Ear.right.other.side := by
    decide
  constructor
  · generalize houtcome : (stereoTune.renderWith fun _ => 0).outcome (ChaCha.ofSeed 1)
      = outcome at hboth
    obtain ⟨result, after⟩ := outcome
    obtain ⟨rendered, rfl⟩ := exists_eq_ok hboth
    obtain ⟨hdrop, -⟩ := render_hearsOwnSide hsine houtcome .right
    obtain ⟨rendered', houtcome', hchannel⟩ :=
      hdrop tonesOnLeft fun _ _ hmelody => of_decide_eq_true hmelody
    exact ⟨rendered, rendered', after, rfl, houtcome', hchannel⟩
  · generalize houtcome : ((stereoTune.without allOnRight).renderWith fun _ => 0).outcome
      (ChaCha.ofSeed 1) = outcome at hleft
    obtain ⟨result, after⟩ := outcome
    obtain ⟨rendered, rfl, hsize⟩ := exists_eq_ok_of_any hleft
    obtain ⟨-, hzeros⟩ := render_hearsOwnSide hsine houtcome .right
    refine ⟨rendered, after, rfl, of_decide_eq_true hsize, ?_⟩
    exact (hzeros fun name _ phrase hphrase =>
      hpan _ (Catalog.mem_of_get?_eq_some hphrase)).2

end Tune

end Chiptune
