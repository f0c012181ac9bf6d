import Chiptune.Proofs.Phrase.Draws
import Chiptune.Proofs.Tune.Concatenation

/-!
# What a tune draws from the random source

The phrases of a tune are played one after the other with one source, each of them once. What a tune
draws is therefore the sum of what its phrases draw, however often they come back, and a tune
without noise sounds alike with all sources.

* `Tune.draws`, the number of words drawn, and `Tune.renderEach_tally`;
* `Tune.NoiseFree` and `Tune.renderPhrases_of_noiseFree`, tunes without noise;
* `Tune.render_drawsAudibleNoise`, both for the whole tune.
-/

namespace Chiptune

variable {R : Type} [Amplitude R] {σ τ : Type} [RandomSource σ] [RandomSource τ]

namespace Tune

/-! ## Counting draws -/

/-- The number of words that the phrase of a name draws. -/
def drawsOf (tune : Tune) (name : String) : ℕ := (tune.phrases.get? name).elim 0 Phrase.draws

/-- The number of words that a tune draws: those of its phrases, each name of the sequence counting
once. -/
def draws (tune : Tune) : ℕ := (tune.sequence.eraseDups.map tune.drawsOf).sum

theorem renderEach_tally {tune : Tune} {names : List String} {source source' : σ}
    {entries : List (String × Buffer R)}
    (h : (tune.renderEach names).outcome source = (.ok entries, source')) (drawn : ℕ) :
    (tune.renderEach names).outcome (⟨source, drawn⟩ : Tally σ)
      = (.ok entries, ⟨source', drawn + (names.map tune.drawsOf).sum⟩) := by
  induction names generalizing source source' entries drawn with
  | nil =>
    obtain ⟨rfl, rfl⟩ := Performance.eq_of_outcome_pure h
    rfl
  | cons name names ih =>
    obtain ⟨phrase, s₁, hphrase, h⟩ := Performance.outcome_bind_eq_ok h
    obtain ⟨buffer, s₂, hbuffer, h⟩ := Performance.outcome_bind_eq_ok h
    obtain ⟨rest, s₃, hrest, h⟩ := Performance.outcome_bind_eq_ok h
    obtain ⟨rfl, rfl⟩ := Performance.eq_of_outcome_pure h
    have hget : tune.phrases.get? name = some phrase :=
      phrase_eq_ok.mp (congrArg Prod.fst hphrase)
    obtain rfl : source = s₁ := congrArg Prod.snd hphrase
    have hdraws : tune.drawsOf name = phrase.draws := by
      rw [drawsOf, hget, Option.elim_some]
    rw [List.map_cons, List.sum_cons, hdraws, ← Nat.add_assoc]
    refine (Performance.outcome_bind_of_ok (outcome_phrase hget _) _).trans ?_
    refine (Performance.outcome_bind_of_ok (Phrase.render_tally hbuffer drawn) _).trans ?_
    exact Performance.outcome_bind_of_ok (ih hrest _) _

/-! ## Without noise -/

/-- No phrase of the sequence is played with noise. -/
def NoiseFree (tune : Tune) : Prop :=
  ∀ name ∈ tune.sequence, ∀ phrase, tune.phrases.get? name = some phrase → phrase.NoiseFree

theorem renderPhrases_of_noiseFree {tune : Tune} {names : List String}
    (h : ∀ name ∈ names, ∀ phrase, tune.phrases.get? name = some phrase → phrase.NoiseFree)
    (buffers : Catalog (Buffer R)) (source : σ) (other : τ) :
    tune.renderPhrases buffers names source
      = ((tune.renderPhrases buffers names other).1, source) := by
  induction names generalizing buffers source other with
  | nil => rfl
  | cons name names ih =>
    obtain ⟨hname, hnames⟩ := List.forall_mem_cons.mp h
    rw [renderPhrases, renderPhrases]
    split_ifs with hcached
    · exact ih hnames buffers source other
    · refine Performance.bind_ofReport_of_unmoved _ (fun phrase hphrase => ?_) source other
      have hfree : phrase.NoiseFree := hname phrase (phrase_eq_ok.mp hphrase)
      exact Performance.bind_of_unmoved (Phrase.render_of_noiseFree hfree)
        fun buffer _ _ => ih hnames _

/-! ## Whole tunes -/

/-- A tune that is rendered draws one word for each frame that a melody with noise writes within the
buffer of its phrase, phrase by phrase, and nothing when a phrase comes back; counting the draws
changes nothing. A tune without noise gives one report with any two sources, be it a sound or a
fault, and leaves them as they were. -/
theorem render_drawsAudibleNoise (tune : Tune) (source : σ) :
    (∀ (rendered : RenderedTune R) (after : σ),
      tune.render.outcome source = (.ok rendered, after) →
        tune.render.outcome (⟨source, 0⟩ : Tally σ) = (.ok rendered, ⟨after, tune.draws⟩)) ∧
    (tune.NoiseFree → ∀ other : τ,
      (tune.render source : Report (RenderedTune R) × σ).1 = (tune.render other).1 ∧
      (tune.render source : Report (RenderedTune R) × σ).2 = source ∧
      (tune.render other : Report (RenderedTune R) × τ).2 = other) := by
  constructor
  · intro rendered after h
    obtain ⟨entries, size, hentries, hsize, rfl⟩ := render_eq_ok h
    have htally := renderEach_tally hentries 0
    rw [Nat.zero_add] at htally
    exact render_of_renderEach htally hsize
  · intro hfree other
    have hunmoved : ∀ {σ τ : Type} [RandomSource σ] [RandomSource τ] (source : σ) (other : τ),
        tune.render source = ((tune.render other : Report (RenderedTune R) × τ).1, source) := by
      intro σ τ _ _ source other
      refine Performance.bind_of_unmoved (renderPhrases_of_noiseFree hfree {})
        (fun buffers _ _ => ?_) source other
      exact Performance.bind_ofReport_of_unmoved _ fun _ _ _ _ => rfl
    exact ⟨by rw [hunmoved source other], by rw [hunmoved source other],
      by rw [hunmoved other source]⟩

/-- Two phrases of seven frames. The noise of the first one fills it and goes on past its end; that
of the second one starts with the second of its steps, at its fourth frame. -/
def hissTune : Tune :=
  let hiss : Instrument := { name := "hiss", tone := .noise }
  let lead : Instrument := { name := "lead", tone := .square }
  ⟨"hiss", ["a", "b", "a"],
    ⟨[("a", ⟨"a", 100000, 1, 2,
        [⟨hiss, ⟨"on", [.note "C6", .rest]⟩⟩, ⟨lead, ⟨"on", [.note "C6", .rest]⟩⟩]⟩),
      ("b", ⟨"b", 100000, 1, 2, [⟨hiss, ⟨"off", [.rest, .note "C6"]⟩⟩]⟩)]⟩⟩

/-- Of eleven frames in a cycle seven and three lie within the phrases. -/
theorem hissTune_drawsAudibleNoise :
    (∃ (rendered : RenderedTune Float) (after : ChaCha.Generator),
      hissTune.render.outcome (⟨ChaCha.ofSeed 1, 0⟩ : Tally ChaCha.Generator)
        = (.ok rendered, ⟨after, 10⟩)) ∧
    (shortTune.render (ChaCha.ofSeed 1) : Report (RenderedTune Float) × ChaCha.Generator).1
      = (shortTune.render (ChaCha.ofSeed 2)).1 := by
  have hok : ((hissTune.render : Performance ChaCha.Generator (RenderedTune Float)).outcome
      (ChaCha.ofSeed 1)).1.toOption.isSome = true := by
    decide +kernel
  have hdraws : hissTune.draws = 10 := by decide +kernel
  have hfree : shortTune.NoiseFree := by
    intro name _ phrase hphrase melody hmelody
    have hall : ∀ entry ∈ shortTune.phrases.entries, ∀ melody ∈ entry.2.melodies,
        melody.instrument.tone ≠ .noise := by
      decide
    exact hall _ (Catalog.mem_of_get?_eq_some hphrase) melody hmelody
  obtain ⟨hcount, -⟩ := render_drawsAudibleNoise (R := Float) (τ := ChaCha.Generator) hissTune
    (ChaCha.ofSeed 1)
  obtain ⟨-, hsame⟩ := render_drawsAudibleNoise (R := Float) (τ := ChaCha.Generator) shortTune
    (ChaCha.ofSeed 1)
  refine ⟨?_, (hsame hfree (ChaCha.ofSeed 2)).1⟩
  generalize houtcome : (hissTune.render :
    Performance ChaCha.Generator (RenderedTune Float)).outcome (ChaCha.ofSeed 1) = outcome at hok
  obtain ⟨result, after⟩ := outcome
  obtain ⟨rendered, rfl⟩ := exists_eq_ok hok
  have htally := hcount rendered after houtcome
  rw [hdraws] at htally
  exact ⟨rendered, after, htally⟩

end Tune

end Chiptune
