import Chiptune.Proofs.Catalog
import Chiptune.Proofs.Check
import Chiptune.Proofs.Phrase.Playing
import Chiptune.Random.ChaCha
import Chiptune.Tune.Render

/-!
# A tune is the concatenation of its phrases

Phrases are laid out by merging their buffers into silence, each at the sum of the lengths before
it. The places do not overlap, and a settled buffer is not changed by being merged into silence, so
that the whole is the buffers laid end to end. The buffers themselves come from rendering each name
of the sequence once, in the order in which the names first occur.

* `Tune.renderEach`, rendering names one after the other, and `renderPhrases_outcome`, the cache;
* `layOut_eq`, the layout;
* `Tune.render_isConcatenation`, the whole tune.
-/

namespace Chiptune

variable {R : Type} [Amplitude R] {σ : Type} [RandomSource σ]

/-! ## Rendering each name once -/

/-- Renders phrases by name, one after the other. -/
def Tune.renderEach (tune : Tune) : List String → Performance σ (List (String × Buffer R))
  | [] => pure []
  | name :: names => do
    let phrase ← Report.ofExcept (tune.phrase name)
    let buffer ← phrase.render
    let entries ← renderEach tune names
    pure ((name, buffer) :: entries)

namespace Tune

/-- The cache is filled with the names that it does not hold yet, each rendered where it first
occurs. -/
theorem renderPhrases_outcome (tune : Tune) (buffers : Catalog (Buffer R)) (names : List String)
    (source : σ) :
    (tune.renderPhrases buffers names).outcome source =
      (tune.renderEach (names.filter fun name => !buffers.contains name).eraseDups >>=
        fun entries => pure ⟨buffers.entries ++ entries⟩ : Performance σ _).outcome source := by
  induction names generalizing buffers source with
  | nil =>
    show (Except.ok buffers, source) = (Except.ok ⟨buffers.entries ++ []⟩, source)
    rw [List.append_nil]
  | cons name names ih =>
    rw [renderPhrases]
    by_cases hname : buffers.contains name = true
    · rw [if_pos hname, List.filter_cons_of_neg (by simp [hname])]
      exact ih buffers source
    · rw [Bool.not_eq_true] at hname
      rw [if_neg (by simp [hname]), List.filter_cons_of_pos (by simp [hname]),
        List.eraseDups_cons, renderEach, Performance.outcome_bind_assoc]
      -- both sides render the new phrase first; then its name is taken for all later ones
      refine Performance.outcome_bind_congr _ (fun phrase source => ?_) source
      rw [Performance.outcome_bind_assoc]
      refine Performance.outcome_bind_congr _ (fun buffer source => ?_) source
      rw [ih, Performance.outcome_bind_assoc, List.filter_filter]
      have hfilter : (fun other => !(buffers.put name buffer).contains other)
          = fun other => (!other == name) && !buffers.contains other := by
        funext other
        rw [Catalog.contains_put_of_new hname, Bool.not_or, Bool.and_comm]
      rw [hfilter]
      refine Performance.outcome_bind_congr _ (fun entries source => ?_) source
      rw [Catalog.entries_put_of_new hname, List.append_assoc]
      rfl

/-- An empty cache is filled with all names. -/
theorem renderPhrases_empty_outcome (tune : Tune) (names : List String) (source : σ) :
    (tune.renderPhrases {} names).outcome source =
      (tune.renderEach names.eraseDups >>= fun entries => pure ⟨entries⟩ :
        Performance σ (Catalog (Buffer R))).outcome source := by
  have hfilter : names.filter (fun name => !({} : Catalog (Buffer R)).contains name) = names :=
    List.filter_eq_self.mpr fun name _ => rfl
  rw [renderPhrases_outcome, hfilter]
  rfl

theorem phrase_eq_ok {tune : Tune} {name : String} {phrase : Phrase} :
    tune.phrase name = .ok phrase ↔ tune.phrases.get? name = some phrase := by
  unfold Tune.phrase
  cases tune.phrases.get? name with
  | none => exact ⟨nofun, nofun⟩
  | some found =>
    exact ⟨fun h => congrArg some (Except.ok.inj h), fun h => congrArg _ (Option.some.inj h)⟩

omit [RandomSource σ] in
/-- Finding the phrase of a name draws nothing. -/
theorem outcome_phrase {tune : Tune} {name : String} {phrase : Phrase}
    (h : tune.phrases.get? name = some phrase) (source : σ) :
    (Performance.ofReport (Report.ofExcept (tune.phrase name))).outcome source
      = (.ok phrase, source) := by
  rw [Performance.outcome_ofReport, Report.ofExcept, phrase_eq_ok.mpr h]

/-- Every buffer comes from rendering the phrase of its name. -/
theorem renderEach_spec {tune : Tune} {names : List String} {source source' : σ}
    {entries : List (String × Buffer R)}
    (h : (tune.renderEach names).outcome source = (.ok entries, source')) :
    entries.map Prod.fst = names ∧ ∀ entry ∈ entries, ∃ phrase,
      tune.phrases.get? entry.1 = some phrase ∧
        ∃ before after : σ, phrase.render.outcome before = (.ok entry.2, after) := by
  induction names generalizing source source' entries with
  | nil =>
    obtain rfl := Except.ok.inj (congrArg Prod.fst h)
    exact ⟨rfl, fun entry hentry => absurd hentry List.not_mem_nil⟩
  | cons name names ih =>
    obtain ⟨phrase, s₁, hphrase, h⟩ := Performance.outcome_bind_eq_ok h
    obtain ⟨buffer, s₂, hbuffer, h⟩ := Performance.outcome_bind_eq_ok h
    obtain ⟨rest, s₃, hrest, h⟩ := Performance.outcome_bind_eq_ok h
    obtain rfl := Except.ok.inj (congrArg Prod.fst h)
    obtain ⟨hnames, hentries⟩ := ih hrest
    refine ⟨congrArg (name :: ·) hnames, fun entry hentry => ?_⟩
    rcases List.mem_cons.mp hentry with rfl | hentry
    · exact ⟨phrase, phrase_eq_ok.mp (congrArg Prod.fst hphrase), s₁, s₂, hbuffer⟩
    · exact hentries entry hentry

/-! ## Laying buffers end to end -/

/-- Buffers that are laid out from the end of what is there follow one another, as long as the
places are 64-bit counts. -/
theorem layOut_eq {tune : Tune} {buffers : Catalog (Buffer R)} {names : List String}
    {sounds : List (Buffer R)} (hsounds : names.map buffers.get? = sounds.map some)
    (hsettled : ∀ name sound, buffers.get? name = some sound → sound.All Frame.Settled)
    (hsize : ∀ name sound, buffers.get? name = some sound →
      ∃ phrase, tune.phrases.get? name = some phrase ∧ sound.size = phrase.frameCount)
    (front : Buffer R) (hfits : front.size + (sounds.map Array.size).sum < UInt64.size) :
    layOut buffers (front ++ Buffer.silence (sounds.map Array.size).sum)
        (tune.placements front.size names)
      = front ++ (sounds.flatMap Array.toList).toArray := by
  induction names generalizing sounds front with
  | nil =>
    obtain rfl : sounds = [] := List.map_eq_nil_iff.mp hsounds.symm
    rfl
  | cons name names ih =>
    cases sounds with
    | nil => exact absurd hsounds nofun
    | cons sound sounds =>
      obtain ⟨hsound, hrest⟩ := List.cons_eq_cons.mp hsounds
      obtain ⟨phrase, hphrase, hframes⟩ := hsize name sound hsound
      rw [List.map_cons, List.sum_cons, ← Nat.add_assoc, ← Array.size_append] at hfits
      have hoffset : (front.size + (tune.phrases.get? name).elim 0 Phrase.frameCount) % UInt64.size
          = (front ++ sound).size := by
        rw [hphrase, Option.elim_some, ← hframes, ← Array.size_append]
        exact Nat.mod_eq_of_lt ((Nat.le_add_right _ _).trans_lt hfits)
      rw [placements, layOut, hsound]
      simp only
      rw [List.map_cons, List.sum_cons, Buffer.overlay_silence (hsettled name sound hsound),
        hoffset, ih hrest _ hfits, List.flatMap_cons, Array.append_assoc, ← List.append_toArray,
        Array.toArray_toList]

/-- The phrases of a sequence, one for each name. -/
theorem sequenced_eq_ok {tune : Tune} {phrases : List Phrase} :
    tune.sequenced = .ok phrases ↔ tune.sequence.map tune.phrases.get? = phrases.map some := by
  rw [sequenced, mapM_eq_ok, ← List.forall₂_eq_eq_eq, List.forall₂_map_left_iff,
    List.forall₂_map_right_iff]
  simp only [phrase_eq_ok]

/-- The phrases of a sequence are found when all of its names stand for one. -/
theorem exists_sequenced {tune : Tune}
    (h : ∀ name ∈ tune.sequence, tune.phrases.contains name = true) :
    ∃ phrases, tune.sequenced = .ok phrases := by
  obtain ⟨phrases, hphrases⟩ := Catalog.exists_values h
  exact ⟨phrases, sequenced_eq_ok.mpr hphrases⟩

omit [Amplitude R] in
/-- The lengths of the buffers of a sequence are those of its phrases. -/
theorem map_size_sounds {tune : Tune} {buffers : Catalog (Buffer R)} {names : List String}
    {sounds : List (Buffer R)} {phrases : List Phrase}
    (hsounds : names.map buffers.get? = sounds.map some)
    (hphrases : names.map tune.phrases.get? = phrases.map some)
    (hsize : ∀ name sound, buffers.get? name = some sound →
      ∃ phrase, tune.phrases.get? name = some phrase ∧ sound.size = phrase.frameCount) :
    sounds.map Array.size = phrases.map Phrase.frameCount := by
  induction names generalizing sounds phrases with
  | nil =>
    obtain rfl : sounds = [] := List.map_eq_nil_iff.mp hsounds.symm
    obtain rfl : phrases = [] := List.map_eq_nil_iff.mp hphrases.symm
    rfl
  | cons name names ih =>
    cases sounds with
    | nil => exact absurd hsounds nofun
    | cons sound sounds =>
      cases phrases with
      | nil => exact absurd hphrases nofun
      | cons phrase phrases =>
        obtain ⟨hsound, hsounds⟩ := List.cons_eq_cons.mp hsounds
        obtain ⟨hphrase, hphrases⟩ := List.cons_eq_cons.mp hphrases
        obtain ⟨phrase', hphrase', hframes⟩ := hsize name sound hsound
        obtain rfl := Option.some.inj (hphrase.symm.trans hphrase')
        exact List.cons_eq_cons.mpr ⟨hframes, ih hsounds hphrases⟩

/-! ## The whole tune -/

/-- The length of a tune is the sum over its sequence, as a 64-bit count. -/
theorem frameCount_eq_ok {tune : Tune} {size : ℕ} :
    tune.frameCount = .ok size ↔
      ∃ phrases, tune.sequenced = .ok phrases ∧
        size = (phrases.map Phrase.frameCount).sum % UInt64.size := by
  unfold Tune.frameCount
  cases tune.sequenced with
  | error fault => exact ⟨nofun, nofun⟩
  | ok phrases =>
    constructor
    · intro h
      exact ⟨phrases, rfl, (Except.ok.inj h).symm⟩
    · rintro ⟨other, hother, rfl⟩
      obtain rfl := Except.ok.inj hother
      rfl

/-- What a rendered tune is made of. -/
theorem render_eq_ok {tune : Tune} {source source' : σ} {rendered : RenderedTune R}
    (h : tune.render.outcome source = (.ok rendered, source')) :
    ∃ entries size,
      (tune.renderEach tune.sequence.eraseDups).outcome source = (.ok entries, source') ∧
      tune.frameCount = .ok size ∧ rendered = ⟨tune.name, ⟨entries⟩,
        layOut ⟨entries⟩ (Buffer.silence size) (tune.placements 0 tune.sequence)⟩ := by
  obtain ⟨buffers, s₁, hbuffers, h⟩ := Performance.outcome_bind_eq_ok h
  obtain ⟨size, s₂, hsize, h⟩ := Performance.outcome_bind_eq_ok h
  obtain ⟨placed, s₃, hplaced, h⟩ := Performance.outcome_bind_eq_ok h
  obtain ⟨told, s₄, htold, h⟩ := Performance.outcome_bind_eq_ok h
  rw [renderPhrases_empty_outcome] at hbuffers
  obtain ⟨entries, s₅, hentries, hbuffers⟩ := Performance.outcome_bind_eq_ok hbuffers
  obtain ⟨hcache, hs₅⟩ := Performance.eq_of_outcome_pure hbuffers
  obtain ⟨hsize, hs₁⟩ := Performance.eq_of_outcome_ofReport hsize
  obtain ⟨-, hs₂⟩ := Performance.eq_of_outcome_ofReport hplaced
  obtain ⟨-, hs₃⟩ := Performance.eq_of_outcome_ofReport htold
  obtain ⟨hrendered, hs₄⟩ := Performance.eq_of_outcome_pure h
  have hsource : s₅ = source' := hs₅.trans (hs₁.trans (hs₂.trans (hs₃.trans hs₄)))
  have hcache' : (⟨entries⟩ : Catalog (Buffer R)) = buffers := hcache
  rw [hsource] at hentries
  exact ⟨entries, size, hentries, hsize, by rw [hcache', hrendered]⟩

/-- A tune is rendered when its phrases are and its length is known. -/
theorem render_of_renderEach {tune : Tune} {source source' : σ} {entries : List (String × Buffer R)}
    {size : ℕ} (hentries : (tune.renderEach tune.sequence.eraseDups).outcome source
      = (.ok entries, source')) (hsize : tune.frameCount = .ok size) :
    tune.render.outcome source = (.ok ⟨tune.name, ⟨entries⟩,
      layOut ⟨entries⟩ (Buffer.silence size) (tune.placements 0 tune.sequence)⟩, source') := by
  have hcache : (tune.renderPhrases {} tune.sequence).outcome source
      = (.ok ⟨entries⟩, source') := by
    rw [renderPhrases_empty_outcome, Performance.outcome_bind_of_ok hentries]
    rfl
  have hlength : (Performance.ofReport (Report.ofExcept tune.frameCount)).outcome source'
      = (.ok size, source') := by
    rw [Performance.outcome_ofReport, Report.ofExcept, hsize]
  rw [render, Performance.outcome_bind_of_ok hcache]
  exact Performance.outcome_bind_of_ok hlength _

/-- The fault of a phrase is the fault of the tune. -/
theorem render_of_renderEach_error {tune : Tune} {source : σ} {fault : Fault}
    (h : ((tune.renderEach tune.sequence.eraseDups).outcome source :
      Except Fault (List (String × Buffer R)) × σ).1 = .error fault) :
    (tune.render.outcome source : Except Fault (RenderedTune R) × σ).1 = .error fault := by
  rw [render, Performance.result_outcome_bind, renderPhrases_empty_outcome,
    Performance.result_outcome_bind, h]
  rfl

/-- A rendered buffer is settled and as long as its phrase. -/
theorem settled_of_renderEach [LawfulFolding R] {tune : Tune} {names : List String}
    {source source' : σ} {entries : List (String × Buffer R)}
    (h : (tune.renderEach names).outcome source = (.ok entries, source')) {name : String}
    {sound : Buffer R} (hsound : (⟨entries⟩ : Catalog (Buffer R)).get? name = some sound) :
    sound.All Frame.Settled ∧
      ∃ phrase, tune.phrases.get? name = some phrase ∧ sound.size = phrase.frameCount := by
  obtain ⟨-, hspec⟩ := renderEach_spec h
  obtain ⟨phrase, hphrase, before, after, hplay⟩ := hspec _ (Catalog.mem_of_get?_eq_some hsound)
  exact ⟨Phrase.all_render kept_settled (fun _ _ _ _ _ _ _ _ _ => trivial) hplay,
    phrase, hphrase, Phrase.size_render hplay⟩

/-- The sound of a tune is the sounds of its phrases laid end to end in the order of the sequence,
and each of those comes from rendering its phrase once, where its name first occurs. -/
theorem render_isConcatenation {tune : Tune} {source source' : σ} {rendered : RenderedTune Float}
    (hrender : tune.render.outcome source = (.ok rendered, source'))
    (hfits : ∀ phrases, tune.sequenced = .ok phrases →
      (phrases.map Phrase.frameCount).sum < UInt64.size) :
    ∃ phrases, tune.sequenced = .ok phrases ∧
    (∃ sounds : List (Buffer Float), tune.sequence.map rendered.phrases.get? = sounds.map some ∧
      rendered.buffer.toList = sounds.flatMap Array.toList) ∧
    rendered.buffer.size = (phrases.map Phrase.frameCount).sum ∧
    tune.frameCount = .ok rendered.buffer.size ∧
    (∀ name, rendered.phrases.contains name = true ↔ name ∈ tune.sequence) ∧
    (tune.renderEach tune.sequence.eraseDups).outcome source
      = (.ok rendered.phrases.entries, source') := by
  obtain ⟨entries, size, hentries, hsize, rfl⟩ := render_eq_ok hrender
  obtain ⟨hnames, -⟩ := renderEach_spec hentries
  obtain ⟨phrases, hphrases, hmod⟩ := frameCount_eq_ok.mp hsize
  rw [Nat.mod_eq_of_lt (hfits phrases hphrases)] at hmod
  have hcontains : ∀ name, (⟨entries⟩ : Catalog (Buffer Float)).contains name = true ↔
      name ∈ tune.sequence := by
    intro name
    rw [Catalog.contains_iff, Catalog.names, hnames, List.mem_eraseDups]
  have hsettled : ∀ name sound, (⟨entries⟩ : Catalog (Buffer Float)).get? name = some sound →
      sound.All Frame.Settled :=
    fun _ _ h => (settled_of_renderEach hentries h).1
  have hframes : ∀ name sound, (⟨entries⟩ : Catalog (Buffer Float)).get? name = some sound →
      ∃ phrase, tune.phrases.get? name = some phrase ∧ sound.size = phrase.frameCount :=
    fun _ _ h => (settled_of_renderEach hentries h).2
  obtain ⟨sounds, hsounds⟩ := Catalog.exists_values fun name hname => (hcontains name).mpr hname
  have hsum : (sounds.map Array.size).sum = (phrases.map Phrase.frameCount).sum := by
    rw [map_size_sounds hsounds (sequenced_eq_ok.mp hphrases) hframes]
  obtain rfl : size = (sounds.map Array.size).sum := hmod.trans hsum.symm
  have hplaces : (sounds.map Array.size).sum < UInt64.size := hsum ▸ hfits phrases hphrases
  have hlayout := layOut_eq hsounds hsettled hframes #[] ((Nat.zero_add _).trans_lt hplaces)
  rw [Array.empty_append, Array.empty_append] at hlayout
  have hbuffer : layOut ⟨entries⟩ (Buffer.silence (sounds.map Array.size).sum)
      (tune.placements 0 tune.sequence) = (sounds.flatMap Array.toList).toArray := hlayout
  have hlength : (sounds.flatMap Array.toList).toArray.size = (sounds.map Array.size).sum := by
    rw [List.size_toArray, List.length_flatMap]
    rfl
  refine ⟨phrases, hphrases, ⟨sounds, hsounds, ?_⟩, ?_, ?_, hcontains, hentries⟩
  · rw [hbuffer]
  · rw [hbuffer, hlength, hsum]
  · rw [hbuffer, hlength, hsize]

/-- Two phrases of seven frames, each with one note. -/
def shortPhrase (name note : String) : Phrase :=
  ⟨name, 100000, 1, 2, [⟨{ name := "lead", tone := .square }, ⟨"once", [.note note, .rest]⟩⟩]⟩

/-- The first of them comes back after the second. -/
def shortTune : Tune :=
  ⟨"short", ["a", "b", "a"], ⟨[("a", shortPhrase "a" "C6"), ("b", shortPhrase "b" "G6")]⟩⟩

theorem shortTune_isConcatenation : ∃ (rendered : RenderedTune Float) (source' : ChaCha.Generator),
    shortTune.render.outcome (ChaCha.ofSeed 1) = (.ok rendered, source') ∧
    (∃ sounds : List (Buffer Float),
      shortTune.sequence.map rendered.phrases.get? = sounds.map some ∧
      rendered.buffer.toList = sounds.flatMap Array.toList) ∧
    rendered.buffer.size = 21 ∧ shortTune.frameCount = .ok rendered.buffer.size ∧
    (∀ name, rendered.phrases.contains name = true ↔ name ∈ shortTune.sequence) ∧
    (shortTune.renderEach shortTune.sequence.eraseDups).outcome (ChaCha.ofSeed 1)
      = (.ok rendered.phrases.entries, source') := by
  have hok : ((shortTune.render : Performance ChaCha.Generator (RenderedTune Float)).outcome
      (ChaCha.ofSeed 1)).1.toOption.isSome = true := by
    decide +kernel
  have hsizes : ([shortPhrase "a" "C6", shortPhrase "b" "G6", shortPhrase "a" "C6"].map
      Phrase.frameCount).sum = 21 := by
    decide +kernel
  have hsequenced : shortTune.sequenced
      = .ok [shortPhrase "a" "C6", shortPhrase "b" "G6", shortPhrase "a" "C6"] := rfl
  generalize houtcome : (shortTune.render :
    Performance ChaCha.Generator (RenderedTune Float)).outcome (ChaCha.ofSeed 1) = outcome at hok
  obtain ⟨result, source'⟩ := outcome
  obtain ⟨rendered, rfl⟩ := exists_eq_ok hok
  obtain ⟨phrases, hphrases, h⟩ := render_isConcatenation houtcome fun phrases hphrases => by
    obtain rfl := Except.ok.inj (hsequenced.symm.trans hphrases)
    rw [hsizes]
    decide
  obtain rfl := Except.ok.inj (hsequenced.symm.trans hphrases)
  rw [hsizes] at h
  exact ⟨rendered, source', rfl, h⟩

end Tune

end Chiptune
