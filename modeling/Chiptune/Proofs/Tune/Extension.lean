import Chiptune.Proofs.Tune.Concatenation

/-!
# Extending a sequence

Phrases that are added to the end of a sequence change nothing that was there. The names that are
already in the sequence are rendered first and from the same source, so that their buffers are the
same, with all their noise; and the new buffers are laid out behind the end of the old ones. What
else the two tunes define does not matter.

* `Tune.renderEach_congr` and `Tune.renderEach_append`, the buffers;
* `Tune.agreeBelow_layOut` and `Tune.layOut_agreeBelow`, the layout;
* `Tune.render_extends`, the whole tune.
-/

namespace Chiptune

variable {R : Type} [Amplitude R] {σ : Type} [RandomSource σ]

namespace Tune

/-! ## The buffers -/

/-- Only the phrases of the names that are rendered matter. -/
theorem renderEach_congr {tune other : Tune} {names : List String}
    (h : ∀ name ∈ names, tune.phrases.get? name = other.phrases.get? name) :
    (tune.renderEach names : Performance σ (List (String × Buffer R)))
      = other.renderEach names := by
  induction names with
  | nil => rfl
  | cons name names ih =>
    obtain ⟨hname, hnames⟩ := List.forall_mem_cons.mp h
    have hphrase : tune.phrase name = other.phrase name := by
      unfold Tune.phrase
      rw [hname]
    rw [renderEach, renderEach, hphrase, ih hnames]

/-- Names are rendered one after the other. -/
theorem renderEach_append (tune : Tune) (names more : List String) (source : σ) :
    (tune.renderEach (names ++ more)).outcome source =
      (tune.renderEach names >>= fun entries => tune.renderEach more >>= fun rest =>
        pure (entries ++ rest) : Performance σ (List (String × Buffer R))).outcome source := by
  induction names generalizing source with
  | nil => exact (Performance.outcome_bind_pure (tune.renderEach more) source).symm
  | cons name names ih =>
    rw [List.cons_append, renderEach, renderEach, Performance.outcome_bind_assoc]
    refine Performance.outcome_bind_congr _ (fun phrase source => ?_) source
    rw [Performance.outcome_bind_assoc]
    refine Performance.outcome_bind_congr _ (fun buffer source => ?_) source
    -- the names behind the first one are rendered in two parts, and then it is put in front
    rw [Performance.outcome_bind, ih, ← Performance.outcome_bind, Performance.outcome_bind_assoc,
      Performance.outcome_bind_assoc]
    refine Performance.outcome_bind_congr _ (fun entries source => ?_) source
    exact Performance.outcome_bind_assoc _ _ _ source

/-! ## The layout -/

/-- The length of the phrase of a name. -/
def framesOf (tune : Tune) (name : String) : ℕ :=
  (tune.phrases.get? name).elim 0 Phrase.frameCount

theorem map_framesOf_congr {tune other : Tune} {names : List String}
    (h : ∀ name ∈ names, tune.phrases.get? name = other.phrases.get? name) :
    names.map tune.framesOf = names.map other.framesOf :=
  List.map_congr_left fun name hname => by rw [framesOf, framesOf, h name hname]

theorem sum_framesOf {tune : Tune} {phrases : List Phrase} (h : tune.sequenced = .ok phrases) :
    (phrases.map Phrase.frameCount).sum = (tune.sequence.map tune.framesOf).sum := by
  have hframes : tune.sequence.map tune.framesOf
      = (tune.sequence.map tune.phrases.get?).map (·.elim 0 Phrase.frameCount) := by
    rw [List.map_map]
    rfl
  rw [hframes, sequenced_eq_ok.mp h, List.map_map]
  rfl

theorem placements_congr {tune other : Tune} {names : List String}
    (h : ∀ name ∈ names, tune.phrases.get? name = other.phrases.get? name) (offset : ℕ) :
    tune.placements offset names = other.placements offset names := by
  induction names generalizing offset with
  | nil => rfl
  | cons name names ih =>
    obtain ⟨hname, hnames⟩ := List.forall_mem_cons.mp h
    rw [placements, placements, hname, ih hnames]

/-- As long as the places are 64-bit counts, the next phrase is placed where this one ends. -/
theorem placements_cons {tune : Tune} {offset : ℕ} {name : String} (names : List String)
    (hfits : offset + tune.framesOf name < UInt64.size) :
    tune.placements offset (name :: names)
      = (name, offset) :: tune.placements (offset + tune.framesOf name) names := by
  have hnext : (offset + (tune.phrases.get? name).elim 0 Phrase.frameCount) % UInt64.size
      = offset + tune.framesOf name := Nat.mod_eq_of_lt hfits
  rw [placements, hnext]

/-- What is added to a sequence is placed behind its end. -/
theorem placements_append {tune : Tune} {offset : ℕ} {names : List String} (more : List String)
    (hfits : offset + (names.map tune.framesOf).sum < UInt64.size) :
    tune.placements offset (names ++ more) = tune.placements offset names ++
      tune.placements (offset + (names.map tune.framesOf).sum) more := by
  induction names generalizing offset with
  | nil => rfl
  | cons name names ih =>
    rw [List.map_cons, List.sum_cons, ← Nat.add_assoc] at hfits ⊢
    have hname := (Nat.le_add_right _ _).trans_lt hfits
    rw [List.cons_append, placements_cons _ hname, placements_cons _ hname, ih hfits,
      List.cons_append]

/-- Only names of the sequence are placed. -/
theorem mem_of_mem_placements {tune : Tune} {offset : ℕ} {names : List String}
    {place : String × ℕ} (h : place ∈ tune.placements offset names) : place.1 ∈ names := by
  induction names generalizing offset with
  | nil => exact absurd h List.not_mem_nil
  | cons name names ih =>
    rcases List.mem_cons.mp h with rfl | h
    · exact List.mem_cons_self
    · exact List.mem_cons_of_mem name (ih h)

/-- Nothing is placed before the offset. -/
theorem le_of_mem_placements {tune : Tune} {offset : ℕ} {names : List String}
    {place : String × ℕ} (hfits : offset + (names.map tune.framesOf).sum < UInt64.size)
    (h : place ∈ tune.placements offset names) : offset ≤ place.2 := by
  induction names generalizing offset with
  | nil => exact absurd h List.not_mem_nil
  | cons name names ih =>
    rw [List.map_cons, List.sum_cons, ← Nat.add_assoc] at hfits
    rw [placements_cons _ ((Nat.le_add_right _ _).trans_lt hfits)] at h
    rcases List.mem_cons.mp h with rfl | h
    · exact le_rfl
    · exact (Nat.le_add_right _ _).trans (ih hfits h)

theorem layOut_append (buffers : Catalog (Buffer R)) (buffer : Buffer R)
    (places more : List (String × ℕ)) :
    layOut buffers buffer (places ++ more)
      = layOut buffers (layOut buffers buffer places) more := by
  induction places generalizing buffer with
  | nil => rfl
  | cons place places ih =>
    rw [List.cons_append, layOut, layOut]
    split
    · exact ih _
    · exact ih _

@[simp] theorem size_layOut (buffers : Catalog (Buffer R)) (buffer : Buffer R)
    (places : List (String × ℕ)) : (layOut buffers buffer places).size = buffer.size := by
  induction places generalizing buffer with
  | nil => rfl
  | cons place places ih =>
    rw [layOut]
    split
    · exact (ih _).trans (Buffer.size_overlay _ _ _)
    · exact ih _

/-- The same buffers at the same places keep what starts alike. -/
theorem agreeBelow_layOut {buffers others : Catalog (Buffer R)} {places : List (String × ℕ)}
    (h : ∀ place ∈ places, buffers.get? place.1 = others.get? place.1) {n : ℕ} {b d : Buffer R}
    (hbd : b.AgreeBelow n d) : (layOut buffers b places).AgreeBelow n (layOut others d places) := by
  induction places generalizing b d with
  | nil => exact hbd
  | cons place places ih =>
    obtain ⟨hplace, hplaces⟩ := List.forall_mem_cons.mp h
    rw [layOut, layOut, ← hplace]
    split
    · exact ih hplaces (hbd.overlay (.refl _ _) _)
    · exact ih hplaces hbd

/-- What is placed behind a frame does not reach what lies before it. -/
theorem layOut_agreeBelow (buffers : Catalog (Buffer R)) {places : List (String × ℕ)} {n : ℕ}
    (h : ∀ place ∈ places, n ≤ place.2) (b : Buffer R) :
    (layOut buffers b places).AgreeBelow n b := by
  induction places generalizing b with
  | nil => exact .refl n b
  | cons place places ih =>
    obtain ⟨hplace, hplaces⟩ := List.forall_mem_cons.mp h
    rw [layOut]
    split
    · exact (ih hplaces _).trans fun j hj => by
        rw [Buffer.getElem?_overlay, if_neg (by omega)]
    · exact ih hplaces b

/-! ## The whole tune -/

/-- The phrases that were rendered are those of the sequence. -/
theorem contains_of_renderEach {tune : Tune} {source source' : σ}
    {entries : List (String × Buffer R)}
    (h : (tune.renderEach tune.sequence.eraseDups).outcome source = (.ok entries, source')) :
    ∀ name ∈ tune.sequence, tune.phrases.contains name = true ∧
      (⟨entries⟩ : Catalog (Buffer R)).contains name = true := by
  intro name hname
  obtain ⟨hnames, hentries⟩ := renderEach_spec h
  have hentry : name ∈ entries.map Prod.fst := hnames ▸ List.mem_eraseDups.mpr hname
  obtain ⟨entry, hmem, rfl⟩ := List.mem_map.mp hentry
  obtain ⟨phrase, hphrase, -⟩ := hentries entry hmem
  exact ⟨Option.isSome_iff_exists.mpr ⟨phrase, hphrase⟩, Catalog.contains_iff.mpr hentry⟩

/-- The length of a tune is known once its phrases are rendered. -/
theorem frameCount_of_renderEach {tune : Tune} {source source' : σ}
    {entries : List (String × Buffer R)}
    (h : (tune.renderEach tune.sequence.eraseDups).outcome source = (.ok entries, source')) :
    tune.frameCount = .ok ((tune.sequence.map tune.framesOf).sum % UInt64.size) := by
  obtain ⟨phrases, hphrases⟩ :=
    exists_sequenced fun name hname => (contains_of_renderEach h name hname).1
  exact frameCount_eq_ok.mpr ⟨phrases, hphrases, by rw [sum_framesOf hphrases]⟩

section Extension

variable {tune longer : Tune} {more : List String}

/-- The names that were there are rendered first. -/
theorem renderEach_of_longer (hsequence : longer.sequence = tune.sequence ++ more)
    (hphrases : ∀ name ∈ tune.sequence, longer.phrases.get? name = tune.phrases.get? name)
    (source : σ) :
    (longer.renderEach longer.sequence.eraseDups).outcome source =
      (tune.renderEach tune.sequence.eraseDups >>= fun entries =>
        longer.renderEach (more.removeAll tune.sequence).eraseDups >>= fun rest =>
          pure (entries ++ rest) : Performance σ (List (String × Buffer R))).outcome source := by
  have hnames : ∀ name ∈ tune.sequence.eraseDups,
      longer.phrases.get? name = tune.phrases.get? name :=
    fun name hname => hphrases name (List.mem_eraseDups.mp hname)
  rw [hsequence, List.eraseDups_append, renderEach_append, renderEach_congr hnames]

/-- A longer sequence has as many frames as there were, and then those of its other names. -/
theorem sum_framesOf_of_longer (hsequence : longer.sequence = tune.sequence ++ more)
    (hphrases : ∀ name ∈ tune.sequence, longer.phrases.get? name = tune.phrases.get? name) :
    (longer.sequence.map longer.framesOf).sum
      = (tune.sequence.map tune.framesOf).sum + (more.map longer.framesOf).sum := by
  rw [hsequence, List.map_append, List.sum_append, map_framesOf_congr hphrases]

/-- The layout of a longer sequence starts with the layout that was there. -/
theorem layOut_isPrefix (hsequence : longer.sequence = tune.sequence ++ more)
    (hphrases : ∀ name ∈ tune.sequence, longer.phrases.get? name = tune.phrases.get? name)
    (hfits : (longer.sequence.map longer.framesOf).sum < UInt64.size)
    {buffers others : Catalog (Buffer R)}
    (hbuffers : ∀ name ∈ tune.sequence, others.get? name = buffers.get? name) :
    (layOut buffers (Buffer.silence (tune.sequence.map tune.framesOf).sum)
        (tune.placements 0 tune.sequence)).toList <+:
      (layOut others (Buffer.silence (longer.sequence.map longer.framesOf).sum)
        (longer.placements 0 longer.sequence)).toList := by
  refine Buffer.AgreeBelow.isPrefix ?_
  rw [sum_framesOf_of_longer hsequence hphrases] at hfits ⊢
  have hplaces : longer.placements 0 longer.sequence = tune.placements 0 tune.sequence ++
      longer.placements (tune.sequence.map tune.framesOf).sum more := by
    have hfront : 0 + (tune.sequence.map longer.framesOf).sum < UInt64.size := by
      rw [map_framesOf_congr hphrases]
      omega
    rw [hsequence, placements_append more hfront, placements_congr hphrases,
      map_framesOf_congr hphrases, Nat.zero_add]
  rw [size_layOut, Buffer.size_silence, hplaces, layOut_append]
  set length := (tune.sequence.map tune.framesOf).sum
  -- below the old end the new places do nothing, and the old ones do the same
  have hsilence : (Buffer.silence length : Buffer R).AgreeBelow length
      (Buffer.silence (length + (more.map longer.framesOf).sum)) :=
    Buffer.AgreeBelow.silence le_rfl (Nat.le_add_right _ _)
  have hsame : ∀ place ∈ tune.placements 0 tune.sequence,
      buffers.get? place.1 = others.get? place.1 :=
    fun place hplace => (hbuffers _ (mem_of_mem_placements hplace)).symm
  have hbehind : ∀ place ∈ longer.placements length more, length ≤ place.2 :=
    fun place hplace => le_of_mem_placements hfits hplace
  exact (agreeBelow_layOut hsame hsilence).trans (layOut_agreeBelow others hbehind _).symm

/-- Adding to the end of a sequence changes no sound and mends no fault: what the longer tune plays
starts with all that the shorter one plays, from the same source and whatever else the two tunes
define. -/
theorem render_extends (hsequence : longer.sequence = tune.sequence ++ more)
    (hphrases : ∀ name ∈ tune.sequence, longer.phrases.get? name = tune.phrases.get? name)
    (hfits : ∀ phrases, longer.sequenced = .ok phrases →
      (phrases.map Phrase.frameCount).sum < UInt64.size) (source : σ) :
    (∀ rendered' : RenderedTune R, (longer.render.outcome source).1 = .ok rendered' →
      ∃ rendered : RenderedTune R, (tune.render.outcome source).1 = .ok rendered ∧
        rendered.buffer.toList <+: rendered'.buffer.toList ∧
        ∀ name ∈ tune.sequence, rendered'.phrases.get? name = rendered.phrases.get? name) ∧
    ∀ fault, (tune.render.outcome source : Except Fault (RenderedTune R) × σ).1 = .error fault →
      (longer.render.outcome source : Except Fault (RenderedTune R) × σ).1 = .error fault := by
  have hlonger := renderEach_of_longer (R := R) hsequence hphrases source
  constructor
  · intro rendered' h
    obtain ⟨entries', size', hentries', hsize', rfl⟩ := render_eq_ok (Prod.ext h rfl)
    obtain ⟨phrases, hfound, rfl⟩ := frameCount_eq_ok.mp hsize'
    have htotal := hfits phrases hfound
    rw [sum_framesOf hfound] at htotal ⊢
    rw [hlonger] at hentries'
    obtain ⟨entries, s₁, hentries, hmore⟩ := Performance.outcome_bind_eq_ok hentries'
    obtain ⟨rest, s₂, hrest, hjoined⟩ := Performance.outcome_bind_eq_ok hmore
    obtain ⟨rfl, -⟩ := Performance.eq_of_outcome_pure hjoined
    have hsum : (tune.sequence.map tune.framesOf).sum < UInt64.size := by
      rw [sum_framesOf_of_longer hsequence hphrases] at htotal
      omega
    have hsounds : ∀ name ∈ tune.sequence, (⟨entries ++ rest⟩ : Catalog (Buffer R)).get? name
        = (⟨entries⟩ : Catalog (Buffer R)).get? name :=
      fun name hname =>
        Catalog.get?_append_of_contains (contains_of_renderEach hentries name hname).2
    have hrender := render_of_renderEach hentries (frameCount_of_renderEach hentries)
    rw [Nat.mod_eq_of_lt hsum] at hrender
    rw [Nat.mod_eq_of_lt htotal]
    exact ⟨_, congrArg Prod.fst hrender, layOut_isPrefix hsequence hphrases htotal hsounds,
      hsounds⟩
  · intro fault h
    refine render_of_renderEach_error ?_
    rw [hlonger, Performance.result_outcome_bind]
    generalize hfirst : (tune.renderEach tune.sequence.eraseDups :
      Performance σ (List (String × Buffer R))).outcome source = first
    obtain ⟨result, between⟩ := first
    cases result with
    | ok entries =>
      rw [render_of_renderEach hfirst (frameCount_of_renderEach hfirst)] at h
      exact absurd h nofun
    | error other =>
      have hother := render_of_renderEach_error (congrArg Prod.fst hfirst)
      exact congrArg _ (Except.error.inj (hother.symm.trans h))

end Extension

/-- A burst of noise that lasts for seven frames. -/
def burst (name note : String) : Phrase :=
  ⟨name, 100000, 1, 2, [⟨{ name := "hiss", tone := .noise }, ⟨"once", [.note note, .rest]⟩⟩]⟩

/-- One burst. -/
def burstTune : Tune := ⟨"burst", ["a"], ⟨[("a", burst "a" "C6")]⟩⟩

/-- Another burst after it, and the first one once more; the last phrase has no pitch that could be
played. -/
def burstsTune : Tune :=
  ⟨"bursts", ["a", "b", "a"],
    ⟨[("b", burst "b" "G6"), ("a", burst "a" "C6"), ("c", burst "c" "H6")]⟩⟩

theorem burstsTune_extends : ∃ rendered rendered' : RenderedTune Float,
    (burstTune.render.outcome (ChaCha.ofSeed 1)).1 = .ok rendered ∧
    (burstsTune.render.outcome (ChaCha.ofSeed 1)).1 = .ok rendered' ∧
    rendered.buffer.toList <+: rendered'.buffer.toList ∧
    rendered'.phrases.get? "a" = rendered.phrases.get? "a" := by
  have hok : ((burstsTune.render : Performance ChaCha.Generator (RenderedTune Float)).outcome
      (ChaCha.ofSeed 1)).1.toOption.isSome = true := by
    decide +kernel
  have hsequenced : burstsTune.sequenced
      = .ok [burst "a" "C6", burst "b" "G6", burst "a" "C6"] := rfl
  have hsizes : ([burst "a" "C6", burst "b" "G6", burst "a" "C6"].map
      Phrase.frameCount).sum < UInt64.size := by
    decide +kernel
  have hphrases : ∀ name ∈ burstTune.sequence,
      burstsTune.phrases.get? name = burstTune.phrases.get? name := by
    intro name hname
    obtain rfl := List.mem_singleton.mp hname
    rfl
  have hfits : ∀ phrases, burstsTune.sequenced = .ok phrases →
      (phrases.map Phrase.frameCount).sum < UInt64.size := by
    intro phrases hfound
    obtain rfl := Except.ok.inj (hsequenced.symm.trans hfound)
    exact hsizes
  have hsequence : burstsTune.sequence = burstTune.sequence ++ ["b", "a"] := rfl
  obtain ⟨hextends, -⟩ :=
    render_extends (R := Float) hsequence hphrases hfits (ChaCha.ofSeed 1)
  obtain ⟨rendered', hrendered'⟩ := exists_eq_ok hok
  obtain ⟨rendered, hrendered, hprefix, hsounds⟩ := hextends rendered' hrendered'
  exact ⟨rendered, rendered', hrendered, hrendered', hprefix,
    hsounds "a" List.mem_cons_self⟩

end Tune

end Chiptune
