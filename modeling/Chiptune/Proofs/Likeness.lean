import Chiptune.Proofs.Catalog
import Chiptune.Proofs.Phrase.Strokes
import Chiptune.Tune.Render
import Mathlib.Data.List.Forall2

/-!
# Renders that are alike

A relation between frames that silence, merging and scaling keep is kept by everything that is made
of them: two buffers that are related frame by frame stay so when related frames are merged into
both at the same places, when both are echoed, and when related buffers are laid over them. Two
instruments that differ only in where they place an amplitude are played alike, and draw alike.

* `Congruence`, what the relation has to keep, and `Buffer.Alike`, two related buffers;
* `Buffer.Alike.eq_iff_map`, relations that compare two views;
* `Buffer.Alike.overlay`, `Buffer.Alike.echo` and `Buffer.Alike.addAll`, one operation on both;
* `Part.alike_play`, one melody, and `Tune.alike_layOut`, the layout of a tune;
* `Tune.mapPhrases`, a tune with other phrases of the same lengths, which are placed alike.
-/

namespace Chiptune

/-! ## Related options -/

section Option

variable {α β γ δ : Type} {r : α → β → Prop} {s : γ → δ → Prop} {x : Option α} {y : Option β}

theorem rel_map (h : Option.Rel r x y) {f : α → γ} {g : β → δ}
    (hfg : ∀ a b, r a b → s (f a) (g b)) : Option.Rel s (x.map f) (y.map g) := by
  cases h with
  | none => exact .none
  | some hab => exact .some (hfg _ _ hab)

theorem rel_elim (h : Option.Rel r x y) {c : γ} {d : δ} {f : α → γ} {g : β → δ} (hcd : s c d)
    (hfg : ∀ a b, r a b → s (f a) (g b)) : s (x.elim c f) (y.elim d g) := by
  cases h with
  | none => exact hcd
  | some hab => exact hfg _ _ hab

theorem isSome_of_rel (h : Option.Rel r x y) : x.isSome = y.isSome := by
  cases h <;> rfl

/-- A relation that compares two views is equality of what is seen. -/
theorem rel_eq_iff {f : α → γ} {g : β → γ} :
    Option.Rel (fun a b => f a = g b) x y ↔ x.map f = y.map g := by
  constructor
  · rintro (hab | _)
    · exact congrArg some hab
    · rfl
  · intro h
    cases x with
    | none =>
      cases y with
      | none => exact .none
      | some b => exact absurd h nofun
    | some a =>
      cases y with
      | none => exact absurd h nofun
      | some b => exact .some (Option.some.inj h)

end Option

/-! ## Relations -/

variable {R : Type}

/-- Two buffers of one length, related frame by frame. -/
def Buffer.Alike (r : Frame R → Frame R → Prop) (b d : Buffer R) : Prop :=
  ∀ j : ℕ, Option.Rel r b[j]? d[j]?

/-- Two catalogs of buffers with the same names, related name by name. -/
def Catalog.Alike (r : Frame R → Frame R → Prop) (buffers others : Catalog (Buffer R)) : Prop :=
  ∀ name, Option.Rel (Buffer.Alike r) (buffers.get? name) (others.get? name)

variable [Amplitude R]

/-- Silence is related to itself, and merging and scaling keep frames related. -/
structure Congruence (r : Frame R → Frame R → Prop) : Prop where
  silent : r Frame.silent Frame.silent
  add {a b f g : Frame R} : r a b → r f g → r (a.add f) (b.add g)
  scale {a b : Frame R} (gain : R) : r a b → r (a.scale gain) (b.scale gain)

variable {r : Frame R → Frame R → Prop}

/-! ## Buffers -/

namespace Buffer.Alike

variable {b d s t : Buffer R}

omit [Amplitude R] in
theorem size_eq (h : Alike r b d) : b.size = d.size := by
  have hend : ∀ j : ℕ, j < b.size ↔ j < d.size := by
    intro j
    have hsome := isSome_of_rel (h j)
    rwa [Bool.eq_iff_iff, isSome_getElem?, isSome_getElem?] at hsome
  apply Nat.le_antisymm
  · by_contra hlt
    exact (Nat.lt_irrefl d.size) ((hend d.size).mp (by omega))
  · by_contra hlt
    exact (Nat.lt_irrefl b.size) ((hend b.size).mpr (by omega))

omit [Amplitude R] in
theorem eq_iff_map {α : Type} {f g : Frame R → α} :
    Alike (fun a b => f a = g b) b d ↔ b.map f = d.map g := by
  constructor
  · intro h
    refine Array.ext_getElem? fun j => ?_
    rw [Array.getElem?_map, Array.getElem?_map]
    exact rel_eq_iff.mp (h j)
  · intro h j
    rw [rel_eq_iff, ← Array.getElem?_map, ← Array.getElem?_map, h]

theorem silence (hr : Congruence r) (n : ℕ) : Alike r (Buffer.silence n) (Buffer.silence n) := by
  intro j
  rw [getElem?_silence]
  split_ifs
  · exact .some hr.silent
  · exact .none

theorem addAt (hr : Congruence r) (h : Alike r b d) (i : ℕ) {f g : Frame R} (hfg : r f g) :
    Alike r (b.addAt i f) (d.addAt i g) := by
  intro j
  rw [getElem?_addAt, getElem?_addAt]
  split_ifs
  · exact rel_map (h j) fun _ _ hab => hr.add hab hfg
  · exact h j

theorem addAll (hr : Congruence r) (h : Alike r b d) {vs ws : List (ℕ × Frame R)}
    (hvs : List.Forall₂ (fun v w => v.1 = w.1 ∧ r v.2 w.2) vs ws) :
    Alike r (b.addAll vs) (d.addAll ws) := by
  induction hvs generalizing b d with
  | nil => exact h
  | @cons v w vs ws hvw _ ih =>
    obtain ⟨hplace, hframe⟩ := hvw
    have hstep := h.addAt hr v.1 hframe
    exact ih (b := b.addAt v.1 v.2) (d := d.addAt w.1 w.2) (hplace ▸ hstep)

theorem overlay (hr : Congruence r) (h : Alike r b d) (hst : Alike r s t) (offset : ℕ) :
    Alike r (b.overlay s offset) (d.overlay t offset) := by
  intro j
  rw [getElem?_overlay, getElem?_overlay]
  split_ifs
  · exact rel_map (h j) fun _ _ hab =>
      rel_elim (hst (j - offset)) hab fun _ _ hfg => hr.add hab hfg
  · exact h j

theorem echo (hr : Congruence r) (h : Alike r b d) (delay : ℕ) (decay : R) :
    Alike r (b.echo delay decay) (d.echo delay decay) := by
  intro j
  rw [getElem?_echo, getElem?_echo]
  split_ifs
  · exact rel_map (h j) fun _ _ hab =>
      rel_elim (h (j - delay)) hab fun _ _ hfg => hr.add hab (hr.scale decay hfg)
  · exact h j

end Buffer.Alike

/-! ## Melodies -/

/-- Two instruments of one tone, length and reverb that place every amplitude in related frames. -/
structure Instrument.Resembles (r : Frame R → Frame R → Prop) (instrument other : Instrument) :
    Prop where
  tone : instrument.tone = other.tone
  length : instrument.length = other.length
  reverb : instrument.reverb = other.reverb
  place (value : R) : r (instrument.place value) (other.place value)

variable {σ : Type} [RandomSource σ]

namespace Instrument.Resembles

variable {instrument other : Instrument}

/-- Instruments that resemble one another have related voices and draw alike. -/
theorem voices (h : instrument.Resembles r other) (strokes : List Stroke) (source : σ) :
    List.Forall₂ (fun v w => v.1 = w.1 ∧ r v.2 w.2)
        (instrument.voices strokes source).1 (other.voices strokes source).1 ∧
      (instrument.voices (R := R) strokes source).2 = (other.voices (R := R) strokes source).2 := by
  induction strokes generalizing source with
  | nil => exact ⟨.nil, rfl⟩
  | cons stroke strokes ih =>
    rw [Instrument.voices, Instrument.voices, frameAt, frameAt, h.tone]
    obtain ⟨hvoices, hsource⟩ := ih ((Oscillator.ofTone other.tone stroke.cycle :
      Oscillator R).valueAt stroke.index source).2
    exact ⟨.cons ⟨rfl, h.place _⟩ hvoices, hsource⟩

theorem playAll (hr : Congruence r) (h : instrument.Resembles r other) (spans : List Span)
    {b d : Buffer R} (hbd : b.Alike r d) (source : σ) :
    (Span.playAll instrument spans b source).1.Alike r (Span.playAll other spans d source).1 ∧
      (Span.playAll instrument spans b source).2 = (Span.playAll other spans d source).2 := by
  rw [Span.playAll_eq, Span.playAll_eq, hbd.size_eq]
  obtain ⟨hvoices, hsource⟩ := h.voices (Span.strokesOf spans d.size) source
  exact ⟨hbd.addAll hr hvoices, hsource⟩

end Instrument.Resembles

/-- Parts with the same spans, on instruments that resemble one another, are played alike. -/
theorem Part.alike_play (hr : Congruence r) {part other : Part} (hspans : part.spans = other.spans)
    (h : part.melody.instrument.Resembles r other.melody.instrument) {b d : Buffer R}
    (hbd : b.Alike r d) (source : σ) :
    (part.play b source).1.Alike r (other.play d source).1 ∧
      (part.play b source).2 = (other.play d source).2 := by
  unfold Part.play
  simp only
  rw [hspans, h.reverb, hbd.size_eq]
  split_ifs
  · obtain ⟨hdry, hsource⟩ := h.playAll hr other.spans (.silence hr d.size) source
    exact ⟨hbd.overlay hr (hdry.echo hr _ _) 0, hsource⟩
  · exact h.playAll hr other.spans hbd source

/-! ## Layouts -/

/-- A place receives the buffer of its name, if there is one. -/
theorem Tune.layOut_cons (buffers : Catalog (Buffer R)) (b : Buffer R) (name : String) (offset : ℕ)
    (places : List (String × ℕ)) :
    layOut buffers b ((name, offset) :: places)
      = layOut buffers ((buffers.get? name).elim b (b.overlay · offset)) places := by
  rw [layOut]
  cases buffers.get? name <;> rfl

/-- Related buffers are laid out alike. -/
theorem Tune.alike_layOut (hr : Congruence r) {buffers others : Catalog (Buffer R)}
    (hbuffers : buffers.Alike r others) (places : List (String × ℕ)) {b d : Buffer R}
    (hbd : b.Alike r d) : (layOut buffers b places).Alike r (layOut others d places) := by
  induction places generalizing b d with
  | nil => exact hbd
  | cons place places ih =>
    obtain ⟨name, offset⟩ := place
    rw [layOut_cons, layOut_cons]
    exact ih (rel_elim (hbuffers name) hbd fun _ _ hsound => hbd.overlay hr hsound offset)

/-! ## Tunes with other phrases -/

namespace Tune

omit [Amplitude R]

/-- The tune with each of its phrases replaced. -/
def mapPhrases (f : String → Phrase → Phrase) (tune : Tune) : Tune :=
  { tune with phrases := tune.phrases.map f }

theorem get?_mapPhrases (f : String → Phrase → Phrase) (tune : Tune) (name : String) :
    (tune.mapPhrases f).phrases.get? name = (tune.phrases.get? name).map (f name) :=
  Catalog.get?_map f tune.phrases name

theorem phrase_mapPhrases (f : String → Phrase → Phrase) (tune : Tune) (name : String) :
    (tune.mapPhrases f).phrase name = (tune.phrase name).map (f name) := by
  rw [phrase, phrase, get?_mapPhrases]
  cases tune.phrases.get? name <;> rfl

variable {f : String → Phrase → Phrase}
  (hf : ∀ name phrase, (f name phrase).frameCount = phrase.frameCount)

include hf

/-- Phrases of the same lengths have the same places. -/
theorem placements_mapPhrases (tune : Tune) (offset : ℕ) (names : List String) :
    (tune.mapPhrases f).placements offset names = tune.placements offset names := by
  induction names generalizing offset with
  | nil => rfl
  | cons name names ih =>
    have hframes : ((tune.mapPhrases f).phrases.get? name).elim 0 Phrase.frameCount
        = (tune.phrases.get? name).elim 0 Phrase.frameCount := by
      rw [get?_mapPhrases]
      cases tune.phrases.get? name with
      | none => rfl
      | some phrase => exact hf name phrase
    rw [placements, placements, hframes, ih]

/-- The lengths of the phrases of a sequence, or the first name that stands for none. -/
theorem mapM_phrase_mapPhrases (tune : Tune) (names : List String) :
    (names.mapM (tune.mapPhrases f).phrase).map (List.map Phrase.frameCount)
      = (names.mapM tune.phrase).map (List.map Phrase.frameCount) := by
  induction names with
  | nil => rfl
  | cons name names ih =>
    rw [List.mapM_cons, List.mapM_cons, phrase_mapPhrases]
    cases tune.phrase name with
    | error fault => rfl
    | ok phrase =>
      revert ih
      cases names.mapM (tune.mapPhrases f).phrase <;> cases names.mapM tune.phrase <;> intro ih
      · exact ih
      · exact absurd ih nofun
      · exact absurd ih nofun
      · exact congrArg Except.ok
          (congrArg₂ List.cons (hf name phrase) (Except.ok.inj ih))

theorem frameCount_mapPhrases (tune : Tune) :
    (tune.mapPhrases f).frameCount = tune.frameCount := by
  have hcount : ∀ other : Tune, other.frameCount
      = (other.sequenced.map (List.map Phrase.frameCount)).map
          fun counts => counts.foldr (· + ·) 0 % UInt64.size := by
    intro other
    rw [frameCount]
    cases other.sequenced <;> rfl
  rw [hcount, hcount]
  exact congrArg (Except.map _) (mapM_phrase_mapPhrases hf tune tune.sequence)

end Tune

end Chiptune
