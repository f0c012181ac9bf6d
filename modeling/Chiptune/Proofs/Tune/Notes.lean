import Chiptune.Proofs.Tune.Concatenation
import Chiptune.Proofs.Tune.Links

/-!
# The notes of a tune

Once a tune is assembled, only its notes can keep it from being rendered: they are kept as they are
written, and each is checked when its step is placed, whether or not the step can be heard. A score
carries the fault of the first bad note of its melodies, a phrase is rendered up to it, and the
phrases are rendered where their names first occur in the sequence.

* `Score.fault?_eq` and `Phrase.reports_render`, the notes of a phrase;
* `Tune.playedNotes` and `Tune.reports_render`, the notes of a tune;
* `Tune.render_failsOnBadNotes`, the tune of a text.
-/

namespace Chiptune

open Pitch

/-! ## The notes of a phrase -/

/-- The notes of the steps that sound, as they are written. -/
def Pattern.notes (pattern : Pattern) : List String := pattern.steps.filterMap Step.note?

/-- The notes of all melodies of a phrase. -/
def Phrase.notes (phrase : Phrase) : List String := phrase.melodies.flatMap (·.pattern.notes)

/-- A note must be one. -/
def noteCheck (note : String) : Check where
  holds := IsNote note
  fault := .badNote (noteFault note)

/-- What is wrong with a text, if it is not a note. -/
def Pitch.fault? (note : String) : Option NoteFault :=
  if IsNote note then none else some (noteFault note)

theorem firstFault_noteCheck (notes : List String) :
    Check.firstFault (notes.map noteCheck) = (notes.findSome? Pitch.fault?).map .badNote := by
  rw [Check.firstFault, List.findSome?_map, List.map_findSome?]
  congr 1
  funext note
  rw [Function.comp_apply, Function.comp_apply, Check.fault?, noteCheck, fault?]
  by_cases hnote : IsNote note <;> simp [hnote]

/-- Placing steps comes to the fault of their first bad note. -/
theorem Part.place_fault_eq (step quarters origin resume : ℕ) (steps : List Step) :
    (place step quarters origin resume steps).2
      = (steps.filterMap Step.note?).findSome? Pitch.fault? := by
  induction steps generalizing origin resume with
  | nil => rfl
  | cons s steps ih =>
    cases s with
    | rest => exact ih (origin + step) 0
    | note name =>
      rw [place, List.filterMap_cons, Step.note?, List.findSome?_cons, fault?]
      by_cases hnote : IsNote name
      · obtain ⟨frames, hframes⟩ := exists_cycleLength hnote
        rw [hframes, if_pos hnote]
        exact ih _ _
      · rw [cycleLength_eq_error hnote, if_neg hnote]

theorem Score.partsOf_fault_eq (step : ℕ) (melodies : List Melody) :
    (partsOf step melodies).findSome? Part.fault
      = (melodies.flatMap (·.pattern.notes)).findSome? Pitch.fault? := by
  induction melodies with
  | nil => rfl
  | cons melody melodies ih =>
    have hpart : (Part.ofMelody step melody).fault = melody.pattern.notes.findSome? Pitch.fault? :=
      Part.place_fault_eq _ _ _ _ _
    rw [partsOf, List.findSome?_cons, hpart, List.flatMap_cons, List.findSome?_append]
    cases melody.pattern.notes.findSome? Pitch.fault? with
    | none => exact ih
    | some fault => rfl

/-- A score carries the fault of the first bad note of its phrase. -/
theorem Score.fault?_eq (phrase : Phrase) :
    Score.fault? ⟨phrase, partsOf phrase.stepSize phrase.melodies⟩
      = phrase.notes.findSome? Pitch.fault? :=
  partsOf_fault_eq _ _

variable {R : Type} [Amplitude R] {σ : Type} [RandomSource σ]

/-- The checks of a valid phrase that is rendered are those of its notes. -/
theorem Phrase.reports_render {phrase : Phrase} (hvalid : phrase.validate = .ok ()) (source : σ) :
    Reports (phrase.notes.map noteCheck)
      (phrase.render.outcome source : Except Fault (Buffer R) × σ).1 := by
  rw [render_of_score (score_eq_ok.mpr ⟨hvalid, rfl⟩), Score.fault?_eq, Reports,
    firstFault_noteCheck]
  cases phrase.notes.findSome? Pitch.fault? <;> rfl

/-! ## The notes of a tune -/

omit [RandomSource σ] in
/-- What comes after a performance adds its own checks. -/
theorem Reports.outcome_bind {α β : Type} {checks more : List Check} {performance : Performance σ α}
    {next : α → Performance σ β} {source : σ} (h : Reports checks (performance.outcome source).1)
    (hnext : ∀ a between, performance.outcome source = (.ok a, between) →
      Reports more ((next a).outcome between).1) :
    Reports (checks ++ more) ((performance >>= next).outcome source).1 := by
  rw [Performance.result_outcome_bind]
  exact h.bind fun a ha => hnext a _ (Prod.ext ha rfl)

namespace Tune

/-- The notes of the phrase of a name. -/
def notesOf (tune : Tune) (name : String) : List String :=
  (tune.phrases.get? name).elim [] Phrase.notes

/-- The notes that a tune plays: phrase by phrase in the order in which their names first occur in
the sequence, melody by melody and step by step. -/
def playedNotes (tune : Tune) : List String := tune.sequence.eraseDups.flatMap tune.notesOf

/-- A name stands for a phrase with a valid timing and grid. -/
def Resolves (tune : Tune) (name : String) : Prop :=
  ∃ phrase, tune.phrases.get? name = some phrase ∧ phrase.validate = .ok ()

theorem Resolves.contains {tune : Tune} {name : String} (h : tune.Resolves name) :
    tune.phrases.contains name = true := by
  obtain ⟨phrase, hphrase, -⟩ := h
  exact Option.isSome_iff_exists.mpr ⟨phrase, hphrase⟩

theorem reports_renderEach {tune : Tune} {names : List String}
    (h : ∀ name ∈ names, tune.Resolves name) (source : σ) :
    Reports ((names.flatMap tune.notesOf).map noteCheck)
      (tune.renderEach (R := R) names |>.outcome source).1 := by
  induction names generalizing source with
  | nil => exact Reports.ok []
  | cons name names ih =>
    obtain ⟨⟨phrase, hphrase, hvalid⟩, hnames⟩ := List.forall_mem_cons.mp h
    have hnotes : tune.notesOf name = phrase.notes := by rw [notesOf, hphrase, Option.elim_some]
    rw [renderEach, List.flatMap_cons, hnotes, List.map_append,
      ← List.append_nil (List.map noteCheck (List.flatMap _ _))]
    refine (Performance.outcome_bind_of_ok (outcome_phrase hphrase source) _).symm ▸ ?_
    refine (phrase.reports_render hvalid source).outcome_bind fun buffer between _ => ?_
    exact (ih hnames between).outcome_bind fun entries between _ => Reports.ok _

/-- The checks of a tune that is rendered are those of the notes that it plays. -/
theorem reports_render {tune : Tune} (h : ∀ name ∈ tune.sequence, tune.Resolves name)
    (source : σ) :
    Reports (tune.playedNotes.map noteCheck)
      (tune.render.outcome source : Except Fault (RenderedTune R) × σ).1 := by
  have hcache : Reports (tune.playedNotes.map noteCheck)
      ((tune.renderPhrases {} tune.sequence).outcome source :
        Except Fault (Catalog (Buffer R)) × σ).1 := by
    rw [renderPhrases_empty_outcome, ← List.append_nil (List.map _ _)]
    exact (reports_renderEach (fun name hname => h name (List.mem_eraseDups.mp hname))
      source).outcome_bind fun entries between _ => Reports.ok _
  rw [render, ← List.append_nil (List.map _ _)]
  refine hcache.outcome_bind fun buffers between _ => ?_
  -- all that is left is the length of the tune, which is known
  obtain ⟨phrases, hphrases⟩ := exists_sequenced fun name hname => (h name hname).contains
  have hsize : (Performance.ofReport (Report.ofExcept tune.frameCount)).outcome between
      = (.ok ((phrases.map Phrase.frameCount).sum % UInt64.size), between) := by
    rw [Performance.outcome_ofReport, Report.ofExcept,
      frameCount_eq_ok.mpr ⟨phrases, hphrases, rfl⟩]
  exact (Performance.outcome_bind_of_ok hsize _).symm ▸ Reports.ok _

/-- The phrases of an assembled tune are valid, and its sequence names no others. -/
theorem LinkedTo.resolves {tune : Tune} {records : List Record} (h : tune.LinkedTo records) :
    ∀ name ∈ tune.sequence, tune.Resolves name := by
  intro name hname
  obtain ⟨phrase, hphrase⟩ := Option.isSome_iff_exists.mp
    (Catalog.contains_iff.mpr (h.resolved name hname))
  obtain ⟨-, record, -, hlinks⟩ := h.phrases name phrase hphrase
  exact ⟨phrase, hphrase, Phrase.validate_eq_ok.mpr ⟨⟨Nat.ne_zero_of_lt hlinks.tempo.pos,
    Nat.ne_zero_of_lt hlinks.beats.pos, Nat.ne_zero_of_lt hlinks.subbeats.pos⟩, hlinks.grid⟩⟩

/-- The tune of a text is rendered when all notes that it plays are notes, and otherwise it ends in
the fault of the first one that is not. -/
theorem render_failsOnBadNotes {text : String} {tune : Tune} (h : (ofText text).result = .ok tune)
    (source : σ) :
    ((∃ rendered : RenderedTune R, (tune.render.outcome source).1 = .ok rendered) ↔
      ∀ note ∈ tune.playedNotes, IsNote note) ∧
    ∀ fault, (tune.render.outcome source : Except Fault (RenderedTune R) × σ).1 = .error fault ↔
      ∃ before note after, tune.playedNotes = before ++ note :: after ∧
        (∀ n ∈ before, IsNote n) ∧ ¬IsNote note ∧ fault = .badNote (noteFault note) := by
  obtain ⟨records, -, hassemble⟩ := ofText_eq_ok.mp h
  have hreports : Reports (tune.playedNotes.map noteCheck)
      (tune.render.outcome source : Except Fault (RenderedTune R) × σ).1 :=
    reports_render (assemble_linkedTo hassemble).resolves source
  refine ⟨?_, fun fault => ?_⟩
  · rw [hreports.exists_ok, List.forall_mem_map]
    simp only [noteCheck, decide_eq_true_eq]
  · rw [hreports.eq_error]
    constructor
    · rintro ⟨passed, check, rest, hchecks, hpassed, hfails, rfl⟩
      obtain ⟨before, tail, hnotes, rfl, htail⟩ := List.map_eq_append_iff.mp hchecks
      obtain ⟨note, after, rfl, rfl, rfl⟩ := List.map_eq_cons_iff.mp htail
      refine ⟨before, note, after, hnotes, fun n hn => ?_, of_decide_eq_false hfails, rfl⟩
      exact of_decide_eq_true (hpassed _ (List.mem_map_of_mem hn))
    · rintro ⟨before, note, after, hnotes, hbefore, hnote, rfl⟩
      refine ⟨before.map noteCheck, noteCheck note, after.map noteCheck, ?_, ?_,
        decide_eq_false hnote, rfl⟩
      · rw [hnotes, List.map_append, List.map_cons]
      · exact List.forall_mem_map.mpr fun n hn => decide_eq_true (hbefore n hn)

/-- A text of two silent phrases with a bad note in each. -/
def offText : String :=
  "tune off\nsequence b a b\ninstrument mute\n  volume none\n" ++
    "pattern odd H4\npattern high Bb2C9\n" ++
    "phrase a\n  tempo 120\n  beats 1\n  subbeats 1\n  melodies\n    mute odd\n" ++
    "phrase b\n  tempo 120\n  beats 1\n  subbeats 2\n  melodies\n    mute high\n"

/-- The tune of that text. -/
def offTune : Tune :=
  let mute : Instrument := { name := "mute", volume := .none }
  ⟨"off", ["b", "a", "b"],
    ⟨[("a", ⟨"a", 120, 1, 1, [⟨mute, ⟨"odd", [.note "H4"]⟩⟩]⟩),
      ("b", ⟨"b", 120, 1, 2, [⟨mute, ⟨"high", [.note "Bb2", .note "C9"]⟩⟩]⟩)]⟩⟩

theorem offTune_failsOnBadNotes : (ofText offText).result = .ok offTune ∧
    (offTune.render.outcome (ChaCha.ofSeed 1) :
        Except Fault (RenderedTune Float) × ChaCha.Generator).1
      = .error (.badNote (.badOctave "9" "C9")) := by
  have hload : (ofText offText).result = .ok offTune := by
    decide +kernel
  obtain ⟨-, hfails⟩ :=
    render_failsOnBadNotes (R := Float) hload (ChaCha.ofSeed 1)
  refine ⟨hload, (hfails _).mpr ⟨["Bb2"], "C9", ["H4"], ?_, ?_, ?_, ?_⟩⟩ <;> decide +kernel

end Tune

end Chiptune
