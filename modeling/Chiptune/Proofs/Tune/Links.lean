import Chiptune.Proofs.Pattern.Token
import Chiptune.Proofs.Record.Build
import Chiptune.Proofs.Record.Source

/-!
# The links of a tune

Whatever records a tune is assembled from, its names lead back to them: the title and the sequence
to the first records of their kind, every phrase to the first phrase record of its name, and every
melody, by the two names on its line, to the first instrument record and the first pattern record
of those names. Later records of the same names change nothing, so that a text can be continued with
redefinitions only at the price of a fault, or without any effect.

* `Tune.LinkedTo`, the links, and `Tune.assemble_linkedTo`;
* `Tune.eq_of_assemble_append`, redefinitions;
* `Tune.ofText_isLinked`, both for the tune of a text.
-/

namespace Chiptune

namespace Record

/-- A melody plays what the first records define under the two names on its line. -/
def LinksMelody (records : List Record) (words : List String) (melody : Melody) : Prop :=
  ∃ instrument pattern, words = [instrument.name, pattern.name] ∧
    firstNamed .instrument instrument.name records = some instrument ∧
    firstNamed .pattern pattern.name records = some pattern ∧
    instrument.DefinesInstrument melody.instrument ∧
    melody.pattern = Pattern.ofTokens pattern.name pattern.list

/-- A phrase has the timing that its record gives and, in order, the melodies of its lines, with a
step for every subbeat of every beat. -/
structure LinksPhrase (records : List Record) (record : Record) (phrase : Phrase) : Prop where
  name : phrase.name = record.name
  tempo : record.GivesCount "tempo" phrase.tempo
  beats : record.GivesCount "beats" phrase.beats
  subbeats : record.GivesCount "subbeats" phrase.subbeats
  melodies : List.Forall₂ (LinksMelody records) (record.melodies.getD []) phrase.melodies
  grid : ∀ melody ∈ phrase.melodies, melody.pattern.length = phrase.beats * phrase.subbeats

/-- A definition of something that records define already. There is one title and one sequence,
whatever they are called. -/
def Redefines (records : List Record) (record : Record) : Prop :=
  ∃ old ∈ records, old.kind = record.kind ∧
    (record.kind = .tune ∨ record.kind = .sequence ∨ old.name = record.name)

end Record

open Record

/-- The names of a tune lead to the first records that define them. -/
structure Tune.LinkedTo (records : List Record) (tune : Tune) : Prop where
  named : tune.name ≠ ""
  title : (first .tune records).map Record.name = some tune.name
  sequence : (first .sequence records).map Record.list = some tune.sequence
  resolved : ∀ name ∈ tune.sequence, name ∈ tune.phrases.names
  nodup : tune.phrases.names.Nodup
  names : ∀ name, name ∈ tune.phrases.names ↔
    ∃ record ∈ records, record.kind = .phrase ∧ record.name = name
  phrases : ∀ name phrase, tune.phrases.get? name = some phrase → phrase.name = name ∧
    ∃ record, firstNamed .phrase name records = some record ∧ LinksPhrase records record phrase

/-- No step of a tune is a note that is written like a hold. -/
def Tune.HoldFree (tune : Tune) : Prop :=
  ∀ name phrase, tune.phrases.get? name = some phrase →
    ∀ melody ∈ phrase.melodies, Step.note "-" ∉ melody.pattern.steps

namespace Record

variable {records : List Record} {instruments : Catalog Instrument} {patterns : Catalog Pattern}

theorem isSome_firstNamed {kind : RecordKind} {name : String} :
    (firstNamed kind name records).isSome = true ↔
      ∃ record ∈ records, record.kind = kind ∧ record.name = name := by
  simp [firstNamed]

/-- What is under a name is built by the first record of that name. -/
theorem get?_define_eq_some {α : Type} {build : Record → Except Fault α} {kind : RecordKind}
    {catalog : Catalog α}
    (h : (define (fun record => .ofExcept (build record)) {} (ofKind kind records)).result
      = .ok catalog) {name : String} {value : α} (hget : catalog.get? name = some value) :
    ∃ record, firstNamed kind name records = some record ∧ build record = .ok value := by
  rw [get?_define h] at hget
  obtain ⟨record, hrecord, hvalue⟩ := Option.bind_eq_some_iff.mp hget
  refine ⟨record, hrecord, ?_⟩
  show (Report.ofExcept (build record)).result = _
  cases hbuild : (Report.ofExcept (build record)).result with
  | error fault =>
    rw [hbuild] at hvalue
    exact absurd hvalue nofun
  | ok built =>
    rw [hbuild] at hvalue
    exact congrArg _ (Option.some.inj hvalue)

theorem linksMelody_of_melody
    (hinstruments : (define (fun record => .ofExcept record.instrument) {}
      (ofKind .instrument records)).result = .ok instruments)
    (hpatterns : (define Record.pattern {} (ofKind .pattern records)).result = .ok patterns)
    {phrase : String} {words : List String} {m : Melody}
    (h : melody instruments patterns phrase words = .ok m) : LinksMelody records words m := by
  obtain ⟨instrument, pattern, rfl, hinstrument, hpattern⟩ := melody_eq_ok.mp h
  obtain ⟨i, hi, hbuilt⟩ := get?_define_eq_some hinstruments hinstrument
  rw [get?_define_pattern hpatterns] at hpattern
  obtain ⟨p, hp, hsteps⟩ := Option.map_eq_some_iff.mp hpattern
  obtain ⟨-, -, hiname⟩ := firstNamed_eq_some hi
  obtain ⟨-, -, hpname⟩ := firstNamed_eq_some hp
  exact ⟨i, p, by rw [hiname, hpname], by rw [hiname, hi], by rw [hpname, hp],
    instrument_eq_ok.mp hbuilt, hsteps.symm⟩

theorem linksPhrase_of_phrase
    (hinstruments : (define (fun record => .ofExcept record.instrument) {}
      (ofKind .instrument records)).result = .ok instruments)
    (hpatterns : (define Record.pattern {} (ofKind .pattern records)).result = .ok patterns)
    {record : Record} {ph : Phrase} (h : record.phrase instruments patterns = .ok ph) :
    LinksPhrase records record ph := by
  obtain ⟨hname, htempo, hbeats, hsubbeats, hmelodies, hgrid⟩ := phrase_eq_ok.mp h
  exact ⟨hname, htempo, hbeats, hsubbeats,
    hmelodies.imp fun words m hm => linksMelody_of_melody hinstruments hpatterns hm, hgrid⟩

end Record

namespace Tune

variable {records more : List Record} {tune tune' : Tune}

/-- The names of an assembled tune lead to the first records that define them. -/
theorem assemble_linkedTo (h : (assemble records).result = .ok tune) :
    tune.LinkedTo records := by
  obtain ⟨instruments, patterns, phrases, hinstruments, hpatterns, hphrases, hconclude⟩ :=
    assemble_eq_ok.mp h
  obtain ⟨sequence, title, hsequence, hresolved, htitle, hnamed, rfl⟩ := conclude_eq_ok.mp hconclude
  have hempty : ({} : Catalog Phrase).names.Nodup := List.nodup_nil
  exact {
    named := hnamed
    title := by rw [htitle, Option.map_some]
    sequence := by rw [hsequence, Option.map_some]
    resolved := fun name hname => Catalog.contains_iff.mp (hresolved name hname)
    nodup := nodup_names_define hempty hphrases
    names := fun name => by
      rw [← Catalog.contains_iff, contains_define hphrases, isSome_firstNamed]
    phrases := fun name phrase hphrase => by
      obtain ⟨record, hrecord, hbuilt⟩ := get?_define_eq_some hphrases hphrase
      obtain ⟨-, -, hname⟩ := firstNamed_eq_some hrecord
      have hlinks := linksPhrase_of_phrase hinstruments hpatterns hbuilt
      exact ⟨hlinks.name.trans hname, record, hrecord, hlinks⟩ }

/-! ## Redefinitions -/

theorem first_append {kind : RecordKind} {record : Record} (h : first kind records = some record) :
    first kind (records ++ more) = some record := by
  rw [first, List.find?_append, ← first, h, Option.some_or]

/-- A stage of assembly goes through redefinitions without a trace. -/
theorem define_append_of_redefines {α : Type} {build : Record → Report α} {kind : RecordKind}
    {catalog catalog' : Catalog α} (hkind : kind ≠ .tune ∧ kind ≠ .sequence)
    (hmore : ∀ record ∈ more, Redefines records record)
    (h : (define build {} (ofKind kind records)).result = .ok catalog)
    (h' : (define build {} (ofKind kind (records ++ more))).result = .ok catalog') :
    catalog' = catalog := by
  rw [ofKind, List.filter_append, ← ofKind, ← ofKind, define_append, h] at h'
  refine define_of_taken (fun record hrecord => ?_) h'
  obtain ⟨hmem, hsame⟩ := List.mem_filter.mp hrecord
  have hsame : record.kind = kind := of_decide_eq_true hsame
  obtain ⟨old, hold, holdkind, hname⟩ := hmore record hmem
  rw [hsame] at holdkind hname
  rw [contains_define h, isSome_firstNamed]
  exact ⟨old, hold, holdkind, (hname.resolve_left hkind.1).resolve_left hkind.2⟩

/-- Redefinitions change no tune. -/
theorem eq_of_assemble_append (hmore : ∀ record ∈ more, Redefines records record)
    (h : (assemble records).result = .ok tune)
    (h' : (assemble (records ++ more)).result = .ok tune') : tune' = tune := by
  obtain ⟨instruments, patterns, phrases, hinstruments, hpatterns, hphrases, hconclude⟩ :=
    assemble_eq_ok.mp h
  obtain ⟨instruments', patterns', phrases', hinstruments', hpatterns', hphrases', hconclude'⟩ :=
    assemble_eq_ok.mp h'
  obtain rfl := define_append_of_redefines (by decide) hmore hinstruments hinstruments'
  obtain rfl := define_append_of_redefines (by decide) hmore hpatterns hpatterns'
  obtain rfl := define_append_of_redefines (by decide) hmore hphrases hphrases'
  obtain ⟨sequence, title, hsequence, -, htitle, -, rfl⟩ := conclude_eq_ok.mp hconclude
  obtain ⟨sequence', title', hsequence', -, htitle', -, rfl⟩ := conclude_eq_ok.mp hconclude'
  obtain rfl := Option.some.inj ((first_append hsequence).symm.trans hsequence')
  obtain rfl := Option.some.inj ((first_append htitle).symm.trans htitle')
  rfl

end Tune

/-! ## Texts -/

/-- A text starts on a line of its own when it is put behind another one. -/
def StartsLine (text extra : String) : Prop :=
  text.toList.getLast? = some '\n' ∨ extra.toList.head? = some '\n'

theorem bareRecords_append_of_startsLine {text extra : String} (hline : StartsLine text extra)
    (h : (Block.cut (bareLines extra.toList)).1 = []) :
    bareRecords (text ++ extra).toList = bareRecords text.toList ++ bareRecords extra.toList := by
  rw [String.toList_append]
  rcases hline with hline | hline
  · obtain ⟨front, hfront⟩ := List.getLast?_eq_some_iff.mp hline
    have hbefore : bareRecords (front ++ ['\n']) = bareRecords front ++ [] :=
      bareRecords_append front rfl
    rw [hfront, List.append_assoc, List.singleton_append, bareRecords_append front h, hbefore,
      List.append_nil]
  · obtain ⟨rest, hrest⟩ := List.head?_eq_some_iff.mp hline
    have hafter : bareLines ('\n' :: rest) = bareLines rest := bareLines_append [] rest
    rw [hrest, hafter] at h
    rw [hrest, bareRecords_append text.toList h, bareRecords, bareRecords, bareRecords, hafter]

/-- The list of a pattern record has no hold in it. -/
theorem Record.hold_notMem_list {text : String} {records : List Record}
    (h : (Record.ofText text).result = .ok records) {record : Record} (hrecord : record ∈ records)
    (hkind : record.kind = .pattern) : "-" ∉ record.list := by
  rw [Record.ofText_result] at h
  obtain rfl := Except.ok.inj h
  obtain ⟨block, -, rfl⟩ := List.mem_map.mp hrecord
  have hkind : block.kind = .pattern := hkind
  show "-" ∉ block.list
  rw [Block.list, hkind]
  intro hmem
  obtain ⟨token, htoken, hhold⟩ := List.mem_map.mp hmem
  have htext : token = Pattern.holdToken := by
    rw [← String.toList_ofList (l := token), hhold]
    rfl
  exact Pattern.holdToken_notMem_stepTokens _ (htext ▸ htoken)

theorem Record.LinksMelody.hold_notMem {text : String} {records : List Record}
    (h : (Record.ofText text).result = .ok records) {words : List String} {melody : Melody}
    (hlinks : LinksMelody records words melody) : Step.note "-" ∉ melody.pattern.steps := by
  obtain ⟨instrument, pattern, -, -, hpattern, -, hsteps⟩ := hlinks
  obtain ⟨hmem, hkind, -⟩ := firstNamed_eq_some hpattern
  rw [hsteps]
  intro hstep
  obtain ⟨token, htoken, hnote⟩ := List.mem_map.mp hstep
  unfold Step.ofToken at hnote
  split_ifs at hnote
  obtain rfl := Step.note.inj hnote
  exact hold_notMem_list h hmem hkind htoken

namespace Tune

theorem ofText_eq_ok {text : String} {tune : Tune} :
    (ofText text).result = .ok tune ↔
      ∃ records, (Record.ofText text).result = .ok records ∧
        (assemble records).result = .ok tune := by
  rw [ofText, Report.result_bind, bind_eq_ok]

/-- The names of a tune lead to the first records of its text that define them, its holds are
resolved, and the text can be continued with redefinitions only in vain. -/
theorem ofText_isLinked {text : String} {tune : Tune} (h : (ofText text).result = .ok tune) :
    ∃ records, (Record.ofText text).result = .ok records ∧ tune.LinkedTo records ∧ tune.HoldFree ∧
      ∀ extra more tune', StartsLine text extra → (Block.cut (Line.ofText extra)).1 = [] →
        (Record.ofText extra).result = .ok more → (∀ record ∈ more, Redefines records record) →
        (ofText (text ++ extra)).result = .ok tune' → tune' = tune := by
  obtain ⟨records, hrecords, hassemble⟩ := ofText_eq_ok.mp h
  have hlinked := assemble_linkedTo hassemble
  refine ⟨records, hrecords, hlinked, ?_, ?_⟩
  · intro name phrase hphrase melody hmelody
    obtain ⟨-, record, -, hlinks⟩ := hlinked.phrases name phrase hphrase
    have hall : ∀ m ∈ phrase.melodies, Step.note "-" ∉ m.pattern.steps :=
      ((List.forall₂_and_left _ _).mp (hlinks.melodies.flip.imp fun m words hm =>
        ⟨LinksMelody.hold_notMem hrecords hm, hm⟩)).1
    exact hall melody hmelody
  · intro extra more tune' hline hstray hmore hredefines h'
    have hlines : (Block.cut (bareLines extra.toList)).1 = [] := by
      rw [bareLines, ← Line.map_bare_numbered 1, Block.cut_map_bare]
      exact List.map_eq_nil_iff.mpr hstray
    rw [ofText_result, bareRecords_append_of_startsLine hline hlines,
      ← Record.map_bare_ofText hrecords, ← Record.map_bare_ofText hmore,
      ← List.map_append, assemble_map_bare] at h'
    exact eq_of_assemble_append hredefines hassemble h'

/-- A small text with every kind of record and a pattern that is defined twice. -/
def smallText : String :=
  "tune demo\nsequence a a\ninstrument lead\n  tone square\npattern run C4-.D#5\npattern run .\n" ++
    "phrase a\n  tempo 120\n  beats 2\n  subbeats 2\n  melodies\n    lead run\n"

/-- The tune of the small text. -/
def smallTune : Tune :=
  ⟨"demo", ["a", "a"], ⟨[("a", ⟨"a", 120, 2, 2, [⟨{ name := "lead", tone := .square },
    ⟨"run", [.note "C4", .note "C4", .rest, .note "D#5"]⟩⟩]⟩)]⟩⟩

/-- A second instrument and a second sequence for it. -/
def smallExtra : String := "instrument lead\n  tone noise\nsequence b\n"

theorem smallText_isLinked : (ofText smallText).result = .ok smallTune ∧
    (∃ records, (Record.ofText smallText).result = .ok records ∧ smallTune.LinkedTo records) ∧
    smallTune.HoldFree ∧ (ofText (smallText ++ smallExtra)).result = .ok smallTune := by
  have hload : (ofText smallText).result = .ok smallTune := by
    decide +kernel
  have hcontinued : (ofText (smallText ++ smallExtra)).result.toOption.isSome = true := by
    decide +kernel
  obtain ⟨records, hrecords, hlinked, hholds, hredefine⟩ := ofText_isLinked hload
  refine ⟨hload, ⟨records, hrecords, hlinked⟩, hholds, ?_⟩
  obtain ⟨tune', hresult⟩ := exists_eq_ok hcontinued
  rw [Record.ofText_result] at hrecords
  obtain rfl := Except.ok.inj hrecords
  refine hresult.trans (congrArg _ (hredefine smallExtra _ tune' (Or.inl ?_) ?_
    (Record.ofText_result _) ?_ hresult))
  · decide +kernel
  · decide +kernel
  · unfold Redefines
    decide +kernel

end Tune

end Chiptune
