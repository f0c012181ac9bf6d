import Chiptune.Proofs.Pattern.Roundtrip
import Chiptune.Proofs.Record.Build
import Chiptune.Proofs.Record.Layout

/-!
# Writing tunes out

A tune is written out with all of its instruments, patterns and phrases, one paragraph for each, and
the text describes that very tune. Names are words, so that nothing runs together; an instrument is
not called by a word that means something at the start of a line; and no two things of a kind have
the same name, so that the first definition is the only one.

* `Sheet` and `Sheet.WellFormed`, what is written out;
* `Sheet.text`, the layout;
* `Sheet.ofText_invertsLayout`, reading it back.
-/

namespace Chiptune

/-! ## Sheets -/

/-- A tune with everything that it is made of. -/
structure Sheet where
  name : String
  sequence : List String
  instruments : List Instrument
  patterns : List Pattern
  phrases : List Phrase

/-- The tune of a sheet. -/
def Sheet.tune (sheet : Sheet) : Tune :=
  ⟨sheet.name, sheet.sequence, ⟨sheet.phrases.map fun phrase => (phrase.name, phrase)⟩⟩

/-- A name can be written as a word. -/
def IsName (name : String) : Prop := name ≠ "" ∧ Text.Solid name.toList

instance : DecidablePred IsName := fun name =>
  inferInstanceAs (Decidable (name ≠ "" ∧ Text.Solid name.toList))

/-- The words that mean something at the start of a line. -/
def reservedWords : List String :=
  ["tune", "sequence", "instrument", "phrase", "pattern", "melodies"]

/-- A rest, or a note with a letter, perhaps an accidental, and a digit. -/
def Step.IsToken : Step → Prop
  | .rest => True
  | .note name => Pattern.isNoteToken name.toList = true

instance : DecidablePred Step.IsToken
  | .rest => isTrue trivial
  | .note name => inferInstanceAs (Decidable (Pattern.isNoteToken name.toList = true))

/-- A positive 32-bit count. -/
def IsCount (n : ℕ) : Prop := 1 ≤ n ∧ n < 2 ^ 32

instance : DecidablePred IsCount := fun n => inferInstanceAs (Decidable (1 ≤ n ∧ n < 2 ^ 32))

/-- A phrase can be written with the instruments and patterns of a sheet. -/
structure Sheet.Fits (sheet : Sheet) (phrase : Phrase) : Prop where
  name : IsName phrase.name
  tempo : IsCount phrase.tempo
  beats : IsCount phrase.beats
  subbeats : IsCount phrase.subbeats
  instruments : ∀ melody ∈ phrase.melodies, melody.instrument ∈ sheet.instruments
  patterns : ∀ melody ∈ phrase.melodies, melody.pattern ∈ sheet.patterns
  grid : ∀ melody ∈ phrase.melodies, melody.pattern.length = phrase.beats * phrase.subbeats

/-- A sheet can be written out. -/
structure Sheet.WellFormed (sheet : Sheet) : Prop where
  name : IsName sheet.name
  instruments : ∀ instrument ∈ sheet.instruments,
    IsName instrument.name ∧ instrument.name ∉ reservedWords
  patterns : ∀ pattern ∈ sheet.patterns,
    IsName pattern.name ∧ ∀ step ∈ pattern.steps, step.IsToken
  phrases : ∀ phrase ∈ sheet.phrases, sheet.Fits phrase
  instrumentNames : (sheet.instruments.map Instrument.name).Nodup
  patternNames : (sheet.patterns.map Pattern.name).Nodup
  phraseNames : (sheet.phrases.map Phrase.name).Nodup
  sequence : ∀ name ∈ sheet.sequence, name ∈ sheet.phrases.map Phrase.name

/-! ## The layout -/

/-- An instrument with the words of its settings. -/
def Instrument.paragraph (instrument : Instrument) : Paragraph :=
  ⟨.instrument, [instrument.name],
    [⟨2, "tone", [instrument.tone.word]⟩, ⟨2, "length", [instrument.length.word]⟩,
     ⟨2, "volume", [instrument.volume.word]⟩, ⟨2, "pan", [instrument.pan.word]⟩,
     ⟨2, "reverb", [instrument.reverb.word]⟩]⟩

/-- A pattern with its steps in one word. -/
def Pattern.paragraph (pattern : Pattern) : Paragraph :=
  ⟨.pattern, [pattern.name, pattern.text], []⟩

/-- The names of the instrument and of the pattern of a melody. -/
def Melody.row (melody : Melody) : Row := ⟨4, melody.instrument.name, [melody.pattern.name]⟩

/-- A phrase with its timing and its melodies. -/
def Phrase.paragraph (phrase : Phrase) : Paragraph :=
  ⟨.phrase, [phrase.name],
    ⟨2, "tempo", [toString phrase.tempo]⟩ :: ⟨2, "beats", [toString phrase.beats]⟩ ::
      ⟨2, "subbeats", [toString phrase.subbeats]⟩ :: ⟨2, "melodies", []⟩ ::
        phrase.melodies.map Melody.row⟩

namespace Sheet

/-- The title. -/
def titleParagraph (sheet : Sheet) : Paragraph := ⟨.tune, [sheet.name], []⟩

/-- The sequence. -/
def sequenceParagraph (sheet : Sheet) : Paragraph := ⟨.sequence, sheet.sequence, []⟩

/-- The paragraphs of a sheet. -/
def paragraphs (sheet : Sheet) : List Paragraph :=
  sheet.titleParagraph :: sheet.sequenceParagraph ::
    (sheet.instruments.map Instrument.paragraph ++ (sheet.patterns.map Pattern.paragraph ++
      sheet.phrases.map Phrase.paragraph))

/-- A sheet as it is written. -/
def text (sheet : Sheet) : String := Paragraph.text sheet.paragraphs

end Sheet

/-! ## Clean paragraphs -/

theorem ofKeyword?_of_notMem_reservedWords {word : String} (h : word ∉ reservedWords) :
    RecordKind.ofKeyword? word = none := by
  cases hkind : RecordKind.ofKeyword? word with
  | none => rfl
  | some kind =>
    obtain rfl := RecordKind.ofKeyword?_eq_some.mp hkind
    refine absurd ?_ h
    cases kind <;> decide

/-- A row of a name and one more word is clean and starts no paragraph. -/
theorem Row.clean_pair (indent : ℕ) {name value : String} (hname : IsName name)
    (hreserved : name ∉ reservedWords) (hvalue : Text.Solid value.toList) :
    (⟨indent, name, [value]⟩ : Row).Clean ∧ RecordKind.ofKeyword? name = none :=
  ⟨⟨hname.1, List.forall_mem_cons.mpr ⟨hname.2, List.forall_mem_singleton.mpr hvalue⟩⟩,
    ofKeyword?_of_notMem_reservedWords hreserved⟩

theorem Instrument.clean_paragraph {instrument : Instrument} (h : IsName instrument.name) :
    instrument.paragraph.Clean where
  solid := List.forall_mem_singleton.mpr h.2
  body := by
    have htone : Text.Solid instrument.tone.word.toList := by
      cases instrument.tone <;> decide
    have hlevel : ∀ level : Level, Text.Solid level.word.toList := by
      intro level
      cases level <;> decide
    have hpan : Text.Solid instrument.pan.word.toList := by
      cases instrument.pan <;> decide
    have hreverb : Text.Solid instrument.reverb.word.toList := by
      cases instrument.reverb <;> decide
    refine List.forall_mem_cons.mpr ⟨Row.clean_pair 2 (by decide) (by decide) htone, ?_⟩
    refine List.forall_mem_cons.mpr ⟨Row.clean_pair 2 (by decide) (by decide) (hlevel _), ?_⟩
    refine List.forall_mem_cons.mpr ⟨Row.clean_pair 2 (by decide) (by decide) (hlevel _), ?_⟩
    refine List.forall_mem_cons.mpr ⟨Row.clean_pair 2 (by decide) (by decide) hpan, ?_⟩
    exact List.forall_mem_singleton.mpr (Row.clean_pair 2 (by decide) (by decide) hreverb)

theorem Step.solid_token {step : Step} (h : step.IsToken) : Text.Solid step.token.toList := by
  cases step with
  | rest => exact (by decide : Text.Solid ['.'])
  | note name => exact Text.solid_of_isNoteToken h

theorem Pattern.clean_paragraph {pattern : Pattern} (hname : IsName pattern.name)
    (hsteps : ∀ step ∈ pattern.steps, step.IsToken) : pattern.paragraph.Clean where
  solid := by
    have htext : Text.Solid pattern.text.toList := by
      rw [Pattern.text, String.toList_join]
      intro c hc
      obtain ⟨token, htoken, hc⟩ := List.mem_flatMap.mp hc
      obtain ⟨step, hstep, rfl⟩ := List.mem_map.mp htoken
      exact Step.solid_token (hsteps step hstep) c hc
    exact List.forall_mem_cons.mpr ⟨hname.2, List.forall_mem_singleton.mpr htext⟩
  body := nofun

theorem Phrase.clean_paragraph {phrase : Phrase} (hname : IsName phrase.name)
    (hmelodies : ∀ melody ∈ phrase.melodies, (IsName melody.instrument.name ∧
      melody.instrument.name ∉ reservedWords) ∧ IsName melody.pattern.name) :
    phrase.paragraph.Clean where
  solid := List.forall_mem_singleton.mpr hname.2
  body := by
    have hcount : ∀ {setting : String} (n : ℕ), IsName setting → setting ∉ reservedWords →
        (⟨2, setting, [toString n]⟩ : Row).Clean ∧ RecordKind.ofKeyword? setting = none :=
      fun n hsetting hreserved => Row.clean_pair 2 hsetting hreserved (Text.solid_toString n)
    refine List.forall_mem_cons.mpr ⟨hcount _ (by decide) (by decide), ?_⟩
    refine List.forall_mem_cons.mpr ⟨hcount _ (by decide) (by decide), ?_⟩
    refine List.forall_mem_cons.mpr ⟨hcount _ (by decide) (by decide), ?_⟩
    refine List.forall_mem_cons.mpr
      ⟨⟨⟨by decide, List.forall_mem_singleton.mpr (by decide)⟩, by decide⟩, ?_⟩
    refine List.forall_mem_map.mpr fun melody hmelody => ?_
    obtain ⟨⟨hinstrument, hreserved⟩, hpattern⟩ := hmelodies melody hmelody
    exact Row.clean_pair 4 hinstrument hreserved hpattern.2

/-- Every paragraph of a sheet is clean. -/
theorem Sheet.clean_paragraphs {sheet : Sheet} (h : sheet.WellFormed) :
    ∀ paragraph ∈ sheet.paragraphs, paragraph.Clean := by
  have hsequence : ∀ name ∈ sheet.sequence, IsName name := by
    intro name hname
    obtain ⟨phrase, hphrase, rfl⟩ := List.mem_map.mp (h.sequence name hname)
    exact (h.phrases phrase hphrase).name
  refine List.forall_mem_cons.mpr ⟨⟨List.forall_mem_singleton.mpr h.name.2, nofun⟩, ?_⟩
  refine List.forall_mem_cons.mpr ⟨⟨fun name hname => (hsequence name hname).2, nofun⟩, ?_⟩
  refine List.forall_mem_append.mpr ⟨?_, List.forall_mem_append.mpr ⟨?_, ?_⟩⟩
  · exact List.forall_mem_map.mpr fun instrument hinstrument =>
      instrument.clean_paragraph (h.instruments instrument hinstrument).1
  · exact List.forall_mem_map.mpr fun pattern hpattern =>
      pattern.clean_paragraph (h.patterns pattern hpattern).1 (h.patterns pattern hpattern).2
  · refine List.forall_mem_map.mpr fun phrase hphrase => ?_
    have hfits := h.phrases phrase hphrase
    exact phrase.clean_paragraph hfits.name fun melody hmelody =>
      ⟨h.instruments _ (hfits.instruments melody hmelody),
        (h.patterns _ (hfits.patterns melody hmelody)).1⟩

/-! ## What is read back -/

/-- The record of an instrument gives all of its words. -/
theorem Instrument.definesInstrument_block (instrument : Instrument) :
    instrument.paragraph.block.record.DefinesInstrument instrument := by
  have hnodup : (({} : Catalog String).names ++ instrument.paragraph.body.map Row.head).Nodup :=
    (by decide : ["tone", "length", "volume", "pan", "reverb"].Nodup)
  have hsettings : instrument.paragraph.block.record.settings
      = ⟨[("tone", instrument.tone.word), ("length", instrument.length.word),
          ("volume", instrument.volume.word), ("pan", instrument.pan.word),
          ("reverb", instrument.reverb.word)]⟩ := by
    refine (Row.foldl_put hnodup).trans ?_
    simp [Instrument.paragraph, String.join_cons]
  have hname : instrument.paragraph.block.record.name = instrument.name := by
    refine (Row.joinedTail_line _).trans ?_
    simp [Instrument.paragraph, Paragraph.heading, String.join_cons]
  refine ⟨hname.symm, ?_, ?_, ?_, ?_, ?_⟩ <;> rw [Record.setting?, hsettings] <;> rfl

theorem Step.IsToken.note_or_rest {step : Step} (h : step.IsToken) :
    Pattern.isNoteToken step.token.toList = true ∨ step.token = "." := by
  cases step with
  | rest => exact Or.inr rfl
  | note name => exact Or.inl h

theorem Step.ofToken_token {step : Step} (h : step.IsToken) : ofToken step.token = step := by
  cases step with
  | rest => rfl
  | note name =>
    refine if_neg ?_
    rintro rfl
    have hnote : Pattern.isNoteToken ['.'] = true := h
    exact absurd hnote (by decide)

/-- The record of a pattern builds it. -/
theorem Pattern.result_block {pattern : Pattern} (hname : IsName pattern.name)
    (h : ∀ step ∈ pattern.steps, step.IsToken) :
    pattern.paragraph.block.record.name = pattern.name ∧
      pattern.paragraph.block.record.pattern.result = .ok pattern := by
  have htail : pattern.paragraph.block.heading.tail
      = pattern.name :: [pattern.text].filter (· ≠ "") := by
    show [pattern.name, pattern.text].filter (· ≠ "") = _
    exact List.filter_cons_of_pos (by simpa using hname.1)
  have hrecord : pattern.paragraph.block.record.name = pattern.name := by
    show (pattern.paragraph.block.heading.tail.head?).getD "" = pattern.name
    rw [htail]
    rfl
  have hlist : pattern.paragraph.block.record.list = pattern.steps.map Step.token := by
    show readSteps pattern.paragraph.block.stepText = _
    rw [Block.stepText, htail, List.drop_one, List.tail_cons, Row.join_filter, String.join_cons,
      String.join_nil, String.append_empty, readSteps_text fun step hstep =>
        (h step hstep).note_or_rest]
  refine ⟨hrecord, ?_⟩
  show Except.ok (Pattern.ofTokens _ _) = _
  rw [hrecord, hlist, Pattern.ofTokens, List.map_map]
  have hsteps : pattern.steps.map (Step.ofToken ∘ Step.token) = pattern.steps :=
    (List.map_congr_left fun step hstep => Step.ofToken_token (h step hstep)).trans
      (List.map_id _)
  rw [hsteps]

/-- The record of a phrase gives its timing. -/
theorem Phrase.settings_block (phrase : Phrase) :
    phrase.paragraph.block.record.settings
      = ⟨[("tempo", toString phrase.tempo), ("beats", toString phrase.beats),
          ("subbeats", toString phrase.subbeats)]⟩ := by
  let rows : List Row := [⟨2, "tempo", [toString phrase.tempo]⟩,
    ⟨2, "beats", [toString phrase.beats]⟩, ⟨2, "subbeats", [toString phrase.subbeats]⟩]
  have hnodup : (({} : Catalog String).names ++ rows.map Row.head).Nodup :=
    (by decide : ["tempo", "beats", "subbeats"].Nodup)
  refine (Row.foldl_put hnodup).trans ?_
  simp [rows, String.join_cons]

/-- The record of a phrase names the instrument and the pattern of every melody. -/
theorem Phrase.melodies_block {phrase : Phrase}
    (h : ∀ melody ∈ phrase.melodies, melody.instrument.name ∉ reservedWords ∧
      IsName melody.pattern.name) :
    phrase.paragraph.block.record.melodies
      = some (phrase.melodies.map fun m => [m.instrument.name, m.pattern.name]) := by
  have hnone : Block.melodiesAfterLast ((phrase.melodies.map Melody.row).map Row.line) = none := by
    refine Block.melodiesAfterLast_eq_none.mpr ?_
    refine List.forall_mem_map.mpr (List.forall_mem_map.mpr ?_)
    intro melody hmelody
    refine decide_eq_false fun hopens => (h melody hmelody).1 ?_
    rw [show melody.instrument.name = "melodies" from hopens]
    decide
  have hsome : Block.melodiesAfterLast (phrase.paragraph.body.map Row.line)
      = some ((phrase.melodies.map Melody.row).map Row.line) := by
    rw [Phrase.paragraph, List.map_cons, List.map_cons, List.map_cons, List.map_cons,
      Block.melodiesAfterLast, Block.melodiesAfterLast, Block.melodiesAfterLast,
      Block.melodiesAfterLast, hnone]
    rfl
  show (Block.melodiesAfterLast (phrase.paragraph.body.map Row.line)).map _ = _
  rw [hsome, Option.map_some, List.map_map, List.map_map]
  refine congrArg some (List.map_congr_left fun melody hmelody => ?_)
  show melody.instrument.name :: [melody.pattern.name].filter (· ≠ "") = _
  rw [List.filter_cons_of_pos (by simpa using (h melody hmelody).2.1)]
  rfl

theorem Catalog.get?_map_of_nodup {α : Type} {key : α → String} {xs : List α}
    (h : (xs.map key).Nodup) {x : α} (hx : x ∈ xs) :
    (⟨xs.map fun x => (key x, x)⟩ : Catalog α).get? (key x) = some x := by
  refine get?_of_nodup ?_ (List.mem_map_of_mem hx)
  rw [names, List.map_map]
  exact h

theorem givesCount_of_setting? {record : Record} {setting : String} {n : ℕ}
    (h : record.setting? setting = some (toString n)) (hn : IsCount n) :
    record.GivesCount setting n where
  given := ⟨_, h, Decimal.numeral_toString n⟩
  pos := hn.1
  lt := hn.2

/-- The record of a phrase builds it from the instruments and the patterns of its sheet. -/
theorem Phrase.result_block {sheet : Sheet} (h : sheet.WellFormed) {phrase : Phrase}
    (hphrase : phrase ∈ sheet.phrases) {instruments : Catalog Instrument}
    {patterns : Catalog Pattern}
    (hinstruments : ∀ i ∈ sheet.instruments, instruments.get? i.name = some i)
    (hpatterns : ∀ p ∈ sheet.patterns, patterns.get? p.name = some p) :
    phrase.paragraph.block.record.name = phrase.name ∧
      phrase.paragraph.block.record.phrase instruments patterns = .ok phrase := by
  have hfits := h.phrases phrase hphrase
  have hname : phrase.paragraph.block.record.name = phrase.name := by
    refine (Row.joinedTail_line _).trans ?_
    simp [Phrase.paragraph, Paragraph.heading, String.join_cons]
  have hmelodies := Phrase.melodies_block fun melody hmelody =>
    ⟨(h.instruments _ (hfits.instruments melody hmelody)).2,
      (h.patterns _ (hfits.patterns melody hmelody)).1⟩
  refine ⟨hname, Record.phrase_eq_ok.mpr ⟨hname.symm, ?_, ?_, ?_, ?_, hfits.grid⟩⟩
  · refine givesCount_of_setting? ?_ hfits.tempo
    rw [Record.setting?, phrase.settings_block]
    rfl
  · refine givesCount_of_setting? ?_ hfits.beats
    rw [Record.setting?, phrase.settings_block]
    rfl
  · refine givesCount_of_setting? ?_ hfits.subbeats
    rw [Record.setting?, phrase.settings_block]
    rfl
  · rw [hmelodies, Option.getD_some, List.forall₂_map_left_iff, List.forall₂_same]
    intro melody hmelody
    exact Record.melody_eq_ok.mpr ⟨_, _, rfl, hinstruments _ (hfits.instruments melody hmelody),
      hpatterns _ (hfits.patterns melody hmelody)⟩

namespace Sheet

/-- The records as which the paragraphs are read. -/
def records (sheet : Sheet) : List Record := sheet.paragraphs.map fun p => p.block.record

/-- The records of a kind are those of the paragraphs of that kind. -/
theorem ofKind_map_record {α : Type} (paragraph : α → Paragraph) {kind : RecordKind}
    (hkind : ∀ x, (paragraph x).kind = kind) (other : RecordKind) (xs : List α) :
    Record.ofKind other ((xs.map paragraph).map fun p => p.block.record)
      = if kind = other then xs.map fun x => (paragraph x).block.record else [] := by
  rw [List.map_map, Record.ofKind]
  have hrecord : ∀ x, (paragraph x).block.record.kind = kind := hkind
  split_ifs with hsame
  · refine List.filter_eq_self.mpr (List.forall_mem_map.mpr fun x _ => ?_)
    exact decide_eq_true ((hrecord x).trans hsame)
  · refine List.filter_eq_nil_iff.mpr (List.forall_mem_map.mpr fun x _ => ?_)
    exact fun hx => hsame ((hrecord x).symm.trans (of_decide_eq_true hx))

theorem ofKind_records (sheet : Sheet) (kind : RecordKind) :
    Record.ofKind kind sheet.records = Record.ofKind kind
        [sheet.titleParagraph.block.record, sheet.sequenceParagraph.block.record] ++
      ((if .instrument = kind then sheet.instruments.map fun i => i.paragraph.block.record
          else []) ++
        ((if .pattern = kind then sheet.patterns.map fun p => p.paragraph.block.record else []) ++
          if .phrase = kind then sheet.phrases.map fun p => p.paragraph.block.record else [])) := by
  rw [← ofKind_map_record Instrument.paragraph fun _ => rfl,
    ← ofKind_map_record Pattern.paragraph fun _ => rfl,
    ← ofKind_map_record Phrase.paragraph fun _ => rfl]
  unfold Record.ofKind
  rw [← List.filter_append, ← List.filter_append, ← List.filter_append, ← List.map_append,
    ← List.map_append]
  rfl

/-- The instruments of a sheet are defined by its records. -/
theorem define_instruments {sheet : Sheet} (h : sheet.WellFormed) :
    (Record.define (fun record => .ofExcept record.instrument) {}
      (Record.ofKind .instrument sheet.records)).result
      = .ok ⟨sheet.instruments.map fun i => (i.name, i)⟩ := by
  have hrecords : Record.ofKind .instrument sheet.records
      = sheet.instruments.map fun i => i.paragraph.block.record :=
    (sheet.ofKind_records .instrument).trans (List.append_nil _)
  rw [hrecords]
  exact Record.define_map (fun i _ => ⟨i.definesInstrument_block.name.symm,
    Record.instrument_eq_ok.mpr i.definesInstrument_block⟩) h.instrumentNames

/-- The patterns of a sheet are defined by its records. -/
theorem define_patterns {sheet : Sheet} (h : sheet.WellFormed) :
    (Record.define Record.pattern {} (Record.ofKind .pattern sheet.records)).result
      = .ok ⟨sheet.patterns.map fun p => (p.name, p)⟩ := by
  have hrecords : Record.ofKind .pattern sheet.records
      = sheet.patterns.map fun p => p.paragraph.block.record :=
    (sheet.ofKind_records .pattern).trans (List.append_nil _)
  rw [hrecords]
  exact Record.define_map (fun p hp => p.result_block (h.patterns p hp).1 (h.patterns p hp).2)
    h.patternNames

/-- The phrases of a sheet are defined by its records. -/
theorem define_phrases {sheet : Sheet} (h : sheet.WellFormed) :
    (Record.define (fun record => .ofExcept (record.phrase
        ⟨sheet.instruments.map fun i => (i.name, i)⟩ ⟨sheet.patterns.map fun p => (p.name, p)⟩)) {}
      (Record.ofKind .phrase sheet.records)).result
      = .ok ⟨sheet.phrases.map fun p => (p.name, p)⟩ := by
  have hrecords : Record.ofKind .phrase sheet.records
      = sheet.phrases.map fun p => p.paragraph.block.record :=
    sheet.ofKind_records .phrase
  rw [hrecords]
  refine Record.define_map (fun phrase hphrase => Phrase.result_block h hphrase ?_ ?_)
    h.phraseNames
  · exact fun i hi => Catalog.get?_map_of_nodup h.instrumentNames hi
  · exact fun p hp => Catalog.get?_map_of_nodup h.patternNames hp

/-- The text of a sheet describes its tune. -/
theorem ofText_invertsLayout {sheet : Sheet} (h : sheet.WellFormed) :
    (Tune.ofText sheet.text).result = .ok sheet.tune := by
  have hname : sheet.titleParagraph.block.record.name = sheet.name := by
    refine (Row.joinedTail_line _).trans ?_
    simp [titleParagraph, Paragraph.heading, String.join_cons]
  have hsequence : sheet.sequenceParagraph.block.record.list = sheet.sequence := by
    refine List.filter_eq_self.mpr fun name hmem => ?_
    obtain ⟨phrase, hphrase, rfl⟩ := List.mem_map.mp (h.sequence name hmem)
    exact decide_eq_true (h.phrases phrase hphrase).name.1
  have hconclude : Tune.conclude sheet.records ⟨sheet.phrases.map fun p => (p.name, p)⟩
      = .ok sheet.tune := by
    refine Tune.conclude_eq_ok.mpr ⟨sheet.sequenceParagraph.block.record,
      sheet.titleParagraph.block.record, rfl, ?_, rfl, hname ▸ h.name.1, ?_⟩
    · rw [hsequence]
      intro name hmem
      rw [Catalog.contains_iff, Catalog.names, List.map_map]
      exact h.sequence name hmem
    · rw [hname, hsequence, tune]
  rw [Tune.ofText_result, text, bareRecords_text (sheet.clean_paragraphs h)]
  exact Tune.assemble_eq_ok.mpr ⟨_, _, _, define_instruments h, define_patterns h,
    define_phrases h, hconclude⟩

/-- Two phrases that share an instrument, one of them with two melodies. -/
def smallSheet : Sheet :=
  let lead : Instrument := ⟨"lead", .square, .half, .full, .centerLeft, .lots⟩
  let drum : Instrument := ⟨"drum", .noise, .quarter, .threeQuarters, .right, .none⟩
  let run : Pattern := ⟨"run", [.note "Bb4", .note "b2", .rest, .note "D#5"]⟩
  let beat : Pattern := ⟨"beat", [.note "C1", .rest, .rest, .note "C1"]⟩
  ⟨"demo", ["a", "b", "a"], [lead, drum], [run, beat],
    [⟨"a", 120, 2, 2, [⟨lead, run⟩, ⟨drum, beat⟩]⟩, ⟨"b", 4294967295, 4, 1, [⟨lead, beat⟩]⟩]⟩

theorem smallSheet_invertsLayout : smallSheet.WellFormed ∧
    (Tune.ofText smallSheet.text).result = .ok smallSheet.tune := by
  have hphrases : ∀ phrase ∈ smallSheet.phrases, smallSheet.Fits phrase := by
    refine List.forall_mem_cons.mpr ⟨⟨?_, ?_, ?_, ?_, ?_, ?_, ?_⟩,
      List.forall_mem_singleton.mpr ⟨?_, ?_, ?_, ?_, ?_, ?_, ?_⟩⟩ <;> decide +kernel
  have hformed : smallSheet.WellFormed := by
    refine ⟨?_, ?_, ?_, hphrases, ?_, ?_, ?_, ?_⟩ <;> decide +kernel
  exact ⟨hformed, ofText_invertsLayout hformed⟩

example : smallSheet.text =
    "tune demo\nsequence a b a\n" ++
    "instrument lead\n  tone square\n  length half\n  volume full\n  pan centerleft\n" ++
    "  reverb lots\ninstrument drum\n  tone noise\n  length quarter\n" ++
    "  volume threequarters\n  pan right\n  reverb none\npattern run Bb4b2.D#5\n" ++
    "pattern beat C1..C1\nphrase a\n  tempo 120\n  beats 2\n  subbeats 2\n  melodies\n" ++
    "    lead run\n    drum beat\nphrase b\n  tempo 4294967295\n  beats 4\n  subbeats 1\n" ++
    "  melodies\n    lead beat\n" := by
  decide +kernel

end Sheet

end Chiptune
