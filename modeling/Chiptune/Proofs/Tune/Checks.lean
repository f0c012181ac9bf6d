import Chiptune.Proofs.Record.Build
import Chiptune.Proofs.Tune.Definitions

/-!
# The checks of assembly

Whether records make a tune is decided by a list of checks that can be read off the records: the
words of every instrument; the melody lines, the timing and the grid of every phrase; then the
sequence and the title. Every record is checked, also one whose name is taken and a phrase that is
never played. Assembly comes to a tune when all checks hold, and otherwise it ends in the fault of
the first one that does not.

* `Tune.checks`, the list;
* `Record.reports_instrument` and `Record.reports_phrase`, the checks of one record;
* `Tune.assemble_reportsFirstFault`, all of them.
-/

namespace Chiptune

/-! ## The checks of an instrument -/

/-- The words for tones. -/
def Tone.words : List String := ["square", "sine", "triangle", "noise", "saw"]

/-- The words for the levels of length and volume. -/
def Level.words : List String := ["none", "quarter", "half", "threequarters", "full"]

/-- The words for positions. -/
def Pan.words : List String := ["left", "centerleft", "center", "centerright", "right"]

/-- The words for reverbs. -/
def Reverb.words : List String := ["none", "some", "more", "lots"]

theorem Tone.contains_words (value : String) :
    words.contains value = (ofWord? value).isSome := by
  unfold ofWord?
  split <;> simp_all [words]

theorem Level.contains_words (value : String) :
    words.contains value = (ofWord? value).isSome := by
  unfold ofWord?
  split <;> simp_all [words]

theorem Pan.contains_words (value : String) :
    words.contains value = (ofWord? value).isSome := by
  unfold ofWord?
  split <;> simp_all [words]

theorem Reverb.contains_words (value : String) :
    words.contains value = (ofWord? value).isSome := by
  unfold ofWord?
  split <;> simp_all [words]

/-- With a timing that is not zero, a phrase is valid when every pattern fits the grid. -/
theorem Phrase.validate_of_ne_zero {phrase : Phrase} (htempo : phrase.tempo ≠ 0)
    (hbeats : phrase.beats ≠ 0) (hsubbeats : phrase.subbeats ≠ 0) :
    phrase.validate = phrase.melodies.forM phrase.checkSteps := by
  unfold Phrase.validate Phrase.checkPositive
  rw [if_neg htempo, if_neg hbeats, if_neg hsubbeats]
  rfl

namespace Record

/-- A setting that is given must be one of some words. -/
def wordCheck (record : Record) (setting : String) (words : List String) : Check where
  holds := (record.setting? setting).all (words.contains ·)
  fault := .invalidSetting record.kind record.name setting ((record.setting? setting).getD "")

/-- The checks of an instrument record. -/
def instrumentChecks (record : Record) : List Check :=
  [record.wordCheck "tone" Tone.words, record.wordCheck "length" Level.words,
    record.wordCheck "volume" Level.words, record.wordCheck "pan" Pan.words,
    record.wordCheck "reverb" Reverb.words]

theorem reports_choice {α : Type} [Inhabited α] {ofWord? : String → Option α} {words : List String}
    (hwords : ∀ value, words.contains value = (ofWord? value).isSome) (record : Record)
    (setting : String) :
    Reports [record.wordCheck setting words] (record.choice setting ofWord?) := by
  unfold choice wordCheck
  cases record.setting? setting with
  | none => exact Reports.single (fun _ => ⟨default, rfl⟩) nofun
  | some value =>
    simp only [Option.all_some, Option.getD_some, hwords]
    cases ofWord? value with
    | none => exact Reports.single nofun fun _ => rfl
    | some a => exact Reports.single (fun _ => ⟨a, rfl⟩) nofun

theorem reports_instrument (record : Record) :
    Reports record.instrumentChecks record.instrument :=
  (reports_choice Tone.contains_words record "tone").bind fun _ _ =>
    (reports_choice Level.contains_words record "length").bind fun _ _ =>
      (reports_choice Level.contains_words record "volume").bind fun _ _ =>
        (reports_choice Pan.contains_words record "pan").bind fun _ _ =>
          (reports_choice Reverb.contains_words record "reverb").bind fun _ _ => Reports.ok _

/-! ## The checks of a phrase -/

/-- The number that a setting denotes. -/
def count (record : Record) (setting : String) : ℕ :=
  Decimal.numeral ((record.setting? setting).getD "")

/-- A setting must be given, and it must be a positive 32-bit count. -/
def countChecks (record : Record) (setting : String) : List Check :=
  let value := (record.setting? setting).getD ""
  [⟨(record.setting? setting).isSome, .missingSetting record.name setting⟩,
   ⟨Decimal.isNumeral value ∧ 0 < record.count setting ∧ record.count setting < 2 ^ 32,
    .invalidSetting record.kind record.name setting value⟩]

/-- A melody line must be two words, the names of an instrument and of a pattern. -/
def lineChecks (records : List Record) (phrase : String) (words : List String) : List Check :=
  let instrument := words.getD 0 ""
  let pattern := words.getD 1 ""
  [⟨words.length = 2, .malformedMelody phrase (String.intercalate " " words)⟩,
   ⟨(firstNamed .instrument instrument records).isSome, .unresolved phrase .instrument instrument⟩,
   ⟨(firstNamed .pattern pattern records).isSome, .unresolved phrase .pattern pattern⟩]

/-- The pattern of a melody line must have a step for every subbeat of every beat. -/
def gridCheck (records : List Record) (record : Record) (words : List String) : Check :=
  let pattern := words.getD 1 ""
  let steps := ((firstNamed .pattern pattern records).map (·.list.length)).getD 0
  let beats := record.count "beats"
  let subbeats := record.count "subbeats"
  ⟨steps = beats * subbeats, .stepCountMismatch pattern steps record.name beats subbeats⟩

/-- The checks of a phrase record. -/
def phraseChecks (records : List Record) (record : Record) : List Check :=
  let lines := record.melodies.getD []
  lines.flatMap (lineChecks records record.name) ++ (record.countChecks "tempo" ++
    (record.countChecks "beats" ++ (record.countChecks "subbeats" ++
      lines.map (gridCheck records record))))

theorem GivesCount.eq_count {record : Record} {setting : String} {n : ℕ}
    (h : record.GivesCount setting n) : n = record.count setting := by
  obtain ⟨value, hvalue, -, rfl⟩ := h.given
  rw [count, hvalue, Option.getD_some]

theorem reports_positive (record : Record) (setting : String) :
    Reports (record.countChecks setting) (record.positive setting) := by
  unfold countChecks
  cases hvalue : record.setting? setting with
  | none =>
    rw [positive, hvalue]
    rfl
  | some value =>
    have hcount : record.count setting = Decimal.numeral value := by
      rw [count, hvalue, Option.getD_some]
    -- the first check holds, so that the second one decides
    show Reports [_] _
    refine Reports.single (fun hholds => ?_) (fun hholds => ?_)
    · obtain ⟨hnumeral, hpos, hlt⟩ := of_decide_eq_true hholds
      exact ⟨_, positive_eq_ok.mpr ⟨⟨value, hvalue, hnumeral, hcount.symm⟩, hpos, hlt⟩⟩
    · cases hresult : record.positive setting with
      | ok n =>
        have hgives := positive_eq_ok.mp hresult
        obtain ⟨given, hgiven, hnumeral, -⟩ := hgives.given
        obtain rfl := Option.some.inj (hvalue.symm.trans hgiven)
        refine absurd ?_ (of_decide_eq_false hholds)
        rw [← hgives.eq_count]
        exact ⟨hnumeral, hgives.pos, hgives.lt⟩
      | error fault =>
        rw [positive, hvalue] at hresult
        dsimp only at hresult
        split at hresult
        · cases hresult
        · exact hresult.symm ▸ rfl

variable {instruments : Catalog Instrument} {patterns : Catalog Pattern} {records : List Record}

theorem reports_melody
    (hinstruments : ∀ name,
      instruments.contains name = (firstNamed .instrument name records).isSome)
    (hpatterns : ∀ name, patterns.contains name = (firstNamed .pattern name records).isSome)
    (phrase : String) (words : List String) :
    Reports (lineChecks records phrase words) (melody instruments patterns phrase words) := by
  unfold lineChecks melody
  split
  · rename_i instrument pattern
    simp only [List.getD_cons_zero, List.getD_cons_succ, ← hinstruments, ← hpatterns,
      Catalog.contains]
    cases instruments.get? instrument with
    | none => rfl
    | some i =>
      cases patterns.get? pattern with
      | none => rfl
      | some p => rfl
  · rename_i hwords
    have hlength : words.length ≠ 2 := fun hlength => by
      obtain ⟨instrument, pattern, rfl⟩ := List.length_eq_two.mp hlength
      exact hwords instrument pattern rfl
    rw [decide_eq_false hlength]
    rfl

theorem reports_checkSteps
    (hpatterns : ∀ name, patterns.get? name
      = (firstNamed .pattern name records).map fun r => Pattern.ofTokens r.name r.list)
    {record : Record} {phrase : Phrase} (hname : phrase.name = record.name)
    (hbeats : phrase.beats = record.count "beats")
    (hsubbeats : phrase.subbeats = record.count "subbeats") {words : List String} {m : Melody}
    (hm : melody instruments patterns record.name words = .ok m) :
    Reports [gridCheck records record words] (phrase.checkSteps m) := by
  obtain ⟨instrument, pattern, rfl, -, hpattern⟩ := melody_eq_ok.mp hm
  rw [hpatterns] at hpattern
  obtain ⟨r, hr, hsteps⟩ := Option.map_eq_some_iff.mp hpattern
  obtain ⟨-, -, hrname⟩ := firstNamed_eq_some hr
  have hlength : m.pattern.length = r.list.length := by
    rw [← hsteps, Pattern.length, Pattern.ofTokens, List.length_map]
  have hpname : m.pattern.name = pattern := by rw [← hsteps, ← hrname, Pattern.ofTokens]
  simp only [gridCheck, List.getD_cons_succ, List.getD_cons_zero, hr, Option.map_some,
    Option.getD_some]
  unfold Phrase.checkSteps Phrase.stepCount
  rw [hlength, hpname, hname, hbeats, hsubbeats]
  exact Reports.single (fun h => ⟨(), if_pos (of_decide_eq_true h)⟩)
    fun h => if_neg (of_decide_eq_false h)

/-- The checks of a phrase record are made by building it. -/
theorem reports_phrase
    (hinstruments : ∀ name,
      instruments.contains name = (firstNamed .instrument name records).isSome)
    (hpatterns : ∀ name, patterns.get? name
      = (firstNamed .pattern name records).map fun r => Pattern.ofTokens r.name r.list)
    (record : Record) :
    Reports (phraseChecks records record) (record.phrase instruments patterns) := by
  have hcontains : ∀ name, patterns.contains name = (firstNamed .pattern name records).isSome :=
    fun name => by rw [Catalog.contains, hpatterns, Option.isSome_map]
  unfold phraseChecks Record.phrase
  refine (Reports.mapM fun words _ => reports_melody hinstruments hcontains record.name words).bind
    fun melodies hmelodies => ?_
  refine (reports_positive record "tempo").bind fun tempo htempo => ?_
  refine (reports_positive record "beats").bind fun beats hbeats => ?_
  refine (reports_positive record "subbeats").bind fun subbeats hsubbeats => ?_
  have hvalid : (⟨record.name, tempo, beats, subbeats, melodies⟩ : Phrase).validate
      = melodies.forM (⟨record.name, tempo, beats, subbeats, melodies⟩ : Phrase).checkSteps :=
    Phrase.validate_of_ne_zero (Nat.ne_zero_of_lt (positive_eq_ok.mp htempo).pos)
      (Nat.ne_zero_of_lt (positive_eq_ok.mp hbeats).pos)
      (Nat.ne_zero_of_lt (positive_eq_ok.mp hsubbeats).pos)
  dsimp only
  rw [hvalid, ← List.append_nil (List.map _ _)]
  exact (Reports.forM (mapM_eq_ok.mp hmelodies) fun words m hm =>
    reports_checkSteps hpatterns rfl (positive_eq_ok.mp hbeats).eq_count
      (positive_eq_ok.mp hsubbeats).eq_count hm).bind fun _ _ => Reports.ok _

end Record

namespace Tune

open Record

/-- Every name of a sequence must be that of a phrase. -/
def nameCheck (records : List Record) (name : String) : Check where
  holds := (firstNamed .phrase name records).isSome
  fault := .undefinedPhrase name

/-- The checks of the sequence and the title. -/
def conclusionChecks (records : List Record) : List Check :=
  let names := ((first .sequence records).map Record.list).getD []
  [⟨(first .sequence records).isSome, .missingSequence⟩] ++
    (names.map (nameCheck records) ++
      [⟨(first .tune records).any (·.name ≠ ""), .missingTuneName⟩])

/-- The checks of records, in the order in which they are made. -/
def checks (records : List Record) : List Check :=
  (ofKind .instrument records).flatMap instrumentChecks ++
    ((ofKind .phrase records).flatMap (phraseChecks records) ++ conclusionChecks records)

theorem reports_title (records : List Record) (sequence : List String) (phrases : Catalog Phrase) :
    Reports [⟨(first .tune records).any (·.name ≠ ""), .missingTuneName⟩]
      (match first .tune records with
        | none => .error .missingTuneName
        | some title =>
          if title.name = "" then .error .missingTuneName
          else .ok (⟨title.name, sequence, phrases⟩ : Tune)) := by
  cases first .tune records with
  | none => exact Reports.single nofun fun _ => rfl
  | some title =>
    by_cases hempty : title.name = ""
    · simp only [if_pos hempty]
      exact Reports.single (fun h => absurd hempty (of_decide_eq_true h)) fun _ => rfl
    · simp only [if_neg hempty]
      exact Reports.single (fun _ => ⟨_, rfl⟩)
        fun h => absurd (decide_eq_true hempty) (by simpa using h)

theorem reports_conclude {records : List Record} {phrases : Catalog Phrase}
    (hphrases : ∀ name, phrases.contains name = (firstNamed .phrase name records).isSome) :
    Reports (conclusionChecks records) (conclude records phrases) := by
  unfold conclusionChecks conclude
  cases first .sequence records with
  | none => rfl
  | some sequence =>
    simp only [Option.map_some, Option.getD_some]
    -- the sequence is there, so that its names decide
    show Reports (sequence.list.map (nameCheck records) ++ _) _
    cases hfind : sequence.list.find? (!phrases.contains ·) with
    | some name =>
      obtain ⟨hname, before, after, hsplit, hbefore⟩ := List.find?_eq_some_iff_append.mp hfind
      have hfailed : (nameCheck records name).holds = false := by
        simpa [nameCheck, ← hphrases] using hname
      rw [hsplit, List.map_append, List.map_cons, List.append_assoc]
      refine Reports.of_passed (List.forall_mem_map.mpr fun other hother => ?_)
        (Reports.of_failed hfailed _)
      simpa [nameCheck, ← hphrases] using hbefore other hother
    | none =>
      refine Reports.of_passed (List.forall_mem_map.mpr fun name hname => ?_)
        (reports_title records sequence.list phrases)
      simpa [nameCheck, ← hphrases] using List.find?_eq_none.mp hfind name hname

theorem reports_assemble (records : List Record) :
    Reports (checks records) (assemble records).result := by
  rw [assemble_result, checks]
  refine (reports_define fun record _ => reports_instrument record).bind
    fun instruments hinstruments => ?_
  -- patterns are never refused
  obtain ⟨patterns, hpatterns⟩ := exists_define_pattern (ofKind .pattern records)
  rw [hpatterns]
  refine (reports_define fun record _ => reports_phrase (contains_define hinstruments)
    (get?_define_pattern hpatterns) record).bind fun phrases hphrases => ?_
  exact reports_conclude (contains_define hphrases)

/-- Assembly comes to a tune when every check holds, and otherwise it ends in the fault of the first
check that does not. -/
theorem assemble_reportsFirstFault (records : List Record) :
    ((∃ tune, (assemble records).result = .ok tune) ↔
      ∀ check ∈ checks records, check.holds = true) ∧
    ∀ fault, (assemble records).result = .error fault ↔
      ∃ passed check rest, checks records = passed ++ check :: rest ∧
        (∀ c ∈ passed, c.holds = true) ∧ check.holds = false ∧ check.fault = fault :=
  ⟨(reports_assemble records).exists_ok, (reports_assemble records).eq_error⟩

end Tune

end Chiptune
