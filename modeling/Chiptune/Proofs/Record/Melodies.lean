import Chiptune.Proofs.Tune.Links
import Mathlib.Data.List.TakeWhile

/-!
# The melody lines of a phrase

The melodies of a phrase are opened by a line that starts with the word for them, and the lines
below are its melody lines, up to the next heading. A line that opens the melodies once more starts
them afresh: the melody lines above it are lost, and so is a melody line that is taken for such an
opening because its instrument is called by that word. All others are kept, in order, and a tune
plays one melody for each of them.

* `Block.mem_cut_iff`, the blocks of a text;
* `Block.melodiesAfterLast_concat`, what one more line does;
* `Block.exists_reopened`, the lines that are lost and the lines that are kept;
* `Tune.ofText_playsLastMelodies`, both for all texts, with the tunes that they make.
-/

namespace Chiptune

namespace Block

/-! ## Blocks and their places -/

/-- A block stands in lines from its heading to the next one. -/
structure StandsIn (block : Block) (lines : List Line) : Prop where
  headed : block.Headed
  place : ∃ front back, lines = front ++ (block.lines ++ back) ∧
    ∀ line ∈ back.head?, RecordKind.ofKeyword? line.head ≠ none

/-- Lines are cut into those before the first heading and blocks. -/
theorem append_flatMap_cut (all : List Line) :
    all = (cut all).1 ++ (cut all).2.flatMap lines ∧
      (∀ line ∈ (cut all).1, RecordKind.ofKeyword? line.head = none) ∧
      ∀ block ∈ (cut all).2, block.Headed := by
  induction all with
  | nil => exact ⟨rfl, List.forall_mem_nil _, List.forall_mem_nil _⟩
  | cons line all ih =>
    obtain ⟨hall, hstray, hheaded⟩ := ih
    rw [cut]
    cases hhead : RecordKind.ofKeyword? line.head with
    | none => exact ⟨congrArg (line :: ·) hall, List.forall_mem_cons.mpr ⟨hhead, hstray⟩, hheaded⟩
    | some kind =>
      -- the lines that were stray have found their heading
      exact ⟨congrArg (line :: ·) hall, List.forall_mem_nil _,
        List.forall_mem_cons.mpr ⟨⟨hhead, hstray⟩, hheaded⟩⟩

/-- The first line of blocks is a heading. -/
theorem Headed.ofKeyword?_head {blocks : List Block} (h : ∀ block ∈ blocks, block.Headed) :
    ∀ line ∈ (blocks.flatMap lines).head?, RecordKind.ofKeyword? line.head ≠ none := by
  cases blocks with
  | nil => exact nofun
  | cons block blocks =>
    rintro line ⟨⟩
    rw [(h block List.mem_cons_self).heading]
    exact nofun

/-- Lines that start with a heading leave nothing before it. -/
theorem cut_fst_eq_nil {all : List Line}
    (h : ∀ line ∈ all.head?, RecordKind.ofKeyword? line.head ≠ none) : (cut all).1 = [] := by
  cases all with
  | nil => rfl
  | cons line all =>
    rw [cut]
    cases hhead : RecordKind.ofKeyword? line.head with
    | none => exact absurd hhead (h line rfl)
    | some kind => rfl

/-- The blocks that are cut are those that stand in the lines. -/
theorem mem_cut_iff {block : Block} {all : List Line} :
    block ∈ (cut all).2 ↔ block.StandsIn all := by
  constructor
  · intro hblock
    obtain ⟨hall, -, hheaded⟩ := append_flatMap_cut all
    obtain ⟨before, after, hsplit⟩ := List.append_of_mem hblock
    refine ⟨hheaded block hblock, (cut all).1 ++ before.flatMap lines, after.flatMap lines, ?_, ?_⟩
    · rw [hsplit, List.flatMap_append, List.flatMap_cons] at hall
      rw [List.append_assoc]
      exact hall
    · refine Headed.ofKeyword?_head fun other hother => hheaded other ?_
      rw [hsplit]
      exact List.mem_append_right _ (List.mem_cons_of_mem _ hother)
  · rintro ⟨hheaded, front, back, rfl, hback⟩
    have hblock := hheaded.cut_lines
    have hrest : cut (block.lines ++ back) = ([], block :: (cut back).2) := by
      rw [cut_append _ (cut_fst_eq_nil hback), hblock]
      rfl
    rw [cut_append _ (by rw [hrest]), hrest]
    exact List.mem_append_right _ List.mem_cons_self

/-! ## Openings -/

/-- One more line opens the melodies afresh or is one of them, if they are open at all. -/
theorem melodiesAfterLast_concat (all : List Line) (line : Line) :
    melodiesAfterLast (all ++ [line])
      = if opensMelodies line then some []
        else (melodiesAfterLast all).map (· ++ [line]) := by
  induction all with
  | nil => rfl
  | cons first all ih =>
    rw [List.cons_append, melodiesAfterLast, ih, melodiesAfterLast]
    cases melodiesAfterLast all <;> split_ifs <;> rfl

/-- Melodies are the lines below an opening of melodies that is the last one. -/
theorem exists_of_melodiesAfterLast {all below : List Line}
    (h : melodiesAfterLast all = some below) :
    (∃ above line, all = above ++ [line] ++ below ∧ opensMelodies line = true) ∧
      ∀ line ∈ below, opensMelodies line = false := by
  induction all using List.reverseRecOn generalizing below with
  | nil => exact absurd h nofun
  | append_singleton all line ih =>
    rw [melodiesAfterLast_concat] at h
    split_ifs at h with hline
    · obtain rfl := Option.some.inj h
      exact ⟨⟨all, line, (List.append_nil _).symm, hline⟩, nofun⟩
    · obtain ⟨before, hbefore, rfl⟩ := Option.map_eq_some_iff.mp h
      obtain ⟨⟨above, opening, rfl, hopening⟩, hplain⟩ := ih hbefore
      refine ⟨⟨above, opening, List.append_assoc _ _ _, hopening⟩, ?_⟩
      exact List.forall_mem_append.mpr ⟨hplain, by simpa using hline⟩

/-- What stands above an opening of melodies does not matter to them. -/
theorem melodiesAfterLast_append_cons (front : List Line) {line : Line} (below : List Line)
    (h : opensMelodies line = true) :
    melodiesAfterLast (front ++ line :: below)
      = some ((melodiesAfterLast below).getD below) := by
  induction front with
  | nil =>
    rw [List.nil_append, melodiesAfterLast, if_pos h]
    cases melodiesAfterLast below <;> rfl
  | cons first front ih => rw [List.cons_append, melodiesAfterLast, ih]

/-! ## Melody lines -/

variable {block : Block} {above below : List Line}

/-- The lines of a phrase below the one that opens its melodies first. -/
def opened (block : Block) : List Line := (block.body.dropWhile (!opensMelodies ·)).tail

/-- The melody lines of a phrase: all lines below that one but for repetitions of the mere word. -/
def melodyLines (block : Block) : List Line := block.opened.filter (·.words ≠ ["melodies"])

/-- The lines of a phrase up to the last line that opens its melodies again, and those below. -/
structure Reopened (block : Block) (above below : List Line) : Prop where
  opened : block.opened = above ++ below
  again : ∀ line ∈ above.getLast?, opensMelodies line = true
  plain : ∀ line ∈ below, opensMelodies line = false

/-- The melodies of a phrase are the lines below the last line that opens them. -/
theorem exists_reopened (block : Block) :
    ∃ above below, block.Reopened above below ∧
      (melodiesAfterLast block.body).getD [] = below := by
  cases hbody : block.body.dropWhile (!opensMelodies ·) with
  | nil =>
    have hplain : ∀ line ∈ block.body, opensMelodies line = false := by
      simpa using List.dropWhile_eq_nil_iff.mp hbody
    refine ⟨[], [], ⟨?_, nofun, nofun⟩, ?_⟩
    · rw [opened, hbody]
      rfl
    · rw [melodiesAfterLast_eq_none.mpr hplain]
      rfl
  | cons first rest =>
    have hfirst : opensMelodies first = true := by
      simpa [hbody] using List.head?_dropWhile_not (!opensMelodies ·) block.body
    have hsplit : block.body = block.body.takeWhile (!opensMelodies ·) ++ first :: rest := by
      rw [← hbody, List.takeWhile_append_dropWhile]
    have hopened : block.opened = rest := by
      rw [opened, hbody, List.tail_cons]
    rw [hsplit, melodiesAfterLast_append_cons _ _ hfirst, Option.getD_some]
    cases hrest : melodiesAfterLast rest with
    | none => exact ⟨[], rest, ⟨hopened, nofun, melodiesAfterLast_eq_none.mp hrest⟩, rfl⟩
    | some kept =>
      obtain ⟨⟨above, line, hlines, hline⟩, hplain⟩ := exists_of_melodiesAfterLast hrest
      refine ⟨above ++ [line], kept, ⟨hopened.trans hlines, ?_, hplain⟩, rfl⟩
      rw [List.getLast?_append, List.getLast?_singleton]
      rintro _ ⟨⟩
      exact hline

namespace Reopened

/-- The melody lines of a phrase are those above the last opening, and all lines below it. -/
theorem melodyLines_eq (h : block.Reopened above below) :
    block.melodyLines = above.filter (·.words ≠ ["melodies"]) ++ below := by
  rw [melodyLines, h.opened, List.filter_append]
  refine congrArg _ (List.filter_eq_self.mpr fun line hline => ?_)
  have hplain : line.head ≠ "melodies" := of_decide_eq_false (h.plain line hline)
  refine decide_eq_true fun hwords => hplain ?_
  exact (List.cons.inj hwords).1

/-- Nothing is lost above the last opening but repetitions of the mere word. -/
theorem lost_eq_nil_iff :
    above.filter (·.words ≠ ["melodies"]) = [] ↔ ∀ line ∈ above, line.words = ["melodies"] := by
  simp [List.filter_eq_nil_iff]

theorem map_words_eq_iff (h : block.Reopened above below) :
    below.map Line.words = block.melodyLines.map Line.words ↔
      ∀ line ∈ above, line.words = ["melodies"] := by
  rw [h.melodyLines_eq, List.map_append, List.self_eq_append_left, List.map_eq_nil_iff,
    lost_eq_nil_iff]

theorem length_eq_iff (h : block.Reopened above below) :
    below.length = block.melodyLines.length ↔ ∀ line ∈ above, line.words = ["melodies"] := by
  rw [h.melodyLines_eq, List.length_append, right_eq_add, List.length_eq_zero_iff,
    lost_eq_nil_iff]

end Reopened

/-- The record of a phrase has the words of the lines below the last opening of its melodies. -/
theorem exists_reopened_record (hkind : block.kind = .phrase) :
    ∃ above below, block.Reopened above below ∧
      block.record.melodies.getD [] = below.map Line.words := by
  obtain ⟨above, below, hreopened, rfl⟩ := block.exists_reopened
  refine ⟨above, _, hreopened, ?_⟩
  show block.melodies.getD [] = _
  rw [melodies, if_pos hkind]
  cases melodiesAfterLast block.body <;> rfl

/-- A phrase has melodies if a line opens them. -/
theorem isSome_record_melodies (hkind : block.kind = .phrase) {line : Line}
    (hline : line ∈ block.body) (hopens : opensMelodies line = true) :
    block.record.melodies.isSome = true := by
  show block.melodies.isSome = true
  rw [melodies, if_pos hkind, Option.isSome_map, Option.isSome_iff_ne_none]
  intro hnone
  have hplain := melodiesAfterLast_eq_none.mp hnone line hline
  exact absurd (hplain.symm.trans hopens) nofun

end Block

/-! ## Texts -/

open Record

namespace Record

variable {text : String} {records : List Record}

/-- Every block that stands in a text has a record, and there are no others. -/
theorem mem_ofText_iff (h : (Record.ofText text).result = .ok records) {record : Record} :
    record ∈ records ↔ ∃ block : Block, block.StandsIn (Line.ofText text) ∧
      block.record = record := by
  obtain rfl := Except.ok.inj ((ofText_result text).symm.trans h)
  rw [List.mem_map]
  exact exists_congr fun block => and_congr_left' Block.mem_cut_iff

end Record

namespace Tune

/-- The record of a phrase keeps the words of the lines below the last opening of its melodies, and
a tune plays one melody for each of them. Those are all of its melody lines, unless one of these
stands above that opening or is taken for it. -/
theorem ofText_playsLastMelodies (text : String) :
    ∃ records, (Record.ofText text).result = .ok records ∧
      (∀ block : Block, block.StandsIn (Line.ofText text) → block.kind = .phrase →
        (∃ line ∈ block.body, Block.opensMelodies line = true) →
        block.record ∈ records ∧ ∃ above below, block.Reopened above below ∧
          block.record.melodies = some (below.map Line.words) ∧
          (block.record.melodies = some (block.melodyLines.map Line.words) ↔
            ∀ line ∈ above, line.words = ["melodies"])) ∧
      ∀ tune, (ofText text).result = .ok tune →
        ∀ name phrase, tune.phrases.get? name = some phrase →
          ∃ block : Block, block.StandsIn (Line.ofText text) ∧
            firstNamed .phrase name records = some block.record ∧
            ∃ above below, block.Reopened above below ∧
              List.Forall₂ (fun line => LinksMelody records line.words) below phrase.melodies ∧
              (phrase.melodies.length = block.melodyLines.length ↔
                ∀ line ∈ above, line.words = ["melodies"]) := by
  have hrecords := Record.ofText_result text
  refine ⟨_, hrecords, ?_, ?_⟩
  · rintro block hstands hkind ⟨line, hline, hopens⟩
    refine ⟨(mem_ofText_iff hrecords).mpr ⟨block, hstands, rfl⟩, ?_⟩
    obtain ⟨above, below, hreopened, hkept⟩ := Block.exists_reopened_record hkind
    obtain ⟨rows, hrows⟩ :=
      Option.isSome_iff_exists.mp (Block.isSome_record_melodies hkind hline hopens)
    rw [hrows, Option.getD_some] at hkept
    subst hkept
    refine ⟨above, below, hreopened, hrows, ?_⟩
    rw [hrows, Option.some_inj]
    exact hreopened.map_words_eq_iff
  · intro tune htune name phrase hphrase
    obtain ⟨records, hrecords', hassemble⟩ := ofText_eq_ok.mp htune
    obtain rfl := Except.ok.inj (hrecords.symm.trans hrecords')
    obtain ⟨-, record, hfirst, hlinks⟩ := (assemble_linkedTo hassemble).phrases name phrase hphrase
    obtain ⟨hmem, hkind, -⟩ := firstNamed_eq_some hfirst
    obtain ⟨block, hstands, rfl⟩ := (mem_ofText_iff hrecords).mp hmem
    obtain ⟨above, below, hreopened, hkept⟩ := Block.exists_reopened_record hkind
    have hmelodies := hlinks.melodies
    rw [hkept, List.forall₂_map_left_iff] at hmelodies
    refine ⟨block, hstands, hfirst, above, below, hreopened, hmelodies, ?_⟩
    rw [← hmelodies.length_eq]
    exact hreopened.length_eq_iff

/-- A text with a phrase whose melodies are opened twice. -/
def repriseText : String :=
  "tune t\nsequence a\ninstrument lead\npattern riff C4\npattern walk .\n" ++
    "phrase a\ntempo 120\nbeats 1\nsubbeats 1\nmelodies\nlead riff\nmelodies\nlead walk\n"

/-- The block of that phrase. -/
def repriseBlock : Block where
  kind := .phrase
  heading := ⟨6, "phrase a", "phrase", ["a"]⟩
  body := [⟨7, "tempo 120", "tempo", ["120"]⟩, ⟨8, "beats 1", "beats", ["1"]⟩,
    ⟨9, "subbeats 1", "subbeats", ["1"]⟩, ⟨10, "melodies", "melodies", []⟩,
    ⟨11, "lead riff", "lead", ["riff"]⟩, ⟨12, "melodies", "melodies", []⟩,
    ⟨13, "lead walk", "lead", ["walk"]⟩]

/-- The phrase itself, without the riff. -/
def reprisePhrase : Phrase := ⟨"a", 120, 1, 1, [⟨{ name := "lead" }, ⟨"walk", [.rest]⟩⟩]⟩

/-- The tune of that text. -/
def repriseTune : Tune := ⟨"t", ["a"], ⟨[("a", reprisePhrase)]⟩⟩

theorem lines_repriseText : Line.ofText repriseText =
    [⟨1, "tune t", "tune", ["t"]⟩, ⟨2, "sequence a", "sequence", ["a"]⟩,
      ⟨3, "instrument lead", "instrument", ["lead"]⟩,
      ⟨4, "pattern riff C4", "pattern", ["riff", "C4"]⟩,
      ⟨5, "pattern walk .", "pattern", ["walk", "."]⟩] ++ repriseBlock.lines := by
  decide +kernel

theorem standsIn_repriseText : repriseBlock.StandsIn (Line.ofText repriseText) := by
  rw [lines_repriseText]
  exact Block.mem_cut_iff.mp (by decide)

theorem ofText_repriseText : (ofText repriseText).result = .ok repriseTune := by
  rw [ofText, Report.result_bind, Record.ofText, lines_repriseText]
  rfl

theorem repriseText_playsLastMelodies :
    (ofText repriseText).result = .ok repriseTune ∧
      repriseBlock.StandsIn (Line.ofText repriseText) ∧
      (∃ above below, repriseBlock.Reopened above below ∧
        repriseBlock.record.melodies = some (below.map Line.words)) ∧
      ∃ (block : Block) (above below : List Line), block.StandsIn (Line.ofText repriseText) ∧
        block.Reopened above below ∧ below.length = reprisePhrase.melodies.length := by
  obtain ⟨records, -, hblocks, htunes⟩ := ofText_playsLastMelodies repriseText
  obtain ⟨-, above, below, hreopened, hkept, -⟩ :=
    hblocks repriseBlock standsIn_repriseText rfl (by decide)
  obtain ⟨block, hstands, -, above', below', hreopened', hplayed, -⟩ :=
    htunes repriseTune ofText_repriseText "a" reprisePhrase (by decide)
  exact ⟨ofText_repriseText, standsIn_repriseText, ⟨above, below, hreopened, hkept⟩,
    block, above', below', hstands, hreopened', hplayed.length_eq⟩

/-- The phrase has two melody lines. Its record keeps the second one only, and so does the tune. -/
theorem repriseText_losesMelodyLine :
    repriseBlock.StandsIn (Line.ofText repriseText) ∧
      repriseBlock.melodyLines.map Line.words = [["lead", "riff"], ["lead", "walk"]] ∧
      repriseBlock.record.melodies = some [["lead", "walk"]] ∧
      (ofText repriseText).result = .ok repriseTune ∧
      repriseTune.phrases.get? "a" = some reprisePhrase ∧
      reprisePhrase.melodies.length ≠ repriseBlock.melodyLines.length := by
  refine ⟨standsIn_repriseText, ?_, ?_, ofText_repriseText, ?_, ?_⟩ <;> decide

end Tune

end Chiptune
