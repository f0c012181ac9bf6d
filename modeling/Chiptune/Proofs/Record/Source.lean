import Chiptune.Proofs.Text.Words
import Chiptune.Proofs.Tune.Definitions
import Mathlib.Tactic.Common

/-!
# Records apart from their places

The number of a line, and the blanks around its words, are for warnings only. Without them the lines
of a text are those of its parts, a text that starts with a heading adds its blocks to those before
it, and what records make is the same.

* `Record.map_bare_ofText`, the records of a text apart from their places;
* `bareRecords_append`, joined texts;
* `Tune.ofText_result`, the tune that they make.
-/

namespace Chiptune

/-! ## Lines -/

/-- A line apart from its place. -/
def Line.bare (line : Line) : Line := ⟨0, "", line.head, line.tail⟩

/-- The line of a text without line feeds, if there is a word on it. -/
def Line.ofWords? (text : List Char) : Option Line :=
  match Text.words text with
  | [] => none
  | head :: tail => some ⟨0, "", String.ofList head, tail.map String.ofList⟩

/-- The lines of a text apart from their places. -/
def bareLines (text : List Char) : List Line := (Text.lines text).filterMap Line.ofWords?

theorem Line.map_bare_numbered (number : ℕ) (texts : List (List Char)) :
    (numbered number texts).map bare = texts.filterMap ofWords? := by
  induction texts generalizing number with
  | nil => rfl
  | cons text texts ih =>
    rw [numbered, List.filterMap_cons, ofWords?]
    cases Text.words text with
    | nil => exact ih (number + 1)
    | cons head tail => exact congrArg (_ :: ·) (ih (number + 1))

/-- The lines of texts joined by a line feed are those of each. -/
theorem bareLines_append (xs ys : List Char) :
    bareLines (xs ++ '\n' :: ys) = bareLines xs ++ bareLines ys := by
  rw [bareLines, Text.lines, Text.linesFrom_append, List.filterMap_append]
  rfl

/-! ## Blocks -/

theorem RecordKind.ofKeyword?_eq_some {word : String} {kind : RecordKind} :
    ofKeyword? word = some kind ↔ kind.keyword = word := by
  constructor
  · unfold ofKeyword?
    split <;> rintro ⟨⟩ <;> rfl
  · rintro rfl
    cases kind <;> rfl

/-- A block apart from its place. -/
def Block.bare (block : Block) : Block :=
  ⟨block.kind, block.heading.bare, block.body.map Line.bare⟩

/-- A record apart from its place. -/
def Record.bare (record : Record) : Record := { record with line := 0 }

namespace Block

theorem cut_map_bare (lines : List Line) :
    cut (lines.map Line.bare)
      = ((cut lines).1.map Line.bare, (cut lines).2.map Block.bare) := by
  induction lines with
  | nil => rfl
  | cons line lines ih =>
    rw [List.map_cons, cut, cut, ih]
    simp only [Line.bare]
    cases RecordKind.ofKeyword? line.head <;> rfl

/-- Lines that start with a heading add their blocks to those of the lines before them. -/
theorem cut_append (xs : List Line) {ys : List Line} (h : (cut ys).1 = []) :
    cut (xs ++ ys) = ((cut xs).1, (cut xs).2 ++ (cut ys).2) := by
  induction xs with
  | nil => exact Prod.ext h rfl
  | cons line xs ih =>
    rw [List.cons_append, cut, cut, ih]
    simp only
    cases RecordKind.ofKeyword? line.head <;> rfl

/-- A block as it is cut: its heading is the only line that starts with a keyword. -/
structure Headed (block : Block) : Prop where
  heading : RecordKind.ofKeyword? block.heading.head = some block.kind
  body : ∀ line ∈ block.body, RecordKind.ofKeyword? line.head = none

/-- All lines of a block. -/
def lines (block : Block) : List Line := block.heading :: block.body

theorem Headed.cut_lines {block : Block} (h : block.Headed) : cut block.lines = ([], [block]) := by
  have hbody : ∀ lines : List Line, (∀ line ∈ lines, RecordKind.ofKeyword? line.head = none) →
      cut lines = (lines, []) := by
    intro lines hlines
    induction lines with
    | nil => rfl
    | cons line lines ih =>
      obtain ⟨hline, hrest⟩ := List.forall_mem_cons.mp hlines
      rw [cut, ih hrest]
      simp only [hline]
  rw [lines, cut, hbody _ h.body]
  simp only [h.heading]

/-- Blocks are cut where they were joined. -/
theorem cut_flatMap_lines {blocks : List Block} (h : ∀ block ∈ blocks, block.Headed) :
    cut (blocks.flatMap lines) = ([], blocks) := by
  induction blocks with
  | nil => rfl
  | cons block blocks ih =>
    obtain ⟨hblock, hblocks⟩ := List.forall_mem_cons.mp h
    rw [List.flatMap_cons, cut_append _ (by rw [ih hblocks]), ih hblocks, hblock.cut_lines]
    rfl

/-- Only a line that opens them starts melodies. -/
theorem melodiesAfterLast_eq_none {lines : List Line} :
    melodiesAfterLast lines = none ↔ ∀ line ∈ lines, opensMelodies line = false := by
  induction lines with
  | nil => exact ⟨nofun, fun _ => rfl⟩
  | cons line lines ih =>
    rw [melodiesAfterLast, List.forall_mem_cons, ← ih]
    cases melodiesAfterLast lines with
    | some found => simp
    | none => simp

theorem melodiesAfterLast_map_bare (lines : List Line) :
    melodiesAfterLast (lines.map Line.bare)
      = (melodiesAfterLast lines).map (·.map Line.bare) := by
  induction lines with
  | nil => rfl
  | cons line lines ih =>
    rw [List.map_cons, melodiesAfterLast, melodiesAfterLast, ih]
    cases melodiesAfterLast lines with
    | some found => rfl
    | none =>
      simp only [Option.map_none]
      show (if opensMelodies line then _ else _) = _
      split_ifs <;> rfl

theorem settings_bare (block : Block) : block.bare.settings = block.settings := by
  have hlines : block.bare.settingLines = block.settingLines.map Line.bare := by
    show (if block.kind = .phrase then _ else _) = _
    unfold settingLines
    split_ifs
    · rw [Block.bare, List.takeWhile_map]
      rfl
    · rfl
  rw [settings, hlines, List.foldl_map]
  rfl

theorem melodies_bare (block : Block) : block.bare.melodies = block.melodies := by
  show (if block.kind = .phrase then _ else _) = _
  unfold melodies
  split_ifs
  · rw [Block.bare, melodiesAfterLast_map_bare, Option.map_map]
    congr 1
    funext lines
    exact List.map_map
  · rfl

theorem record_bare (block : Block) : block.bare.record = block.record.bare := by
  show Record.mk _ _ _ _ _ _ = Record.mk _ _ _ _ _ _
  rw [settings_bare, melodies_bare]
  rfl

end Block

/-! ## Records -/

/-- The records of a text apart from their places. -/
def bareRecords (text : List Char) : List Record := (Block.cut (bareLines text)).2.map Block.record

/-- Every text has records, one for each of its blocks. -/
theorem Record.ofText_result (text : String) :
    (Record.ofText text).result = .ok ((Block.cut (Line.ofText text)).2.map Block.record) := rfl

theorem Record.map_bare_ofText {text : String} {records : List Record}
    (h : (Record.ofText text).result = .ok records) :
    records.map bare = bareRecords text.toList := by
  obtain rfl := Except.ok.inj ((ofText_result text).symm.trans h)
  have hlines : (Line.ofText text).map Line.bare = bareLines text.toList :=
    Line.map_bare_numbered 1 _
  rw [bareRecords, ← hlines, Block.cut_map_bare, List.map_map, List.map_map]
  exact List.map_congr_left fun block _ => (Block.record_bare block).symm

/-- A text that starts with a heading adds its records to those of the text before it. -/
theorem bareRecords_append (xs : List Char) {ys : List Char}
    (h : (Block.cut (bareLines ys)).1 = []) :
    bareRecords (xs ++ '\n' :: ys) = bareRecords xs ++ bareRecords ys := by
  rw [bareRecords, bareLines_append, Block.cut_append _ h, List.map_append]
  rfl

/-! ## Tunes -/

namespace Record

theorem first_map_bare (kind : RecordKind) (records : List Record) :
    first kind (records.map bare) = (first kind records).map bare :=
  List.find?_map

theorem ofKind_map_bare (kind : RecordKind) (records : List Record) :
    ofKind kind (records.map bare) = (ofKind kind records).map bare :=
  List.filter_map

theorem define_map_bare {α : Type} {build : Record → Report α}
    (h : ∀ record, (build record.bare).result = (build record).result) (found : Catalog α)
    (records : List Record) :
    (define build found (records.map bare)).result = (define build found records).result := by
  induction records generalizing found with
  | nil => rfl
  | cons record records ih =>
    rw [List.map_cons, define_cons, define_cons, h]
    exact congrArg _ (funext fun value => ih _)

end Record

namespace Tune

open Record

theorem conclude_map_bare (records : List Record) (phrases : Catalog Phrase) :
    conclude (records.map bare) phrases = conclude records phrases := by
  unfold conclude
  rw [first_map_bare, first_map_bare]
  cases first .sequence records with
  | none => rfl
  | some sequence =>
    cases first .tune records <;> rfl

/-- The place of a record does not matter to the tune. -/
theorem assemble_map_bare (records : List Record) :
    (assemble (records.map bare)).result = (assemble records).result := by
  rw [assemble_result, assemble_result, ofKind_map_bare, ofKind_map_bare, ofKind_map_bare,
    define_map_bare fun _ => rfl]
  refine congrArg _ (funext fun instruments => ?_)
  rw [define_map_bare fun _ => rfl]
  refine congrArg _ (funext fun patterns => ?_)
  rw [define_map_bare fun _ => rfl]
  exact congrArg _ (funext fun phrases => conclude_map_bare records phrases)

/-- The tune of a text is that of its records apart from their places. -/
theorem ofText_result (text : String) :
    (ofText text).result = (assemble (bareRecords text.toList)).result := by
  have hrecords := Record.ofText_result text
  rw [ofText, Report.result_bind, hrecords, ← Record.map_bare_ofText hrecords, assemble_map_bare]
  rfl

end Tune

end Chiptune
