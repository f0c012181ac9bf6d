import Chiptune.Proofs.Record.Source

/-!
# Writing records out

A record is written as a paragraph: a heading with the keyword and the words after it, and below it
rows of words that are indented. Paragraphs without a keyword at the start of a row are read back
one by one.

* `bareLines_rows`, rows and lines;
* `cut_paragraphs`, paragraphs and blocks;
* `bareRecords_text`, the records of paragraphs.
-/

namespace Chiptune

/-! ## Rows -/

/-- Words after an indentation. -/
structure Row where
  indent : ℕ
  head : String
  tail : List String

namespace Row

/-- All words of a row. -/
def words (row : Row) : List String := row.head :: row.tail

/-- A row as it is written, with the line feed after it. -/
def text (row : Row) : String :=
  String.ofList (List.replicate row.indent ' ') ++ " ".intercalate row.words ++ "\n"

/-- There is no blank within a word, and the first one is not empty. -/
structure Clean (row : Row) : Prop where
  head : row.head ≠ ""
  solid : ∀ word ∈ row.words, Text.Solid word.toList

/-- The line as which a row is read: an empty word does not show. -/
def line (row : Row) : Line := ⟨0, "", row.head, row.tail.filter (· ≠ "")⟩

theorem filter_map_toList (words : List String) :
    ((words.map String.toList).filter (!·.isEmpty)).map String.ofList
      = words.filter (· ≠ "") := by
  induction words with
  | nil => rfl
  | cons word words ih =>
    rw [List.map_cons, List.filter_cons, List.filter_cons]
    by_cases hword : word = ""
    · simp only [hword]
      exact ih
    · simp [hword, ih]

theorem bareLines_text {row : Row} (h : row.Clean) (rest : List Char) :
    bareLines (row.text.toList ++ rest) = row.line :: bareLines rest := by
  have hsolid : ∀ w ∈ row.words.map String.toList, Text.Solid w :=
    List.forall_mem_map.mpr h.solid
  have hline : '\n' ∉ List.replicate row.indent ' ' ++
      [' '].intercalate (row.words.map String.toList) := by
    rw [List.mem_append]
    rintro (hmem | hmem)
    · exact (Text.isGap_replicate _).newline_notMem hmem
    · exact Text.newline_notMem_intercalate hsolid hmem
  have htext : row.text.toList ++ rest = (List.replicate row.indent ' ' ++
      [' '].intercalate (row.words.map String.toList)) ++ '\n' :: rest := by
    simp [text, String.toList_intercalate]
  have hwords : Text.words (List.replicate row.indent ' ' ++
      [' '].intercalate (row.words.map String.toList))
      = row.head.toList :: (row.tail.map String.toList).filter (!·.isEmpty) := by
    rw [Text.words_gap_append (Text.isGap_replicate _), Text.words_intercalate hsolid, words,
      List.map_cons, List.filter_cons_of_pos (by simpa using h.head)]
  rw [htext, bareLines_append, bareLines, Text.lines_eq_singleton hline, List.filterMap_cons,
    Line.ofWords?, hwords]
  simp only [filter_map_toList, String.ofList_toList]
  rfl

theorem join_filter (words : List String) :
    String.join (words.filter (· ≠ "")) = String.join words := by
  induction words with
  | nil => rfl
  | cons word words ih =>
    by_cases hword : word = ""
    · rw [List.filter_cons_of_neg (by simp [hword]), ih, hword, String.join_cons,
        String.empty_append]
    · rw [List.filter_cons_of_pos (by simp [hword]), String.join_cons, String.join_cons, ih]

theorem joinedTail_line (row : Row) : row.line.joinedTail = String.join row.tail :=
  join_filter row.tail

/-- Settings with different names are collected as they are written. -/
theorem foldl_put {rows : List Row} {found : Catalog String}
    (h : (found.names ++ rows.map head).Nodup) :
    (rows.map line).foldl (fun found line => found.put line.head line.joinedTail) found
      = ⟨found.entries ++ rows.map fun row => (row.head, String.join row.tail)⟩ := by
  induction rows generalizing found with
  | nil => rw [List.map_nil, List.map_nil, List.foldl_nil, List.append_nil]
  | cons row rows ih =>
    have hnew : found.contains row.head = false := Catalog.contains_of_nodup h
    have hentries : (found.put row.head (String.join row.tail)).entries
        = found.entries ++ [(row.head, String.join row.tail)] :=
      Catalog.entries_put_of_new hnew _
    have hnames : (found.put row.head (String.join row.tail)).names ++ rows.map head
        = found.names ++ (row :: rows).map head := by
      rw [Catalog.names, hentries, List.map_append, List.append_assoc]
      rfl
    rw [List.map_cons, List.foldl_cons, joinedTail_line]
    refine (ih (hnames ▸ h)).trans (congrArg Catalog.mk ?_)
    exact (congrArg (· ++ _) hentries).trans (List.append_assoc _ _ _)

end Row

/-- Clean rows are read back line by line. -/
theorem bareLines_rows {rows : List Row} (h : ∀ row ∈ rows, row.Clean) :
    bareLines (String.join (rows.map Row.text)).toList = rows.map Row.line := by
  rw [String.toList_join, List.flatMap_map]
  induction rows with
  | nil => rfl
  | cons row rows ih =>
    obtain ⟨hrow, hrows⟩ := List.forall_mem_cons.mp h
    rw [List.flatMap_cons, Row.bareLines_text hrow, ih hrows, List.map_cons]

/-! ## Paragraphs -/

theorem RecordKind.solid_keyword (kind : RecordKind) :
    kind.keyword ≠ "" ∧ Text.Solid kind.keyword.toList := by
  cases kind <;> decide

/-- A heading and the rows below it. -/
structure Paragraph where
  kind : RecordKind
  /-- The words after the keyword. -/
  words : List String
  body : List Row

namespace Paragraph

/-- The row with the keyword. -/
def heading (paragraph : Paragraph) : Row := ⟨0, paragraph.kind.keyword, paragraph.words⟩

/-- All rows of a paragraph. -/
def rows (paragraph : Paragraph) : List Row := paragraph.heading :: paragraph.body

/-- Paragraphs as they are written. -/
def text (paragraphs : List Paragraph) : String :=
  String.join ((paragraphs.flatMap rows).map Row.text)

/-- There is no blank within a word, and only the heading starts with a keyword. -/
structure Clean (paragraph : Paragraph) : Prop where
  solid : ∀ word ∈ paragraph.words, Text.Solid word.toList
  body : ∀ row ∈ paragraph.body, row.Clean ∧ RecordKind.ofKeyword? row.head = none

/-- The block as which a paragraph is read. -/
def block (paragraph : Paragraph) : Block :=
  ⟨paragraph.kind, paragraph.heading.line, paragraph.body.map Row.line⟩

theorem Clean.rows {paragraph : Paragraph} (h : paragraph.Clean) :
    ∀ row ∈ paragraph.rows, row.Clean := by
  obtain ⟨hkeyword, hsolid⟩ := paragraph.kind.solid_keyword
  exact List.forall_mem_cons.mpr ⟨⟨hkeyword, List.forall_mem_cons.mpr ⟨hsolid, h.solid⟩⟩,
    fun row hrow => (h.body row hrow).1⟩

theorem Clean.headed {paragraph : Paragraph} (h : paragraph.Clean) : paragraph.block.Headed where
  heading := RecordKind.ofKeyword?_eq_some.mpr rfl
  body := List.forall_mem_map.mpr fun row hrow => (h.body row hrow).2

/-- The rows of paragraphs are the lines of their blocks. -/
theorem map_line_rows (paragraphs : List Paragraph) :
    (paragraphs.flatMap rows).map Row.line = (paragraphs.map block).flatMap Block.lines := by
  rw [List.map_flatMap, List.flatMap_map]
  rfl

end Paragraph

/-- Clean paragraphs are read back block by block. -/
theorem cut_paragraphs {paragraphs : List Paragraph} (h : ∀ p ∈ paragraphs, p.Clean) :
    Block.cut ((paragraphs.flatMap Paragraph.rows).map Row.line)
      = ([], paragraphs.map Paragraph.block) := by
  rw [Paragraph.map_line_rows]
  exact Block.cut_flatMap_lines (List.forall_mem_map.mpr fun p hp => (h p hp).headed)

theorem bareRecords_text {paragraphs : List Paragraph} (h : ∀ p ∈ paragraphs, p.Clean) :
    bareRecords (Paragraph.text paragraphs).toList
      = paragraphs.map fun p => p.block.record := by
  have hrows : ∀ row ∈ paragraphs.flatMap Paragraph.rows, row.Clean := by
    intro row hrow
    obtain ⟨p, hp, hrow⟩ := List.mem_flatMap.mp hrow
    exact (h p hp).rows row hrow
  rw [bareRecords, Paragraph.text, bareLines_rows hrows, cut_paragraphs h, List.map_map]
  rfl

end Chiptune
