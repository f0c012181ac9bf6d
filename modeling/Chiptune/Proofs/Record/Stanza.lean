import Chiptune.Proofs.Record.Source
import Chiptune.Proofs.Text.Page

/-!
# The stanzas of a text

A text without lines before its first heading consists of stanzas. Its records depend on nothing but
the words that can be seen in them: not on indentation, not on blank lines, and not on what line
ends are made of.

* `Stanza` and `Stanza.exists_compose`, a heading and the lines below it as words;
* `Stanza.bareRecords_of_compose`, the records of a text that consists of stanzas.
-/

namespace Chiptune

/-- The line of some words, if there are any. -/
def Line.showing? : List String → Option Line
  | [] => none
  | head :: tail => some ⟨0, "", head, tail⟩

theorem Line.ofWords?_eq (text : List Char) :
    ofWords? text = showing? ((Text.words text).map String.ofList) := by
  rw [ofWords?]
  cases Text.words text <;> rfl

/-- The lines of a text are those of its page. -/
theorem bareLines_eq (text : List Char) :
    bareLines text = (Text.page text).filterMap Line.showing? := by
  rw [bareLines, Text.page, List.filterMap_map]
  exact List.filterMap_congr fun line _ => Line.ofWords?_eq line

/-- A heading and the lines below it, as words. -/
structure Stanza where
  kind : RecordKind
  /-- The words after the keyword. -/
  words : List String
  /-- The words of each line below the heading. -/
  body : List (List String)
  /-- A line that starts with a keyword belongs to the next stanza. -/
  notHeading : ∀ line ∈ body, ∀ word ∈ line.head?, RecordKind.ofKeyword? word = none

namespace Stanza

/-- All lines of a stanza. -/
def lines (stanza : Stanza) : List (List String) :=
  (stanza.kind.keyword :: stanza.words) :: stanza.body

/-- A text that consists of stanzas. Blank lines may stand everywhere. -/
def Compose (stanzas : List Stanza) (text : String) : Prop :=
  ∃ page, Text.Shows text.toList page ∧ page.filter (· ≠ []) = stanzas.flatMap lines

/-- Lines with words are stanzas, but for those before the first heading. -/
theorem exists_flatMap_lines (shown : List (List String)) (h : ∀ words ∈ shown, words ≠ []) :
    ∃ (stray : List (List String)) (stanzas : List Stanza),
      shown = stray ++ stanzas.flatMap lines ∧
      ∀ line ∈ stray, ∀ word ∈ line.head?, RecordKind.ofKeyword? word = none := by
  induction shown with
  | nil => exact ⟨[], [], rfl, nofun⟩
  | cons words shown ih =>
    obtain ⟨hwords, hshown⟩ := List.forall_mem_cons.mp h
    obtain ⟨stray, stanzas, rfl, hstray⟩ := ih hshown
    obtain ⟨head, tail, rfl⟩ := List.exists_cons_of_ne_nil hwords
    cases hhead : RecordKind.ofKeyword? head with
    | none =>
      refine ⟨(head :: tail) :: stray, stanzas, rfl, List.forall_mem_cons.mpr ⟨?_, hstray⟩⟩
      rintro word ⟨⟩
      exact hhead
    | some kind =>
      -- the lines that were stray have found their heading
      obtain rfl := RecordKind.ofKeyword?_eq_some.mp hhead
      exact ⟨[], ⟨kind, tail, stray, hstray⟩ :: stanzas, rfl, nofun⟩

/-- Every text that starts with a heading, after blank lines, consists of stanzas. -/
theorem exists_compose {text : String}
    (h : ∀ line ∈ ((Text.page text.toList).filter (· ≠ [])).head?, ∀ word ∈ line.head?,
      RecordKind.ofKeyword? word ≠ none) : ∃ stanzas, Compose stanzas text := by
  obtain ⟨stray, stanzas, hpage, hstray⟩ :=
    exists_flatMap_lines ((Text.page text.toList).filter (· ≠ [])) fun words hwords =>
      of_decide_eq_true (List.mem_filter.mp hwords).2
  cases stray with
  | nil => exact ⟨stanzas, _, Text.shows_page _, hpage⟩
  | cons line stray =>
    have hline : line ∈ (Text.page text.toList).filter (· ≠ []) :=
      hpage ▸ List.mem_append_left _ List.mem_cons_self
    obtain ⟨head, tail, rfl⟩ :=
      List.exists_cons_of_ne_nil (of_decide_eq_true (List.mem_filter.mp hline).2)
    rw [hpage] at h
    exact absurd (hstray _ List.mem_cons_self head rfl) (h _ rfl head rfl)

/-- The block as which a stanza is read. -/
def block (stanza : Stanza) : Block :=
  ⟨stanza.kind, ⟨0, "", stanza.kind.keyword, stanza.words⟩, stanza.body.filterMap Line.showing?⟩

theorem headed (stanza : Stanza) : stanza.block.Headed where
  heading := RecordKind.ofKeyword?_eq_some.mpr rfl
  body := by
    intro line hline
    obtain ⟨words, hwords, hshowing⟩ := List.mem_filterMap.mp hline
    cases words with
    | nil => exact absurd hshowing nofun
    | cons head tail =>
      obtain rfl := Option.some.inj hshowing
      exact stanza.notHeading _ hwords head rfl

theorem filterMap_lines (stanzas : List Stanza) :
    (stanzas.flatMap lines).filterMap Line.showing? = (stanzas.map block).flatMap Block.lines := by
  rw [List.filterMap_flatMap, List.flatMap_map]
  rfl

/-- A text that consists of stanzas has one record for each of them. -/
theorem bareRecords_of_compose {stanzas : List Stanza} {text : String} (h : Compose stanzas text) :
    bareRecords text.toList = stanzas.map fun stanza => stanza.block.record := by
  obtain ⟨page, hshows, hpage⟩ := h
  have hblank : (page.filter (· ≠ [])).filterMap Line.showing? = page.filterMap Line.showing? := by
    rw [List.filterMap_filter]
    refine List.filterMap_congr fun words _ => ?_
    cases words <;> rfl
  have hlines : bareLines text.toList = (stanzas.map block).flatMap Block.lines := by
    rw [bareLines_eq, hshows.page_eq, ← hblank, hpage, filterMap_lines]
  have hheaded : ∀ b ∈ stanzas.map block, b.Headed :=
    List.forall_mem_map.mpr fun stanza _ => stanza.headed
  rw [bareRecords, hlines, Block.cut_flatMap_lines hheaded, List.map_map]
  rfl

end Stanza

end Chiptune
