import Chiptune.Proofs.Pattern.Roundtrip
import Chiptune.Proofs.Record.Settings

/-!
# Whose line is whose

A text has one record for each of its headings. The heading alone gives the kind, the name and the
list of the record; the lines that belong to it give the settings and the melodies, and they have no
say in any other record. A line above all headings has no say at all.

* `Record.AccountsFor`, a record and its lines;
* `SameHeadings` and `Record.record_of_sameHeadings`, texts that differ in other lines;
* `Record.ofText_accountsForLines`, all records of all texts.
-/

namespace Chiptune

open Text

/-! ## Texts with the same headings -/

/-- Two texts have the same headings in the same lines. What their other lines say may differ. -/
def SameHeadings (text other : String) : Prop :=
  ∀ number, (headingAt? text number).isSome = true ∨ (headingAt? other number).isSome = true →
    wordsAt other number = wordsAt text number

namespace SameHeadings

variable {text other : String}

theorem headingAt?_eq (h : SameHeadings text other) (number : ℕ) :
    headingAt? other number = headingAt? text number := by
  by_cases hheading :
      (headingAt? text number).isSome = true ∨ (headingAt? other number).isSome = true
  · rw [headingAt?, headingAt?, h number hheading]
  · obtain ⟨htext, hother⟩ := not_or.mp hheading
    rw [Option.not_isSome_iff_eq_none.mp htext, Option.not_isSome_iff_eq_none.mp hother]

theorem belongsTo_iff (h : SameHeadings text other) (number start : ℕ) :
    BelongsTo other number start ↔ BelongsTo text number start := by
  have hone : ∀ {text other}, (∀ k, headingAt? other k = headingAt? text k) →
      BelongsTo text number start → BelongsTo other number start :=
    fun heq hbelongs => ⟨(heq start).symm ▸ hbelongs.heading, hbelongs.below,
      fun k hk hlt => (heq k).trans (hbelongs.nearest k hk hlt)⟩
  exact ⟨hone fun k => (h.headingAt?_eq k).symm, hone h.headingAt?_eq⟩

end SameHeadings

/-! ## Records -/

namespace Record

/-- The name and the list that the words after a keyword give. -/
def entryOf : RecordKind → List String → String × List String
  | .sequence, words => ("", words)
  | .pattern, words => (words.head?.getD "", Pattern.readSteps (String.join (words.drop 1)))
  | _, words => (String.join words, [])

/-- A record says what its heading and the lines that belong to it say. -/
structure AccountsFor (record : Record) (text : String) : Prop where
  /-- The heading has the keyword of the kind, and the words after it give the name and the list. -/
  heading : ∃ words, wordsAt text record.line = record.kind.keyword :: words ∧
    (record.name, record.list) = entryOf record.kind words
  nodup : record.settings.names.Nodup
  /-- The names of the settings are the first words of the lines that give settings. -/
  names : ∀ name, name ∈ record.settings.names ↔
    ∃ number, IsSetting text number record.line ∧ (wordsAt text number).head? = some name
  /-- Of the lines with one first word the last one counts. -/
  values : ∀ number name rest, IsSetting text number record.line →
    wordsAt text number = name :: rest →
    (∀ k, number < k → IsSetting text k record.line → (wordsAt text k).head? ≠ some name) →
    record.setting? name = some (String.join rest)

theorem accountsFor_record {text : String} {block : Block}
    (h : block.StandsIn (Line.ofText text)) : block.record.AccountsFor text where
  heading := by
    have hkeyword := RecordKind.ofKeyword?_eq_some.mp h.headed.heading
    refine ⟨block.heading.tail, ?_, ?_⟩
    · show wordsAt text block.heading.number = block.kind.keyword :: _
      rw [hkeyword, Line.wordsAt_number h.heading_mem, Line.words]
    · show (block.name, block.list) = entryOf block.kind block.heading.tail
      unfold Block.name Block.list
      cases block.kind <;> rfl
  nodup := block.nodup_names_settings
  names _ := h.mem_names_settings_iff
  values _ _ _ := h.get?_settings_eq

theorem keyword_injective : Function.Injective RecordKind.keyword := by
  intro kind other h
  have hkind : RecordKind.ofKeyword? other.keyword = some kind :=
    RecordKind.ofKeyword?_eq_some.mpr h
  rw [RecordKind.ofKeyword?_eq_some.mpr rfl] at hkind
  exact (Option.some.inj hkind).symm

theorem eq_of_bare_eq {record after : Record} (h : after.bare = record.bare)
    (hline : after.line = record.line) : after = record :=
  calc after = { after.bare with line := after.line } := rfl
    _ = { record.bare with line := record.line } := by rw [h, hline]
    _ = record := rfl

/-- In a text with the same headings a record has the same kind, name and list, and it is the same
unless a line that belongs to it differs. -/
theorem record_of_sameHeadings {text other : String} {block after : Block}
    (hother : SameHeadings text other) (h : block.StandsIn (Line.ofText text))
    (hafter : after.StandsIn (Line.ofText other)) (hline : after.record.line = block.record.line) :
    after.record.kind = block.record.kind ∧ after.record.name = block.record.name ∧
      after.record.list = block.record.list ∧
      ((∀ number, BelongsTo text number block.record.line →
        wordsAt other number = wordsAt text number) → after.record = block.record) := by
  have hheading : wordsAt other block.record.line = wordsAt text block.record.line :=
    hother block.record.line (Or.inl (Option.isSome_of_eq_some h.headingAt?_heading))
  obtain ⟨words, hwords, hentry⟩ := (accountsFor_record h).heading
  obtain ⟨words', hwords', hentry'⟩ := (accountsFor_record hafter).heading
  rw [hline, hheading, hwords] at hwords'
  obtain ⟨hkeyword, rfl⟩ := List.cons.inj hwords'
  have hkind : after.record.kind = block.record.kind := keyword_injective hkeyword.symm
  rw [hkind, ← hentry, Prod.mk.injEq] at hentry'
  refine ⟨hkind, hentry'.1, hentry'.2, fun hlines => eq_of_bare_eq ?_ hline⟩
  have hbare : after.bare = block.bare :=
    h.bare_eq hafter hline hheading (fun number => hother.belongsTo_iff number _) hlines
  rw [← Block.record_bare, ← Block.record_bare, hbare]

variable {text : String} {records : List Record}

theorem map_line_ofText (h : (Record.ofText text).result = .ok records) :
    records.map line = ((Line.ofText text).filter fun line =>
      (RecordKind.ofKeyword? line.head).isSome).map Line.number := by
  obtain rfl := Except.ok.inj ((ofText_result text).symm.trans h)
  rw [← Block.map_heading_cut, List.map_map, List.map_map]
  rfl

theorem pairwise_line_ofText (h : (Record.ofText text).result = .ok records) :
    (records.map line).Pairwise (· < ·) := by
  rw [map_line_ofText h, List.pairwise_map]
  exact (Line.inOrder_ofText text).filter _

theorem mem_map_line_iff (h : (Record.ofText text).result = .ok records) {number : ℕ} :
    number ∈ records.map line ↔ (headingAt? text number).isSome = true := by
  rw [map_line_ofText h, List.mem_map]
  constructor
  · rintro ⟨line, hline, rfl⟩
    obtain ⟨hmem, hheading⟩ := List.mem_filter.mp hline
    rw [Line.headingAt?_number hmem]
    exact hheading
  · intro hheading
    obtain ⟨kind, hkind⟩ := Option.isSome_iff_exists.mp hheading
    obtain ⟨line, hline, hnumber, hhead⟩ := Line.exists_of_headingAt? hkind
    exact ⟨line, List.mem_filter.mpr ⟨hline, by rw [hhead]; rfl⟩, hnumber⟩

/-- A text has one record for each of its headings, in order, and each of them says what its heading
and the lines that belong to it say. In another text with the same headings the records have the
same places, kinds, names and lists, and a record is the same unless one of its own lines differs;
a line above all headings belongs to none. -/
theorem ofText_accountsForLines (text : String) :
    ∃ records, (Record.ofText text).result = .ok records ∧
      (records.map line).Pairwise (· < ·) ∧
      (∀ number, number ∈ records.map line ↔ (headingAt? text number).isSome = true) ∧
      (∀ record ∈ records, record.AccountsFor text) ∧
      ∀ other, SameHeadings text other → ∃ changed,
        (Record.ofText other).result = .ok changed ∧ changed.map line = records.map line ∧
        ∀ record ∈ records, ∀ after ∈ changed, after.line = record.line →
          after.kind = record.kind ∧ after.name = record.name ∧ after.list = record.list ∧
          ((∀ number, BelongsTo text number record.line →
            wordsAt other number = wordsAt text number) → after = record) := by
  have hrecords := ofText_result text
  refine ⟨_, hrecords, pairwise_line_ofText hrecords, fun number => mem_map_line_iff hrecords,
    fun record hrecord => ?_, fun other hother => ?_⟩
  · obtain ⟨block, hstands, rfl⟩ := (mem_ofText_iff hrecords).mp hrecord
    exact accountsFor_record hstands
  · have hchanged := ofText_result other
    refine ⟨_, hchanged, ?_, fun record hrecord after hafter hline => ?_⟩
    · refine List.Pairwise.eq_of_mem_iff (pairwise_line_ofText hchanged)
        (pairwise_line_ofText hrecords) fun number => ?_
      rw [mem_map_line_iff hchanged, mem_map_line_iff hrecords, hother.headingAt?_eq]
    · obtain ⟨block, hblock, rfl⟩ := (mem_ofText_iff hrecords).mp hrecord
      obtain ⟨block', hblock', rfl⟩ := (mem_ofText_iff hchanged).mp hafter
      exact record_of_sameHeadings hother hblock hblock' hline

/-- A text with a line above all headings, a blank line, carriage returns, a line that would open
melodies in a phrase, and a setting that is given twice. -/
def strayText : String :=
  "tone saw\r\ninstrument lead\r\n\tmelodies yes\r\n\r\n  volume half\r\n  volume f ull\r\n" ++
    "pattern riff C4 -\n"

/-- The same headings, with nothing above them and another setting below the first. -/
def clearText : String := "\ninstrument lead\n\n\npan left\n\npattern riff C4 -"

theorem page_strayText : page strayText.toList = [["tone", "saw"], ["instrument", "lead"],
    ["melodies", "yes"], [], ["volume", "half"], ["volume", "f", "ull"],
    ["pattern", "riff", "C4", "-"], []] := by
  decide +kernel

theorem page_clearText : page clearText.toList = [[], ["instrument", "lead"], [], [],
    ["pan", "left"], [], ["pattern", "riff", "C4", "-"]] := by
  decide +kernel

theorem wordsAt_clearText (number : ℕ) : number ∉ [1, 3, 5, 6] →
    wordsAt clearText number = wordsAt strayText number := by
  rw [wordsAt, wordsAt, page_strayText, page_clearText]
  rcases Nat.lt_or_ge number 9 with hearly | hlate
  · revert number
    decide
  · intro _
    rw [List.getElem?_eq_none (le_trans (by decide) hlate), List.getElem?_eq_none hlate]

theorem sameHeadings_clearText : SameHeadings strayText clearText := by
  have hplain : ∀ number ∈ [1, 3, 5, 6], ¬ ((headingAt? strayText number).isSome = true ∨
      (headingAt? clearText number).isSome = true) := by
    simp only [headingAt?, wordsAt, page_strayText, page_clearText]
    decide
  exact fun number hheading => wordsAt_clearText number fun hmem => hplain number hmem hheading

/-- The lower volume counts, the line for melodies is a setting, and the riff stays as it is. -/
theorem strayText_accountsForLines :
    SameHeadings strayText clearText ∧ IsSetting strayText 6 2 ∧
      (∀ number, BelongsTo strayText number 7 →
        wordsAt clearText number = wordsAt strayText number) ∧
      ∃ records changed, (Record.ofText strayText).result = .ok records ∧
        (Record.ofText clearText).result = .ok changed ∧
        (∃ lead ∈ records, lead.line = 2 ∧ lead.setting? "volume" = some "full" ∧
          "melodies" ∈ lead.settings.names) ∧
        ∃ riff ∈ records, riff.line = 7 ∧ riff ∈ changed := by
  obtain ⟨records, hrecords, -, hlines, haccounts, hothers⟩ := ofText_accountsForLines strayText
  obtain ⟨changed, hchanged, hsame, hafter⟩ := hothers clearText sameHeadings_clearText
  have hheadings : headingAt? strayText 2 = some .instrument ∧
      headingAt? strayText 7 = some .pattern ∧ ∀ k ≤ 6, 2 < k → headingAt? strayText k = none := by
    simp only [headingAt?, wordsAt, page_strayText]
    decide
  obtain ⟨hinstrument, hpattern, hbelow⟩ := hheadings
  have hwords : wordsAt strayText 3 = ["melodies", "yes"] ∧
      wordsAt strayText 6 = ["volume", "f", "ull"] := by
    rw [wordsAt, wordsAt, page_strayText]
    decide
  have hsetting : ∀ number ≤ 6, 2 < number → IsSetting strayText number 2 :=
    fun number hle hlt => ⟨⟨Option.isSome_of_eq_some hinstrument, hlt,
      fun k hk => hbelow k (hk.trans hle)⟩, fun h => absurd (hinstrument.symm.trans h) (by decide)⟩
  have hlast : ∀ k, 6 < k → ¬ IsSetting strayText k 2 := fun k hk hlater =>
    Option.some_ne_none _ (hpattern.symm.trans (hlater.belongs.nearest 7 hk (by decide)))
  have hriffLines : ∀ number, BelongsTo strayText number 7 →
      wordsAt clearText number = wordsAt strayText number := by
    intro number hbelongs
    have hlt := hbelongs.below
    exact wordsAt_clearText number (by simp; omega)
  obtain ⟨lead, hlead, hleadLine⟩ :=
    List.mem_map.mp ((hlines 2).mpr (Option.isSome_of_eq_some hinstrument))
  obtain ⟨riff, hriff, hriffLine⟩ :=
    List.mem_map.mp ((hlines 7).mpr (Option.isSome_of_eq_some hpattern))
  obtain ⟨after, hmem, hafterLine⟩ := List.mem_map.mp (hsame ▸ List.mem_map_of_mem hriff)
  obtain ⟨-, -, -, hkept⟩ := hafter riff hriff after hmem hafterLine
  have hleads := haccounts lead hlead
  rw [hriffLine] at hkept
  refine ⟨sameHeadings_clearText, hsetting 6 le_rfl (by decide), hriffLines, records, changed,
    hrecords, hchanged, ⟨lead, hlead, hleadLine, ?_, ?_⟩, riff, hriff, hriffLine,
    hkept hriffLines ▸ hmem⟩
  · refine hleads.values 6 "volume" ["f", "ull"] ?_ hwords.2 fun k hk hlater => ?_
    · exact hleadLine ▸ hsetting 6 le_rfl (by decide)
    · exact absurd (hleadLine ▸ hlater) (hlast k hk)
  · refine (hleads.names "melodies").mpr ⟨3, hleadLine ▸ hsetting 3 (by decide) (by decide), ?_⟩
    rw [hwords.1]
    rfl

end Record

end Chiptune
