import Chiptune.Proofs.Record.Melodies
import Chiptune.Proofs.Text.Page
import Mathlib.Data.List.Sort

/-!
# The places of lines

Every line of a text has a number. The lines that start with a keyword are headings, and every other
line belongs to the heading above it that is nearest, if there is one. The lines of a block are its
heading and those that belong to it.

* `Line.map_ofText`, the lines of a text and their numbers;
* `BelongsTo` and `Block.StandsIn.mem_body_iff`, the lines of a block;
* `Block.StandsIn.bare_eq`, what a block depends on.
-/

namespace Chiptune

/-! ## Lines and their numbers -/

/-- The words of a line of a text; the lines are counted from 1. A line that is not there has no
words. -/
def Text.wordsAt (text : String) (number : ℕ) : List String :=
  (([] :: page text.toList)[number]?).getD []

open Text

/-- The kind of the record that a line of a text starts. -/
def headingAt? (text : String) (number : ℕ) : Option RecordKind :=
  (wordsAt text number).head?.bind RecordKind.ofKeyword?

/-- A line belongs to the nearest heading above it, and a heading to no other one. -/
structure BelongsTo (text : String) (number start : ℕ) : Prop where
  heading : (headingAt? text start).isSome = true
  below : start < number
  nearest : ∀ k ≤ number, start < k → headingAt? text k = none

namespace Line

theorem map_numbered (number : ℕ) (texts : List (List Char)) :
    (numbered number texts).map (fun line => (line.words, line.number))
      = ((texts.map fun text => (Text.words text).map String.ofList).zipIdx number).filter
        (·.1 ≠ []) := by
  induction texts generalizing number with
  | nil => rfl
  | cons text texts ih =>
    rw [numbered, List.map_cons, List.zipIdx_cons, List.filter_cons, ← ih (number + 1)]
    cases Text.words text <;> rfl

/-- The lines of a text are those with words, under their numbers. -/
theorem map_ofText (text : String) :
    (ofText text).map (fun line => (line.words, line.number))
      = ((page text.toList).zipIdx 1).filter (·.1 ≠ []) :=
  map_numbered 1 _

/-- The numbers of lines increase. -/
def InOrder (lines : List Line) : Prop := lines.Pairwise fun a b => a.number < b.number

/-- The first of some lines has the least number. -/
theorem InOrder.number_le {first line : Line} {lines : List Line} (h : InOrder (first :: lines))
    (hline : line ∈ first :: lines) : first.number ≤ line.number := by
  rcases List.mem_cons.mp hline with rfl | hline
  · exact le_rfl
  · exact (List.rel_of_pairwise_cons h hline).le

theorem inOrder_ofText (text : String) : InOrder (ofText text) := by
  have hplaces : ((page text.toList).zipIdx 1).Pairwise fun a b => a.2 < b.2 := by
    rw [← List.pairwise_map (f := Prod.snd), List.zipIdx_map_snd]
    exact List.pairwise_lt_range'
  have h := hplaces.filter (·.1 ≠ [])
  rw [← map_ofText, List.pairwise_map] at h
  exact h

theorem exists_ofText_iff {text : String} {number : ℕ} {shown : List String} :
    (∃ line ∈ ofText text, line.words = shown ∧ line.number = number) ↔
      wordsAt text number = shown ∧ shown ≠ [] := by
  have hmem : (∃ line ∈ ofText text, line.words = shown ∧ line.number = number) ↔
      (shown, number) ∈ (ofText text).map fun line => (line.words, line.number) := by
    simp only [List.mem_map, Prod.mk.injEq]
  rw [hmem, map_ofText, List.mem_filter, List.mk_mem_zipIdx_iff_le_and_getElem?_sub,
    decide_eq_true_iff]
  refine and_congr_left fun hne => ?_
  cases number with
  | zero => exact ⟨fun h => absurd h.1 (by decide), fun h => absurd h.symm hne⟩
  | succ number =>
    rw [Nat.add_sub_cancel, wordsAt, List.getElem?_cons_succ]
    cases (page text.toList)[number]? with
    | none => exact ⟨fun h => absurd h.2 nofun, fun h => absurd h.symm hne⟩
    | some found =>
      rw [Option.getD_some, Option.some_inj]
      exact ⟨fun h => h.2, fun h => ⟨by omega, h⟩⟩

variable {text : String} {line : Line}

theorem wordsAt_number (h : line ∈ ofText text) : wordsAt text line.number = line.words :=
  (exists_ofText_iff.mp ⟨line, h, rfl, rfl⟩).1

theorem headingAt?_number (h : line ∈ ofText text) :
    headingAt? text line.number = RecordKind.ofKeyword? line.head := by
  rw [headingAt?, wordsAt_number h]
  rfl

/-- A line that starts with a word is one of the lines of the text. -/
theorem exists_of_head? {number : ℕ} {word : String}
    (h : (wordsAt text number).head? = some word) :
    ∃ line ∈ ofText text, line.number = number ∧ line.head = word := by
  have hne : wordsAt text number ≠ [] := by
    intro hnil
    rw [hnil] at h
    exact absurd h nofun
  obtain ⟨line, hline, hwords, hnumber⟩ := exists_ofText_iff.mpr ⟨rfl, hne⟩
  rw [← hwords] at h
  exact ⟨line, hline, hnumber, Option.some.inj h⟩

theorem exists_of_headingAt? {number : ℕ} {kind : RecordKind}
    (h : headingAt? text number = some kind) :
    ∃ line ∈ ofText text, line.number = number ∧
      RecordKind.ofKeyword? line.head = some kind := by
  obtain ⟨word, hword, hkind⟩ := Option.bind_eq_some_iff.mp h
  obtain ⟨line, hline, hnumber, rfl⟩ := exists_of_head? hword
  exact ⟨line, hline, hnumber, hkind⟩

end Line

/-! ## The lines of a block -/

namespace Block

/-- Every heading among lines has a block. -/
theorem map_heading_cut (all : List Line) :
    (cut all).2.map heading = all.filter fun line => (RecordKind.ofKeyword? line.head).isSome := by
  induction all with
  | nil => rfl
  | cons line all ih =>
    rw [cut, List.filter_cons]
    cases RecordKind.ofKeyword? line.head with
    | none => exact ih
    | some kind => exact congrArg (line :: ·) ih

namespace StandsIn

variable {text : String} {block : Block}

theorem heading_mem {all : List Line} (h : block.StandsIn all) : block.heading ∈ all := by
  obtain ⟨front, back, rfl, -⟩ := h.place
  exact List.mem_append_right _ List.mem_cons_self

theorem headingAt?_heading (h : block.StandsIn (Line.ofText text)) :
    headingAt? text block.heading.number = some block.kind := by
  rw [Line.headingAt?_number h.heading_mem, h.headed.heading]

theorem inOrder_body (h : block.StandsIn (Line.ofText text)) : Line.InOrder block.body := by
  obtain ⟨front, back, hall, -⟩ := h.place
  have hbody : block.body.Sublist (block.lines ++ back) :=
    (List.sublist_cons_self _ _).trans (List.sublist_append_left _ _)
  have horder := Line.inOrder_ofText text
  rw [hall] at horder
  exact horder.sublist (hbody.trans (List.sublist_append_right _ _))

/-- The lines of a text stand above a block, in it or below it. What is below starts with a heading,
and with the line of that heading the numbers of the block end. -/
theorem exists_places (h : block.StandsIn (Line.ofText text)) : ∃ front back : List Line,
    (∀ line, line ∈ Line.ofText text ↔
      line ∈ front ∨ line = block.heading ∨ line ∈ block.body ∨ line ∈ back) ∧
    (∀ line ∈ front, line.number < block.heading.number) ∧
    (∀ line ∈ block.body, block.heading.number < line.number ∧
      ∀ next ∈ back, line.number < next.number) ∧
    ∀ line ∈ back, ∃ next ∈ back, block.heading.number < next.number ∧
      next.number ≤ line.number ∧ RecordKind.ofKeyword? next.head ≠ none := by
  obtain ⟨front, back, hall, hback⟩ := h.place
  have horder : (front ++ (block.heading :: (block.body ++ back))).Pairwise
      fun a b => a.number < b.number := hall ▸ Line.inOrder_ofText text
  rw [List.pairwise_append, List.pairwise_cons, List.pairwise_append] at horder
  obtain ⟨-, ⟨hbelow, -, hafter, hbody⟩, hfront⟩ := horder
  refine ⟨front, back, fun line => ?_, fun line hline => hfront line hline _ List.mem_cons_self,
    fun line hline => ⟨hbelow line (List.mem_append_left _ hline), hbody line hline⟩,
    fun line hline => ?_⟩
  · rw [hall, lines, List.cons_append, List.mem_append, List.mem_cons, List.mem_append]
  · obtain ⟨next, rest, rfl⟩ := List.exists_cons_of_ne_nil (List.ne_nil_of_mem hline)
    exact ⟨next, List.mem_cons_self, hbelow next (List.mem_append_right _ List.mem_cons_self),
      Line.InOrder.number_le hafter hline, hback next rfl⟩

/-- The body of a block consists of the lines that belong to its heading. -/
theorem mem_body_iff (h : block.StandsIn (Line.ofText text)) {line : Line} :
    line ∈ block.body ↔
      line ∈ Line.ofText text ∧ BelongsTo text line.number block.heading.number := by
  obtain ⟨front, back, hmem, hfront, hbody, hback⟩ := h.exists_places
  constructor
  · intro hline
    obtain ⟨hbelow, hnext⟩ := hbody line hline
    refine ⟨(hmem line).mpr (Or.inr (Or.inr (Or.inl hline))),
      Option.isSome_of_eq_some h.headingAt?_heading, hbelow, fun k hk hlt => ?_⟩
    -- a heading between them would stand above the block or below it
    by_contra hne
    obtain ⟨kind, hkind⟩ := Option.ne_none_iff_exists'.mp hne
    obtain ⟨l, hl, rfl, hhead⟩ := Line.exists_of_headingAt? hkind
    rcases (hmem l).mp hl with hl | rfl | hl | hl
    · exact absurd (hfront l hl) (by omega)
    · exact absurd hlt (lt_irrefl _)
    · exact absurd ((h.headed.body l hl).symm.trans hhead) nofun
    · exact absurd (hnext l hl) (by omega)
  · rintro ⟨hline, -, hlt, hnearest⟩
    rcases (hmem line).mp hline with hl | rfl | hl | hl
    · exact absurd (hfront line hl) (by omega)
    · exact absurd hlt (lt_irrefl _)
    · exact hl
    · obtain ⟨next, hnext, hafter, hle, hheading⟩ := hback line hl
      have hnone := hnearest next.number hle hafter
      rw [Line.headingAt?_number ((hmem next).mpr (Or.inr (Or.inr (Or.inr hnext))))] at hnone
      exact absurd hnone hheading

theorem mem_map_number_body (h : block.StandsIn (Line.ofText text)) {number : ℕ} :
    number ∈ block.body.map Line.number ↔
      BelongsTo text number block.heading.number ∧ wordsAt text number ≠ [] := by
  rw [List.mem_map]
  constructor
  · rintro ⟨line, hline, rfl⟩
    obtain ⟨hmem, hbelongs⟩ := h.mem_body_iff.mp hline
    rw [Line.wordsAt_number hmem]
    exact ⟨hbelongs, List.cons_ne_nil _ _⟩
  · rintro ⟨hbelongs, hne⟩
    obtain ⟨line, hmem, -, rfl⟩ := Line.exists_ofText_iff.mpr ⟨rfl, hne⟩
    exact ⟨line, h.mem_body_iff.mpr ⟨hmem, hbelongs⟩, rfl⟩

theorem map_words_body (h : block.StandsIn (Line.ofText text)) :
    block.body.map Line.words = (block.body.map Line.number).map (wordsAt text) := by
  rw [List.map_map]
  exact List.map_congr_left fun line hline => (Line.wordsAt_number (h.mem_body_iff.mp hline).1).symm

/-- A block apart from its place depends on its heading and the lines that belong to it only. -/
theorem bare_eq {other : String} {after : Block} (h : block.StandsIn (Line.ofText text))
    (hafter : after.StandsIn (Line.ofText other))
    (hstart : after.heading.number = block.heading.number)
    (hheading : wordsAt other block.heading.number = wordsAt text block.heading.number)
    (hbelongs : ∀ number, BelongsTo other number block.heading.number ↔
      BelongsTo text number block.heading.number)
    (hwords : ∀ number, BelongsTo text number block.heading.number →
      wordsAt other number = wordsAt text number) :
    after.bare = block.bare := by
  have hnumbers : after.body.map Line.number = block.body.map Line.number := by
    refine List.Pairwise.eq_of_mem_iff (List.pairwise_map.mpr hafter.inOrder_body)
      (List.pairwise_map.mpr h.inOrder_body) fun number => ?_
    rw [hafter.mem_map_number_body, h.mem_map_number_body, hstart, hbelongs]
    exact and_congr_right fun hnumber => by rw [hwords number hnumber]
  have hbody : after.body.map Line.words = block.body.map Line.words := by
    rw [hafter.map_words_body, h.map_words_body, hnumbers]
    exact List.map_congr_left fun number hnumber =>
      hwords number (h.mem_map_number_body.mp hnumber).1
  have hbare : ∀ lines : List Line, lines.map Line.bare
      = (lines.map Line.words).map fun words => ⟨0, "", words.headD "", words.tail⟩ := by
    intro lines
    rw [List.map_map]
    rfl
  have hline : after.heading.words = block.heading.words := by
    rw [← Line.wordsAt_number hafter.heading_mem, ← Line.wordsAt_number h.heading_mem, hstart,
      hheading]
  obtain ⟨hhead, htail⟩ := List.cons.inj hline
  have hkind : some after.kind = some block.kind := by
    rw [← hafter.headed.heading, ← h.headed.heading, hhead]
  show Block.mk after.kind after.heading.bare (after.body.map Line.bare) = Block.mk _ _ _
  rw [Option.some.inj hkind, hbare, hbody, ← hbare, Line.bare, hhead, htail]
  rfl

end StandsIn

end Block

end Chiptune
