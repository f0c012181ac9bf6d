import Chiptune.Proofs.Text.Words

/-!
# The words on a page

What a line says are its words, however wide the gaps between them are and whatever blanks they
consist of, and a page says what its lines say. Every text is a page in one way only, the one in
which it is cut.

* `LineShows` and `LineShows.words_eq`, the words that can be seen on a line;
* `Shows` and `shows_iff`, the words that can be seen on a page.
-/

namespace Chiptune.Text

/-! ## Lines -/

theorem words_of_gap {gap : List Char} (h : IsGap gap) : words gap = [] := by
  have hwords := words_gap_append h []
  rwa [List.append_nil] at hwords

/-- The first word of a line ends where the next gap starts. -/
theorem words_gap_word {gap word rest : List Char} (hgap : IsGap gap) (hsolid : Solid word)
    (hne : word ≠ []) (hrest : ∀ c ∈ rest.head?, isBlank c = true) :
    words (gap ++ word ++ rest) = word :: words rest := by
  rw [List.append_assoc, words_gap_append hgap, words_append hsolid hrest,
    List.filter_cons_of_pos (by simpa using hne)]
  rfl

/-- A line on which words can be seen. Around them there may be gaps, and between them there are
some; a carriage return at the end of a line is part of the last gap. -/
inductive LineShows : List Char → List String → Prop
  | gap {gap : List Char} (hgap : IsGap gap) : LineShows gap []
  | word {gap rest : List Char} {word : String} {words : List String} (hgap : IsGap gap)
      (hsolid : Solid word.toList) (hne : word ≠ "") (hrest : ∀ c ∈ rest.head?, isBlank c = true)
      (h : LineShows rest words) : LineShows (gap ++ word.toList ++ rest) (word :: words)

theorem LineShows.newline_notMem {line : List Char} {ws : List String} (h : LineShows line ws) :
    '\n' ∉ line := by
  induction h with
  | gap hgap => exact hgap.newline_notMem
  | word hgap hsolid hne hrest h ih =>
    rw [List.mem_append, List.mem_append]
    rintro ((hmem | hmem) | hmem)
    · exact hgap.newline_notMem hmem
    · exact hsolid.newline_notMem hmem
    · exact ih hmem

/-- The words that can be seen on a line are those into which it is cut. -/
theorem LineShows.words_eq {line : List Char} {ws : List String} (h : LineShows line ws) :
    (words line).map String.ofList = ws := by
  induction h with
  | gap hgap => rw [words_of_gap hgap, List.map_nil]
  | word hgap hsolid hne hrest h ih =>
    rw [words_gap_word hgap hsolid (by simpa using hne) hrest, List.map_cons,
      String.ofList_toList, ih]

/-- A line on which there is something starts with a word, after a gap. -/
theorem exists_word (line : List Char) : (∀ c ∈ line, isBlank c = true) ∨
    ∃ gap word rest, line = gap ++ word ++ rest ∧ (∀ c ∈ gap, isBlank c = true) ∧ Solid word ∧
      word ≠ [] ∧ ∀ c ∈ rest.head?, isBlank c = true := by
  induction line with
  | nil => exact .inl nofun
  | cons c line ih =>
    by_cases hc : isBlank c = true
    · rcases ih with hblank | ⟨gap, word, rest, rfl, hgap, hword⟩
      · exact .inl (List.forall_mem_cons.mpr ⟨hc, hblank⟩)
      · exact .inr ⟨c :: gap, word, rest, rfl, List.forall_mem_cons.mpr ⟨hc, hgap⟩, hword⟩
    · have hword : Solid (c :: line.takeWhile (!isBlank ·)) := by
        refine List.forall_mem_cons.mpr ⟨Bool.eq_false_iff.mpr hc, fun d hd => ?_⟩
        simpa using List.all_eq_true.mp List.all_takeWhile d hd
      have hrest : ∀ d ∈ (line.dropWhile (!isBlank ·)).head?, isBlank d = true := by
        intro d hd
        have hhead := List.head?_dropWhile_not (!isBlank ·) line
        rw [Option.mem_def.mp hd] at hhead
        simpa using hhead
      refine .inr ⟨[], _, _, ?_, nofun, hword, nofun, hrest⟩
      rw [List.nil_append, List.cons_append, List.takeWhile_append_dropWhile]

/-- Some words can be seen on every line. -/
theorem lineShows_words {line : List Char} (h : '\n' ∉ line) :
    LineShows line ((words line).map String.ofList) := by
  induction hlength : line.length using Nat.strongRecOn generalizing line with
  | ind n ih =>
    rcases exists_word line with hblank | ⟨gap, word, rest, rfl, hblank, hsolid, hne, hrest⟩
    · have hgap : IsGap line := fun c hc => ⟨hblank c hc, fun hnewline => h (hnewline ▸ hc)⟩
      rw [words_of_gap hgap]
      exact .gap hgap
    · rw [List.mem_append, List.mem_append, not_or, not_or] at h
      have hgap : IsGap gap := fun c hc => ⟨hblank c hc, fun hnewline => h.1.1 (hnewline ▸ hc)⟩
      have hshorter : rest.length < n := by
        have hpos := List.length_pos_iff.mpr hne
        rw [← hlength, List.length_append, List.length_append]
        omega
      have hshows : LineShows (gap ++ (String.ofList word).toList ++ rest)
          (String.ofList word :: (words rest).map String.ofList) :=
        .word hgap (by rwa [String.toList_ofList]) (by simpa using hne) hrest
          (ih _ hshorter h.2 rfl)
      rwa [String.toList_ofList, ← List.map_cons,
        ← words_gap_word hgap hsolid hne hrest] at hshows

/-! ## Pages -/

theorem lines_append {line : List Char} (h : '\n' ∉ line) (rest : List Char) :
    lines (line ++ '\n' :: rest) = line :: lines rest := by
  rw [lines, linesFrom_append, ← lines, lines_eq_singleton h, List.singleton_append]

/-- The words of all lines of a text. -/
def page (text : List Char) : List (List String) :=
  (lines text).map fun line => (words line).map String.ofList

/-- A text on whose lines words can be seen. -/
inductive Shows : List Char → List (List String) → Prop
  | last {line : List Char} {words : List String} (h : LineShows line words) :
      Shows line [words]
  | cons {line rest : List Char} {words : List String} {shown : List (List String)}
      (h : LineShows line words) (hrest : Shows rest shown) :
      Shows (line ++ '\n' :: rest) (words :: shown)

/-- The words that can be seen on a page are those into which its lines are cut. -/
theorem Shows.page_eq {text : List Char} {shown : List (List String)} (h : Shows text shown) :
    page text = shown := by
  induction h with
  | last h =>
    rw [page, lines_eq_singleton h.newline_notMem, List.map_singleton, h.words_eq]
  | cons h hrest ih =>
    rw [page, lines_append h.newline_notMem, List.map_cons, h.words_eq, ← page, ih]

/-- Every text is a page. -/
theorem shows_page (text : List Char) : Shows text (page text) := by
  induction hlength : text.length using Nat.strongRecOn generalizing text with
  | ind n ih =>
    by_cases hmem : '\n' ∈ text
    · obtain ⟨line, rest, rfl, hline⟩ := List.eq_append_cons_of_mem hmem
      rw [page, lines_append hline, List.map_cons]
      refine .cons (lineShows_words hline) (ih rest.length ?_ rest rfl)
      rw [← hlength, List.length_append, List.length_cons]
      omega
    · rw [page, lines_eq_singleton hmem]
      exact .last (lineShows_words hmem)

theorem shows_iff {text : List Char} {shown : List (List String)} :
    Shows text shown ↔ page text = shown :=
  ⟨Shows.page_eq, fun h => h ▸ shows_page text⟩

end Chiptune.Text
