import Chiptune.Proofs.Pattern.Token
import Chiptune.Text.Words

/-!
# Words that are written out

Words without blanks that are written with a blank between them are read back, whatever blanks stand
before them; only empty words are lost. Such a line holds no line feed, so that lines are read back
as well.

* `words_gap_append` and `words_intercalate`, the words of a line;
* `lines_eq_singleton`, a line;
* `solid_of_isNoteToken` and `solid_toString`, notes and numbers.
-/

namespace Chiptune.Text

/-- A text without blanks. -/
def Solid (word : List Char) : Prop := ∀ c ∈ word, isBlank c = false

-- character by character of the word, not over all characters there are
instance (word : List Char) : Decidable (Solid word) :=
  List.decidableBAll (isBlank · = false) word

/-! ## Words -/

theorem wordsFrom_append {word : List Char} (h : Solid word) (front rest : List Char) :
    wordsFrom front (word ++ rest) = wordsFrom (word.reverse ++ front) rest := by
  induction word generalizing front with
  | nil => rfl
  | cons c word ih =>
    obtain ⟨hc, hword⟩ := List.forall_mem_cons.mp h
    rw [List.cons_append, wordsFrom, hc, if_neg Bool.false_ne_true, ih hword, List.reverse_cons,
      List.append_assoc, List.singleton_append]

/-- A word ends at a blank, or at the end of the line. -/
theorem words_append {word rest : List Char} (h : Solid word)
    (hrest : ∀ c ∈ rest.head?, isBlank c = true) :
    words (word ++ rest) = [word].filter (!·.isEmpty) ++ words rest := by
  rw [words, wordsFrom_append h, List.append_nil]
  cases rest with
  | nil =>
    rw [wordsFrom]
    cases word with
    | nil => rfl
    | cons c word => simp [words, wordsFrom]
  | cons c rest =>
    rw [words, wordsFrom, wordsFrom, if_pos (hrest c rfl), if_pos (hrest c rfl)]
    cases word with
    | nil => rfl
    | cons c word => simp

theorem words_of_solid {word : List Char} (h : Solid word) :
    words word = [word].filter (!·.isEmpty) := by
  have hend : ∀ c ∈ ([] : List Char).head?, isBlank c = true := nofun
  have hwords := words_append h hend
  rwa [List.append_nil, show words [] = [] from rfl, List.append_nil] at hwords

theorem words_cons_of_blank {c : Char} (h : isBlank c = true) (rest : List Char) :
    words (c :: rest) = words rest := by
  rw [words, wordsFrom, if_pos h]
  rfl

/-- Words with a blank between them are read back, but for empty ones. -/
theorem words_intercalate {ws : List (List Char)} (h : ∀ w ∈ ws, Solid w) :
    words ([' '].intercalate ws) = ws.filter (!·.isEmpty) := by
  induction ws with
  | nil => rfl
  | cons w ws ih =>
    obtain ⟨hw, hws⟩ := List.forall_mem_cons.mp h
    cases ws with
    | nil => rw [List.intercalate_singleton, words_of_solid hw]
    | cons w' ws =>
      have hspace : ∀ c ∈ (' ' :: [' '].intercalate (w' :: ws)).head?, isBlank c = true := by
        rintro c ⟨⟩
        decide
      rw [List.intercalate_cons_cons, List.append_assoc, List.singleton_append,
        words_append hw hspace, words_cons_of_blank (hspace ' ' rfl), ih hws, ← List.filter_append]
      rfl

/-- Blanks within a line. -/
def IsGap (gap : List Char) : Prop := ∀ c ∈ gap, isBlank c = true ∧ c ≠ '\n'

theorem isGap_replicate (n : ℕ) : IsGap (List.replicate n ' ') := by
  intro c hc
  rw [List.eq_of_mem_replicate hc]
  decide

/-- Blanks at the front do not matter. -/
theorem words_gap_append {gap : List Char} (h : IsGap gap) (text : List Char) :
    words (gap ++ text) = words text := by
  induction gap with
  | nil => rfl
  | cons c gap ih =>
    obtain ⟨⟨hblank, -⟩, hgap⟩ := List.forall_mem_cons.mp h
    exact (words_cons_of_blank hblank _).trans (ih hgap)

/-! ## Lines -/

theorem linesFrom_append (line xs ys : List Char) :
    linesFrom line (xs ++ '\n' :: ys) = linesFrom line xs ++ lines ys := by
  induction xs generalizing line with
  | nil => rfl
  | cons c cs ih =>
    rw [List.cons_append, linesFrom, linesFrom]
    split_ifs with hc
    · exact congrArg (_ :: ·) (ih [])
    · exact ih (c :: line)

/-- A text without line feeds is a line. -/
theorem lines_eq_singleton {text : List Char} (h : '\n' ∉ text) : lines text = [text] := by
  have hfrom : ∀ front, linesFrom front text = [front.reverse ++ text] := by
    induction text with
    | nil => exact fun front => by rw [linesFrom, List.append_nil]
    | cons c cs ih =>
      obtain ⟨hc, hcs⟩ := not_or.mp (List.mem_cons.not.mp h)
      intro front
      rw [linesFrom, if_neg (Ne.symm hc), ih hcs, List.reverse_cons, List.append_assoc,
        List.singleton_append]
  exact hfrom []

theorem Solid.newline_notMem {word : List Char} (h : Solid word) : '\n' ∉ word :=
  fun hmem => absurd (h _ hmem) (by decide)

theorem IsGap.newline_notMem {gap : List Char} (h : IsGap gap) : '\n' ∉ gap :=
  fun hmem => (h _ hmem).2 rfl

theorem newline_notMem_intercalate {ws : List (List Char)} (h : ∀ w ∈ ws, Solid w) :
    '\n' ∉ [' '].intercalate ws := by
  induction ws with
  | nil => exact List.not_mem_nil
  | cons w ws ih =>
    obtain ⟨hw, hws⟩ := List.forall_mem_cons.mp h
    cases ws with
    | nil =>
      rw [List.intercalate_singleton]
      exact hw.newline_notMem
    | cons w' ws =>
      rw [List.intercalate_cons_cons, List.mem_append, List.mem_append]
      rintro ((hmem | hmem) | hmem)
      · exact hw.newline_notMem hmem
      · exact absurd hmem (by decide)
      · exact ih hws hmem

/-! ## Notes and numbers -/

/-- What is visible in ASCII is not a blank. -/
theorem not_isBlank_of_visible {c : Char} (hlow : 32 < c.toNat) (hhigh : c.toNat < 127) :
    isBlank c = false := by
  simp only [isBlank, Bool.or_eq_false_iff, Bool.and_eq_false_iff, decide_eq_false_iff_not,
    beq_eq_false_iff_ne]
  omega

theorem visible_of_isDigit {c : Char} (h : c.isDigit = true) : 32 < c.toNat ∧ c.toNat < 127 := by
  obtain ⟨hlow, hhigh⟩ := (Bool.and_eq_true _ _).mp h
  have hlow : 48 ≤ c.toNat := of_decide_eq_true hlow
  have hhigh : c.toNat ≤ 57 := of_decide_eq_true hhigh
  omega

theorem visible_of_isAlpha {c : Char} (h : c.isAlpha = true) : 32 < c.toNat ∧ c.toNat < 127 := by
  have hcases : c.isUpper = true ∨ c.isLower = true := (Bool.or_eq_true _ _).mp h
  rcases hcases with hupper | hlower
  · obtain ⟨hlow, hhigh⟩ := of_decide_eq_true hupper
    have hlow : 65 ≤ c.toNat := hlow
    have hhigh : c.toNat ≤ 90 := hhigh
    omega
  · obtain ⟨hlow, hhigh⟩ := (Bool.and_eq_true _ _).mp hlower
    have hlow : 97 ≤ c.toNat := of_decide_eq_true hlow
    have hhigh : c.toNat ≤ 122 := of_decide_eq_true hhigh
    omega

/-- A decimal digit of any script is not a blank. -/
theorem not_isBlank_of_isDecimalDigit {c : Char} (h : isDecimalDigit c = true) :
    isBlank c = false := by
  have hscripts : ∀ first ∈ digitZeros, ∀ k < 10, isBlank (Char.ofNat (first + k)) = false := by
    decide +kernel
  rw [isDecimalDigit, Bool.or_eq_true, Bool.and_eq_true, List.any_eq_true] at h
  rcases h with h | ⟨-, first, hfirst, h⟩
  · obtain ⟨hlow, hhigh⟩ := visible_of_isDigit h
    exact not_isBlank_of_visible hlow hhigh
  · rw [Bool.and_eq_true, decide_eq_true_iff, decide_eq_true_iff] at h
    have hblank := hscripts first hfirst (c.toNat - first) (by omega)
    rwa [Nat.add_sub_cancel' h.1, Char.ofNat_toNat] at hblank

/-- A note is written without blanks. -/
theorem solid_of_isNoteToken {token : List Char} (h : Pattern.isNoteToken token = true) :
    Solid token := by
  have hletter : ∀ c, Pattern.isNoteLetter c = true → isBlank c = false := fun c hc =>
    not_isBlank_of_visible (visible_of_isAlpha hc).1 (visible_of_isAlpha hc).2
  have haccidental : ∀ c, Pattern.isAccidental c = true → isBlank c = false := by
    intro c hc
    rw [Pattern.isAccidental, Bool.or_eq_true, decide_eq_true_iff, decide_eq_true_iff] at hc
    rcases hc with rfl | rfl <;> decide
  unfold Pattern.isNoteToken at h
  split at h
  · rw [Bool.and_eq_true] at h
    exact List.forall_mem_cons.mpr ⟨hletter _ h.1,
      List.forall_mem_singleton.mpr (not_isBlank_of_isDecimalDigit h.2)⟩
  · rw [Bool.and_eq_true, Bool.and_eq_true] at h
    exact List.forall_mem_cons.mpr ⟨hletter _ h.1.1, List.forall_mem_cons.mpr
      ⟨haccidental _ h.1.2, List.forall_mem_singleton.mpr (not_isBlank_of_isDecimalDigit h.2)⟩⟩
  · exact absurd h Bool.false_ne_true

/-- The notation of a number is written without blanks. -/
theorem solid_toString (n : ℕ) : Solid (toString n).toList := by
  rw [Nat.toString_eq_repr, Nat.toList_repr]
  intro c hc
  have hdigit : c.isDigit = true := Nat.isDigit_of_mem_toDigits (by decide) (by decide) hc
  obtain ⟨hlow, hhigh⟩ := visible_of_isDigit hdigit
  exact not_isBlank_of_visible hlow hhigh

end Chiptune.Text
