import Chiptune.Pattern.Token
import Mathlib.Tactic.Common

/-!
# Cutting steps

Notes and rests that are written one after the other are cut apart where they were joined, whatever
they are: a note ends with its digit, and nothing before the digit could be a token of its own. Of
the hold markers none is left.

* `cut_token` and `rawTokens_flatten`, joined tokens;
* `stepTokens_flatten`, joined notes and rests;
* `holdToken_notMem_stepTokens`, holds.
-/

namespace Chiptune.Pattern

open Text

/-- A letter, an optional accidental and a decimal digit. -/
def isNoteToken : List Char → Bool
  | [letter, digit] => isNoteLetter letter && isDecimalDigit digit
  | [letter, accidental, digit] =>
    isNoteLetter letter && isAccidental accidental && isDecimalDigit digit
  | _ => false

theorem not_isMarker_of_isNoteLetter {c : Char} (h : isNoteLetter c = true) :
    isMarker c = false := by
  rw [isMarker, Bool.or_eq_false_iff, decide_eq_false_iff_not, decide_eq_false_iff_not]
  constructor <;> rintro rfl <;> exact absurd h (by decide)

theorem not_isDecimalDigit_of_isAccidental {c : Char} (h : isAccidental c = true) :
    isDecimalDigit c = false := by
  rw [isAccidental, Bool.or_eq_true, decide_eq_true_iff, decide_eq_true_iff] at h
  rcases h with rfl | rfl <;> decide

/-- A note or a marker at the front is cut off, after whatever stands before it. -/
theorem cut_token (gap : List Char) {token : List Char} (rest : List Char)
    (h : isNoteToken token = true ∨ token = restToken ∨ token = holdToken) :
    cut gap (token ++ rest) = closeGap gap (token :: cut [] rest) := by
  rcases h with h | rfl | rfl
  · unfold isNoteToken at h
    split at h
    · rename_i letter digit
      rw [Bool.and_eq_true] at h
      rw [List.cons_append, List.singleton_append, cut.eq_def]
      simp only [not_isMarker_of_isNoteLetter h.1, h.1, h.2, if_true, Bool.false_eq_true, if_false]
    · rename_i letter accidental digit
      rw [Bool.and_eq_true, Bool.and_eq_true] at h
      obtain ⟨⟨hletter, haccidental⟩, hdigit⟩ := h
      rw [List.cons_append, List.cons_append, List.singleton_append, cut.eq_def]
      simp only [not_isMarker_of_isNoteLetter hletter, hletter,
        not_isDecimalDigit_of_isAccidental haccidental, haccidental, hdigit, if_true,
        Bool.false_eq_true, if_false]
    · exact absurd h nofun
  · rw [restToken, List.singleton_append, cut.eq_def]
    rfl
  · rw [holdToken, List.singleton_append, cut.eq_def]
    rfl

/-- Joined tokens are cut where they were joined. -/
theorem rawTokens_flatten {tokens : List (List Char)}
    (h : ∀ token ∈ tokens, isNoteToken token = true ∨ token = restToken ∨ token = holdToken) :
    rawTokens tokens.flatten = tokens := by
  induction tokens with
  | nil => rfl
  | cons token tokens ih =>
    rw [rawTokens, List.flatten_cons, cut_token [] _ (h token List.mem_cons_self)]
    exact congrArg (token :: ·) (ih fun t ht => h t (List.mem_cons_of_mem token ht))

/-- Without holds there is nothing to replace. -/
theorem hold_of_notMem (previous : List Char) {tokens : List (List Char)}
    (h : holdToken ∉ tokens) : hold previous tokens = tokens := by
  induction tokens generalizing previous with
  | nil => rfl
  | cons token tokens ih =>
    obtain ⟨htoken, htokens⟩ := not_or.mp (List.mem_cons.not.mp h)
    rw [hold, if_neg (Ne.symm htoken)]
    exact congrArg (token :: ·) (ih token htokens)

/-- Joined notes and rests are the steps that they are. -/
theorem stepTokens_flatten {tokens : List (List Char)}
    (h : ∀ token ∈ tokens, isNoteToken token = true ∨ token = restToken) :
    stepTokens tokens.flatten = tokens := by
  have hhold : holdToken ∉ tokens := fun hmem =>
    (h _ hmem).elim (fun hnote => absurd hnote (by decide)) (fun hrest => absurd hrest (by decide))
  rw [stepTokens, rawTokens_flatten fun token ht => (h token ht).imp_right Or.inl,
    hold_of_notMem _ hhold]

theorem holdToken_notMem_hold {previous : List Char} (h : previous ≠ holdToken)
    (tokens : List (List Char)) : holdToken ∉ hold previous tokens := by
  induction tokens generalizing previous with
  | nil => exact List.not_mem_nil
  | cons token tokens ih =>
    have hne : (if token = holdToken then previous else token) ≠ holdToken := by
      split_ifs with htoken
      · exact h
      · exact htoken
    rw [hold]
    exact List.mem_cons.not.mpr (not_or.mpr ⟨hne.symm, ih hne⟩)

/-- No step of a pattern is a hold. -/
theorem holdToken_notMem_stepTokens (text : List Char) : holdToken ∉ stepTokens text :=
  holdToken_notMem_hold (by decide) (rawTokens text)

end Chiptune.Pattern
