import Chiptune.Pattern.Basic
import Chiptune.Proofs.Pattern.Cutting

/-!
# Patterns that are written out

A pattern is written out by its tokens, one after the other with nothing between them. Where all of
them are notes and rests, this is cut at the same places again. The steps of a text may also be
gaps. A gap ends where the next token begins, so that it is read back too, unless it is held: then
it is written out twice in a row, and its copies run into one another.

* `toList_text`, a pattern that is written out;
* `IsCut.hold` and `unheld_of_separated`, the steps of a text as a cut of their own;
* `stepTokens_flatten_stepTokens_iff`, the texts whose steps are read back;
* `text_readsBack`, patterns of notes and rests, and patterns that have been read.
-/

namespace Chiptune.Pattern

/-! ## Notes and markers -/

theorem length_of_isNoteToken {token : List Char} (h : isNoteToken token = true) :
    token.length = 2 ∨ token.length = 3 := by
  unfold isNoteToken at h
  split at h
  · exact Or.inl rfl
  · exact Or.inr rfl
  · exact absurd h Bool.false_ne_true

/-- No marker is part of a note. -/
theorem not_isMarker_of_mem {token : List Char} (h : isNoteToken token = true) {c : Char}
    (hc : c ∈ token) : isMarker c = false := by
  have hclass : isNoteLetter c = true ∨ isAccidental c = true ∨ Text.isDecimalDigit c = true := by
    unfold isNoteToken at h
    split at h
    · rw [Bool.and_eq_true] at h
      rw [List.mem_pair] at hc
      rcases hc with rfl | rfl
      · exact Or.inl h.1
      · exact Or.inr (Or.inr h.2)
    · rw [Bool.and_eq_true, Bool.and_eq_true] at h
      rw [List.mem_cons, List.mem_pair] at hc
      rcases hc with rfl | rfl | rfl
      · exact Or.inl h.1.1
      · exact Or.inr (Or.inl h.1.2)
      · exact Or.inr (Or.inr h.2)
    · exact absurd h Bool.false_ne_true
  rw [isMarker, Bool.or_eq_false_iff, decide_eq_false_iff_not, decide_eq_false_iff_not]
  constructor <;> rintro rfl <;> exact absurd hclass (by decide)

/-- What is not a note is a single marker. -/
theorem IsToken.note_or_marker {token : List Char} (h : IsToken token) :
    isNoteToken token = true ∨ ∃ c, isMarker c = true ∧ token = [c] := by
  rcases h with hnote | rfl | rfl
  · exact Or.inl hnote
  · exact Or.inr ⟨'.', rfl, rfl⟩
  · exact Or.inr ⟨'-', rfl, rfl⟩

/-- No token begins within a gap before a token, whatever comes after that one. -/
theorem Clear.of_token {gap token rest : List Char} (htoken : IsToken token)
    (h : Clear gap (token ++ rest)) (other : List Char) : Clear gap (token ++ other) := by
  intro i hi found hfound hprefix
  rw [← List.append_assoc] at hprefix
  have hpos : 0 < (gap.drop i).length := by
    rw [List.length_drop]
    omega
  -- what would begin within the gap is too short to go beyond the token
  have hle : found.length ≤ (gap.drop i ++ token).length := by
    by_contra! hlong
    have hwithin : gap.drop i ++ token <+: found :=
      List.prefix_of_prefix_length_le (List.prefix_append _ _) hprefix hlong.le
    rw [List.length_append] at hlong
    rcases hfound.note_or_marker with hnote | ⟨c, -, rfl⟩
    · have hlength := length_of_isNoteToken hnote
      rcases htoken.note_or_marker with htoken | ⟨c, hc, rfl⟩
      · have htwo := length_of_isNoteToken htoken
        omega
      · have hmem : c ∈ found :=
          hwithin.subset (List.mem_append_right _ (List.mem_singleton_self c))
        exact absurd ((not_isMarker_of_mem hnote hmem).symm.trans hc) Bool.false_ne_true
    · rw [List.length_singleton] at hlong
      have hne := List.length_pos_iff.mpr htoken.ne_nil
      omega
  refine h i hi found hfound ?_
  rw [← List.append_assoc]
  exact (List.prefix_of_prefix_length_le hprefix (List.prefix_append _ _) hle).trans
    (List.prefix_append _ _)

/-! ## The steps of a text as a cut -/

/-- No gap is held. -/
def Unheld (raw : List (List Char)) : Prop := raw.IsChain fun a b => ¬ (IsGap a ∧ b = holdToken)

instance (token : List Char) : Decidable (IsGap token) :=
  inferInstanceAs (Decidable (¬ (_ ∨ _ ∨ _)))

instance (raw : List (List Char)) : Decidable (Unheld raw) :=
  inferInstanceAs (Decidable (List.IsChain _ raw))

/-- What is written out is cut at the same places as before if no gap is held. -/
theorem IsCut.hold {text previous : List Char} {raw : List (List Char)} (h : IsCut text raw)
    (hunheld : Unheld raw)
    (hprevious : IsToken previous ∨ ∀ first ∈ raw.head?, first ≠ holdToken) :
    IsCut (Pattern.hold previous raw).flatten (Pattern.hold previous raw) := by
  obtain rfl := h.flatten_eq
  induction raw generalizing previous with
  | nil => exact isCut_nil
  | cons first raw ih =>
    have hchain := List.isChain_cons.mp hunheld
    have hfirst : first = holdToken → IsToken previous := fun hhold =>
      hprevious.resolve_right fun hne => hne first rfl hhold
    rw [Pattern.hold]
    by_cases htoken : IsToken first
    · -- the step is a token itself, or the token that it holds
      set step := if first = holdToken then previous else first with hstep
      have hstep : IsToken step := by
        rw [hstep]
        split_ifs with hhold
        · exact hfirst hhold
        · exact htoken
      exact (ih hchain.2 (Or.inl hstep) h.of_cons).cons hstep.ne_nil fun hgap => absurd hstep hgap
    · have hhold : first ≠ holdToken := by
        rintro rfl
        exact htoken (Or.inr (Or.inr rfl))
      have hnext : ∀ next ∈ raw.head?, next ≠ holdToken := fun next hmem hnext =>
        hchain.1 next hmem ⟨htoken, hnext⟩
      rw [if_neg hhold]
      refine (ih hchain.2 (Or.inr hnext) h.of_cons).cons (h.ne_nil first List.mem_cons_self)
        fun hgap => ?_
      have hclear : Clear first raw.flatten := h.clear hgap
      cases raw with
      | nil => exact ⟨hclear, fun _ hnone => absurd hnone (Option.not_mem_none _)⟩
      | cons next raw =>
        have hseparated : ¬ IsGap next := fun hboth =>
          (List.isChain_cons.mp h.separated).1 next rfl ⟨hgap, hboth⟩
        rw [Pattern.hold, if_neg (hnext next rfl)]
        refine ⟨hclear.of_token (not_not.mp hseparated) _, ?_⟩
        rintro _ ⟨⟩
        exact hseparated

/-- A held gap stands beside its copy. -/
theorem unheld_of_separated {previous : List Char} {raw : List (List Char)}
    (h : (hold previous raw).IsChain fun a b => ¬ (IsGap a ∧ IsGap b)) : Unheld raw := by
  induction raw generalizing previous with
  | nil => exact List.isChain_nil
  | cons first raw ih =>
    rw [hold, List.isChain_cons] at h
    refine List.isChain_cons.mpr ⟨?_, ih h.2⟩
    rintro next hnext ⟨hgap, rfl⟩
    have hne : first ≠ holdToken := by
      rintro rfl
      exact hgap (Or.inr (Or.inr rfl))
    obtain ⟨raw, rfl⟩ : ∃ rest, raw = holdToken :: rest := by
      exact ⟨raw.tail, (List.cons_head?_tail hnext).symm⟩
    rw [if_neg hne, hold, if_pos rfl] at h
    exact h.1 first rfl ⟨hgap, hgap⟩

/-- Every step is a rest or stands in the text. -/
theorem mem_stepTokens {text token : List Char} (h : token ∈ stepTokens text) :
    token = restToken ∨ token ∈ rawTokens text ∧ token ≠ holdToken := by
  obtain ⟨i, hi, rfl⟩ := List.getElem_of_mem h
  rcases sustains_hold restToken (rawTokens text) i hi with ⟨j, -, hj, hne, -⟩ | ⟨hrest, -⟩
  · exact Or.inr ⟨List.mem_of_getElem? hj, hne⟩
  · exact Or.inl hrest

/-- No hold is written out. -/
theorem hold_notMem_flatten_stepTokens (text : List Char) : '-' ∉ (stepTokens text).flatten := by
  intro hmem
  obtain ⟨token, htoken, hhold⟩ := List.mem_flatten.mp hmem
  rcases mem_stepTokens htoken with rfl | ⟨hraw, hne⟩
  · exact absurd hhold (by decide)
  · by_cases hgap : IsGap token
    · exact ((isCut_rawTokens text).unmarked token hraw hgap).2 hhold
    · rcases not_not.mp hgap with hnote | rfl | rfl
      · exact absurd (not_isMarker_of_mem hnote hhold) (by decide)
      · exact absurd hhold (by decide)
      · exact hne rfl

/-- The steps of a text are read back as they are written out unless a gap is held. -/
theorem stepTokens_flatten_stepTokens_iff (text : List Char) :
    stepTokens (stepTokens text).flatten = stepTokens text ↔ Unheld (rawTokens text) := by
  constructor
  · intro hback
    -- what is written out has no hold in it, so that its steps are its cut
    have hraw : holdToken ∉ rawTokens (stepTokens text).flatten := by
      intro hmem
      refine hold_notMem_flatten_stepTokens text ?_
      rw [← (isCut_rawTokens (stepTokens text).flatten).flatten_eq]
      exact List.mem_flatten.mpr ⟨holdToken, hmem, List.mem_singleton_self '-'⟩
    rw [stepTokens, hold_of_notMem _ hraw] at hback
    exact unheld_of_separated (isCut_iff.mpr hback.symm).separated
  · intro hunheld
    have hrest : IsToken restToken := Or.inr (Or.inl rfl)
    have hsteps : IsCut (stepTokens text).flatten (stepTokens text) :=
      (isCut_rawTokens text).hold hunheld (Or.inl hrest)
    rw [stepTokens, ← isCut_iff.mp hsteps, hold_of_notMem _ (holdToken_notMem_stepTokens text)]

theorem unheld_of_forall_isToken {raw : List (List Char)} (h : ∀ token ∈ raw, IsToken token) :
    Unheld raw := by
  refine List.Pairwise.isChain (List.pairwise_of_forall_mem_list fun a ha b _ => ?_)
  rintro ⟨hgap, -⟩
  exact hgap (h a ha)

/-! ## Patterns -/

/-- The steps of a text, as the words that they are. -/
def readSteps (text : String) : List String := (stepTokens text.toList).map String.ofList

theorem map_ofList_toList (words : List String) :
    (words.map String.toList).map String.ofList = words := by
  rw [List.map_map]
  exact (List.map_congr_left fun word _ => String.ofList_toList).trans (List.map_id _)

theorem toList_text (pattern : Pattern) :
    pattern.text.toList = ((pattern.steps.map Step.token).map String.toList).flatten := by
  rw [text, String.toList_join, List.flatMap_def]

/-- A pattern of notes and rests is read back. -/
theorem readSteps_text {pattern : Pattern}
    (h : ∀ step ∈ pattern.steps, isNoteToken step.token.toList = true ∨ step.token = ".") :
    readSteps pattern.text = pattern.steps.map Step.token := by
  have hwords : ∀ token ∈ (pattern.steps.map Step.token).map String.toList,
      isNoteToken token = true ∨ token = restToken :=
    List.forall_mem_map.mpr <| List.forall_mem_map.mpr fun step hstep =>
      (h step hstep).imp_right (congrArg String.toList)
  rw [readSteps, toList_text, stepTokens_flatten hwords, map_ofList_toList]

/-- A pattern that is made from tokens has these tokens. -/
theorem map_token_ofTokens (name : String) (tokens : List String) :
    (ofTokens name tokens).steps.map Step.token = tokens := by
  have htoken : ∀ token : String, (Step.ofToken token).token = token := by
    intro token
    rw [Step.ofToken]
    split_ifs with hrest
    · exact hrest.symm
    · rfl
  rw [ofTokens, List.map_map]
  exact (List.map_congr_left fun token _ => htoken token).trans (List.map_id _)

/-- What has been read from a text is read back if no gap of the text is held. -/
theorem readSteps_text_readSteps_iff (name text : String) :
    readSteps (ofTokens name (readSteps text)).text = readSteps text ↔
      Unheld (rawTokens text.toList) := by
  have hsteps : (readSteps text).map String.toList = stepTokens text.toList := by
    rw [readSteps, List.map_map]
    exact (List.map_congr_left fun token _ => String.toList_ofList).trans (List.map_id _)
  rw [← stepTokens_flatten_stepTokens_iff, readSteps, toList_text, map_token_ofTokens, hsteps,
    readSteps]
  exact (List.map_injective_iff.mpr fun _ _ h => String.ofList_injective h).eq_iff

/-- Notes and rests are read back from the pattern that they make, whatever stands beside what.
What has been read from a text is read back exactly if no gap of the text is held; so it is if the
text consists of notes, rests and holds. -/
theorem text_readsBack (name : String) :
    (∀ tokens : List String, (∀ token ∈ tokens, isNoteToken token.toList = true ∨ token = ".") →
      readSteps (ofTokens name tokens).text = tokens) ∧
    (∀ text : String, readSteps (ofTokens name (readSteps text)).text = readSteps text ↔
      Unheld (rawTokens text.toList)) ∧
    ∀ pieces : List String,
      (∀ piece ∈ pieces, isNoteToken piece.toList = true ∨ piece = "." ∨ piece = "-") →
      readSteps (ofTokens name (readSteps (String.join pieces))).text
        = readSteps (String.join pieces) := by
  refine ⟨fun tokens htokens => ?_, readSteps_text_readSteps_iff name, fun pieces hpieces => ?_⟩
  · have hsteps : (ofTokens name tokens).steps.map Step.token = tokens :=
      map_token_ofTokens name tokens
    rw [readSteps_text (List.forall_mem_map.mp (hsteps.symm ▸ htokens)), hsteps]
  · have htokens : ∀ token ∈ pieces.map String.toList, IsToken token :=
      List.forall_mem_map.mpr fun piece hpiece =>
        (hpieces piece hpiece).imp_right (Or.imp (congrArg String.toList) (congrArg String.toList))
    rw [readSteps_text_readSteps_iff, String.toList_join, List.flatMap_def,
      rawTokens_flatten htokens]
    exact unheld_of_forall_isToken htokens

/-- Notes on the letter of a flat, and a held note, are read back; a held gap is not. -/
theorem flats_readBack :
    readSteps (ofTokens "flats" ["b4", "Bb7", ".", "bb4", "Ab1"]).text
      = ["b4", "Bb7", ".", "bb4", "Ab1"] ∧
    readSteps (ofTokens "flats" (readSteps (String.join ["-", "Bb7", "-", "b4", "-"]))).text
      = [".", "Bb7", "Bb7", "b4", "b4"] ∧
    readSteps (ofTokens "flats" (readSteps "Bb-")).text ≠ readSteps "Bb-" := by
  obtain ⟨hnotes, hback, htexts⟩ := text_readsBack "flats"
  refine ⟨hnotes _ (by decide), (htexts _ (by decide)).trans (by decide +kernel), ?_⟩
  rw [ne_eq, hback]
  decide +kernel

end Chiptune.Pattern
