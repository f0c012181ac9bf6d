import Chiptune.Proofs.Pattern.Token
import Mathlib.Data.List.Chain
import Mathlib.Data.List.Infix

/-!
# Which tokens a text is cut into

The cut of a text is said without the scan: the tokens spell the text, none of them is empty, and
what is neither a note nor a marker is a gap, in which no note or marker begins and after which no
other gap follows. A text has exactly one such cut, and it is the one that the scan finds. Holding
then gives every step the last token at or before it that is not a hold.

* `isCut_iff`, the cut of a text;
* `Sustains` and `sustains_hold`, the token of every step;
* `stepTokens_cut`, both together.
-/

namespace Chiptune.Pattern

/-- A note, a rest or a hold. -/
def IsToken (token : List Char) : Prop :=
  isNoteToken token = true ∨ token = restToken ∨ token = holdToken

/-- What is none of them. -/
def IsGap (token : List Char) : Prop := ¬ IsToken token

/-- A cut of a text into tokens and gaps. -/
structure IsCut (text : List Char) (raw : List (List Char)) : Prop where
  /-- No character is lost. -/
  flatten_eq : raw.flatten = text
  ne_nil : ∀ token ∈ raw, token ≠ []
  /-- No two gaps are adjacent. -/
  separated : raw.IsChain fun a b => ¬ (IsGap a ∧ IsGap b)
  /-- No gap holds a marker. -/
  unmarked : ∀ gap ∈ raw, IsGap gap → '.' ∉ gap ∧ '-' ∉ gap
  /-- No note of the text begins within a gap. -/
  leftmost : ∀ before gap after, raw = before ++ gap :: after → IsGap gap →
    ∀ i, before.flatten.length ≤ i → i < before.flatten.length + gap.length →
      ∀ note, isNoteToken note = true → ¬ note <+: text.drop i

/-- No token begins within `gap` when `rest` follows it. -/
def Clear (gap rest : List Char) : Prop :=
  ∀ i < gap.length, ∀ token, IsToken token → ¬ token <+: gap.drop i ++ rest

theorem IsToken.ne_nil {token : List Char} (h : IsToken token) : token ≠ [] := by
  rintro rfl
  exact absurd h (by unfold IsToken; decide)

theorem isToken_singleton {c : Char} (h : isMarker c = true) : IsToken [c] := by
  rw [isMarker, Bool.or_eq_true, decide_eq_true_iff, decide_eq_true_iff] at h
  rcases h with rfl | rfl
  · exact Or.inr (Or.inl rfl)
  · exact Or.inr (Or.inr rfl)

/-! ## The scan -/

/-- A character at which no token begins goes to the gap in progress. -/
theorem cut_cons_of_no_token (gap : List Char) {c : Char} {cs : List Char}
    (h : ∀ token, IsToken token → ¬ token <+: c :: cs) :
    cut gap (c :: cs) = cut (c :: gap) cs := by
  have hmarker : isMarker c = false := by
    by_contra hc
    exact h [c] (isToken_singleton (by simpa using hc)) ⟨cs, rfl⟩
  have hnote : ∀ token, isNoteToken token = true → ¬ token <+: c :: cs :=
    fun token htoken => h token (Or.inl htoken)
  rw [cut.eq_def]
  simp only [hmarker, Bool.false_eq_true, if_false]
  split_ifs with hletter
  · cases cs with
    | nil => rfl
    | cons d ds =>
      have hdigit : Text.isDecimalDigit d = false := by
        by_contra hd
        exact hnote [c, d] (by simp [isNoteToken, hletter, hd]) ⟨ds, rfl⟩
      simp only [hdigit, Bool.false_eq_true, if_false]
      split_ifs with haccidental
      · cases ds with
        | nil => rfl
        | cons e es =>
          have hdigit' : Text.isDecimalDigit e = false := by
            by_contra he
            exact hnote [c, d, e] (by simp [isNoteToken, hletter, haccidental, he]) ⟨es, rfl⟩
          simp only [hdigit', Bool.false_eq_true, if_false]
      · rfl
  · rfl

theorem Clear.of_cons {c : Char} {gap rest : List Char} (h : Clear (c :: gap) rest) :
    Clear gap rest :=
  fun i hi => h (i + 1) (Nat.succ_lt_succ hi)

/-- A clear stretch goes to the gap in progress. -/
theorem cut_append_of_clear (gap : List Char) {skipped rest : List Char}
    (h : Clear skipped rest) : cut gap (skipped ++ rest) = cut (skipped.reverse ++ gap) rest := by
  induction skipped generalizing gap with
  | nil => rfl
  | cons c skipped ih =>
    have hc : ∀ token, IsToken token → ¬ token <+: c :: (skipped ++ rest) :=
      h 0 (Nat.succ_pos _)
    rw [List.cons_append, cut_cons_of_no_token gap hc, ih (c :: gap) h.of_cons,
      List.reverse_cons, List.append_assoc, List.singleton_append]

/-- At the end of a text and before a token the gap in progress is closed. -/
theorem cut_eq_closeGap (gap : List Char) {rest : List Char}
    (h : rest = [] ∨ ∃ token after, IsToken token ∧ rest = token ++ after) :
    cut gap rest = closeGap gap (rawTokens rest) := by
  rcases h with rfl | ⟨token, after, htoken, rfl⟩
  · rfl
  · rw [rawTokens, cut_token gap after htoken, cut_token [] after htoken]
    rfl

/-! ## Cuts -/

theorem isCut_nil : IsCut [] [] where
  flatten_eq := rfl
  ne_nil := fun _ h => absurd h List.not_mem_nil
  separated := List.isChain_nil
  unmarked := fun _ h => absurd h List.not_mem_nil
  leftmost := fun before gap after h => absurd h (by simp)

/-- In a gap of a cut no token begins. -/
theorem IsCut.clear {gap rest : List Char} {raw : List (List Char)}
    (h : IsCut (gap ++ rest) (gap :: raw)) (hgap : IsGap gap) : Clear gap rest := by
  intro i hi token htoken hprefix
  have hdrop : (gap ++ rest).drop i = gap.drop i ++ rest := List.drop_append_of_le_length hi.le
  obtain ⟨hrest, hhold⟩ := h.unmarked gap List.mem_cons_self hgap
  have hmarker : ∀ c, [c] <+: gap.drop i ++ rest → c ∈ gap := by
    intro c hc
    rw [List.drop_eq_getElem_cons hi, List.cons_append, List.cons_prefix_cons] at hc
    rw [hc.1]
    exact List.getElem_mem hi
  rcases htoken with hnote | rfl | rfl
  · exact h.leftmost [] gap raw rfl hgap i (Nat.zero_le i) (by simpa using hi) token hnote
      (hdrop ▸ hprefix)
  · exact hrest (hmarker '.' hprefix)
  · exact hhold (hmarker '-' hprefix)

/-- A cut without its first token. -/
theorem IsCut.of_cons {token rest : List Char} {raw : List (List Char)}
    (h : IsCut (token ++ rest) (token :: raw)) : IsCut rest raw where
  flatten_eq := List.append_cancel_left h.flatten_eq
  ne_nil := fun t ht => h.ne_nil t (List.mem_cons_of_mem token ht)
  separated := h.separated.tail
  unmarked := fun gap hgap => h.unmarked gap (List.mem_cons_of_mem token hgap)
  leftmost := by
    rintro before gap after rfl hgap i hlo hhi note hnote
    have hdrop : (token ++ rest).drop (token.length + i) = rest.drop i :=
      List.drop_length_add_append i
    have hflatten : (token :: before).flatten.length = token.length + before.flatten.length := by
      rw [List.flatten_cons, List.length_append]
    rw [← hdrop]
    exact h.leftmost (token :: before) gap after rfl hgap (token.length + i) (by omega) (by omega)
      note hnote

/-- A token or a gap put before a cut. -/
theorem IsCut.cons {token rest : List Char} {raw : List (List Char)} (h : IsCut rest raw)
    (htoken : token ≠ [])
    (hgap : IsGap token → Clear token rest ∧ ∀ next ∈ raw.head?, ¬ IsGap next) :
    IsCut (token ++ rest) (token :: raw) where
  flatten_eq := by rw [List.flatten_cons, h.flatten_eq]
  ne_nil := List.forall_mem_cons.mpr ⟨htoken, h.ne_nil⟩
  separated := by
    rw [List.isChain_cons]
    exact ⟨fun next hnext hboth => (hgap hboth.1).2 next hnext hboth.2, h.separated⟩
  unmarked := by
    refine List.forall_mem_cons.mpr ⟨fun hstray => ?_, h.unmarked⟩
    have hclear := (hgap hstray).1
    have hmarker : ∀ c, isMarker c = true → c ∉ token := by
      intro c hc hmem
      obtain ⟨i, hi, rfl⟩ := List.getElem_of_mem hmem
      refine hclear i hi [token[i]] (isToken_singleton hc) ?_
      rw [List.drop_eq_getElem_cons hi]
      exact ⟨_, rfl⟩
    exact ⟨hmarker '.' rfl, hmarker '-' rfl⟩
  leftmost := by
    intro before gap after hraw hstray i hlo hhi note hnote
    cases before with
    | nil =>
      obtain ⟨rfl, rfl⟩ := List.cons.inj hraw
      have hi : i < token.length := by simpa using hhi
      rw [List.drop_append_of_le_length hi.le]
      exact (hgap hstray).1 i hi note (Or.inl hnote)
    | cons first before =>
      obtain ⟨rfl, rfl⟩ := List.cons.inj hraw
      rw [List.flatten_cons, List.length_append] at hlo hhi
      obtain ⟨k, rfl⟩ := Nat.exists_eq_add_of_le (Nat.le_of_add_right_le hlo)
      rw [List.drop_length_add_append]
      exact h.leftmost before gap after rfl hstray k (by omega) (by omega) note hnote

/-- A clear stretch before the end or a token is a gap of its own. -/
theorem IsCut.closing {gap rest : List Char} {raw : List (List Char)} (h : IsCut rest raw)
    (hclear : Clear gap.reverse rest) (hhead : ∀ next ∈ raw.head?, ¬ IsGap next) :
    IsCut (gap.reverse ++ rest) (closeGap gap raw) := by
  cases gap with
  | nil => exact h
  | cons c gap =>
    have hne : (c :: gap).reverse ≠ [] := by simp
    exact h.cons hne fun _ => ⟨hclear, hhead⟩

/-- The scan finds a cut, whatever clear stretch it has seen. -/
theorem isCut_cut (gap text : List Char) (hclear : Clear gap.reverse text) :
    IsCut (gap.reverse ++ text) (cut gap text) := by
  -- on the length of the text: a token at its front is cut off, else one character is skipped
  induction hn : text.length using Nat.strong_induction_on generalizing gap text with
  | _ n ih =>
    by_cases hfront : ∃ token after, IsToken token ∧ text = token ++ after
    · obtain ⟨token, after, htoken, rfl⟩ := hfront
      have hshorter : after.length < n := by
        have := List.length_pos_iff.mpr htoken.ne_nil
        rw [List.length_append] at hn
        omega
      have hafter : IsCut after (cut [] after) :=
        ih after.length hshorter [] after (fun i hi => absurd hi (Nat.not_lt_zero i)) rfl
      rw [cut_token gap after htoken]
      refine (hafter.cons htoken.ne_nil fun hgap => absurd htoken hgap).closing hclear ?_
      intro next hnext
      rw [List.head?_cons, Option.mem_some_iff] at hnext
      exact not_not.mpr (hnext ▸ htoken)
    · have hnone : ∀ token, IsToken token → ¬ token <+: text := by
        rintro token htoken ⟨after, rfl⟩
        exact hfront ⟨token, after, htoken, rfl⟩
      cases text with
      | nil => exact isCut_nil.closing hclear fun next hnext => absurd hnext (by simp)
      | cons c cs =>
        have hgap : (c :: gap).reverse ++ cs = gap.reverse ++ c :: cs := by simp
        have hlonger : Clear (c :: gap).reverse cs := by
          intro i hi token htoken
          rw [List.reverse_cons, List.length_append, List.length_singleton] at hi
          rw [List.reverse_cons]
          rcases Nat.lt_succ_iff_lt_or_eq.mp hi with hi | rfl
          · rw [List.drop_append_of_le_length hi.le, List.append_assoc, List.singleton_append]
            exact hclear i hi token htoken
          · rw [List.drop_left, List.singleton_append]
            exact hnone token htoken
        rw [cut_cons_of_no_token gap hnone, ← hgap]
        exact ih cs.length (by rw [← hn]; simp) (c :: gap) cs hlonger rfl

/-- A cut that goes on with no gap is that of the empty text or begins with a token. -/
theorem IsCut.eq_nil_or_token {rest : List Char} {raw : List (List Char)} (h : IsCut rest raw)
    (hhead : ∀ next ∈ raw.head?, ¬ IsGap next) :
    rest = [] ∨ ∃ token after, IsToken token ∧ rest = token ++ after := by
  cases raw with
  | nil => exact Or.inl h.flatten_eq.symm
  | cons token raw =>
    exact Or.inr ⟨token, raw.flatten, not_not.mp (hhead token rfl), h.flatten_eq.symm⟩

/-- Every cut is the one that the scan finds. -/
theorem IsCut.eq_rawTokens {text : List Char} {raw : List (List Char)} (h : IsCut text raw) :
    raw = rawTokens text := by
  induction raw generalizing text with
  | nil =>
    rw [← h.flatten_eq]
    rfl
  | cons token raw ih =>
    obtain rfl : token ++ raw.flatten = text := h.flatten_eq
    have hrest : IsCut raw.flatten raw := h.of_cons
    by_cases htoken : IsToken token
    · rw [rawTokens, cut_token [] _ htoken]
      exact congrArg (token :: ·) (ih hrest)
    · have hhead : ∀ next ∈ raw.head?, ¬ IsGap next := fun next hnext hgap =>
        (List.isChain_cons.mp h.separated).1 next hnext ⟨htoken, hgap⟩
      have hne : token.reverse.isEmpty = false := by
        rw [List.isEmpty_eq_false_iff]
        exact List.reverse_eq_nil_iff.not.mpr (h.ne_nil token List.mem_cons_self)
      rw [rawTokens, cut_append_of_clear [] (h.clear htoken), List.append_nil,
        cut_eq_closeGap _ (hrest.eq_nil_or_token hhead), closeGap, hne, List.reverse_reverse]
      exact congrArg (token :: ·) (ih hrest)

/-- What the scan finds is a cut. -/
theorem isCut_rawTokens (text : List Char) : IsCut text (rawTokens text) :=
  isCut_cut [] text fun i hi => absurd hi (Nat.not_lt_zero i)

/-- A text has one cut, and it is the one that the scan finds. -/
theorem isCut_iff {text : List Char} {raw : List (List Char)} :
    IsCut text raw ↔ raw = rawTokens text := by
  constructor
  · exact IsCut.eq_rawTokens
  · rintro rfl
    exact isCut_rawTokens text

/-! ## Holds -/

/-- `token` is the last one of `raw` at or before place `i` that is not a hold, or `previous` if
all of them are holds. -/
def Sustains (previous : List Char) (raw : List (List Char)) (i : ℕ) (token : List Char) : Prop :=
  (∃ j ≤ i, raw[j]? = some token ∧ token ≠ holdToken ∧
      ∀ k, j < k → k ≤ i → raw[k]? = some holdToken) ∨
    (token = previous ∧ ∀ k ≤ i, raw[k]? = some holdToken)

theorem length_hold (previous : List Char) (raw : List (List Char)) :
    (hold previous raw).length = raw.length := by
  induction raw generalizing previous with
  | nil => rfl
  | cons token raw ih => exact congrArg (· + 1) (ih _)

/-- After a token the next ones hold it until another one comes. -/
theorem Sustains.succ {previous first token : List Char} {raw : List (List Char)} {i : ℕ}
    (h : Sustains (if first = holdToken then previous else first) raw i token) :
    Sustains previous (first :: raw) (i + 1) token := by
  rcases h with ⟨j, hj, hraw, hne, hbetween⟩ | ⟨rfl, hall⟩
  · refine Or.inl ⟨j + 1, Nat.succ_le_succ hj, hraw, hne, fun k hlo hhi => ?_⟩
    obtain ⟨k, rfl⟩ := Nat.exists_eq_succ_of_ne_zero (Nat.ne_zero_of_lt hlo)
    exact hbetween k (Nat.lt_of_succ_lt_succ hlo) (Nat.le_of_succ_le_succ hhi)
  · split_ifs with hfirst
    · refine Or.inr ⟨rfl, fun k hk => ?_⟩
      cases k with
      | zero => exact congrArg some hfirst
      | succ k => exact hall k (Nat.le_of_succ_le_succ hk)
    · refine Or.inl ⟨0, Nat.zero_le _, rfl, hfirst, fun k hlo hhi => ?_⟩
      obtain ⟨k, rfl⟩ := Nat.exists_eq_succ_of_ne_zero (Nat.ne_zero_of_lt hlo)
      exact hall k (Nat.le_of_succ_le_succ hhi)

/-- Every step has the token that it sustains. -/
theorem sustains_hold (previous : List Char) (raw : List (List Char)) (i : ℕ)
    (hi : i < (hold previous raw).length) : Sustains previous raw i (hold previous raw)[i] := by
  induction raw generalizing previous i with
  | nil => exact absurd hi (Nat.not_lt_zero i)
  | cons token raw ih =>
    cases i with
    | zero =>
      show Sustains previous (token :: raw) 0 (if token = holdToken then previous else token)
      split_ifs with htoken
      · exact Or.inr ⟨rfl, fun k hk => by rw [Nat.le_zero.mp hk, htoken]; rfl⟩
      · exact Or.inl ⟨0, le_rfl, rfl, htoken, fun k hlo hhi => absurd hlo (by omega)⟩
    | succ i => exact (ih _ i (Nat.lt_of_succ_lt_succ hi)).succ

/-- What a step sustains is not empty if no token is. -/
theorem Sustains.ne_nil {previous token : List Char} {raw : List (List Char)} {i : ℕ}
    (h : Sustains previous raw i token) (hprevious : previous ≠ []) (hraw : ∀ t ∈ raw, t ≠ []) :
    token ≠ [] := by
  rcases h with ⟨j, -, hj, -⟩ | ⟨rfl, -⟩
  · exact hraw token (List.mem_of_getElem? hj)
  · exact hprevious

/-! ## The steps of a text -/

/-- A text has one cut into tokens and gaps; the steps of the text are as many, each with the last
of them at or before its place that is not a hold, or a rest if there is none. None of the steps is
a hold or empty. -/
theorem stepTokens_cut (text : List Char) :
    ∃ raw, (∀ other, IsCut text other ↔ other = raw) ∧
      (stepTokens text).length = raw.length ∧
      (∀ i (hi : i < (stepTokens text).length),
        Sustains restToken raw i (stepTokens text)[i]) ∧
      holdToken ∉ stepTokens text ∧ [] ∉ stepTokens text := by
  have hcut : IsCut text (rawTokens text) := isCut_iff.mpr rfl
  have hsustains : ∀ i (hi : i < (stepTokens text).length),
      Sustains restToken (rawTokens text) i (stepTokens text)[i] :=
    sustains_hold restToken (rawTokens text)
  refine ⟨rawTokens text, fun other => isCut_iff, length_hold _ _, hsustains,
    holdToken_notMem_stepTokens text, fun hmem => ?_⟩
  obtain ⟨i, hi, hnil⟩ := List.getElem_of_mem hmem
  exact (hsustains i hi).ne_nil (by decide) hcut.ne_nil hnil

end Chiptune.Pattern
