import Chiptune.Proofs.Record.Places

/-!
# The settings of a block

The settings of a block are collected line by line. What stands under a name afterwards is what the
last line with this first word says. In a phrase the lines from the first one on that opens the
melodies are not settings; elsewhere such a line is a setting like any other.

* `Block.get?_settings`, the line that gives a setting;
* `IsSetting` and `Block.StandsIn.mem_settingLines_iff`, the lines that give settings;
* `Block.StandsIn.mem_names_settings_iff` and `Block.StandsIn.get?_settings_eq`, names and values.
-/

namespace Chiptune

open Text

/-- A line that belongs to a heading and gives a setting: in a phrase it stands above the first line
that opens the melodies. -/
structure IsSetting (text : String) (number start : ℕ) : Prop where
  belongs : BelongsTo text number start
  early : headingAt? text start = some .phrase →
    ∀ k ≤ number, start < k → (wordsAt text k).head? ≠ some "melodies"

/-! ## Lines in order -/

namespace Line.InOrder

/-- The lines at the front that have a property: no line above them lacks it. -/
theorem mem_takeWhile_iff {lines : List Line} (h : InOrder lines) {p : Line → Bool} {line : Line} :
    line ∈ lines.takeWhile p ↔
      line ∈ lines ∧ ∀ l ∈ lines, l.number ≤ line.number → p l = true := by
  induction lines with
  | nil => exact ⟨nofun, fun h => h.1⟩
  | cons first lines ih =>
    obtain ⟨hfirst, hlines⟩ := List.pairwise_cons.mp h
    rw [List.takeWhile_cons]
    cases hp : p first with
    | false =>
      refine ⟨nofun, fun ⟨hline, hall⟩ => ?_⟩
      have hfront : p first = true := hall first List.mem_cons_self (h.number_le hline)
      exact absurd (hp.symm.trans hfront) Bool.false_ne_true
    | true =>
      rw [if_pos rfl, List.mem_cons, ih hlines, List.mem_cons, List.forall_mem_cons]
      constructor
      · rintro (rfl | ⟨hline, hall⟩)
        · exact ⟨Or.inl rfl, fun _ => hp, fun l hl hle => absurd (hfirst l hl) (by omega)⟩
        · exact ⟨Or.inr hline, fun _ => hp, hall⟩
      · rintro ⟨rfl | hline, -, hall⟩
        · exact Or.inl rfl
        · exact Or.inr ⟨hline, hall⟩

/-- The last line with a property is found from the end. -/
theorem find?_reverse {lines : List Line} (h : InOrder lines) {p : Line → Bool} {line : Line}
    (hline : line ∈ lines) (hp : p line = true)
    (hlast : ∀ l ∈ lines, line.number < l.number → p l = false) :
    lines.reverse.find? p = some line := by
  obtain ⟨above, below, rfl⟩ := List.append_of_mem hline
  obtain ⟨-, hbelow, -⟩ := List.pairwise_append.mp h
  have hnone : below.reverse.find? p = none := by
    refine List.find?_eq_none.mpr fun l hl => ?_
    have hl : l ∈ below := List.mem_reverse.mp hl
    rw [hlast l (List.mem_append_right _ (List.mem_cons_of_mem _ hl))
      (List.rel_of_pairwise_cons hbelow hl)]
    exact Bool.false_ne_true
  rw [List.reverse_append, List.reverse_cons, List.append_assoc, List.find?_append, hnone,
    Option.none_or, List.singleton_append, List.find?_cons_of_pos hp]

end Line.InOrder

/-! ## The line that gives a setting -/

namespace Block

theorem get?_foldl_put (lines : List Line) (found : Catalog String) (name : String) :
    (lines.foldl (fun found line => found.put line.head line.joinedTail) found).get? name
      = ((lines.reverse.find? (·.head = name)).map Line.joinedTail).or (found.get? name) := by
  induction lines generalizing found with
  | nil => rfl
  | cons line lines ih =>
    rw [List.foldl_cons, ih, Catalog.get?_put, List.reverse_cons, List.find?_append]
    cases lines.reverse.find? (·.head = name) with
    | some last => rfl
    | none =>
      rw [Option.none_or, List.find?_singleton]
      by_cases hname : line.head = name
      · rw [if_pos hname.symm, if_pos (decide_eq_true hname)]
        rfl
      · rw [if_neg (Ne.symm hname), if_neg (by simpa using hname)]

/-- Under a name stands what the last line with this first word gives. -/
theorem get?_settings (block : Block) (name : String) :
    block.settings.get? name
      = (block.settingLines.reverse.find? (·.head = name)).map Line.joinedTail := by
  rw [settings, get?_foldl_put]
  exact Option.or_none

theorem nodup_names_foldl_put (lines : List Line) {found : Catalog String}
    (h : found.names.Nodup) :
    (lines.foldl (fun found line => found.put line.head line.joinedTail) found).names.Nodup := by
  induction lines generalizing found with
  | nil => exact h
  | cons line lines ih => exact ih (Catalog.nodup_names_put h line.head line.joinedTail)

theorem nodup_names_settings (block : Block) : block.settings.names.Nodup :=
  nodup_names_foldl_put block.settingLines List.nodup_nil

namespace StandsIn

variable {text : String} {block : Block}

theorem inOrder_settingLines (h : block.StandsIn (Line.ofText text)) :
    Line.InOrder block.settingLines := by
  unfold settingLines
  split_ifs
  · exact h.inOrder_body.sublist (List.takeWhile_sublist _)
  · exact h.inOrder_body

/-- The lines of a block that give its settings. -/
theorem mem_settingLines_iff (h : block.StandsIn (Line.ofText text)) {line : Line} :
    line ∈ block.settingLines ↔
      line ∈ Line.ofText text ∧ IsSetting text line.number block.heading.number := by
  unfold settingLines
  split_ifs with hkind
  · rw [h.inOrder_body.mem_takeWhile_iff, h.mem_body_iff]
    constructor
    · rintro ⟨⟨hline, hbelongs⟩, hplain⟩
      refine ⟨hline, hbelongs, fun _ k hk hlt hopens => ?_⟩
      obtain ⟨l, hl, rfl, hhead⟩ := Line.exists_of_head? hopens
      have hbody : l ∈ block.body := h.mem_body_iff.mpr
        ⟨hl, hbelongs.heading, hlt, fun j hj => hbelongs.nearest j (hj.trans hk)⟩
      have hplain := hplain l hbody hk
      simp [opensMelodies, hhead] at hplain
    · rintro ⟨hline, hbelongs, hearly⟩
      refine ⟨⟨hline, hbelongs⟩, fun l hl hle => ?_⟩
      obtain ⟨hl, hbelow⟩ := h.mem_body_iff.mp hl
      have hplain := hearly (hkind ▸ h.headingAt?_heading) l.number hle hbelow.below
      rw [Line.wordsAt_number hl] at hplain
      simpa [opensMelodies, Line.words] using hplain
  · have hother : headingAt? text block.heading.number ≠ some .phrase := by
      rw [h.headingAt?_heading]
      exact fun hphrase => hkind (Option.some.inj hphrase)
    rw [h.mem_body_iff]
    exact and_congr_right fun _ =>
      ⟨fun hbelongs => ⟨hbelongs, fun hphrase => absurd hphrase hother⟩, IsSetting.belongs⟩

/-- The names of the settings are the first words of those lines. -/
theorem mem_names_settings_iff (h : block.StandsIn (Line.ofText text)) {name : String} :
    name ∈ block.settings.names ↔ ∃ number, IsSetting text number block.heading.number ∧
      (wordsAt text number).head? = some name := by
  rw [← Catalog.contains_iff, Catalog.contains, get?_settings, Option.isSome_map, List.find?_isSome]
  constructor
  · rintro ⟨line, hline, hname⟩
    obtain ⟨hmem, hsetting⟩ := h.mem_settingLines_iff.mp (List.mem_reverse.mp hline)
    refine ⟨line.number, hsetting, ?_⟩
    rw [Line.wordsAt_number hmem]
    exact congrArg some (of_decide_eq_true hname)
  · rintro ⟨number, hsetting, hname⟩
    obtain ⟨line, hmem, rfl, hhead⟩ := Line.exists_of_head? hname
    exact ⟨line, List.mem_reverse.mpr (h.mem_settingLines_iff.mpr ⟨hmem, hsetting⟩),
      decide_eq_true hhead⟩

/-- The value of a setting is what the last of those lines says after the name. -/
theorem get?_settings_eq (h : block.StandsIn (Line.ofText text)) {number : ℕ} {name : String}
    {rest : List String} (hsetting : IsSetting text number block.heading.number)
    (hwords : wordsAt text number = name :: rest)
    (hlast : ∀ k, number < k → IsSetting text k block.heading.number →
      (wordsAt text k).head? ≠ some name) :
    block.settings.get? name = some (String.join rest) := by
  obtain ⟨line, hmem, hline, rfl⟩ := Line.exists_ofText_iff.mpr ⟨hwords, List.cons_ne_nil _ _⟩
  obtain ⟨rfl, rfl⟩ := List.cons.inj hline
  have hfind := h.inOrder_settingLines.find?_reverse (p := fun l => l.head = line.head)
    (h.mem_settingLines_iff.mpr ⟨hmem, hsetting⟩) (decide_eq_true rfl) fun l hl hlt => by
      obtain ⟨hl, hlater⟩ := h.mem_settingLines_iff.mp hl
      have hother := hlast l.number hlt hlater
      rw [Line.wordsAt_number hl] at hother
      exact decide_eq_false fun hhead => hother (congrArg some hhead)
  rw [get?_settings, hfind]
  rfl

end StandsIn

end Block

end Chiptune
