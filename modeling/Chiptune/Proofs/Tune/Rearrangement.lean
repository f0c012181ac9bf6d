import Chiptune.Proofs.Record.Stanza

/-!
# Rearranging a text

A tune is assembled kind by kind, so that records of different kinds can be moved past each other.
A text can therefore give its stanzas in any order in which those of a kind stay in theirs, and lay
them out in any way: it describes the same tune or has the same fault. A phrase may stand before the
instruments and patterns that it uses.

* `Tune.assemble_congr`, records in another order;
* `Tune.ofText_ignoresLayout`, stanzas in another order and layout.
-/

namespace Chiptune

namespace Tune

/-- Of the order of records only that among records of one kind matters. -/
theorem assemble_congr {records records' : List Record}
    (h : ∀ kind, Record.ofKind kind records = Record.ofKind kind records') :
    assemble records = assemble records' := by
  unfold assemble Record.single
  simp only [h]

theorem ofKind_map_stanzas (kind : RecordKind) (stanzas : List Stanza) :
    Record.ofKind kind (stanzas.map fun stanza => stanza.block.record)
      = (stanzas.filter (·.kind = kind)).map fun stanza => stanza.block.record :=
  List.filter_map

/-- Texts that consist of the same stanzas describe the same tune or have the same fault, however
they are laid out, and in whatever order the stanzas stand as long as those of a kind stay in
theirs. -/
theorem ofText_ignoresLayout {text text' : String} {stanzas stanzas' : List Stanza}
    (h : Stanza.Compose stanzas text) (h' : Stanza.Compose stanzas' text')
    (hkinds : ∀ kind, stanzas.filter (·.kind = kind) = stanzas'.filter (·.kind = kind)) :
    (ofText text).result = (ofText text').result := by
  rw [ofText_result, ofText_result, Stanza.bareRecords_of_compose h,
    Stanza.bareRecords_of_compose h']
  refine congrArg Report.result (assemble_congr fun kind => ?_)
  rw [ofKind_map_stanzas, ofKind_map_stanzas, hkinds]

/-- A text with one stanza of each kind. -/
def orderedText : String :=
  "tune demo\nsequence a\ninstrument lead\n  tone square\npattern once C6.\nphrase a\n" ++
  "  tempo 100000\n  beats 1\n  subbeats 2\n  melodies\n    lead once\n"

/-- The same stanzas, the phrase first and the name of the tune last. -/
def scatteredText : String :=
  "\n\tphrase a\r\ntempo\t100000 \r\n\r\n beats 1\n subbeats   2\nmelodies\nlead\tonce\n" ++
  "sequence a\npattern   once C6.\n \n\ninstrument lead\r\n\ttone square\r\ntune demo"

theorem scatteredText_ignoresLayout : ∃ tune, (ofText orderedText).result = .ok tune ∧
    (ofText scatteredText).result = .ok tune := by
  let title : Stanza := ⟨.tune, ["demo"], [], by decide⟩
  let order : Stanza := ⟨.sequence, ["a"], [], by decide⟩
  let lead : Stanza := ⟨.instrument, ["lead"], [["tone", "square"]], by decide⟩
  let once : Stanza := ⟨.pattern, ["once", "C6."], [], by decide⟩
  let phrase : Stanza := ⟨.phrase, ["a"], [["tempo", "100000"], ["beats", "1"], ["subbeats", "2"],
    ["melodies"], ["lead", "once"]], by decide⟩
  have hordered : Stanza.Compose [title, order, lead, once, phrase] orderedText :=
    ⟨_, Text.shows_page _, by decide +kernel⟩
  have hscattered : Stanza.Compose [phrase, order, once, lead, title] scatteredText :=
    ⟨_, Text.shows_page _, by decide +kernel⟩
  have hkinds : ∀ kind, [title, order, lead, once, phrase].filter (·.kind = kind)
      = [phrase, order, once, lead, title].filter (·.kind = kind) := by
    intro kind
    cases kind <;> rfl
  have hsame := ofText_ignoresLayout hordered hscattered hkinds
  have hok : (ofText orderedText).result.toOption.isSome = true := by decide +kernel
  obtain ⟨tune, htune⟩ := exists_eq_ok hok
  exact ⟨tune, htune, hsame ▸ htune⟩

end Tune

end Chiptune
