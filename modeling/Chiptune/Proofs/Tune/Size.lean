import Chiptune.Proofs.Phrase.Length
import Chiptune.Proofs.Tune.Concatenation
import Chiptune.Proofs.Tune.Layout
import Chiptune.Proofs.Tune.Links

/-!
# How long a tune can be

The length of a tune is a 64-bit count. The text of a tune gives each of its phrases less than
`2 ^ 32` beats, so the sum over the sequence stays below `2 ^ 64` up to 6241 names, whatever they
stand for. One name more is enough to go past it: then the count wraps around.

* `Tune.LinkedTo.timed`, the settings of the phrases of a text;
* `Tune.sum_frameCount_le`, the sum over a sequence;
* `Tune.ofText_size`, lengths that are exact, and `Tune.ofText_wraps`, one that is not.
-/

namespace Chiptune.Tune

/-- The settings of every phrase of a text are positive 32-bit numbers. -/
theorem LinkedTo.timed {records : List Record} {tune : Tune} (h : tune.LinkedTo records)
    {name : String} {phrase : Phrase} (hphrase : tune.phrases.get? name = some phrase) :
    phrase.tempo ≠ 0 ∧ phrase.Within32Bits := by
  obtain ⟨-, record, -, hlinks⟩ := h.phrases name phrase hphrase
  exact ⟨Nat.one_le_iff_ne_zero.mp hlinks.tempo.pos,
    hlinks.tempo.lt, hlinks.beats.lt, hlinks.subbeats.lt⟩

/-- The phrases of a sequence are phrases of the tune. -/
theorem exists_get?_of_mem_sequenced {tune : Tune} {phrases : List Phrase}
    (h : tune.sequenced = .ok phrases) {phrase : Phrase} (hphrase : phrase ∈ phrases) :
    ∃ name, tune.phrases.get? name = some phrase := by
  have hmap := sequenced_eq_ok.mp h
  have hmem : some phrase ∈ tune.sequence.map tune.phrases.get? :=
    hmap ▸ List.mem_map_of_mem hphrase
  obtain ⟨name, -, hname⟩ := List.mem_map.mp hmem
  exact ⟨name, hname⟩

theorem length_sequenced {tune : Tune} {phrases : List Phrase} (h : tune.sequenced = .ok phrases) :
    phrases.length = tune.sequence.length := by
  have hmap := congrArg List.length (sequenced_eq_ok.mp h)
  rw [List.length_map, List.length_map] at hmap
  exact hmap.symm

/-- A tune has at most `688080` frames for each of its beats. -/
theorem sum_frameCount_le {phrases : List Phrase}
    (h : ∀ phrase ∈ phrases, phrase.tempo ≠ 0 ∧ phrase.Within32Bits) :
    (phrases.map Phrase.frameCount).sum ≤ 688080 * (phrases.map Phrase.beats).sum := by
  induction phrases with
  | nil => exact Nat.zero_le _
  | cons phrase phrases ih =>
    obtain ⟨⟨htempo, hsettings⟩, hrest⟩ := List.forall_mem_cons.mp h
    have hphrase := Phrase.frameCount_le htempo hsettings
    have hphrases := ih hrest
    rw [List.map_cons, List.map_cons, List.sum_cons, List.sum_cons]
    omega

theorem sum_beats_le {phrases : List Phrase} (h : ∀ phrase ∈ phrases, phrase.Within32Bits) :
    (phrases.map Phrase.beats).sum ≤ phrases.length * (2 ^ 32 - 1) := by
  induction phrases with
  | nil => exact Nat.zero_le _
  | cons phrase phrases ih =>
    obtain ⟨hphrase, hrest⟩ := List.forall_mem_cons.mp h
    have hbeats := hphrase.beats_lt
    have hphrases := ih hrest
    rw [List.map_cons, List.sum_cons, List.length_cons, Nat.succ_mul]
    omega

/-! ## The longest measure -/

/-- The longest measure there is: one beat a minute, and as many beats as can be given. -/
def slowPhrase : Phrase := ⟨"a", 1, 4294967295, 1, []⟩

/-- A tune that plays the longest measure a number of times. -/
def slowSheet (times : ℕ) : Sheet := ⟨"slow", List.replicate times "a", [], [], [slowPhrase]⟩

theorem frameCount_slowPhrase : slowPhrase.frameCount = 2955281096343600 := by decide +kernel

theorem fits_slowPhrase (times : ℕ) : (slowSheet times).Fits slowPhrase where
  name := by decide
  tempo := ⟨by norm_num [slowPhrase], by norm_num [slowPhrase]⟩
  beats := ⟨by norm_num [slowPhrase], by norm_num [slowPhrase]⟩
  subbeats := ⟨by norm_num [slowPhrase], by norm_num [slowPhrase]⟩
  instruments := fun _ hmelody => absurd hmelody List.not_mem_nil
  patterns := fun _ hmelody => absurd hmelody List.not_mem_nil
  grid := fun _ hmelody => absurd hmelody List.not_mem_nil

theorem wellFormed_slowSheet (times : ℕ) : (slowSheet times).WellFormed where
  name := (by decide : IsName "slow")
  instruments := fun _ hinstrument => absurd hinstrument List.not_mem_nil
  patterns := fun _ hpattern => absurd hpattern List.not_mem_nil
  phrases := List.forall_mem_singleton.mpr (fits_slowPhrase times)
  instrumentNames := List.nodup_nil
  patternNames := List.nodup_nil
  phraseNames := List.nodup_singleton "a"
  sequence := fun name hname => by
    rw [List.eq_of_mem_replicate hname]
    exact List.mem_singleton.mpr rfl

/-- The text of the tune is accepted. -/
theorem ofText_slowSheet (times : ℕ) :
    (ofText (slowSheet times).text).result = .ok (slowSheet times).tune := by
  have h := wellFormed_slowSheet times
  have hlist : (slowSheet times).sequenceParagraph.block.record.list = List.replicate times "a" :=
    List.filter_eq_self.mpr fun name hname => by
      rw [List.eq_of_mem_replicate hname]
      decide
  have hname : (slowSheet times).titleParagraph.block.record.name = "slow" := by
    refine (Row.joinedTail_line _).trans ?_
    simp [Sheet.titleParagraph, Paragraph.heading, String.join_cons, slowSheet]
  rw [ofText_result, Sheet.text, bareRecords_text (Sheet.clean_paragraphs h)]
  refine assemble_eq_ok.mpr ⟨_, _, _, Sheet.define_instruments h, Sheet.define_patterns h,
    Sheet.define_phrases h, conclude_eq_ok.mpr ⟨(slowSheet times).sequenceParagraph.block.record,
      (slowSheet times).titleParagraph.block.record, rfl, ?_, rfl, ?_, ?_⟩⟩
  · rw [hlist]
    intro name hname
    rw [List.eq_of_mem_replicate hname]
    rfl
  · rw [hname]
    decide
  · rw [hname, hlist]
    rfl

theorem sequenced_slowSheet (times : ℕ) :
    (slowSheet times).tune.sequenced = .ok (List.replicate times slowPhrase) := by
  refine sequenced_eq_ok.mpr ?_
  show (List.replicate times "a").map _ = _
  rw [List.map_replicate, List.map_replicate]
  rfl

/-! ## The tune of a text -/

/-- Every tune of a text has a length, which is right modulo `2 ^ 64`. It is the sum over the
sequence, and the duration is that of the sum, if the beats of the sequence or its length keep the
sum below `2 ^ 64`. -/
theorem ofText_size {text : String} {tune : Tune} (h : (ofText text).result = .ok tune) :
    ∃ phrases, tune.sequenced = .ok phrases ∧
      tune.frameCount = .ok ((phrases.map Phrase.frameCount).sum % UInt64.size) ∧
      (688080 * (phrases.map Phrase.beats).sum < UInt64.size ∨ tune.sequence.length ≤ 6241 →
        (phrases.map Phrase.frameCount).sum < UInt64.size ∧
        tune.frameCount = .ok (phrases.map Phrase.frameCount).sum ∧
        tune.duration
          = .ok (asFloat (phrases.map Phrase.frameCount).sum / asFloat sampleRate)) := by
  obtain ⟨records, -, hassemble⟩ := ofText_eq_ok.mp h
  have hlinked := assemble_linkedTo hassemble
  obtain ⟨phrases, hphrases⟩ := exists_sequenced fun name hname =>
    Catalog.contains_iff.mpr (hlinked.resolved name hname)
  have hcount : tune.frameCount = .ok ((phrases.map Phrase.frameCount).sum % UInt64.size) :=
    frameCount_eq_ok.mpr ⟨phrases, hphrases, rfl⟩
  have htimed : ∀ phrase ∈ phrases, phrase.tempo ≠ 0 ∧ phrase.Within32Bits := by
    intro phrase hphrase
    obtain ⟨name, hname⟩ := exists_get?_of_mem_sequenced hphrases hphrase
    exact hlinked.timed hname
  refine ⟨phrases, hphrases, hcount, fun hshort => ?_⟩
  have hbeats : 688080 * (phrases.map Phrase.beats).sum < UInt64.size := by
    rcases hshort with hbeats | hlength
    · exact hbeats
    · have hsum := sum_beats_le fun phrase hphrase => (htimed phrase hphrase).2
      rw [length_sequenced hphrases] at hsum
      have hlongest : tune.sequence.length * (2 ^ 32 - 1) ≤ 6241 * (2 ^ 32 - 1) :=
        Nat.mul_le_mul_right _ hlength
      rw [UInt64.size]
      omega
  have hbelow := (sum_frameCount_le htimed).trans_lt hbeats
  rw [Nat.mod_eq_of_lt hbelow] at hcount
  refine ⟨hbelow, hcount, ?_⟩
  rw [duration, hcount]
  rfl

/-- The longest measure can be played 6241 times. -/
theorem slowSheet_size : (ofText (slowSheet 6241).text).result = .ok (slowSheet 6241).tune ∧
    (slowSheet 6241).tune.frameCount = .ok 18443909322280407600 := by
  have hload := ofText_slowSheet 6241
  obtain ⟨phrases, hphrases, -, hexact⟩ := ofText_size hload
  obtain rfl := Except.ok.inj (hphrases.symm.trans (sequenced_slowSheet 6241))
  obtain ⟨-, hcount, -⟩ := hexact (Or.inr List.length_replicate.le)
  rw [List.map_replicate, List.sum_replicate_nat, frameCount_slowPhrase] at hcount
  exact ⟨hload, hcount⟩

/-- With one name more the length of a tune wraps around. -/
theorem ofText_wraps : ∃ text tune phrases, (ofText text).result = .ok tune ∧
    tune.sequence.length = 6242 ∧ tune.sequenced = .ok phrases ∧
    (phrases.map Phrase.frameCount).sum = 18446864603376751200 ∧
    tune.frameCount = .ok 120529667199584 := by
  have hsum : ((List.replicate 6242 slowPhrase).map Phrase.frameCount).sum
      = 18446864603376751200 := by
    rw [List.map_replicate, List.sum_replicate_nat, frameCount_slowPhrase]
  refine ⟨_, _, _, ofText_slowSheet 6242, List.length_replicate, sequenced_slowSheet 6242, hsum,
    frameCount_eq_ok.mpr ⟨_, sequenced_slowSheet 6242, ?_⟩⟩
  rw [hsum]
  decide

end Chiptune.Tune
