import Chiptune.Proofs.Check
import Chiptune.Proofs.Numeral
import Chiptune.Proofs.Phrase.Placement
import Chiptune.Tune.Assembly

/-!
# What a record builds

A record builds an instrument with the settings whose words it gives, a pattern with the steps of
its list, and a phrase with one melody for each of its melody lines. Each of these is said without
regard to how the record is read.

* `instrument_eq_ok`, `melody_eq_ok` and `phrase_eq_ok`, what is built and when.
-/

namespace Chiptune

/-! ## Words -/

theorem Tone.ofWord?_eq_some {value : String} {tone : Tone} :
    ofWord? value = some tone ↔ tone.word = value := by
  constructor
  · unfold ofWord?
    split <;> rintro ⟨⟩ <;> rfl
  · rintro rfl
    cases tone <;> rfl

theorem Level.ofWord?_eq_some {value : String} {level : Level} :
    ofWord? value = some level ↔ level.word = value := by
  constructor
  · unfold ofWord?
    split <;> rintro ⟨⟩ <;> rfl
  · rintro rfl
    cases level <;> rfl

theorem Pan.ofWord?_eq_some {value : String} {pan : Pan} :
    ofWord? value = some pan ↔ pan.word = value := by
  constructor
  · unfold ofWord?
    split <;> rintro ⟨⟩ <;> rfl
  · rintro rfl
    cases pan <;> rfl

theorem Reverb.ofWord?_eq_some {value : String} {reverb : Reverb} :
    ofWord? value = Option.some reverb ↔ reverb.word = value := by
  constructor
  · unfold ofWord?
    split <;> rintro ⟨⟩ <;> rfl
  · rintro rfl
    cases reverb <;> rfl

namespace Record

/-! ## Instruments -/

/-- The words of an instrument are those that a record gives, or the defaults. -/
structure DefinesInstrument (record : Record) (instrument : Instrument) : Prop where
  name : instrument.name = record.name
  tone : instrument.tone.word = (record.setting? "tone").getD "sine"
  length : instrument.length.word = (record.setting? "length").getD "full"
  volume : instrument.volume.word = (record.setting? "volume").getD "full"
  pan : instrument.pan.word = (record.setting? "pan").getD "center"
  reverb : instrument.reverb.word = (record.setting? "reverb").getD "none"

/-- A setting is what its word stands for, or the default. -/
theorem choice_eq_ok {α : Type} [Inhabited α] {ofWord? : String → Option α} {word : α → String}
    (hword : ∀ {value : String} {a : α}, ofWord? value = some a ↔ word a = value)
    {record : Record} {setting : String} {a : α} :
    record.choice setting ofWord? = .ok a ↔
      word a = (record.setting? setting).getD (word default) := by
  rw [choice]
  cases record.setting? setting with
  | none =>
    rw [Option.getD_none, ← hword, hword.mpr rfl, Option.some_inj]
    exact ⟨fun h => Except.ok.inj h, fun h => congrArg _ h⟩
  | some value =>
    rw [Option.getD_some, ← hword]
    dsimp only
    cases ofWord? value with
    | none => exact ⟨nofun, nofun⟩
    | some b =>
      exact ⟨fun h => congrArg _ (Except.ok.inj h), fun h => congrArg _ (Option.some.inj h)⟩

theorem instrument_eq_ok {record : Record} {instrument : Instrument} :
    record.instrument = .ok instrument ↔ record.DefinesInstrument instrument := by
  rw [Record.instrument]
  simp only [bind_eq_ok, choice_eq_ok Tone.ofWord?_eq_some, choice_eq_ok Level.ofWord?_eq_some,
    choice_eq_ok Pan.ofWord?_eq_some, choice_eq_ok Reverb.ofWord?_eq_some]
  constructor
  · rintro ⟨tone, htone, length, hlength, volume, hvolume, pan, hpan, reverb, hreverb, h⟩
    obtain rfl := Except.ok.inj h
    exact ⟨rfl, htone, hlength, hvolume, hpan, hreverb⟩
  · rintro ⟨hname, htone, hlength, hvolume, hpan, hreverb⟩
    obtain ⟨name, tone, length, volume, pan, reverb⟩ := instrument
    obtain rfl : name = record.name := hname
    exact ⟨_, htone, _, hlength, _, hvolume, _, hpan, _, hreverb, rfl⟩

/-! ## Phrases -/

/-- A setting gives a positive 32-bit count by a numeral. -/
structure GivesCount (record : Record) (setting : String) (n : ℕ) : Prop where
  given : ∃ value, record.setting? setting = some value ∧ Decimal.isNumeral value = true ∧
    Decimal.numeral value = n
  pos : 1 ≤ n
  lt : n < 2 ^ 32

theorem positive_eq_ok {record : Record} {setting : String} {n : ℕ} :
    record.positive setting = .ok n ↔ record.GivesCount setting n := by
  rw [positive]
  constructor
  · intro h
    split at h
    · exact absurd h nofun
    · rename_i value hvalue
      split at h
      · rename_i m hm
        obtain rfl := Except.ok.inj h
        obtain ⟨hread, hpos⟩ := Option.filter_eq_some_iff.mp hm
        rw [Decimal.readCount?_eq] at hread
        split_ifs at hread with hnumeral
        obtain rfl := Option.some.inj hread
        have hle : Decimal.numeral value ≤ 2 ^ 32 - 1 := hnumeral.2
        exact ⟨⟨value, hvalue, hnumeral.1, rfl⟩, of_decide_eq_true hpos, by omega⟩
      · exact absurd h nofun
  · rintro ⟨⟨value, hvalue, hnumeral, rfl⟩, hpos, hlt⟩
    have hle : Decimal.numeral value ≤ UInt32.size - 1 := Nat.le_sub_one_of_lt hlt
    rw [hvalue]
    simp only
    rw [Decimal.readCount?_eq, if_pos ⟨hnumeral, hle⟩, Option.filter_some,
      if_pos (decide_eq_true (Nat.zero_lt_of_lt hpos))]

/-- The two words of a melody line name its instrument and its pattern. -/
theorem melody_eq_ok {instruments : Catalog Instrument} {patterns : Catalog Pattern}
    {phrase : String} {words : List String} {m : Melody} :
    melody instruments patterns phrase words = .ok m ↔
      ∃ instrument pattern, words = [instrument, pattern] ∧
        instruments.get? instrument = some m.instrument ∧
        patterns.get? pattern = some m.pattern := by
  unfold melody
  split
  · rename_i instrument pattern
    constructor
    · intro h
      split at h
      · exact absurd h nofun
      · rename_i i hi
        split at h
        · exact absurd h nofun
        · rename_i p hp
          obtain rfl := Except.ok.inj h
          exact ⟨instrument, pattern, rfl, hi, hp⟩
    · rintro ⟨_, _, hwords, hi, hp⟩
      obtain ⟨rfl, hrest⟩ := List.cons_eq_cons.mp hwords
      obtain ⟨rfl, -⟩ := List.cons_eq_cons.mp hrest
      rw [hi]
      simp only
      rw [hp]
  · rename_i words hwords
    exact ⟨nofun, fun ⟨_, _, h, _⟩ => absurd h (hwords _ _)⟩

/-- A phrase has the timing that its record gives and one melody for each line, all of them on the
grid of that timing. -/
theorem phrase_eq_ok {instruments : Catalog Instrument} {patterns : Catalog Pattern}
    {record : Record} {ph : Phrase} :
    record.phrase instruments patterns = .ok ph ↔
      ph.name = record.name ∧ record.GivesCount "tempo" ph.tempo ∧
        record.GivesCount "beats" ph.beats ∧ record.GivesCount "subbeats" ph.subbeats ∧
        List.Forall₂ (fun words m => melody instruments patterns record.name words = .ok m)
          (record.melodies.getD []) ph.melodies ∧
        ∀ m ∈ ph.melodies, m.pattern.length = ph.stepCount := by
  rw [Record.phrase]
  simp only [bind_eq_ok, mapM_eq_ok, positive_eq_ok]
  constructor
  · rintro ⟨melodies, hmelodies, tempo, htempo, beats, hbeats, subbeats, hsubbeats, ⟨⟩, hvalid, h⟩
    obtain rfl := Except.ok.inj h
    exact ⟨rfl, htempo, hbeats, hsubbeats, hmelodies, (Phrase.validate_eq_ok.mp hvalid).2⟩
  · rintro ⟨hname, htempo, hbeats, hsubbeats, hmelodies, hfits⟩
    obtain ⟨name, tempo, beats, subbeats, melodies⟩ := ph
    obtain rfl : name = record.name := hname
    exact ⟨melodies, hmelodies, tempo, htempo, beats, hbeats, subbeats, hsubbeats, (),
      Phrase.validate_eq_ok.mpr ⟨⟨Nat.ne_zero_of_lt htempo.pos, Nat.ne_zero_of_lt hbeats.pos,
        Nat.ne_zero_of_lt hsubbeats.pos⟩, hfits⟩, rfl⟩

end Record

end Chiptune
