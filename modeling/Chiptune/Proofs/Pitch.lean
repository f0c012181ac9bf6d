import Chiptune.Pitch
import Mathlib.Tactic.Common

/-!
# The cycles of notes

A name of the scale and an octave make one of finitely many notes, and each of them has a cycle of a
few frames up to a few hundred. No other text has a cycle.

* `cycleLength_bounds`, the cycles;
* `IsNote`, the notes, with `exists_cycleLength` and `cycleLength_eq_error`.
-/

namespace Chiptune.Pitch

/-- The frequency of a name of the scale in an octave. -/
def frequencyIn (base : Float) (octave : ℕ) : Float :=
  Nat.repeat (· * octaveRatio) (octave - 1) base

/-- The cycles of every name in every octave: from two frames to 351. -/
theorem framesPerCycle_bounds : ∀ entry ∈ scale, ∀ octave ∈ List.range 9,
    2 ≤ framesPerCycle (frequencyIn entry.2 octave) ∧
      framesPerCycle (frequencyIn entry.2 octave) ≤ 351 := by
  decide +kernel

theorem octave?_lt {c : Char} {octave : ℕ} (h : octave? c = some octave) : octave < 9 := by
  unfold octave? at h
  split_ifs at h with hc
  obtain rfl := Option.some.inj h
  have hle : c.toNat ≤ '8'.toNat := hc.2
  have h8 : '8'.toNat = 56 := rfl
  have h0 : '0'.toNat = 48 := rfl
  omega

/-- The octave of a valid note and its name in the table. -/
theorem frequency_eq_ok {note : String} {f : Float} (h : frequency note = .ok f) :
    ∃ entry ∈ scale, ∃ octave ∈ List.range 9, f = frequencyIn entry.2 octave := by
  unfold frequency at h
  split at h
  · exact absurd h nofun
  · rename_i base hbase
    split at h
    · exact absurd h nofun
    · rename_i octave hoctave
      obtain rfl := Except.ok.inj h
      obtain ⟨c, -, hc⟩ := Option.bind_eq_some_iff.mp hoctave
      obtain ⟨l₁, l₂, hsplit, -⟩ := List.lookup_eq_some_iff.mp hbase
      exact ⟨(noteName note, base), by rw [hsplit]; simp, octave,
        List.mem_range.mpr (octave?_lt hc), rfl⟩

/-- A valid note has a cycle of at least two frames and at most 351. -/
theorem cycleLength_bounds {note : String} {n : ℕ} (h : cycleLength note = .ok n) :
    2 ≤ n ∧ n ≤ 351 := by
  unfold cycleLength at h
  cases hf : frequency note with
  | error fault =>
    rw [hf] at h
    exact absurd h nofun
  | ok f =>
    rw [hf] at h
    obtain rfl := Except.ok.inj h
    obtain ⟨entry, hentry, octave, hoctave, rfl⟩ := frequency_eq_ok hf
    exact framesPerCycle_bounds entry hentry octave hoctave

theorem max_cycleLength {note : String} {n : ℕ} (h : cycleLength note = .ok n) : max n 1 = n := by
  have := cycleLength_bounds h
  omega

/-! ## Notes -/

/-- The names of the scale, with both spellings of a black key. -/
def names : List String :=
  ["C", "C#", "Db", "D", "D#", "Eb", "E", "F", "F#", "Gb", "G", "G#", "Ab", "A", "A#", "Bb", "B"]

/-- A name of the scale followed by the digit of an octave from 1 to 8. -/
def IsNote (note : String) : Prop :=
  ∃ name ∈ names, ∃ octave : Char, '1' ≤ octave ∧ octave ≤ '8' ∧ note = name.push octave

/-- What is wrong with a text that is not a note: its name, or else its octave. -/
def noteFault (note : String) : NoteFault :=
  if noteName note ∈ names then
    .badOctave ((note.toList.getLast?.map String.singleton).getD "") note
  else .badName (noteName note) note

theorem isNote_iff {note : String} :
    IsNote note ↔ noteName note ∈ names ∧ ∃ octave, note.toList.getLast? = some octave ∧
      '1' ≤ octave ∧ octave ≤ '8' := by
  constructor
  · rintro ⟨name, hname, octave, hlow, hhigh, rfl⟩
    rw [noteName, String.toList_push, List.dropLast_concat, String.ofList_toList,
      List.getLast?_concat]
    exact ⟨hname, octave, rfl, hlow, hhigh⟩
  · rintro ⟨hname, octave, hlast, hlow, hhigh⟩
    refine ⟨noteName note, hname, octave, hlow, hhigh, ?_⟩
    obtain ⟨front, hfront⟩ := List.getLast?_eq_some_iff.mp hlast
    rw [← String.toList_inj, String.toList_push, noteName, String.toList_ofList, hfront,
      List.dropLast_concat]

instance : DecidablePred IsNote := fun note =>
  decidable_of_iff (noteName note ∈ names ∧
      note.toList.getLast?.any (fun octave => '1' ≤ octave ∧ octave ≤ '8') = true) <| by
    simp only [isNote_iff, Option.any_eq_true, decide_eq_true_eq]

theorem isSome_lookup_scale (name : String) : (scale.lookup name).isSome = true ↔ name ∈ names := by
  simp [scale, names]

/-- A note has a cycle. -/
theorem exists_cycleLength {note : String} (h : IsNote note) :
    ∃ frames, cycleLength note = .ok frames := by
  obtain ⟨hname, octave, hlast, hlow, hhigh⟩ := isNote_iff.mp h
  obtain ⟨base, hbase⟩ := Option.isSome_iff_exists.mp ((isSome_lookup_scale _).mpr hname)
  rw [cycleLength, frequency, hbase, hlast]
  simp only [Option.bind_some, octave?, if_pos (And.intro hlow hhigh)]
  exact ⟨_, rfl⟩

/-- What is not a note is faulty. -/
theorem cycleLength_eq_error {note : String} (h : ¬IsNote note) :
    cycleLength note = .error (noteFault note) := by
  rw [cycleLength, frequency, noteFault]
  cases hbase : scale.lookup (noteName note) with
  | none =>
    have hname : noteName note ∉ names := by
      rw [← isSome_lookup_scale, hbase]
      nofun
    rw [if_neg hname]
    rfl
  | some base =>
    have hname : noteName note ∈ names := by
      rw [← isSome_lookup_scale, hbase]
      rfl
    have hoctave : note.toList.getLast?.bind octave? = none := by
      rw [Option.bind_eq_none_iff]
      intro octave hlast
      exact if_neg fun hrange => h (isNote_iff.mpr ⟨hname, octave, hlast, hrange⟩)
    rw [if_pos hname]
    simp only [hoctave]
    rfl

end Chiptune.Pitch
