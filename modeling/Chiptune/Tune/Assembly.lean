import Chiptune.Decimal.Count
import Chiptune.Record.Source
import Chiptune.Tune.Basic

/-!
# Assembling a tune

Records become a tune in a fixed order: all instruments, all patterns, all phrases, the sequence and
the name. The first definition of a name is the one that counts, but every definition is checked. A
tune that assembles has every reference resolved and every pattern in step with its phrases.
-/

namespace Chiptune

namespace Record

/-- A setting given by a word; one that is not given takes its default. -/
def choice {α : Type} [Inhabited α] (record : Record) (setting : String)
    (ofWord? : String → Option α) : Except Fault α :=
  match record.setting? setting with
  | none => .ok default
  | some value =>
    match ofWord? value with
    | some a => .ok a
    | none => .error (.invalidSetting record.kind record.name setting value)

/-- A setting that must be given and be a positive 32-bit count. -/
def positive (record : Record) (setting : String) : Except Fault Nat :=
  match record.setting? setting with
  | none => .error (.missingSetting record.name setting)
  | some value =>
    match (Decimal.readCount? (UInt32.size - 1) value).filter (0 < ·) with
    | some n => .ok n
    | none => .error (.invalidSetting record.kind record.name setting value)

/-- The instrument that a record defines. -/
def instrument (record : Record) : Except Fault Instrument := do
  let tone ← record.choice "tone" Tone.ofWord?
  let length ← record.choice "length" Level.ofWord?
  let volume ← record.choice "volume" Level.ofWord?
  let pan ← record.choice "pan" Pan.ofWord?
  let reverb ← record.choice "reverb" Reverb.ofWord?
  return { name := record.name, tone, length, volume, pan, reverb }

/-- The pattern that a record defines, with a warning if it has no steps. -/
def pattern (record : Record) : Report Pattern :=
  let pattern := Pattern.ofTokens record.name record.list
  ⟨if pattern.isEmpty then [.emptyPattern record.line record.name] else [], .ok pattern⟩

/-- The melody that a line of a phrase asks for. -/
def melody (instruments : Catalog Instrument) (patterns : Catalog Pattern) (phrase : String) :
    List String → Except Fault Melody
  | [instrument, pattern] =>
    match instruments.get? instrument with
    | none => .error (.unresolved phrase .instrument instrument)
    | some i =>
      match patterns.get? pattern with
      | none => .error (.unresolved phrase .pattern pattern)
      | some p => .ok ⟨i, p⟩
  | words => .error (.malformedMelody phrase (String.intercalate " " words))

/-- The phrase that a record defines. -/
def phrase (instruments : Catalog Instrument) (patterns : Catalog Pattern) (record : Record) :
    Except Fault Phrase := do
  let melodies ← (record.melodies.getD []).mapM (melody instruments patterns record.name)
  let tempo ← record.positive "tempo"
  let beats ← record.positive "beats"
  let subbeats ← record.positive "subbeats"
  let phrase : Phrase := ⟨record.name, tempo, beats, subbeats, melodies⟩
  phrase.validate
  return phrase

/-- The records of a kind, in order. -/
def ofKind (kind : RecordKind) (records : List Record) : List Record :=
  records.filter (·.kind = kind)

/-- What records define under their names, the first definition of a name counting. -/
def define {α : Type} (build : Record → Report α) (found : Catalog α) :
    List Record → Report (Catalog α)
  | [] => pure found
  | record :: records => do
    let value ← build record
    if found.contains record.name then
      Report.tell (.redefinition record.line record.kind record.name)
    define build (found.putNew record.name value) records

/-- The first of the records of a kind of which there should be one, with a warning for the rest. -/
def single (kind : RecordKind) (records : List Record) : Report (Option Record) :=
  match ofKind kind records with
  | [] => pure none
  | first :: extra =>
    ⟨extra.map fun record => .extraRecord record.line kind first.line, .ok (some first)⟩

end Record

namespace Tune

open Record

/-- The tune that records define. -/
def assemble (records : List Record) : Report Tune := do
  let instruments ←
    define (fun record => .ofExcept record.instrument) {} (ofKind .instrument records)
  let patterns ← define Record.pattern {} (ofKind .pattern records)
  let phrases ←
    define (fun record => .ofExcept (record.phrase instruments patterns)) {}
      (ofKind .phrase records)
  let some sequence ← single .sequence records | Report.fail .missingSequence
  match sequence.list.find? (!phrases.contains ·) with
  | some name => Report.fail (.undefinedPhrase name)
  | none => do
    let title ← single .tune records
    match title.map Record.name with
    | none | some "" => Report.fail .missingTuneName
    | some name => do
      Report.tell (.assembled name instruments.size patterns.size phrases.size sequence.list.length)
      return ⟨name, sequence.list, phrases⟩

/-- The tune that a text describes. -/
def ofText (text : String) : Report Tune := do assemble (← Record.ofText text)

end Tune

end Chiptune
