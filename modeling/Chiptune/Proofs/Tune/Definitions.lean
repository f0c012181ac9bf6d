import Chiptune.Proofs.Catalog
import Chiptune.Proofs.Check
import Chiptune.Tune.Assembly

/-!
# What records define

Of the records of a kind, all are built, and the first of each name is what the name stands for. A
tune is assembled from what its instrument, pattern and phrase records define, its first sequence
and its first title.

* `Record.define_eq_ok`, the catalog that records define;
* `Record.reports_define`, the checks of its records;
* `Tune.assemble_result` and `Tune.assemble_eq_ok`, the stages of assembly.
-/

namespace Chiptune

namespace Record

/-- The first record of a kind. -/
def first (kind : RecordKind) (records : List Record) : Option Record :=
  records.find? (·.kind = kind)

/-- The first record of a kind under a name. -/
def firstNamed (kind : RecordKind) (name : String) (records : List Record) : Option Record :=
  records.find? fun record => record.kind = kind ∧ record.name = name

theorem firstNamed_eq_some {kind : RecordKind} {name : String} {records : List Record}
    {record : Record} (h : firstNamed kind name records = some record) :
    record ∈ records ∧ record.kind = kind ∧ record.name = name :=
  ⟨List.mem_of_find?_eq_some h, by simpa using List.find?_some h⟩

theorem find?_ofKind (kind : RecordKind) (name : String) (records : List Record) :
    (ofKind kind records).find? (·.name = name) = firstNamed kind name records := by
  simp [ofKind, firstNamed, List.find?_filter]

theorem single_result (kind : RecordKind) (records : List Record) :
    (single kind records).result = .ok (first kind records) := by
  have hhead : (ofKind kind records).head? = first kind records := List.head?_filter
  rw [single, ← hhead]
  cases ofKind kind records <;> rfl

variable {α : Type} {build : Record → Report α}

/-- One record after the other; a warning does not count. -/
theorem define_cons (found : Catalog α) (record : Record) (records : List Record) :
    (define build found (record :: records)).result = (build record).result >>= fun value =>
      (define build (found.putNew record.name value) records).result := by
  rw [define, Report.result_bind]
  refine congrArg _ (funext fun value => ?_)
  split_ifs <;> rfl

theorem define_append (found : Catalog α) (records more : List Record) :
    (define build found (records ++ more)).result
      = (define build found records).result >>= fun catalog =>
        (define build catalog more).result := by
  induction records generalizing found with
  | nil => rfl
  | cons record records ih =>
    rw [List.cons_append, define_cons, define_cons]
    cases (build record).result with
    | error fault => rfl
    | ok value => exact ih (found.putNew record.name value)

/-- Records whose names are all taken define nothing. -/
theorem define_of_taken {found catalog : Catalog α} {records : List Record}
    (htaken : ∀ record ∈ records, found.contains record.name = true)
    (h : (define build found records).result = .ok catalog) : catalog = found := by
  induction records with
  | nil => exact (Except.ok.inj h).symm
  | cons record records ih =>
    obtain ⟨hrecord, hrecords⟩ := List.forall_mem_cons.mp htaken
    rw [define_cons] at h
    obtain ⟨value, -, h⟩ := bind_eq_ok.mp h
    rw [Catalog.putNew, if_pos hrecord] at h
    exact ih hrecords h

/-- Records with different names define what each of them builds. -/
theorem define_map {key : α → String} {record : α → Record} {xs : List α} {found : Catalog α}
    (h : ∀ x ∈ xs, (record x).name = key x ∧ (build (record x)).result = .ok x)
    (hnodup : (found.names ++ xs.map key).Nodup) :
    (define build found (xs.map record)).result
      = .ok ⟨found.entries ++ xs.map fun x => (key x, x)⟩ := by
  induction xs generalizing found with
  | nil => rw [List.map_nil, List.map_nil, List.append_nil, define, Report.result_pure]
  | cons x xs ih =>
    obtain ⟨⟨hname, hbuild⟩, hxs⟩ := List.forall_mem_cons.mp h
    have hnew : found.contains (key x) = false := Catalog.contains_of_nodup hnodup
    have hput : found.putNew (key x) x = ⟨found.entries ++ [(key x, x)]⟩ :=
      if_neg (by simp [hnew])
    have hnames : (found.putNew (key x) x).names ++ xs.map key
        = found.names ++ (x :: xs).map key := by
      rw [hput, Catalog.names, List.map_append, List.append_assoc]
      rfl
    rw [List.map_cons, define_cons, hbuild, hname]
    refine (ih hxs (hnames ▸ hnodup)).trans (congrArg (fun e => Except.ok (Catalog.mk e)) ?_)
    rw [hput, List.append_assoc]
    rfl

/-- No name has two entries. -/
theorem nodup_names_define {found catalog : Catalog α} {records : List Record}
    (hfound : found.names.Nodup) (h : (define build found records).result = .ok catalog) :
    catalog.names.Nodup := by
  induction records generalizing found with
  | nil =>
    obtain rfl := Except.ok.inj h
    exact hfound
  | cons record records ih =>
    rw [define_cons] at h
    obtain ⟨value, -, h⟩ := bind_eq_ok.mp h
    exact ih (Catalog.nodup_names_putNew hfound record.name value) h

/-- Every record is built, and a name that is not taken yet stands for what its first record
builds. -/
theorem define_eq_ok {found catalog : Catalog α} {records : List Record}
    (h : (define build found records).result = .ok catalog) :
    (∀ record ∈ records, ∃ value, (build record).result = .ok value) ∧
      ∀ name, catalog.get? name = (found.get? name).or
        ((records.find? (·.name = name)).bind fun record => (build record).result.toOption) := by
  induction records generalizing found with
  | nil =>
    obtain rfl := Except.ok.inj h
    exact ⟨fun record hrecord => absurd hrecord List.not_mem_nil, fun name => by simp⟩
  | cons record records ih =>
    rw [define_cons] at h
    cases hbuild : (build record).result with
    | error fault =>
      rw [hbuild] at h
      exact absurd h nofun
    | ok value =>
      rw [hbuild] at h
      obtain ⟨hbuilt, hget⟩ := ih h
      refine ⟨List.forall_mem_cons.mpr ⟨⟨value, hbuild⟩, hbuilt⟩, fun name => ?_⟩
      rw [hget, Catalog.get?_putNew, Option.or_assoc, List.find?_cons]
      by_cases hname : record.name = name
      · simp [hname, hbuild, Except.toOption]
      · simp [hname, Ne.symm hname]

/-- What the records of a kind define under a name comes from the first of them. -/
theorem get?_define {kind : RecordKind} {records : List Record} {catalog : Catalog α}
    (h : (define build {} (ofKind kind records)).result = .ok catalog) (name : String) :
    catalog.get? name
      = (firstNamed kind name records).bind fun record => (build record).result.toOption := by
  rw [(define_eq_ok h).2 name, find?_ofKind]
  rfl

theorem contains_define {kind : RecordKind} {records : List Record} {catalog : Catalog α}
    (h : (define build {} (ofKind kind records)).result = .ok catalog) (name : String) :
    catalog.contains name = (firstNamed kind name records).isSome := by
  rw [Catalog.contains, get?_define h]
  cases hfirst : firstNamed kind name records with
  | none => rfl
  | some record =>
    rw [← find?_ofKind] at hfirst
    obtain ⟨value, hvalue⟩ := (define_eq_ok h).1 record (List.mem_of_find?_eq_some hfirst)
    rw [Option.bind_some, hvalue]
    rfl

/-- A record with steps always builds a pattern. -/
theorem exists_define_pattern (records : List Record) {found : Catalog Pattern} :
    ∃ patterns, (define Record.pattern found records).result = .ok patterns := by
  induction records generalizing found with
  | nil => exact ⟨found, rfl⟩
  | cons record records ih =>
    rw [define_cons]
    exact ih

theorem get?_define_pattern {records : List Record} {patterns : Catalog Pattern}
    (h : (define Record.pattern {} (ofKind .pattern records)).result = .ok patterns)
    (name : String) :
    patterns.get? name
      = (firstNamed .pattern name records).map fun r => Pattern.ofTokens r.name r.list := by
  rw [get?_define h, Option.map_eq_bind]
  rfl

/-- Records are built in order, each with its own checks. -/
theorem reports_define {checksOf : Record → List Check} {found : Catalog α} {records : List Record}
    (h : ∀ record ∈ records, Reports (checksOf record) (build record).result) :
    Reports (records.flatMap checksOf) (define build found records).result := by
  induction records generalizing found with
  | nil => exact Reports.ok found
  | cons record records ih =>
    rw [define_cons, List.flatMap_cons]
    exact (h record List.mem_cons_self).bind fun value _ =>
      ih fun other hother => h other (List.mem_cons_of_mem record hother)

end Record

namespace Tune

open Record

/-- The tune that plays phrases, once its sequence and its title are found. -/
def conclude (records : List Record) (phrases : Catalog Phrase) : Except Fault Tune :=
  match first .sequence records with
  | none => .error .missingSequence
  | some sequence =>
    match sequence.list.find? (!phrases.contains ·) with
    | some name => .error (.undefinedPhrase name)
    | none =>
      match first .tune records with
      | none => .error .missingTuneName
      | some title =>
        if title.name = "" then .error .missingTuneName
        else .ok ⟨title.name, sequence.list, phrases⟩

/-- The stages of assembly. -/
theorem assemble_result (records : List Record) :
    (assemble records).result = (do
      let instruments ← (define (fun record => .ofExcept record.instrument) {}
        (ofKind .instrument records)).result
      let patterns ← (define Record.pattern {} (ofKind .pattern records)).result
      let phrases ← (define (fun record => .ofExcept (record.phrase instruments patterns)) {}
        (ofKind .phrase records)).result
      conclude records phrases) := by
  rw [assemble, Report.result_bind]
  refine congrArg _ (funext fun instruments => ?_)
  rw [Report.result_bind]
  refine congrArg _ (funext fun patterns => ?_)
  rw [Report.result_bind]
  refine congrArg _ (funext fun phrases => ?_)
  rw [Report.result_bind, single_result, conclude]
  cases first .sequence records with
  | none => rfl
  | some sequence =>
    dsimp only [Bind.bind, Except.bind]
    cases sequence.list.find? (!phrases.contains ·) with
    | some name => rfl
    | none =>
      refine (Report.result_bind (single .tune records) _).trans ?_
      rw [single_result]
      cases first .tune records with
      | none => rfl
      | some title =>
        dsimp only [Bind.bind, Except.bind, Option.map]
        split
        · rename_i h
          exact absurd h nofun
        · rename_i h
          rw [if_pos (Option.some.inj h)]
          rfl
        · rename_i name hname h
          obtain rfl := Option.some.inj h
          rw [if_neg hname]
          rfl

/-- A tune is concluded when its sequence names phrases only and its title is not empty. -/
theorem conclude_eq_ok {records : List Record} {phrases : Catalog Phrase} {tune : Tune} :
    conclude records phrases = .ok tune ↔
      ∃ sequence title, first .sequence records = some sequence ∧
        (∀ name ∈ sequence.list, phrases.contains name = true) ∧
        first .tune records = some title ∧ title.name ≠ "" ∧
        tune = ⟨title.name, sequence.list, phrases⟩ := by
  unfold conclude
  constructor
  · intro h
    split at h
    · exact absurd h nofun
    · rename_i sequence hsequence
      split at h
      · exact absurd h nofun
      · rename_i hnames
        split at h
        · exact absurd h nofun
        · rename_i title htitle
          split_ifs at h with hempty
          obtain rfl := Except.ok.inj h
          refine ⟨sequence, title, hsequence, fun name hname => ?_, htitle, hempty, rfl⟩
          simpa using List.find?_eq_none.mp hnames name hname
  · rintro ⟨sequence, title, hsequence, hnames, htitle, hempty, rfl⟩
    have hfind : sequence.list.find? (!phrases.contains ·) = none :=
      List.find?_eq_none.mpr fun name hname => by simp [hnames name hname]
    simp only [hsequence, hfind, htitle, if_neg hempty]

/-- Records make a tune when all stages of assembly come to a result. -/
theorem assemble_eq_ok {records : List Record} {tune : Tune} :
    (assemble records).result = .ok tune ↔ ∃ instruments patterns phrases,
      (define (fun record => .ofExcept record.instrument) {}
        (ofKind .instrument records)).result = .ok instruments ∧
      (define Record.pattern {} (ofKind .pattern records)).result = .ok patterns ∧
      (define (fun record => .ofExcept (record.phrase instruments patterns)) {}
        (ofKind .phrase records)).result = .ok phrases ∧
      conclude records phrases = .ok tune := by
  rw [assemble_result]
  simp only [bind_eq_ok]
  exact ⟨fun ⟨i, hi, p, hp, ph, hph, h⟩ => ⟨i, p, ph, hi, hp, hph, h⟩,
    fun ⟨i, p, ph, hi, hp, hph, h⟩ => ⟨i, hi, p, hp, ph, hph, h⟩⟩

end Tune

end Chiptune
