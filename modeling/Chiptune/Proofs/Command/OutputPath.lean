import Chiptune.Proofs.Command.Effects
import Chiptune.Proofs.Files.Path

/-!
# Where a tune is written

Without an output path a tune is written under its own name, in the directory of the configuration.
A tune whose name has no slash is written to a file directly in that directory. Nothing keeps
slashes out of names, so any other tune can lead the program elsewhere.

* `Command.executeRender_inDirectory`, the file of a tune whose name has no slash;
* `Command.outputPath_outside`, a tune with an absolute name.
-/

namespace Chiptune.Command

/-- The path of a tune is that of a file directly in the directory of the configuration if its name
has no slash, and otherwise only if the name is itself an absolute path to there. A tune without a
slash in its name is written to that file, and no other one is changed. -/
theorem executeRender_inDirectory {defaultPath : Option String} {input : String}
    {options : RenderOptions} {before after : Computer} (houtput : options.output = none)
    (hrun : (executeRender defaultPath input options : StateM Computer _).run before
      = (.ok (), after)) :
    ∃ configuration tune,
      before.configurationAt (options.configuration <|> defaultPath) = .ok configuration ∧
      before.tuneAt input = .ok tune ∧
      ∀ directory, configuration.outputDirectory = some directory → directory ≠ "" →
        (Path.IsWaveFileIn directory (configuration.outputPath tune.name) ↔
          '/' ∉ tune.name.toList ∨ ∃ rest : String, '/' ∉ rest.toList ∧
            Path.isAbsolute tune.name = true ∧ tune.name = Path.slashed directory ++ rest) ∧
        ('/' ∉ tune.name.toList →
          ∃ place, after.tree.resolve before.current directory = .ok place ∧
            after.tree.isDirectory place = true ∧
            (after.tree.file? (place ++ [tune.name ++ ".wav"])).isSome = true ∧
            ∀ other, other ≠ place ++ [tune.name ++ ".wav"] →
              after.tree.file? other = before.tree.file? other) := by
  obtain ⟨configuration, tune, hconfiguration, htune, made, rendered, seed, hgrows, -, hwrite⟩ :=
    (executeRender_spec hrun).2 rfl
  refine ⟨configuration, tune, hconfiguration, htune, fun directory hdirectory hne => ?_⟩
  have hjoin : configuration.outputPath tune.name = Path.join directory (tune.name ++ ".wav") := by
    rw [Configuration.outputPath, hdirectory]
  rw [houtput, Option.getD_none, hjoin] at hwrite
  rw [hjoin]
  refine ⟨Path.isWaveFileIn_join_iff tune.name hne, fun hslash => ?_⟩
  have hname : '/' ∉ (tune.name ++ ".wav").toList := by
    rw [String.toList_append, List.mem_append, not_or]
    exact ⟨hslash, by decide⟩
  rw [Path.join_eq_slashed hne (Path.isAbsolute_of_notMem hname)] at hwrite
  obtain ⟨place, hresolve, hplace, htree⟩ := FileTree.write_slashed hne hname hwrite
  refine ⟨place, hresolve, hplace, ?_, fun other hother => ?_⟩
  · rw [htree, FileTree.file?_setFile, if_pos rfl]
    rfl
  · rw [htree, FileTree.file?_setFile, if_neg hother, FileTree.file?, FileTree.file?,
      hgrows.tree.files]

/-- The text of a tune with one silent frame. -/
def shortText (name : String) : String :=
  "tune " ++ name ++ "\nsequence x\nphrase x\n  tempo 600000\n  beats 1\n  subbeats 1\n"

/-- Two tunes, one of them with a slash in its name, and a configuration with a directory. -/
def shelf : Computer where
  tree :=
    { files :=
        [(["a.txt"], Wave.ascii (shortText "a")), (["b.txt"], Wave.ascii (shortText "../b")),
          (["c.toml"], Wave.ascii "output_dir = \"renders\"\nseed = 7\n")]
      directories := [] }
  current := []
  printed := ""
  seed := 0

/-- The directory is made, and the tune is written to it. -/
theorem shelf_inDirectory : ∃ after,
    (executeRender (some "c.toml") "a.txt" {} : StateM Computer _).run shelf = (.ok (), after) ∧
      ∃ place, after.tree.resolve [] "renders" = .ok place ∧
        after.tree.isDirectory place = true ∧
        (after.tree.file? (place ++ ["a.wav"])).isSome = true ∧
        ∀ other, other ≠ place ++ ["a.wav"] →
          after.tree.file? other = shelf.tree.file? other := by
  have hworks : ((executeRender (some "c.toml") "a.txt" {} :
      StateM Computer (Except Failure Unit)).run shelf).1 = .ok () := by decide +kernel
  have hread : (shelf.configurationAt (some "c.toml")).toOption.bind (·.outputDirectory)
      = some "renders" := by decide +kernel
  have hname : (shelf.tuneAt "a.txt").toOption.map Tune.name = some "a" := by decide +kernel
  generalize hrun : (executeRender (some "c.toml") "a.txt" {} :
    StateM Computer (Except Failure Unit)).run shelf = outcome at hworks
  obtain ⟨result, after⟩ := outcome
  obtain rfl : result = .ok () := hworks
  obtain ⟨configuration, tune, hconfiguration, htune, hinside⟩ :=
    executeRender_inDirectory rfl hrun
  have hdirectory : configuration.outputDirectory = some "renders" := by
    have hread' := congrArg (·.toOption.bind (·.outputDirectory)) hconfiguration
    exact hread'.symm.trans hread
  have hname' : tune.name = "a" := by
    have hname' := congrArg (·.toOption.map Tune.name) htune
    exact Option.some.inj (hname'.symm.trans hname)
  obtain ⟨-, hplace⟩ := hinside "renders" hdirectory (by decide)
  rw [hname'] at hplace
  exact ⟨after, rfl, hplace (by decide)⟩

/-- An absolute name takes the place of the directory, and a name with `..` leads out of it. -/
theorem outputPath_outside :
    (∃ (tune : Tune) (configuration : Configuration),
      (Tune.ofText (shortText "/tmp/song")).result = .ok tune ∧
      configuration.outputDirectory = some "renders" ∧
      configuration.outputPath tune.name = "/tmp/song.wav" ∧
      ¬ Path.IsWaveFileIn "renders" (configuration.outputPath tune.name)) ∧
    ∃ after,
      (executeRender (some "c.toml") "b.txt" {} : StateM Computer _).run shelf = (.ok (), after) ∧
        after.tree.resolve [] "renders" = .ok ["renders"] ∧
        shelf.tree.file? ["b.wav"] = none ∧ (after.tree.file? ["b.wav"]).isSome = true := by
  constructor
  · have hname : (Tune.ofText (shortText "/tmp/song")).result.toOption.map Tune.name
        = some "/tmp/song" := by decide +kernel
    cases htune : (Tune.ofText (shortText "/tmp/song")).result with
    | error fault =>
      rw [htune] at hname
      exact absurd hname nofun
    | ok tune =>
      rw [htune] at hname
      have hname' : tune.name = "/tmp/song" := Option.some.inj hname
      have hpath : Configuration.outputPath { outputDirectory := some "renders" } tune.name
          = "/tmp/song.wav" := by
        rw [hname']
        decide
      refine ⟨tune, { outputDirectory := some "renders" }, rfl, rfl, hpath, ?_⟩
      rw [hpath]
      rintro ⟨component, -, -, -, hcomponent⟩
      have hfirst := congrArg (·.toList.head?) hcomponent
      rw [String.toList_append, List.head?_append_of_ne_nil _ (by decide)] at hfirst
      exact absurd hfirst (by decide)
  · have hworks : ((executeRender (some "c.toml") "b.txt" {} :
        StateM Computer (Except Failure Unit)).run shelf).1 = .ok () := by decide +kernel
    have hresolve : (((executeRender (some "c.toml") "b.txt" {} :
        StateM Computer (Except Failure Unit)).run shelf).2.tree.resolve [] "renders").toOption
          = some ["renders"] := by decide +kernel
    have hfile : (((executeRender (some "c.toml") "b.txt" {} :
        StateM Computer (Except Failure Unit)).run shelf).2.tree.file? ["b.wav"]).isSome
          = true := by decide +kernel
    generalize (executeRender (some "c.toml") "b.txt" {} :
      StateM Computer (Except Failure Unit)).run shelf = outcome at hworks hresolve hfile
    obtain ⟨result, after⟩ := outcome
    obtain rfl : result = .ok () := hworks
    refine ⟨after, rfl, ?_, by decide, hfile⟩
    cases hplace : after.tree.resolve [] "renders" with
    | error fault =>
      rw [hplace] at hresolve
      exact absurd hresolve nofun
    | ok place =>
      rw [hplace] at hresolve
      exact congrArg Except.ok (Option.some.inj hresolve)

end Chiptune.Command
