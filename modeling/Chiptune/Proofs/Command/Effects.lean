import Chiptune.Proofs.Files.Computer
import Chiptune.Proofs.Tune.Draws

/-!
# What a command does to files

The one write of a command comes last, after the configuration and the tune were read, directories
made and the sound computed. Whatever fails on the way, no file has been touched, and what is
written is the whole sound.

* `Tune.renderToFile_spec`, the step that writes;
* `Command.executeRender_spec` and `Command.executeCheck_spec`, the commands;
* `Command.run_sparesFiles`, whole command lines.
-/

namespace Chiptune

/-! ## Rendering to a file -/

/-- A tune is written to a file if it can be rendered, and otherwise nothing happens. -/
theorem Tune.renderToFile_spec {tune : Tune} {configuration : Configuration} {path : String}
    {before after : Computer} {report : Report Statistics}
    (h : (tune.renderToFile configuration path : StateM Computer _).run before = (report, after)) :
    (∀ fault, report.result = .error fault → after = before) ∧
    (∀ statistics, report.result = .ok statistics →
      ∃ (rendered : RenderedTune Float) (tree : FileTree),
        (tune.render.outcome (ChaCha.ofSeed (configuration.seed.getD before.seed))).1
          = .ok rendered ∧
        before.tree.write before.current path
          (Wave.encode configuration.format sampleRate rendered.buffer) = .ok tree ∧
        after = { before with tree := tree }) := by
  have hsource : (Tune.sourceOf configuration : StateM Computer _).run before
      = (ChaCha.ofSeed (configuration.seed.getD before.seed), before) := by
    unfold Tune.sourceOf
    cases configuration.seed <;> rfl
  unfold Tune.renderToFile at h
  rw [Computer.run_bind hsource] at h
  cases hrendering : (tune.render (ChaCha.ofSeed (configuration.seed.getD before.seed)) :
    Report (RenderedTune Float) × ChaCha.Generator).1.result with
  | error fault =>
    simp only [hrendering] at h
    obtain ⟨rfl, rfl⟩ := Prod.mk.inj h
    exact ⟨fun _ _ => rfl, fun _ hdone => by cases hdone⟩
  | ok rendered =>
    simp only [hrendering] at h
    have hwrite : (Host.writeFile path (Wave.encode configuration.format sampleRate
        rendered.buffer) : StateM Computer _).run before = _ :=
      Computer.run_attempt before (·.write before.current path _)
    cases hwritten : before.tree.write before.current path
        (Wave.encode configuration.format sampleRate rendered.buffer) with
    | error fault =>
      rw [hwritten] at hwrite
      rw [Computer.run_bind hwrite] at h
      obtain ⟨rfl, rfl⟩ := Prod.mk.inj h
      exact ⟨fun _ _ => rfl, fun _ hdone => by cases hdone⟩
    | ok tree =>
      rw [hwritten] at hwrite
      rw [Computer.run_bind hwrite] at h
      obtain ⟨rfl, rfl⟩ := Prod.mk.inj h
      exact ⟨(fun _ hfailed => by cases hfailed),
        fun _ _ => ⟨rendered, tree, hrendering, hwritten, rfl⟩⟩

/-- A tune without noise gives one result with all sources. -/
theorem Tune.result_of_noiseFree {R : Type} [Amplitude R] {σ τ : Type} [RandomSource σ]
    [RandomSource τ] {tune : Tune} (h : tune.NoiseFree) (source : σ) (other : τ) :
    (tune.render.outcome source : Except Fault (RenderedTune R) × σ).1
      = (tune.render.outcome other).1 := by
  have hunmoved : tune.render source
      = ((tune.render other : Report (RenderedTune R) × τ).1, source) := by
    refine Performance.bind_of_unmoved (renderPhrases_of_noiseFree h {})
      (fun buffers _ _ => ?_) source other
    exact Performance.bind_ofReport_of_unmoved _ fun _ _ _ _ => rfl
  exact congrArg (·.1.result) hunmoved

/-! ## Commands -/

namespace Command

/-- Rendering writes one file, after all that can fail has been done; if it fails, no file is
changed. -/
theorem executeRender_spec {defaultPath : Option String} {input : String} {options : RenderOptions}
    {before after : Computer} {result : Except Failure Unit}
    (h : (executeRender defaultPath input options : StateM Computer _).run before
      = (result, after)) :
    (∀ failure, result = .error failure → before.Grows after) ∧
    (result = .ok () → ∃ configuration tune,
      before.configurationAt (options.configuration <|> defaultPath) = .ok configuration ∧
      before.tuneAt input = .ok tune ∧
      ∃ (made : Computer) (rendered : RenderedTune Float) (seed : UInt64),
        before.Grows made ∧
        (tune.render.outcome (ChaCha.ofSeed
          ((options.seed <|> configuration.seed).getD seed))).1 = .ok rendered ∧
        made.tree.write before.current (options.output.getD (configuration.outputPath tune.name))
          (Wave.encode (options.format.getD configuration.format) sampleRate rendered.buffer)
            = .ok after.tree) := by
  unfold executeRender at h
  obtain ⟨loaded, hloaded, h⟩ := Computer.exists_configuration h
  rw [← hloaded]
  cases hconfiguration : loaded.result with
  | error fault =>
    simp only [hconfiguration] at h
    obtain ⟨rfl, rfl⟩ := Prod.mk.inj h
    exact ⟨fun _ _ => .refl before, fun hdone => by cases hdone⟩
  | ok configuration =>
    simp only [hconfiguration] at h
    obtain ⟨report, hfile, htune⟩ := before.run_ofFile input
    rw [Computer.run_bind hfile] at h
    rw [← htune]
    cases hresult : report.result with
    | error fault =>
      simp only [hresult] at h
      obtain ⟨rfl, rfl⟩ := Prod.mk.inj h
      exact ⟨fun _ _ => .refl before, fun hdone => by cases hdone⟩
    | ok tune =>
      simp only [hresult] at h
      obtain ⟨outcome, made, hmade, h⟩ := Computer.exists_run h
      have hgrows := (Spares.makeDirectories _).grows hmade
      cases outcome with
      | error fault =>
        obtain ⟨rfl, rfl⟩ := Prod.mk.inj h
        exact ⟨fun _ _ => hgrows, fun hdone => by cases hdone⟩
      | ok done =>
        obtain ⟨_, shown, hshown, h⟩ := Computer.exists_run h
        have hgrows' := hgrows.trans ((Spares.printLines _).grows hshown)
        obtain ⟨outcome, written, hwritten, h⟩ := Computer.exists_run h
        obtain ⟨hfailed, hdone⟩ := Tune.renderToFile_spec hwritten
        cases hstatistics : outcome.result with
        | error fault =>
          simp only [hstatistics] at h
          obtain ⟨rfl, rfl⟩ := Prod.mk.inj h
          obtain rfl := hfailed fault hstatistics
          exact ⟨fun _ _ => hgrows', fun hdone => by cases hdone⟩
        | ok statistics =>
          simp only [hstatistics] at h
          obtain ⟨_, summed, hsummed, h⟩ := Computer.exists_run h
          obtain ⟨rfl, rfl⟩ := Prod.mk.inj h
          obtain ⟨rendered, tree, hrendered, hwrite, rfl⟩ := hdone statistics hstatistics
          obtain rfl := (Prod.mk.inj hsummed).2
          rw [hgrows'.current] at hwrite
          exact ⟨(fun _ hfailed => by cases hfailed), fun _ => ⟨configuration, tune, rfl, rfl,
            shown, rendered, shown.seed, hgrows', hrendered, hwrite⟩⟩

/-- Checking changes nothing but what is printed. -/
theorem executeCheck_spec {input : String} {before after : Computer} {result : Except Failure Unit}
    (h : (executeCheck input : StateM Computer _).run before = (result, after)) :
    after.tree = before.tree := by
  obtain ⟨report, hfile, -⟩ := before.run_ofFile input
  unfold executeCheck at h
  rw [Computer.run_bind hfile] at h
  cases hlines : report.result >>= Tune.overview with
  | error fault =>
    simp only [hlines] at h
    obtain ⟨rfl, rfl⟩ := Prod.mk.inj h
    rfl
  | ok lines =>
    simp only [hlines] at h
    obtain ⟨_, shown, hshown, h⟩ := Computer.exists_run h
    obtain ⟨rfl, rfl⟩ := Prod.mk.inj h
    obtain rfl := (Prod.mk.inj hshown).2
    rfl

/-- A command that fails changes no file. -/
theorem execute_failure {program : String} {defaultPath : Option String} {command : Command}
    {before after : Computer} {failure : Failure}
    (h : (execute program defaultPath command : StateM Computer _).run before
      = (.error failure, after)) : before.tree.Grows after.tree := by
  cases command with
  | render input options => exact ((executeRender_spec h).1 failure rfl).tree
  | check input =>
    rw [executeCheck_spec h]
    exact .refl _
  | help topic =>
    obtain ⟨_, shown, -, h⟩ := Computer.exists_run h
    cases (Prod.mk.inj h).1

/-- A run of a command ends as the command does. -/
theorem run_cases {program : String} {defaultPath : Option String} {arguments : List String}
    {command : Command} (hcommand : ofArguments arguments = some command)
    {before after : Computer} {ending : Ending}
    (hrun : (run program defaultPath arguments : StateM Computer Ending).run before
      = (ending, after)) :
    (ending = .success ∧ (execute program defaultPath command : StateM Computer _).run before
      = (.ok (), after)) ∨
    ∃ failure, ending = .failure failure ∧
      (execute program defaultPath command : StateM Computer _).run before
        = (.error failure, after) := by
  unfold run at hrun
  simp only [hcommand] at hrun
  obtain ⟨result, between, hexecute, hrun⟩ := Computer.exists_run hrun
  cases result with
  | ok done =>
    obtain ⟨rfl, rfl⟩ := Prod.mk.inj hrun
    exact Or.inl ⟨rfl, hexecute⟩
  | error failure =>
    obtain ⟨rfl, rfl⟩ := Prod.mk.inj hrun
    exact Or.inr ⟨failure, rfl, hexecute⟩

/-- A command that fails changes no file, and neither does a check. A render that succeeds sets the
file at the output path and no other one. -/
theorem run_sparesFiles {program : String} {defaultPath : Option String} {arguments : List String}
    {command : Command} (hcommand : ofArguments arguments = some command)
    {before after : Computer} {ending : Ending}
    (hrun : (run program defaultPath arguments : StateM Computer Ending).run before
      = (ending, after)) :
    (ending.code = 1 → after.tree.files = before.tree.files ∧
      ∀ place ∈ before.tree.directories, place ∈ after.tree.directories) ∧
    (∀ input, command = .check input → after.tree = before.tree) ∧
    (∀ input options, command = .render input options → ending.code = 0 →
      ∃ configuration tune place, ∃ rendered : RenderedTune Float,
        before.configurationAt (options.configuration <|> defaultPath) = .ok configuration ∧
        before.tuneAt input = .ok tune ∧
        after.tree.resolve before.current
          (options.output.getD (configuration.outputPath tune.name)) = .ok place ∧
        after.tree.file? place = some (Wave.encode (options.format.getD configuration.format)
          sampleRate rendered.buffer) ∧
        (∀ other, other ≠ place → after.tree.file? other = before.tree.file? other) ∧
        (∀ seed, (options.seed <|> configuration.seed) = some seed →
          (tune.render.outcome (ChaCha.ofSeed seed)).1 = .ok rendered) ∧
        (tune.NoiseFree → ∀ (σ : Type) [RandomSource σ] (source : σ),
          (tune.render.outcome source).1 = .ok rendered)) := by
  have hcases := run_cases hcommand hrun
  refine ⟨fun hcode => ?_, ?_, ?_⟩
  · rcases hcases with ⟨rfl, -⟩ | ⟨failure, -, hexecute⟩
    · exact absurd hcode (by decide)
    · have hgrows := execute_failure hexecute
      exact ⟨hgrows.files, hgrows.directories⟩
  · rintro input rfl
    rcases hcases with ⟨-, hexecute⟩ | ⟨failure, -, hexecute⟩ <;> exact executeCheck_spec hexecute
  · rintro input options rfl hcode
    rcases hcases with ⟨-, hexecute⟩ | ⟨failure, rfl, -⟩
    · obtain ⟨configuration, tune, hconfiguration, htune, made, rendered, seed, hgrows, hrendered,
        hwrite⟩ := (executeRender_spec hexecute).2 rfl
      obtain ⟨place, htree, hplace⟩ := FileTree.write_eq_ok hwrite
      refine ⟨configuration, tune, place, rendered, hconfiguration, htune, hplace, ?_, ?_, ?_, ?_⟩
      · rw [htree, FileTree.file?_setFile, if_pos rfl]
      · intro other hother
        rw [htree, FileTree.file?_setFile, if_neg hother, FileTree.file?, FileTree.file?,
          hgrows.tree.files]
      · intro seed' hseed
        rwa [hseed] at hrendered
      · intro hfree σ _ source
        exact (Tune.result_of_noiseFree hfree source _).trans hrendered
    · exact absurd (show (1 : UInt32) = 0 from hcode) (by decide)

/-- A tune, another one with a note that cannot be played, a configuration, and a sound of an
earlier time. -/
def desk : Computer where
  tree :=
    { files :=
        [(["a.txt"], Wave.ascii (text "C6.")), (["b.txt"], Wave.ascii (text "C9.")),
          (["c.toml"], Wave.ascii "format = \"pcm16\"\nseed = 7\n"), (["a.wav"], [1, 2, 3])]
      directories := [] }
  current := []
  printed := ""
  seed := 0
where
  text (steps : String) : String :=
    "tune a\nsequence x\ninstrument i\n  tone square\npattern p " ++ steps ++
      "\nphrase x\n  tempo 100000\n  beats 1\n  subbeats 2\n  melodies\n    i p\n"

/-- The note that cannot be played is met before the sound of an earlier time is written over, and
the other tune is written to a directory that was not there. -/
theorem desk_sparesFiles :
    (∃ ending after, (run "chiptune" (some "c.toml") ["render", "b.txt", "-o", "a.wav"] :
        StateM Computer Ending).run desk = (ending, after) ∧ ending.code = 1 ∧
      after.tree.files = desk.tree.files) ∧
    ∃ ending after, (run "chiptune" (some "c.toml") ["render", "a.txt", "-o", "d/a.wav"] :
        StateM Computer Ending).run desk = (ending, after) ∧ ending.code = 0 ∧
      ∃ tune place, ∃ rendered : RenderedTune Float,
        desk.tuneAt "a.txt" = .ok tune ∧
        (tune.render.outcome (ChaCha.ofSeed 7)).1 = .ok rendered ∧
        after.tree.resolve [] "d/a.wav" = .ok place ∧
        after.tree.file? place = some (Wave.encode .pcm16 sampleRate rendered.buffer) ∧
        ∀ other, other ≠ place → after.tree.file? other = desk.tree.file? other := by
  have hbad : ofArguments ["render", "b.txt", "-o", "a.wav"]
      = some (.render "b.txt" { output := some "a.wav" }) := by decide +kernel
  have hgood : ofArguments ["render", "a.txt", "-o", "d/a.wav"]
      = some (.render "a.txt" { output := some "d/a.wav" }) := by decide +kernel
  have hfails : ((run "chiptune" (some "c.toml") ["render", "b.txt", "-o", "a.wav"] :
      StateM Computer Ending).run desk).1.code = 1 := by decide +kernel
  have hworks : ((run "chiptune" (some "c.toml") ["render", "a.txt", "-o", "d/a.wav"] :
      StateM Computer Ending).run desk).1.code = 0 := by decide +kernel
  have hread : (desk.configurationAt (some "c.toml")).toOption
      = some { format := .pcm16, seed := some 7 } := by decide +kernel
  constructor
  · generalize hrun : (run "chiptune" (some "c.toml") ["render", "b.txt", "-o", "a.wav"] :
      StateM Computer Ending).run desk = outcome at hfails
    obtain ⟨ending, after⟩ := outcome
    obtain ⟨hfiles, -, -⟩ := run_sparesFiles hbad hrun
    exact ⟨ending, after, rfl, hfails, (hfiles hfails).1⟩
  · generalize hrun : (run "chiptune" (some "c.toml") ["render", "a.txt", "-o", "d/a.wav"] :
      StateM Computer Ending).run desk = outcome at hworks
    obtain ⟨ending, after⟩ := outcome
    obtain ⟨-, -, hrender⟩ := run_sparesFiles hgood hrun
    obtain ⟨configuration, tune, place, rendered, hconfiguration, htune, hplace, hbytes, hothers,
      hseed, -⟩ := hrender _ _ rfl hworks
    have hconfiguration : configuration = { format := .pcm16, seed := some 7 } := by
      have h := congrArg Except.toOption hconfiguration
      exact Option.some.inj (h.symm.trans hread)
    subst hconfiguration
    exact ⟨ending, after, rfl, hworks, tune, place, rendered, htune, hseed 7 rfl, hplace, hbytes,
      hothers⟩

end Command

end Chiptune
