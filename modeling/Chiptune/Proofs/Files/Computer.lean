import Chiptune.Command.Run
import Chiptune.Proofs.Files.Tree

/-!
# Actions on a computer

A computer is a value, so that what a command does is a function from the computer before it to a
result and the computer after it. Reading leaves the computer as it was, and making directories
changes no file, however far it gets.

* `Computer.run_bind` and `Computer.exists_run`, chains of actions;
* `Computer.textAt`, `Computer.configurationAt` and `Computer.tuneAt`, what is read;
* `Computer.Grows` and `Spares`, actions that change no file.
-/

namespace Chiptune

/-! ## Running on a computer -/

namespace Computer

variable {α β : Type}

/-- A chain runs its second part on what the first one leaves. -/
theorem run_bind {action : StateM Computer α} {before between : Computer} {a : α}
    (h : action.run before = (a, between)) (next : α → StateM Computer β) :
    (action >>= next).run before = (next a).run between := by
  rw [StateT.run_bind, h]
  rfl

/-- A chain comes to its end by way of a result of its first part. -/
theorem exists_run {action : StateM Computer α} {next : α → StateM Computer β}
    {before after : Computer} {b : β} (h : (action >>= next).run before = (b, after)) :
    ∃ a between, action.run before = (a, between) ∧ (next a).run between = (b, after) :=
  ⟨(action.run before).1, (action.run before).2, rfl, h⟩

/-- The text of the file that a path leads to. -/
def textAt (computer : Computer) (path : String) : Except FileFault String :=
  match computer.tree.read computer.current path with
  | .error fault => .error fault
  | .ok bytes =>
    match String.fromUTF8? ⟨bytes.toArray⟩ with
    | some text => .ok text
    | none => .error .notText

/-- The tune in the file that a path leads to. -/
def tuneAt (computer : Computer) (path : String) : Except Fault Tune :=
  match computer.textAt path with
  | .ok text => (Tune.ofText text).result
  | .error fault => .error (.file fault)

/-- The configuration in the file that a path leads to: the defaults if there is no path, or nothing
where it leads. -/
def configurationAt (computer : Computer) : Option String → Except Fault Configuration
  | none => .ok {}
  | some path =>
    if computer.tree.holds computer.current path then
      match computer.textAt path with
      | .ok text => Configuration.ofText text
      | .error fault => .error (.file fault)
    else .ok {}

theorem run_readText (computer : Computer) (path : String) :
    (readText path : StateM Computer _).run computer = (computer.textAt path, computer) := by
  have hread : (Host.readFile path : StateM Computer _).run computer
      = (computer.tree.read computer.current path, computer) := rfl
  unfold readText textAt
  rw [run_bind hread]
  cases computer.tree.read computer.current path with
  | error fault => rfl
  | ok bytes =>
    simp only
    cases String.fromUTF8? ⟨bytes.toArray⟩ <;> rfl

/-- Reading a tune changes nothing. -/
theorem run_ofFile (computer : Computer) (path : String) :
    ∃ report : Report Tune,
      (Tune.ofFile path : StateM Computer _).run computer = (report, computer) ∧
      report.result = computer.tuneAt path := by
  unfold Tune.ofFile tuneAt
  rw [run_bind (run_readText computer path)]
  cases computer.textAt path with
  | ok text => exact ⟨_, rfl, rfl⟩
  | error fault => exact ⟨_, rfl, rfl⟩

/-- Reading a configuration changes nothing. -/
theorem run_load (computer : Computer) (path : String) :
    ∃ report : Report Configuration,
      (Configuration.load path : StateM Computer _).run computer = (report, computer) ∧
      report.result = computer.configurationAt (some path) := by
  have hexists : (Host.pathExists path : StateM Computer _).run computer
      = (computer.tree.holds computer.current path, computer) := rfl
  have hresult : computer.configurationAt (some path)
      = if computer.tree.holds computer.current path then
          match computer.textAt path with
          | .ok text => Configuration.ofText text
          | .error fault => .error (.file fault)
        else .ok {} := rfl
  unfold Configuration.load
  rw [run_bind hexists, hresult]
  split_ifs
  · rw [run_bind (run_readText computer path)]
    cases computer.textAt path with
    | ok text => exact ⟨_, rfl, rfl⟩
    | error fault => exact ⟨_, rfl, rfl⟩
  · exact ⟨_, rfl, rfl⟩

/-- What starts by reading a configuration, or with the defaults if there is no place for one, goes
on with a report of what is read. -/
theorem exists_configuration {computer : Computer} {place : Option String}
    {next : Report Configuration → StateM Computer α} {ending : α × Computer}
    (h : (match place with
      | some path => Configuration.load path >>= next
      | none => pure (.ofExcept (.ok {})) >>= next : StateM Computer α).run computer = ending) :
    ∃ report, report.result = computer.configurationAt place ∧
      (next report).run computer = ending := by
  cases place with
  | none => exact ⟨_, rfl, h⟩
  | some path =>
    obtain ⟨report, hload, hresult⟩ := computer.run_load path
    simp only at h
    rw [run_bind hload] at h
    exact ⟨report, hresult, h⟩

/-- A change is made as a whole or not at all. -/
theorem run_attempt (computer : Computer) (change : FileTree → Except FileFault FileTree) :
    (attempt change).run computer =
      match change computer.tree with
      | .ok tree => (.ok (), { computer with tree })
      | .error fault => (.error fault, computer) := by
  have hget : (get : StateM Computer _).run computer = (computer, computer) := rfl
  unfold attempt
  rw [run_bind hget]
  cases change computer.tree <;> rfl

/-! ## Actions that change no file -/

/-- The files, and where relative paths start, are the same; there may be new directories. -/
structure Grows (before after : Computer) : Prop where
  tree : before.tree.Grows after.tree
  current : after.current = before.current

theorem Grows.refl (computer : Computer) : computer.Grows computer := ⟨.refl _, rfl⟩

theorem Grows.trans {before between after : Computer} (h : before.Grows between)
    (hafter : between.Grows after) : before.Grows after :=
  ⟨h.tree.trans hafter.tree, hafter.current.trans h.current⟩

end Computer

/-- Whatever computer it is run on, the action changes no file. -/
def Spares {α : Type} (action : StateM Computer α) : Prop :=
  ∀ computer : Computer, computer.Grows (action.run computer).2

namespace Spares

variable {α β : Type}

theorem grows {action : StateM Computer α} (h : Spares action) {before after : Computer} {a : α}
    (hrun : action.run before = (a, after)) : before.Grows after := by
  have hgrows := h before
  rwa [hrun] at hgrows

theorem pure (a : α) : Spares (Pure.pure a : StateM Computer α) := Computer.Grows.refl

theorem bind {action : StateM Computer α} {next : α → StateM Computer β} (h : Spares action)
    (hnext : ∀ a, Spares (next a)) : Spares (action >>= next) := by
  intro computer
  rw [StateT.run_bind]
  exact (h computer).trans (hnext _ _)

theorem isDirectory (path : String) : Spares (Host.isDirectory path) := Computer.Grows.refl

theorem printLines (lines : List String) : Spares (Command.printLines lines) :=
  fun computer => ⟨.refl computer.tree, rfl⟩

/-- A directory may be made or not. -/
theorem makeDirectory (path : String) : Spares (Host.makeDirectory path) := by
  intro computer
  have hrun : (Host.makeDirectory path : StateM Computer _).run computer
      = match computer.tree.makeDirectory computer.current path with
        | .ok tree => (.ok (), { computer with tree })
        | .error fault => (.error fault, computer) :=
    Computer.run_attempt computer (·.makeDirectory computer.current path)
  rw [hrun]
  cases hmade : computer.tree.makeDirectory computer.current path with
  | error fault => exact .refl computer
  | ok tree => exact ⟨FileTree.makeDirectory_grows hmade, rfl⟩

theorem findStanding (inside paths : List String) :
    Spares (Chiptune.findStanding inside paths) := by
  induction paths generalizing inside with
  | nil => exact pure _
  | cons path around ih =>
    unfold Chiptune.findStanding
    refine (makeDirectory path).bind fun made => ?_
    split
    · exact pure _
    · exact ih _
    · refine (isDirectory path).bind fun found => ?_
      split_ifs <;> exact pure _

theorem makeMissing (paths : List String) : Spares (Chiptune.makeMissing paths) := by
  induction paths with
  | nil => exact pure _
  | cons path inside ih =>
    unfold Chiptune.makeMissing
    refine (makeDirectory path).bind fun made => ?_
    split
    · exact ih
    · refine (isDirectory path).bind fun found => ?_
      split_ifs
      · exact ih
      · exact pure _

theorem makeDirectories (path : String) : Spares (Chiptune.makeDirectories path) := by
  unfold Chiptune.makeDirectories
  refine (findStanding [] _).bind fun standing => ?_
  split
  · exact pure _
  · exact makeMissing _

end Spares

end Chiptune
