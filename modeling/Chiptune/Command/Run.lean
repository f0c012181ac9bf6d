import Chiptune.Command.Help
import Chiptune.Command.Overview
import Chiptune.Tune.File

/-!
# Running commands

Rendering goes through its steps in a fixed order: the configuration, the tune, the directory of the
output, the sound, the file. What a command prints before it fails stays printed.
-/

namespace Chiptune

/-- Why a command failed. -/
inductive Failure where
  /-- The tune, its configuration or its sound. -/
  | work (fault : Fault)
  /-- The directory of the output cannot be made. -/
  | directory (fault : FileFault)
deriving DecidableEq

/-- The cause of a failure with its parts. -/
def Failure.detail : Failure → String
  | .work fault => fault.detail
  | .directory fault => fault.detail

namespace Command

variable {m : Type → Type} [Host m]

/-- Prints lines. -/
def printLines (lines : List String) : m Unit :=
  Host.print (String.join (lines.map (· ++ "\n")))

/-- The configuration that counts: of the file that the command line names or else the default one,
overruled by the options. -/
def effectiveConfiguration (options : RenderOptions) (configuration : Configuration) :
    Configuration :=
  { configuration with
    seed := options.seed <|> configuration.seed
    format := options.format.getD configuration.format }

/-- Renders the tune in a file. -/
def executeRender (defaultPath : Option String) (input : String) (options : RenderOptions) :
    m (Except Failure Unit) := do
  let configuration ← match options.configuration <|> defaultPath with
    | some path => Configuration.load path
    | none => pure (.ofExcept (.ok {}))
  match configuration.result with
  | .error fault => return .error (.work fault)
  | .ok configuration =>
    let configuration := effectiveConfiguration options configuration
    match (← Tune.ofFile input).result with
    | .error fault => return .error (.work fault)
    | .ok tune =>
      let output := options.output.getD (configuration.outputPath tune.name)
      match ← makeDirectories ((Path.parent? output).getD "") with
      | .error fault => return .error (.directory fault)
      | .ok () =>
        printLines ["PicoTune Renderer",
          "=================",
          s!"Input:       {input}",
          s!"Output:      {output}",
          s!"Tune:        {tune.name}",
          s!"Format:      {configuration.format.word}",
          ""]
        match (← tune.renderToFile configuration output).result with
        | .error fault => return .error (.work fault)
        | .ok statistics =>
          printLines statistics.summary
          return .ok ()

/-- Describes the tune in a file. -/
def executeCheck (input : String) : m (Except Failure Unit) := do
  match (← Tune.ofFile input).result >>= Tune.overview with
  | .error fault => return .error (.work fault)
  | .ok lines =>
    printLines lines
    return .ok ()

/-- Runs a command; `program` is the name that the program was started under, and `defaultPath` is
where a configuration is looked for if none is named. -/
def execute (program : String) (defaultPath : Option String) : Command → m (Except Failure Unit)
  | .render input options => executeRender defaultPath input options
  | .check input => executeCheck input
  | .help topic => do
    printLines (topic.lines program)
    return .ok ()

/-- How a run ended. -/
inductive Ending where
  | success
  | failure (failure : Failure)
  /-- The command line makes no sense. -/
  | refused
deriving DecidableEq

/-- The number that the program ends with. -/
def Ending.code : Ending → UInt32
  | .success => 0
  | .failure _ => 1
  | .refused => 2

/-- Runs a command line. -/
def run (program : String) (defaultPath : Option String) (arguments : List String) :
    m Ending := do
  match ofArguments arguments with
  | none => return .refused
  | some command =>
    match ← execute program defaultPath command with
    | .ok () => return .success
    | .error failure => return .failure failure

end Command

end Chiptune
