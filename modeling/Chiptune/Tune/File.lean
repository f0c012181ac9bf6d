import Chiptune.Configuration
import Chiptune.Random.ChaCha
import Chiptune.Statistics
import Chiptune.Tune.Assembly
import Chiptune.Tune.Render
import Chiptune.Wave.Encode

/-!
# Tunes in files

Reading the text of a tune from a file, and rendering a tune to a wave file. The file is written
last: a tune that cannot be rendered leaves it alone.
-/

namespace Chiptune.Tune

variable {m : Type → Type} [Host m]

/-- The tune that the text in a file describes. -/
def ofFile (path : String) : m (Report Tune) := do
  match ← readText path with
  | .ok text => return ofText text
  | .error fault => return .fail (.file fault)

/-- The random source of a configuration. -/
def sourceOf (configuration : Configuration) : m ChaCha.Generator := do
  match configuration.seed with
  | some seed => return ChaCha.ofSeed seed
  | none => return ChaCha.ofSeed (← Host.chance)

/-- Renders a tune to a file and describes the sound. -/
def renderToFile (tune : Tune) (configuration : Configuration) (path : String) :
    m (Report Statistics) := do
  let source ← sourceOf configuration
  let rendering : Report (RenderedTune Float) := (tune.render source).1
  match rendering.result with
  | .error fault => return ⟨rendering.events, .error fault⟩
  | .ok rendered =>
    let statistics := Statistics.ofFrames rendered.buffer
    let events := rendering.events ++ [.encoding rendered.buffer.size sampleRate path]
    let bytes := Wave.encode configuration.format sampleRate rendered.buffer
    match ← Host.writeFile path bytes with
    | .error fault => return ⟨events, .error (.wave fault)⟩
    | .ok () =>
      return ⟨events ++
        [.wroteFile tune.name statistics.frameCount configuration.format.word path],
        .ok statistics⟩

end Chiptune.Tune
