import Chiptune.Main
import Chiptune.Proofs.Binary64.Nearest
import Chiptune.Proofs.Binary64.Unpacked
import Chiptune.Proofs.Binary64.Arithmetic
import Chiptune.Proofs.Binary64.Order
import Chiptune.Proofs.Folding
import Chiptune.Proofs.Binary64.SignedZero
import Chiptune.Proofs.Settled
import Chiptune.Proofs.Buffer
import Chiptune.Proofs.Phrase.Strokes
import Chiptune.Proofs.Phrase.Placement
import Chiptune.Proofs.Phrase.HeldNote
import Chiptune.Proofs.Tone
import Chiptune.Proofs.Performance
import Chiptune.Proofs.Phrase.Playing
import Chiptune.Proofs.Catalog
import Chiptune.Proofs.Tune.Concatenation
import Chiptune.Proofs.Range
import Chiptune.Proofs.Phrase.Solo
import Chiptune.Proofs.Numeral
import Chiptune.Proofs.Check
import Chiptune.Proofs.Record.Build
import Chiptune.Proofs.Tune.Definitions
import Chiptune.Proofs.Tune.Checks
import Chiptune.Proofs.Pattern.Token
import Chiptune.Proofs.Record.Source
import Chiptune.Proofs.Tune.Links
import Chiptune.Proofs.Tune.Notes
import Chiptune.Proofs.Text.Words
import Chiptune.Proofs.Record.Layout
import Chiptune.Proofs.Tune.Layout
import Chiptune.Proofs.Phrase.Draws
import Chiptune.Proofs.Tune.Draws
import Chiptune.Proofs.Phrase.Causality
import Chiptune.Proofs.Tune.Extension
import Chiptune.Proofs.Text.Page
import Chiptune.Proofs.Record.Stanza
import Chiptune.Proofs.Tune.Rearrangement
import Chiptune.Proofs.Likeness
import Chiptune.Proofs.Tune.Mirror
import Chiptune.Proofs.Phrase.Ears
import Chiptune.Proofs.Tune.Ears
import Chiptune.Proofs.Files.Tree
import Chiptune.Proofs.Files.Computer
import Chiptune.Proofs.Command.Effects
import Chiptune.Proofs.Binary64.Optimal
import Chiptune.Proofs.Binary64.Fields
import Chiptune.Proofs.Binary32
import Chiptune.Proofs.Wave.Sample
import Chiptune.Proofs.Wave.Reader
import Chiptune.Proofs.Wave.Roundtrip
import Chiptune.Proofs.Pattern.Cutting
import Chiptune.Proofs.Phrase.Length
import Chiptune.Proofs.Phrase.StepLoop
import Chiptune.Proofs.Phrase.StepGrid
import Chiptune.Proofs.Files.Path
import Chiptune.Proofs.Command.OutputPath
import Chiptune.Proofs.Tune.Size
import Chiptune.Proofs.Phrase.Timing
import Chiptune.Proofs.Loudness
import Chiptune.Proofs.Phrase.Muted
import Chiptune.Proofs.Phrase.Reverb
import Chiptune.Proofs.Exact.Reflection
import Chiptune.Proofs.Exact.Tone
import Chiptune.Proofs.Phrase.QuietMix
import Chiptune.Proofs.Record.Melodies
import Chiptune.Proofs.Pattern.Roundtrip
import Chiptune.Proofs.Record.Places
import Chiptune.Proofs.Record.Settings
import Chiptune.Proofs.Record.Ownership
import Chiptune.Proofs.Echo
