import Chiptune.Command.Arguments

/-!
# Help texts

What is printed to explain the program or one of its commands. The program goes by the name that it
was started under.
-/

namespace Chiptune.Topic

/-- The lines that explain a program of this name or one of its commands. -/
def lines (program : String) : Topic → List String
  | .program =>
    ["Tiny chiptune synthesizer",
     "",
     "Usage: " ++ program ++ " <COMMAND>",
     "",
     "Commands:",
     "  render  Render a tune file to WAV",
     "  check   Load a tune file and describe it without rendering",
     "  help    Print this message or the help of the given subcommand(s)",
     "",
     "Options:",
     "  -h, --help  Print help"]
  | .render =>
    ["Render a tune file to WAV",
     "",
     "Usage: " ++ program ++ " render [OPTIONS] <INPUT>",
     "",
     "Arguments:",
     "  <INPUT>  Tune description file",
     "",
     "Options:",
     "  -o, --output <OUTPUT>  Output WAV path (default: <output_dir>/<tune name>.wav)",
     "      --seed <SEED>      Seed for the noise oscillator",
     "  -f, --format <FORMAT>  Sample format: pcm8, pcm16 or float32",
     "  -c, --config <CONFIG>  Config file (default: <config dir>/picotune/config.toml)",
     "  -h, --help             Print help"]
  | .check =>
    ["Load a tune file and describe it without rendering",
     "",
     "Usage: " ++ program ++ " check <INPUT>",
     "",
     "Arguments:",
     "  <INPUT>  Tune description file",
     "",
     "Options:",
     "  -h, --help  Print help"]
  | .help =>
    ["Print this message or the help of the given subcommand(s)",
     "",
     "Usage: " ++ program ++ " help [COMMAND]...",
     "",
     "Arguments:",
     "  [COMMAND]...  Print help for the subcommand(s)"]

end Chiptune.Topic
