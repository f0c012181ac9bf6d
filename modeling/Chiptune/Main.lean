import Chiptune.Command.Run

/-!
# The program

Commands on the machine at hand. Everything that is decided is decided elsewhere; here files are
read and written, lines printed, and the outcome handed to the system.
-/

namespace Chiptune

/-- The fault behind a refusal of the system. -/
def FileFault.ofError : IO.Error → FileFault
  | .alreadyExists _ code text | .interrupted _ code text | .noFileOrDirectory _ code text
  | .invalidArgument _ code text | .permissionDenied _ code text | .resourceExhausted _ code text
  | .inappropriateType _ code text | .noSuchThing _ code text | .otherError code text
  | .resourceBusy code text | .resourceVanished code text | .unsupportedOperation code text
  | .hardwareFault code text | .unsatisfiedConstraints code text | .illegalOperation code text
  | .protocolError code text | .timeExpired code text => .ofSystem code.toNat text
  | .unexpectedEof => .other 0 "unexpected end of file"
  | .userError text => .other 0 text

/-- Does something with files, or says why it cannot be done. -/
def attempt {α : Type} (path : String) (action : IO α) : IO (Except FileFault α) := do
  if path.contains '\x00' then return .error .nullInPath
  try return .ok (← action) catch error => return .error (.ofError error)

/-- Files are opened and closed again to see whether they are there. -/
instance : Host IO where
  pathExists path := do
    match ← attempt path (discard (IO.FS.Handle.mk path .read)) with
    | .ok () | .error .permissionDenied => return true
    | .error _ => return false
  readFile path := attempt path do
    return (← (← IO.FS.Handle.mk path .read).readBinToEnd).toList
  writeFile path bytes := attempt path (IO.FS.writeBinFile path ⟨bytes.toArray⟩)
  isDirectory path := do
    match ← attempt path (do (← IO.FS.realPath path).isDir) with
    | .ok found => return found
    | .error _ => return false
  makeDirectory path := attempt path (IO.FS.createDir path)
  print text := do
    IO.print text
    (← IO.getStdout).flush
  chance := do
    return (← IO.getRandomBytes 8).toList.foldl (fun n byte => 256 * n + byte.toUInt64) 0

/-- Where a configuration is looked for if none is named. -/
def defaultConfiguration : IO (Option String) := do
  let given := (← IO.getEnv "XDG_CONFIG_HOME").filter Path.isAbsolute
  let home := (← IO.getEnv "HOME").filter (!·.isEmpty)
  return (given <|> home.map (Path.join · ".config")).map (Path.join · "picotune/config.toml")

/-- The name that the program was started under. -/
def programName : IO String := do
  return (← IO.appPath).fileName.getD "chiptune"

end Chiptune

open Chiptune in
/-- Runs the program. -/
def main (arguments : List String) : IO UInt32 := do
  let program ← programName
  let ending ← Command.run program (← defaultConfiguration) arguments
  match ending with
  | .success => pure ()
  | .failure failure => IO.eprintln ("Error: " ++ failure.detail)
  | .refused => IO.eprintln (String.intercalate "\n" (Topic.lines program .program))
  return ending.code
