import Chiptune.Decimal.Count
import Chiptune.Wave.Format

/-!
# Command lines

The words behind the name of the program, read from left to right. A command line asks for a tune to
be rendered or checked, or for help; a request for help counts as soon as it is read. All else is
refused. Options may be given once, in any order, with their value as the next word or attached to
them; two dashes end the options.
-/

namespace Chiptune

/-- What help can be asked about. -/
inductive Topic where
  | program
  | render
  | check
  | help
deriving DecidableEq

/-- What the options of rendering say, as far as they are given. -/
structure RenderOptions where
  output : Option String := none
  seed : Option UInt64 := none
  format : Option SampleFormat := none
  configuration : Option String := none
deriving DecidableEq

/-! ## Options -/

namespace RenderOptions

/-- An option with a value. -/
inductive Name where
  | output
  | seed
  | format
  | configuration
deriving DecidableEq

namespace Name

/-- The option behind two dashes. -/
def ofWord? : String → Option Name
  | "output" => some .output
  | "seed" => some .seed
  | "format" => some .format
  | "config" => some .configuration
  | _ => none

/-- The option behind one dash. -/
def ofLetter? : Char → Option Name
  | 'o' => some .output
  | 'f' => some .format
  | 'c' => some .configuration
  | _ => none

end Name

/-- A path must not be empty. -/
def path? (word : String) : Option String := if word.isEmpty then none else some word

/-- Sets an option that has not been set. -/
def once {α : Type} (old : Option α) (new : Option α) : Option (Option α) :=
  match old, new with
  | none, some a => some (some a)
  | _, _ => none

/-- Takes the value of an option; nothing if it was given before or has no meaning. -/
def take (options : RenderOptions) (name : Name) (word : String) :
    Option RenderOptions :=
  match name with
  | .output => (once options.output (path? word)).map fun output => { options with output }
  | .configuration =>
    (once options.configuration (path? word)).map fun configuration =>
      { options with configuration }
  | .format =>
    (once options.format (SampleFormat.ofWord? word)).map fun format => { options with format }
  | .seed =>
    (once options.seed ((Decimal.readCount? (UInt64.size - 1) word).map Nat.toUInt64)).map fun seed =>
      { options with seed }

end RenderOptions

/-- What a command line asks for. -/
inductive Command where
  | render (input : String) (options : RenderOptions)
  | check (input : String)
  | help (topic : Topic)
deriving DecidableEq

namespace Command

open RenderOptions (path? once)

/-! ## Words -/

/-- How a word of a command line is meant. -/
inductive Word where
  /-- A file, or the value of the option before it. -/
  | plain (text : String)
  | endOfOptions
  | help
  /-- An option whose value is the next word. -/
  | named (name : RenderOptions.Name)
  /-- An option with its value attached. -/
  | assigned (name : RenderOptions.Name) (text : String)
  /-- Something that has no meaning. -/
  | unknown
deriving DecidableEq

/-- How a word that starts with two dashes is meant. -/
def Word.ofLong (cs : List Char) : Word :=
  let name := String.ofList (cs.takeWhile (· ≠ '='))
  match cs.dropWhile (· ≠ '='), RenderOptions.Name.ofWord? name with
  | [], some option => .named option
  | [], none => if name = "help" then .help else .unknown
  | _ :: text, some option => .assigned option (String.ofList text)
  | _ :: _, none => .unknown

/-- How a word that starts with one dash is meant. -/
def Word.ofShort (letter : Char) (text : List Char) : Word :=
  if letter = 'h' then .help
  else
    match RenderOptions.Name.ofLetter? letter, text with
    | some option, [] => .named option
    | some option, '=' :: text => .assigned option (String.ofList text)
    | some option, text => .assigned option (String.ofList text)
    | none, _ => .unknown

/-- How a word is meant. A single dash is a file. -/
def Word.ofText (text : String) : Word :=
  match text.toList with
  | ['-', '-'] => .endOfOptions
  | '-' :: '-' :: cs => .ofLong cs
  | '-' :: c :: cs => .ofShort c cs
  | _ => .plain text

/-! ## Commands -/

/-- Reads the words behind `render`. -/
def readRender (input : Option String) (options : RenderOptions) (ended : Bool) :
    List String → Option Command
  | [] => input.map fun input => .render input options
  | text :: words =>
    if ended then do readRender (← once input (path? text)) options ended words
    else
      match Word.ofText text with
      | .plain text => do readRender (← once input (path? text)) options ended words
      | .endOfOptions => readRender input options true words
      | .help => some (.help .render)
      | .assigned name value => do readRender input (← options.take name value) ended words
      | .named name =>
        match words with
        | [] => none
        | value :: words =>
          match Word.ofText value with
          | .plain value => do readRender input (← options.take name value) ended words
          | _ => none
      | .unknown => none

/-- Reads the words behind `check`, which has no options. -/
def readCheck (input : Option String) (ended : Bool) : List String → Option Command
  | [] => input.map .check
  | text :: words =>
    if ended then do readCheck (← once input (path? text)) ended words
    else
      match Word.ofText text with
      | .plain text => do readCheck (← once input (path? text)) ended words
      | .endOfOptions => readCheck input true words
      | .help => some (.help .check)
      | _ => none

/-- Reads the words behind `help`. -/
def readHelp : List String → Option Command
  | [] => some (.help .program)
  | ["render"] => some (.help .render)
  | ["check"] => some (.help .check)
  | ["help"] => some (.help .help)
  | _ => none

/-- Reads a command line. -/
def ofArguments : List String → Option Command
  | [] => none
  | "render" :: words => readRender none {} false words
  | "check" :: words => readCheck none false words
  | "help" :: words => readHelp words
  | word :: _ => if Word.ofText word = .help then some (.help .program) else none

end Command

end Chiptune
