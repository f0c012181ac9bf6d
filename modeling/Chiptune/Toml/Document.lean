import Chiptune.Toml.Scalar

/-!
# TOML documents

A document is a list of lines: `key = value` assigns in the table that is open, `[key]` opens a
table and `[[key]]` the next table of an array. Values nest in brackets and braces. Values and keys
of more than 79 levels are refused.
-/

namespace Chiptune.Toml

/-- The number of levels that is too many. -/
def levelLimit : Nat := 80

/-! ## Keys -/

/-- A character of a key without quotes. -/
def isBareKeyChar (c : Char) : Bool := c.isAlphanum || c = '-' || c = '_'

/-- One part of a key. -/
def keyPart : Reader String
  | '"' :: cs => basicString [] cs
  | '\'' :: cs => literalString [] cs
  | cs =>
    match cs.takeWhile isBareKeyChar with
    | [] => none
    | bare => some (String.ofList bare, cs.dropWhile isBareKeyChar)

/-- The parts of a key, with blanks around the dots. -/
def keyParts : Nat → Reader (List String)
  | 0, _ => none
  | fuel + 1, text => do
    let (part, rest) ← keyPart (skipSpaces text)
    match skipSpaces rest with
    | '.' :: rest =>
      let (parts, rest) ← keyParts fuel rest
      return (part :: parts, rest)
    | rest => return ([part], rest)

/-- A key as the path to a table and the last part. -/
def key (text : List Char) : Option ((List String × String) × List Char) := do
  let (parts, rest) ← keyParts (text.length + 1) text
  if levelLimit ≤ parts.length then none
  else
    let last ← parts.getLast?
    return ((parts.dropLast, last), rest)

/-! ## Values -/

mutual

/-- A value; `levels` is the number of brackets and braces it may still open. -/
def value : Nat → Nat → Reader Value
  | 0, _, _ => none
  | fuel + 1, levels, text =>
    match text with
    | '[' :: cs =>
      match levels with
      | 0 => none
      | levels + 1 => do
        let (items, rest) ← items fuel levels cs
        return (.array items, rest)
    | '\x7b' :: cs =>
      match levels with
      | 0 => none
      | levels + 1 =>
        match skipSpaces cs with
        | '\x7d' :: rest => some (.table .inline [], rest)
        | cs => do
          let (entries, rest) ← fields fuel levels [] cs
          return (.table .inline entries, rest)
    | '"' :: _ | '\'' :: _ => do
      let (s, rest) ← anyString text
      return (.text s, rest)
    | _ => anyScalar text

/-- The items of an array, from behind its bracket or a comma on. -/
def items : Nat → Nat → Reader (List Value)
  | 0, _, _ => none
  | fuel + 1, levels, text => do
    match ← skipLines (text.length + 1) text with
    | ']' :: rest => return ([], rest)
    | cs =>
      let (item, rest) ← value fuel levels cs
      match ← skipLines (rest.length + 1) rest with
      | ',' :: rest =>
        let (more, rest) ← items fuel levels rest
        return (item :: more, rest)
      | ']' :: rest => return ([item], rest)
      | _ => none

/-- The fields of a table in braces, at least one. -/
def fields : Nat → Nat → Entries → Reader Entries
  | 0, _, _, _ => none
  | fuel + 1, levels, entries, text => do
    let ((path, last), rest) ← key text
    let (item, rest) ← value fuel levels (skipSpaces (← mark? '=' rest))
    let (_, entries) ← entries.assign path last item .header
    match skipSpaces rest with
    | ',' :: rest => fields fuel levels entries rest
    | '\x7d' :: rest => return (entries, rest)
    | _ => none

end

/-! ## Lines -/

/-- A document in the making: its tables and the path to the open one. -/
structure Draft where
  entries : Entries := []
  opened : List String := []

/-- Assigns in the open table. -/
def Draft.assign (draft : Draft) (path : List String) (last : String) (item : Value) :
    Option Draft := do
  let (_, entries) ← draft.entries.alter false (Entries.assign path last item) draft.opened .header
  return { draft with entries }

/-- A line behind a bracket: the header of a table or of an element of an array of tables. -/
def header (draft : Draft) (text : List Char) : Option (Draft × List Char) := do
  match text with
  | '[' :: cs =>
    let ((path, last), rest) ← key cs
    let rest ← mark? ']' (← mark? ']' rest)
    return (⟨← draft.entries.openElement path last, path ++ [last]⟩, rest)
  | cs =>
    let ((path, last), rest) ← key cs
    let rest ← mark? ']' rest
    return (⟨← draft.entries.openTable path last, path ++ [last]⟩, rest)

/-- A line with a key and a value. -/
def assignment (draft : Draft) (text : List Char) : Option (Draft × List Char) := do
  let ((path, last), rest) ← key text
  let rest := skipSpaces (← mark? '=' rest)
  let (item, rest) ← value (2 * rest.length + 2) (levelLimit - 1) rest
  return (← draft.assign path last item, rest)

/-- What a line holds besides blanks and a comment. -/
def content (draft : Draft) (text : List Char) : Option (Draft × List Char) :=
  match text with
  | [] | '#' :: _ | '\n' :: _ | '\r' :: _ => some (draft, text)
  | '[' :: cs => header draft cs
  | cs => assignment draft cs

/-- The lines of a document. -/
def linesOf : Nat → Draft → List Char → Option Draft
  | 0, _, _ => none
  | _ + 1, draft, [] => some draft
  | fuel + 1, draft, text => do
    let (draft, rest) ← content draft (skipSpaces text)
    linesOf fuel draft (← endLine? rest)

/-- The entries of a document. A byte order mark at its front is passed over. -/
def parse (text : String) : Option Entries :=
  let text := match text.toList with
    | '\uFEFF' :: cs => cs
    | cs => cs
  (linesOf (text.length + 1) {} text).map Draft.entries

end Chiptune.Toml
