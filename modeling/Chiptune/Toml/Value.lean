/-!
# TOML values

The values of a TOML document. Of floating-point numbers and date-times only the kind is kept. A
table remembers how it came about, because that decides whether it may still grow.
-/

namespace Chiptune.Toml

/-- How a table came about. -/
inductive Origin where
  /-- The document itself or a header of its own. -/
  | header
  /-- A header of a table inside it. -/
  | implied
  /-- A dotted key. -/
  | dotted
  /-- Braces. -/
  | inline
deriving DecidableEq

/-- A value of a TOML document. -/
inductive Value where
  | text (s : String)
  | integer (n : Int)
  | boolean (b : Bool)
  | float
  | dateTime
  | array (items : List Value)
  | table (origin : Origin) (entries : List (String × Value))
  /-- An array of tables, each with a header of its own. -/
  | tables (elements : List (List (String × Value)))

/-- The values of a table under their keys. -/
abbrev Entries := List (String × Value)

namespace Entries

/-- Puts a value under a key that is there already. -/
def replace (entries : Entries) (key : String) (value : Value) : Entries :=
  entries.map fun entry => if entry.1 = key then (key, value) else entry

/-- Puts a value under a new key. -/
def insertNew (entries : Entries) (key : String) (value : Value) : Option Entries :=
  if (entries.lookup key).isSome then none else some (entries ++ [(key, value)])

/-- Follows a path of keys and changes the table at its end. Tables that are not there are made. A
dotted path may not enter a table that has a header or braces; no path enters another value. Of an
array of tables it enters the last one. -/
def alter (viaKey : Bool) (change : Origin → Entries → Option (Origin × Entries)) :
    List String → Origin → Entries → Option (Origin × Entries)
  | [], origin, entries => change origin entries
  | key :: path, origin, entries =>
    match entries.lookup key with
    | none => do
      let fresh := if viaKey then Origin.dotted else .implied
      let (inner, found) ← alter viaKey change path fresh []
      return (origin, entries ++ [(key, .table inner found)])
    | some (.table .inline _) => none
    | some (.table inner found) =>
      if viaKey ∧ inner = .header then none
      else do
        let (inner, found) ← alter viaKey change path inner found
        return (origin, entries.replace key (.table inner found))
    | some (.tables elements) => do
      let last ← elements.getLast?
      let (_, found) ← alter viaKey change path .header last
      return (origin, entries.replace key (.tables (elements.dropLast ++ [found])))
    | some _ => none

/-- Puts a value under a dotted key. The table that takes it must have been made by dotted keys too,
unless the key has one part only. -/
def assign (path : List String) (key : String) (value : Value) (origin : Origin)
    (entries : Entries) : Option (Origin × Entries) :=
  alter true (fun inner found =>
    if path ≠ [] ∧ inner ≠ .dotted then none
    else (found.insertNew key value).map fun found => (inner, found)) path origin entries

/-- Opens a table by its header; one that is there must have come about by the header of a table
inside it. -/
def openTable (path : List String) (key : String) (entries : Entries) : Option Entries := do
  let (_, entries) ← alter false (fun inner found =>
    match found.lookup key with
    | none => some (inner, found ++ [(key, .table .header [])])
    | some (.table .implied nested) => some (inner, found.replace key (.table .header nested))
    | some _ => none) path .header entries
  return entries

/-- Opens the next table of an array of tables by its header. -/
def openElement (path : List String) (key : String) (entries : Entries) : Option Entries := do
  let (_, entries) ← alter false (fun inner found =>
    match found.lookup key with
    | none => some (inner, found ++ [(key, .tables [[]])])
    | some (.tables elements) => some (inner, found.replace key (.tables (elements ++ [[]])))
    | some _ => none) path .header entries
  return entries

end Entries

end Chiptune.Toml
