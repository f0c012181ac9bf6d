/-!
# Blanks, comments and strings

The lexical parts of a TOML document. Each reads from the front of a text and gives what it read
with the rest of the text, or nothing if the text does not conform.
-/

namespace Chiptune.Toml

/-- Reads something from the front of a text. -/
abbrev Reader (α : Type) := List Char → Option (α × List Char)

/-! ## Blanks and line ends -/

/-- A space or a tab. -/
def isSpace (c : Char) : Bool := c = ' ' || c = '\t'

/-- A character that may stand in comments and strings. -/
def isPlain (c : Char) : Bool := c = '\t' || (0x20 ≤ c.toNat && c.toNat ≠ 0x7F)

/-- The rest after spaces and tabs. -/
def skipSpaces (text : List Char) : List Char := text.dropWhile isSpace

/-- The rest of a text from the end of a comment on, which is where its plain characters end. -/
def skipComment : List Char → List Char
  | '#' :: cs => cs.dropWhile isPlain
  | cs => cs

/-- The rest after a line end. -/
def newline? : List Char → Option (List Char)
  | '\n' :: cs => some cs
  | '\r' :: '\n' :: cs => some cs
  | _ => none

/-- The rest after blanks, a comment and a line end or the end of the text. -/
def endLine? (text : List Char) : Option (List Char) :=
  match skipComment (skipSpaces text) with
  | [] => some []
  | cs => newline? cs

/-- The rest after blanks, line ends and comments that end with their line. -/
def skipLines : Nat → List Char → Option (List Char)
  | 0, _ => none
  | fuel + 1, text =>
    match skipSpaces text with
    | '#' :: cs => (newline? (skipComment ('#' :: cs))).bind (skipLines fuel)
    | cs =>
      match newline? cs with
      | some rest => skipLines fuel rest
      | none => some cs

/-! ## Strings -/

/-- The character of a one-letter escape. -/
def escape? : Char → Option Char
  | 'b' => some '\x08'
  | 't' => some '\t'
  | 'n' => some '\n'
  | 'f' => some '\x0c'
  | 'r' => some '\r'
  | '"' => some '"'
  | '\\' => some '\\'
  | _ => none

/-- The value of a hexadecimal digit. -/
def hexDigit? (c : Char) : Option Nat :=
  if c.isDigit then some (c.toNat - '0'.toNat)
  else if 'a' ≤ c ∧ c ≤ 'f' then some (c.toNat - 'a'.toNat + 10)
  else if 'A' ≤ c ∧ c ≤ 'F' then some (c.toNat - 'A'.toNat + 10)
  else none

/-- The character whose number is written in hexadecimal digits. -/
def scalar? (digits : List Char) : Option Char := do
  let n ← digits.foldlM (fun n c => (hexDigit? c).map (16 * n + ·)) 0
  if h : n.isValidChar then some (Char.ofNatAux n h) else none

/-- A string in double quotes, from its first character on; `done` holds what was read, the last
character first. -/
def basicString (done : List Char) : Reader String
  | '"' :: cs => some (String.ofList done.reverse, cs)
  | '\\' :: e :: cs =>
    if e = 'u' then
      match cs with
      | a :: b :: c :: d :: cs => do basicString ((← scalar? [a, b, c, d]) :: done) cs
      | _ => none
    else if e = 'U' then
      match cs with
      | a :: b :: c :: d :: e :: f :: g :: h :: cs => do
        basicString ((← scalar? [a, b, c, d, e, f, g, h]) :: done) cs
      | _ => none
    else do basicString ((← escape? e) :: done) cs
  | c :: cs => if isPlain c ∧ c ≠ '\\' then basicString (c :: done) cs else none
  | [] => none

/-- A string in single quotes, from its first character on. -/
def literalString (done : List Char) : Reader String
  | '\'' :: cs => some (String.ofList done.reverse, cs)
  | c :: cs => if isPlain c then literalString (c :: done) cs else none
  | [] => none

/-- What follows three closing quotes: up to two more of them belong to the string. -/
def closeQuotes (quote : Char) (done : List Char) : Reader String
  | a :: b :: cs =>
    if a = quote ∧ b = quote then some (String.ofList (quote :: quote :: done).reverse, cs)
    else if a = quote then some (String.ofList (quote :: done).reverse, b :: cs)
    else some (String.ofList done.reverse, a :: b :: cs)
  | [a] =>
    if a = quote then some (String.ofList (quote :: done).reverse, [])
    else some (String.ofList done.reverse, [a])
  | [] => some (String.ofList done.reverse, [])

/-- Where a string of several lines stands after a backslash at the end of a line. -/
inductive Fold where
  /-- In the text. -/
  | none
  /-- Between the backslash and the end of its line. -/
  | atEnd
  /-- In the blanks of the lines below, which are left out. -/
  | below
deriving DecidableEq

/-- A string in three double quotes, from its first character on. -/
def basicLines (fold : Fold) (done : List Char) : Reader String
  | [] => Option.none
  | '\r' :: '\n' :: cs =>
    if fold = .none then basicLines .none ('\n' :: done) cs else basicLines .below done cs
  | c :: cs =>
    if c = '\n' then
      if fold = .none then basicLines .none ('\n' :: done) cs else basicLines .below done cs
    else if fold ≠ .none ∧ isSpace c then basicLines fold done cs
    else if fold = .atEnd then Option.none
    else if c = '"' then
      match cs with
      | '"' :: '"' :: cs => closeQuotes '"' done cs
      | cs => basicLines .none ('"' :: done) cs
    else if c = '\\' then
      match cs with
      | [] => Option.none
      | e :: cs =>
        if e = 'u' then
          match cs with
          | a :: b :: c :: d :: cs => do basicLines .none ((← scalar? [a, b, c, d]) :: done) cs
          | _ => Option.none
        else if e = 'U' then
          match cs with
          | a :: b :: c :: d :: e :: f :: g :: h :: cs => do
            basicLines .none ((← scalar? [a, b, c, d, e, f, g, h]) :: done) cs
          | _ => Option.none
        else
          match escape? e with
          | some c => basicLines .none (c :: done) cs
          | Option.none =>
            if isSpace e ∨ e = '\n' ∨ e = '\r' then basicLines .atEnd done (e :: cs)
            else Option.none
    else if isPlain c then basicLines .none (c :: done) cs
    else Option.none

/-- A string in three single quotes, from its first character on. -/
def literalLines (done : List Char) : Reader String
  | [] => none
  | '\r' :: '\n' :: cs => literalLines ('\n' :: done) cs
  | '\'' :: '\'' :: '\'' :: cs => closeQuotes '\'' done cs
  | c :: cs => if c = '\n' ∨ isPlain c then literalLines (c :: done) cs else none

/-- The text without a line end at its front. -/
def dropNewline (text : List Char) : List Char := (newline? text).getD text

/-- A string of any kind. -/
def anyString : Reader String
  | '"' :: '"' :: '"' :: cs => basicLines .none [] (dropNewline cs)
  | '"' :: cs => basicString [] cs
  | '\'' :: '\'' :: '\'' :: cs => literalLines [] (dropNewline cs)
  | '\'' :: cs => literalString [] cs
  | _ => none

end Chiptune.Toml
