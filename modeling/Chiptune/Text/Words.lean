/-!
# Lines and words

Texts are cut at line feeds into lines and at blanks into words. A blank is a character with the
White_Space property; a carriage return before a line feed is therefore a blank at the end of its
line.
-/

namespace Chiptune.Text

/-- The characters with the White_Space property. -/
def isBlank (c : Char) : Bool :=
  let n := c.toNat
  (9 ≤ n && n ≤ 13) || n == 0x20 || n == 0x85 || n == 0xA0 || n == 0x1680 ||
    (0x2000 ≤ n && n ≤ 0x200A) || n == 0x2028 || n == 0x2029 || n == 0x202F || n == 0x205F ||
    n == 0x3000

/-- Cuts at line feeds; `line` holds the line in progress, its last character first. -/
def linesFrom (line : List Char) : List Char → List (List Char)
  | [] => [line.reverse]
  | c :: cs => if c = '\n' then line.reverse :: linesFrom [] cs else linesFrom (c :: line) cs

/-- The texts between the line feeds. -/
def lines (text : List Char) : List (List Char) := linesFrom [] text

/-- Cuts at blanks; `word` holds the word in progress, its last character first. -/
def wordsFrom (word : List Char) : List Char → List (List Char)
  | [] => if word.isEmpty then [] else [word.reverse]
  | c :: cs =>
    if isBlank c then
      if word.isEmpty then wordsFrom [] cs else word.reverse :: wordsFrom [] cs
    else wordsFrom (c :: word) cs

/-- The runs of characters between blanks, none of them empty. -/
def words (text : List Char) : List (List Char) := wordsFrom [] text

/-- The text without the blanks around it. -/
def trim (text : List Char) : List Char :=
  ((text.dropWhile isBlank).reverse.dropWhile isBlank).reverse

end Chiptune.Text
