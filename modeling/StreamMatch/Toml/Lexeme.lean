-- Blanks, comments, strings and keys of TOML documents. Each reader gives what
-- it read and the characters after it.

namespace StreamMatch.Toml

/-- Reads something from the start of a text. -/
abbrev Reader (α : Type) := List Char → Option (α × List Char)

/-! ## Blanks and comments -/

/-- Returns whether a character separates without ending a line. -/
def isBlank (c : Char) : Bool := c == ' ' || c == '\t'

/-- Returns whether a character can stand in a line of text. -/
def isText (c : Char) : Bool := c == '\t' || (32 ≤ c.toNat && c.toNat != 127)

/-- Skips blanks. -/
def skipBlanks (cs : List Char) : List Char := cs.dropWhile isBlank

/-- Skips a comment, up to the end of its line. -/
def skipComment : List Char → List Char
  | '#' :: rest => rest.dropWhile isText
  | cs => cs

/-- What follows the end of a line. -/
def newline? : List Char → Option (List Char)
  | '\n' :: rest => some rest
  | '\r' :: '\n' :: rest => some rest
  | _ => none

/-- Skips blanks and a comment. Then either the line ends, or the text. -/
def lineEnd? (cs : List Char) : Option (List Char) :=
  match skipComment (skipBlanks cs) with
  | [] => some []
  | rest => newline? rest

/-- Skips blanks and ends of lines. -/
def skipBlankLines (cs : List Char) : List Char :=
  match cs with
  | '\r' :: '\n' :: rest => skipBlankLines rest
  | c :: rest => if isBlank c || c == '\n' then skipBlankLines rest else c :: rest
  | [] => []

/-- Skips blanks, comments and ends of lines. -/
def skipFiller (cs : List Char) : List Char :=
  let rest := skipComment (skipBlankLines cs)
  if rest.length < cs.length then skipFiller rest else cs
termination_by cs.length

/-! ## Strings -/

/-- The value of a digit in base 16. -/
def hexValue? (c : Char) : Option Nat :=
  if c.isDigit then some (c.toNat - 48)
  else if 'a' ≤ c ∧ c ≤ 'f' then some (c.toNat - 87)
  else if 'A' ≤ c ∧ c ≤ 'F' then some (c.toNat - 55)
  else none

/-- Reads the character whose number is written in `n` digits. -/
def codePoint (n : Nat) : Reader Char := fun cs => do
  let digits ← (cs.take n).mapM hexValue?
  let code := digits.foldl (fun code d => 16 * code + d) 0
  if digits.length = n ∧ code.isValidChar then return (Char.ofNat code, cs.drop n)
  else none

/-- Reads what follows a backslash. -/
def escape : Reader Char
  | 'b' :: rest => some ('\x08', rest)
  | 't' :: rest => some ('\t', rest)
  | 'n' :: rest => some ('\n', rest)
  | 'f' :: rest => some ('\x0c', rest)
  | 'r' :: rest => some ('\r', rest)
  | '"' :: rest => some ('"', rest)
  | '\\' :: rest => some ('\\', rest)
  | 'u' :: rest => codePoint 4 rest
  | 'U' :: rest => codePoint 8 rest
  | _ => none

/-- Reads a string of one line, after its first quote and the characters in
`found`, the last one first. Only between double quotes there are escapes. -/
def lineString (quote : Char) (found : List Char) (cs : List Char) : Option (String × List Char) :=
  match cs with
  | [] => none
  | c :: rest =>
    if c = quote then some (String.ofList found.reverse, rest)
    else if c = '\\' ∧ quote = '"' then
      match escape rest with
      | some (c, rest') =>
        if rest'.length < rest.length then lineString quote (c :: found) rest' else none
      | none => none
    else if isText c then lineString quote (c :: found) rest
    else none
termination_by cs.length

/-- Reads a string of several lines, like a string of one line. It ends with
three quotes, and up to two more right before them belong to it. -/
def blockString (quote : Char) (found : List Char) (cs : List Char) :
    Option (String × List Char) :=
  match cs with
  | [] => none
  | c :: rest =>
    if c = quote then
      let quotes := (cs.takeWhile (· == quote)).length
      if quotes < 3 then blockString quote (c :: found) rest
      else if quotes ≤ 5 then
        let inside := List.replicate (quotes - 3) quote
        some (String.ofList (found.reverse ++ inside), cs.drop quotes)
      else none
    else if c = '\\' ∧ quote = '"' then
      match newline? (skipBlanks rest) with
      | some next =>
        if (skipBlankLines next).length < rest.length then
          blockString quote found (skipBlankLines next)
        else none
      | none =>
        match escape rest with
        | some (c, rest') =>
          if rest'.length < rest.length then blockString quote (c :: found) rest' else none
        | none => none
    else if c = '\n' then blockString quote (c :: found) rest
    else if c = '\r' then
      match rest with
      | '\n' :: rest => blockString quote ('\n' :: found) rest
      | _ => none
    else if isText c then blockString quote (c :: found) rest
    else none
termination_by cs.length

/-- Reads a string of any kind. -/
def string : Reader String
  | '"' :: '"' :: '"' :: rest => blockString '"' [] ((newline? rest).getD rest)
  | '\'' :: '\'' :: '\'' :: rest => blockString '\'' [] ((newline? rest).getD rest)
  | '"' :: rest => lineString '"' [] rest
  | '\'' :: rest => lineString '\'' [] rest
  | _ => none

/-! ## Keys -/

/-- Returns whether a character can stand in a key without quotes. -/
def isBare (c : Char) : Bool := c.isAlphanum || c == '_' || c == '-'

/-- Reads one part of a key. -/
def keyPart : Reader String
  | '"' :: rest => lineString '"' [] rest
  | '\'' :: rest => lineString '\'' [] rest
  | cs =>
    match cs.takeWhile isBare with
    | [] => none
    | name => some (String.ofList name, cs.dropWhile isBare)

/-- Reads the parts of a key, separated by dots, after the ones in `found`, the
last one first. -/
def keyParts (found : List String) (cs : List Char) : Option (List String × List Char) :=
  match keyPart (skipBlanks cs) with
  | none => none
  | some (part, rest) =>
    match skipBlanks rest with
    | '.' :: next =>
      if next.length < cs.length then keyParts (part :: found) next else none
    | rest => some ((part :: found).reverse, rest)
termination_by cs.length

/-- One more than the most parts of a key, and than the most arrays and tables
around a value. -/
def depthLimit : Nat := 80

/-- Reads a key, and the blanks around it. -/
def key : Reader (List String) := fun cs => do
  let (parts, rest) ← keyParts [] cs
  if parts.length < depthLimit then return (parts, rest) else none

end StreamMatch.Toml
