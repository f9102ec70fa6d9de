-- TOML documents: lines with headers of tables and with the values of keys.
import StreamMatch.Toml.Number
import StreamMatch.Toml.Value

namespace StreamMatch.Toml

/-! ## Values -/

/-- Reads a value that has no values inside. -/
def scalar : Reader Value := fun cs =>
  match cs with
  | 't' :: 'r' :: 'u' :: 'e' :: rest => some (.boolean true, rest)
  | 'f' :: 'a' :: 'l' :: 's' :: 'e' :: rest => some (.boolean false, rest)
  | cs =>
    match string cs with
    | some (s, rest) => some (.text s, rest)
    | none =>
      match moment cs with
      | some ((), rest) => some (.moment, rest)
      | none =>
        match float cs with
        | some ((), rest) => some (.float, rest)
        | none => (integer cs).map fun (n, rest) => (.integer n, rest)

/-- Reads the values of an array up to its end, after the ones in `found`, the
last one first. -/
def arrayItems (value : Reader Value) (found : List Value) (cs : List Char) :
    Option (Value × List Char) :=
  match skipFiller cs with
  | ']' :: rest => some (.array found.reverse, rest)
  | start =>
    match value start with
    | none => none
    | some (v, rest) =>
      match skipFiller rest with
      | ']' :: rest => some (.array (v :: found).reverse, rest)
      | ',' :: next =>
        if next.length < cs.length then arrayItems value (v :: found) next else none
      | _ => none
termination_by cs.length

/-- Reads a key with its value. -/
def entry (value : Reader Value) : Reader (List String × Value) := fun cs => do
  let (path, rest) ← key cs
  let (v, rest) ← value (skipBlanks (← skip '=' rest))
  return ((path, v), rest)

/-- Reads the entries of a table between braces, and adds them to it. -/
def tableEntries (value : Reader Value) (table : Value) (cs : List Char) :
    Option (Value × List Char) :=
  match entry value cs with
  | none => none
  | some ((path, v), rest) =>
    match table.assign path v with
    | none => none
    | some table =>
      match skipBlanks rest with
      | '}' :: rest => some (table, rest)
      | ',' :: next => if next.length < cs.length then tableEntries value table next else none
      | _ => none
termination_by cs.length

/-- Reads a table after its first brace. -/
def closedTable (value : Reader Value) : Reader Value := fun cs =>
  match skipBlanks cs with
  | '}' :: rest => some (.table .closed [], rest)
  | cs => tableEntries value (.table .closed []) cs

/-- Reads a value with at most `depth` arrays and tables around each value
inside. -/
def value (depth : Nat) : Reader Value :=
  match depth with
  | 0 => scalar
  | depth + 1 => fun cs =>
    match cs with
    | '[' :: rest => arrayItems (value depth) [] rest
    | '\x7b' :: rest => closedTable (value depth) rest
    | cs => scalar cs

/-! ## Lines -/

/-- A document up to some line, and the path of the table that the next entry
belongs to. -/
structure Reading where
  root : Value
  header : List String

/-- Reads the header of a table, after its brackets. -/
def header (make : String → Value → Option Value) (r : Reading) (cs : List Char) :
    Option (Reading × List Char) := do
  let (path, rest) ← key cs
  let rest ← skip ']' rest
  let root ← Value.changeAt (make (← path.getLast?)) false path.dropLast r.root
  return (⟨root, path⟩, rest)

/-- Reads what stands in a line other than a comment. -/
def lineContent (r : Reading) (cs : List Char) : Option (Reading × List Char) :=
  match cs with
  | '[' :: '[' :: rest => do
    let (r, rest) ← header Value.appendTable r rest
    return (r, ← skip ']' rest)
  | '[' :: rest => header Value.openTable r rest
  | [] | '#' :: _ | '\n' :: _ | '\r' :: _ => some (r, cs)
  | cs => do
    let ((path, v), rest) ← entry (value (depthLimit - 1)) cs
    return (⟨← Value.changeAt (·.assign path v) false r.header r.root, r.header⟩, rest)

/-- Reads lines up to the end of the text. -/
def lines (r : Reading) (cs : List Char) : Option Value :=
  match lineContent r (skipBlanks cs) with
  | none => none
  | some (r, rest) =>
    match lineEnd? rest with
    | none => none
    | some [] => some r.root
    | some next => if next.length < cs.length then lines r next else none
termination_by cs.length

/-- The table of a document, if the text is a document. It can start with a byte
order mark. -/
def document (text : String) : Option Value :=
  match text.toList with
  | '\uFEFF' :: rest => lines ⟨.blank, []⟩ rest
  | cs => lines ⟨.blank, []⟩ cs

end StreamMatch.Toml
