-- The values of TOML documents. A table can be written in several places of a
-- document, and how it was first written decides where it can be added to.

namespace StreamMatch.Toml

/-- How a table was first written. -/
inductive TableKind where
  /-- Between braces. Nothing can be added to it. -/
  | closed
  /-- With a header of its own. -/
  | header
  /-- Only as a part of the headers of other tables. -/
  | implied
  /-- As a part of the keys of other values. -/
  | dotted
deriving DecidableEq, Repr

/-- A value of a document. Of floating-point numbers and moments only the kind is
kept. -/
inductive Value where
  | text (s : String)
  | integer (n : Int)
  | float
  | boolean (b : Bool)
  /-- A date, a time or both. -/
  | moment
  | array (items : List Value)
  | table (kind : TableKind) (entries : List (String × Value))
  /-- A list of tables, each with a header of its own. -/
  | tables (earlier : List Value) (last : Value)

/-- Returns whether a table can be added to by a header that goes on after its
name, or by a key that does. -/
def TableKind.isOpen (isKey : Bool) : TableKind → Bool
  | closed => false
  | header => !isKey
  | implied | dotted => true

namespace Value

/-- A document without entries. -/
def blank : Value := .table .header []

/-- Replaces the value of a key. -/
def setEntry (entries : List (String × Value)) (key : String) (v : Value) :
    List (String × Value) :=
  entries.map fun e => if e.1 = key then (key, v) else e

/-- Changes the table at the end of a path. Tables that are missing on the way
are made, and of a list of tables the last one is taken. -/
def changeAt (change : Value → Option Value) (isKey : Bool) : List String → Value → Option Value
  | [], v => change v
  | key :: path, .table kind entries =>
    match entries.lookup key with
    | none => do
      let child ← changeAt change isKey path (.table (if isKey then .dotted else .implied) [])
      return .table kind (entries ++ [(key, child)])
    | some (.table childKind children) =>
      if childKind.isOpen isKey then do
        let child ← changeAt change isKey path (.table childKind children)
        return .table kind (setEntry entries key child)
      else none
    | some (.tables earlier last) => do
      let last ← changeAt change isKey path last
      return .table kind (setEntry entries key (.tables earlier last))
    | some _ => none
  | _ :: _, _ => none

/-- Adds an entry to a table that does not have its key. A table that was made
by the key of the entry, and no other, must be one that keys can make. -/
def addEntry (isAlone : Bool) (key : String) (v : Value) : Value → Option Value
  | .table kind entries =>
    if decide (kind = .dotted) = isAlone then none
    else if (entries.lookup key).isSome then none
    else some (.table kind (entries ++ [(key, v)]))
  | _ => none

/-- Gives a value to a key, which can have several parts. -/
def assign (t : Value) (path : List String) (v : Value) : Option Value := do
  let key ← path.getLast?
  changeAt (addEntry path.dropLast.isEmpty key v) true path.dropLast t

/-- Makes a table with a header. -/
def openTable (key : String) : Value → Option Value
  | .table kind entries =>
    match entries.lookup key with
    | none => some (.table kind (entries ++ [(key, .table .header [])]))
    | some (.table .implied children) =>
      some (.table kind (setEntry entries key (.table .header children)))
    | some _ => none
  | _ => none

/-- Adds a table with a header to a list of tables. -/
def appendTable (key : String) : Value → Option Value
  | .table kind entries =>
    match entries.lookup key with
    | none => some (.table kind (entries ++ [(key, .tables [] (.table .header []))]))
    | some (.tables earlier last) =>
      some (.table kind (setEntry entries key (.tables (earlier ++ [last]) (.table .header []))))
    | some _ => none
  | _ => none

end Value

end StreamMatch.Toml
