-- Settings from a TOML document. The table `repeat` holds the limits. What is
-- missing keeps its default, and other keys are ignored. A table can also stand
-- for the value of one of its entries.
import StreamMatch.Settings
import StreamMatch.Toml.Document

namespace StreamMatch.Settings

open Toml (Value)

/-! ## Tables that stand for values -/

/-- The key of a table whose value stands for the whole table. -/
def valueKey : String := "___figment_value_value"

/-- The key of a table for where its value comes from. A document can not give
it. -/
def originKey : String := "___figment_value_id"

/-- The value that a table with the given entries stands for, which is the table
itself if there is no other. -/
def standsFor (kind : Toml.TableKind) (entries : List (String × Value)) : Option Value :=
  if (entries.lookup originKey).isSome then none
  else some ((entries.lookup valueKey).getD (.table kind entries))

mutual

/-- Replaces the tables of a value by what they stand for, inner ones first. -/
def resolve : Value → Option Value
  | .array items => do return .array (← resolveItems items)
  | .tables earlier last => do return .array ((← resolveItems earlier) ++ [← resolve last])
  | .table kind entries => do standsFor kind (← resolveEntries entries)
  | v => some v

/-- Replaces the tables of each value of a list by what they stand for. -/
def resolveItems : List Value → Option (List Value)
  | [] => some []
  | v :: rest => do return (← resolve v) :: (← resolveItems rest)

/-- Replaces the tables of each entry of a table by what they stand for. -/
def resolveEntries : List (String × Value) → Option (List (String × Value))
  | [] => some []
  | (key, v) :: rest => do return (key, ← resolve v) :: (← resolveEntries rest)

end

/-! ## Settings -/

/-- A limit, which has to be an integer of 32 bits without a sign. -/
def limit? (default : Nat) : Option Value → Option Nat
  | none => some default
  | some (.integer n) => if 0 ≤ n ∧ n < 0x100000000 then some n.toNat else none
  | some _ => none

/-- The settings whose limits are the values given. -/
def ofLimits? (bitmapLimit ringLimit : Option Value) : Option Settings := do
  let default : Settings := {}
  return ⟨← limit? default.bitmapLimit bitmapLimit, ← limit? default.ringLimit ringLimit⟩

/-- The settings in the value of `repeat`: a table, or an array that has the
limits in their order. A moment counts as a table without known keys. -/
def ofRepeat? : Value → Option Settings
  | .table _ entries => ofLimits? (entries.lookup "bitmap_limit") (entries.lookup "ring_limit")
  | .moment => some {}
  | .array items => ofLimits? items[0]? items[1]?
  | _ => none

/-- The settings in a document, if it is one and its settings have the right
types. The document itself always stands for itself. -/
def ofDocument? (text : String) : Option Settings := do
  match ← Toml.document text with
  | .table _ entries =>
    match (← resolveEntries entries).lookup "repeat" with
    | some v => ofRepeat? v
    | none => return {}
  | _ => none

/-- The settings in a file with the given text. A file that is missing has
none, not even the defaults. -/
def ofFile? (text : Option String) : Option Settings := text.bind ofDocument?

end StreamMatch.Settings
