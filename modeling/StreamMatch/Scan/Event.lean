-- What a scan reports, and how the one who receives it answers.
import StreamMatch.Error

namespace StreamMatch

/-- A match of a pattern. -/
structure Event where
  pattern : PatternId
  /-- The offset of the first byte, if the pattern reports it. -/
  startsAt : Option Nat
  /-- The offset that follows the last byte. -/
  endsAt : Nat
deriving DecidableEq, Repr

/-- The answer to an event. -/
inductive Action where
  | proceed
  | stop
deriving DecidableEq, Repr

/-- Answers each event, from all those reported so far. The last one is the
event that is answered. -/
abbrev Policy := Array Event → Action

namespace Policy

/-- Never stops. -/
def always : Policy := fun _ => .proceed

/-- Stops at the `n`-th event, or never if there is no `n`. -/
def stopAt (n : Option Nat) : Policy := fun events =>
  if n = some events.size then .stop else .proceed

end Policy

/-- How a scan ended. -/
inductive Status where
  /-- All the data was scanned. -/
  | completed
  /-- The scan was stopped, now or before. -/
  | terminated
deriving DecidableEq, Repr

/-- What a scan gives: how it ended and the events it reported, or why it could
not start. -/
abbrev Report := Except Error (Status × Array Event)

end StreamMatch
