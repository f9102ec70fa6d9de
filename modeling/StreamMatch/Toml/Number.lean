-- Numbers, dates and times of TOML documents.
import StreamMatch.Toml.Lexeme

namespace StreamMatch.Toml

/-! ## Integers -/

/-- Takes digits off the start of a text. Between two digits there can be an
underscore. -/
def digitsAfter (isDigit : Char → Bool) : List Char → List Char × List Char
  | '_' :: d :: rest =>
    if isDigit d then
      let (digits, rest) := digitsAfter isDigit rest
      (d :: digits, rest)
    else ([], '_' :: d :: rest)
  | d :: rest =>
    if isDigit d then
      let (digits, rest) := digitsAfter isDigit rest
      (d :: digits, rest)
    else ([], d :: rest)
  | [] => ([], [])

/-- Reads at least one digit. -/
def someDigits (isDigit : Char → Bool) : Reader (List Char)
  | d :: rest =>
    if isDigit d then
      let (digits, rest) := digitsAfter isDigit rest
      some (d :: digits, rest)
    else none
  | [] => none

/-- The number that is written with some digits. -/
def digitsValue (base : Nat) (digits : List Char) : Nat :=
  digits.foldl (fun n d => base * n + (hexValue? d).getD 0) 0

/-- Reads a sign, and returns whether it is a minus. -/
def sign : List Char → Bool × List Char
  | '+' :: rest => (false, rest)
  | '-' :: rest => (true, rest)
  | cs => (false, cs)

/-- Reads the digits of a decimal number without leading zeros. -/
def decimalDigits : Reader (List Char)
  | '0' :: rest => some (['0'], rest)
  | cs => someDigits Char.isDigit cs

/-- The integer, if it fits in 64 bits. -/
def fit? (n : Int) : Option Int :=
  if -0x8000000000000000 ≤ n ∧ n < 0x8000000000000000 then some n else none

/-- Reads an integer in base ten. -/
def decimal : Reader Int := fun cs => do
  let (isNegative, cs) := sign cs
  let (digits, rest) ← decimalDigits cs
  let n : Int := digitsValue 10 digits
  return (← fit? (if isNegative then -n else n), rest)

/-- Reads digits in another base than ten. -/
def inBase (base : Nat) : Reader Int := fun cs => do
  let isDigit (c : Char) : Bool := match hexValue? c with
    | some d => decide (d < base)
    | none => false
  let (digits, rest) ← someDigits isDigit cs
  return (← fit? (digitsValue base digits), rest)

/-- Reads an integer in any base. -/
def integer : Reader Int
  | '0' :: 'x' :: rest => inBase 16 rest
  | '0' :: 'o' :: rest => inBase 8 rest
  | '0' :: 'b' :: rest => inBase 2 rest
  | cs => decimal cs

/-! ## Floating-point numbers -/

/-- Reads an exponent. -/
def exponent : Reader Int
  | c :: rest =>
    if c = 'e' ∨ c = 'E' then do
      let (isNegative, rest) := sign rest
      let (digits, rest) ← someDigits Char.isDigit rest
      let n : Int := digitsValue 10 digits
      return (if isNegative then -n else n, rest)
    else none
  | [] => none

/-- Reads the digits after a decimal point. -/
def fraction : Reader (List Char)
  | '.' :: rest => someDigits Char.isDigit rest
  | _ => none

/-- Returns whether `n * 10 ^ e` is so large that no number of 64 bits is near
it. -/
def isHuge (n : Nat) (e : Int) : Bool :=
  let size : Int := (Nat.toDigits 10 n).length + e
  -- The middle between the largest number and the next power of two.
  let edge := (1 <<< 1024) - (1 <<< 970)
  if n = 0 ∨ size < 300 then false
  else if 320 < size then true
  else if 0 ≤ e then decide (edge ≤ n * Nat.pow 10 e.toNat)
  else decide (edge * Nat.pow 10 (-e).toNat ≤ n)

/-- Reads `inf` or `nan`. -/
def special : Reader Unit := fun cs =>
  match (sign cs).2 with
  | 'i' :: 'n' :: 'f' :: rest => some ((), rest)
  | 'n' :: 'a' :: 'n' :: rest => some ((), rest)
  | _ => none

/-- Reads a number with a fraction, an exponent or both. It must not be too
large, unless it is negative. -/
def float : Reader Unit := fun cs =>
  match special cs with
  | some result => some result
  | none => do
    let (isNegative, cs) := sign cs
    let (digits, rest) ← decimalDigits cs
    let (digits, e, rest) ← match fraction rest with
      | some (more, rest) =>
        let (e, rest) := (exponent rest).getD (0, rest)
        some (digits ++ more, e - more.length, rest)
      | none => do
        let (e, rest) ← exponent rest
        some (digits, e, rest)
    if !isNegative && isHuge (digitsValue 10 digits) e then none else return ((), rest)

/-! ## Dates and times -/

/-- Reads a number of exactly `n` digits. -/
def fixed (n : Nat) : Reader Nat := fun cs =>
  let digits := cs.take n
  if digits.length = n ∧ digits.all Char.isDigit then some (digitsValue 10 digits, cs.drop n)
  else none

/-- Reads one given character. -/
def skip (c : Char) : List Char → Option (List Char)
  | d :: rest => if c = d then some rest else none
  | [] => none

/-- How many days a month has. -/
def daysIn (year month : Nat) : Nat :=
  if month = 2 then
    if year % 4 = 0 ∧ (year % 100 ≠ 0 ∨ year % 400 = 0) then 29 else 28
  else if month = 4 ∨ month = 6 ∨ month = 9 ∨ month = 11 then 30
  else 31

/-- Reads a day of the calendar. -/
def date : Reader Unit := fun cs => do
  let (year, cs) ← fixed 4 cs
  let (month, cs) ← fixed 2 (← skip '-' cs)
  let (day, cs) ← fixed 2 (← skip '-' cs)
  if 1 ≤ month ∧ month ≤ 12 ∧ 1 ≤ day ∧ day ≤ daysIn year month then return ((), cs) else none

/-- Reads a time of day. A minute can have 61 seconds. -/
def time : Reader Unit := fun cs => do
  let (hour, cs) ← fixed 2 cs
  let (minute, cs) ← fixed 2 (← skip ':' cs)
  let (second, cs) ← fixed 2 (← skip ':' cs)
  if hour ≤ 23 ∧ minute ≤ 59 ∧ second ≤ 60 then
    match cs with
    | '.' :: rest => do
      if (rest.takeWhile Char.isDigit).isEmpty then none
      else return ((), rest.dropWhile Char.isDigit)
    | cs => return ((), cs)
  else none

/-- Reads the distance of a time from the universal time. -/
def offset : Reader Unit
  | c :: rest =>
    if c = 'Z' ∨ c = 'z' then some ((), rest)
    else if c = '+' ∨ c = '-' then do
      let (hour, rest) ← fixed 2 rest
      let (minute, rest) ← fixed 2 (← skip ':' rest)
      if hour ≤ 23 ∧ minute ≤ 59 then return ((), rest) else none
    else none
  | [] => none

/-- Reads a date, a time, or a date and a time with or without an offset. -/
def moment : Reader Unit := fun cs =>
  match date cs with
  | none => time cs
  | some ((), rest) =>
    match rest with
    | c :: after =>
      if c = 'T' ∨ c = 't' ∨ c = ' ' then
        match time after with
        | some ((), after) => some ((offset after).getD ((), after))
        | none => some ((), rest)
      else some ((), rest)
    | [] => some ((), rest)

end StreamMatch.Toml
