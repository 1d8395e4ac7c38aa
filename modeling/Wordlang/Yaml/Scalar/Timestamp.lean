/-!
# Dates in YAML

A date is a year of four digits, a month and a day, perhaps with a time behind it: after a `t` the
time has a zone, after a space it has none.
-/

namespace Wordlang.Yaml.Timestamp

/-- One or two digits, and what follows. -/
def number? : List Char → Option (Nat × List Char)
  | a :: b :: cs =>
    if !a.isDigit then none
    else if b.isDigit then some ((a.toNat - 48) * 10 + (b.toNat - 48), cs)
    else some (a.toNat - 48, b :: cs)
  | [a] => if a.isDigit then some (a.toNat - 48, []) else none
  | [] => none

/-- Passes over one certain character. -/
def skip? (c : Char) : List Char → Option (List Char)
  | d :: cs => if d = c then some cs else none
  | [] => none

/-- Whether a year has a leap day. -/
def isLeap (year : Nat) : Bool := year % 4 = 0 && (year % 100 != 0 || year % 400 = 0)

/-- How many days a month has. -/
def daysIn (year month : Nat) : Nat :=
  if month = 2 then if isLeap year then 29 else 28
  else if month = 4 ∨ month = 6 ∨ month = 9 ∨ month = 11 then 30
  else 31

/-- Passes over a date. -/
def date? (cs : List Char) : Option (List Char) := do
  let year := cs.takeWhile Char.isDigit
  if year.length ≠ 4 then none
  let cs ← skip? '-' (cs.dropWhile Char.isDigit)
  let (month, cs) ← number? cs
  let cs ← skip? '-' cs
  let (day, cs) ← number? cs
  let year := year.foldl (fun n c => n * 10 + (c.toNat - 48)) 0
  if 1 ≤ month ∧ month ≤ 12 ∧ 1 ≤ day ∧ day ≤ daysIn year month then some cs else none

/-- Passes over the fraction of a second, if there is one. -/
def skipFraction : List Char → List Char
  | p :: d :: cs =>
    if (p = '.' ∨ p = ',') ∧ d.isDigit then cs.dropWhile Char.isDigit else p :: d :: cs
  | cs => cs

/-- Passes over the time of a day. -/
def time? (cs : List Char) : Option (List Char) := do
  let (hour, cs) ← number? cs
  let cs ← skip? ':' cs
  let (minute, cs) ← number? cs
  let cs ← skip? ':' cs
  let (second, cs) ← number? cs
  if hour < 24 ∧ minute < 60 ∧ second < 60 then some (skipFraction cs) else none

/-- Whether a text is a time zone: `Z`, or hours and minutes after a sign. -/
def isZone : List Char → Bool
  | ['Z'] => true
  | [sign, a, b, ':', c, d] =>
    (sign = '+' || sign = '-') && [a, b, c, d].all Char.isDigit &&
      (number? [a, b]).any (·.1 ≤ 24) && (number? [c, d]).any (·.1 ≤ 60)
  | _ => false

/-- Whether a text is a date, perhaps with a time. -/
def isTimestamp (cs : List Char) : Bool :=
  match date? cs with
  | none => false
  | some [] => true
  | some (c :: cs) =>
    if c = 'T' ∨ c = 't' then (time? cs).any isZone
    else c = ' ' && (time? (cs.dropWhile (· = ' '))).any List.isEmpty

end Wordlang.Yaml.Timestamp
