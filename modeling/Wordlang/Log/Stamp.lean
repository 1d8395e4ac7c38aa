/-!
# Time stamps

The form in which a log writes the time: date and time of the day in universal time, to the second.
-/

namespace Wordlang.Log

/-- A number with at least `width` digits. -/
def padded (width n : Nat) : String :=
  let digits := Nat.toDigits 10 n
  String.ofList (List.replicate (width - digits.length) '0' ++ digits)

/-- A day of the calendar. -/
structure Date where
  /-- The year. -/
  year : Nat
  /-- The month, from one. -/
  month : Nat
  /-- The day of the month, from one. -/
  day : Nat
  deriving DecidableEq, Repr, Inhabited

/-- The date that is `days` days after the first of January 1970. Years are counted from March on, so
that the leap day is the last of its year, and in periods of 400 years, which have all the same
length. -/
def Date.ofDays (days : Nat) : Date :=
  let z := days + 719468
  let inPeriod := z % 146097
  let year := (inPeriod - inPeriod / 1460 + inPeriod / 36524 - inPeriod / 146096) / 365
  let inYear := inPeriod - (365 * year + year / 4 - year / 100)
  let month := (5 * inYear + 2) / 153
  let day := inYear - (153 * month + 2) / 5 + 1
  let early := month ≥ 10
  { year := z / 146097 * 400 + year + (if early then 1 else 0)
    month := if early then month - 9 else month + 3
    day }

/-- The time that is `seconds` seconds after the start of 1970. -/
def stamp (seconds : Nat) : String :=
  let d := Date.ofDays (seconds / 86400)
  let t := seconds % 86400
  padded 4 d.year ++ "-" ++ padded 2 d.month ++ "-" ++ padded 2 d.day ++ "T" ++
    padded 2 (t / 3600) ++ ":" ++ padded 2 (t / 60 % 60) ++ ":" ++ padded 2 (t % 60) ++ "Z"

end Wordlang.Log
