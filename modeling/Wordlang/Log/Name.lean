import Wordlang.Log.Entry
import Wordlang.Text.Quoted

/-!
# Names of levels and formats

How the settings name the least level that is shown and the form in which entries are written.
-/

namespace Wordlang.Log

/-- The form in which entries are written. -/
inductive Format where
  /-- Columns for the reader. -/
  | console
  /-- One object per line. -/
  | json
  deriving DecidableEq, Repr, Inhabited

/-- What can be wrong with the names in the settings. -/
inductive NameError where
  /-- No level has this name. -/
  | level (name : String)
  /-- No format has this name. -/
  | format (name : String)
  deriving DecidableEq, Repr, Inhabited

/-- The wording of an error. -/
def NameError.message : NameError → String
  | level name =>
    "invalid log level " ++ Text.quote name ++ ": unrecognized level: " ++ Text.quote name
  | format name => "unknown log format " ++ Text.quote name

/-- The small ASCII letter that is the lower case of a character, or the character itself if there is
none. Two letters beyond ASCII have one: the capital `i` with a dot and the Kelvin sign. -/
def smallLetter (c : Char) : Char :=
  if 'A' ≤ c && c ≤ 'Z' then Char.ofNat (c.toNat + 32)
  else if c = '\u0130' then 'i'
  else if c = '\u212A' then 'k'
  else c

/-- The level of the given name, in letters of either case. No name at all is `info`. -/
def Level.ofName (name : String) : Except NameError Level :=
  let small := String.ofList (name.toList.map smallLetter)
  if small = "" then .ok .info
  else match all.find? (·.name = small) with
    | some l => .ok l
    | none => .error (.level name)

/-- The format of the given name; the console format if none is given or it is left open. -/
def Format.ofName (name : String) : Except NameError Format :=
  if name = "" ∨ name = "console" ∨ name = "auto" then .ok .console
  else if name = "json" then .ok .json
  else .error (.format name)

end Wordlang.Log
