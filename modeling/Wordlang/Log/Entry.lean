/-!
# Log entries

A message with its severity and a list of named fields.
-/

namespace Wordlang.Log

/-- The severity of a message, least first. -/
inductive Level where
  /-- For whoever works on the compiler. -/
  | debug
  /-- For the user. -/
  | info
  /-- Something looks wrong. -/
  | warn
  /-- Something is wrong. -/
  | error
  /-- A mistake in the program that logs. -/
  | dpanic
  /-- The program cannot go on where it is. -/
  | panic
  /-- The program has to end. -/
  | fatal
  deriving DecidableEq, Repr, Inhabited

namespace Level

/-- Every level, least severe first. -/
def all : List Level := [debug, info, warn, error, dpanic, panic, fatal]

/-- The name of a level. -/
def name : Level → String
  | debug => "debug"
  | info => "info"
  | warn => "warn"
  | error => "error"
  | dpanic => "dpanic"
  | panic => "panic"
  | fatal => "fatal"

/-- The number by which levels are compared; `info` is zero. -/
def severity : Level → Int
  | debug => -1
  | info => 0
  | warn => 1
  | error => 2
  | dpanic => 3
  | panic => 4
  | fatal => 5

/-- Whether a log that shows messages from `least` on shows one of this level. -/
def shows (least level : Level) : Bool := least.severity ≤ level.severity

end Level

/-- The value of a field. -/
inductive Datum where
  /-- A text. -/
  | text (s : String)
  /-- A number. -/
  | number (n : Int)
  /-- A list of texts. -/
  | texts (l : List String)
  deriving DecidableEq, Repr, Inhabited

/-- A message to be logged. -/
structure Entry where
  /-- Its severity. -/
  level : Level
  /-- The message. -/
  message : String
  /-- The fields, in order. -/
  fields : List (String × Datum) := []
  deriving DecidableEq, Repr, Inhabited

end Wordlang.Log
