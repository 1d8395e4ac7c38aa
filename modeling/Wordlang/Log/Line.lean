import Wordlang.Log.Name

/-!
# Lines of the log

A console line has the time, the level and the message in columns separated by tabs, and the fields
behind them as an object with a space after every comma and colon. A line in the other format is one
object with level, time, message and fields, without spaces.

Texts inside an object escape the quote, the backslash and the controls below space; everything else
is written as it is.
-/

namespace Wordlang.Log

/-- A character of a text inside an object. -/
def escapeChar (c : Char) : List Char :=
  match c with
  | '\\' => ['\\', '\\']
  | '"' => ['\\', '"']
  | '\n' => ['\\', 'n']
  | '\r' => ['\\', 'r']
  | '\t' => ['\\', 't']
  | c => if c.toNat < 0x20 then '\\' :: 'u' :: Text.hex 4 c.toNat else [c]

/-- A text inside an object. -/
def quoted (s : String) : String := String.ofList ('"' :: s.toList.flatMap escapeChar ++ ['"'])

/-- The value of a field; a blank after each comma if `spaced`. -/
def Datum.render (spaced : Bool) : Datum → String
  | text s => quoted s
  | number n => toString n
  | texts l => "[" ++ (if spaced then ", " else ",").intercalate (l.map quoted) ++ "]"

/-- Named values as an object; a blank after each comma and colon if `spaced`. -/
def object (spaced : Bool) (fields : List (String × Datum)) : String :=
  let member (f : String × Datum) : String :=
    quoted f.1 ++ (if spaced then ": " else ":") ++ f.2.render spaced
  "\x7b" ++ (if spaced then ", " else ",").intercalate (fields.map member) ++ "\x7d"

/-- The line of an entry written at the time `stamp`. -/
def Entry.line (e : Entry) (format : Format) (stamp : String) : String :=
  match format with
  | .console =>
    stamp ++ "\t" ++ e.level.name ++ "\t" ++ e.message ++
      (if e.fields.isEmpty then "" else "\t" ++ object true e.fields) ++ "\n"
  | .json =>
    object false ([("level", .text e.level.name), ("ts", .text stamp), ("msg", .text e.message)] ++
      e.fields) ++ "\n"

/-- What a log shows and how. -/
structure Sink where
  /-- The form of the lines. -/
  format : Format
  /-- The least severe level that is shown. -/
  least : Level
  deriving DecidableEq, Repr, Inhabited

/-- The levels that a log shows. -/
def Sink.enabled (s : Sink) : List Level := Level.all.filter s.least.shows

/-- The lines of the entries that a log shows, all written at the time `stamp`. -/
def Sink.write (s : Sink) (stamp : String) (entries : List Entry) : String :=
  String.join ((entries.filter fun e => s.least.shows e.level).map (·.line s.format stamp))

end Wordlang.Log
