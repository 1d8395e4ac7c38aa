/-!
# Positions

Where something stands in a source file. Lines and columns are machine words and count from one;
line zero marks a position that is not known, as for a tree that was not read from a file.
-/

namespace Wordlang

/-- A place in a source file. The default value is the unknown position. -/
structure Position where
  /-- The file's name, empty for unnamed input. -/
  file : String := ""
  /-- The line, from one; zero if the position is unknown. -/
  line : UInt32 := 0
  /-- The column in characters, from one. -/
  column : UInt32 := 0
  deriving DecidableEq, Repr, Inhabited

namespace Position

/-- Whether the position is known. -/
def isKnown (p : Position) : Bool := p.line != 0

/-- `file:line:column`, without the file if it has no name, and `-` for an unknown position. -/
def text (p : Position) : String :=
  if p.isKnown then
    (if p.file = "" then "" else p.file ++ ":") ++ toString p.line.toNat ++ ":" ++
      toString p.column.toNat
  else "-"

/-- The position after the character `c` at `p`: a line feed starts a new line. -/
def after (p : Position) (c : Char) : Position :=
  if c = '\n' then { p with line := p.line + 1, column := 1 }
  else { p with column := p.column + 1 }

end Position

end Wordlang
