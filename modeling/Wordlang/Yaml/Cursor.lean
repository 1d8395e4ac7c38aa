import Wordlang.Yaml.Fault

/-!
# Reading a YAML text from left to right

A cursor holds what is still to be read and the place where that starts. Blanks are spaces and tabs;
a line ends with a line feed or one of the two separators of Unicode; a comment runs from a `#` to
the end of its line.
-/

namespace Wordlang.Yaml

/-- A space or a tab. -/
def isBlank (c : Char) : Bool := c = ' ' || c = '\t'

/-- The end of a line. -/
def isBreak (c : Char) : Bool := c = '\n' || c = '\u2028' || c = '\u2029'

/-- A blank or the end of a line. -/
def isSpacing (c : Char) : Bool := isBlank c || isBreak c

/-- A letter, digit, `_` or `-`. -/
def isWord (c : Char) : Bool := c.isAlphanum || c = '_' || c = '-'

/-- Whether a blank, the end of a line or the end of the text comes next. -/
def endsWord : List Char → Bool
  | [] => true
  | c :: _ => isSpacing c

/-- Whether the border of a document comes next, if a line starts here. -/
def startsBorder : List Char → Bool
  | '-' :: '-' :: '-' :: rest => endsWord rest
  | '.' :: '.' :: '.' :: rest => endsWord rest
  | _ => false

/-- The place behind a character. -/
def Mark.after (m : Mark) (c : Char) : Mark :=
  if isBreak c then ⟨m.index + 1, m.line + 1, 0⟩ else ⟨m.index + 1, m.line, m.column + 1⟩

/-- What is still to be read. -/
structure Cursor where
  /-- The characters. -/
  rest : List Char
  /-- Where the first of them stands. -/
  mark : Mark := {}
  /-- Whether nothing but blanks was read since the line before ended. -/
  fresh : Bool := false
  deriving DecidableEq, Repr, Inhabited

namespace Cursor

/-- Passes over one character, which is `c`, with `rest` behind it. -/
def past (k : Cursor) (c : Char) (rest : List Char) : Cursor :=
  ⟨rest, k.mark.after c, if isBlank c then k.fresh else isBreak c⟩

/-- Passes over one character, if there is one. -/
def next (k : Cursor) : Cursor :=
  match k.rest with
  | [] => k
  | c :: rest => k.past c rest

/-- Passes over `n` characters. -/
def skip : Nat → Cursor → Cursor
  | 0, k => k
  | n + 1, k => skip n k.next

/-- The next character. -/
def peek? (k : Cursor) : Option Char := k.rest.head?

/-- The longest run of characters in a class, and the cursor behind it. -/
def takeWhile (p : Char → Bool) (k : Cursor) : List Char × Cursor :=
  let run := k.rest.takeWhile p
  (run, k.skip run.length)

/-- The cursor behind the longest run of characters in a class. -/
def skipWhile (p : Char → Bool) (k : Cursor) : Cursor := (k.takeWhile p).2

/-- The cursor at the end of the line. -/
def skipLine (k : Cursor) : Cursor := k.skipWhile (!isBreak ·)

/-- How far a comment is looked for. -/
def commentReach : Nat := 512

/-- Passes over blanks and the comment behind them, but stays where it is if there is no comment. -/
def skipLineComment (k : Cursor) : Cursor :=
  let (blanks, behind) := k.takeWhile isBlank
  if blanks.length < commentReach ∧ behind.peek? = some '#' then behind.skipLine else k

/-- Passes over a comment, and over the comments on the lines below it, whatever blanks and empty
lines stand between them. At most `fuel` comments are passed over. -/
def skipComments : Nat → Cursor → Cursor
  | 0, k => k
  | fuel + 1, k =>
    let k := k.skipLine
    let (gap, behind) := k.takeWhile isSpacing
    if gap.length < commentReach ∧ behind.peek? = some '#' then skipComments fuel behind else k

end Cursor

/-- The fault that something is wrong here with a token that starts at `start`. -/
def Cursor.fail {α : Type} (k : Cursor) (start : Mark) (problem : Problem) : Except Fault α :=
  .error (.inToken start k.mark problem)

end Wordlang.Yaml
