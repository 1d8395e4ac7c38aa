import Wordlang.Token.Scan

/-!
# The token table

The table that shows how a source is cut: one row per lexeme with its position, its token and its
text. The table ends with the row of the end of input, or with the first row before or during which
an error was reported.
-/

namespace Wordlang

/-- `s` filled up with spaces on the right to at least `width` characters. -/
def padRight (width : Nat) (s : String) : String :=
  s ++ String.ofList (List.replicate (width - s.length) ' ')

/-- A character of a literal as the table shows it. -/
def literalChar : Char → List Char
  | '\n' => ['\\', 'n']
  | '\t' => ['\\', 't']
  | '\r' => ['\\', 'r']
  | '\\' => ['\\', '\\']
  | '"' => ['\\', '"']
  | c => [c]

/-- A literal as the table shows it: between quotes, with line ends, tabs, quotes and backslashes
escaped and every other character as it is. -/
def showLiteral (s : String) : String :=
  String.ofList ('"' :: s.toList.flatMap literalChar ++ ['"'])

namespace TokenTable

/-- One line of the table. -/
def line (position token literal : String) : String :=
  padRight 20 position ++ " " ++ padRight 12 token ++ " " ++ literal ++ "\n"

/-- The two lines above the rows. -/
def heading : String :=
  line "POSITION" "TOKEN" "LITERAL" ++
    line (String.ofList (List.replicate 20 '-')) (String.ofList (List.replicate 12 '-'))
      (String.ofList (List.replicate 20 '-'))

/-- The row of a lexeme. -/
def row (l : Lexeme) : String := line l.pos.text l.token.label (showLiteral l.text)

/-- The lexemes that get a row, and the errors reported until the last of them, when `seen` has been
reported already. -/
def rows (seen : List LexicalError) :
    List (List LexicalError × Lexeme) → List Lexeme × List LexicalError
  | [] => ([], seen)
  | (errors, l) :: rest =>
    match seen ++ errors with
    | [] => let (ls, es) := rows [] rest; (l :: ls, es)
    | e :: es => ([l], e :: es)

end TokenTable

/-- The token table of a source and the errors that ended it, if any. -/
def Source.tokenTable (s : Source) : String × List LexicalError :=
  let (ls, errors) := TokenTable.rows s.openingErrors s.lexemes
  (TokenTable.heading ++ String.join (ls.map TokenTable.row), errors)

end Wordlang
