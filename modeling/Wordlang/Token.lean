import Wordlang.Position
import Wordlang.Text.Quoted

/-!
# Tokens

The kinds of token the language has, the lexemes that a source is cut into, and the errors that
cutting can report.
-/

namespace Wordlang

/-- The kind of a lexeme. -/
inductive Token where
  /-- The end of the input. -/
  | eof
  /-- A piece of the input that is no token. -/
  | error
  /-- A name; operators such as `+` are ordinary names. -/
  | name
  /-- An integer literal. -/
  | int
  /-- A literal with a decimal point, which no expression accepts. -/
  | float
  /-- A text between double quotes. -/
  | string
  /-- `=` -/
  | assign
  /-- `(` -/
  | openParen
  /-- `)` -/
  | closeParen
  /-- An opening brace. -/
  | openBrace
  /-- A closing brace. -/
  | closeBrace
  /-- `,` -/
  | comma
  /-- `;` -/
  | semicolon
  /-- `:` -/
  | colon
  /-- `@` -/
  | atSign
  deriving DecidableEq, Repr, Inhabited

namespace Token

/-- Every token, in the order of the token table. -/
def all : List Token :=
  [eof, error, name, int, float, string, assign, openParen, closeParen, openBrace, closeBrace,
    comma, semicolon, colon, atSign]

/-- How the token is called in the token table and in messages. -/
def label : Token → String
  | eof => "EOF"
  | error => "ERROR"
  | name => "NAME"
  | int => "INT"
  | float => "FLOAT"
  | string => "STRING"
  | assign => "="
  | openParen => "("
  | closeParen => ")"
  | openBrace => "\x7b"
  | closeBrace => "\x7d"
  | comma => ","
  | semicolon => ";"
  | colon => ":"
  | atSign => "@"

/-- The token with the given number in the token table. -/
def ofCode? (n : UInt64) : Option Token := all[n.toNat]?

/-- The label of the token with the given number; a number outside the table is shown as such. -/
def codeLabel (n : UInt64) : String :=
  match ofCode? n with
  | some t => t.label
  | none => "Token(" ++ toString n.toNat ++ ")"

/-- Whether the token carries a literal value. -/
def isLiteral : Token → Bool
  | int | float | string => true
  | _ => false

/-- The token that a delimiter character makes all by itself. -/
def ofDelimiter? : Char → Option Token
  | '=' => some assign
  | '(' => some openParen
  | ')' => some closeParen
  | '\x7b' => some openBrace
  | '\x7d' => some closeBrace
  | ',' => some comma
  | ';' => some semicolon
  | ':' => some colon
  | _ => none

end Token

/-- A token as it stands in a source. -/
structure Lexeme where
  /-- The kind of token. -/
  token : Token
  /-- Its text: the name, the digits, the content of a string, the delimiter itself. -/
  text : String
  /-- Where its first character stands. -/
  pos : Position
  deriving DecidableEq, Repr, Inhabited

/-- What can be wrong with the characters of a source. -/
inductive LexicalFault where
  /-- The source could not be read, for the given reason. -/
  | unreadable (reason : String)
  /-- A byte that is not UTF-8. -/
  | badEncoding
  /-- An integer literal beyond the largest `i32`. -/
  | overflow (digits : String)
  /-- A string literal without a closing quote. -/
  | unterminated
  /-- A string literal without content. -/
  | emptyString
  /-- A character that starts no token. -/
  | unexpected (c : Char)
  deriving DecidableEq, Repr, Inhabited

/-- The wording of a lexical fault. -/
def LexicalFault.message : LexicalFault → String
  | unreadable reason => "error reading source: " ++ reason
  | badEncoding => "invalid UTF-8 encoding"
  | overflow digits => "integer literal " ++ digits ++ " overflows i32"
  | unterminated => "string literal not terminated"
  | emptyString => "empty string literal"
  | unexpected c => "unexpected character " ++ Text.quoteChar c

/-- A lexical fault and its place. -/
structure LexicalError where
  /-- Where the fault is. -/
  pos : Position
  /-- What is wrong. -/
  fault : LexicalFault
  deriving DecidableEq, Repr, Inhabited

/-- `position: wording`. -/
def LexicalError.message (e : LexicalError) : String := e.pos.text ++ ": " ++ e.fault.message

end Wordlang
