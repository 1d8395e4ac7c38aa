/-!
# Faults of a YAML text

What can be wrong with a text before it has a meaning: with its bytes, its tokens or its structure.
A fault is reported with the line of the construct it was found in; a construct on the first line
has no line of its own in the report, and then the line of the fault itself stands in.
-/

namespace Wordlang.Yaml

/-- A place in a text, counted from zero. -/
structure Mark where
  /-- How many characters stand before it. -/
  index : Nat := 0
  /-- How many lines stand before it. -/
  line : Nat := 0
  /-- How many characters of its line stand before it. -/
  column : Nat := 0
  deriving DecidableEq, Repr, Inhabited

/-- What can be wrong with a text. -/
inductive Problem where
  /-- The text could not be read. -/
  | unreadable (reason : String)
  /-- A byte cannot start a character. -/
  | badLeadingByte
  /-- The text ends inside a character. -/
  | cutCharacter
  /-- A byte cannot go on with a character. -/
  | badTrailingByte
  /-- A character is written with more bytes than it takes. -/
  | overlongCharacter
  /-- A surrogate or a number that is no character. -/
  | noCharacter
  /-- The text ends inside a unit of two bytes. -/
  | cutUnit
  /-- The second unit of a pair without the first. -/
  | strayLowSurrogate
  /-- The text ends inside a pair of units. -/
  | cutPair
  /-- The first unit of a pair without the second. -/
  | missingLowSurrogate
  /-- A control character. -/
  | controlCharacter
  /-- A key that has to be followed by a colon is not. -/
  | missingColon
  /-- A `-` where no sequence can start. -/
  | misplacedEntry
  /-- A `?` where no mapping can start. -/
  | misplacedKey
  /-- A `:` where no mapping can go on. -/
  | misplacedValue
  /-- A character that starts nothing. -/
  | badTokenStart
  /-- Collections nested deeper than `limit`. -/
  | tooDeep (limit : Nat)
  /-- A line that starts like the border of a document inside quotes. -/
  | documentInQuotes
  /-- Quotes that are never closed. -/
  | unclosedQuotes
  /-- A backslash before a character that has no meaning there. -/
  | unknownEscape
  /-- An escape without its hexadecimal digits. -/
  | missingHexDigits
  /-- An escape for a number that is no character. -/
  | escapedNoCharacter
  /-- A block scalar indented by zero. -/
  | zeroIndentation
  /-- Something else than a comment before the end of a line. -/
  | trailingText
  /-- A tab in the indentation of a block scalar. -/
  | tabInBlock
  /-- A tab in the indentation of a plain scalar. -/
  | tabInPlain
  /-- An anchor or alias without a name, or with more than one. -/
  | badAnchorName
  /-- A tag in angle brackets that is not closed. -/
  | unclosedTag
  /-- Something else than a blank or the end of the line. -/
  | missingBlank
  /-- Something else than a blank. -/
  | missingBlankInLine
  /-- A handle without its exclamation mark. -/
  | missingExclamation
  /-- A tag without a name. -/
  | missingTagName
  /-- A percent sign without two hexadecimal digits. -/
  | badTagEscape
  /-- An escaped byte that cannot start a character. -/
  | badTagLeadingByte
  /-- An escaped byte that cannot go on with a character. -/
  | badTagTrailingByte
  /-- A directive without a name. -/
  | missingDirectiveName
  /-- A directive whose name does not end. -/
  | badDirectiveName
  /-- A directive other than the two known ones. -/
  | unknownDirective
  /-- A version without its point. -/
  | missingVersionPoint
  /-- A version with a number of three digits or more. -/
  | longVersion
  /-- A version without a number. -/
  | missingVersion
  /-- A second version. -/
  | secondVersion
  /-- A version that is not understood. -/
  | otherVersion
  /-- A second meaning for a handle. -/
  | secondHandle
  /-- Directives without a document. -/
  | missingDocument
  /-- A handle without a meaning. -/
  | undefinedHandle
  /-- Something else than a value. -/
  | missingNode
  /-- Something else than the next entry of a sequence. -/
  | missingEntry
  /-- Something else than the next key of a mapping. -/
  | missingKey
  /-- Something else than a comma or the end of a sequence in brackets. -/
  | missingCommaOrBracket
  /-- Something else than a comma or the end of a mapping in braces. -/
  | missingCommaOrBrace
  /-- An alias of a name that no anchor has. -/
  | unknownAnchor (name : String)
  deriving DecidableEq, Repr, Inhabited

/-- The wording of a problem. -/
def Problem.message : Problem → String
  | unreadable reason => "input error: " ++ reason
  | badLeadingByte => "invalid leading UTF-8 octet"
  | cutCharacter => "incomplete UTF-8 octet sequence"
  | badTrailingByte => "invalid trailing UTF-8 octet"
  | overlongCharacter => "invalid length of a UTF-8 sequence"
  | noCharacter => "invalid Unicode character"
  | cutUnit => "incomplete UTF-16 character"
  | strayLowSurrogate => "unexpected low surrogate area"
  | cutPair => "incomplete UTF-16 surrogate pair"
  | missingLowSurrogate => "expected low surrogate area"
  | controlCharacter => "control characters are not allowed"
  | missingColon => "could not find expected ':'"
  | misplacedEntry => "block sequence entries are not allowed in this context"
  | misplacedKey => "mapping keys are not allowed in this context"
  | misplacedValue => "mapping values are not allowed in this context"
  | badTokenStart => "found character that cannot start any token"
  | tooDeep limit => "exceeded max depth of " ++ toString limit
  | documentInQuotes => "found unexpected document indicator"
  | unclosedQuotes => "found unexpected end of stream"
  | unknownEscape => "found unknown escape character"
  | missingHexDigits => "did not find expected hexdecimal number"
  | escapedNoCharacter => "found invalid Unicode character escape code"
  | zeroIndentation => "found an indentation indicator equal to 0"
  | trailingText => "did not find expected comment or line break"
  | tabInBlock => "found a tab character where an indentation space is expected"
  | tabInPlain => "found a tab character that violates indentation"
  | badAnchorName => "did not find expected alphabetic or numeric character"
  | unclosedTag => "did not find the expected '>'"
  | missingBlank => "did not find expected whitespace or line break"
  | missingBlankInLine => "did not find expected whitespace"
  | missingExclamation => "did not find expected '!'"
  | missingTagName => "did not find expected tag URI"
  | badTagEscape => "did not find URI escaped octet"
  | badTagLeadingByte => "found an incorrect leading UTF-8 octet"
  | badTagTrailingByte => "found an incorrect trailing UTF-8 octet"
  | missingDirectiveName => "could not find expected directive name"
  | badDirectiveName => "found unexpected non-alphabetical character"
  | unknownDirective => "found unknown directive name"
  | missingVersionPoint => "did not find expected digit or '.' character"
  | longVersion => "found extremely long version number"
  | missingVersion => "did not find expected version number"
  | secondVersion => "found duplicate %YAML directive"
  | otherVersion => "found incompatible YAML document"
  | secondHandle => "found duplicate %TAG directive"
  | missingDocument => "did not find expected <document start>"
  | undefinedHandle => "found undefined tag handle"
  | missingNode => "did not find expected node content"
  | missingEntry => "did not find expected '-' indicator"
  | missingKey => "did not find expected key"
  | missingCommaOrBracket => "did not find expected ',' or ']'"
  | missingCommaOrBrace => "did not find expected ',' or '\x7d'"
  | unknownAnchor name => "unknown anchor '" ++ name ++ "' referenced"

/-- A problem and the line it is reported with, if it is reported with one. -/
structure Fault where
  /-- The number of the line. -/
  line : Option Nat := none
  /-- What is wrong. -/
  problem : Problem
  deriving DecidableEq, Repr, Inhabited

/-- The wording of a fault. -/
def Fault.message (f : Fault) : String :=
  (match f.line with
    | some n => "line " ++ toString n ++ ": "
    | none => "") ++ f.problem.message

/-- The line of a construct, or that of the fault in it if the construct is on the first line. -/
def reportedLine (construct fault : Nat) : Option Nat :=
  if construct ≠ 0 then some construct else if fault ≠ 0 then some fault else none

/-- A fault of a token that starts at `start`, found at `here`. Lines are counted from one. -/
def Fault.inToken (start here : Mark) (problem : Problem) : Fault :=
  ⟨(reportedLine start.line here.line).map (· + 1), problem⟩

/-- A fault found on the line `here` of a structure that starts on the line `start`. The lines are
reported as they are counted, from zero. -/
def Fault.inStructure (start here : Nat) (problem : Problem) : Fault :=
  ⟨reportedLine start here, problem⟩

end Wordlang.Yaml
