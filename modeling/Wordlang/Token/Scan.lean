import Wordlang.Source
import Wordlang.Token

/-!
# Cutting a source into lexemes

Blanks separate tokens. A delimiter is a token by itself, a double quote opens a string that runs to
the next double quote, and every other maximal run of characters is a word: `@`, an integer, a
literal with a decimal point, or a name.

Reading looks one character ahead. Taking the next lexeme therefore notices every stray byte behind
its first character up to and including the character after the lexeme, and reports those before
the fault of the lexeme itself; the very first character is noticed before any lexeme is taken.
-/

namespace Wordlang

/-- A character that only separates tokens. -/
def isBlank (c : Char) : Bool := c == ' ' || c == '\t' || c == '\r' || c == '\n'

/-- A character that may appear in a word: anything but a blank, a delimiter or a quote. -/
def isWordChar (c : Char) : Bool := !isBlank c && c != '"' && (Token.ofDelimiter? c).isNone

/-- A decimal digit. -/
def isDigit (c : Char) : Bool := '0' ≤ c && c ≤ '9'

/-- The value of a run of decimal digits. -/
def decimal (digits : List Char) : Nat :=
  digits.foldl (fun n c => n * 10 + (c.toNat - '0'.toNat)) 0

/-- The largest value of an integer literal. -/
def maxInt : Nat := 2147483647

/-- One or more decimal digits. -/
def isIntText (cs : List Char) : Bool := !cs.isEmpty && cs.all isDigit

/-- Digits, a point, digits. -/
def isFloatText (cs : List Char) : Bool :=
  isIntText (cs.takeWhile (· != '.')) && isIntText ((cs.dropWhile (· != '.')).drop 1)

/-- The token that a word is, and what is wrong with it if it is none. -/
def classifyWord (word : List Char) : Token × Option LexicalFault :=
  if word = ['@'] then (.atSign, none)
  else if isIntText word then
    if decimal word ≤ maxInt then (.int, none)
    else (.error, some (.overflow (String.ofList word)))
  else if isFloatText word then (.float, none)
  else (.name, none)

/-- A token cut from the front of a text: its kind and text, what is wrong with it, and the text
behind it. -/
structure Cut where
  /-- The kind of token. -/
  token : Token
  /-- Its text. -/
  text : String
  /-- What is wrong, for an error token. -/
  fault : Option LexicalFault
  /-- What follows. -/
  rest : List Located

/-- The characters of a piece of text. -/
def textOf (cs : List Located) : List Char := cs.map Located.char

/-- Neither a quote nor anything that ends a string. -/
def inString (c : Located) : Bool := c.char != '"'

/-- Part of a word. -/
def inWord (c : Located) : Bool := isWordChar c.char

/-- Cuts the string whose opening quote stands before `cs`. -/
def cutString (cs : List Located) : Cut :=
  match cs.dropWhile inString with
  | [] => ⟨.error, String.ofList (textOf (cs.takeWhile inString)), some .unterminated, []⟩
  | _ :: rest =>
    if (cs.takeWhile inString).isEmpty then ⟨.error, "", some .emptyString, rest⟩
    else ⟨.string, String.ofList (textOf (cs.takeWhile inString)), none, rest⟩

/-- Cuts the word that starts with the character `c`. -/
def cutWord (c : Located) (cs : List Located) : Cut :=
  let word := textOf (c :: cs.takeWhile inWord)
  ⟨(classifyWord word).1, String.ofList word, (classifyWord word).2, cs.dropWhile inWord⟩

/-- Cuts the token that starts with the character `c`, which is no blank. -/
def cut (c : Located) (cs : List Located) : Cut :=
  match Token.ofDelimiter? c.char with
  | some t => ⟨t, String.singleton c.char, none, cs⟩
  | none =>
    if c.char = '"' then cutString cs
    else if inWord c then cutWord c cs
    else ⟨.error, String.singleton c.char, some (.unexpected c.char), cs⟩

/-- A string is cut from what is there. -/
theorem cutString_rest_length_le (cs : List Located) : (cutString cs).rest.length ≤ cs.length := by
  have h := (List.dropWhile_sublist inString (l := cs)).length_le
  unfold cutString
  split
  · exact Nat.zero_le _
  · rename_i hd
    rw [hd] at h
    split <;> exact Nat.le_of_succ_le h

/-- A token is cut from what is there: the text behind it is no longer than the text after its first
character. -/
theorem cut_rest_length_le (c : Located) (cs : List Located) :
    (cut c cs).rest.length ≤ cs.length := by
  unfold cut
  split
  · exact Nat.le_refl _
  · split
    · exact cutString_rest_length_le cs
    · split
      · exact (List.dropWhile_sublist inWord).length_le
      · exact Nat.le_refl _

/-- A lexeme, the errors reported while it was taken, in order, and the text behind it. -/
structure Taken where
  /-- The lexeme. -/
  lexeme : Lexeme
  /-- What was reported on the way. -/
  errors : List LexicalError
  /-- What follows. -/
  rest : List Located

/-- The reports of the stray bytes among `cs`. -/
def strayErrors (cs : List Located) : List LexicalError :=
  (cs.filter (·.glyph.isStray)).map fun c => ⟨c.pos, .badEncoding⟩

/-- Takes the next lexeme of `cs`, a text that ends at `stop`. -/
def take (stop : Position) (cs : List Located) : Taken :=
  match cs.dropWhile (isBlank ·.char) with
  | [] => ⟨⟨.eof, "", stop⟩, strayErrors (cs.drop 1), []⟩
  | c :: rest =>
    let token := cut c rest
    let noticed := (cs.drop 1).take (cs.length - token.rest.length)
    ⟨⟨token.token, token.text, c.pos⟩,
      strayErrors noticed ++ (token.fault.map fun f => ⟨c.pos, f⟩).toList, token.rest⟩

/-- Taking a lexeme either reaches the end or shortens the text. -/
theorem take_rest_length_lt {stop : Position} {cs : List Located}
    (h : (take stop cs).lexeme.token ≠ .eof) : (take stop cs).rest.length < cs.length := by
  unfold take at h ⊢
  split
  · rename_i hc
    simp [hc] at h
  · rename_i c rest hc
    have hd : (cs.dropWhile (isBlank ·.char)).length ≤ cs.length :=
      (List.dropWhile_sublist _).length_le
    rw [hc] at hd
    exact Nat.lt_of_le_of_lt (cut_rest_length_le c rest) hd

/-- All lexemes of a text that ends at `stop`, up to and including the end, each with the errors
reported while it was taken. -/
def takeAll (stop : Position) (cs : List Located) : List (List LexicalError × Lexeme) :=
  let t := take stop cs
  if _h : t.lexeme.token = .eof then [(t.errors, t.lexeme)]
  else (t.errors, t.lexeme) :: takeAll stop t.rest
termination_by cs.length
decreasing_by exact take_rest_length_lt _h

namespace Source

/-- What is reported before any lexeme is taken: that the source cannot be read, or that it starts
with a stray byte. -/
def openingErrors (s : Source) : List LexicalError :=
  (match s.content with
    | .error reason => [⟨⟨s.file, 1, 0⟩, .unreadable reason⟩]
    | .ok _ => []) ++ strayErrors (s.located.take 1)

/-- The lexemes of a source up to and including its end, each with the errors reported while it was
taken. -/
def lexemes (s : Source) : List (List LexicalError × Lexeme) := takeAll s.stop s.located

/-- Every lexical error of the source, in the order of the reports. -/
def lexicalErrors (s : Source) : List LexicalError :=
  s.openingErrors ++ s.lexemes.flatMap (·.1)

end Source

end Wordlang
