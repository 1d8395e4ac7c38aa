import Wordlang.Token.Scan

/-!
# The scanner at work

The scanner as it runs on the bytes of a source. It looks at one character, knows where that
character stands, and decodes a character only when it comes to it. The line and the column move when
the character at hand is passed; before the first one they are line one and column zero.

What is left of the source becomes less with every character that is passed, so the loops end by
themselves.
-/

namespace Wordlang

open Text (Glyph)

/-- A scanner that runs. -/
structure Scanner where
  /-- The file's name. -/
  file : String
  /-- The bytes behind the current character. -/
  bytes : List UInt8
  /-- The line of the current character. -/
  line : UInt32 := 1
  /-- The column of the current character. -/
  column : UInt32 := 0
  /-- The character that is looked at; there is none at the end of the input, nor before the first
  character. -/
  current : Option Glyph := none
  /-- The lexeme taken last. -/
  lexeme : Lexeme := ⟨.eof, "", {}⟩
  /-- The errors that the error handler was called with, in order. -/
  reports : List LexicalError := []
  deriving DecidableEq, Repr

namespace Scanner

/-- Where the current character stands. -/
def pos (sc : Scanner) : Position := ⟨sc.file, sc.line, sc.column⟩

/-- The current character as it is read. -/
def char? (sc : Scanner) : Option Char := sc.current.map Glyph.toChar

/-- Calls the error handler. -/
def report (sc : Scanner) (pos : Position) (fault : LexicalFault) : Scanner :=
  { sc with reports := sc.reports ++ [⟨pos, fault⟩] }

/-- Moves the line and the column past the current character. -/
def move (sc : Scanner) : Scanner :=
  if sc.char? = some '\n' then { sc with line := sc.line + 1, column := 1 }
  else { sc with column := sc.column + 1 }

/-- Reads the next character. -/
def read (sc : Scanner) : Scanner :=
  match sc.bytes with
  | [] => { sc with current := none }
  | a :: rest =>
    match Text.Utf8.leading? a rest with
    | some (c, more) => { sc with current := some (.char c), bytes := rest.drop more }
    | none => { sc.report sc.pos .badEncoding with current := some (.stray a), bytes := rest }

/-- Goes on to the next character. -/
def advance (sc : Scanner) : Scanner := sc.move.read

/-- The scanner of a source, which looks at its first character. -/
def ofSource (s : Source) : Scanner :=
  match s.content with
  | .ok bytes => advance { file := s.file, bytes }
  | .error reason =>
    let sc : Scanner := { file := s.file, bytes := [] }
    (sc.report sc.pos (.unreadable reason)).advance

/-! ## What is left -/

/-- What is left of the source: the bytes and the character at hand. -/
def left (sc : Scanner) : Nat := sc.bytes.length + if sc.current.isSome then 1 else 0

theorem left_read_le (sc : Scanner) : sc.read.left ≤ sc.bytes.length := by
  unfold read
  split
  · exact Nat.le_refl _
  · rename_i a rest hbytes
    rw [hbytes]
    split
    · exact Nat.succ_le_succ (List.drop_sublist _ rest).length_le
    · exact Nat.le_refl _

theorem bytes_move (sc : Scanner) : sc.move.bytes = sc.bytes := by
  unfold move
  split <;> rfl

/-- Passing a character leaves less. -/
theorem left_advance_lt {sc : Scanner} (h : sc.current.isSome) : sc.advance.left < sc.left := by
  have hread := sc.move.left_read_le
  rw [bytes_move] at hread
  have hleft : sc.left = sc.bytes.length + 1 := by rw [left, if_pos h]
  rw [hleft]
  exact Nat.lt_succ_of_le hread

/-! ## Lexemes -/

/-- Passes characters as long as they satisfy `p`, and gives them. -/
def passWhile (p : Char → Bool) (sc : Scanner) : List Char × Scanner :=
  match _h : sc.current with
  | none => ([], sc)
  | some g =>
    if p g.toChar then
      let (cs, sc') := passWhile p sc.advance
      (g.toChar :: cs, sc')
    else ([], sc)
termination_by sc.left
decreasing_by exact left_advance_lt (by rw [_h]; rfl)

/-- Takes the lexeme with the given token and text, which starts at `start`. -/
def take (sc : Scanner) (start : Position) (token : Token) (text : String) : Scanner :=
  { sc with lexeme := ⟨token, text, start⟩ }

/-- Scans a word. -/
def word (sc : Scanner) : Scanner :=
  let (cs, rest) := sc.passWhile isWordChar
  let (token, fault) := classifyWord cs
  let rest := match fault with
    | some f => rest.report sc.pos f
    | none => rest
  rest.take sc.pos token (String.ofList cs)

/-- Scans a string, of which the opening quote is looked at. -/
def string (sc : Scanner) : Scanner :=
  let (cs, rest) := sc.advance.passWhile (· != '"')
  let text := String.ofList cs
  match rest.current with
  | none => (rest.report sc.pos .unterminated).take sc.pos .error text
  | some _ =>
    if cs.isEmpty then (rest.advance.report sc.pos .emptyString).take sc.pos .error text
    else rest.advance.take sc.pos .string text

/-- Scans the lexeme that starts with the current character, which is `c` and no blank. -/
def token (sc : Scanner) (c : Char) : Scanner :=
  match Token.ofDelimiter? c with
  | some t => sc.advance.take sc.pos t (String.singleton c)
  | none =>
    if c = '"' then sc.string
    else if isWordChar c then sc.word
    else (sc.report sc.pos (.unexpected c)).advance.take sc.pos .error (String.singleton c)

/-- Takes the next lexeme. -/
def next (sc : Scanner) : Scanner :=
  let sc := (sc.passWhile isBlank).2
  match sc.char? with
  | none => sc.take sc.pos .eof ""
  | some c => sc.token c

end Scanner

end Wordlang
