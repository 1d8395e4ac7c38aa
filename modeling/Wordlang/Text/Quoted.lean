import Wordlang.Text.Utf8
import Wordlang.Text.Printable

/-!
# Quoted text

The quoted form in which names, string constants and offending values are shown in listings and
messages: between double quotes, with a quote and a backslash escaped, the seven named control
characters by letter, the other controls of ASCII and stray bytes as `\xHH`, and characters that
are not printable as `\uHHHH` or `\UHHHHHHHH`. Hexadecimal digits are lower case.
-/

namespace Wordlang.Text

/-- `n` in hexadecimal, lower case, with at least `width` digits. -/
def hex (width n : Nat) : List Char :=
  let digits := Nat.toDigits 16 n
  List.replicate (width - digits.length) '0' ++ digits

namespace Quoted

/-- The letter after the backslash for a control character that has one. -/
def controlLetter? : Char → Option Char
  | '\x07' => some 'a'
  | '\x08' => some 'b'
  | '\x0c' => some 'f'
  | '\n' => some 'n'
  | '\r' => some 'r'
  | '\t' => some 't'
  | '\x0b' => some 'v'
  | _ => none

/-- A character that is neither the quote nor a backslash, as it is written between quotes. -/
def plainChar (c : Char) : List Char :=
  if isPrintable c then [c]
  else match controlLetter? c with
    | some l => ['\\', l]
    | none =>
      if c.toNat < 0x80 then '\\' :: 'x' :: hex 2 c.toNat
      else if c.toNat < 0x10000 then '\\' :: 'u' :: hex 4 c.toNat
      else '\\' :: 'U' :: hex 8 c.toNat

/-- A glyph as it is written between quotes `q`. -/
def glyph (q : Char) : Glyph → List Char
  | .char c => if c = q ∨ c = '\\' then ['\\', c] else plainChar c
  | .stray b => '\\' :: 'x' :: hex 2 b.toNat

end Quoted

/-- Decoded text between double quotes. -/
def quoteGlyphs (gs : List Glyph) : String :=
  String.ofList ('"' :: gs.flatMap (Quoted.glyph '"') ++ ['"'])

/-- A string between double quotes. -/
def quote (s : String) : String := quoteGlyphs (s.toList.map .char)

/-- A character between single quotes. -/
def quoteChar (c : Char) : String :=
  String.ofList ('\'' :: Quoted.glyph '\'' (.char c) ++ ['\''])

end Wordlang.Text
