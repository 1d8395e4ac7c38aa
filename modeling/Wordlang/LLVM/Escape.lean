import Wordlang.Text.Utf8

/-!
# Escapes and symbols of LLVM text

Between double quotes, LLVM text writes a byte outside the printable range of ASCII, a quote and a
backslash as a backslash and two upper-case hexadecimal digits, and every other byte as itself.

A symbol made of letters, digits, `-`, `$`, `.` and `_` that does not start with a digit is written
plainly, any other between quotes.
-/

namespace Wordlang.LLVM

/-- The upper-case hexadecimal digit of a number below sixteen. -/
def hexDigit (n : Nat) : Char :=
  if n < 10 then Char.ofNat ('0'.toNat + n) else Char.ofNat ('A'.toNat + (n - 10))

/-- Whether a byte is written as an escape. -/
def needsEscape (b : UInt8) : Bool := b == 0x5C || b == 0x22 || b < 0x20 || 0x7F ≤ b

/-- A byte as it is written between quotes. -/
def escapeByte (b : UInt8) : List Char :=
  if needsEscape b then ['\\', hexDigit (b.toNat / 16), hexDigit (b.toNat % 16)]
  else [Char.ofNat b.toNat]

/-- Bytes as they are written between quotes. -/
def escape (bytes : List UInt8) : String := String.ofList (bytes.flatMap escapeByte)

/-- A character that may start a plain symbol. -/
def isSymbolStart (c : Char) : Bool :=
  ('a' ≤ c && c ≤ 'z') || ('A' ≤ c && c ≤ 'Z') || c == '-' || c == '$' || c == '.' || c == '_'

/-- A character that may follow in a plain symbol. -/
def isSymbolChar (c : Char) : Bool := isSymbolStart c || ('0' ≤ c && c ≤ '9')

/-- Whether a symbol is written without quotes. -/
def isPlainSymbol (name : String) : Bool :=
  match name.toList with
  | [] => false
  | c :: cs => isSymbolStart c && cs.all isSymbolChar

/-- A symbol as it is written. -/
def symbol (name : String) : String :=
  if isPlainSymbol name then "@" ++ name
  else "@\"" ++ escape (Text.Utf8.ofString name) ++ "\""

end Wordlang.LLVM
