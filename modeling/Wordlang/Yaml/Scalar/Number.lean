/-!
# Numbers in YAML

An integer is decimal, or has a base: `0x`, `0o`, `0b`, or octal after a leading zero. It has to fit
into 64 bits, signed or not. Any other number is decimal with a point or an exponent, and has to fit
into a double.
-/

namespace Wordlang.Yaml.Number

/-- The value of a digit or letter as a digit of some base. -/
def digitValue? (c : Char) : Option Nat :=
  if '0' ≤ c && c ≤ '9' then some (c.toNat - '0'.toNat)
  else if 'a' ≤ c && c ≤ 'z' then some (c.toNat - 'a'.toNat + 10)
  else if 'A' ≤ c && c ≤ 'Z' then some (c.toNat - 'A'.toNat + 10)
  else none

/-- The number that digits of a base make up; no digits are zero. -/
def ofDigits? (base : Nat) (cs : List Char) : Option Nat :=
  cs.foldlM (fun n c => do
    let d ← digitValue? c
    if d < base then some (n * base + d) else none) 0

/-- The number without a sign that a text is, with the base it starts with. -/
def magnitude? : List Char → Option Nat
  | [] => none
  | '0' :: c :: d :: cs =>
    if c = 'x' ∨ c = 'X' then ofDigits? 16 (d :: cs)
    else if c = 'o' ∨ c = 'O' then ofDigits? 8 (d :: cs)
    else if c = 'b' ∨ c = 'B' then ofDigits? 2 (d :: cs)
    else ofDigits? 8 (c :: d :: cs)
  | '0' :: cs => ofDigits? 8 cs
  | cs => ofDigits? 10 cs

/-- The number with an optional sign whose magnitude `read` reads. -/
def signed? (read : List Char → Option Nat) : List Char → Option Int
  | '-' :: cs => (read cs).map fun n => -(n : Int)
  | '+' :: cs => (read cs).map Int.ofNat
  | cs => (read cs).map Int.ofNat

/-- Whether a number fits into 64 bits with a sign. -/
def fitsSigned (n : Int) : Bool := Int64.minValue.toInt ≤ n && n ≤ Int64.maxValue.toInt

/-- Digits of a base, at least one. -/
def someDigits? (base : Nat) (cs : List Char) : Option Nat :=
  if cs.isEmpty then none else ofDigits? base cs

/-- The range of an integer. -/
inductive Range where
  /-- It fits into 64 bits with a sign. -/
  | signed
  /-- It fits into 64 bits without a sign only. -/
  | unsigned
  deriving DecidableEq, Repr, Inhabited

/-- The range of the integer that a text is. After `0b` and `0o` a sign may follow. -/
def integer? (cs : List Char) : Option Range :=
  if (signed? magnitude? cs).any fitsSigned then some .signed
  else if (magnitude? cs).any (· < UInt64.size) then some .unsigned
  else match cs with
    | '0' :: 'b' :: cs => if (signed? (someDigits? 2) cs).any fitsSigned then some .signed else none
    | '0' :: 'o' :: cs => if (signed? (someDigits? 8) cs).any fitsSigned then some .signed else none
    | _ => none

/-- Passes over a sign. -/
def unsign : List Char → Bool × List Char
  | '+' :: cs => (false, cs)
  | '-' :: cs => (true, cs)
  | cs => (false, cs)

/-- The exponent that follows the digits of a number; `none` if something else follows. -/
def exponent? : List Char → Option Int
  | [] => some 0
  | e :: cs =>
    if e = 'e' ∨ e = 'E' then
      let (negative, digits) := unsign cs
      (someDigits? 10 digits).map fun n => if negative then -(n : Int) else n
    else none

/-- Digits and a power of ten that they are multiplied with. -/
def decimal? (cs : List Char) : Option (List Char × Int) :=
  let (_, cs) := unsign cs
  let whole := cs.takeWhile Char.isDigit
  let (fraction, rest) := match cs.dropWhile Char.isDigit with
    | '.' :: cs => (cs.takeWhile Char.isDigit, cs.dropWhile Char.isDigit)
    | cs => ([], cs)
  if whole.isEmpty ∧ fraction.isEmpty then none
  else (exponent? rest).map fun e => (whole ++ fraction, e - fraction.length)

/-- The least number that does not fit into a double. -/
def doubleBound : Nat := Nat.pow 2 1024 - Nat.pow 2 970

/-- Whether digits times a power of ten fit into a double. -/
def fitsDouble (digits : List Char) (e : Int) : Bool :=
  let digits := digits.dropWhile (· = '0')
  let n := (ofDigits? 10 digits).getD 0
  let size := digits.length + e
  if digits.isEmpty then true
  else if 310 < size then false
  else if size < 300 then true
  else if 0 ≤ e then n * Nat.pow 10 e.toNat < doubleBound
  else n < doubleBound * Nat.pow 10 (-e).toNat

/-- Whether a text is a number that fits into a double. -/
def isDouble (cs : List Char) : Bool :=
  match decimal? cs with
  | some (digits, e) => fitsDouble digits e
  | none => false

/-- Whether every underscore stands between two digits. `digit` says whether a digit stands before
the text. -/
def separatesDigits (digit : Bool) : List Char → Bool
  | [] => true
  | '_' :: cs => digit && cs.head?.any Char.isDigit && separatesDigits false cs
  | c :: cs => separatesDigits c.isDigit cs

end Wordlang.Yaml.Number
