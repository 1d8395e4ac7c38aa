import Wordlang.Yaml.Scalar.Number
import Wordlang.Yaml.Scalar.Timestamp

/-!
# Meaning of plain scalars in YAML

What a scalar without quotes and without a tag is taken for.
-/

namespace Wordlang.Yaml

/-- What a scalar can be. -/
inductive Kind where
  /-- A text. -/
  | text
  /-- No value. -/
  | null
  /-- A truth value. -/
  | bool (b : Bool)
  /-- An integer. -/
  | int (range : Number.Range)
  /-- Any other number. -/
  | float
  /-- A date. -/
  | timestamp
  deriving DecidableEq, Repr, Inhabited

namespace Kind

/-- The tag of a kind. -/
def tag : Kind → String
  | text => "!!str"
  | null => "!!null"
  | bool _ => "!!bool"
  | int _ => "!!int"
  | float => "!!float"
  | timestamp => "!!timestamp"

/-- The words with a meaning of their own. -/
def ofWord? (s : String) : Option Kind :=
  if s ∈ ["true", "True", "TRUE"] then some (bool true)
  else if s ∈ ["false", "False", "FALSE"] then some (bool false)
  else if s ∈ ["", "~", "null", "Null", "NULL"] then some null
  else if s ∈ [".nan", ".NaN", ".NAN", ".inf", ".Inf", ".INF", "+.inf", "+.Inf", "+.INF", "-.inf",
      "-.Inf", "-.INF"] then some float
  else none

/-- What a plain scalar is. Dates are looked for only if asked; in numbers with a leading sign or
digit underscores do not count. -/
def ofPlain (dates : Bool) (s : String) : Kind :=
  let cs := s.toList
  match ofWord? s with
  | some k => k
  | none =>
    match cs.head? with
    | none => null
    | some c =>
      if c = '.' then
        if Number.separatesDigits false cs && Number.isDouble (cs.filter (· != '_')) then float
        else text
      else if c = '+' ∨ c = '-' ∨ c.isDigit then
        let number := cs.filter (· != '_')
        if dates && Timestamp.isTimestamp cs then timestamp
        else match Number.integer? number with
          | some r => int r
          | none => if Number.isDouble number then float else text
      else text

end Kind

/-- The words that older versions of YAML took for truth values. -/
def oldBool? (s : String) : Option Bool :=
  if s ∈ ["y", "Y", "yes", "Yes", "YES", "on", "On", "ON"] then some true
  else if s ∈ ["n", "N", "no", "No", "NO", "off", "Off", "OFF"] then some false
  else none

/-- The places of a number to the base 60: `:` and one or two digits each, then perhaps a point and
digits. `begun` says that at least one place was read. -/
def sexagesimalTail (begun : Bool) : List Char → Bool
  | ':' :: a :: b :: cs =>
    if a.isDigit && b.isDigit then a ≤ '5' && sexagesimalTail true cs
    else a.isDigit && sexagesimalTail true (b :: cs)
  | [':', a] => a.isDigit
  | '.' :: cs => begun && cs.all fun c => c.isDigit || c = '_'
  | [] => begun
  | _ => false

/-- Whether older versions of YAML took a text for a number to the base 60. -/
def isSexagesimal (s : String) : Bool :=
  let (_, cs) := Number.unsign s.toList
  cs.head?.any Char.isDigit && sexagesimalTail false (cs.dropWhile fun c => c.isDigit || c = '_')

end Wordlang.Yaml
