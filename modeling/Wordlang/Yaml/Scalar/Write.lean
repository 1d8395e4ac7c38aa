import Wordlang.Yaml.Cursor
import Wordlang.Yaml.Scalar

/-!
# Writing texts as YAML scalars

How a text is written as the value of a key on the outermost level. A text with a line feed becomes a
block, and one that would be read as something else gets double quotes; any other stays plain. Where
the characters of a text do not allow the form wanted, plain gives way to single quotes, and single
quotes and blocks to double quotes.
-/

namespace Wordlang.Yaml

/-- The forms of a written text. -/
inductive Form where
  /-- Without any mark. -/
  | plain
  /-- Between single quotes. -/
  | single
  /-- Between double quotes. -/
  | double
  /-- A block that keeps its lines. -/
  | block
  deriving DecidableEq, Repr, Inhabited

/-! ## Which forms a text allows -/

/-- Whether a character can be written as it is. Beyond the sixteen bits of the oldest characters,
none is. -/
def isWritable (c : Char) : Bool :=
  c = '\n' || (' ' ≤ c && c ≤ '~') ||
    ('\u00A0' ≤ c && c ≤ '\uFFFD' && c != '\uFEFF')

/-- Whether a break occurs next to a space: the characters of each neighbouring pair are tested. -/
def anyPair (p : Char → Char → Bool) : List Char → Bool
  | a :: b :: cs => p a b || anyPair p (b :: cs)
  | _ => false

/-- A space before a break, or one after it. -/
def hasSpacedBreak (before : Bool) (cs : List Char) : Bool :=
  anyPair (fun a b => if before then a = ' ' && isBreak b else isBreak a && b = ' ') cs

/-- Whether a character at the start of a text would be taken for a mark; `rest` follows it. -/
def marksStart (c : Char) (rest : List Char) : Bool :=
  if c = '?' ∨ c = ':' ∨ c = '-' then rest.isEmpty || rest.head?.any isBlank
  else "#,[]\x7b\x7d&*!|>'\"%@\x60".toList.contains c

/-- Whether inside of a text a colon or a hash would be taken for a mark. -/
def marksInside (a : Char) : List Char → Bool
  | [] => false
  | c :: cs =>
    (c = ':' && (cs.isEmpty || cs.head?.any isBlank)) || (c = '#' && isSpacing a) || marksInside c cs

/-- Whether a text starts like the border of a document. -/
def looksLikeBorder : List Char → Bool
  | '-' :: '-' :: '-' :: _ => true
  | '.' :: '.' :: '.' :: _ => true
  | _ => false

/-- Whether a text holds a character that has to be escaped. -/
def hasSpecial (cs : List Char) : Bool := cs.any fun c => c != '\t' && !isWritable c

/-- Whether a text may stand between single quotes. -/
def allowsSingle (cs : List Char) : Bool :=
  !(hasSpacedBreak true cs || hasSpacedBreak false cs || cs.contains '\t' || hasSpecial cs)

/-- Whether a text may be a block. -/
def allowsBlock (cs : List Char) : Bool :=
  !cs.isEmpty && cs.getLast? != some ' ' && !hasSpacedBreak true cs && !hasSpecial cs

/-- Whether a text may stand without any mark. -/
def allowsPlain (cs : List Char) : Bool :=
  match cs with
  | [] => true
  | c :: rest =>
    allowsSingle cs && !cs.any isBreak && c != ' ' && cs.getLast? != some ' ' &&
      !marksStart c rest && !marksInside c rest && !looksLikeBorder cs

/-- Whether a text without quotes would be read as the same text, by older readers too. -/
def staysText (s : String) : Bool :=
  Kind.ofPlain true s = .text && !isSexagesimal s && (oldBool? s).isNone

/-- The form in which a text is written. -/
def formOf (s : String) : Form :=
  let cs := s.toList
  if cs.contains '\n' then if allowsBlock cs then .block else .double
  else if !staysText s then .double
  else if allowsPlain cs then .plain
  else if allowsSingle cs then .single
  else .double

/-! ## The forms -/

/-- How far the lines of a text are indented. -/
def indentation : List Char := [' ', ' ']

/-- `n` in hexadecimal, upper case, with `width` digits. -/
def upperHex (width n : Nat) : List Char :=
  (List.range width).reverse.map fun i =>
    let d := n / Nat.pow 16 i % 16
    Char.ofNat (if d < 10 then '0'.toNat + d else 'A'.toNat + (d - 10))

/-- The escape for a character. -/
def escapeChar (c : Char) : List Char :=
  '\\' :: match c with
  | '\x00' => ['0']
  | '\x07' => ['a']
  | '\x08' => ['b']
  | '\t' => ['t']
  | '\n' => ['n']
  | '\x0b' => ['v']
  | '\x0c' => ['f']
  | '\r' => ['r']
  | '\x1b' => ['e']
  | '"' => ['"']
  | '\\' => ['\\']
  | '\u0085' => ['N']
  | '\u00A0' => ['_']
  | '\u2028' => ['L']
  | '\u2029' => ['P']
  | c =>
    if c.toNat ≤ 0xFF then 'x' :: upperHex 2 c.toNat
    else if c.toNat ≤ 0xFFFF then 'u' :: upperHex 4 c.toNat
    else 'U' :: upperHex 8 c.toNat

/-- A text between double quotes. If it starts with a byte order mark, every character of it is
escaped. -/
def writeDouble (cs : List Char) : List Char :=
  let all := cs.head? = some '\uFEFF'
  let char (c : Char) : List Char :=
    if all || !isWritable c || isBreak c || c = '"' || c = '\\' then escapeChar c else [c]
  '"' :: cs.flatMap char ++ ['"']

/-- A text between single quotes, from inside; `broken` says that a line was just ended. -/
def singleFrom (broken : Bool) : List Char → List Char
  | [] => []
  | c :: cs =>
    if isBreak c then c :: singleFrom true cs
    else
      (if broken then indentation else []) ++ (if c = '\'' then ['\'', '\''] else [c]) ++
        singleFrom false cs

/-- A text between single quotes. -/
def writeSingle (cs : List Char) : List Char := '\'' :: singleFrom false cs ++ ['\'']

/-- The lines of a block: every line that is not empty is indented. -/
def blockLinesFrom (fresh : Bool) : List Char → List Char
  | [] => []
  | c :: cs =>
    if isBreak c then c :: blockLinesFrom true cs
    else (if fresh then indentation else []) ++ c :: blockLinesFrom false cs

/-- The sign for the breaks at the end of a block. -/
def chompingSign (cs : List Char) : List Char :=
  match cs.reverse with
  | [] => ['-']
  | c :: before =>
    if !isBreak c then ['-'] else if before.isEmpty || before.head?.any isBreak then ['+'] else []

/-- A text as a block. A break at the start of the text ends the line of the block's own mark. -/
def writeBlock (cs : List Char) : List Char :=
  let spaced := cs.head?.any fun c => c = ' ' || isBreak c
  let broken := cs.head?.any isBreak
  '|' :: (if spaced then ['2'] else []) ++ chompingSign cs ++
    (if broken then [] else ['\n']) ++ blockLinesFrom true cs

/-- A text as the value of a key, up to the end of its line. -/
def writeText (s : String) : String :=
  let cs := s.toList
  match formOf s with
  | .plain => s ++ "\n"
  | .single => String.ofList (writeSingle cs) ++ "\n"
  | .double => String.ofList (writeDouble cs) ++ "\n"
  | .block =>
    let block := writeBlock cs
    String.ofList (if block.getLast?.any isBreak then block else block ++ ['\n'])

end Wordlang.Yaml
