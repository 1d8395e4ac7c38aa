import Wordlang.LLVM.Line

/-!
# Reading LLVM text

What a text of LLVM lines says, as far as names go: it is split into lines, the lines into tokens,
and of a line it is asked which name it defines and which names it uses. Nothing here knows how the
text was written.

A token is a word, a name with its sigil (`%x` or `@x`, also with quotes), a text between quotes, or
a single character of punctuation; what follows a semicolon is a comment. A function is defined by
the lines from one that starts with `define` up to the next closing brace.
-/

namespace Wordlang.LLVM.Reader

/-! ## Lines and tokens -/

/-- A character that ends a line. -/
def isBreak (c : Char) : Bool := c == '\n' || c == '\r'

/-- The text is all in one line. -/
def Unbroken (text : String) : Prop := ∀ c ∈ text.toList, isBreak c = false

instance : DecidablePred Unbroken := fun text =>
  List.decidableBAll (fun c => isBreak c = false) text.toList

def linesOf (text : String) : List String := (text.toList.splitOnP isBreak).map String.ofList

/-- What is being read. -/
inductive Mode where
  | code
  | quoted
  | comment
  deriving DecidableEq, Repr

/-- The state of reading a line: the characters of the token that has been started, and the tokens
before it. -/
structure State where
  mode : Mode := .code
  current : List Char := []
  done : List (List Char) := []
  deriving DecidableEq, Repr

/-- The tokens, when the one that has been started is complete. -/
def State.flush (s : State) : List (List Char) :=
  if s.current = [] then s.done else s.done ++ [s.current]

def step (s : State) (c : Char) : State :=
  match s.mode with
  | .comment => s
  | .quoted => { s with mode := if c = '"' then .code else .quoted, current := s.current ++ [c] }
  | .code =>
    if c = ';' then { mode := .comment, done := s.flush }
    else if c = '"' then { s with mode := .quoted, current := s.current ++ [c] }
    else if c = ' ' then { done := s.flush }
    else if c = '%' ∨ c = '@' then { current := [c], done := s.flush }
    else if isSymbolChar c then { s with current := s.current ++ [c] }
    else { done := s.flush ++ [[c]] }

def read (s : State) (cs : List Char) : State := cs.foldl step s

def scan (cs : List Char) : List (List Char) := (read {} cs).flush

def tokens (line : String) : List String := (scan line.toList).map String.ofList

/-- The lines of a text, each as its tokens. -/
def readText (text : String) : List (List String) := (linesOf text).map tokens

/-! ## Names -/

/-- The token is the name of a value or of a parameter. -/
def IsLocal (t : String) : Prop := t.toList.head? = some '%'

/-- The token is the name of a function or of a constant. -/
def IsGlobal (t : String) : Prop := t.toList.head? = some '@'

instance : DecidablePred IsLocal := fun t =>
  inferInstanceAs (Decidable (t.toList.head? = some '%'))

instance : DecidablePred IsGlobal := fun t =>
  inferInstanceAs (Decidable (t.toList.head? = some '@'))

/-- The value that a line of a function defines. -/
def defined? : List String → Option String
  | t :: "=" :: _ => if IsLocal t then some t else none
  | _ => none

/-- The part of a line in which names are used. -/
def uses : List String → List String
  | _ :: "=" :: ts => ts
  | ts => ts

/-- The function or constant that a line introduces. -/
def introduced? : List String → Option String
  | "define" :: ts => ts.find? (IsGlobal ·)
  | "declare" :: ts => ts.find? (IsGlobal ·)
  | t :: _ => if IsGlobal t then some t else none
  | [] => none

/-! ## Functions -/

/-- A function: the tokens of its first line and those of the lines between the braces. -/
structure Definition where
  head : List String
  body : List (List String)

def Definition.symbol? (d : Definition) : Option String := introduced? d.head

/-- The names of the parameters. -/
def Definition.params (d : Definition) : List String := d.head.filter (IsLocal ·)

/-- The functions that are defined by lines of tokens. -/
def definitions : List (List String) → List Definition
  | [] => []
  | l :: ls =>
    if l.head? = some "define" then ⟨l, ls.takeWhile (· ≠ ["\x7d"])⟩ :: definitions ls
    else definitions ls

/-- The line starts a block. -/
def IsLabel (ts : List String) : Prop := ts.getLast? = some ":"

/-- The line ends a block. -/
def IsTerminator (ts : List String) : Prop := ∃ w ∈ ["ret", "br", "switch", "unreachable"],
  ts.head? = some w

/-- A function in static single assignment form, with one block. -/
structure Definition.WellFormed (d : Definition) : Prop where
  /-- What a line defines is a value with a number, and never a parameter. -/
  values : ∀ x ∈ d.body.filterMap defined?, ∃ n, x = valueText n
  /-- Each value is defined by one line. -/
  once : (d.body.filterMap defined?).Nodup
  /-- What a line uses is defined by a line before it, or is a parameter. -/
  earlier : ∀ (k : Nat) line, d.body[k]? = some line → ∀ x ∈ uses line, IsLocal x →
    x ∈ (d.body.take k).filterMap defined? ∨ ∃ n < d.params.length, x = argText n
  /-- There is one block, with one terminator at its end: a return of an integer, or none. -/
  block : ∃ code stop, d.body = ["entry", ":"] :: (code ++ [stop]) ∧
    (∀ line ∈ code, ¬ IsLabel line ∧ ¬ IsTerminator line) ∧
    (stop = ["unreachable"] ∨ ∃ x, stop = ["ret", "i32", x])

/-- Every function of the text is in static single assignment form, and every symbol in it is
introduced by one line. In the line of the target triple, which is written as it is, nothing counts
as a symbol. -/
structure WellFormed (text : String) : Prop where
  functions : ∀ d ∈ definitions (readText text), d.WellFormed
  symbols : ∀ line ∈ readText text, line.head? ≠ some "target" → ∀ x ∈ line, IsGlobal x →
    ((readText text).filterMap introduced?).count x = 1

end Wordlang.LLVM.Reader
