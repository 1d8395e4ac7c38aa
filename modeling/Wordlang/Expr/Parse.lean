import Wordlang.Expr
import Wordlang.Parsed
import Wordlang.Text.Quoted
import Wordlang.Token.Scan

/-!
# Parsing

The grammar, over the lexemes of a source:

    program = [ exprs ] EOF
    exprs   = expr { ";" expr } [ ";" ]
    expr    = NAME "=" expr | NAME "(" args | "(" params "{" [ exprs ] "}" | atom [ NAME expr ]
    atom    = NAME | INT | STRING
    args    = ")" | expr { "," expr } ")"
    params  = ")" | NAME { "," NAME } ")"

Infix forms become calls and associate to the right. Parsing stops at the first error, lexical or
syntactic. A lexical error surfaces when the lexeme it was reported with is needed: the parser runs
on the lexemes taken before the first report, and asking for one more is the error.

Every function returns the lexemes it left over together with the fact that they are fewer, so the
recursion ends by itself.
-/

namespace Wordlang

/-- What a parser was looking for. -/
inductive Expected where
  /-- A certain token. -/
  | token (t : Token)
  /-- The start of an expression. -/
  | expression
  /-- The end of a top-level expression. -/
  | separator
  deriving DecidableEq, Repr, Inhabited

/-- What can be wrong with a source. -/
inductive SyntaxFault where
  /-- Something is wrong with its characters. -/
  | lexical (fault : LexicalFault)
  /-- One thing was expected and another found. -/
  | unexpected (want : Expected) (found : Lexeme)
  /-- A literal with a decimal point. -/
  | floatLiteral
  deriving DecidableEq, Repr, Inhabited

/-- The reason why a source is no program, and its place. -/
structure SyntaxError where
  /-- Where. -/
  pos : Position
  /-- What is wrong. -/
  fault : SyntaxFault
  deriving DecidableEq, Repr, Inhabited

/-- How messages name what was expected. -/
def Expected.label : Expected → String
  | token t => t.label
  | expression => "expression"
  | separator => "; or end of input"

/-- How messages name a lexeme that was found. -/
def Lexeme.label (l : Lexeme) : String :=
  match l.token with
  | .name => "name " ++ l.text
  | .int | .float => "literal " ++ l.text
  | .string => "literal " ++ Text.quote l.text
  | t => t.label

/-- The wording of a fault. -/
def SyntaxFault.message : SyntaxFault → String
  | lexical fault => fault.message
  | unexpected want found => "expected " ++ want.label ++ ", found " ++ found.label
  | floatLiteral => "float literals are not supported"

/-- `position: wording`. -/
def SyntaxError.message (e : SyntaxError) : String := e.pos.text ++ ": " ++ e.fault.message

/-- A lexical error as an error of the whole source. -/
def LexicalError.toSyntaxError (e : LexicalError) : SyntaxError := ⟨e.pos, .lexical e.fault⟩

namespace Parse

/-- The outcome of a parser on fewer than `bound` lexemes. -/
abbrev Outcome (α : Type) (bound : Nat) := Except SyntaxError (Parsed Lexeme α bound)

/-- The failure to find `want` at the lexeme `l`. -/
def unexpected {α : Type} (want : Expected) (l : Lexeme) : Except SyntaxError α :=
  .error ⟨l.pos, .unexpected want l⟩

/-- A name at its place. -/
def ident (l : Lexeme) : Ident := ⟨l.pos, l.text⟩

/-- The value of an integer literal. -/
def intValue (l : Lexeme) : Int32 := Int32.ofNat (decimal l.text.toList)

variable (late : SyntaxError)

/-- Takes the token `t`. Running out of lexemes is the error `late`, here and below. -/
def token (t : Token) : (ls : List Lexeme) → Outcome Unit ls.length
  | [] => .error late
  | l :: ls => if l.token = t then .ok ⟨(), ls, Nat.lt_succ_self _⟩ else unexpected (.token t) l

/-- `NAME { "," NAME } ")"`, the parameters after the opening parenthesis. -/
def names : (ls : List Lexeme) → Outcome (List Expr) ls.length
  | [] => .error late
  | l :: ls =>
    if l.token = .name then
      match ls with
      | [] => .error late
      | m :: ls =>
        if m.token = .comma then
          (names ls).map (·.map (Expr.name (ident l) :: ·)
            (Nat.le_trans (Nat.le_succ _) (Nat.le_succ _)))
        else if m.token = .closeParen then
          .ok ⟨[.name (ident l)], ls, Nat.lt_succ_of_lt (Nat.lt_succ_self _)⟩
        else unexpected (.token .closeParen) m
    else unexpected (.token .name) l

/-- `params` after the opening parenthesis. -/
def params : (ls : List Lexeme) → Outcome (List Expr) ls.length
  | [] => .error late
  | l :: ls =>
    if l.token = .closeParen then .ok ⟨[], ls, Nat.lt_succ_self _⟩ else names late (l :: ls)

mutual

/-- `expr`. -/
def expr (ls : List Lexeme) : Outcome Expr ls.length :=
  match ls with
  | [] => .error late
  | l :: ls =>
    match l.token with
    | .name =>
      match ls with
      | [] => .error late
      | m :: ls' =>
        match m.token with
        | .assign =>
          (expr ls').map (·.map (Expr.assign l.pos (ident l)) (by simp; omega))
        | .openParen =>
          (args ls').map (·.map (Expr.call l.pos (ident l)) (by simp; omega))
        | _ => infixTail (.name (ident l)) (m :: ls')
    | .int => infixTail (.int l.pos (intValue l)) ls
    | .string => infixTail (.string l.pos l.text) ls
    | .openParen => function l.pos ls
    | .float => .error ⟨l.pos, .floatLiteral⟩
    | _ => unexpected .expression l
termination_by (ls.length, 0)

/-- `[ NAME expr ]` after the atom `x`. -/
def infixTail (x : Expr) (ls : List Lexeme) : Outcome Expr (ls.length + 1) :=
  match ls with
  | [] => .error late
  | l :: ls =>
    if l.token = .name then
      (expr ls).map (·.map (fun y => .call x.pos (ident l) [x, y]) (by simp; omega))
    else .ok ⟨x, l :: ls, Nat.lt_succ_self _⟩
termination_by (ls.length, 1)

/-- `args` after the opening parenthesis. -/
def args (ls : List Lexeme) : Outcome (List Expr) ls.length :=
  match ls with
  | [] => .error late
  | l :: ls =>
    if l.token = .closeParen then .ok ⟨[], ls, Nat.lt_succ_self _⟩ else argList (l :: ls)
termination_by (ls.length, 2)

/-- `expr { "," expr } ")"`. -/
def argList (ls : List Lexeme) : Outcome (List Expr) ls.length := do
  let x ← expr ls
  match h : x.rest with
  | [] => .error late
  | l :: ls' =>
    have hx : ls'.length + 1 < ls.length := by
      have := x.rest_lt
      simpa [h] using this
    if l.token = .comma then
      (argList ls').map (·.map (x.value :: ·) (by omega))
    else if l.token = .closeParen then .ok ⟨[x.value], ls', by omega⟩
    else unexpected (.token .closeParen) l
termination_by (ls.length, 1)

/-- `params "{" [ exprs ] "}"`, a function whose opening parenthesis stands at `pos`. -/
def function (pos : Position) (ls : List Lexeme) : Outcome Expr (ls.length + 1) := do
  let ps ← params late ls
  let opened ← token late .openBrace ps.rest
  have h₁ := ps.rest_lt
  have h₂ := opened.rest_lt
  let body ← exprs .closeBrace opened.rest
  have h₃ := body.rest_lt
  let closed ← token late .closeBrace body.rest
  have h₄ := closed.rest_lt
  return ⟨.function pos ps.value body.value, closed.rest, by omega⟩
termination_by (ls.length, 0)

/-- `[ exprs ]`, up to the token `close` or whatever else cannot go on. -/
def exprs (close : Token) (ls : List Lexeme) : Outcome (List Expr) (ls.length + 1) :=
  match ls with
  | [] => .error late
  | l :: ls =>
    if l.token = close ∨ l.token = .eof then .ok ⟨[], l :: ls, Nat.lt_succ_self _⟩
    else do
      let x ← expr (l :: ls)
      have hx := x.rest_lt
      match h : x.rest with
      | [] => .error late
      | m :: ls' =>
        have hl : ls'.length + 1 < ls.length + 1 := by simpa [h] using hx
        if m.token = .semicolon then
          (exprs close ls').map (·.map (x.value :: ·) (by simp; omega))
        else .ok ⟨[x.value], m :: ls', by simp; omega⟩
termination_by (ls.length, 1)

end

/-- `program`. -/
def program (ls : List Lexeme) : Except SyntaxError (List Expr) := do
  let es ← exprs late .eof ls
  match es.rest with
  | [] => .error late
  | l :: _ => if l.token = .eof then .ok es.value else unexpected .separator l

end Parse

/-- The lexemes taken before the first lexical report, and that report. -/
def cleanLexemes : List (List LexicalError × Lexeme) → List Lexeme × Option LexicalError
  | [] => ([], none)
  | (e :: _, _) :: _ => ([], some e)
  | ([], l) :: rest => let (ls, e) := cleanLexemes rest; (l :: ls, e)

namespace Source

/-- The lexemes that parsing can use, and the lexical error that asking for one more raises. -/
def parserInput (s : Source) : List Lexeme × Option LexicalError :=
  match s.openingErrors with
  | e :: _ => ([], some e)
  | [] => cleanLexemes s.lexemes

/-- The expressions of a source, or the first error in it. -/
def parse (s : Source) : Except SyntaxError (List Expr) :=
  let (ls, e) := s.parserInput
  -- Without a lexical error the lexemes end in the end of input, which no rule consumes.
  let late := match e with
    | some e => e.toSyntaxError
    | none => ⟨s.stop, .unexpected .expression ⟨.eof, "", s.stop⟩⟩
  Parse.program late ls

end Source

end Wordlang
