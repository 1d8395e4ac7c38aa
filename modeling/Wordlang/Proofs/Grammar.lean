import Mathlib.Data.Nat.Digits.Defs
import Wordlang.Expr
import Wordlang.Token

/-!
# Derivations

The grammar as a family of derivation trees, one type for each nonterminal and one constructor for
each alternative:

    program = [ exprs ] EOF
    exprs   = expr { ";" expr } [ ";" ]
    expr    = NAME "=" expr | NAME "(" args | "(" params "{" [ exprs ] "}" | atom [ NAME expr ]
    atom    = NAME | INT | STRING
    args    = ")" | expr { "," expr } ")"
    params  = ")" | NAME { "," NAME } ")"

The leaves are lexemes of the kind that the rule asks for, so a tree cannot break the grammar. A
derivation has a yield, the lexemes at its leaves in order, and stands for an expression tree, in
which an infix form is a call of its operator.
-/

namespace Wordlang.Grammar

/-- A lexeme of the given kind. -/
def Terminal (t : Token) := { l : Lexeme // l.token = t }

/-- The name that a lexeme spells, at its place. -/
def Terminal.ident (l : Terminal .name) : Ident := ⟨l.val.pos, l.val.text⟩

/-- The number that a text spells in decimal notation. -/
def decimalValue (text : String) : Nat :=
  Nat.ofDigits 10 (text.toList.map fun c => c.toNat - '0'.toNat).reverse

/-- `atom`. -/
inductive Atom where
  /-- A name. -/
  | name (l : Terminal .name)
  /-- An integer literal. -/
  | int (l : Terminal .int)
  /-- A string literal. -/
  | string (l : Terminal .string)

/-- `NAME { "," NAME } ")"`. -/
inductive NameList where
  /-- The last name. -/
  | last (name : Terminal .name) (close : Terminal .closeParen)
  /-- A name that others follow. -/
  | more (name : Terminal .name) (comma : Terminal .comma) (rest : NameList)

/-- `params`. -/
inductive Params where
  /-- No parameters. -/
  | empty (close : Terminal .closeParen)
  /-- One or more of them. -/
  | list (names : NameList)

mutual

/-- `expr`. -/
inductive Phrase where
  /-- `NAME "=" expr`. -/
  | assign (name : Terminal .name) (sign : Terminal .assign) (value : Phrase)
  /-- `NAME "(" args`. -/
  | call (name : Terminal .name) (paren : Terminal .openParen) (args : Args)
  /-- `"(" params "{" [ exprs ] "}"`. -/
  | function (paren : Terminal .openParen) (params : Params) (brace : Terminal .openBrace)
      (body : Block) (close : Terminal .closeBrace)
  /-- `atom`. -/
  | atom (a : Atom)
  /-- `atom NAME expr`. -/
  | operation (a : Atom) (op : Terminal .name) (rhs : Phrase)

/-- `args`. -/
inductive Args where
  /-- No arguments. -/
  | empty (close : Terminal .closeParen)
  /-- One or more of them. -/
  | list (args : ArgList)

/-- `expr { "," expr } ")"`. -/
inductive ArgList where
  /-- The last argument. -/
  | last (e : Phrase) (close : Terminal .closeParen)
  /-- An argument that others follow. -/
  | more (e : Phrase) (comma : Terminal .comma) (rest : ArgList)

/-- `[ exprs ]`. -/
inductive Block where
  /-- No expressions. -/
  | empty
  /-- One or more of them. -/
  | list (phrases : Phrases)

/-- `exprs`. -/
inductive Phrases where
  /-- The last expression. -/
  | last (e : Phrase)
  /-- The last expression, with a semicolon behind it. -/
  | ended (e : Phrase) (semicolon : Terminal .semicolon)
  /-- An expression that others follow. -/
  | more (e : Phrase) (semicolon : Terminal .semicolon) (rest : Phrases)

end

/-- `program`. -/
structure Program where
  /-- The expressions. -/
  block : Block
  /-- The end of the input. -/
  stop : Terminal .eof

/-! ## Yields -/

/-- The lexeme of an atom. -/
def Atom.lexeme : Atom → Lexeme
  | .name l => l.val
  | .int l => l.val
  | .string l => l.val

/-- The lexemes of a list of names. -/
def NameList.yield : NameList → List Lexeme
  | .last name close => [name.val, close.val]
  | .more name comma rest => name.val :: comma.val :: rest.yield

/-- The lexemes of parameters. -/
def Params.yield : Params → List Lexeme
  | .empty close => [close.val]
  | .list names => names.yield

mutual

/-- The lexemes of an expression. -/
def Phrase.yield : Phrase → List Lexeme
  | .assign name sign value => name.val :: sign.val :: value.yield
  | .call name paren args => name.val :: paren.val :: args.yield
  | .function paren params brace body close =>
    paren.val :: (params.yield ++ brace.val :: (body.yield ++ [close.val]))
  | .atom a => [a.lexeme]
  | .operation a op rhs => a.lexeme :: op.val :: rhs.yield

/-- The lexemes of arguments. -/
def Args.yield : Args → List Lexeme
  | .empty close => [close.val]
  | .list l => l.yield

/-- The lexemes of a list of arguments. -/
def ArgList.yield : ArgList → List Lexeme
  | .last e close => e.yield ++ [close.val]
  | .more e comma rest => e.yield ++ comma.val :: rest.yield

/-- The lexemes of a block. -/
def Block.yield : Block → List Lexeme
  | .empty => []
  | .list l => l.yield

/-- The lexemes of expressions. -/
def Phrases.yield : Phrases → List Lexeme
  | .last e => e.yield
  | .ended e semicolon => e.yield ++ [semicolon.val]
  | .more e semicolon rest => e.yield ++ semicolon.val :: rest.yield

end

/-- The lexemes of a program. -/
def Program.yield (p : Program) : List Lexeme := p.block.yield ++ [p.stop.val]

/-! ## Expression trees -/

/-- The expression of an atom. -/
def Atom.tree : Atom → Expr
  | .name l => .name l.ident
  | .int l => .int l.val.pos (Int32.ofNat (decimalValue l.val.text))
  | .string l => .string l.val.pos l.val.text

/-- The parameters of a list of names. -/
def NameList.trees : NameList → List Expr
  | .last name _ => [.name name.ident]
  | .more name _ rest => .name name.ident :: rest.trees

/-- The parameters. -/
def Params.trees : Params → List Expr
  | .empty _ => []
  | .list names => names.trees

mutual

/-- The expression that a derivation stands for. An infix form is a call with two arguments. -/
def Phrase.tree : Phrase → Expr
  | .assign name _ value => .assign name.val.pos name.ident value.tree
  | .call name _ args => .call name.val.pos name.ident args.trees
  | .function paren params _ body _ => .function paren.val.pos params.trees body.trees
  | .atom a => a.tree
  | .operation a op rhs => .call a.lexeme.pos op.ident [a.tree, rhs.tree]

/-- The arguments of a call. -/
def Args.trees : Args → List Expr
  | .empty _ => []
  | .list l => l.trees

/-- The arguments of a list. -/
def ArgList.trees : ArgList → List Expr
  | .last e _ => [e.tree]
  | .more e _ rest => e.tree :: rest.trees

/-- The expressions of a block. -/
def Block.trees : Block → List Expr
  | .empty => []
  | .list l => l.trees

/-- The expressions of a list. -/
def Phrases.trees : Phrases → List Expr
  | .last e => [e.tree]
  | .ended e _ => [e.tree]
  | .more e _ rest => e.tree :: rest.trees

end

/-- The expressions of a program. -/
def Program.trees (p : Program) : List Expr := p.block.trees

end Wordlang.Grammar
