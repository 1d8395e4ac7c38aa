import Wordlang.Position

/-!
# Expressions

A program is a list of expressions. Trees may come from the parser or be built by hand, so the type
also has the two placeholders that the parser never returns (an operator whose left operand is still
missing, and the empty expression) and the absent expression, which stands for a hole in a tree.
-/

namespace Wordlang

/-- A name at a place in the source. -/
structure Ident where
  /-- Where it stands. -/
  pos : Position := {}
  /-- The name. -/
  name : String
  deriving DecidableEq, Repr, Inhabited

/-- An expression tree. Every expression but the absent one has the position of its first
character. -/
inductive Expr where
  /-- A hole in the tree. -/
  | absent
  /-- An integer literal. -/
  | int (pos : Position) (value : Int32)
  /-- A name used as a value. -/
  | name (id : Ident)
  /-- A string literal: the raw text between the quotes, escapes not yet interpreted. -/
  | string (pos : Position) (content : String)
  /-- `target = value`. -/
  | assign (pos : Position) (target : Ident) (value : Expr)
  /-- `callee(args)`, and also `x callee y`. -/
  | call (pos : Position) (callee : Ident) (args : List Expr)
  /-- `(params) { body }`. -/
  | function (pos : Position) (params : List Expr) (body : List Expr)
  /-- The right half of an infix call, `op rhs`, before its left operand is attached. -/
  | infixTail (pos : Position) (op : Ident) (rhs : Expr)
  /-- A placeholder without a value. -/
  | empty (pos : Position)
  deriving Repr, Inhabited

namespace Expr

/-- The position of an expression; a hole has none. -/
def pos : Expr → Position
  | absent => {}
  | int p _ | string p _ | assign p _ _ | call p _ _ | function p _ _ | infixTail p _ _
  | empty p => p
  | name id => id.pos

/-- A short word for the kind of expression. -/
def kind : Expr → String
  | absent => "nil"
  | int .. => "Integer"
  | name .. => "Identifier"
  | string .. => "StringLiteral"
  | assign .. => "Assignment"
  | call .. => "Call"
  | function .. => "Function"
  | infixTail .. => "Partial"
  | empty .. => "Empty"

mutual

/-- Where the targets of assignments and the callees of calls stand, outermost and leftmost first.
The outline of a tree shows their names only. -/
def labelPositions : Expr → List Position
  | assign _ target value => target.pos :: labelPositions value
  | call _ callee args => callee.pos :: labelPositionsAll args
  | function _ _ body => labelPositionsAll body
  | _ => []

/-- The same for a list of expressions. -/
def labelPositionsAll : List Expr → List Position
  | [] => []
  | e :: es => labelPositions e ++ labelPositionsAll es

end

end Expr

end Wordlang
