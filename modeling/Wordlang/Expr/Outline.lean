import Wordlang.Expr
import Wordlang.Text.Quoted

/-!
# Outlines of expression trees

The indented form in which a tree is shown: one line per node with its kind and position, its parts
below it, two spaces deeper per level. Names and strings that are values are quoted; the target of an
assignment and the callee of a call are written as they are.
-/

namespace Wordlang.Expr

open Text (quote)

/-- One line of an outline at the given depth. -/
def outlineLine (depth : Nat) (text : String) : String :=
  String.ofList (List.replicate (2 * depth) ' ') ++ text ++ "\n"

mutual

/-- The outline of an expression whose first line stands at the given depth. -/
def outlineAt (depth : Nat) : Expr → String
  | absent => outlineLine depth "<nil>"
  | int p v => outlineLine depth ("Integer " ++ toString v.toInt ++ " " ++ p.text)
  | name id => outlineLine depth ("Identifier " ++ quote id.name ++ " " ++ id.pos.text)
  | string p s => outlineLine depth ("StringLiteral " ++ quote s ++ " " ++ p.text)
  | assign p target value =>
    outlineLine depth ("Assignment " ++ p.text) ++
      outlineLine (depth + 1) ("Name: " ++ target.name) ++
      outlineLine (depth + 1) "Value:" ++ outlineAt (depth + 2) value
  | call p callee args =>
    outlineLine depth ("Call " ++ p.text) ++
      outlineLine (depth + 1) ("Fun: " ++ callee.name) ++
      (if args.isEmpty then outlineLine (depth + 1) "Args: (none)"
        else outlineLine (depth + 1) "Args:" ++ outlineAllAt (depth + 2) args)
  | function p params body =>
    outlineLine depth ("Function " ++ p.text) ++
      (if params.isEmpty then outlineLine (depth + 1) "Params: (none)"
        else outlineLine (depth + 1) "Params:" ++ outlineAllAt (depth + 2) params) ++
      (if body.isEmpty then outlineLine (depth + 1) "Body: (none)"
        else outlineLine (depth + 1) "Body:" ++ outlineAllAt (depth + 2) body)
  | infixTail p op rhs =>
    outlineLine depth ("Partial " ++ p.text) ++
      outlineLine (depth + 1) ("Op: " ++ op.name) ++
      outlineLine (depth + 1) "Y:" ++ outlineAt (depth + 2) rhs
  | empty p => outlineLine depth ("Empty " ++ p.text)

/-- The outlines of the expressions of a list, one after the other. -/
def outlineAllAt (depth : Nat) : List Expr → String
  | [] => ""
  | e :: es => outlineAt depth e ++ outlineAllAt depth es

end

/-- The outline of an expression. -/
def outline (e : Expr) : String := outlineAt 0 e

/-- The outline of a program. -/
def outlineAll (es : List Expr) : String := outlineAllAt 0 es

end Wordlang.Expr
