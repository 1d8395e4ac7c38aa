import Wordlang.IR.Type
import Wordlang.Position

/-!
# Lowering errors

Why an expression has no meaning, as a cause and a position. Every cause belongs to one of nine
kinds.
-/

namespace Wordlang

/-- The kinds of lowering error. -/
inductive ErrorKind where
  /-- A name that is neither a variable nor a function. -/
  | undefinedSymbol
  /-- A call with the wrong number of arguments. -/
  | arityMismatch
  /-- A call of a variable that holds no function. -/
  | invalidCallTarget
  /-- A function that is not assigned to a name. -/
  | unassignedFunction
  /-- A placeholder in the tree. -/
  | unsupportedNode
  /-- A function without a last expression to return. -/
  | noTailExpression
  /-- A parameter that is no name. -/
  | unknownParameterShape
  /-- A value of the wrong type. -/
  | typeMismatch
  /-- A name that would be both a variable and a function. -/
  | symbolConflict
  deriving DecidableEq, Repr, Inhabited

namespace ErrorKind

/-- The kinds in the order of their codes, which start at one. -/
def all : List ErrorKind :=
  [undefinedSymbol, arityMismatch, invalidCallTarget, unassignedFunction, unsupportedNode,
    noTailExpression, unknownParameterShape, typeMismatch, symbolConflict]

/-- The name of a kind. -/
def name : ErrorKind → String
  | undefinedSymbol => "UndefinedSymbol"
  | arityMismatch => "ArityMismatch"
  | invalidCallTarget => "InvalidCallTarget"
  | unassignedFunction => "UnassignedFunction"
  | unsupportedNode => "UnsupportedNode"
  | noTailExpression => "NoTailExpression"
  | unknownParameterShape => "UnknownParameterShape"
  | typeMismatch => "TypeMismatch"
  | symbolConflict => "SymbolConflict"

/-- The code of a kind. -/
def code (k : ErrorKind) : Int := all.idxOf k + 1

/-- The kind with the given code. -/
def ofCode? (n : Int) : Option ErrorKind := if 0 < n then all[n.toNat - 1]? else none

/-- The name of the kind with the given code; a code outside the table is shown as such. -/
def codeName (n : Int) : String :=
  match ofCode? n with
  | some k => k.name
  | none => "ErrorKind(" ++ toString n ++ ")"

end ErrorKind

/-- The cause of a lowering error. -/
inductive LoweringFault where
  /-- No variable or function has this name. -/
  | undefinedSymbol (name : String)
  /-- A call of `name` with `actual` arguments where `expected` are wanted. -/
  | arityMismatch (name : String) (expected actual : Int)
  /-- A call of the variable `name`, which holds no function. -/
  | invalidCallTarget (name : String)
  /-- A function that is not assigned to a name. -/
  | unassignedFunction
  /-- An expression of a kind that has no value. -/
  | unsupportedNode (kind : String)
  /-- The function `name` has no last expression to return. -/
  | noTailExpression (name : String)
  /-- The parameter with this number is no name. -/
  | unknownParameterShape (index : Int)
  /-- A value of type `got` for `name` where `want` is wanted; `index` is the number of the argument
  if it is one. -/
  | typeMismatch (name : String) (index : Int) (want got : IR.Ty)
  /-- `name` is a function where a variable is made, or the other way round. -/
  | symbolConflict (name : String)
  /-- A cause outside the nine kinds, by its code. -/
  | unclassified (code : Int)
  deriving DecidableEq, Repr, Inhabited

namespace LoweringFault

/-- The kind of a cause. -/
def kind? : LoweringFault → Option ErrorKind
  | undefinedSymbol _ => some .undefinedSymbol
  | arityMismatch .. => some .arityMismatch
  | invalidCallTarget _ => some .invalidCallTarget
  | unassignedFunction => some .unassignedFunction
  | unsupportedNode _ => some .unsupportedNode
  | noTailExpression _ => some .noTailExpression
  | unknownParameterShape _ => some .unknownParameterShape
  | typeMismatch .. => some .typeMismatch
  | symbolConflict _ => some .symbolConflict
  | unclassified _ => none

/-- The code of the kind of a cause. -/
def code (f : LoweringFault) : Int :=
  match f, f.kind? with
  | unclassified n, _ => n
  | _, some k => k.code
  | _, none => 0

/-- The wording of a cause. -/
def message : LoweringFault → String
  | undefinedSymbol name => "no defined function or variable " ++ name
  | arityMismatch name expected actual =>
    "incorrect arguments to call " ++ name ++ ": got " ++ toString actual ++ ", expected " ++
      toString expected
  | invalidCallTarget name => name ++ " is not a function"
  | unassignedFunction => "unassigned function"
  | unsupportedNode kind => "unsupported expression " ++ kind
  | noTailExpression name => "no tail expression in function " ++ name
  | unknownParameterShape index => "unknown type for parameter " ++ toString index
  | typeMismatch name _ want got =>
    "type mismatch for " ++ name ++ ": want " ++ want.name ++ ", got " ++ got.name
  | symbolConflict name => name ++ " is already defined"
  | unclassified code => ErrorKind.codeName code

/-- The name a cause is about, empty if there is none. -/
def name : LoweringFault → String
  | undefinedSymbol n | arityMismatch n _ _ | invalidCallTarget n | unsupportedNode n
  | noTailExpression n | typeMismatch n _ _ _ | symbolConflict n => n
  | _ => ""

/-- The wanted number of arguments, zero if that is not the matter. -/
def expected : LoweringFault → Int
  | arityMismatch _ e _ => e
  | _ => 0

/-- The given number of arguments, zero if that is not the matter. -/
def actual : LoweringFault → Int
  | arityMismatch _ _ a => a
  | _ => 0

/-- The number of the parameter or argument, zero if that is not the matter. -/
def index : LoweringFault → Int
  | unknownParameterShape i | typeMismatch _ i _ _ => i
  | _ => 0

/-- The wanted type, if that is the matter. -/
def want : LoweringFault → IR.Ty
  | typeMismatch _ _ t _ => t
  | _ => .invalid

/-- The given type, if that is the matter. -/
def got : LoweringFault → IR.Ty
  | typeMismatch _ _ _ t => t
  | _ => .invalid

end LoweringFault

/-- A cause and the position of the expression at fault. -/
structure LoweringError where
  /-- Where. -/
  pos : Position
  /-- What is wrong there. -/
  fault : LoweringFault
  deriving DecidableEq, Repr, Inhabited

/-- `position: wording`, without the position if it is unknown. -/
def LoweringError.message (e : LoweringError) : String :=
  (if e.pos.isKnown then e.pos.text ++ ": " else "") ++ e.fault.message

end Wordlang
