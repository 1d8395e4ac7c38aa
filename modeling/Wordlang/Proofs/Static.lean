import Wordlang.Expr
import Wordlang.Lowering.Error

/-!
# Static rules

Which programs have a meaning, said without the code they are compiled to. The check goes through
the expressions in the order of their evaluation. Of each expression it knows whether its value is
an integer or an address, and how many parameters the function has whose address it is; parameters
and results of functions are integers.

Variables live in a stack of scopes, one for each function whose body is being checked, and only the
innermost scope is visible. Functions live in one table for the whole program, so that a function
defined inside a body stays known behind it. The first rule that is violated ends the check.
-/

namespace Wordlang.Static

open IR (Ty)

/-- The two kinds of values: integers and addresses. -/
inductive Kind where
  | i32
  | ptr
  deriving DecidableEq, Repr

def Kind.type : Kind → Ty
  | .i32 => .i32
  | .ptr => .ptr

/-- What is known of an expression or of a variable. -/
structure Info where
  kind : Kind
  /-- The number of parameters of the function whose address the value is, if it is one. -/
  arity : Option Nat := none
  deriving DecidableEq, Repr

/-- What the names of a program stand for; the latest entry of a name counts. Scopes are listed
innermost first, functions with the number of their parameters. -/
structure Names where
  scopes : List (List (String × Info)) := [[]]
  funcs : List (String × Nat) := [("+", 2), ("print", 1)]
  deriving DecidableEq, Repr

namespace Names

/-- The variable of the innermost scope. -/
def var? (s : Names) (name : String) : Option Info := s.scopes.head?.bind (·.lookup name)

/-- Whether any open scope has a variable of that name. -/
def hasVariable (s : Names) (name : String) : Bool :=
  s.scopes.any fun scope => (scope.lookup name).isSome

def function? (s : Names) (name : String) : Option Nat := s.funcs.lookup name

/-- Enters a variable in the innermost scope. -/
def bind (s : Names) (name : String) (x : Info) : Names :=
  match s.scopes with
  | [] => s
  | scope :: outer => { s with scopes := ((name, x) :: scope) :: outer }

end Names

/-- A check changes what the names stand for, or fails. -/
abbrev Check := StateT Names (Except LoweringError)

def fail {α : Type} (pos : Position) (fault : LoweringFault) : Check α := throw ⟨pos, fault⟩

/-- A name as a value is a variable, or else the address of a function. -/
def nameValue (id : Ident) : Check Info := do
  let s ← get
  match s.var? id.name with
  | some x => return x
  | none =>
    match s.function? id.name with
    | some n => return { kind := .ptr, arity := some n }
    | none => fail id.pos (.undefinedSymbol id.name)

/-- A value may be assigned to a name that is no function and, if it is a variable already, one that
holds values of the same kind. -/
def assignValue (pos : Position) (name : String) (x : Info) : Check Info := do
  let s ← get
  if (s.function? name).isSome then fail pos (.symbolConflict name)
  match s.var? name with
  | some old =>
    if old.kind ≠ x.kind then fail pos (.typeMismatch name 0 old.kind.type x.kind.type)
  | none => pure ()
  set (s.bind name x)
  return x

/-- The number of parameters of what a call of `name` goes to: a function, or else the function whose
address a variable holds. -/
def calleeArity (pos : Position) (name : String) : Check Nat := do
  let s ← get
  match s.function? name with
  | some n => return n
  | none =>
    match s.var? name with
    | some x =>
      match x.arity with
      | some n => return n
      | none => fail pos (.invalidCallTarget name)
    | none => fail pos (.undefinedSymbol name)

/-- The arguments of a call of `name`, the first of which has number `i`, are integers. -/
def integers (name : String) (i : Nat) : List (Position × Info) → Check Unit
  | [] => return
  | (pos, x) :: xs => do
    if x.kind ≠ .i32 then fail pos (.typeMismatch name i .i32 x.kind.type)
    integers name (i + 1) xs

/-- A call of `name` with arguments that have been checked. -/
def callNamed (pos : Position) (name : String) (args : List (Position × Info)) : Check Info := do
  let n ← calleeArity pos name
  if args.length ≠ n then fail pos (.arityMismatch name n args.length)
  integers name 0 args
  return { kind := .i32 }

/-- The parameters of a function, the first of which has number `i`, are names. -/
def parameters (i : Nat) : List Expr → Check (List String)
  | [] => return []
  | .name id :: ps => do return id.name :: (← parameters (i + 1) ps)
  | p :: _ => fail p.pos (.unknownParameterShape i)

/-- A function is entered in the table before its body is checked. Its name is no variable of any
open scope. -/
def declare (target : Ident) (params : List Expr) : Check (List String) := do
  if (← get).hasVariable target.name then fail target.pos (.symbolConflict target.name)
  let names ← parameters 0 params
  modify fun s => { s with funcs := (target.name, names.length) :: s.funcs }
  return names

/-- Opens the scope of a function, in which its parameters are integers. -/
def enter (names : List String) : Check Unit :=
  modify fun s => names.foldl (·.bind · { kind := .i32 }) { s with scopes := [] :: s.scopes }

def leave : Check Unit := modify fun s => { s with scopes := s.scopes.tail }

/-- The body of the function `name`, which stands at `pos`, ends in an integer. -/
def result (name : String) (pos : Position) (body : List (Position × Info)) : Check Unit :=
  match body.getLast? with
  | none => fail pos (.noTailExpression name)
  | some (last, x) =>
    if x.kind ≠ .i32 then fail last (.typeMismatch name 0 .i32 x.kind.type) else return

mutual

/-- Checks an expression. -/
def expr : Expr → Check Info
  | .int .. => return { kind := .i32 }
  | .string .. => return { kind := .ptr }
  | .name id => nameValue id
  | .assign _ target (.function pos params body) => do
    let names ← declare target params
    enter names
    result target.name pos (← exprs body)
    leave
    return { kind := .ptr, arity := some names.length }
  | .assign pos target value => do assignValue pos target.name (← expr value)
  | .call pos callee args => do callNamed pos callee.name (← exprs args)
  | .function pos _ _ => fail pos .unassignedFunction
  | e => fail e.pos (.unsupportedNode e.kind)

/-- Checks expressions one after the other, and gives each with its position. -/
def exprs : List Expr → Check (List (Position × Info))
  | [] => return []
  | e :: es => do
    let x ← expr e
    return (e.pos, x) :: (← exprs es)

end

theorem expr_assign {value : Expr} (h : ∀ pos params body, value ≠ .function pos params body)
    (pos : Position) (target : Ident) :
    expr (.assign pos target value) = expr value >>= assignValue pos target.name := by
  rw [expr]
  exact h

/-- Checks a program, at whose start nothing is known but the built-in functions. -/
def program (es : List Expr) : Except LoweringError Unit := do
  let _ ← exprs es {}

end Wordlang.Static
