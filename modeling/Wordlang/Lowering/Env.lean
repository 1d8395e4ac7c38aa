import Wordlang.IR.Module

/-!
# Environments

What the names of a program stand for while it is lowered: a stack of scopes for variables, of which
only the innermost one is visible, and one table for the functions of the whole program.
-/

namespace Wordlang

open IR (Ty Signature ValueRef)

/-- A variable: its slot and what the slot holds. -/
structure Binding where
  /-- The name. -/
  name : String
  /-- The slot. -/
  slot : ValueRef
  /-- The type of what the slot holds. -/
  elem : Ty
  /-- The signature of the function whose address the slot holds, if it holds one. -/
  sig : Option Signature := none
  deriving DecidableEq, Repr, Inhabited

/-- An entry of the function table. -/
structure Callable where
  /-- The name in the source. -/
  name : String
  /-- The place of the function in the module. -/
  func : Nat
  /-- The signature of the function. -/
  sig : Signature
  /-- Whether programs cannot see it. -/
  hidden : Bool := false
  deriving DecidableEq, Repr, Inhabited

/-- The variables of one function body. -/
structure Scope where
  /-- What the scope belongs to, for the log. -/
  title : String
  /-- The variables, no name twice. -/
  vars : List Binding := []
  deriving DecidableEq, Repr, Inhabited

/-- Texts in the order of their code points. -/
def sortTexts (l : List String) : List String := l.mergeSort fun a b => !(b < a)

namespace Scope

/-- The variable of the given name. -/
def find? (s : Scope) (name : String) : Option Binding := s.vars.find? (·.name = name)

/-- Binds a variable in place of any other of the same name. -/
def insert (s : Scope) (b : Binding) : Scope :=
  { s with vars := b :: s.vars.filter (·.name ≠ b.name) }

/-- The names of the variables, in order. -/
def names (s : Scope) : List String := sortTexts (s.vars.map (·.name))

end Scope

/-- What the names of a program stand for. -/
structure Env where
  /-- The open scopes, innermost first. -/
  scopes : List Scope := []
  /-- The functions; the first entry of a name counts. -/
  funcs : List Callable := []
  deriving DecidableEq, Repr, Inhabited

namespace Env

/-- Opens a scope. -/
def openScope (e : Env) (title : String) : Env := { e with scopes := { title } :: e.scopes }

/-- Closes the innermost scope, if one is open. -/
def closeScope? (e : Env) : Option Env :=
  match e.scopes with
  | [] => none
  | _ :: outer => some { e with scopes := outer }

/-- The visible variable of the given name. -/
def findVar? (e : Env) (name : String) : Option Binding := e.scopes.head?.bind (·.find? name)

/-- The variable of the given name in any open scope, innermost first. -/
def findVarAnywhere? (e : Env) (name : String) : Option Binding :=
  e.scopes.findSome? (·.find? name)

/-- Binds a variable in the innermost scope, if one is open. -/
def defineVar? (e : Env) (b : Binding) : Option Env :=
  match e.scopes with
  | [] => none
  | s :: outer => some { e with scopes := s.insert b :: outer }

/-- The visible function of the given name. -/
def findFunc? (e : Env) (name : String) : Option Callable :=
  (e.funcs.find? (·.name = name)).filter (!·.hidden)

/-- Enters a function in place of any other of the same name. -/
def defineFunc (e : Env) (c : Callable) : Env :=
  { e with funcs := c :: e.funcs.filter (·.name ≠ c.name) }

/-- The names of the visible functions, in order. -/
def funcNames (e : Env) : List String :=
  sortTexts ((e.funcs.filter (!·.hidden)).map (·.name))

end Env

end Wordlang
