import Wordlang.Proofs.Simulation.Functions

/-!
# What a body does to its variables

The text of a body says in which order its variables are read and written, which calls are made and
when their results are read: `accesses` reads this off the tree. `actions` is the part of it that
does not depend on what stands around the body: the assignments of values and the calls.
-/

namespace Wordlang

open Meaning

/-! ## Accesses in the text -/

/-- Something that evaluating a body does to the slots of its function, and the position that it is
done for. -/
inductive Access where
  /-- The parameter gets its argument. -/
  | receive (i : Nat) (id : Ident)
  /-- The variable is read. -/
  | read (pos : Position) (name : String)
  /-- The result of the call at the place `site` is read. -/
  | fetch (pos site : Position)
  /-- The variable is written. -/
  | write (pos : Position) (name : String)
  /-- The function at the place is called. -/
  | call (pos : Position) (callee : String) (place arity : Nat)
  /-- The function is called whose address has just been read. -/
  | callThrough (pos : Position) (callee : String) (arity : Nat)
  /-- The result of the call is kept. -/
  | keep (pos : Position)
  deriving DecidableEq, Repr

/-- A call in the text. -/
structure CallSite where
  /-- Where the call stands. -/
  pos : Position
  /-- The name that is called. -/
  callee : String
  /-- The number of arguments. -/
  arity : Nat
  deriving DecidableEq, Repr

/-- Something that an expression does once its parts are evaluated. -/
inductive Action where
  /-- The assignment of a value to the name. -/
  | assign (name : String)
  /-- A call. -/
  | call (site : CallSite)
  deriving DecidableEq, Repr

/-- The name that a value is assigned to. -/
def Action.target? : Action → Option String
  | .assign name => some name
  | .call _ => none

/-- The call that is made. -/
def Action.site? : Action → Option CallSite
  | .assign _ => none
  | .call site => some site

namespace Expr

/-- What is read when the value of an expression is used at a position. -/
def uses (vars : List String) (pos : Position) : Expr → List Access
  | .name id => if id.name ∈ vars then [.read pos id.name] else []
  | .call site _ _ => [.fetch pos site]
  | _ => []

/-- How a call is made where the definitions `ds` precede. -/
def invocation (ds : List Definition) (pos : Position) (callee : String) (arity : Nat) :
    List Access :=
  match resolve ds callee with
  | some c => [.call pos callee c.place arity]
  | none => [.read pos callee, .callThrough pos callee arity]

mutual

/-- What evaluating an expression does, where the definitions `ds` precede it and `vars` are the
variables of the function around it. The body of a function literal belongs to another function. -/
def accesses (vars : List String) (ds : List Definition) : Expr → List Access
  | .assign _ _ (.function ..) => []
  | .assign pos target value =>
    accesses vars ds value ++ (uses vars pos value ++ [.write pos target.name])
  | .call pos callee args =>
    accessesAll vars ds args ++ ((args.flatMap fun a => uses vars a.pos a) ++
      (invocation (afterAll ds args) pos callee.name args.length ++ [.keep pos]))
  | _ => []

/-- The same for expressions that are evaluated one after the other. -/
def accessesAll (vars : List String) (ds : List Definition) : List Expr → List Access
  | [] => []
  | e :: es => accesses vars ds e ++ accessesAll vars (after ds e) es

end

mutual

/-- The assignments of values and the calls in an expression, each behind those in its parts. The body
of a function literal belongs to another function. -/
def actions : Expr → List Action
  | .assign _ _ (.function ..) => []
  | .assign _ target value => actions value ++ [.assign target.name]
  | .call pos callee args => actionsAll args ++ [.call ⟨pos, callee.name, args.length⟩]
  | _ => []

/-- The same for expressions one after the other. -/
def actionsAll : List Expr → List Action
  | [] => []
  | e :: es => actions e ++ actionsAll es

end

/-- The names that values are assigned to in a body. -/
def assignedAll (es : List Expr) : List String := (actionsAll es).filterMap Action.target?

/-- The calls in a body, in the order in which they are made. -/
def callsAll (es : List Expr) : List CallSite := (actionsAll es).filterMap Action.site?

section Assign

variable {value : Expr} (h : ∀ pos params body, value ≠ .function pos params body)
include h

theorem accesses_assign (vars : List String) (ds : List Definition) (pos : Position)
    (target : Ident) : accesses vars ds (.assign pos target value) =
      accesses vars ds value ++ (uses vars pos value ++ [.write pos target.name]) := by
  rw [accesses]
  exact h

theorem actions_assign (pos : Position) (target : Ident) :
    actions (.assign pos target value) = actions value ++ [.assign target.name] := by
  rw [actions]
  exact h

end Assign

end Expr

/-- What of an access an expression does once its parts are evaluated. -/
def Access.action? : Access → Option Action
  | .write _ name => some (.assign name)
  | .call pos callee _ arity | .callThrough pos callee arity => some (.call ⟨pos, callee, arity⟩)
  | _ => none

namespace Expr

theorem action_uses (vars : List String) (pos : Position) (e : Expr) :
    (uses vars pos e).filterMap Access.action? = [] := by
  cases e with
  | name id =>
    rw [uses]
    split <;> rfl
  | _ => rfl

theorem action_flatMap_uses (vars : List String) (es : List Expr) :
    (es.flatMap fun e => uses vars e.pos e).filterMap Access.action? = [] := by
  induction es with
  | nil => rfl
  | cons e es ih => rw [List.flatMap_cons, List.filterMap_append, action_uses, ih, List.append_nil]

theorem action_invocation (ds : List Definition) (pos : Position) (callee : String) (arity : Nat) :
    (invocation ds pos callee arity).filterMap Access.action? = [.call ⟨pos, callee, arity⟩] := by
  rw [invocation]
  split <;> rfl

mutual

/-- Which variables are written and which calls are made does not depend on what precedes. -/
theorem action_accesses (vars : List String) : ∀ (ds : List Definition) (e : Expr),
    (accesses vars ds e).filterMap Access.action? = actions e
  | ds, .assign pos target value => by
    have hvalue := action_accesses vars ds value
    cases value with
    | function => rfl
    | _ =>
      rw [accesses_assign (by simp), actions_assign (by simp), List.filterMap_append,
        List.filterMap_append, hvalue, action_uses]
      rfl
  | ds, .call pos callee args => by
    rw [accesses, actions, List.filterMap_append, List.filterMap_append, List.filterMap_append,
      action_accessesAll vars ds args, action_flatMap_uses, action_invocation]
    rfl
  | _, .int .. => rfl
  | _, .name _ => rfl
  | _, .string .. => rfl
  | _, .function .. => rfl
  | _, .absent => rfl
  | _, .infixTail .. => rfl
  | _, .empty _ => rfl

theorem action_accessesAll (vars : List String) : ∀ (ds : List Definition) (es : List Expr),
    (accessesAll vars ds es).filterMap Access.action? = actionsAll es
  | _, [] => rfl
  | ds, e :: es => by
    rw [accessesAll, actionsAll, List.filterMap_append, action_accesses vars ds e,
      action_accessesAll vars _ es]

end

end Expr

end Wordlang
