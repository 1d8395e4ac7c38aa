import Wordlang.Expr
import Wordlang.Lowering.Builder

/-!
# Lowering expressions

Each expression is lowered in one pass into the current function. A name is the variable of that name
in the function at hand, or else the address of a function; a call keeps its result in a slot of its
own; assigning a function literal defines a function, any other assignment stores a value. The first
error stops lowering.
-/

namespace Wordlang

open IR

namespace Lowering

/-- The content of a string literal: a backslash followed by `n` is a line feed, and every other
backslash stands for itself. -/
def unescape : List Char → List Char
  | '\\' :: 'n' :: cs => '\n' :: unescape cs
  | c :: cs => c :: unescape cs
  | [] => []

/-- The address of a string constant. -/
def stringLiteral (pos : Position) (content : String) : Lowering Operand := do
  let data := Text.Utf8.ofString (String.ofList (unescape content.toList))
  let g ← modifyGet fun b =>
    let (g, m) := b.module.internString data
    (g, { b with module := m })
  let r ← emit { op := .globalAddr, type := .ptr, aux := .global g, pos }
  return { ref := r, type := .ptr }

/-- A name used as a value: the slot of the variable, or the address of the function. -/
def nameValue (id : Ident) : Lowering Operand := do
  let env := (← get).env
  match env.findVar? id.name with
  | some v => return { ref := v.slot, type := v.elem, isSlot := true, sig := v.sig }
  | none =>
    match env.findFunc? id.name with
    | some c => emitFuncAddr c.func c.sig id.pos
    | none => fail id.pos (.undefinedSymbol id.name)

/-- Stores the operand `x` in the variable `name`, which is created on first use. The result is the
stored value. -/
def assignValue (pos : Position) (name : String) (x : Operand) : Lowering Operand := do
  let v ← emitRead x pos
  let env := (← get).env
  if (env.findFunc? name).isSome then fail pos (.symbolConflict name)
  let slot ←
    match env.findVar? name with
    | some old =>
      if old.elem ≠ x.type then fail pos (.typeMismatch name 0 old.elem x.type)
      pure old.slot
    | none => emitSlot x.type name pos
  emitStore slot v pos
  bindVar { name, slot, elem := x.type, sig := x.sig }
  return { ref := v, type := x.type, sig := x.sig }

/-- What a call goes to: a function of the module, or the function whose address a variable holds. -/
inductive Target where
  /-- The function at the given place. -/
  | direct (func : Nat)
  /-- The function whose address is in the slot. -/
  | indirect (slot : ValueRef)
  deriving DecidableEq, Repr, Inhabited

/-- What a call of `name` goes to, with its signature. -/
def callTarget (pos : Position) (name : String) : Lowering (Target × Signature) := do
  let env := (← get).env
  match env.findFunc? name with
  | some c => return (.direct c.func, c.sig)
  | none =>
    match env.findVar? name with
    | some v =>
      match v.sig with
      | some sig => return (.indirect v.slot, sig)
      | none => fail pos (.invalidCallTarget name)
    | none => fail pos (.undefinedSymbol name)

/-- Reads the arguments of a call of `name`, the first of which has number `i`, and checks them
against the parameter types. Arguments beyond the parameters are not checked. -/
def readArgs (name : String) (i : Nat) : List Ty → List (Position × Operand) →
    Lowering (List ValueRef)
  | _, [] => return []
  | types, (pos, x) :: xs => do
    let v ← emitRead x pos
    match types.head? with
    | some t => if x.type ≠ t then fail pos (.typeMismatch name i t x.type)
    | none => pure ()
    return v :: (← readArgs name (i + 1) types.tail xs)

/-- Calls `name` with arguments that have been lowered, each given with the position of its
expression. The result is kept in a fresh slot. -/
def callNamed (pos : Position) (name : String) (args : List (Position × Operand)) :
    Lowering Operand := do
  let (target, sig) ← callTarget pos name
  if !sig.accepts args.length then
    fail pos (.arityMismatch name sig.params.length args.length)
  let vals ← readArgs name 0 sig.params args
  let result ←
    match target with
    | .direct f => emit { op := .call, type := sig.result, aux := .func f, pos } vals
    | .indirect slot =>
      let address ← emit { op := .load, type := .ptr, pos } [slot]
      emit { op := .callIndirect, type := sig.result, aux := .signature sig, pos } (address :: vals)
  let slot ← emitSlot sig.result name pos
  emitStore slot result pos
  return { ref := slot, type := sig.result, isSlot := true }

/-- The names of parameters, the first of which has number `i`. -/
def paramNames (i : Nat) : List Expr → Except LoweringError (List Ident)
  | [] => .ok []
  | .name id :: ps => do return id :: (← paramNames (i + 1) ps)
  | p :: _ => .error ⟨p.pos, .unknownParameterShape i⟩

/-- Adds the function `name` to the module and to the table, so that its body can call it. -/
def declareFunc (target : Ident) (pos : Position) (params : List Expr) :
    Lowering (Nat × List Ident) := do
  if ((← get).env.findVarAnywhere? target.name).isSome then
    fail target.pos (.symbolConflict target.name)
  let names ←
    match paramNames 0 params with
    | .ok names => pure names
    | .error e => throw e
  let sig := Builder.userSignature names.length
  let params := names.map (·.name)
  let (f, symbol) ← modifyGet fun b =>
    let (f, m) := b.module.addFunc target.name sig params
    ((f, (m.funcs[f]?.map (·.name)).getD target.name),
      { b with module := m, env := b.env.defineFunc { name := target.name, func := f, sig } })
  emitEvent (.function target.name symbol params pos)
  return (f, names)

/-- Gives each parameter, the first of which has number `i`, a slot that holds its argument. -/
def spillParams (i : Nat) : List Ident → Lowering Unit
  | [] => return
  | p :: ps => do
    let arg ← emit (Builder.argValue i p.name p.pos)
    let slot ← emitSlot .i32 p.name p.pos
    emitStore slot arg p.pos
    bindVar { name := p.name, slot, elem := .i32 }
    spillParams (i + 1) ps

/-- Returns the last operand of the body of the function `name`, which stands at `pos`. -/
def returnTail (name : String) (pos : Position) (tail : Option (Position × Operand)) :
    Lowering Unit := do
  match tail with
  | none => fail pos (.noTailExpression name)
  | some (last, x) =>
    let v ← emitRead x last
    if x.type ≠ .i32 then fail last (.typeMismatch name 0 .i32 x.type)
    modify fun b => { b with module := b.module.setReturn b.site (some v) }

mutual

/-- Lowers an expression into the current block. -/
def expr : Expr → Lowering Operand
  | .int pos n => do return { ref := ← emitConst n pos, type := .i32 }
  | .name id => nameValue id
  | .string pos content => stringLiteral pos content
  | .assign _ target (.function pos params body) => do
    let (f, names) ← declareFunc target pos params
    Builder.inScope ("function " ++ target.name) ⟨f, 0⟩ do
      spillParams 0 names
      returnTail target.name pos (← sequence body)
    emitFuncAddr f (Builder.userSignature names.length) pos
  | .assign pos target value => do assignValue pos target.name (← expr value)
  | .call pos callee args => do callNamed pos callee.name (← arguments args)
  | .function pos _ _ => fail pos .unassignedFunction
  | e => fail e.pos (.unsupportedNode e.kind)

/-- Lowers the arguments of a call, in order, each with its position. -/
def arguments : List Expr → Lowering (List (Position × Operand))
  | [] => return []
  | e :: es => do
    let x ← expr e
    return (e.pos, x) :: (← arguments es)

/-- Lowers the expressions of a function body, in order; the result is that of the last one, with its
position. -/
def sequence : List Expr → Lowering (Option (Position × Operand))
  | [] => return none
  | e :: es => do
    let x ← expr e
    match ← sequence es with
    | some last => return some last
    | none => return some (e.pos, x)

end

/-- Lowers top-level expressions, the first of which has number `i`. -/
def topLevel (i : Nat) : List Expr → Lowering Unit
  | [] => return
  | e :: es => do
    emitEvent (.expression i e.kind e.pos)
    let _ ← expr e
    topLevel (i + 1) es

end Lowering

end Wordlang
