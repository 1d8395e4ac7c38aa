import Wordlang.Builtin
import Wordlang.Lowering.Env
import Wordlang.Lowering.Error
import Wordlang.Lowering.Event
import Wordlang.Text.Utf8

/-!
# The state of lowering

Lowering threads one state through the program: the module built so far, what names stand for, the
block that new values go to, and the events reported. An error leaves the state as it was reached, so
that what had been lowered can still be shown.

The initial state already holds the built-in functions and the entry function, into which top-level
expressions are lowered.
-/

namespace Wordlang

open IR

/-- The state of lowering. -/
structure Builder where
  /-- The module so far. -/
  module : Module
  /-- What names stand for. -/
  env : Env := {}
  /-- The block that new values go to, the entry block of the current function. -/
  site : BlockRef := ⟨0, 0⟩
  /-- What has been reported, in order. -/
  events : List Event := []
  deriving DecidableEq, Repr, Inhabited

/-- A step of lowering: it changes the state, and may fail without losing it. -/
abbrev Lowering := EStateM LoweringError Builder

/-- The result of lowering an expression. -/
structure Operand where
  /-- The value, or the slot that holds it. -/
  ref : ValueRef
  /-- The type of the value, once read from its slot. -/
  type : Ty
  /-- Whether `ref` is a slot that has to be read. -/
  isSlot : Bool := false
  /-- The signature of the function whose address the value is, if it is one. -/
  sig : Option Signature := none
  deriving DecidableEq, Repr, Inhabited

namespace Lowering

/-- Fails at a position. -/
def fail {α : Type} (pos : Position) (fault : LoweringFault) : Lowering α := throw ⟨pos, fault⟩

/-- Reports an event. -/
def emitEvent (e : Event) : Lowering Unit := modify fun b => { b with events := b.events ++ [e] }

/-- Appends a value to the current block. -/
def emit (v : Value) (args : List ValueRef := []) : Lowering ValueRef :=
  modifyGet fun b =>
    let (r, m) := b.module.addValue b.site.func b.site v args
    (r, { b with module := m })

/-- A fresh slot of the current function. -/
def emitSlot (elem : Ty) (name : String) (pos : Position) : Lowering ValueRef :=
  emit { op := .alloca, type := .ptr, elem, aux := .name name, pos }

/-- Writes a value into a slot. -/
def emitStore (slot v : ValueRef) (pos : Position) : Lowering Unit := do
  let _ ← emit { op := .store, type := .void, pos } [slot, v]

/-- Reads an operand from its slot, if it is in one. -/
def emitRead (x : Operand) (pos : Position) : Lowering ValueRef :=
  if x.isSlot then emit { op := .load, type := x.type, pos } [x.ref] else pure x.ref

/-- An integer constant. -/
def emitConst (n : Int32) (pos : Position) : Lowering ValueRef :=
  emit { op := .const32, type := .i32, number := n.toInt, pos }

/-- The address of a function. -/
def emitFuncAddr (func : Nat) (sig : Signature) (pos : Position) : Lowering Operand := do
  let r ← emit { op := .funcAddr, type := .ptr, aux := .func func, pos }
  return { ref := r, type := .ptr, sig := some sig }

/-- Binds a variable in the innermost scope. -/
def bindVar (v : Binding) : Lowering Unit :=
  modify fun b => { b with env := (b.env.defineVar? v).getD b.env }

end Lowering

namespace Builder

/-- Closes the innermost scope and reports it. -/
def closeScope (b : Builder) : Builder :=
  match b.env.scopes with
  | [] => b
  | s :: outer =>
    { b with
      env := { b.env with scopes := outer }
      events := b.events ++ [.scopeClosed s.title s.names] }

/-- Runs `body` with new values going to `site` and in a scope of its own. Afterwards, and also if it
fails, the scope is closed and new values go where they went before. -/
def inScope {α : Type} (title : String) (site : BlockRef) (body : Lowering α) : Lowering α :=
  fun b =>
    let leave (b' : Builder) : Builder := { b'.closeScope with site := b.site }
    match body { b with env := b.env.openScope title, site } with
    | .ok a b' => .ok a (leave b')
    | .error e b' => .error e (leave b')

/-! ## The initial state -/

/-- The signature of a function of the language: integers in, an integer out. -/
def userSignature (arity : Nat) : Signature :=
  { params := List.replicate arity .i32, result := .i32 }

/-- Appends a value to the entry block of the function `f`. -/
def addEntryValue (m : Module) (f : Nat) (v : Value) (args : List ValueRef := []) :
    ValueRef × Module :=
  m.addValue f ⟨f, 0⟩ v args

/-- The parameter with the given number and name, as a value. -/
def argValue (i : Nat) (name : String) (pos : Position := {}) : Value :=
  { op := .arg, type := .i32, number := i, aux := .name name, pos }

/-- Declares the output function, which programs cannot see. -/
def declareOutput (b : Builder) : Builder :=
  let sig := (Builtin.external? Builtin.output).getD (userSignature 0)
  let (f, m) := b.module.addExternal Builtin.output sig
  { b with
    module := m
    env := b.env.defineFunc { name := Builtin.output, func := f, sig, hidden := true } }

/-- Defines `+`, the sum of its two arguments. -/
def defineAdd (b : Builder) : Builder :=
  let (f, m) := b.module.addFunc Builtin.add (userSignature 2) ["a", "b"]
  let (x, m) := addEntryValue m f (argValue 0 "a")
  let (y, m) := addEntryValue m f (argValue 1 "b")
  let (sum, m) := addEntryValue m f { op := .add32, type := .i32 } [x, y]
  { b with
    module := m.setReturn ⟨f, 0⟩ (some sum)
    env := b.env.defineFunc { name := Builtin.add, func := f, sig := userSignature 2 } }

/-- Defines `print`, which calls the output function `output`. -/
def definePrint (output : Nat) (b : Builder) : Builder :=
  let (f, m) := b.module.addFunc Builtin.print (userSignature 1) ["x"]
  let (x, m) := addEntryValue m f (argValue 0 "x")
  let (g, m) := m.internString (Text.Utf8.ofString Builtin.printFormat)
  let (format, m) := addEntryValue m f { op := .globalAddr, type := .ptr, aux := .global g }
  let (call, m) := addEntryValue m f { op := .call, type := .i32, aux := .func output } [format, x]
  { b with
    module := m.setReturn ⟨f, 0⟩ (some call)
    env := b.env.defineFunc { name := Builtin.print, func := f, sig := userSignature 1 } }

/-- Adds the entry function and opens the scope of the program in it. -/
def openProgram (b : Builder) : Builder :=
  let (f, m) := b.module.addFunc Builtin.entry (userSignature 0)
  { b with module := m, env := b.env.openScope "program", site := ⟨f, 0⟩ }

/-- The state before the first expression of a program. -/
def initial (name triple : String) : Builder :=
  let b : Builder := { module := .empty name triple }
  ((b.declareOutput.defineAdd).definePrint b.module.funcs.length).openProgram

end Builder

end Wordlang
