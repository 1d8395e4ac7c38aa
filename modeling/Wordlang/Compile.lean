import Wordlang.IR.Listing
import Wordlang.IR.Verify
import Wordlang.LLVM.Render
import Wordlang.Lowering.Expr

/-!
# Compiling a program

`lower` turns the expressions of a program into a module, `compile` into LLVM text. Both give what
had been reached when an error stops them.
-/

namespace Wordlang

open IR

/-- How a program is compiled. -/
structure CompileOptions where
  /-- The module's name; the default name if it is empty. -/
  moduleName : String := Builtin.defaultModule
  /-- The target triple; none is written if it is empty. -/
  triple : String := Builtin.defaultTriple
  /-- Whether the module is verified. -/
  verify : Bool := true
  deriving DecidableEq, Repr, Inhabited

/-- The name of the module that is built. -/
def CompileOptions.effectiveName (o : CompileOptions) : String :=
  if o.moduleName = "" then Builtin.defaultModule else o.moduleName

/-- Why a program was not compiled. -/
inductive CompileFailure where
  /-- An expression has no meaning. -/
  | lowering (e : LoweringError)
  /-- The module that was built is ill-formed. -/
  | malformed (violations : List Violation)
  /-- The module has a value without an LLVM form. -/
  | rendering (e : LLVM.Malformed)
  /-- The module has a reference that leads nowhere. -/
  | dangling
  deriving DecidableEq, Repr, Inhabited

/-- The wording of a failure. -/
def CompileFailure.message : CompileFailure → String
  | lowering e => e.message
  | malformed vs => "malformed IR: " ++ "; ".intercalate (vs.map (·.message))
  | rendering e => "render LLVM IR: " ++ e.message
  | dangling => "dangling reference"

/-- What lowering reached: the module, the failure that stopped it, and the events. -/
structure Lowered where
  /-- The module as far as it was built. -/
  module : Module
  /-- What went wrong. -/
  failure : Option CompileFailure
  /-- What was reported. -/
  events : List Event
  deriving DecidableEq, Repr, Inhabited

/-- Ends the entry function: it returns the constant status. -/
def Builder.finish (b : Builder) : Builder :=
  let (r, m) := b.module.addValue b.site.func b.site
    { op := .const32, type := .i32, number := Builtin.entryStatus.toInt } []
  { b with module := m.setReturn b.site (some r) }

/-- The event that reports a whole program. -/
def Builder.finishedEvent (b : Builder) : Event :=
  .finished b.module.name b.module.funcs.length b.module.globals.length b.env.funcNames

/-- Lowers a program. -/
def lower (o : CompileOptions) (es : List Expr) : Lowered :=
  match Lowering.topLevel 0 es (Builder.initial o.effectiveName o.triple) with
  | .error e b => let b := b.closeScope; ⟨b.module, some (.lowering e), b.events⟩
  | .ok _ b =>
    let b := b.finish
    let violations := if o.verify then b.module.verify else []
    if violations.isEmpty then
      let b := { b with events := b.events ++ [b.finishedEvent] }.closeScope
      ⟨b.module, none, b.events⟩
    else let b := b.closeScope; ⟨b.module, some (.malformed violations), b.events⟩

/-- What compiling reached: the text, the failure that stopped it, and the events of lowering. -/
structure Compiled where
  /-- The LLVM text as far as it was reached. -/
  text : String
  /-- What went wrong. -/
  failure : Option CompileFailure
  /-- What was reported. -/
  events : List Event
  deriving DecidableEq, Repr, Inhabited

/-- Lowers a program and renders the module. -/
def compile (o : CompileOptions) (es : List Expr) : Compiled :=
  let l := lower o es
  match LLVM.render? l.module with
  | some r => ⟨LLVM.textOf r.lines, l.failure <|> r.malformed.map .rendering, l.events⟩
  | none => ⟨"", l.failure <|> some .dangling, l.events⟩

end Wordlang
