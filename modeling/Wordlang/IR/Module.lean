import Wordlang.IR.Type
import Wordlang.Position

/-!
# Modules of the intermediate representation

A module is a list of string constants and a list of functions. A function owns the blocks and the
values created in it, numbered in the order of their creation; values refer to each other, and blocks
to values, by these numbers. Nothing is ever removed from what a function owns, so a reference made
by the operations of this file always finds its target.

Listed apart are the blocks that make up the function's body, in order. The records a checker
compares with the structure around them (the block a value believes itself in, the function a block
believes itself in, the entry block, membership in the module) are plain data as well, so that a
module in which they disagree can be written down and refused.
-/

namespace Wordlang.IR

/-- A value: the function that numbered it, and its number there. -/
structure ValueRef where
  /-- The function's place in the module. -/
  func : Nat
  /-- The value's number in the function. -/
  index : Nat
  deriving DecidableEq, Repr, Inhabited

/-- A block: its function, and its number there. -/
structure BlockRef where
  /-- The function's place in the module. -/
  func : Nat
  /-- The block's number in the function. -/
  index : Nat
  deriving DecidableEq, Repr, Inhabited

/-- What a value refers to beside its arguments. -/
inductive Aux where
  /-- Nothing. -/
  | none
  /-- The name of a slot or of a parameter. -/
  | name (s : String)
  /-- A function of the module. -/
  | func (f : Nat)
  /-- A global of the module. -/
  | global (g : Nat)
  /-- A function that the module does not list. -/
  | outerFunc (name : String) (sig : Option Signature)
  /-- A global that the module does not list. -/
  | outerGlobal (name : String)
  /-- The signature of an indirect call. -/
  | signature (s : Signature)
  /-- A bare number, of no use to any operation. -/
  | number (n : Int)
  /-- A reference to a global that leads nowhere. -/
  | noGlobal
  /-- A reference to a function that leads nowhere. -/
  | noFunc
  deriving DecidableEq, Repr, Inhabited

/-- A machine word is used as the number it stands for. -/
instance wordToInt : Coe Int64 Int := ⟨Int64.toInt⟩

/-- A computation. -/
structure Value where
  /-- What is computed. -/
  op : Op
  /-- The type of the result. -/
  type : Ty
  /-- The type of what a slot holds. -/
  elem : Ty := .invalid
  /-- The values it is computed from; a missing one is `none`. -/
  args : List (Option ValueRef) := []
  /-- A constant's value, or the number of a parameter. -/
  number : Int := 0
  /-- What it refers to beside its arguments. -/
  aux : Aux := .none
  /-- The position of the expression it was made for. -/
  pos : Position := {}
  /-- The block it was created in. -/
  block : Option BlockRef := Option.none
  /-- How often it has been used as an argument or a control. Of this number a machine word is kept
  (`useCount`). -/
  uses : Nat := 0
  deriving DecidableEq, Repr, Inhabited

/-- The number of uses as it is kept: behind the greatest word it goes on with the least. -/
def Value.useCount (v : Value) : Int32 := Int32.ofNat v.uses

/-- A sequence of values and the way it ends. -/
structure Block where
  /-- How the block ends. -/
  kind : BlockKind
  /-- The operands of its end; a missing one is `none`. -/
  controls : List (Option ValueRef) := []
  /-- The values computed in it, in order. -/
  values : List ValueRef := []
  /-- The function it was created in. -/
  owner : Nat
  deriving DecidableEq, Repr, Inhabited

/-- A function, defined here or elsewhere. -/
structure Func where
  /-- Its symbol. -/
  name : String
  /-- Its parameter and result types. -/
  sig : Option Signature
  /-- The names of its parameters in the source, as far as they are known. -/
  paramNames : List String := []
  /-- Every value created in the function, by number. -/
  values : List Value := []
  /-- Every block created in the function, by number. -/
  blocks : List Block := []
  /-- The numbers of the blocks of its body, in order. -/
  body : List Nat := []
  /-- The block where it starts. -/
  entry : Option BlockRef := Option.none
  /-- Whether its body lives outside the module. -/
  external : Bool := false
  /-- Whether it counts itself as a function of another module. -/
  foreign : Bool := false
  deriving DecidableEq, Repr, Inhabited

/-- A string constant. -/
structure Global where
  /-- Its symbol. -/
  name : String
  /-- Its bytes, without the zero byte that ends it. -/
  data : List UInt8
  deriving DecidableEq, Repr, Inhabited

/-- The storage of a global, its closing zero byte included. -/
def Global.size (g : Global) : Nat := g.data.length + 1

/-- A unit of compilation. -/
structure Module where
  /-- Its name. -/
  name : String
  /-- The target triple, empty if none is asked for. -/
  triple : String
  /-- The string constants. -/
  globals : List Global := []
  /-- The functions. -/
  funcs : List Func := []
  /-- Every symbol that was handed out, with the suffix to try next when it is asked for again; the
  first entry of a symbol counts. -/
  symbols : List (String × Nat) := []
  deriving DecidableEq, Repr, Inhabited

namespace Func

/-- The name of the parameter with the given number, empty if it has none. -/
def paramName (f : Func) (i : Nat) : String := f.paramNames.getD i ""

/-- The blocks of the body with their numbers, in order. -/
def bodyBlocks (f : Func) : List (Nat × Block) :=
  f.body.filterMap fun i => f.blocks[i]?.map (i, ·)

/-- The number of values in the body. -/
def valueCount (f : Func) : Nat := (f.bodyBlocks.flatMap (·.2.values)).length

end Func

namespace Module

/-! ## Looking things up -/

/-- The value a reference leads to. -/
def value? (m : Module) (r : ValueRef) : Option Value := do (← m.funcs[r.func]?).values[r.index]?

/-- The block a reference leads to. -/
def block? (m : Module) (r : BlockRef) : Option Block := do (← m.funcs[r.func]?).blocks[r.index]?

/-- The place of the function with the given symbol. -/
def findFunc? (m : Module) (name : String) : Option Nat := m.funcs.findIdx? (·.name = name)

/-- The function a value calls or takes the address of. -/
def callee? (m : Module) (v : Value) : Option Func :=
  match v.op, v.aux with
  | .call, .func f | .funcAddr, .func f => m.funcs[f]?
  | .call, .outerFunc name sig | .funcAddr, .outerFunc name sig => some { name, sig, foreign := true }
  | _, _ => none

/-- The signature through which a value makes its call. -/
def callSignature? (m : Module) (v : Value) : Option Signature :=
  match v.op, v.aux with
  | .call, _ => (m.callee? v).bind (·.sig)
  | .callIndirect, .signature s => some s
  | _, _ => none

/-! ## Changing one thing -/

/-- Changes a function. -/
def modifyFunc (m : Module) (f : Nat) (g : Func → Func) : Module :=
  { m with funcs := m.funcs.modify f g }

/-- Changes a value. -/
def modifyValue (m : Module) (r : ValueRef) (g : Value → Value) : Module :=
  m.modifyFunc r.func fun f => { f with values := f.values.modify r.index g }

/-- Changes a block. -/
def modifyBlock (m : Module) (r : BlockRef) (g : Block → Block) : Module :=
  m.modifyFunc r.func fun f => { f with blocks := f.blocks.modify r.index g }

/-- Counts one more use of a value. -/
def countUse (m : Module) (r : ValueRef) : Module :=
  m.modifyValue r fun v => { v with uses := v.uses + 1 }

/-! ## Symbols -/

/-- Whether a symbol was handed out. -/
def isTaken (m : Module) (name : String) : Bool := (m.symbols.lookup name).isSome

/-- The first number from `start` on whose candidate symbol is free. More candidates are tried than
symbols were handed out. -/
def firstFree (m : Module) (start : Nat) (candidate : Nat → String) : Nat :=
  (((List.range (m.symbols.length + 1)).map (start + ·)).find?
    fun i => !m.isTaken (candidate i)).getD start

/-- The symbol `name.n`. -/
def suffixed (name : String) (n : Nat) : String := name ++ "." ++ toString n

/-- Hands out a symbol for `name`: the name itself, or the first free one of `name.1`, `name.2`, …
not tried for this name before. -/
def freshSymbol (m : Module) (name : String) : String × Module :=
  match m.symbols.lookup name with
  | none => (name, { m with symbols := (name, 1) :: m.symbols })
  | some next =>
    let i := m.firstFree next (suffixed name)
    (suffixed name i, { m with symbols := (name, i + 1) :: (suffixed name i, 1) :: m.symbols })

/-! ## Building -/

/-- An empty module. -/
def empty (name triple : String) : Module := { name, triple }

/-- Appends a block to the body of a function. -/
def addBlock (m : Module) (f : Nat) (kind : BlockKind) : Module :=
  m.modifyFunc f fun g =>
    { g with blocks := g.blocks ++ [{ kind, owner := f }], body := g.body ++ [g.blocks.length] }

/-- Adds a function without a body. -/
def addDeclaration (m : Module) (name : String) (sig : Signature) (external : Bool)
    (paramNames : List String) : Nat × Module :=
  let (symbol, m) := m.freshSymbol name
  (m.funcs.length,
    { m with funcs := m.funcs ++ [{ name := symbol, sig := some sig, paramNames, external }] })

/-- Declares a function whose body lives outside the module, and gives its place. -/
def addExternal (m : Module) (name : String) (sig : Signature) (paramNames : List String := []) :
    Nat × Module :=
  m.addDeclaration name sig true paramNames

/-- Adds a function with an entry block, not yet ended, and gives its place. -/
def addFunc (m : Module) (name : String) (sig : Signature) (paramNames : List String := []) :
    Nat × Module :=
  let (f, m) := m.addDeclaration name sig false paramNames
  (f, (m.addBlock f .plain).modifyFunc f fun g => { g with entry := some ⟨f, 0⟩ })

/-- The place of the global that holds `data`, which is created on first use. Its symbol is the first
free one of `.str.n`, `n` counting from the number of globals. -/
def internString (m : Module) (data : List UInt8) : Nat × Module :=
  match m.globals.findIdx? (·.data = data) with
  | some i => (i, m)
  | none =>
    let i := m.firstFree m.globals.length (suffixed ".str")
    let name := suffixed ".str" i
    (m.globals.length,
      { m with globals := m.globals ++ [⟨name, data⟩], symbols := (name, 1) :: m.symbols })

/-- Appends an argument to a value. -/
def addArg (m : Module) (r arg : ValueRef) : Module :=
  (m.modifyValue r fun v => { v with args := v.args ++ [some arg] }).countUse arg

/-- Creates a value in a block, numbered by the function `f`, and gives its reference. Only the
fields of `v` that say what is computed count: it starts unused, in the given block. -/
def addValue (m : Module) (f : Nat) (block : BlockRef) (v : Value) (args : List ValueRef) :
    ValueRef × Module :=
  let r : ValueRef := ⟨f, ((m.funcs[f]?).map (·.values.length)).getD 0⟩
  let m := m.modifyFunc f fun g =>
    { g with values := g.values ++ [{ v with block := some block, uses := 0, args := [] }] }
  let m := args.foldl (fun m a => m.addArg r a) m
  (r, m.modifyBlock block fun b => { b with values := b.values ++ [r] })

/-- Makes `v` the one control of a block. -/
def setControl (m : Module) (block : BlockRef) (v : Option ValueRef) : Module :=
  let m := m.modifyBlock block fun b => { b with controls := [v] }
  match v with
  | some r => m.countUse r
  | none => m

/-- Ends a block by returning `v`. -/
def setReturn (m : Module) (block : BlockRef) (v : Option ValueRef) : Module :=
  (m.modifyBlock block fun b => { b with kind := .ret }).setControl block v

end Module

/-- Whether a block ends in a return. -/
def Block.isEnded (b : Block) : Bool := b.kind = .ret

/-- The arguments a call passes: those of an indirect call follow the address called. -/
def Value.callArgs (v : Value) : List (Option ValueRef) :=
  if v.op = .callIndirect then v.args.drop 1 else v.args

end Wordlang.IR
