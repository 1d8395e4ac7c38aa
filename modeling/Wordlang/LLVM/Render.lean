import Wordlang.IR.Violation
import Wordlang.LLVM.Line

/-!
# Rendering a module

The lines of a module: the header, the string constants, a declaration for every function that lives
elsewhere and a definition for every other one, each group in the order of the module. Constants,
addresses and arguments are written where they are used.

Rendering follows references that only a verified module is sure to have, so its outcome is `none`
when it meets a missing signature, argument or global. A call without a callee and an operation that
has no LLVM form are passed over; the first of them is part of the outcome.
-/

namespace Wordlang.LLVM

open IR

/-- A value that has no line. -/
inductive Gap where
  /-- A call of no function. -/
  | noCallee
  /-- An indirect call without a signature or without an address to call. -/
  | noSignature
  /-- An operation without an LLVM form. -/
  | unhandled (op : Op)
  deriving DecidableEq, Repr, Inhabited

/-- A gap and the value it is at. -/
structure Malformed where
  /-- The function's symbol. -/
  func : String
  /-- The value's number. -/
  value : Nat
  /-- What is missing. -/
  gap : Gap
  deriving DecidableEq, Repr, Inhabited

/-- The wording of a gap. -/
def Gap.text : Gap → String
  | noCallee => "call without callee"
  | noSignature => "indirect call without signature"
  | unhandled op => "unhandled op " ++ op.name

/-- The message of a malformed value. -/
def Malformed.message (e : Malformed) : String :=
  (Place.value e.func e.value).text ++ ": " ++ e.gap.text

/-- The lines of a piece of a module, and the first malformed value in it. -/
structure Rendering where
  /-- The lines, in order. -/
  lines : List Line := []
  /-- The first malformed value. -/
  malformed : Option Malformed := none
  deriving DecidableEq, Repr, Inhabited

namespace Rendering

/-- One piece after the other. -/
def append (a b : Rendering) : Rendering := ⟨a.lines ++ b.lines, a.malformed <|> b.malformed⟩

instance : Append Rendering := ⟨append⟩

/-- All pieces of a list, one after the other. -/
def concat (rs : List Rendering) : Rendering := rs.foldr (· ++ ·) {}

/-- A piece of well-formed lines. -/
def ofLines (lines : List Line) : Rendering := ⟨lines, none⟩

end Rendering

section

variable (m : Module)

/-- The operand that a use of the value `v`, number `n`, is written as. -/
def operand? (n : Nat) (v : Value) : Option Operand :=
  match v.op, v.aux with
  | .const32, _ => some (.const v.number)
  | .globalAddr, .global g => m.globals[g]?.map (.symbol ·.name)
  | .globalAddr, .outerGlobal name => some (.symbol name)
  | .globalAddr, .noGlobal => none
  | .funcAddr, .func f => m.funcs[f]?.map (.symbol ·.name)
  | .funcAddr, .outerFunc name _ => some (.symbol name)
  | .arg, _ => some (.arg v.number)
  | _, _ => some (.value n)

/-- The operand of a reference, with its type. -/
def typedOperand? (a : Option ValueRef) : Option (Ty × Operand) := do
  let r ← a
  let v ← m.value? r
  return (v.type, ← operand? m r.index v)

/-- The argument with the given number, with its type. -/
def argument? (v : Value) (i : Nat) : Option (Ty × Operand) := do
  typedOperand? m (← v.args[i]?)

/-- The call that value number `n` makes. -/
def renderCall? (n : Nat) (sig : Signature) (callee : Operand) (args : List (Option ValueRef)) :
    Option Rendering := do
  return .ofLines [.inst (.call n sig callee (← args.mapM (typedOperand? m)))]

/-- The lines of value number `n` of a function. -/
def renderValue? (f : Func) (n : Nat) (v : Value) : Option Rendering :=
  let gap (g : Gap) : Rendering := ⟨[], some ⟨f.name, n, g⟩⟩
  match v.op with
  | .const32 | .globalAddr | .funcAddr | .arg => some {}
  | .alloca =>
    let comment := match v.aux with | .name s => s | _ => ""
    some (.ofLines [.inst (.alloca n v.elem comment)])
  | .load => do
    return .ofLines [.inst (.load n v.type (← argument? m v 0).2)]
  | .store => do
    let (type, value) ← argument? m v 1
    return .ofLines [.inst (.store type value (← argument? m v 0).2)]
  | .add32 => do
    return .ofLines [.inst (.add n (← argument? m v 0).2 (← argument? m v 1).2)]
  | .call =>
    match m.callee? v with
    | none => some (gap .noCallee)
    | some callee => do renderCall? m n (← callee.sig) (.symbol callee.name) v.args
  | .callIndirect =>
    match m.callSignature? v, v.args with
    | some sig, a :: args => do renderCall? m n sig (← typedOperand? m a).2 args
    | _, _ => some (gap .noSignature)
  | op => some (gap (.unhandled op))

/-- The line of a block's end. -/
def renderEnd? (b : Block) : Option Line :=
  match b.kind, b.controls with
  | .ret, some r :: _ => (typedOperand? m (some r)).map fun (t, x) => .inst (.ret t x)
  | .ret, _ => some (.inst .retVoid)
  | _, _ => some (.inst .unreachable)

/-- The lines of block number `n` of a function. -/
def renderBlock? (f : Func) (n : Nat) (b : Block) : Option Rendering := do
  let values ← b.values.mapM fun r => do renderValue? m f r.index (← m.value? r)
  return .ofLines [.label n] ++ .concat values ++ .ofLines [← renderEnd? m b]

/-- The lines of a function defined in the module, after a blank one. -/
def renderFunc? (f : Func) : Option Rendering := do
  let sig ← f.sig
  let blocks ← f.bodyBlocks.mapM fun (n, b) => renderBlock? m f n b
  return .ofLines [.blank, .define f.name sig.params sig.result] ++ .concat blocks ++
    .ofLines [.close]

/-- The line of a function that lives elsewhere. -/
def declare? (f : Func) : Option Line := f.sig.map (.declare f.name)

/-- The lines above the first function or constant. -/
def header : List Line :=
  [.moduleComment m.name, .sourceFile m.name] ++
    if m.triple = "" then [] else [.triple m.triple]

/-- Lines after a blank one, or nothing at all. -/
def group (lines : List Line) : List Line := if lines.isEmpty then [] else .blank :: lines

/-- The lines of a module. -/
def render? : Option Rendering := do
  let declared ← (m.funcs.filter (·.external)).mapM declare?
  let defined ← (m.funcs.filter (!·.external)).mapM (renderFunc? m)
  return .ofLines (header m ++ group (m.globals.map fun g => .global g.name g.data) ++
    group declared) ++ .concat defined

end

/-- The text of lines, each ended by a line feed. -/
def textOf (lines : List Line) : String := String.join (lines.map fun l => l.text ++ "\n")

/-- Why a rendering was not delivered as a whole. -/
inductive DeliveryError where
  /-- The place it was written to refused a line. -/
  | refused
  /-- The module has a malformed value. -/
  | malformed (e : Malformed)
  deriving DecidableEq, Repr, Inhabited

/-- Delivers a rendering line by line to a place that takes only `capacity` lines, if such a bound is
given: the lines that arrive, and what went wrong. A refusal counts more than a malformed value. -/
def Rendering.deliver (r : Rendering) (capacity : Option Nat) :
    List Line × Option DeliveryError :=
  let whole := (r.lines, r.malformed.map .malformed)
  match capacity with
  | none => whole
  | some n => if n < r.lines.length then (r.lines.take n, some .refused) else whole

end Wordlang.LLVM
