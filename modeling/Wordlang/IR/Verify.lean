import Wordlang.IR.Violation

/-!
# Verification

The verifier walks a module once and lists every violation it finds. Within a function it keeps the
values computed so far, in the order of the blocks; an argument has to be among them.

Some flaws hide others: nothing more is said about a function without a signature or without a body
to look at, nor about the operands of a value that has too few or too many of them.
-/

namespace Wordlang.IR

/-- `flaw` if the condition holds. -/
def report (place : Place) (wrong : Bool) (flaw : Flaw) : List Violation :=
  if wrong then [⟨place, flaw⟩] else []

namespace Module

variable (m : Module)

/-- The values that arguments lead to; `none` if one of them is missing. -/
def operands? (v : Value) : Option (List Value) := v.args.mapM fun a => a.bind m.value?

/-- Checks the operands and the type of the value `v`, number `n` of the function `f`, whose
signature is `sig`. -/
def verifyValue (f : Func) (sig : Signature) (n : Nat) (v : Value) : List Violation :=
  let here := Place.value f.name n
  let shown := Place.operation f.name n v.op
  let count (k : Nat) := report shown (v.args.length != k) (.argCount v.args.length k)
  let type (t : Ty) := report shown (v.type != t) (.wrongType v.type t)
  match v.op with
  | .const32 => count 0 ++ type .i32
  | .globalAddr =>
    count 0 ++ type .ptr ++
      report here (match v.aux with | .global _ | .outerGlobal _ => false | _ => true) .noGlobal
  | .funcAddr => count 0 ++ type .ptr ++ report here (m.callee? v).isNone .noFunc
  | .arg =>
    count 0 ++
      match if v.number < 0 then none else sig.params[v.number.toNat]? with
      | some t => type t
      | none => [⟨here, .argIndex v.number⟩]
  | .alloca =>
    count 0 ++ type .ptr ++
      report here (v.elem != .i32 && v.elem != .ptr) (.slotType v.elem) ++
      report here (v.block != f.entry) .slotOutsideEntry
  | .load =>
    count 1 ++
      match m.operands? v with
      | some [p] =>
        report here (p.type != .ptr) (.loadFrom p.type) ++
          report here (p.op == .alloca && p.elem != v.type) (.loadMismatch v.type p.elem)
      | _ => []
  | .store =>
    type .void ++ count 2 ++
      match m.operands? v with
      | some [p, x] =>
        report here (p.type != .ptr) (.storeTo p.type) ++
          report here (p.op == .alloca && p.elem != x.type) (.storeMismatch x.type p.elem)
      | _ => []
  | .add32 =>
    type .i32 ++ count 2 ++
      match m.operands? v with
      | some [a, b] =>
        report here (a.type != .i32) (.addend 0 a.type) ++
          report here (b.type != .i32) (.addend 1 b.type)
      | _ => []
  | .call | .callIndirect =>
    match m.callSignature? v with
    | none => [⟨shown, .noCallSignature⟩]
    | some called =>
      type called.result ++
        if v.op = .callIndirect ∧
            ((v.args.head?.join.bind m.value?).map (·.type)) ≠ some .ptr then
          [⟨here, .calleeNotPointer⟩]
        else if !called.accepts v.callArgs.length then
          [⟨here, .callArity v.callArgs.length called⟩]
        else
          (called.params.zip v.callArgs).zipIdx.flatMap fun ((want, a), i) =>
            match a.bind m.value? with
            | some x => report here (x.type != want) (.callArg i x.type want)
            | none => []
  | op => [⟨here, .invalidOp op⟩]

/-- Checks that each argument of a value is among those computed before it. -/
def verifyArgs (f : Func) (b n : Nat) (defined : List ValueRef) (v : Value) : List Violation :=
  v.args.zipIdx.flatMap fun (a, i) =>
    match a with
    | none => [⟨.listed f.name b n, .missingArg i⟩]
    | some r => report (.listed f.name b n) (!defined.contains r) (.undefinedArg i r.index)

/-- Checks the values listed in the block `b`, when `defined` has been computed before them. -/
def verifyValues (f : Func) (sig : Signature) (b : BlockRef) (defined : List ValueRef) :
    List ValueRef → List Violation
  | [] => []
  | r :: rs =>
    (match m.value? r with
      | none => []
      | some v =>
        report (.listed f.name b.index r.index) (v.block != some b)
            (.misplaced (v.block.map (·.index)) b.index) ++
          verifyArgs f b.index r.index defined v ++ m.verifyValue f sig r.index v) ++
      verifyValues f sig b (r :: defined) rs

/-- Checks how a block ends. -/
def verifyEnd (f : Func) (sig : Signature) (n : Nat) (defined : List ValueRef) (b : Block) :
    List Violation :=
  let here := Place.block f.name n
  match b.kind, b.controls with
  | .ret, [some r] =>
    report here (!defined.contains r) (.strayControl r.index) ++
      match m.value? r with
      | some v => report here (v.type != sig.result) (.returnType v.type sig.result)
      | none => []
  | .ret, controls => [⟨here, .returnControls controls.length⟩]
  | kind, _ => [⟨here, .notReturn kind⟩]

/-- Checks the blocks of a body, when `defined` has been computed before them. -/
def verifyBlocks (place : Nat) (f : Func) (sig : Signature) (defined : List ValueRef) :
    List (Nat × Block) → List Violation
  | [] => []
  | (n, b) :: rest =>
    let defined' := b.values.reverse ++ defined
    report (.block f.name n) (b.owner != place) .foreignBlock ++
      m.verifyValues f sig ⟨place, n⟩ defined b.values ++ m.verifyEnd f sig n defined' b ++
      verifyBlocks place f sig defined' rest

/-- Checks a function, the one at the given place of the module. -/
def verifyFunc (place : Nat) (f : Func) : List Violation :=
  let here := Place.func f.name
  match f.sig with
  | none => [⟨here, .noSignature⟩]
  | some sig =>
    if f.external then report here (f.body.length != 0) (.externalBody f.body.length)
    else match f.entry, f.body with
      | none, _ => [⟨here, .noEntry⟩]
      | some _, [] => [⟨here, .noBlocks⟩]
      | some entry, first :: _ =>
        report here (entry != ⟨place, first⟩) .entryNotFirst ++
          m.verifyBlocks place f sig [] f.bodyBlocks

/-- Checks the functions of a list, the first of which stands at the given place, when the symbols
`seen` are in use. -/
def verifyFuncs (place : Nat) (seen : List String) : List Func → List Violation
  | [] => []
  | f :: fs =>
    report (.unit m.name) (seen.contains f.name) (.duplicateName f.name) ++
      report (.func f.name) f.foreign .foreignModule ++ m.verifyFunc place f ++
      verifyFuncs (place + 1) (f.name :: seen) fs

/-- Checks that the globals of a list have symbols of their own, when `seen` are in use. -/
def verifyGlobals (seen : List String) : List Global → List Violation
  | [] => []
  | g :: gs =>
    report (.unit m.name) (seen.contains g.name) (.duplicateName g.name) ++
      verifyGlobals (g.name :: seen) gs

/-- Every violation in a module, in the order in which they are found. -/
def verify : List Violation :=
  m.verifyGlobals [] m.globals ++ m.verifyFuncs 0 (m.globals.map (·.name)).reverse m.funcs

end Module

end Wordlang.IR
