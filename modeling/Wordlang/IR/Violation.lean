import Wordlang.IR.Module
import Wordlang.Text.Quoted

/-!
# Violations

What the verifier can find wrong with a module: a flaw and the place where it is. A place names the
function by its symbol, blocks and values by their numbers.
-/

namespace Wordlang.IR

/-- Where a flaw is. -/
inductive Place where
  /-- The module as a whole. -/
  | unit (name : String)
  /-- A function. -/
  | func (f : String)
  /-- A block of a function. -/
  | block (f : String) (b : Nat)
  /-- A value, with the block it is listed in. -/
  | listed (f : String) (b v : Nat)
  /-- A value. -/
  | value (f : String) (v : Nat)
  /-- A value, with its operation. -/
  | operation (f : String) (v : Nat) (op : Op)
  deriving DecidableEq, Repr, Inhabited

/-- What is wrong. -/
inductive Flaw where
  /-- Two globals or functions have one symbol. -/
  | duplicateName (name : String)
  /-- A function counts itself as one of another module. -/
  | foreignModule
  /-- A function without a signature. -/
  | noSignature
  /-- A function that lives elsewhere has a body. -/
  | externalBody (blocks : Nat)
  /-- A function without an entry block. -/
  | noEntry
  /-- A function without blocks. -/
  | noBlocks
  /-- The entry block is not the first one. -/
  | entryNotFirst
  /-- A block counts itself as one of another function. -/
  | foreignBlock
  /-- A value counts itself as one of another block. -/
  | misplaced (got : Option Nat) (want : Nat)
  /-- A missing argument. -/
  | missingArg (i : Nat)
  /-- An argument that is not computed before. -/
  | undefinedArg (i v : Nat)
  /-- A wrong number of arguments. -/
  | argCount (got want : Nat)
  /-- A wrong result type. -/
  | wrongType (got want : Ty)
  /-- An address of no global. -/
  | noGlobal
  /-- An address of no function. -/
  | noFunc
  /-- A parameter that the function does not have. -/
  | argIndex (n : Int)
  /-- A slot that holds neither an integer nor a pointer. -/
  | slotType (t : Ty)
  /-- A slot outside the entry block. -/
  | slotOutsideEntry
  /-- A read from what is no pointer. -/
  | loadFrom (t : Ty)
  /-- A read of one type from a slot of another. -/
  | loadMismatch (t slot : Ty)
  /-- A write to what is no pointer. -/
  | storeTo (t : Ty)
  /-- A write of one type into a slot of another. -/
  | storeMismatch (t slot : Ty)
  /-- A summand that is no integer. -/
  | addend (i : Nat) (t : Ty)
  /-- A call of which the signature is not known. -/
  | noCallSignature
  /-- An indirect call of what is no pointer. -/
  | calleeNotPointer
  /-- A call with too few or too many arguments. -/
  | callArity (n : Nat) (sig : Signature)
  /-- A call with an argument of the wrong type. -/
  | callArg (i : Nat) (got want : Ty)
  /-- An operation that no value may have. -/
  | invalidOp (op : Op)
  /-- A return without exactly one control. -/
  | returnControls (n : Nat)
  /-- A return of what is not computed before. -/
  | strayControl (v : Nat)
  /-- A return of the wrong type. -/
  | returnType (got want : Ty)
  /-- A block that does not return. -/
  | notReturn (kind : BlockKind)
  deriving DecidableEq, Repr, Inhabited

/-- A flaw and its place. -/
structure Violation where
  /-- Where. -/
  place : Place
  /-- What is wrong there. -/
  flaw : Flaw
  deriving DecidableEq, Repr, Inhabited

/-- `v5`, how a value is shown. -/
def valueLabel (n : Nat) : String := "v" ++ toString n

/-- `b3`, how a block is shown. -/
def blockLabel (n : Nat) : String := "b" ++ toString n

/-- How messages name a place. -/
def Place.text : Place → String
  | unit name => "module " ++ name
  | func f => "func " ++ f
  | block f b => "func " ++ f ++ ", " ++ blockLabel b
  | listed f b v => "func " ++ f ++ ", " ++ blockLabel b ++ ", " ++ valueLabel v
  | value f v => "func " ++ f ++ ", " ++ valueLabel v
  | operation f v op => "func " ++ f ++ ", " ++ valueLabel v ++ " (" ++ op.name ++ ")"

/-- The wording of a flaw. -/
def Flaw.text : Flaw → String
  | duplicateName name => "duplicate global name " ++ Text.quote name
  | foreignModule => "Module pointer mismatch"
  | noSignature => "nil signature"
  | externalBody n => "extern function has " ++ toString n ++ " blocks"
  | noEntry => "entry block is nil"
  | noBlocks => "no blocks"
  | entryNotFirst => "Blocks[0] is not the entry block"
  | foreignBlock => "block Func pointer mismatch"
  | misplaced got want =>
    "value Block pointer is " ++ (got.map blockLabel).getD "<nil>" ++ ", want " ++ blockLabel want
  | missingArg i => "arg[" ++ toString i ++ "] is nil"
  | undefinedArg i v =>
    "arg[" ++ toString i ++ "] (" ++ valueLabel v ++ ") used before definition or not in function"
  | argCount got want => "has " ++ toString got ++ " args, want " ++ toString want
  | wrongType got want => "type " ++ got.name ++ ", want " ++ want.name
  | noGlobal => "GlobalAddr without *Global aux"
  | noFunc => "FuncAddr without *Func aux"
  | argIndex n => "Arg index " ++ toString n ++ " out of range"
  | slotType t => "Alloca of " ++ t.name
  | slotOutsideEntry => "Alloca outside the entry block"
  | loadFrom t => "Load from " ++ t.name
  | loadMismatch t slot => "Load <" ++ t.name ++ "> from slot of " ++ slot.name
  | storeTo t => "Store to " ++ t.name
  | storeMismatch t slot => "Store of " ++ t.name ++ " into slot of " ++ slot.name
  | addend i t => "Add32 arg[" ++ toString i ++ "] is " ++ t.name
  | noCallSignature => "missing callee signature"
  | calleeNotPointer => "CallIndirect callee is not a ptr"
  | callArity n sig => "call with " ++ toString n ++ " args, signature " ++ sig.text
  | callArg i got want =>
    "call arg[" ++ toString i ++ "] is " ++ got.name ++ ", want " ++ want.name
  | invalidOp op => "invalid op " ++ op.name
  | returnControls n => "return block has " ++ toString n ++ " controls, want 1"
  | strayControl v => "control " ++ valueLabel v ++ " not found in function"
  | returnType got want => "returns " ++ got.name ++ ", want " ++ want.name
  | notReturn kind => "block kind " ++ kind.name ++ " is not a return"

/-- `place: wording`. -/
def Violation.message (v : Violation) : String := v.place.text ++ ": " ++ v.flaw.text

end Wordlang.IR
