/-!
# Types and operations of the intermediate representation

There is one numeric type and one opaque pointer type. Codes outside the tables are kept, since a
module can be built with them and the verifier has to reject it.
-/

namespace Wordlang.IR

/-- The type of a value. -/
inductive Ty where
  /-- No type was given. -/
  | invalid
  /-- No value. -/
  | void
  /-- A 32-bit integer. -/
  | i32
  /-- An address of a slot, a string or a function. -/
  | ptr
  /-- A code outside the table. -/
  | unknown (code : UInt8)
  deriving DecidableEq, Repr, Inhabited

namespace Ty

/-- The type with the given code. -/
def ofCode (n : UInt8) : Ty :=
  match n with
  | 0 => invalid
  | 1 => void
  | 2 => i32
  | 3 => ptr
  | n => unknown n

/-- The name of a type in listings and messages. -/
def name : Ty → String
  | invalid => "invalid"
  | void => "void"
  | i32 => "i32"
  | ptr => "ptr"
  | unknown _ => "unknown"

/-- The storage a value of the type takes, in bytes. -/
def size : Ty → Nat
  | i32 => 4
  | ptr => 8
  | _ => 0

end Ty

/-- The parameter and result types of a function. -/
structure Signature where
  /-- The types of the fixed parameters. -/
  params : List Ty
  /-- The type of the result. -/
  result : Ty
  /-- Whether more arguments may follow the fixed ones. -/
  variadic : Bool := false
  deriving DecidableEq, Repr, Inhabited

namespace Signature

/-- The parts between the parentheses of a signature, each type written by `f`. -/
def parts (f : Ty → String) (s : Signature) : List String :=
  s.params.map f ++ if s.variadic then ["..."] else []

/-- `(i32, i32) i32`, or `(ptr, ...) i32`. -/
def text (s : Signature) : String :=
  "(" ++ ", ".intercalate (s.parts Ty.name) ++ ") " ++ s.result.name

/-- Whether `n` arguments may be passed. -/
def accepts (s : Signature) (n : Nat) : Bool :=
  if s.variadic then s.params.length ≤ n else s.params.length = n

end Signature

/-- The operation a value computes. -/
inductive Op where
  /-- No operation was given. -/
  | invalid
  /-- An integer constant. -/
  | const32
  /-- The address of a global. -/
  | globalAddr
  /-- The address of a function. -/
  | funcAddr
  /-- An argument of the function. -/
  | arg
  /-- A fresh slot. -/
  | alloca
  /-- Reads a slot. -/
  | load
  /-- Writes a slot. -/
  | store
  /-- The sum of two integers. -/
  | add32
  /-- Calls a function of the module. -/
  | call
  /-- Calls through a pointer. -/
  | callIndirect
  /-- A code outside the table. -/
  | unknown (code : Int)
  deriving DecidableEq, Repr, Inhabited

namespace Op

/-- The operations of the table, in the order of their codes. -/
def table : List Op :=
  [invalid, const32, globalAddr, funcAddr, arg, alloca, load, store, add32, call, callIndirect]

/-- The operation with the given code. -/
def ofCode (n : Int) : Op := if 0 ≤ n then (table[n.toNat]?).getD (unknown n) else unknown n

/-- The name of an operation in listings and messages. -/
def name : Op → String
  | invalid => "Invalid"
  | const32 => "Const32"
  | globalAddr => "GlobalAddr"
  | funcAddr => "FuncAddr"
  | arg => "Arg"
  | alloca => "Alloca"
  | load => "Load"
  | store => "Store"
  | add32 => "Add32"
  | call => "Call"
  | callIndirect => "CallIndirect"
  | unknown _ => "unknown"

/-- Constants, addresses and arguments: written where they are used, without an instruction of their
own. -/
def isConst : Op → Bool
  | const32 | globalAddr | funcAddr | arg => true
  | _ => false

/-- Operations without a side effect. -/
def isPure : Op → Bool
  | add32 => true
  | op => op.isConst

/-- Operations without a result. -/
def isVoid : Op → Bool
  | store => true
  | _ => false

end Op

/-- How a block ends. -/
inductive BlockKind where
  /-- No kind was given. -/
  | invalid
  /-- Not yet ended. -/
  | plain
  /-- Returns from the function. -/
  | ret
  /-- A code outside the table. -/
  | unknown (code : Nat)
  deriving DecidableEq, Repr, Inhabited

namespace BlockKind

/-- The kind with the given code. -/
def ofCode : Nat → BlockKind
  | 0 => invalid
  | 1 => plain
  | 2 => ret
  | n => unknown n

/-- The name of a kind in messages. -/
def name : BlockKind → String
  | invalid => "invalid"
  | plain => "plain"
  | ret => "ret"
  | unknown _ => "unknown"

end BlockKind

end Wordlang.IR
