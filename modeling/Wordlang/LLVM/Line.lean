import Wordlang.IR.Type
import Wordlang.LLVM.Escape

/-!
# Lines of LLVM text

An LLVM module is written line by line. A line is kept in its parts, so that what it defines and what
it uses can be asked, and `Line.text` writes it down.
-/

namespace Wordlang.LLVM

open IR (Ty Signature)

/-- The LLVM spelling of a type. -/
def typeText : Ty → String
  | .i32 => "i32"
  | .ptr => "ptr"
  | _ => "void"

/-- The LLVM spelling of a function type. -/
def funcTypeText (s : Signature) : String :=
  typeText s.result ++ " (" ++ ", ".intercalate (s.parts typeText) ++ ")"

/-- What an instruction works on. -/
inductive Operand where
  /-- A constant. -/
  | const (n : Int)
  /-- The address of a global or a function. -/
  | symbol (name : String)
  /-- A parameter of the function. -/
  | arg (n : Int)
  /-- The result of an earlier instruction. -/
  | value (n : Nat)
  deriving DecidableEq, Repr, Inhabited

/-- The name of the result with the given number. -/
def valueText (n : Nat) : String := "%v" ++ toString n

/-- The name of the parameter with the given number. -/
def argText (n : Int) : String := "%arg" ++ toString n

/-- An operand as it is written. -/
def Operand.text : Operand → String
  | const n => toString n
  | symbol name => LLVM.symbol name
  | arg n => argText n
  | value n => valueText n

/-- An instruction. Where there is a result, `dst` is its number. -/
inductive Inst where
  /-- A slot, with the name it has in the source. -/
  | alloca (dst : Nat) (elem : Ty) (comment : String)
  /-- A read. -/
  | load (dst : Nat) (type : Ty) (slot : Operand)
  /-- A write. -/
  | store (type : Ty) (value slot : Operand)
  /-- A sum. -/
  | add (dst : Nat) (a b : Operand)
  /-- A call. -/
  | call (dst : Nat) (sig : Signature) (callee : Operand) (args : List (Ty × Operand))
  /-- A return with a result. -/
  | ret (type : Ty) (value : Operand)
  /-- A return without one. -/
  | retVoid
  /-- The end of a block that was never ended. -/
  | unreachable
  deriving DecidableEq, Repr, Inhabited

/-- An operand with its type. -/
def typedText (a : Ty × Operand) : String := typeText a.1 ++ " " ++ a.2.text

/-- An instruction as it is written. A variadic function is called with its whole type. -/
def Inst.text : Inst → String
  | alloca dst elem comment =>
    valueText dst ++ " = alloca " ++ typeText elem ++ if comment = "" then "" else " ; " ++ comment
  | load dst type slot => valueText dst ++ " = load " ++ typeText type ++ ", ptr " ++ slot.text
  | store type value slot => "store " ++ typedText (type, value) ++ ", ptr " ++ slot.text
  | add dst a b => valueText dst ++ " = add i32 " ++ a.text ++ ", " ++ b.text
  | call dst sig callee args =>
    valueText dst ++ " = call " ++
      (if sig.variadic then funcTypeText sig else typeText sig.result) ++ " " ++ callee.text ++
      "(" ++ ", ".intercalate (args.map typedText) ++ ")"
  | ret type value => "ret " ++ typedText (type, value)
  | retVoid => "ret void"
  | unreachable => "unreachable"

/-- A line of an LLVM module. -/
inductive Line where
  /-- An empty line. -/
  | blank
  /-- The comment that names the module. -/
  | moduleComment (name : String)
  /-- The name of the source. -/
  | sourceFile (name : String)
  /-- The target triple. -/
  | triple (triple : String)
  /-- A string constant. -/
  | global (name : String) (data : List UInt8)
  /-- A function whose body lives elsewhere. -/
  | declare (name : String) (sig : Signature)
  /-- The first line of a function. -/
  | define (name : String) (params : List Ty) (result : Ty)
  /-- The start of a block. -/
  | label (block : Nat)
  /-- An instruction. -/
  | inst (i : Inst)
  /-- The last line of a function. -/
  | close
  deriving DecidableEq, Repr, Inhabited

/-- A line as it is written, without the line feed. -/
def Line.text : Line → String
  | blank => ""
  | moduleComment name => "; ModuleID = '" ++ name ++ "'"
  | sourceFile name => "source_filename = \"" ++ escape (Text.Utf8.ofString name) ++ "\""
  | triple t => "target triple = \"" ++ t ++ "\""
  | global name data =>
    LLVM.symbol name ++ " = private unnamed_addr constant [" ++ toString (data.length + 1) ++
      " x i8] c\"" ++ escape data ++ "\\00\", align 1"
  | declare name sig =>
    "declare " ++ typeText sig.result ++ " " ++ LLVM.symbol name ++ "(" ++
      ", ".intercalate (sig.parts typeText) ++ ")"
  | define name params result =>
    let params := params.zipIdx.map fun (t, i) => typeText t ++ " %arg" ++ toString i
    "define " ++ typeText result ++ " " ++ LLVM.symbol name ++ "(" ++ ", ".intercalate params ++
      ") \x7b"
  | label 0 => "entry:"
  | label n => "b" ++ toString n ++ ":"
  | inst i => "  " ++ i.text
  | close => "\x7d"

end Wordlang.LLVM
