import Wordlang.IR.Type

/-!
# The built-in functions

Names and conventions that compiled programs share with the library they are linked to: the entry
point and its result, the output primitive, the two functions every program can call, and the
defaults for a module's name and target.
-/

namespace Wordlang.Builtin

/-- The function where a program starts. -/
def entry : String := "main"

/-- What the entry function returns. -/
def entryStatus : Int32 := 0

/-- The formatted output function of the C library. -/
def output : String := "printf"

/-- Integer addition. -/
def add : String := "+"

/-- Prints an integer and a line feed. -/
def print : String := "print"

/-- The format with which `print` calls the output function. -/
def printFormat : String := "%d\n"

/-- The module name used when none is given. -/
def defaultModule : String := "main"

/-- The target triple used when none is given. -/
def defaultTriple : String := "x86_64-pc-linux-gnu"

/-- The library functions that compiled programs may call. -/
def externals : List (String × IR.Signature) :=
  [(output, { params := [.ptr], result := .i32, variadic := true })]

/-- The signature of a library function. -/
def external? (name : String) : Option IR.Signature := externals.lookup name

end Wordlang.Builtin
