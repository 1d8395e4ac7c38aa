/-!
# Looking for tools

Whether the tools are there that make a program out of the compiler's output. One of them is
required, the other is not.
-/

namespace Wordlang.Command

/-- What is known about a tool: its version or what is wrong, and whether it can be used. -/
structure ToolState where
  /-- The version, or what is wrong. -/
  text : String := "not found"
  /-- Whether it can be used. -/
  usable : Bool := false
  deriving DecidableEq, Repr, Inhabited

namespace Doctor

/-- The tools that are looked for, and the arguments that make them show their version. -/
def tools : List (String × List String) := [("clang", ["--version"]), ("llc", ["--version"])]

/-- The report; `ask` answers for each tool. -/
def report (ask : String → List String → ToolState) : String :=
  let clang := ask "clang" ["--version"]
  let llc := ask "llc" ["--version"]
  "Kestrel Toolchain Doctor\n========================\n\n" ++
    "clang:   " ++ clang.text ++ (if clang.usable then " ✓\n" else " ✗ (not found)\n") ++
    "llc:     " ++ llc.text ++ (if llc.usable then " ✓\n" else " (optional, not found)\n") ++
    "\n" ++ (if clang.usable then "All required tools available!\n" else "")

/-- Whether everything required is there. -/
def isHealthy (ask : String → List String → ToolState) : Bool := (ask "clang" ["--version"]).usable

end Doctor

end Wordlang.Command
