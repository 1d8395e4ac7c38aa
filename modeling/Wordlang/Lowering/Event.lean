import Wordlang.Log.Entry
import Wordlang.Position

/-!
# Lowering events

What lowering reports about itself while it runs, for the debug log.
-/

namespace Wordlang

/-- A step of lowering. -/
inductive Event where
  /-- A top-level expression is about to be lowered. -/
  | expression (index : Nat) (kind : String) (pos : Position)
  /-- A function has been entered in the tables, under the given symbol. -/
  | function (name symbol : String) (params : List String) (pos : Position)
  /-- A scope has been closed that held the given variables. -/
  | scopeClosed (title : String) (vars : List String)
  /-- The whole program has been lowered. -/
  | finished (module : String) (functions globals : Nat) (visible : List String)
  deriving DecidableEq, Repr, Inhabited

/-- The log entry of a step. -/
def Event.entry : Event → Log.Entry
  | expression index kind pos =>
    { level := .debug, message := "lowering expression",
      fields := [("index", .number index), ("kind", .text kind), ("pos", .text pos.text)] }
  | function name symbol params pos =>
    { level := .debug, message := "defining function",
      fields := [("name", .text name), ("ir_name", .text symbol), ("params", .texts params),
        ("pos", .text pos.text)] }
  | scopeClosed title vars =>
    { level := .debug, message := "closing scope",
      fields := [("scope", .text title), ("vars", .texts vars)] }
  | finished module functions globals visible =>
    { level := .debug, message := "lowered module",
      fields := [("module", .text module), ("functions", .number functions),
        ("globals", .number globals), ("visible", .texts visible)] }

end Wordlang
