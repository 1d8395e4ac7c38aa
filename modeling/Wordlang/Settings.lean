import Wordlang.Compile
import Wordlang.Log.Line

/-!
# Settings

What the compiler is told besides the program: the target and the name of the module, whether to
verify, and what to log. Missing settings have defaults.
-/

namespace Wordlang

/-- The settings of the compiler. -/
structure Settings where
  /-- The target triple; none if it is empty. -/
  target : String := Builtin.defaultTriple
  /-- The name of the module. -/
  module : String := Builtin.defaultModule
  /-- Whether the intermediate code is verified. -/
  verify : Bool := true
  /-- The name of the least level that is logged. -/
  logLevel : String := "warn"
  /-- The name of the form in which entries are logged. -/
  logFormat : String := "console"
  deriving DecidableEq, Repr, Inhabited

namespace Settings

/-- What can be wrong with settings. -/
inductive Invalid where
  /-- A name that the log does not know. -/
  | log (e : Log.NameError)
  /-- A form of the log that may not be asked for. -/
  | format (name : String)
  deriving DecidableEq, Repr, Inhabited

/-- The wording of an error. -/
def Invalid.message : Invalid → String
  | log e => e.message
  | format name => "invalid log format " ++ Text.quote name

/-- The least level that is logged. -/
def level (s : Settings) : Except Log.NameError Log.Level := Log.Level.ofName s.logLevel

/-- The log that the settings describe. -/
def sink (s : Settings) : Except Log.NameError Log.Sink := do
  let least ← s.level
  return { format := ← Log.Format.ofName s.logFormat, least }

/-- Checks that the settings can be used: the level first, then the form of the log, which has to be
named. -/
def validate (s : Settings) : Except Invalid Unit :=
  match s.level with
  | .error e => .error (.log e)
  | .ok _ =>
    if s.logFormat ∈ ["console", "json", "auto"] then .ok () else .error (.format s.logFormat)

/-- What the settings say about compiling. -/
def compileOptions (s : Settings) : CompileOptions :=
  { moduleName := s.module, triple := s.target, verify := s.verify }

end Settings

end Wordlang
