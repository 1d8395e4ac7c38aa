import Wordlang.Command.Arguments
import Wordlang.Command.Directory
import Wordlang.Command.Doctor
import Wordlang.Expr.Outline
import Wordlang.Expr.Parse
import Wordlang.Settings.Decode
import Wordlang.Token.Table

/-!
# Running the command

What the command does with its arguments, as a function of what it finds around it. Nothing is
written here: an outcome says what goes to standard output and to the log, which file is to be
written, and why the command failed.
-/

namespace Wordlang.Command

/-- What the command finds around it. -/
structure Host where
  /-- Standard input, or why it cannot be read. -/
  stdin : Except String (List UInt8) := .ok []
  /-- The contents of a file. -/
  read : String → Except FileError (List UInt8)
  /-- What a tool answers to arguments. -/
  ask : String → List String → ToolState := fun _ _ => {}
  /-- The version of the toolchain that built the command. -/
  toolchain : String := ""

/-- Why the command fails. -/
inductive Failure where
  /-- The arguments are wrong. -/
  | usage (e : UsageError)
  /-- The file with the settings cannot be opened. -/
  | openConfig (e : FileError)
  /-- The file with the settings is wrong. -/
  | loadConfig (path : String) (e : Settings.DecodeError)
  /-- The settings cannot be used. -/
  | settings (e : Settings.Invalid)
  /-- The log cannot be written as the settings say. -/
  | log (e : Log.NameError)
  /-- Standard input cannot be read. -/
  | standardInput (reason : String)
  /-- The file with the program cannot be read. -/
  | input (e : FileError)
  /-- The program is not made of tokens. -/
  | tokens (es : List LexicalError)
  /-- The program has no syntax tree. -/
  | program (e : SyntaxError)
  /-- The program cannot be compiled. -/
  | compile (e : CompileFailure)
  /-- The output cannot be written. -/
  | output (e : FileError)
  /-- A required tool is missing. -/
  | missingTools
  deriving DecidableEq, Repr

/-- The wording of a failure. -/
def Failure.message : Failure → String
  | usage e => e.message
  | openConfig e => "open config: " ++ e.message
  | loadConfig path e => "load " ++ path ++ ": " ++ e.message
  | settings e => e.message
  | log e => e.message
  | standardInput reason => "read standard input: " ++ reason
  | input e => "read input: " ++ e.message
  | tokens es => "\n".intercalate (es.map (·.message))
  | program e => e.message
  | compile e => e.message
  | output e => "write output: " ++ e.message
  | missingTools => "some required tools are missing"

/-- What comes of a run. -/
structure Outcome where
  /-- What goes to standard output. -/
  stdout : String := ""
  /-- How the log is written. -/
  sink : Log.Sink := { format := .console, least := .warn }
  /-- What is logged. -/
  entries : List Log.Entry := []
  /-- The file to be written, and its contents. -/
  file : Option (String × String) := none
  /-- Why the command failed. -/
  failure : Option Failure := none

/-- The lines of the log, all written at the time `stamp`. -/
def Outcome.stderr (o : Outcome) (stamp : String) : String := o.sink.write stamp o.entries

/-- The outcome if the output cannot be written. -/
def Outcome.refuse (o : Outcome) (e : FileError) : Outcome :=
  { o with file := none, failure := some (.output e) }

/-! ## Settings -/

/-- The file with the settings that is used if none is named. -/
def usualConfig : String := "kestrel.yaml"

/-- Reads the settings in a file. A file that cannot be opened is a different failure from one that
can be opened and not read. -/
def loadSettings (host : Host) (path : String) : Except Failure Settings :=
  let decoded (content : Except String (List UInt8)) : Except Failure Settings :=
    match Settings.decode content with
    | .ok s => .ok s
    | .error e => .error (.loadConfig path e)
  match host.read path with
  | .ok bytes => decoded (.ok bytes)
  | .error e@(.reading ..) => decoded (.error e.message)
  | .error e => .error (.openConfig e)

/-- Reads the settings in the named file, or in the usual one if it is there. -/
def findSettings (host : Host) (path : String) : Except Failure Settings :=
  if path ≠ "" then loadSettings host path
  else match host.read usualConfig with
    | .error (.opening _ .absent) => .ok {}
    | _ => loadSettings host usualConfig

/-- Settings as flags change them. -/
def Flags.apply (fs : Flags) (s : Settings) : Settings :=
  { s with
    target := fs.target.getD s.target
    module := fs.module.getD s.module
    logLevel := fs.logLevel.getD s.logLevel
    verify := fs.verify.getD s.verify }

/-- The settings of a run, and its log. -/
def configure (host : Host) (fs : Flags) : Except Failure (Settings × Log.Sink) := do
  let s := fs.apply (← findSettings host fs.config)
  match s.validate with
  | .error e => .error (.settings e)
  | .ok () =>
    match s.sink with
    | .error e => .error (.log e)
    | .ok sink => .ok (s, sink)

/-! ## Compiling -/

/-- The name of the program that comes from standard input. -/
def stdinName : String := "<stdin>"

/-- Reads the program. -/
def readProgram (host : Host) (file : Option String) : Except Failure (String × List UInt8) :=
  let standard := host.stdin.mapError Failure.standardInput |>.map (stdinName, ·)
  match file with
  | none => standard
  | some path =>
    if path = "-" then standard
    else (host.read path).mapError Failure.input |>.map (path, ·)

/-- What is logged when a program has been read. -/
def startEntry (name : String) (size : Nat) : Log.Entry :=
  { level := .debug, message := "compiling",
    fields := [("file", .text name), ("bytes", .number size)] }

/-- What is logged of a program that cannot be compiled. -/
def unfinishedEntry (text : String) : Log.Entry :=
  { level := .debug, message := "partial output", fields := [("ir", .text text)] }

/-- Prints the tokens of a program. -/
def printTokens (s : Source) (o : Outcome) : Outcome :=
  let (table, errors) := s.tokenTable
  { o with stdout := table, failure := if errors.isEmpty then none else some (.tokens errors) }

/-- Prints the intermediate code, as far as there is any. -/
def printIR (settings : Settings) (es : List Expr) (o : Outcome) : Outcome :=
  let l := lower settings.compileOptions es
  { o with
    stdout := l.module.listing?.getD ""
    entries := o.entries ++ l.events.map Event.entry
    failure := l.failure.map .compile }

/-- Compiles a program. -/
def printLLVM (settings : Settings) (output : String) (es : List Expr) (o : Outcome) : Outcome :=
  let c := compile settings.compileOptions es
  let entries := o.entries ++ c.events.map Event.entry
  match c.failure with
  | some e =>
    { o with entries := entries ++ [unfinishedEntry c.text], failure := some (.compile e) }
  | none =>
    if output = "" ∨ output = "-" then { o with entries, stdout := c.text }
    else { o with entries, file := some (output, c.text) }

/-- Compiles a program, or prints what the flags ask for; of several things, the earliest. -/
def emitProgram (fs : Flags) (settings : Settings) (s : Source) (o : Outcome) : Outcome :=
  if fs.emitTokens then printTokens s o
  else match s.parse with
    | .error e => { o with failure := some (.program e) }
    | .ok es =>
      if fs.emitTree then { o with stdout := Expr.outlineAll es }
      else if fs.emitIR then printIR settings es o
      else printLLVM settings fs.output es o

/-- Runs the command without a subcommand. -/
def runCompile (host : Host) (fs : Flags) (file : Option String) : Outcome :=
  match configure host fs with
  | .error e => { failure := some e }
  | .ok (settings, sink) =>
    match readProgram host file with
    | .error e => { sink, failure := some e }
    | .ok (name, bytes) =>
      emitProgram fs settings (.ofBytes name bytes)
        { sink, entries := [startEntry name bytes.length] }

/-! ## The command -/

/-- What the command says about its version. -/
def versionText (toolchain : String) : String :=
  programName ++ " version 0.1.0-dev\ngo version " ++ toolchain ++ "\n"

/-- Does what was asked for. The text of the help is left to the outer layer. -/
def Invocation.run (host : Host) : Invocation → Outcome
  | .compile fs file => runCompile host fs file
  | .subcommand .version => { stdout := versionText host.toolchain }
  | .subcommand .doctor =>
    { stdout := Doctor.report host.ask,
      failure := if Doctor.isHealthy host.ask then none else some .missingTools }
  | .help => {}

/-- Runs the command on its arguments. -/
def run (host : Host) (args : List String) : Outcome :=
  match Invocation.ofArguments args with
  | .error e => { failure := some (.usage e) }
  | .ok i => i.run host

end Wordlang.Command
