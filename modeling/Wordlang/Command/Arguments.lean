import Wordlang.Text.Quoted

/-!
# Arguments of the command

Flags may stand before, between and after the other arguments, and `--` ends them. A flag with a
value takes it after `=` or from the next argument; a switch takes a value only after `=`. Letters
can be grouped behind one dash. The last of several settings of a flag counts.

The first argument that is neither a flag nor the value of one may name a subcommand. The search for
it knows the flags of the command only, and takes every other flag for one with a value; the
subcommands have none of these flags.
-/

namespace Wordlang.Command

/-- The name of the command. -/
def programName : String := "kestrelc"

/-- The flags of the command. -/
inductive Flag where
  /-- Print the tokens. -/
  | emitTokens
  /-- Print the syntax tree. -/
  | emitTree
  /-- Print the intermediate code. -/
  | emitIR
  /-- Where the output goes. -/
  | output
  /-- Where the settings are read from. -/
  | config
  /-- The target triple. -/
  | target
  /-- The name of the module. -/
  | module
  /-- The least level that is logged. -/
  | logLevel
  /-- Whether the intermediate code is verified. -/
  | verify
  /-- Ask for help. -/
  | help
  deriving DecidableEq, Repr, Inhabited

namespace Flag

/-- Every flag of the command. -/
def all : List Flag :=
  [emitTokens, emitTree, emitIR, output, config, target, module, logLevel, verify, help]

/-- The name of a flag. -/
def name : Flag → String
  | emitTokens => "emit-tokens"
  | emitTree => "emit-ast"
  | emitIR => "emit-ir"
  | output => "output"
  | config => "config"
  | target => "target"
  | module => "module"
  | logLevel => "log-level"
  | verify => "verify"
  | help => "help"

/-- The letter of a flag. -/
def letter? : Flag → Option Char
  | output => some 'o'
  | help => some 'h'
  | _ => none

/-- Whether a flag says yes or no. -/
def isSwitch : Flag → Bool
  | emitTokens | emitTree | emitIR | verify | help => true
  | output | config | target | module | logLevel => false

/-- How messages name a flag. -/
def label (f : Flag) : String :=
  match f.letter? with
  | some c => "-" ++ c.toString ++ ", --" ++ f.name
  | none => "--" ++ f.name

end Flag

/-- What the flags say. -/
structure Flags where
  /-- Print the tokens. -/
  emitTokens : Bool := false
  /-- Print the syntax tree. -/
  emitTree : Bool := false
  /-- Print the intermediate code. -/
  emitIR : Bool := false
  /-- Where the output goes; standard output if this is empty or a dash. -/
  output : String := ""
  /-- Where the settings are read from; the usual file if this is empty. -/
  config : String := ""
  /-- The target triple, if given. -/
  target : Option String := none
  /-- The name of the module, if given. -/
  module : Option String := none
  /-- The least level that is logged, if given. -/
  logLevel : Option String := none
  /-- Whether the intermediate code is verified, if given. -/
  verify : Option Bool := none
  /-- Help was asked for. -/
  help : Bool := false
  deriving DecidableEq, Repr, Inhabited

/-- What can be wrong with the arguments. -/
inductive UsageError where
  /-- An argument that starts like a flag and is none. -/
  | badSyntax (arg : String)
  /-- A flag that does not exist. -/
  | unknownFlag (name : String)
  /-- A letter that belongs to no flag; `group` is what is left of the letters. -/
  | unknownLetter (letter : Char) (group : String)
  /-- A flag without its value. -/
  | missingValue (arg : String)
  /-- A letter without its value. -/
  | missingLetterValue (letter : Char) (group : String)
  /-- A switch with another value than yes or no. -/
  | badSwitch (flag : Flag) (value : String)
  /-- More than one file. -/
  | tooManyFiles (count : Nat)
  /-- An argument for a subcommand that takes none. -/
  | unexpectedArgument (arg command : String)
  deriving DecidableEq, Repr, Inhabited

/-- The wording of an error. -/
def UsageError.message : UsageError → String
  | badSyntax arg => "bad flag syntax: " ++ arg
  | unknownFlag name => "unknown flag: --" ++ name
  | unknownLetter letter group =>
    "unknown shorthand flag: " ++ Text.quoteChar letter ++ " in -" ++ group
  | missingValue arg => "flag needs an argument: " ++ arg
  | missingLetterValue letter group =>
    "flag needs an argument: " ++ Text.quoteChar letter ++ " in -" ++ group
  | badSwitch flag value =>
    "invalid argument " ++ Text.quote value ++ " for " ++ Text.quote flag.label ++
      " flag: strconv.ParseBool: parsing " ++ Text.quote value ++ ": invalid syntax"
  | tooManyFiles count => "accepts at most 1 arg(s), received " ++ toString count
  | unexpectedArgument arg command =>
    "unknown command " ++ Text.quote arg ++ " for " ++ Text.quote (programName ++ " " ++ command)

/-! ## Flags -/

/-- The spellings of yes and no. -/
def switchValue? (s : String) : Option Bool :=
  if s ∈ ["1", "t", "T", "TRUE", "true", "True"] then some true
  else if s ∈ ["0", "f", "F", "FALSE", "false", "False"] then some false
  else none

/-- Sets a flag to a value. -/
def Flags.set (fs : Flags) (f : Flag) (value : String) : Except UsageError Flags :=
  let switch (g : Bool → Flags) : Except UsageError Flags :=
    match switchValue? value with
    | some b => .ok (g b)
    | none => .error (.badSwitch f value)
  match f with
  | .emitTokens => switch fun b => { fs with emitTokens := b }
  | .emitTree => switch fun b => { fs with emitTree := b }
  | .emitIR => switch fun b => { fs with emitIR := b }
  | .verify => switch fun b => { fs with verify := some b }
  | .help => switch fun b => { fs with help := b }
  | .output => .ok { fs with output := value }
  | .config => .ok { fs with config := value }
  | .target => .ok { fs with target := some value }
  | .module => .ok { fs with module := some value }
  | .logLevel => .ok { fs with logLevel := some value }

/-- What a switch is set to when it has no value. -/
def bareSwitch : String := "true"

/-- How an unknown letter is shown: by the first byte of its encoding. -/
def shownLetter (c : Char) : Char :=
  Char.ofNat ((String.utf8EncodeChar c).head?.getD 0).toNat

/-- Sets the flags of a group of letters; `next` is the argument behind it. Returns whether that
argument was taken. -/
def readLetters (known : List Flag) (next : Option String) (fs : Flags) :
    List Char → Except UsageError (Flags × Bool)
  | [] => .ok (fs, false)
  | c :: rest =>
    let group := String.ofList (c :: rest)
    match known.find? (·.letter? = some c) with
    | none => .error (.unknownLetter (shownLetter c) group)
    | some f =>
      match rest with
      | '=' :: v :: vs => (fs.set f (String.ofList (v :: vs))).map (·, false)
      | _ =>
        if f.isSwitch then
          match fs.set f bareSwitch with
          | .error e => .error e
          | .ok fs => readLetters known next fs rest
        else if !rest.isEmpty then (fs.set f (String.ofList rest)).map (·, false)
        else match next with
          | some v => (fs.set f v).map (·, true)
          | none => .error (.missingLetterValue c group)

/-- The letters that the test runner puts in front of its own flags, which are passed over. -/
def testLetters : List Char := "test.".toList

/-- Sets a flag given by its name, which the letters `name` are, perhaps with a value. `next` is the
argument behind it. Returns whether that argument was taken. -/
def readName (known : List Flag) (arg : String) (next : Option String) (fs : Flags)
    (name : List Char) : Except UsageError (Flags × Bool) :=
  if name.head?.any (fun c => c = '-' || c = '=') then .error (.badSyntax arg)
  else
    let key := String.ofList (name.takeWhile (· != '='))
    match known.find? (·.name = key) with
    | none => .error (.unknownFlag key)
    | some f =>
      match name.dropWhile (· != '=') with
      | _ :: value => (fs.set f (String.ofList value)).map (·, false)
      | [] =>
        if f.isSwitch then (fs.set f bareSwitch).map (·, false)
        else match next with
          | some v => (fs.set f v).map (·, true)
          | none => .error (.missingValue arg)

/-- Reads flags; `args` are the other arguments so far. -/
def readArguments (known : List Flag) (fs : Flags) (args : List String) :
    List String → Except UsageError (Flags × List String)
  | [] => .ok (fs, args)
  | s :: rest =>
    let go (r : Except UsageError (Flags × Bool)) : Except UsageError (Flags × List String) :=
      match r with
      | .error e => .error e
      | .ok (fs, false) => readArguments known fs args rest
      | .ok (fs, true) =>
        match rest with
        | _ :: rest => readArguments known fs args rest
        | [] => .ok (fs, args)
    match s.toList with
    | ['-', '-'] => .ok (fs, args ++ rest)
    | '-' :: '-' :: name => go (readName known s rest.head? fs name)
    | '-' :: c :: letters =>
      if testLetters.isPrefixOf (c :: letters) then readArguments known fs args rest
      else go (readLetters known rest.head? fs (c :: letters))
    | _ => readArguments known fs (args ++ [s]) rest

/-! ## Subcommands -/

/-- The subcommands. -/
inductive Subcommand where
  /-- Show the version. -/
  | version
  /-- Look for the tools that build a program. -/
  | doctor
  deriving DecidableEq, Repr, Inhabited

/-- The name of a subcommand. -/
def Subcommand.name : Subcommand → String
  | version => "version"
  | doctor => "doctor"

/-- The subcommand of a name. -/
def Subcommand.ofName? (s : String) : Option Subcommand :=
  [version, doctor].find? (·.name = s)

/-- Whether the search for a subcommand takes an argument for a flag whose value follows. -/
def expectsValue (s : String) : Bool :=
  -- The flag for help is not known yet.
  let switches := Flag.all.filter fun f => f.isSwitch && f != .help
  match s.toList with
  | '-' :: '-' :: name =>
    !name.contains '=' && !switches.any (·.name = String.ofList name)
  | ['-', c] => c.toNat < 0x80 && c != '='
  | _ => false

/-- The first argument that is neither a flag nor the value of one. -/
def firstWord? : List String → Option String
  | [] => none
  | s :: rest =>
    if s = "--" then none
    else if expectsValue s then
      match rest with
      | _ :: next :: rest => firstWord? (next :: rest)
      | _ => none
    else if s ≠ "" ∧ s.toList.head? ≠ some '-' then some s
    else firstWord? rest

/-- The arguments without the first word, if it is `word`. -/
def dropWord (word : String) : List String → List String
  | [] => []
  | s :: rest =>
    if s = "--" then s :: rest
    else if expectsValue s then
      match rest with
      | v :: rest => s :: v :: dropWord word rest
      | [] => [s]
    else if s = word then rest
    else s :: dropWord word rest

/-- What the command is asked to do. -/
inductive Invocation where
  /-- Compile a file, or standard input. -/
  | compile (flags : Flags) (file : Option String)
  /-- Run a subcommand. -/
  | subcommand (c : Subcommand)
  /-- Show help. -/
  | help
  deriving DecidableEq, Repr, Inhabited

/-- What the arguments ask for. -/
def Invocation.ofArguments (args : List String) : Except UsageError Invocation := do
  match (firstWord? args).bind fun w => (Subcommand.ofName? w).map (w, ·) with
  | some (word, c) =>
    let (fs, rest) ← readArguments [.help] {} [] (dropWord word args)
    if fs.help then return .help
    match rest with
    | [] => return .subcommand c
    | a :: _ => .error (.unexpectedArgument a c.name)
  | none =>
    let (fs, rest) ← readArguments Flag.all {} [] args
    if fs.help then return .help
    if 1 < rest.length then .error (.tooManyFiles rest.length)
    else return .compile fs rest.head?

end Wordlang.Command
