import Wordlang.Settings
import Wordlang.Text.Base64
import Wordlang.Yaml.Node.Parse

/-!
# Reading settings

Settings are read from the first document of a YAML text: a mapping from the names of settings to
their values, on top of the defaults. No value keeps the default. Everything that does not fit is
collected and reported together, but a few faults end the reading at once.

A key `<<` brings in the pairs of other mappings; what the mapping itself says comes first.
-/

namespace Wordlang

namespace Settings

/-- What does not fit into settings. -/
inductive Misfit where
  /-- A key that was there before, on the line `first`. -/
  | repeatedKey (line : Nat) (key : String) (first : Nat)
  /-- A name that no setting has. -/
  | unknownName (line : Nat) (name : String)
  /-- A setting that was made before, under a key spelled differently. -/
  | repeatedName (line : Nat) (name : String)
  /-- A node of another type than `want`. -/
  | wrongType (line : Nat) (tag text want : String)
  deriving DecidableEq, Repr, Inhabited

/-- What ends the reading at once. -/
inductive Abort where
  /-- A scalar that is not what its tag says. -/
  | wrongTag (is text tag : String)
  /-- A scalar that should be bytes and is not. -/
  | badBytes
  /-- Something else than mappings is brought in. -/
  | badMerge
  /-- A mapping brings in itself. -/
  | endlessMerge (anchor : String)
  deriving DecidableEq, Repr, Inhabited

/-- Why settings cannot be read. -/
inductive DecodeError where
  /-- The text is no YAML. -/
  | malformed (f : Yaml.Fault)
  /-- Reading ended early. -/
  | aborted (a : Abort)
  /-- Parts of the text do not fit. -/
  | misfits (ms : List Misfit)
  /-- The settings cannot be used. -/
  | invalid (e : Invalid)
  deriving DecidableEq, Repr, Inhabited

/-- How messages name the type of all settings. -/
def typeName : String := "config.Config"

/-- A text between backquotes, shortened if it is longer than ten bytes. -/
def excerpt (text : String) : String :=
  let bytes := Text.Utf8.ofString text
  let shown := if 10 < bytes.length then
      Text.Utf8.toText (Text.Utf8.decode (bytes.take 7)) ++ "..." else text
  " \x60" ++ shown ++ "\x60"

/-- The wording of a misfit. -/
def Misfit.message : Misfit → String
  | repeatedKey line key first =>
    "line " ++ toString line ++ ": mapping key " ++ Text.quote key ++ " already defined at line " ++
      toString first
  | unknownName line name =>
    "line " ++ toString line ++ ": field " ++ name ++ " not found in type " ++ typeName
  | repeatedName line name =>
    "line " ++ toString line ++ ": field " ++ name ++ " already set in type " ++ typeName
  | wrongType line tag text want =>
    "line " ++ toString line ++ ": cannot unmarshal " ++ tag ++
      (if tag = "!!seq" ∨ tag = "!!map" then "" else excerpt text) ++ " into " ++ want

/-- The wording of what ended the reading. -/
def Abort.message : Abort → String
  | wrongTag is text tag => "cannot decode " ++ is ++ " \x60" ++ text ++ "\x60 as a " ++ tag
  | badBytes => "!!binary value contains invalid base64 data"
  | badMerge => "map merge requires map or sequence of maps as the value"
  | endlessMerge anchor => "anchor '" ++ anchor ++ "' value contains itself"

/-- The wording of an error. -/
def DecodeError.message : DecodeError → String
  | malformed f => "decode config: yaml: " ++ f.message
  | aborted a => "decode config: yaml: " ++ a.message
  | misfits ms =>
    "decode config: yaml: unmarshal errors:" ++ String.join (ms.map fun m => "\n  " ++ m.message)
  | invalid e => e.message

/-! ## Scalars -/

/-- What a scalar says. -/
inductive Meaning where
  /-- Nothing. -/
  | null
  /-- A truth value. -/
  | flag (b : Bool)
  /-- A text. -/
  | text (s : String)
  /-- A number or a date. -/
  | other
  deriving DecidableEq, Repr, Inhabited

/-- What a scalar of a kind says. -/
def Meaning.ofKind (text : String) : Yaml.Kind → Meaning
  | .text => .text text
  | .null => .null
  | .bool b => .flag b
  | .int _ | .float | .timestamp => .other

/-- What a scalar with a tag says. A tag that is not known makes it a text. -/
def meaning (tag text : String) : Except Abort Meaning :=
  if tag = "!!binary" then
    match Text.Base64.decode? text with
    | some bytes => .ok (.text (Text.Utf8.toText (Text.Utf8.decode bytes)))
    | none => .error .badBytes
  else if tag ∈ ["!!bool", "!!int", "!!float", "!!null", "!!timestamp"] then
    let kind := Yaml.Kind.ofPlain (tag = "!!timestamp") text
    if kind.tag = tag then .ok (.ofKind text kind)
    else if tag = "!!float" ∧ kind = .int .signed then .ok .other
    else .error (.wrongTag kind.tag text tag)
  else .ok (.text text)

/-! ## Nodes -/

/-- How far the settings have been read. -/
structure Progress where
  /-- The settings. -/
  settings : Settings := {}
  /-- What did not fit, latest first. -/
  misfits : List Misfit := []
  /-- The names that count no more, while other mappings are brought in. -/
  taken : Option (List String) := none

/-- Reading settings. -/
abbrev Reader := StateT Progress (Except Abort)

/-- Notes what does not fit. -/
def report (m : Misfit) : Reader Unit := modify fun p => { p with misfits := m :: p.misfits }

/-- The keys of a mapping that were there before. -/
def repeatedKeys : List (Yaml.Node × Yaml.Node) → List Misfit
  | [] => []
  | (k, _) :: rest =>
    (rest.filter fun p => k.sameKey p.1).map (fun p => .repeatedKey p.1.line p.1.label k.line) ++
      repeatedKeys rest

/-- Reports a node that cannot become a value of the type `want`. In a mapping, keys that were there
before are reported instead. -/
def misfit (want : String) : Yaml.Node → Reader Unit
  | .scalar line tag text => report (.wrongType line tag text want)
  | .sequence line tag _ => report (.wrongType line tag "" want)
  | .mapping line tag pairs =>
    match repeatedKeys pairs with
    | [] => report (.wrongType line tag "" want)
    | ms => ms.forM report
  | .reference _ _ target => misfit want target
  | .loop _ _ _ tag start => report (.wrongType start tag "" want)

/-- Reads a text. -/
def readText : Yaml.Node → Reader (Option String)
  | .scalar _ tag text => do
    match ← meaning tag text with
    | .null => return none
    | .text s => return some s
    | _ => return some text
  | .reference _ _ target => readText target
  | n => do
    misfit "string" n
    return none

/-- Reads a truth value. -/
def readFlag : Yaml.Node → Reader (Option Bool)
  | n@(.scalar _ tag text) => do
    match ← meaning tag text with
    | .null => return none
    | .flag b => return some b
    | .text s =>
      match Yaml.oldBool? s with
      | some b => return some b
      | none => misfit "bool" n; return none
    | .other => misfit "bool" n; return none
  | .reference _ _ target => readFlag target
  | n => do
    misfit "bool" n
    return none

/-- The settings by themselves. -/
inductive Key where
  /-- The target triple. -/
  | target
  /-- The name of the module. -/
  | module
  /-- Whether to verify. -/
  | verify
  /-- The least level that is logged. -/
  | logLevel
  /-- The form in which entries are logged. -/
  | logFormat
  deriving DecidableEq, Repr, Inhabited

/-- The setting of a name. -/
def Key.ofName? : String → Option Key
  | "target" => some target
  | "module" => some module
  | "verify" => some verify
  | "log-level" => some logLevel
  | "log-format" => some logFormat
  | _ => none

/-- Changes the settings. -/
def change (f : Settings → Settings) : Reader Unit :=
  modify fun p => { p with settings := f p.settings }

/-- Reads one setting; no value leaves it as it is. -/
def readSetting (key : Key) (n : Yaml.Node) : Reader Unit := do
  let text (set : String → Settings → Settings) : Reader Unit := do
    if let some s ← readText n then change (set s)
  match key with
  | .target => text fun s c => { c with target := s }
  | .module => text fun s c => { c with module := s }
  | .logLevel => text fun s c => { c with logLevel := s }
  | .logFormat => text fun s c => { c with logFormat := s }
  | .verify => if let some b ← readFlag n then change fun c => { c with verify := b }

/-- Marks a name as one that counts no more; `false` if it did not count any more already. -/
def take (name : String) : Reader Bool := do
  match (← get).taken with
  | none => return true
  | some taken =>
    if taken.contains name then return false
    modify fun p => { p with taken := some (name :: taken) }
    return true

/-- Reads the pairs of a mapping; `done` are the settings that were made by pairs before. -/
def readPairs (done : List Key) : List (Yaml.Node × Yaml.Node) → Reader Unit
  | [] => pure ()
  | (k, v) :: rest => do
    if k.isMerge then readPairs done rest
    else match ← readText k with
      | none => readPairs done rest
      | some name =>
        if !(← take name) then readPairs done rest
        else match Key.ofName? name with
          | none =>
            report (.unknownName k.line name)
            readPairs done rest
          | some key =>
            if done.contains key then
              report (.repeatedName k.line name)
              readPairs done rest
            else
              readSetting key v
              readPairs (key :: done) rest

/-- The text that a key is, if it is one. -/
def keyText? : Yaml.Node → Option String
  | .scalar _ tag text =>
    match meaning tag text with
    | .ok (.text s) => some s
    | _ => none
  | .reference _ _ target => keyText? target
  | _ => none

mutual

/-- Reads settings from a node. -/
def readNode (n : Yaml.Node) : Reader Unit := do
  match n with
  | .mapping _ _ pairs =>
    match repeatedKeys pairs with
    | [] =>
      readPairs [] pairs
      match h : pairs.find? (·.1.isMerge) with
      | none => return
      | some p =>
        have : sizeOf p.2 < sizeOf pairs := by
          have hp := List.sizeOf_lt_of_mem (List.mem_of_find?_eq_some h)
          cases p
          simp at hp ⊢
          omega
        if (← get).taken.isNone then
          modify fun s => { s with taken := some (pairs.filterMap fun p => keyText? p.1) }
        merge p.2
    | ms => ms.forM report
  | .scalar _ tag text =>
    if (← meaning tag text) ≠ .null then misfit typeName n
  | .reference _ _ target => readNode target
  | .sequence .. | .loop .. => misfit typeName n
termination_by (sizeOf n, 0)

/-- Brings in a mapping, or all mappings of a sequence. -/
def merge (n : Yaml.Node) : Reader Unit := do
  match n with
  | .sequence _ _ items => items.attach.forM fun ⟨x, _⟩ => mergeItem x
  | n => mergeItem n
termination_by (sizeOf n, 2)

/-- Brings in a mapping. -/
def mergeItem (n : Yaml.Node) : Reader Unit := do
  if n.isMapping then readNode n
  else match n with
    | .reference _ _ target => if target.isMapping then readNode target else throw .badMerge
    | .loop _ name .mapping .. => throw (.endlessMerge name)
    | _ => throw .badMerge
termination_by (sizeOf n, 1)

end

/-- The settings that a YAML text describes. -/
def decode (content : Except String (List UInt8)) : Except DecodeError Settings :=
  match Yaml.Node.ofBytes content with
  | .error f => .error (.malformed f)
  | .ok root =>
    match ((root.forM readNode).run {}) with
    | .error a => .error (.aborted a)
    | .ok ((), p) =>
      if p.misfits.isEmpty then
        match p.settings.validate with
        | .error e => .error (.invalid e)
        | .ok () => .ok p.settings
      else .error (.misfits p.misfits.reverse)

end Settings

end Wordlang
