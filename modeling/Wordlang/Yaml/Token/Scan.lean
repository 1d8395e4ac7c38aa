import Wordlang.Yaml.Input
import Wordlang.Yaml.Token.Tag

/-!
# Cutting a YAML text into tokens

A key need not be announced: whether a scalar is one shows only at the colon behind it. So wherever
a key may start, the place is remembered as a *pending* key, one for each level of brackets, and the
colon puts the announcement in front of it. A pending key must be on the line of its colon, at most
1024 characters before it.

A token is *settled* when no announcement can come in front of it any more and two more tokens are
known. Who reads the tokens is given settled ones only; if the text turns out to be faulty, the
settled tokens are followed by the fault, which counts if somebody gets that far.
-/

namespace Wordlang.Yaml

/-- A place where a key may have started. -/
structure PendingKey where
  /-- The number of the token that starts there. -/
  token : Nat
  /-- Whether there has to be a key, because the line is indented like the mapping around it. -/
  required : Bool
  /-- The place. -/
  mark : Mark
  deriving DecidableEq, Repr, Inhabited

/-- How far a text has been cut into tokens. -/
structure Scan where
  /-- What is still to be read. -/
  cursor : Cursor
  /-- The tokens so far. -/
  tokens : List Token := []
  /-- How many of them are settled. -/
  settled : Nat := 0
  /-- The indentation of the innermost block collection, `-1` outside of all. -/
  indent : Int := -1
  /-- The indentations around it, innermost first. -/
  outer : List Int := []
  /-- Whether a key may start here. -/
  keyAllowed : Bool := true
  /-- The pending keys, one for each open bracket and one outside of all, innermost first. -/
  pending : List (Option PendingKey) := [none]
  deriving Repr, Inhabited

/-- How deep collections may be nested. -/
def depthLimit : Nat := 10000

/-- How far a key may stand from its colon. -/
def keyReach : Nat := 1024

namespace Scan

/-- How many brackets are open. -/
def flowDepth (s : Scan) : Nat := s.pending.length - 1

/-- Whether a bracket is open. -/
def inFlow (s : Scan) : Bool := s.flowDepth != 0

/-- Where the scan stands. -/
def mark (s : Scan) : Mark := s.cursor.mark

/-- What surrounds a scalar here. -/
def surroundings (s : Scan) : Surroundings := ⟨s.inFlow, s.indent⟩

/-- The pending key of the innermost level. -/
def pendingKey? (s : Scan) : Option PendingKey := s.pending.head?.join

/-- Adds a token that starts on the given line. -/
def push (s : Scan) (line : Nat) (kind : TokenKind) : Scan :=
  { s with tokens := s.tokens ++ [⟨line, kind⟩] }

/-- Puts a token in front of the one with the given number. -/
def insert (s : Scan) (number : Nat) (t : Token) : Scan :=
  { s with tokens := s.tokens.take number ++ t :: s.tokens.drop number }

/-- Replaces the pending key of the innermost level. -/
def setPending (s : Scan) (key : Option PendingKey) : Scan :=
  { s with pending := key :: s.pending.tail }

/-- Whether a pending key can still be one. A required key that cannot is a fault. -/
def isAlive (s : Scan) (key : PendingKey) : Except Fault Bool :=
  if key.mark.line < s.mark.line ∨ key.mark.index + keyReach < s.mark.index then
    if key.required then s.cursor.fail key.mark .missingColon else .ok false
  else .ok true

/-- Gives up the pending key of the innermost level. -/
def dropKey (s : Scan) : Except Fault Scan :=
  match s.pendingKey? with
  | some key =>
    if key.required then s.cursor.fail key.mark .missingColon else .ok (s.setPending none)
  | none => .ok s

/-- Remembers that a key may start here. -/
def saveKey (s : Scan) : Except Fault Scan :=
  if s.keyAllowed then do
    let required := !s.inFlow && s.indent = s.mark.column
    let key : PendingKey := ⟨s.tokens.length, required, s.mark⟩
    return (← s.dropKey).setPending (some key)
  else .ok s

/-- Starts a block collection at the given column, if that is further in than the collection around
it; its first token is put in front of the one with the given number. -/
def openBlock (s : Scan) (mark : Mark) (number : Nat) (kind : TokenKind) : Except Fault Scan :=
  if !s.inFlow && s.indent < mark.column then
    if depthLimit < s.outer.length + 1 then s.cursor.fail s.mark (.tooDeep depthLimit)
    else
      .ok { s.insert number ⟨mark.line, kind⟩ with
        indent := mark.column, outer := s.indent :: s.outer }
  else .ok s

/-- Ends the block collections in `outer` that are further in than the given column. -/
def closeFrom (column : Int) (line : Nat) (s : Scan) : List Int → Scan
  | [] => s
  | i :: outer =>
    if column < s.indent then
      closeFrom column line { s.push line .blockEnd with indent := i, outer } outer
    else s

/-- Ends the block collections that are further in than the given column. -/
def closeBlocks (s : Scan) (column : Int) (line : Nat) : Scan :=
  if s.inFlow then s else s.closeFrom column line s.outer

/-! ## One token -/

/-- A token of one character that is neither followed by a key nor starts one. -/
def character (s : Scan) (kind : TokenKind) : Scan :=
  { s.push s.mark.line kind with cursor := s.cursor.next }

/-- The end of the text, on a line of its own. -/
def streamEnd (s : Scan) : Except Fault Scan := do
  let line := if s.mark.column = 0 then s.mark.line else s.mark.line + 1
  let here : Cursor := { s.cursor with mark := { s.mark with line, column := 0 } }
  let s ← ({ s with cursor := here }.closeBlocks (-1) line).dropKey
  return { s with keyAllowed := false }.push line .streamEnd

/-- A directive. -/
def directive (s : Scan) : Except Fault Scan := do
  let line := s.mark.line
  let s ← (s.closeBlocks (-1) line).dropKey
  let (kind, cursor) ← scanDirective s.cursor
  return { s with keyAllowed := false, cursor }.push line kind

/-- The border of a document. -/
def border (s : Scan) : Except Fault Scan := do
  let line := s.mark.line
  let kind := if s.cursor.peek? = some '-' then TokenKind.documentStart else .documentEnd
  let s ← (s.closeBlocks (-1) line).dropKey
  return { s with keyAllowed := false, cursor := s.cursor.skip 3 }.push line kind

/-- An opening bracket or brace. -/
def openFlow (s : Scan) (kind : TokenKind) : Except Fault Scan := do
  let s ← s.saveKey
  if depthLimit < s.flowDepth + 1 then s.cursor.fail s.mark (.tooDeep depthLimit)
  else return { s.character kind with keyAllowed := true, pending := none :: s.pending }

/-- A closing bracket or brace. -/
def closeFlow (s : Scan) (kind : TokenKind) : Except Fault Scan := do
  let s ← s.dropKey
  let pending := if s.inFlow then s.pending.tail else s.pending
  return { s.character kind with keyAllowed := false, pending }

/-- A comma between entries. -/
def comma (s : Scan) : Except Fault Scan := do
  let s ← s.dropKey
  return { s.character .comma with keyAllowed := true }

/-- The mark of an entry of a block sequence. Inside of brackets it is left to the reader of the
tokens to complain. -/
def entry (s : Scan) : Except Fault Scan := do
  if !s.inFlow && !s.keyAllowed then s.cursor.fail s.mark .misplacedEntry
  else
    let s ← s.openBlock s.mark s.tokens.length .blockSequence
    let s ← s.dropKey
    return { s.character .entry with keyAllowed := true }

/-- The mark of a key. -/
def key (s : Scan) : Except Fault Scan := do
  if !s.inFlow && !s.keyAllowed then s.cursor.fail s.mark .misplacedKey
  else
    let s ← s.openBlock s.mark s.tokens.length .blockMapping
    let s ← s.dropKey
    return { s.character .key with keyAllowed := !s.inFlow }

/-- Whether there is a pending key that can still be one. -/
def liveKey? (s : Scan) : Except Fault (Option PendingKey) :=
  match s.pendingKey? with
  | some key => (s.isAlive key).map fun alive => if alive then some key else none
  | none => .ok none

/-- The mark of a value: what is pending becomes its key. -/
def value (s : Scan) : Except Fault Scan := do
  match ← s.liveKey? with
  | some key =>
    let s := s.insert key.token ⟨key.mark.line, .key⟩
    let s ← s.openBlock key.mark key.token .blockMapping
    return { (s.setPending none).character .value with keyAllowed := false }
  | none =>
    let s := s.setPending none
    if !s.inFlow && !s.keyAllowed then s.cursor.fail s.mark .misplacedValue
    else
      let s ← s.openBlock s.mark s.tokens.length .blockMapping
      return { s.character .value with keyAllowed := !s.inFlow }

/-- A token that may start a key, read by `scan`. -/
def keyStart (s : Scan) (scan : Cursor → Except Fault (TokenKind × Cursor × Bool)) :
    Except Fault Scan := do
  let s ← s.saveKey
  let (kind, cursor, keyAllowed) ← scan s.cursor
  return { s with cursor, keyAllowed }.push s.mark.line kind

/-- An anchor or alias. -/
def anchor (s : Scan) (kind : String → TokenKind) : Except Fault Scan :=
  s.keyStart fun k => (scanAnchor k).map fun t => (kind t.text, t.cursor, false)

/-- A tag. -/
def tag (s : Scan) : Except Fault Scan :=
  s.keyStart fun k => (scanTag k).map fun (h, t) => (.tag h t.text, t.cursor, false)

/-- A quoted scalar. -/
def quoted (s : Scan) : Except Fault Scan :=
  s.keyStart fun k => (scanQuoted k).map fun t => (.scalar t.text .quoted, t.cursor, false)

/-- A plain scalar. -/
def plain (s : Scan) : Except Fault Scan :=
  s.keyStart fun k =>
    (scanPlain s.surroundings k).map fun t => (.scalar t.text .plain, t.cursor, t.broken)

/-- A block scalar. -/
def block (s : Scan) : Except Fault Scan := do
  let s ← s.dropKey
  let t ← scanBlock s.surroundings s.cursor
  return { s with cursor := t.cursor, keyAllowed := true }.push s.mark.line (.scalar t.text .quoted)

/-- Whether a plain scalar can start with the character `c`, which `rest` follows. -/
def startsPlain (inFlow : Bool) (c : Char) (rest : List Char) : Bool :=
  if c = '-' then !rest.head?.any isBlank
  else if c = '?' ∨ c = ':' then !inFlow && !endsWord rest
  else !isSpacing c && !",[]\x7b\x7d#&*!|>'\"%@\x60".toList.contains c

/-- The token that starts with the character `c`, which `rest` follows. -/
def tokenAt (s : Scan) (c : Char) (rest : List Char) : Except Fault Scan :=
  if c = '[' then s.openFlow .openBracket
  else if c = '\x7b' then s.openFlow .openBrace
  else if c = ']' then s.closeFlow .closeBracket
  else if c = '\x7d' then s.closeFlow .closeBrace
  else if c = ',' then s.comma
  else if c = '-' ∧ endsWord rest then s.entry
  else if c = '?' ∧ (s.inFlow ∨ endsWord rest) then s.key
  else if c = ':' ∧ (s.inFlow ∨ endsWord rest) then s.value
  else if c = '*' then s.anchor .reference
  else if c = '&' then s.anchor .anchor
  else if c = '!' then s.tag
  else if (c = '|' ∨ c = '>') ∧ !s.inFlow then s.block
  else if c = '\'' ∨ c = '"' then s.quoted
  else if startsPlain s.inFlow c rest then s.plain
  else s.cursor.fail s.mark .badTokenStart

/-- Passes over the comment on the line of the token just read; a `-` has none. -/
def lineComment (s : Scan) : Scan :=
  if s.cursor.fresh || s.tokens.getLast?.any (·.kind = .entry) then s
  else { s with cursor := s.cursor.skipLineComment }

/-- Passes over blanks, comments and ends of lines. Tabs do not indent. A new line may start a key,
outside of brackets. At most `fuel` lines are passed over. -/
def toToken : Nat → Scan → Scan
  | 0, s => s
  | fuel + 1, s =>
    let tabs := s.inFlow || !s.keyAllowed
    let k := s.cursor.skipWhile fun c => c = ' ' || (tabs && c = '\t')
    let k := if k.peek? = some '#' then k.skipComments k.rest.length else k
    match k.rest with
    | [] => { s with cursor := k }
    | c :: rest =>
      if isBreak c then
        toToken fuel { s with cursor := k.past c rest, keyAllowed := !s.inFlow || s.keyAllowed }
      else { s with cursor := k }

/-- Reads one token, with the ends of the block collections before it. -/
def step (s : Scan) : Except Fault Scan :=
  let line := s.mark.line
  let s := s.toToken (s.cursor.rest.length + 1)
  let s := s.closeBlocks s.mark.column line
  match s.cursor.rest with
  | [] => s.streamEnd
  | c :: rest =>
    if s.mark.column = 0 ∧ c = '%' then s.directive
    else if s.mark.column = 0 ∧ startsBorder (c :: rest) then s.border
    else (s.tokenAt c rest).map lineComment

/-! ## All tokens -/

/-- The pending key that the token with the given number would belong to. -/
def keyAt? (s : Scan) (number : Nat) : Option PendingKey :=
  (s.pending.filterMap id).find? (·.token = number)

/-- Counts more tokens as settled, at most `fuel` of them; on the way a required key may turn out to
be missing. -/
def settle : Nat → Scan → Scan × Option Fault
  | 0, s => (s, none)
  | fuel + 1, s =>
    if s.tokens.length < s.settled + 3 then (s, none)
    else match s.keyAt? s.settled with
      | none => settle fuel { s with settled := s.settled + 1 }
      | some key =>
        match s.isAlive key with
        | .error fault => (s, some fault)
        | .ok true => (s, none)
        | .ok false => settle fuel { s with settled := s.settled + 1 }

/-- Reads tokens until the text ends or is found to be faulty, at most `fuel` of them. -/
def run : Nat → Scan → List Token × Option Fault
  | 0, s => (s.tokens, none)
  | fuel + 1, s =>
    match s.step with
    | .error fault => (s.tokens.take s.settled, some fault)
    | .ok s =>
      if s.tokens.getLast?.any (·.kind = .streamEnd) then
        -- The end can be read any number of times, so that everything before it gets settled.
        let s := (s.push s.mark.line .streamEnd).push s.mark.line .streamEnd
        let (s', fault) := s.settle s.tokens.length
        if fault.isSome then (s.tokens.take s'.settled, fault) else (s.tokens, none)
      else
        let (s, fault) := s.settle s.tokens.length
        if fault.isSome then (s.tokens.take s.settled, fault) else s.run fuel

end Scan

/-- The tokens of a text that can be used, and the fault behind them, if there is one. -/
def tokens (chars : List Char) : List Token × Option Fault :=
  let start : Cursor := ⟨chars, {}, false⟩
  -- A second byte order mark is passed over.
  let start := if start.peek? = some '\uFEFF' then start.next else start
  Scan.run (chars.length + 2) { cursor := start }

end Wordlang.Yaml
