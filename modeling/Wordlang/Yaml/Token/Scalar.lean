import Wordlang.Yaml.Token

/-!
# Scalars in a YAML text

A plain or quoted scalar may go on over several lines. What stands between two of its words is a
*gap*: blanks are kept as they are, a single line break becomes a space, and of several breaks the
first is dropped. A block scalar keeps its lines, or folds them in much the same way.
-/

namespace Wordlang.Yaml

/-- What stands between two words of a scalar, latest first. -/
structure Gap where
  /-- The blanks before the first break. -/
  blanks : List Char := []
  /-- Whether a line has ended. -/
  broken : Bool := false
  /-- The break that ended it, unless a backslash took it away. -/
  first : Option Char := none
  /-- The breaks behind it. -/
  more : List Char := []
  deriving DecidableEq, Repr, Inhabited

namespace Gap

/-- A gap that starts with a break taken away by a backslash. -/
def escaped : Gap := { broken := true }

/-- Whether there is a gap at all. -/
def isNonempty (g : Gap) : Bool := g.broken || !g.blanks.isEmpty

/-- The gap with one more blank or break. -/
def add (g : Gap) (c : Char) : Gap :=
  if isBlank c then if g.broken then g else { g with blanks := c :: g.blanks }
  else if g.broken then { g with more := c :: g.more }
  else { blanks := [], broken := true, first := some c }

/-- What a gap contributes to the text, last character first. -/
def text (g : Gap) : List Char :=
  match g.first with
  | none => if g.broken then g.more else g.blanks
  | some '\n' => if g.more.isEmpty then [' '] else g.more
  | some c => g.more ++ [c]

end Gap

/-- What was read: a text, and the cursor behind it. -/
structure Scanned where
  /-- The text. -/
  text : String
  /-- The cursor behind it. -/
  cursor : Cursor
  /-- Whether the text was found to end on a later line. -/
  broken : Bool := false

/-- Where a scalar stands. -/
structure Surroundings where
  /-- Whether it is inside brackets or braces. -/
  inFlow : Bool
  /-- The indentation around it, `-1` outside of all collections. -/
  indent : Int

/-! ## Plain scalars -/

/-- Whether a plain scalar ends at the character `c`, which `rest` follows. -/
def endsPlain (inFlow : Bool) (c : Char) (rest : List Char) : Bool :=
  (c = ':' && endsWord rest) ||
    (inFlow && (c = ',' || c = '?' || c = '[' || c = ']' || c = '\x7b' || c = '\x7d'))

/-- Goes on with a plain scalar: `acc` is its text so far, last character first, and `g` the gap
behind that. -/
def plainFrom (s : Surroundings) (start : Mark) (acc : List Char) (g : Gap) (mark : Mark)
    (fresh : Bool) : List Char → Except Fault Scanned
  | [] => .ok ⟨String.ofList acc.reverse, ⟨[], mark, fresh⟩, g.broken⟩
  | c :: rest =>
    let here : Cursor := ⟨c :: rest, mark, fresh⟩
    let behind := here.past c rest
    if isSpacing c then
      if c = '\t' ∧ g.broken ∧ mark.column < s.indent + 1 then here.fail start .tabInPlain
      else plainFrom s start acc (g.add c) behind.mark behind.fresh rest
    else if (g.isNonempty &&
          (c = '#' || (!s.inFlow && mark.column < s.indent + 1) ||
            (mark.column = 0 && startsBorder (c :: rest)))) ||
        endsPlain s.inFlow c rest then
      .ok ⟨String.ofList acc.reverse, here, g.broken⟩
    else plainFrom s start (c :: g.text ++ acc) {} behind.mark behind.fresh rest

/-- Reads a plain scalar. -/
def scanPlain (s : Surroundings) (k : Cursor) : Except Fault Scanned :=
  plainFrom s k.mark [] {} k.mark k.fresh k.rest

/-! ## Quoted scalars -/

/-- The value of a hexadecimal digit. -/
def hexValue? (c : Char) : Option Nat :=
  if '0' ≤ c && c ≤ '9' then some (c.toNat - '0'.toNat)
  else if 'a' ≤ c && c ≤ 'f' then some (c.toNat - 'a'.toNat + 10)
  else if 'A' ≤ c && c ≤ 'F' then some (c.toNat - 'A'.toNat + 10)
  else none

/-- The number that the first `n` characters are in hexadecimal. -/
def hexNumber? (n : Nat) (cs : List Char) : Option Nat :=
  if cs.length < n then none
  else (cs.take n).foldl (fun a c => do return (← a) * 16 + (← hexValue? c)) (some 0)

/-- What a backslash and one character stand for. -/
def escapeMeaning? : Char → Option Char
  | '0' => some '\x00'
  | 'a' => some '\x07'
  | 'b' => some '\x08'
  | 't' | '\t' => some '\t'
  | 'n' => some '\n'
  | 'v' => some '\x0b'
  | 'f' => some '\x0c'
  | 'r' => some '\r'
  | 'e' => some '\x1b'
  | ' ' => some ' '
  | '"' => some '"'
  | '\'' => some '\''
  | '\\' => some '\\'
  | 'N' => some '\u0085'
  | '_' => some '\u00A0'
  | 'L' => some '\u2028'
  | 'P' => some '\u2029'
  | _ => none

/-- How many hexadecimal digits follow the letter of an escape. -/
def escapeDigits? : Char → Option Nat
  | 'x' => some 2
  | 'u' => some 4
  | 'U' => some 8
  | _ => none

/-- Goes on with a scalar between quotes `q`; the other parameters are those of `plainFrom`. -/
def quotedFrom (q : Char) (start : Mark) (acc : List Char) (g : Gap) (k : Cursor) :
    Except Fault Scanned :=
  match _h : k.rest with
  | [] => k.fail start .unclosedQuotes
  | c :: rest =>
    let behind := k.past c rest
    if isSpacing c then quotedFrom q start acc (g.add c) behind
    else if k.mark.column = 0 ∧ startsBorder k.rest then k.fail start .documentInQuotes
    else
      let acc := g.text ++ acc
      if c = q then
        match rest with
        | c' :: rest' =>
          if q = '\'' ∧ c' = q then quotedFrom q start (q :: acc) {} (behind.past c' rest')
          else .ok ⟨String.ofList acc.reverse, behind, false⟩
        | [] => .ok ⟨String.ofList acc.reverse, behind, false⟩
      else if q = '"' ∧ c = '\\' then
        match rest with
        | [] => k.fail start .unknownEscape
        | e :: rest' =>
          let inside := behind.past e rest'
          if isBreak e then quotedFrom q start acc .escaped inside
          else match escapeMeaning? e with
            | some c => quotedFrom q start (c :: acc) {} inside
            | none =>
              match escapeDigits? e with
              | none => k.fail start .unknownEscape
              | some n =>
                match hexNumber? n rest' with
                | none => inside.fail start .missingHexDigits
                | some v =>
                  if v.isValidChar then
                    quotedFrom q start (Char.ofNat v :: acc) {}
                      ⟨rest'.drop n, (inside.skip n).mark, false⟩
                  else inside.fail start .escapedNoCharacter
      else quotedFrom q start (c :: acc) {} behind
termination_by k.rest.length
decreasing_by all_goals simp only [Cursor.past, _h, List.length_cons, List.length_drop]; omega

/-- Reads a quoted scalar from its first quote on. -/
def scanQuoted (k : Cursor) : Except Fault Scanned :=
  quotedFrom (k.peek?.getD '"') k.mark [] {} k.next

/-! ## Block scalars -/

/-- What happens to the breaks at the end of a block scalar. -/
inductive Chomping where
  /-- One of them is kept. -/
  | clip
  /-- None of them is kept. -/
  | strip
  /-- All of them are kept. -/
  | keep
  deriving DecidableEq, Repr, Inhabited

/-- The first line of a block scalar. -/
structure BlockHeader where
  /-- What happens to the breaks at the end. -/
  chomping : Chomping := .clip
  /-- The indentation that was given. -/
  indentation : Option Nat := none

/-- A sign for the breaks at the end, if there is one. -/
def chomping? (k : Cursor) : Option Chomping :=
  match k.peek? with
  | some '+' => some .keep
  | some '-' => some .strip
  | _ => none

/-- A digit for the indentation, if there is one. -/
def indentation? (start : Mark) (k : Cursor) : Except Fault (Option Nat) :=
  match k.peek? with
  | some c =>
    if c = '0' then k.fail start .zeroIndentation
    else .ok (if c.isDigit then hexValue? c else none)
  | none => .ok none

/-- The sign and the digit after `|` or `>`, in either order. -/
def blockHeader (start : Mark) (k : Cursor) : Except Fault (BlockHeader × Cursor) := do
  match chomping? k with
  | some c =>
    let n ← indentation? start k.next
    return (⟨c, n⟩, if n.isSome then k.next.next else k.next)
  | none =>
    match ← indentation? start k with
    | none => return ({}, k)
    | some n =>
      match chomping? k.next with
      | some c => return (⟨c, some n⟩, k.next.next)
      | none => return (⟨.clip, some n⟩, k.next)

/-- The empty lines before a line of a block scalar. -/
structure BlockGap where
  /-- The breaks, last first. -/
  breaks : List Char
  /-- The widest indentation seen. -/
  widest : Nat
  /-- The cursor behind them and the indentation of the next line. -/
  cursor : Cursor

/-- Passes over indentation and empty lines; the indentation is open if it is zero. -/
def blockGap (start : Mark) (indent : Nat) (breaks : List Char) (widest : Nat) (mark : Mark)
    (fresh : Bool) : List Char → Except Fault BlockGap
  | [] => .ok ⟨breaks, max widest mark.column, ⟨[], mark, fresh⟩⟩
  | c :: rest =>
    let here : Cursor := ⟨c :: rest, mark, fresh⟩
    let behind := here.past c rest
    let inIndent := indent = 0 ∨ mark.column < indent
    if c = ' ' ∧ inIndent then
      blockGap start indent breaks widest behind.mark behind.fresh rest
    else if c = '\t' ∧ inIndent then here.fail start .tabInBlock
    else
      let widest := max widest mark.column
      if isBreak c then
        blockGap start indent (c :: breaks) widest behind.mark behind.fresh rest
      else .ok ⟨breaks, widest, here⟩

/-- What a block scalar has been read to. -/
structure BlockText where
  /-- The text, last character first. -/
  acc : List Char
  /-- The break that ended the last line. -/
  last : Option Char := none
  /-- Whether the last line started with a blank. -/
  blank : Bool := false

/-- Goes on with the lines of a block scalar. At most `fuel` lines are read. -/
def blockLines (folded : Bool) (start : Mark) (indent : Nat) :
    Nat → BlockText → BlockGap → Except Fault (BlockText × BlockGap)
  | 0, t, g => .ok (t, g)
  | fuel + 1, t, g =>
    match g.cursor.rest with
    | [] => .ok (t, g)
    | c :: _ =>
      if g.cursor.mark.column ≠ indent then .ok (t, g)
      else do
        let joint :=
          if folded ∧ !t.blank ∧ !isBlank c ∧ t.last = some '\n' then
            if g.breaks.isEmpty then [' '] else []
          else t.last.toList
        let (line, k) := g.cursor.takeWhile (!isBreak ·)
        let t' : BlockText := ⟨line.reverse ++ (g.breaks ++ (joint ++ t.acc)), k.peek?, isBlank c⟩
        let k := k.next
        blockLines folded start indent fuel t' (← blockGap start indent [] 0 k.mark k.fresh k.rest)

/-- Reads a block scalar from its `|` or `>` on. -/
def scanBlock (s : Surroundings) (k : Cursor) : Except Fault Scanned := do
  let start := k.mark
  let folded := k.peek? = some '>'
  let (header, k) ← blockHeader start k.next
  let k := (k.skipWhile isBlank).skipLineComment
  if k.rest ≠ [] ∧ !endsWord k.rest then k.fail start .trailingText
  else
    let k := k.next
    let least := (max 0 (s.indent + 1)).toNat
    let given := (header.indentation.map fun n => n + s.indent.toNat).getD 0
    let g ← blockGap start given [] 0 k.mark k.fresh k.rest
    let indent := if given = 0 then max (max g.widest least) 1 else given
    let (t, g) ← blockLines folded start indent k.rest.length ⟨[], none, false⟩ g
    let tail := match header.chomping with
      | .strip => []
      | .clip => t.last.toList
      | .keep => g.breaks ++ t.last.toList
    return ⟨String.ofList (tail ++ t.acc).reverse, g.cursor, false⟩

end Wordlang.Yaml
