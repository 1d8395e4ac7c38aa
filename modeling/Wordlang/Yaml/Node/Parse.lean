import Wordlang.Parsed
import Wordlang.Yaml.Node
import Wordlang.Yaml.Token.Scan

/-!
# Documents of a YAML text

The first document of a text, as a node. The grammar, over the tokens:

    document = [ directives "---" ] [ node ]
    node     = alias | [ anchor ] [ tag ] [ scalar | sequence | mapping ]
    sequence = START { "-" [ node ] } END | { "-" [ node ] } | "[" [ item { "," item } ] "]"
    mapping  = START { KEY [ node ] [ ":" [ node ] ] } END | braces with commas

A sequence without start and end can only be the value of a key. A key and a value between brackets
make up a mapping of one pair.

Every function returns the tokens it left over together with the fact that they are fewer.
-/

namespace Wordlang.Yaml

/-- What an anchor stands for. -/
inductive Anchored where
  /-- A node. -/
  | node (n : Node)
  /-- A collection that has not ended yet. -/
  | unfinished (shape : Shape) (tag : String) (line : Nat)
  deriving Repr, Inhabited

/-- The anchors so far, latest first. -/
abbrev Anchors := List (String × Anchored)

/-- What stands before a node: its anchor and its tag. -/
structure Properties where
  /-- The anchor. -/
  anchor : Option String := none
  /-- The line, handle and rest of the tag. -/
  tag : Option (Nat × String × String) := none

/-- Whether there is an anchor or a tag. -/
def Properties.isGiven (p : Properties) : Bool := p.anchor.isSome || p.tag.isSome

/-- The anchor and the tag before a node, in either order, and the tokens behind them. -/
def properties : List Token → Properties × List Token
  | ⟨_, .anchor a⟩ :: rest =>
    match rest with
    | ⟨line, .tag h s⟩ :: rest => (⟨some a, some (line, h, s)⟩, rest)
    | _ => (⟨some a, none⟩, rest)
  | ⟨line, .tag h s⟩ :: rest =>
    match rest with
    | ⟨_, .anchor a⟩ :: rest => (⟨some a, some (line, h, s)⟩, rest)
    | _ => (⟨none, some (line, h, s)⟩, rest)
  | ls => ({}, ls)

theorem length_properties_le (ls : List Token) : (properties ls).2.length ≤ ls.length := by
  fun_cases properties ls <;> grind

theorem length_properties_lt {ls : List Token} (h : (properties ls).1.isGiven) :
    (properties ls).2.length < ls.length := by
  revert h
  fun_cases properties ls <;> simp only [List.length_cons] <;> grind [Properties.isGiven]

/-- The tag that is meant, in the node that starts on the line `start`. -/
def resolveTag (handles : List (String × String)) (start : Nat) :
    Option (Nat × String × String) → Except Fault (Option String)
  | none => .ok none
  | some (line, handle, suffix) =>
    if handle = "" then .ok (some suffix)
    else
      let tag := (((handles.lookup handle).map (· ++ suffix))).getD ""
      if tag = "" then .error (.inStructure start line .undefinedHandle) else .ok (some tag)

/-- An empty scalar. -/
def emptyNode (line : Nat) : Node := .scalar (line + 1) "!!null" ""

/-- Whether a token ends a pair of a block mapping. -/
def endsBlockPair : TokenKind → Bool
  | .key | .value | .blockEnd => true
  | _ => false

/-- Whether a token ends an item between brackets. -/
def endsFlowItem : TokenKind → Bool
  | .comma | .closeBracket => true
  | _ => false

/-- Whether a token ends a pair between braces. -/
def endsFlowPair : TokenKind → Bool
  | .comma | .closeBrace => true
  | _ => false

/-- The outcome of a parser that leaves fewer than `bound` tokens. -/
abbrev Outcome (α : Type) (bound : Nat) := Except Fault (Parsed Token (α × Anchors) bound)

namespace Parse

variable (late : Fault) (handles : List (String × String))

/-- Registers a finished node. -/
def register (p : Properties) (n : Node) (as : Anchors) : Anchors :=
  match p.anchor with
  | some a => (a, .node n) :: as
  | none => as

/-- Registers a collection that starts. -/
def begin (p : Properties) (shape : Shape) (tag : String) (line : Nat) (as : Anchors) : Anchors :=
  match p.anchor with
  | some a => (a, .unfinished shape tag line) :: as
  | none => as

/-- Notes that the collection registered after `before` anchors has ended. -/
def finish (p : Properties) (before : Nat) (n : Node) (as : Anchors) : Anchors :=
  match p.anchor with
  | some a => as.modify (as.length - 1 - before) fun _ => (a, .node n)
  | none => as

mutual

/-- `node`; in a block, collections by indentation are allowed, and as the value of a key also a
sequence that is not indented. -/
def node (block unindented : Bool) (as : Anchors) (ls : List Token) : Outcome Node ls.length :=
  match ls with
  | [] => .error late
  | t :: rest =>
    match t.kind with
    | .reference name =>
      match as.lookup name with
      | none => .error ⟨none, .unknownAnchor name⟩
      | some (.node n) => .ok ⟨(.reference (t.line + 1) name n, as), rest, by simp⟩
      | some (.unfinished shape tag line) =>
        .ok ⟨(.loop (t.line + 1) name shape tag line, as), rest, by simp⟩
    | _ =>
      let props := properties (t :: rest)
      have hle := length_properties_le (t :: rest)
      match hp : props.2 with
      | [] => .error late
      | u :: more => do
        have hmore : more.length + 1 ≤ rest.length + 1 := by simpa [props, hp] using hle
        let p := props.1
        let line := t.line + 1
        let tag ← resolveTag handles t.line p.tag
        let collection (shape : Shape) : String :=
          tagOr tag (if shape = .sequence then "!!seq" else "!!map")
        let sequence (items : List Node × Anchors) : Node × Anchors :=
          let n := Node.sequence line (collection .sequence) items.1
          (n, finish p as.length n items.2)
        let mapping (pairs : List (Node × Node) × Anchors) : Node × Anchors :=
          let n := Node.mapping line (collection .mapping) pairs.1
          (n, finish p as.length n pairs.2)
        let inSequence := begin p .sequence (collection .sequence) line as
        let inMapping := begin p .mapping (collection .mapping) line as
        match u.kind with
        | .scalar text style =>
          let implied := if style = .plain then impliedTag text else "!!str"
          let n := Node.scalar line (tagOr tag implied) text
          return ⟨(n, register p n as), more, by simp only [List.length_cons]; omega⟩
        | .openBracket =>
          let r ← flowItems true u.line inSequence more
          return r.map sequence (by simp only [List.length_cons]; omega)
        | .openBrace =>
          let r ← flowPairs true u.line inMapping more
          return r.map mapping (by simp only [List.length_cons]; omega)
        | kind =>
          if kind = .entry && unindented then
            let r ← items true u.line inSequence more
            return r.map sequence (by simp only [List.length_cons]; omega)
          else if kind = .blockSequence && block then
            let r ← moreItems false u.line inSequence more
            return r.map sequence (by simp only [List.length_cons]; omega)
          else if kind = .blockMapping && block then
            let r ← pairs u.line inMapping more
            return r.map mapping (by simp only [List.length_cons]; omega)
          else if hg : p.isGiven then
            let n := Node.scalar line (tagOr tag "!!null") ""
            return ⟨(n, register p n as), u :: more, by
              have := length_properties_lt hg
              simpa [props, hp] using this⟩
          else .error (.inStructure t.line u.line .missingNode)
termination_by (ls.length, 0)

/-- A node, or an empty one on the given line if a token comes that `stops`. -/
def optional (stops : TokenKind → Bool) (block : Bool) (line : Nat) (as : Anchors)
    (ls : List Token) : Outcome Node (ls.length + 1) :=
  match ls with
  | [] => .error late
  | t :: rest =>
    if stops t.kind then .ok ⟨(emptyNode line, as), t :: rest, by simp⟩
    else (node block block as (t :: rest)).map (·.map id (by simp))
termination_by (ls.length, 1)

/-- The value after a key, empty if there is no colon. -/
def value (stops : TokenKind → Bool) (block : Bool) (as : Anchors) (ls : List Token) :
    Outcome Node (ls.length + 1) :=
  match ls with
  | [] => .error late
  | t :: rest =>
    if t.kind = .value then
      (optional stops block t.line as rest).map (·.map id (by simp))
    else .ok ⟨(emptyNode t.line, as), t :: rest, by simp⟩
termination_by (ls.length, 2)

/-- The item after a `-`, and the items behind it. -/
def items (unindented : Bool) (start : Nat) (as : Anchors) (ls : List Token) :
    Outcome (List Node) (ls.length + 1) :=
  match ls with
  | [] => .error late
  | t :: rest => do
    let stops := t.kind = .entry || t.kind = .blockEnd ||
      (unindented && (t.kind = .key || t.kind = .value))
    if stops then
      let r ← moreItems unindented start as (t :: rest)
      return r.map (fun (ns, as) => (emptyNode t.line :: ns, as)) (by simp)
    else
      let x ← node true false as (t :: rest)
      have hx := x.rest_lt
      let r ← moreItems unindented start x.value.2 x.rest
      return r.map (fun (ns, as) => (x.value.1 :: ns, as)) (by simp only [List.length_cons] at hx ⊢; omega)
termination_by (ls.length, 2)

/-- The further items of a block sequence, each after a `-`. -/
def moreItems (unindented : Bool) (start : Nat) (as : Anchors) (ls : List Token) :
    Outcome (List Node) (ls.length + 1) :=
  match ls with
  | [] => .error late
  | t :: rest =>
    if t.kind = .entry then
      (items unindented start as rest).map (·.map id (by simp))
    else if unindented then .ok ⟨([], as), t :: rest, by simp⟩
    else if t.kind = .blockEnd then .ok ⟨([], as), rest, by simp only [List.length_cons]; omega⟩
    else .error (.inStructure start t.line .missingEntry)
termination_by (ls.length, 1)

/-- The pairs of a block mapping. -/
def pairs (start : Nat) (as : Anchors) (ls : List Token) :
    Outcome (List (Node × Node)) (ls.length + 1) :=
  match ls with
  | [] => .error late
  | t :: rest => do
    if t.kind = .key then
      let k ← optional endsBlockPair true t.line as rest
      have hk := k.rest_lt
      let v ← value endsBlockPair true k.value.2 k.rest
      have hv := v.rest_lt
      let r ← pairs start v.value.2 v.rest
      return r.map (fun (ps, as) => ((k.value.1, v.value.1) :: ps, as)) (by simp only [List.length_cons]; omega)
    else if t.kind = .blockEnd then return ⟨([], as), rest, by simp only [List.length_cons]; omega⟩
    else .error (.inStructure start t.line .missingKey)
termination_by (ls.length, 3)

/-- The items of a sequence between brackets, the first of them without a comma before it. -/
def flowItems (first : Bool) (start : Nat) (as : Anchors) (ls : List Token) :
    Outcome (List Node) (ls.length + 1) :=
  match ls with
  | [] => .error late
  | t :: rest =>
    if t.kind = .closeBracket then .ok ⟨([], as), rest, by simp only [List.length_cons]; omega⟩
    else if first then flowItem start as (t :: rest)
    else if t.kind = .comma then (flowItem start as rest).map (·.map id (by simp))
    else .error (.inStructure start t.line .missingCommaOrBracket)
termination_by (ls.length, 5)

/-- An item of a sequence between brackets, or a single pair, and the items behind it. -/
def flowItem (start : Nat) (as : Anchors) (ls : List Token) :
    Outcome (List Node) (ls.length + 1) :=
  match ls with
  | [] => .error late
  | t :: rest => do
    if t.kind = .closeBracket then return ⟨([], as), rest, by simp only [List.length_cons]; omega⟩
    else if t.kind = .key then
      let k ← pairKey as rest
      have hk := k.rest_lt
      let v ← value endsFlowItem false k.value.2 k.rest
      have hv := v.rest_lt
      let r ← flowItems false start v.value.2 v.rest
      let pair := Node.mapping (t.line + 1) "!!map" [(k.value.1, v.value.1)]
      return r.map (fun (ns, as) => (pair :: ns, as)) (by simp only [List.length_cons]; omega)
    else
      let x ← node false false as (t :: rest)
      have hx := x.rest_lt
      let r ← flowItems false start x.value.2 x.rest
      return r.map (fun (ns, as) => (x.value.1 :: ns, as)) (by simp only [List.length_cons] at hx ⊢; omega)
termination_by (ls.length, 4)

/-- The key of a single pair between brackets. If it is missing, the token in its place is lost. -/
def pairKey (as : Anchors) (ls : List Token) : Outcome Node (ls.length + 1) :=
  match ls with
  | [] => .error late
  | t :: rest =>
    if t.kind = .value || endsFlowItem t.kind then
      .ok ⟨(emptyNode t.line, as), rest, by simp only [List.length_cons]; omega⟩
    else (node false false as (t :: rest)).map (·.map id (by simp))
termination_by (ls.length, 1)

/-- The pairs of a mapping between braces, the first of them without a comma before it. -/
def flowPairs (first : Bool) (start : Nat) (as : Anchors) (ls : List Token) :
    Outcome (List (Node × Node)) (ls.length + 1) :=
  match ls with
  | [] => .error late
  | t :: rest =>
    if t.kind = .closeBrace then .ok ⟨([], as), rest, by simp only [List.length_cons]; omega⟩
    else if first then flowPair start as (t :: rest)
    else if t.kind = .comma then (flowPair start as rest).map (·.map id (by simp))
    else .error (.inStructure start t.line .missingCommaOrBrace)
termination_by (ls.length, 5)

/-- A pair of a mapping between braces, and the pairs behind it. -/
def flowPair (start : Nat) (as : Anchors) (ls : List Token) :
    Outcome (List (Node × Node)) (ls.length + 1) :=
  match ls with
  | [] => .error late
  | t :: rest => do
    if t.kind = .closeBrace then return ⟨([], as), rest, by simp only [List.length_cons]; omega⟩
    else if t.kind = .key then
      let k ← optional (fun k => k = .value || endsFlowPair k) false t.line as rest
      have hk := k.rest_lt
      let v ← value endsFlowPair false k.value.2 k.rest
      have hv := v.rest_lt
      let r ← flowPairs false start v.value.2 v.rest
      return r.map (fun (ps, as) => ((k.value.1, v.value.1) :: ps, as)) (by simp only [List.length_cons]; omega)
    else
      let x ← node false false as (t :: rest)
      have hx := x.rest_lt
      let line := (x.rest.head?.map (·.line)).getD t.line
      let r ← flowPairs false start x.value.2 x.rest
      return r.map (fun (ps, as) => ((x.value.1, emptyNode line) :: ps, as)) (by simp only [List.length_cons] at hx ⊢; omega)
termination_by (ls.length, 4)

end

/-- The meanings of handles that hold without a directive. -/
def standardHandles : List (String × String) := [("!", "!"), ("!!", standardTag)]

/-- The directives before a document: the meanings of handles, and the tokens behind them.
`version` says whether a version was given. -/
def directives (version : Bool) (handles : List (String × String)) :
    List Token → Except Fault (List (String × String) × List Token)
  | t :: rest =>
    match t.kind with
    | .version major minor =>
      if version then .error (.inStructure 0 t.line .secondVersion)
      else if major ≠ 1 ∨ minor ≠ 1 then .error (.inStructure 0 t.line .otherVersion)
      else directives true handles rest
    | .handle name meaning =>
      if (handles.lookup name).isSome then .error (.inStructure 0 t.line .secondHandle)
      else directives version (handles ++ [(name, meaning)]) rest
    | _ => .ok (handles ++ standardHandles, t :: rest)
  | [] => .error late

/-- Whether a token announces a document, itself or by a directive. -/
def announces : TokenKind → Bool
  | .version .. | .handle .. | .documentStart => true
  | _ => false

/-- Whether a token says that an announced document is empty. -/
def endsDocument (k : TokenKind) : Bool := announces k || k = .documentEnd || k = .streamEnd

/-- A node that nothing but the end of its document may follow: the token behind it is looked at,
though whatever it is belongs to the next document. -/
def root (handles : List (String × String)) (ls : List Token) : Except Fault (Option Node) := do
  let n ← node late handles true false [] ls
  if n.rest.isEmpty then .error late else return some n.value.1

/-- The root of the first document, if there is one. -/
def document : List Token → Except Fault (Option Node)
  | [] => .error late
  | t :: rest =>
    if announces t.kind then do
      let (handles, ls) ← directives late false [] (t :: rest)
      match ls with
      | [] => .error late
      | u :: ls =>
        if u.kind ≠ .documentStart then .error (.inStructure 0 u.line .missingDocument)
        else match ls with
          | [] => .error late
          | v :: _ =>
            if endsDocument v.kind then return some (emptyNode v.line) else root late handles ls
    else if t.kind = .streamEnd then .ok none
    else root late standardHandles (t :: rest)

end Parse

/-- The root of the first document of a text; `none` if the text has no document. -/
def Node.ofBytes (content : Except String (List UInt8)) : Except Fault (Option Node) := do
  let chars ← characters content
  let (ts, fault) := tokens chars
  -- Without a fault the tokens end in the end of the text, which no rule consumes.
  let late := fault.getD ⟨none, .missingNode⟩
  Parse.document late ts

end Wordlang.Yaml
