import Wordlang.Text.Utf8
import Wordlang.Yaml.Token.Scalar

/-!
# Names in a YAML text

Anchors and aliases, tags, and the two directives: the version of the language and the meaning of a
handle of tags.
-/

namespace Wordlang.Yaml

/-! ## Anchors and aliases -/

/-- Whether the name of an anchor may end here. -/
def endsAnchor (rest : List Char) : Bool :=
  endsWord rest || rest.head?.any ("?:,]\x7d%@\x60".toList.contains ·)

/-- Reads the name of an anchor or alias from its `&` or `*` on. -/
def scanAnchor (k : Cursor) : Except Fault Scanned :=
  let (name, behind) := k.next.takeWhile isWord
  if name.isEmpty || !endsAnchor behind.rest then behind.fail k.mark .badAnchorName
  else .ok ⟨String.ofList name, behind, false⟩

/-! ## Tags -/

/-- A character of the name of a tag. -/
def isTagChar (c : Char) : Bool := isWord c || ";/?:@&=+$,.%!~*'()[]".toList.contains c

/-- The length in bytes of a character that starts with the byte `b`. -/
def byteWidth? (b : Nat) : Option Nat :=
  if b < 0x80 then some 1
  else if b < 0xC0 then none
  else if b < 0xE0 then some 2
  else if b < 0xF0 then some 3
  else if b < 0xF8 then some 4
  else none

/-- Reads the bytes of one character, each as a percent sign and two hexadecimal digits. `left` is
the number of bytes that are left, if the first of them has been read; the bytes come last first. -/
def tagEscape (start : Mark) (bytes : List UInt8) (left : Option Nat) (k : Cursor) :
    Nat → Except Fault (List UInt8 × Cursor)
  | 0 => .ok (bytes, k)
  | fuel + 1 =>
    if left = some 0 then .ok (bytes, k)
    else match k.rest with
      | '%' :: rest =>
        match hexNumber? 2 rest, left with
        | none, _ => k.fail start .badTagEscape
        | some b, none =>
          match byteWidth? b with
          | none => k.fail start .badTagLeadingByte
          | some w => tagEscape start (b.toUInt8 :: bytes) (some (w - 1)) (k.skip 3) fuel
        | some b, some n =>
          if 0x80 ≤ b ∧ b < 0xC0 then
            tagEscape start (b.toUInt8 :: bytes) (some (n - 1)) (k.skip 3) fuel
          else k.fail start .badTagTrailingByte
      | _ => k.fail start .badTagEscape

/-- Reads the name of a tag; `bytes` of it have been read, last first. -/
def tagBytes (start : Mark) : Nat → List UInt8 → Cursor → Except Fault (List UInt8 × Cursor)
  | 0, bytes, k => .ok (bytes, k)
  | fuel + 1, bytes, k =>
    match k.rest with
    | [] => .ok (bytes, k)
    | c :: rest =>
      if c = '%' then do
        -- A character has four bytes at most.
        let (bytes, k) ← tagEscape start bytes none k 5
        tagBytes start fuel bytes k
      else if isTagChar c then
        tagBytes start fuel ((String.utf8EncodeChar c).reverse ++ bytes) (k.past c rest)
      else .ok (bytes, k)

/-- Reads the name of a tag that starts with `head`. -/
def scanTagName (start : Mark) (head : List Char) (k : Cursor) : Except Fault Scanned := do
  let (bytes, behind) ← tagBytes start k.rest.length [] k
  let name := Text.Utf8.toText (Text.Utf8.decode bytes.reverse)
  if head.isEmpty && behind.mark = k.mark then behind.fail start .missingTagName
  else return ⟨String.ofList (head.drop 1) ++ name, behind, false⟩

/-- Reads what looks like a handle: an exclamation mark, a word, and perhaps a second mark. -/
def scanHandle (directive : Bool) (start : Mark) (k : Cursor) : Except Fault Scanned :=
  if k.peek? ≠ some '!' then k.fail start .missingExclamation
  else
    let (word, behind) := k.next.takeWhile isWord
    if behind.peek? = some '!' then .ok ⟨String.ofList ('!' :: word ++ ['!']), behind.next, false⟩
    else if directive && !word.isEmpty then behind.fail start .missingExclamation
    else .ok ⟨String.ofList ('!' :: word), behind, false⟩

/-- Reads a tag from its exclamation mark on: its handle and what follows. A tag in angle brackets
has no handle, nor has the mark alone. -/
def scanTag (k : Cursor) : Except Fault (String × Scanned) := do
  let start := k.mark
  let (handle, t) ←
    if k.next.peek? = some '<' then do
      let t ← scanTagName start [] (k.skip 2)
      if t.cursor.peek? ≠ some '>' then t.cursor.fail start .unclosedTag
      else pure ("", { t with cursor := t.cursor.next })
    else do
      let h ← scanHandle false start k
      if 1 < h.text.length ∧ h.text.endsWith "!" then
        pure (h.text, ← scanTagName start [] h.cursor)
      else
        let t ← scanTagName start h.text.toList h.cursor
        if t.text = "" then pure ("", { t with text := h.text }) else pure ("!", t)
  if endsWord t.cursor.rest then return (handle, t) else t.cursor.fail start .missingBlank

/-! ## Directives -/

/-- Reads a number of a version. -/
def scanVersionNumber (start : Mark) (k : Cursor) : Except Fault (Nat × Cursor) :=
  let (digits, behind) := k.takeWhile Char.isDigit
  if digits.isEmpty then k.fail start .missingVersion
  else if 2 < digits.length then behind.fail start .longVersion
  else .ok (digits.foldl (fun n c => n * 10 + (hexValue? c).getD 0) 0, behind)

/-- Reads a directive from its percent sign to the end of its line. -/
def scanDirective (k : Cursor) : Except Fault (TokenKind × Cursor) := do
  let start := k.mark
  let (name, k) := k.next.takeWhile isWord
  if name.isEmpty then k.fail start .missingDirectiveName
  else if !endsWord k.rest then k.fail start .badDirectiveName
  else
    let body := k.skipWhile isBlank
    let (token, k) ←
      if name = "YAML".toList then do
        let (major, k) ← scanVersionNumber start body
        if k.peek? ≠ some '.' then k.fail start .missingVersionPoint
        else
          let (minor, k) ← scanVersionNumber start k.next
          pure (TokenKind.version major minor, k)
      else if name = "TAG".toList then do
        let h ← scanHandle true start body
        if !h.cursor.peek?.any isBlank then h.cursor.fail start .missingBlankInLine
        else
          let t ← scanTagName start [] (h.cursor.skipWhile isBlank)
          if !endsWord t.cursor.rest then t.cursor.fail start .missingBlank
          else pure (TokenKind.handle h.text t.text, t.cursor)
      else k.fail start .unknownDirective
    let k := (k.skipWhile isBlank).skipLineComment
    if endsWord k.rest then return (token, k.next) else k.fail start .trailingText

end Wordlang.Yaml
