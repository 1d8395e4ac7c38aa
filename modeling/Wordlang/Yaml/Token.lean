import Wordlang.Yaml.Cursor

/-!
# Tokens of a YAML text

What a text is cut into. Indentation becomes visible: a block collection starts with a token of its
own and ends with another, and a key is announced by a token even where the text has no `?`.
-/

namespace Wordlang.Yaml

/-- How a scalar is written. -/
inductive Style where
  /-- Without any mark. -/
  | plain
  /-- Between quotes of either kind, or as a block. -/
  | quoted
  deriving DecidableEq, Repr, Inhabited

/-- The kinds of tokens. -/
inductive TokenKind where
  /-- `%YAML` and a version. -/
  | version (major minor : Nat)
  /-- `%TAG`, a handle and what it stands for. -/
  | handle (name meaning : String)
  /-- `---`. -/
  | documentStart
  /-- `...`. -/
  | documentEnd
  /-- The end of the text. -/
  | streamEnd
  /-- The start of a sequence by indentation. -/
  | blockSequence
  /-- The start of a mapping by indentation. -/
  | blockMapping
  /-- The end of a collection by indentation. -/
  | blockEnd
  /-- `[`. -/
  | openBracket
  /-- `]`. -/
  | closeBracket
  /-- An opening brace. -/
  | openBrace
  /-- A closing brace. -/
  | closeBrace
  /-- `,` inside brackets or braces. -/
  | comma
  /-- `-` before an entry. -/
  | entry
  /-- A key follows. -/
  | key
  /-- `:` before a value. -/
  | value
  /-- `*` and a name. -/
  | reference (name : String)
  /-- `&` and a name. -/
  | anchor (name : String)
  /-- A tag: its handle, empty if it is written out, and what follows. -/
  | tag (handle suffix : String)
  /-- A scalar. -/
  | scalar (text : String) (style : Style)
  deriving DecidableEq, Repr, Inhabited

/-- A token and the line it starts on, counted from zero. -/
structure Token where
  /-- The line. -/
  line : Nat
  /-- What it is. -/
  kind : TokenKind
  deriving DecidableEq, Repr, Inhabited

end Wordlang.Yaml
