import Wordlang.Yaml.Scalar

/-!
# Nodes of a YAML document

The tree that a document describes. Every node has the number of its line and a tag, given or
implied. An alias holds the node it stands for; inside of that node itself there is no such thing
yet, and only the shape of the node is known.
-/

namespace Wordlang.Yaml

/-- The shapes of nodes. -/
inductive Shape where
  /-- A scalar. -/
  | scalar
  /-- A sequence. -/
  | sequence
  /-- A mapping. -/
  | mapping
  deriving DecidableEq, Repr, Inhabited

/-- A node. -/
inductive Node where
  /-- A scalar: its text, before it is interpreted. -/
  | scalar (line : Nat) (tag : String) (text : String)
  /-- A sequence. -/
  | sequence (line : Nat) (tag : String) (items : List Node)
  /-- A mapping, with its keys in order. -/
  | mapping (line : Nat) (tag : String) (pairs : List (Node × Node))
  /-- An alias of another node. -/
  | reference (line : Nat) (name : String) (target : Node)
  /-- An alias of a node that it is part of, which has the given shape, tag and line. -/
  | loop (line : Nat) (name : String) (shape : Shape) (tag : String) (start : Nat)
  deriving Repr, Inhabited

namespace Node

/-- The line of a node. -/
def line : Node → Nat
  | scalar line .. | sequence line .. | mapping line .. | reference line .. | loop line .. => line

/-- Whether a node is a mapping. -/
def isMapping : Node → Bool
  | mapping .. => true
  | _ => false

/-- What two keys of one kind are compared by. -/
def label : Node → String
  | scalar _ _ text => text
  | reference _ name _ | loop _ name .. => name
  | sequence .. | mapping .. => ""

/-- The kinds of keys: scalars, sequences, mappings and aliases. -/
def keyKind : Node → Option Shape
  | scalar .. => some .scalar
  | sequence .. => some .sequence
  | mapping .. => some .mapping
  | reference .. | loop .. => none

/-- Whether two keys of a mapping count as the same. -/
def sameKey (a b : Node) : Bool := a.keyKind = b.keyKind && a.label = b.label

/-- Whether a key stands for the pairs of other mappings. -/
def isMerge : Node → Bool
  | scalar _ tag text => tag = "!!merge" && text = "<<"
  | _ => false

end Node

/-- What tags of the standard types start with when they are written out. -/
def standardTag : String := "tag:yaml.org,2002:"

/-- A tag with the standard start shortened. -/
def shortTag (tag : String) : String :=
  if standardTag.toList.isPrefixOf tag.toList then
    "!!" ++ String.ofList (tag.toList.drop standardTag.length)
  else tag

/-- The tag that counts if none is given; an exclamation mark alone gives none. -/
def tagOr (given : Option String) (implied : String) : String :=
  match given with
  | some tag => if tag = "" ∨ tag = "!" then implied else shortTag tag
  | none => implied

/-- The tag that a plain scalar implies. -/
def impliedTag (text : String) : String :=
  if text = "<<" then "!!merge" else (Kind.ofPlain true text).tag

end Wordlang.Yaml
