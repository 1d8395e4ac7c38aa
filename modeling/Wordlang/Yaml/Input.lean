import Wordlang.Text.Utf8
import Wordlang.Yaml.Fault

/-!
# Characters of a YAML text

A text is UTF-8, or UTF-16 if it starts with the byte order mark of that encoding; a byte order mark
at the start is not part of the text. Most control characters are not allowed.

The three ways to end a line that ASCII and Latin-1 offer count as one, and the characters come out
with a line feed for each of them.
-/

namespace Wordlang.Yaml

open Text.Utf8 (payload)

/-- Whether a character may stand in a text. -/
def isAllowed (c : Char) : Bool :=
  c = '\t' || c = '\n' || c = '\r' || (' ' ≤ c && c ≤ '~') || c = '\u0085' ||
    ('\u00A0' ≤ c && c ≤ '\uFFFD') || 0x10000 ≤ c.toNat

/-- How many bytes follow a leading byte, and the bits that the leading byte gives. -/
def tailLength? (b : UInt8) : Option (Nat × Nat) :=
  if b < 0x80 then some (0, b.toNat)
  else if b < 0xC0 then none
  else if b < 0xE0 then some (1, b.toNat % 0x20)
  else if b < 0xF0 then some (2, b.toNat % 0x10)
  else if b < 0xF8 then some (3, b.toNat % 0x08)
  else none

/-- The least number that takes as many trailing bytes. -/
def leastWithTail : Nat → Nat
  | 0 => 0
  | 1 => 0x80
  | 2 => 0x800
  | _ => 0x10000

/-- Whether a number is that of a character. -/
def isScalar (n : Nat) : Bool := n < 0xD800 || (0xDFFF < n && n ≤ 0x10FFFF)

/-- The character of a number, if it may stand in a text. -/
def allowed (n : Nat) : Except Problem Char :=
  if isAllowed (Char.ofNat n) then .ok (Char.ofNat n) else .error .controlCharacter

/-- The character that starts with the byte `b`, and how many of the bytes behind it belong to
it. -/
def utf8Char (b : UInt8) (rest : List UInt8) : Except Problem (Char × Nat) :=
  match tailLength? b with
  | none => .error .badLeadingByte
  | some (more, bits) =>
    let tail := rest.take more
    let n := tail.foldl (fun n b => n * 0x40 + payload b) bits
    if tail.length < more then .error .cutCharacter
    else if tail.any (!Text.Utf8.isTail ·) then .error .badTrailingByte
    else if n < leastWithTail more then .error .overlongCharacter
    else if !isScalar n then .error .noCharacter
    else (allowed n).map (·, more)

/-- The characters of UTF-8 bytes after the first `skip` of them. -/
def utf8Chars (skip : Nat) : List UInt8 → Except Problem (List Char)
  | [] => .ok []
  | b :: rest =>
    match skip with
    | skip + 1 => utf8Chars skip rest
    | 0 => do
      let (c, more) ← utf8Char b rest
      return c :: (← utf8Chars more rest)

/-- The characters of UTF-16 units. -/
def utf16Chars : List Nat → Except Problem (List Char)
  | [] => .ok []
  | u :: rest =>
    if 0xDC00 ≤ u ∧ u ≤ 0xDFFF then .error .strayLowSurrogate
    else if 0xD800 ≤ u ∧ u ≤ 0xDBFF then
      match rest with
      | [] => .error .cutPair
      | v :: rest =>
        if 0xDC00 ≤ v ∧ v ≤ 0xDFFF then do
          let c ← allowed (0x10000 + (u - 0xD800) * 0x400 + (v - 0xDC00))
          return c :: (← utf16Chars rest)
        else .error .missingLowSurrogate
    else do
      let c ← allowed u
      return c :: (← utf16Chars rest)

/-- Bytes two by two as units, the byte of less weight first if `little`; and whether a byte is left
over. -/
def units (little : Bool) : List UInt8 → List Nat × Bool
  | a :: b :: rest =>
    let (us, odd) := units little rest
    ((if little then a.toNat + b.toNat * 256 else a.toNat * 256 + b.toNat) :: us, odd)
  | [] => ([], false)
  | [_] => ([], true)

/-- The characters of UTF-16 bytes. -/
def utf16 (little : Bool) (bytes : List UInt8) : Except Problem (List Char) := do
  let (us, odd) := units little bytes
  let cs ← utf16Chars us
  if odd then .error .cutUnit else .ok cs

/-- The characters of bytes in the encoding that their byte order mark announces. -/
def decodeBytes : List UInt8 → Except Problem (List Char)
  | 0xFF :: 0xFE :: rest => utf16 true rest
  | 0xFE :: 0xFF :: rest => utf16 false rest
  | 0xEF :: 0xBB :: 0xBF :: rest => utf8Chars 0 rest
  | bytes => utf8Chars 0 bytes

/-- One line feed for each end of a line, except for the two separators that Unicode adds. -/
def unifyBreaks : List Char → List Char
  | '\r' :: '\n' :: rest => '\n' :: unifyBreaks rest
  | c :: rest => (if c = '\r' ∨ c = '\u0085' then '\n' else c) :: unifyBreaks rest
  | [] => []

/-- The characters of a text. -/
def characters (content : Except String (List UInt8)) : Except Fault (List Char) :=
  match content with
  | .error reason => .error ⟨none, .unreadable reason⟩
  | .ok bytes =>
    match decodeBytes bytes with
    | .error problem => .error ⟨none, problem⟩
    | .ok cs => .ok (unifyBreaks cs)

end Wordlang.Yaml
