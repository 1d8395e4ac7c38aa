/-!
# UTF-8 text with stray bytes

A source file, a string constant or a configuration file arrives as bytes. `decode` reads them as
UTF-8 and never fails: a byte that does not start a well-formed sequence is kept as a *stray* byte
of its own, and reading goes on with the byte after it. `encode` writes the bytes back, so nothing
is lost either way.

Well-formed means what the Unicode standard says: shortest form only, no surrogates, nothing above
`U+10FFFF`.
-/

namespace Wordlang.Text

/-- One unit of decoded text: a character, or a byte that belongs to none. -/
inductive Glyph where
  /-- A well-encoded character. -/
  | char (c : Char)
  /-- A byte that starts no well-formed sequence. -/
  | stray (b : UInt8)
  deriving DecidableEq, Repr, Inhabited

/-- The character that stands for a stray byte wherever text has to be shown, `U+FFFD`. -/
def replacement : Char := '\uFFFD'

namespace Glyph

/-- The character a glyph is read as. -/
def toChar : Glyph → Char
  | .char c => c
  | .stray _ => replacement

/-- Whether the glyph is a byte that UTF-8 rejects. -/
def isStray : Glyph → Bool
  | .char _ => false
  | .stray _ => true

end Glyph

namespace Utf8

/-- A continuation byte, `80` to `BF`. -/
def isTail (b : UInt8) : Bool := 0x80 ≤ b && b ≤ 0xBF

/-- `a b` starts a character of two bytes. -/
def isPair (a b : UInt8) : Bool := 0xC2 ≤ a && a ≤ 0xDF && isTail b

/-- `a b` starts a character of three bytes: `E0` needs a high continuation byte (shortest form) and
`ED` a low one (no surrogates). -/
def isTripleStart (a b : UInt8) : Bool :=
  0xE0 ≤ a && a ≤ 0xEF && isTail b && (a != 0xE0 || 0xA0 ≤ b) && (a != 0xED || b ≤ 0x9F)

/-- `a b` starts a character of four bytes: `F0` needs a continuation byte from `90` (shortest
form) and `F4` one up to `8F` (nothing above `U+10FFFF`). -/
def isQuadStart (a b : UInt8) : Bool :=
  0xF0 ≤ a && a ≤ 0xF4 && isTail b && (a != 0xF0 || 0x90 ≤ b) && (a != 0xF4 || b ≤ 0x8F)

/-- The six payload bits of a continuation byte. -/
def payload (b : UInt8) : Nat := b.toNat % 0x40

/-- The character that starts with the byte `a` and goes on in `rest`, with the number of
continuation bytes it takes; `none` if the bytes start no well-formed sequence. -/
def leading? (a : UInt8) (rest : List UInt8) : Option (Char × Nat) :=
  if a < 0x80 then some (Char.ofNat a.toNat, 0)
  else match rest with
    | [] => none
    | b :: rest =>
      if isPair a b then some (Char.ofNat (a.toNat % 0x20 * 0x40 + payload b), 1)
      else match rest with
        | [] => none
        | c :: rest =>
          if isTripleStart a b && isTail c then
            some (Char.ofNat ((a.toNat % 0x10 * 0x40 + payload b) * 0x40 + payload c), 2)
          else match rest with
            | [] => none
            | d :: _ =>
              if isQuadStart a b && isTail c && isTail d then
                some (Char.ofNat (((a.toNat % 0x08 * 0x40 + payload b) * 0x40 + payload c) * 0x40
                  + payload d), 3)
              else none

/-- Decoding that first passes over `skip` bytes, the continuation bytes of a character already
read. -/
def decodeFrom (skip : Nat) : List UInt8 → List Glyph
  | [] => []
  | a :: rest =>
    match skip with
    | skip + 1 => decodeFrom skip rest
    | 0 =>
      match leading? a rest with
      | some (c, more) => .char c :: decodeFrom more rest
      | none => .stray a :: decodeFrom 0 rest

/-- Reads bytes as UTF-8; each byte that starts no well-formed sequence becomes a stray glyph. -/
def decode (bytes : List UInt8) : List Glyph := decodeFrom 0 bytes

/-- The bytes of one glyph. -/
def encodeGlyph : Glyph → List UInt8
  | .char c => String.utf8EncodeChar c
  | .stray b => [b]

/-- The bytes of decoded text. -/
def encode (gs : List Glyph) : List UInt8 := gs.flatMap encodeGlyph

/-- The bytes of a string. -/
def ofString (s : String) : List UInt8 := s.toUTF8.toList

/-- Decoded text as a string, each stray byte shown as `replacement`. -/
def toText (gs : List Glyph) : String := String.ofList (gs.map Glyph.toChar)

end Utf8

end Wordlang.Text
