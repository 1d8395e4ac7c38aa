import Wordlang.Position
import Wordlang.Text.Utf8

/-!
# Sources

A source is a named input: its bytes, or the reason why they could not be read. Before it is cut
into tokens, its bytes are decoded and every glyph gets its position; the position after the last
glyph is where the input ends.
-/

namespace Wordlang

open Text (Glyph)

/-- A named input. -/
structure Source where
  /-- The name that positions carry. -/
  file : String
  /-- The bytes, or why they could not be read. -/
  content : Except String (List UInt8)

/-- A glyph and where it stands. -/
structure Located where
  /-- The glyph. -/
  glyph : Glyph
  /-- Its position. -/
  pos : Position
  deriving DecidableEq, Repr, Inhabited

/-- The character a located glyph is read as. -/
def Located.char (l : Located) : Char := l.glyph.toChar

/-- Gives each glyph its position, the first of them `p`. -/
def locate (p : Position) : List Glyph → List Located
  | [] => []
  | g :: gs => ⟨g, p⟩ :: locate (p.after g.toChar) gs

/-- The position after all of the glyphs, of which the first stands at `p`. -/
def positionAfter (p : Position) : List Glyph → Position
  | [] => p
  | g :: gs => positionAfter (p.after g.toChar) gs

namespace Source

/-- A source with the given bytes. -/
def ofBytes (file : String) (bytes : List UInt8) : Source := ⟨file, .ok bytes⟩

/-- Where the first character of a source stands. -/
def start (s : Source) : Position := ⟨s.file, 1, 1⟩

/-- The decoded text; an unreadable source has none. -/
def glyphs (s : Source) : List Glyph :=
  match s.content with
  | .ok bytes => Text.Utf8.decode bytes
  | .error _ => []

/-- The located glyphs of the source. -/
def located (s : Source) : List Located := locate s.start s.glyphs

/-- Where the input ends. -/
def stop (s : Source) : Position := positionAfter s.start s.glyphs

end Source

end Wordlang
