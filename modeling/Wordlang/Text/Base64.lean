/-!
# Base 64

Bytes written with sixty-four characters, three bytes as four of them and the last ones padded with
equals signs. Line breaks do not count.
-/

namespace Wordlang.Text.Base64

/-- The value of one of the sixty-four characters. -/
def digit? (c : Char) : Option Nat :=
  if 'A' ≤ c && c ≤ 'Z' then some (c.toNat - 'A'.toNat)
  else if 'a' ≤ c && c ≤ 'z' then some (c.toNat - 'a'.toNat + 26)
  else if '0' ≤ c && c ≤ '9' then some (c.toNat - '0'.toNat + 52)
  else if c = '+' then some 62
  else if c = '/' then some 63
  else none

/-- The first `n` of the three bytes that four digits make up. -/
def bytes (n a b c d : Nat) : List UInt8 :=
  let v := ((a * 64 + b) * 64 + c) * 64 + d
  [(v / 65536).toUInt8, (v / 256).toUInt8, v.toUInt8].take n

/-- The bytes that characters without line breaks stand for. -/
def groups? : List Char → Option (List UInt8)
  | [] => some []
  | [a, b, '=', '='] => do return bytes 1 (← digit? a) (← digit? b) 0 0
  | [a, b, c, '='] => do return bytes 2 (← digit? a) (← digit? b) (← digit? c) 0
  | a :: b :: c :: d :: rest => do
    return bytes 3 (← digit? a) (← digit? b) (← digit? c) (← digit? d) ++ (← groups? rest)
  | _ => none

/-- The bytes that a text stands for. -/
def decode? (s : String) : Option (List UInt8) :=
  groups? (s.toList.filter fun c => c != '\n' && c != '\r')

end Wordlang.Text.Base64
