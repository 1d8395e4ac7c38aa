import Mathlib.Data.List.Basic
import Wordlang.Text.Utf8

/-!
# Decoding what was encoded

The bytes of a string are read as its characters: the first byte of a character tells how many
continuation bytes follow, and the payload of all of them is the character's number.
-/

namespace Wordlang.Text.Utf8

theorem toNat_ofNat_small {n : Nat} (h : n < 256) : (UInt8.ofNat n).toNat = n := by
  rw [UInt8.toNat_ofNat']
  exact Nat.mod_eq_of_lt h

/-! ## Continuation bytes -/

theorem isTail_ofNat (n : Nat) : isTail (UInt8.ofNat (n % 64 + 128)) = true := by
  have h := toNat_ofNat_small (n := n % 64 + 128) (by omega)
  simp only [isTail, Bool.and_eq_true, decide_eq_true_eq, UInt8.le_iff_toNat_le, h,
    UInt8.reduceToNat]
  omega

theorem payload_ofNat (n : Nat) : payload (UInt8.ofNat (n % 64 + 128)) = n % 64 := by
  rw [payload, toNat_ofNat_small (by omega)]
  omega

/-! ## Characters, by the number of their bytes -/

theorem leading?_one {v : Nat} (h : v ≤ 127) (rest : List UInt8) :
    leading? (UInt8.ofNat v) rest = some (Char.ofNat v, 0) := by
  have ha := toNat_ofNat_small (n := v) (by omega)
  have hlow : UInt8.ofNat v < 0x80 := by
    simp only [UInt8.lt_iff_toNat_lt, ha, UInt8.reduceToNat]
    omega
  simp only [leading?, if_pos hlow, ha]

theorem leading?_two {v : Nat} (h : 127 < v) (h' : v ≤ 2047) (rest : List UInt8) :
    leading? (UInt8.ofNat (v / 64 % 32 + 192)) (UInt8.ofNat (v % 64 + 128) :: rest) =
      some (Char.ofNat v, 1) := by
  have ha := toNat_ofNat_small (n := v / 64 % 32 + 192) (by omega)
  have hlow : ¬ UInt8.ofNat (v / 64 % 32 + 192) < 0x80 := by
    simp only [UInt8.lt_iff_toNat_lt, ha, UInt8.reduceToNat]
    omega
  have hpair : isPair (UInt8.ofNat (v / 64 % 32 + 192)) (UInt8.ofNat (v % 64 + 128)) = true := by
    simp only [isPair, isTail_ofNat, Bool.and_true, Bool.and_eq_true, decide_eq_true_eq,
      UInt8.le_iff_toNat_le, ha, UInt8.reduceToNat]
    omega
  have hvalue : (v / 64 % 32 + 192) % 0x20 * 0x40 + v % 64 = v := by omega
  simp only [leading?, if_neg hlow, hpair, if_true, payload_ofNat, ha, hvalue]

theorem leading?_three {v : Nat} (h : 2047 < v) (h' : v ≤ 65535) (hv : v < 0xD800 ∨ 0xDFFF < v)
    (rest : List UInt8) :
    leading? (UInt8.ofNat (v / 4096 % 16 + 224))
      (UInt8.ofNat (v / 64 % 64 + 128) :: UInt8.ofNat (v % 64 + 128) :: rest) =
      some (Char.ofNat v, 2) := by
  have ha := toNat_ofNat_small (n := v / 4096 % 16 + 224) (by omega)
  have hb := toNat_ofNat_small (n := v / 64 % 64 + 128) (by omega)
  have hlow : ¬ UInt8.ofNat (v / 4096 % 16 + 224) < 0x80 := by
    simp only [UInt8.lt_iff_toNat_lt, ha, UInt8.reduceToNat]
    omega
  have hpair : isPair (UInt8.ofNat (v / 4096 % 16 + 224)) (UInt8.ofNat (v / 64 % 64 + 128)) =
      false := by
    simp only [isPair, isTail_ofNat, Bool.and_true, Bool.and_eq_false_iff, decide_eq_false_iff_not,
      UInt8.le_iff_toNat_le, ha, UInt8.reduceToNat]
    omega
  have htriple : isTripleStart (UInt8.ofNat (v / 4096 % 16 + 224))
      (UInt8.ofNat (v / 64 % 64 + 128)) = true := by
    simp only [isTripleStart, isTail_ofNat, Bool.and_true, Bool.and_eq_true, Bool.or_eq_true,
      bne_iff_ne, ne_eq, decide_eq_true_eq, UInt8.le_iff_toNat_le, ← UInt8.toNat_inj, ha, hb,
      UInt8.reduceToNat]
    omega
  have hvalue : ((v / 4096 % 16 + 224) % 0x10 * 0x40 + v / 64 % 64) * 0x40 + v % 64 = v := by omega
  simp only [leading?, if_neg hlow, hpair, htriple, isTail_ofNat, Bool.and_self, if_true,
    payload_ofNat, ha, hvalue, Bool.false_eq_true, if_false]

theorem leading?_four {v : Nat} (h : 65535 < v) (h' : v < 0x110000) (rest : List UInt8) :
    leading? (UInt8.ofNat (v / 262144 % 8 + 240))
      (UInt8.ofNat (v / 4096 % 64 + 128) :: UInt8.ofNat (v / 64 % 64 + 128) ::
        UInt8.ofNat (v % 64 + 128) :: rest) = some (Char.ofNat v, 3) := by
  have ha := toNat_ofNat_small (n := v / 262144 % 8 + 240) (by omega)
  have hb := toNat_ofNat_small (n := v / 4096 % 64 + 128) (by omega)
  have hlow : ¬ UInt8.ofNat (v / 262144 % 8 + 240) < 0x80 := by
    simp only [UInt8.lt_iff_toNat_lt, ha, UInt8.reduceToNat]
    omega
  have hpair : isPair (UInt8.ofNat (v / 262144 % 8 + 240)) (UInt8.ofNat (v / 4096 % 64 + 128)) =
      false := by
    simp only [isPair, isTail_ofNat, Bool.and_true, Bool.and_eq_false_iff, decide_eq_false_iff_not,
      UInt8.le_iff_toNat_le, ha, UInt8.reduceToNat]
    omega
  have htriple : isTripleStart (UInt8.ofNat (v / 262144 % 8 + 240))
      (UInt8.ofNat (v / 4096 % 64 + 128)) = false := by
    have hhigh : ¬ v / 262144 % 8 + 240 ≤ 239 := by omega
    simp only [isTripleStart, UInt8.le_iff_toNat_le, ha, UInt8.reduceToNat, hhigh, decide_false,
      Bool.and_false, Bool.false_and]
  have hquad : isQuadStart (UInt8.ofNat (v / 262144 % 8 + 240))
      (UInt8.ofNat (v / 4096 % 64 + 128)) = true := by
    simp only [isQuadStart, isTail_ofNat, Bool.and_true, Bool.and_eq_true, Bool.or_eq_true,
      bne_iff_ne, ne_eq, decide_eq_true_eq, UInt8.le_iff_toNat_le, ← UInt8.toNat_inj, ha, hb,
      UInt8.reduceToNat]
    omega
  have hvalue : (((v / 262144 % 8 + 240) % 0x08 * 0x40 + v / 4096 % 64) * 0x40 + v / 64 % 64) * 0x40
      + v % 64 = v := by omega
  simp only [leading?, if_neg hlow, hpair, htriple, hquad, isTail_ofNat, Bool.and_self,
    Bool.false_and, if_true, payload_ofNat, ha, hvalue, Bool.false_eq_true, if_false]

/-- The bytes of a character are read as the character. -/
theorem leading?_utf8EncodeChar (c : Char) (rest : List UInt8) :
    ∃ a tail, String.utf8EncodeChar c = a :: tail ∧
      leading? a (tail ++ rest) = some (c, tail.length) := by
  have hvalid : c.toNat < 0xD800 ∨ 0xDFFF < c.toNat ∧ c.toNat < 0x110000 := c.valid
  have hval : c.val.toNat = c.toNat := rfl
  have hback : Char.ofNat c.toNat = c := Char.ofNat_toNat c
  rw [String.utf8EncodeChar, hval]
  split
  · next h => exact ⟨_, _, rfl, by simpa [hback] using leading?_one h rest⟩
  split
  · next h h' => exact ⟨_, _, rfl, by simpa [hback] using leading?_two (by omega) h' rest⟩
  split
  · next h h' =>
    exact ⟨_, _, rfl, by simpa [hback] using leading?_three (by omega) h' (by omega) rest⟩
  · next h =>
    have hfour := leading?_four (v := c.toNat) (by omega) (by omega) rest
    exact ⟨_, _, rfl, by simpa [hback] using hfour⟩

theorem decodeFrom_length (tail rest : List UInt8) :
    decodeFrom tail.length (tail ++ rest) = decodeFrom 0 rest := by
  induction tail with
  | nil => rfl
  | cons b tail ih => exact ih

theorem decode_flatMap (cs : List Char) :
    decode (cs.flatMap String.utf8EncodeChar) = cs.map Glyph.char := by
  rw [decode]
  induction cs with
  | nil => rfl
  | cons c cs ih =>
    obtain ⟨a, tail, hbytes, hread⟩ := leading?_utf8EncodeChar c (cs.flatMap String.utf8EncodeChar)
    rw [List.flatMap_cons, hbytes, List.cons_append, decodeFrom, hread]
    dsimp only
    rw [decodeFrom_length, ih, List.map_cons]

theorem toList_eq (b : ByteArray) : b.toList = b.data.toList := by
  have hloop : ∀ i r, ByteArray.toList.loop b i r = r.reverse ++ b.data.toList.drop i := by
    intro i r
    fun_induction ByteArray.toList.loop b i r with
    | case1 i r h ih =>
      have hi : i < b.data.toList.length := h
      have hget : b.get! i = b.data.toList[i] := getElem!_pos b.data i h
      rw [ih, hget, List.reverse_cons, List.append_assoc, List.singleton_append,
        List.getElem_cons_drop]
    | case2 i r h =>
      have hi : b.data.toList.length ≤ i := Nat.le_of_not_lt h
      rw [List.drop_eq_nil_of_le hi, List.append_nil]
  rw [ByteArray.toList, hloop]
  rfl

theorem ofString_eq (s : String) : ofString s = s.toList.flatMap String.utf8EncodeChar := by
  rw [ofString, String.toUTF8, toList_eq, ← String.utf8Encode_toList, List.utf8Encode,
    List.toList_data_toByteArray]

/-- The bytes of a string are read as its characters. -/
theorem decode_ofString (s : String) : decode (ofString s) = s.toList.map Glyph.char := by
  rw [ofString_eq, decode_flatMap]

theorem ofString_injective : Function.Injective ofString := by
  intro a b h
  have hglyphs := congrArg decode h
  rw [decode_ofString, decode_ofString] at hglyphs
  apply String.toList_inj.1
  exact List.map_injective_iff.2 (fun _ _ => Glyph.char.inj) hglyphs

end Wordlang.Text.Utf8
