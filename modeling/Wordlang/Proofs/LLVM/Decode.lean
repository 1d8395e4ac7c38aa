import Wordlang.Proofs.LLVM.Tokens
import Wordlang.Proofs.Utf8

/-!
# Reading symbols and quoted bytes

The inverse of writing bytes between quotes, and of writing symbols. Symbols are read as bytes: a
symbol is a text in the module, but the rule by which it is written looks at the bytes of the text
only, and goes for bytes that are no text as well (`symbol_eq`).
-/

namespace Wordlang.LLVM

open Reader

/-- The value of an upper-case hexadecimal digit. -/
def hexValue? (c : Char) : Option Nat :=
  if '0' ≤ c ∧ c ≤ '9' then some (c.toNat - '0'.toNat)
  else if 'A' ≤ c ∧ c ≤ 'F' then some (c.toNat - 'A'.toNat + 10)
  else none

/-- Reads bytes as they are written between quotes. -/
def readBytes : List Char → Option (List UInt8)
  | [] => some []
  | c :: cs =>
    if c = '\\' then
      match cs with
      | high :: low :: cs => do
        let b := 16 * (← hexValue? high) + (← hexValue? low)
        return UInt8.ofNat b :: (← readBytes cs)
      | _ => none
    else if c.toNat < 0x80 then (readBytes cs).map (UInt8.ofNat c.toNat :: ·)
    else none

/-- Reads a symbol, plain or between quotes. -/
def readSymbol : List Char → Option (List UInt8)
  | '@' :: '"' :: cs => if cs.getLast? = some '"' then readBytes cs.dropLast else none
  | '@' :: cs => readBytes cs
  | _ => none

/-- The text with a character for each byte. -/
def byteText (bytes : List UInt8) : String := String.ofList (bytes.map fun b => Char.ofNat b.toNat)

/-- The bytes of a text with a character for each byte. -/
def charBytes (text : String) : List UInt8 := text.toList.map fun c => UInt8.ofNat c.toNat

/-- The symbol with the given bytes, as it is written. -/
def symbolOfBytes (bytes : List UInt8) : String :=
  if isPlainSymbol (byteText bytes) then "@" ++ byteText bytes
  else "@\"" ++ escape bytes ++ "\""

/-! ## Bytes between quotes -/

theorem hexValue?_hexDigit {n : Nat} (h : n < 16) : hexValue? (hexDigit n) = some n := by
  have hall : ∀ n < 16, hexValue? (hexDigit n) = some n := by decide
  exact hall n h

theorem escapeByte_plain {b : UInt8} (h : needsEscape b = false) :
    Char.ofNat b.toNat ≠ '\\' ∧ (Char.ofNat b.toNat).toNat = b.toNat ∧ b.toNat < 0x80 := by
  have hall : ∀ b : UInt8, needsEscape b = false → Char.ofNat b.toNat ≠ '\\' ∧
      (Char.ofNat b.toNat).toNat = b.toNat ∧ b.toNat < 0x80 := forall_byte (by decide +kernel)
  exact hall b h

theorem escapeByte_printable (b : UInt8) :
    ∀ c ∈ escapeByte b, 0x20 ≤ c.toNat ∧ c.toNat ≤ 0x7E ∧ c.toNat ≠ 0x22 := by
  have hall : ∀ b, (escapeByte b).all
      (fun c => 0x20 ≤ c.toNat ∧ c.toNat ≤ 0x7E ∧ c.toNat ≠ 0x22) = true :=
    forall_byte (by decide +kernel)
  exact fun c hc => of_decide_eq_true (List.all_eq_true.1 (hall b) c hc)

theorem readBytes_cons {c : Char} (hc : c ≠ '\\') (hlt : c.toNat < 0x80) (cs : List Char) :
    readBytes (c :: cs) = (readBytes cs).map (UInt8.ofNat c.toNat :: ·) := by
  rw [readBytes.eq_def]
  dsimp only
  rw [if_neg hc, if_pos hlt]

theorem readBytes_escapeByte (b : UInt8) (cs : List Char) :
    readBytes (escapeByte b ++ cs) = (readBytes cs).map (b :: ·) := by
  unfold escapeByte
  by_cases hb : needsEscape b = true
  · rw [if_pos hb]
    have hlt := b.toNat_lt
    have hbyte : 16 * (b.toNat / 16) + b.toNat % 16 = b.toNat := by omega
    have hhigh := hexValue?_hexDigit (n := b.toNat / 16) (by omega)
    have hlow := hexValue?_hexDigit (n := b.toNat % 16) (by omega)
    show readBytes ('\\' :: hexDigit (b.toNat / 16) :: hexDigit (b.toNat % 16) :: cs) = _
    simp only [readBytes, if_true, hhigh, hlow, Option.bind_eq_bind, Option.bind_some, hbyte,
      UInt8.ofNat_toNat]
    cases readBytes cs <;> rfl
  · rw [if_neg hb]
    obtain ⟨hc, hn, hlt⟩ := escapeByte_plain (Bool.not_eq_true _ ▸ hb)
    rw [List.singleton_append, readBytes_cons hc (by omega), hn, UInt8.ofNat_toNat]

/-- What is written between quotes is read back. -/
theorem readBytes_escape (bytes : List UInt8) : readBytes (escape bytes).toList = some bytes := by
  rw [escape, String.toList_ofList]
  induction bytes with
  | nil => rfl
  | cons b bytes ih => rw [List.flatMap_cons, readBytes_escapeByte, ih, Option.map_some]

/-! ## Symbols -/

theorem symbolChar_ascii {c : Char} (h : isSymbolChar c = true) :
    c ≠ '\\' ∧ c ≠ '"' ∧ c.toNat < 0x80 := by
  have hrange : ∀ {a z : Char}, a ≤ c → c ≤ z → a.toNat ≤ c.toNat ∧ c.toNat ≤ z.toNat :=
    fun ha hz => ⟨UInt32.le_iff_toNat_le.1 ha, UInt32.le_iff_toNat_le.1 hz⟩
  have hn : c.toNat < 0x80 ∧ c.toNat ≠ '\\'.toNat ∧ c.toNat ≠ '"'.toNat := by
    simp only [isSymbolChar, isSymbolStart, Bool.or_eq_true, Bool.and_eq_true, decide_eq_true_eq,
      beq_iff_eq] at h
    rcases h with (((((⟨ha, hz⟩ | ⟨ha, hz⟩) | rfl) | rfl) | rfl) | rfl) | ⟨ha, hz⟩
    · have := hrange ha hz
      simp at this ⊢
      omega
    · have := hrange ha hz
      simp at this ⊢
      omega
    · decide
    · decide
    · decide
    · decide
    · have := hrange ha hz
      simp at this ⊢
      omega
  exact ⟨fun hc => hn.2.1 (congrArg Char.toNat hc), fun hc => hn.2.2 (congrArg Char.toNat hc), hn.1⟩

theorem readBytes_plain {cs : List Char} (h : ∀ c ∈ cs, isSymbolChar c = true) :
    readBytes cs = some (cs.map fun c => UInt8.ofNat c.toNat) := by
  induction cs with
  | nil => rfl
  | cons c cs ih =>
    obtain ⟨hc, hcs⟩ := List.forall_mem_cons.1 h
    obtain ⟨hne, -, hlt⟩ := symbolChar_ascii hc
    rw [readBytes_cons hne hlt, ih hcs]
    rfl

theorem toNat_byteChar (b : UInt8) : (Char.ofNat b.toNat).toNat = b.toNat := by
  have hall : ∀ n < 256, (Char.ofNat n).toNat = n := by decide +kernel
  exact hall b.toNat b.toNat_lt

theorem charBytes_byteText (bytes : List UInt8) : charBytes (byteText bytes) = bytes := by
  rw [charBytes, byteText, String.toList_ofList, List.map_map]
  conv_rhs => rw [← List.map_id bytes]
  apply List.map_congr_left
  intro b _
  show UInt8.ofNat (Char.ofNat b.toNat).toNat = b
  rw [toNat_byteChar, UInt8.ofNat_toNat]

theorem byteText_append (as bs : List UInt8) :
    byteText (as ++ bs) = byteText as ++ byteText bs := by
  rw [byteText, List.map_append, String.ofList_append]
  rfl

/-- What follows the `@` of a plain symbol is no quote. -/
theorem readSymbol_plain {cs : List Char} (h : ∀ c ∈ cs, isSymbolChar c = true) :
    readSymbol ('@' :: cs) = readBytes cs := by
  cases cs with
  | nil => rfl
  | cons c cs =>
    have hc := (symbolChar_ascii (h c List.mem_cons_self)).2.1
    rw [readSymbol]
    rintro rest ⟨⟩
    exact hc rfl

/-- A symbol that is written is read back. -/
theorem readSymbol_symbolOfBytes (bytes : List UInt8) :
    readSymbol (symbolOfBytes bytes).toList = some bytes := by
  unfold symbolOfBytes
  by_cases hplain : isPlainSymbol (byteText bytes) = true
  · rw [if_pos hplain]
    have hchars := isSymbolChar_of_isPlainSymbol hplain
    rw [String.toList_append]
    show readSymbol ('@' :: (byteText bytes).toList) = _
    rw [readSymbol_plain hchars, readBytes_plain hchars]
    exact congrArg some (charBytes_byteText bytes)
  · rw [if_neg hplain]
    have htext : ("@\"" ++ escape bytes ++ "\"").toList =
        '@' :: '"' :: ((escape bytes).toList ++ ['"']) := by
      simp
    rw [htext, readSymbol, List.getLast?_concat, if_pos rfl, List.dropLast_concat, readBytes_escape]

theorem symbolOfBytes_injective : Function.Injective symbolOfBytes := by
  intro a b h
  have hread := readSymbol_symbolOfBytes a
  rw [h, readSymbol_symbolOfBytes] at hread
  exact (Option.some.inj hread).symm

/-! ## Symbols that are texts -/

/-- A character of ASCII is one byte, and every other one starts with a byte above ASCII. -/
theorem utf8EncodeChar_cases (c : Char) :
    (c.toNat < 0x80 ∧ String.utf8EncodeChar c = [UInt8.ofNat c.toNat]) ∨
      0x80 ≤ c.toNat ∧ ∃ b ∈ String.utf8EncodeChar c, 0x80 ≤ b.toNat := by
  have hhigh : ∀ {n : Nat} {bs : List UInt8}, 0x80 ≤ n → n < 256 →
      ∃ b ∈ UInt8.ofNat n :: bs, 0x80 ≤ b.toNat := fun {n _} h h' =>
    ⟨_, List.mem_cons_self, by rw [Text.Utf8.toNat_ofNat_small h']; exact h⟩
  have hval : c.val.toNat = c.toNat := rfl
  rw [String.utf8EncodeChar, hval]
  split
  · next h => exact .inl ⟨by omega, rfl⟩
  split
  · exact .inr ⟨by omega, hhigh (by omega) (by omega)⟩
  split
  · exact .inr ⟨by omega, hhigh (by omega) (by omega)⟩
  · exact .inr ⟨by omega, hhigh (by omega) (by omega)⟩

theorem byteText_ofString {name : String} (h : ∀ c ∈ name.toList, c.toNat < 0x80) :
    byteText (Text.Utf8.ofString name) = name := by
  rw [byteText, Text.Utf8.ofString_eq, List.map_flatMap]
  apply String.toList_inj.1
  rw [String.toList_ofList]
  conv_rhs => rw [← List.flatMap_singleton' name.toList]
  apply List.flatMap_congr
  intro c hc
  rcases utf8EncodeChar_cases c with ⟨hlt, hbytes⟩ | ⟨hhigh, -⟩
  · rw [hbytes, List.map_singleton, Text.Utf8.toNat_ofNat_small (by omega), Char.ofNat_toNat]
  · exact absurd (h c hc) (by omega)

/-- Only texts of ASCII characters are plain, and so are their bytes. -/
theorem ascii_of_plain_bytes {name : String}
    (h : isPlainSymbol (byteText (Text.Utf8.ofString name)) = true) :
    ∀ c ∈ name.toList, c.toNat < 0x80 := by
  intro c hc
  rcases utf8EncodeChar_cases c with ⟨hlt, -⟩ | ⟨-, b, hb, hhigh⟩
  · exact hlt
  · have hmem : Char.ofNat b.toNat ∈ (byteText (Text.Utf8.ofString name)).toList := by
      rw [byteText, String.toList_ofList, Text.Utf8.ofString_eq]
      exact List.mem_map_of_mem (List.mem_flatMap.2 ⟨c, hc, hb⟩)
    have hlow := (symbolChar_ascii (isSymbolChar_of_isPlainSymbol h _ hmem)).2.2
    rw [toNat_byteChar] at hlow
    omega

/-- A symbol is written by its bytes. -/
theorem symbol_eq (name : String) : symbol name = symbolOfBytes (Text.Utf8.ofString name) := by
  unfold symbol symbolOfBytes
  by_cases hascii : ∀ c ∈ name.toList, c.toNat < 0x80
  · rw [byteText_ofString hascii]
  · rw [if_neg, if_neg]
    · exact fun h => hascii (ascii_of_plain_bytes h)
    · exact fun h => hascii fun c hc =>
        (symbolChar_ascii (isSymbolChar_of_isPlainSymbol h c hc)).2.2

end Wordlang.LLVM
