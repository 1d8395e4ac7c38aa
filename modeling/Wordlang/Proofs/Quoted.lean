import Mathlib.Algebra.Group.Nat.Defs
import Mathlib.Data.List.Basic
import Wordlang.Text.Quoted

/-!
# Quoted text is read back

The quoted form of a text ends where its closing quote does, and two texts have the same quoted form
only if they are the same: each character can be read back from the front of what is written for it,
whatever follows. No quoted form has a line break in it.
-/

namespace Wordlang.Text

/-! ## Hexadecimal numbers -/

namespace Quoted

/-- The value of a hexadecimal digit. -/
def hexValue (c : Char) : Nat := if c.isDigit then c.toNat - '0'.toNat else c.toNat - 'a'.toNat + 10

/-- The number that hexadecimal digits spell. -/
def fromHex (ds : List Char) : Nat := ds.foldl (fun n c => 16 * n + hexValue c) 0

theorem hexValue_digitChar {n : Nat} (h : n < 16) : hexValue n.digitChar = n := by
  have hall : ∀ n < 16, hexValue (Nat.digitChar n) = n := by decide
  exact hall n h

theorem fromHex_concat (ds : List Char) (c : Char) :
    fromHex (ds ++ [c]) = 16 * fromHex ds + hexValue c := by
  rw [fromHex, List.foldl_append]
  rfl

theorem fromHex_toDigits (n : Nat) : fromHex (Nat.toDigits 16 n) = n := by
  induction n using Nat.strongRecOn with
  | ind n ih =>
    rcases Nat.lt_or_ge n 16 with h | h
    · rw [Nat.toDigits_of_lt_base h]
      show 16 * 0 + hexValue n.digitChar = n
      rw [hexValue_digitChar h, Nat.mul_zero, Nat.zero_add]
    · rw [Nat.toDigits_of_base_le (by decide) h, fromHex_concat, ih (n / 16) (by omega),
        hexValue_digitChar (Nat.mod_lt n (by decide)), Nat.div_add_mod]

theorem fromHex_hex (width n : Nat) : fromHex (hex width n) = n := by
  have hzeros : ∀ k ds, fromHex (List.replicate k '0' ++ ds) = fromHex ds := by
    intro k ds
    induction k with
    | zero => rfl
    | succ k ih => exact ih
  rw [hex, hzeros, fromHex_toDigits]

/-- A number that is not too large is written with the given number of digits. -/
theorem length_hex {width n : Nat} (hwidth : 0 < width) (h : n < 16 ^ width) :
    (hex width n).length = width := by
  have hle := (Nat.length_toDigits_le_iff (by decide) hwidth).2 h
  rw [hex, List.length_append, List.length_replicate]
  omega

theorem mem_toDigits {n : Nat} {c : Char} (h : c ∈ Nat.toDigits 16 n) :
    ∃ d < 16, c = Nat.digitChar d := by
  induction n using Nat.strongRecOn with
  | ind n ih =>
    rcases Nat.lt_or_ge n 16 with hn | hn
    · rw [Nat.toDigits_of_lt_base hn] at h
      exact ⟨n, hn, List.mem_singleton.1 h⟩
    · rw [Nat.toDigits_of_base_le (by decide) hn] at h
      rcases List.mem_append.1 h with h | h
      · exact ih (n / 16) (by omega) h
      · exact ⟨n % 16, Nat.mod_lt n (by decide), List.mem_singleton.1 h⟩

theorem lineFeed_notMem_hex (width n : Nat) : '\n' ∉ hex width n := by
  intro h
  rcases List.mem_append.1 h with h | h
  · exact absurd (List.eq_of_mem_replicate h) (by decide)
  · obtain ⟨d, hd, heq⟩ := mem_toDigits h
    have hall : ∀ d < 16, '\n' ≠ Nat.digitChar d := by decide
    exact hall d hd heq

/-! ## Characters -/

/-- How many digits follow the letter behind a backslash. -/
def width? : Char → Option Nat
  | 'x' => some 2
  | 'u' => some 4
  | 'U' => some 8
  | _ => none

/-- What a backslash and the letter stand for, if no digits follow. -/
def named : Char → Char
  | 'a' => '\x07'
  | 'b' => '\x08'
  | 'f' => '\x0c'
  | 'n' => '\n'
  | 'r' => '\r'
  | 't' => '\t'
  | 'v' => '\x0b'
  | c => c

/-- Reads one character between quotes. -/
def readChar? : List Char → Option (Char × List Char)
  | [] => none
  | '\\' :: l :: cs =>
    match width? l with
    | some width => some (Char.ofNat (fromHex (cs.take width)), cs.drop width)
    | none => some (named l, cs)
  | c :: cs => some (c, cs)

theorem readChar?_hex {l : Char} {width n : Nat} (hl : width? l = some width) (hwidth : 0 < width)
    (hn : n < 16 ^ width) (cs : List Char) :
    readChar? ('\\' :: l :: (hex width n ++ cs)) = some (Char.ofNat n, cs) := by
  have hlength := length_hex hwidth hn
  rw [readChar?, hl]
  dsimp only
  rw [List.take_left' hlength, List.drop_left' hlength, fromHex_hex]

theorem readChar?_plain {c : Char} (hc : c ≠ '\\') (cs : List Char) :
    readChar? (c :: cs) = some (c, cs) := by
  rw [readChar?]
  intro l cs' h _
  exact hc h

/-- The letter for a control character stands for it. -/
theorem named_controlLetter {c l : Char} (h : controlLetter? c = some l) :
    width? l = none ∧ named l = c ∧ l ≠ '\n' := by
  unfold controlLetter? at h
  split at h <;> cases h
  all_goals exact ⟨rfl, rfl, by decide⟩

/-- A character between double quotes is read back. -/
theorem readChar?_glyph (c : Char) (cs : List Char) :
    readChar? (glyph '"' (.char c) ++ cs) = some (c, cs) := by
  have hvalid : c.toNat < 0x110000 := by
    have hscalar : c.toNat < 0xD800 ∨ 0xDFFF < c.toNat ∧ c.toNat < 0x110000 := c.valid
    omega
  unfold glyph
  dsimp only
  split
  · rename_i hc
    rcases hc with rfl | rfl
    · rfl
    · rfl
  · rename_i hc
    have hne : c ≠ '\\' := fun h => hc (.inr h)
    unfold plainChar
    split
    · exact readChar?_plain hne cs
    · split
      · rename_i l hl
        obtain ⟨hwidth, hnamed, -⟩ := named_controlLetter hl
        show readChar? ('\\' :: l :: cs) = _
        rw [readChar?, hwidth, hnamed]
      · have hnat : Char.ofNat c.toNat = c := Char.ofNat_toNat c
        split
        · exact (readChar?_hex rfl (by decide) (by omega) cs).trans (by rw [hnat])
        · split
          · exact (readChar?_hex rfl (by decide) (by omega) cs).trans (by rw [hnat])
          · exact (readChar?_hex rfl (by decide) (by omega) cs).trans (by rw [hnat])

/-- What is written for a character starts with no quote and has no line break in it. -/
theorem glyph_spec (c : Char) : (∃ d ds, glyph '"' (.char c) = d :: ds ∧ d ≠ '"') ∧
    '\n' ∉ glyph '"' (.char c) := by
  have hprintable : isPrintable '\n' = false := by decide +kernel
  unfold glyph
  dsimp only
  split
  · rename_i hc
    rcases hc with rfl | rfl
    · exact ⟨⟨_, _, rfl, by decide⟩, by decide⟩
    · exact ⟨⟨_, _, rfl, by decide⟩, by decide⟩
  · rename_i hc
    unfold plainChar
    split
    · rename_i hp
      refine ⟨⟨c, [], rfl, fun h => hc (.inl h)⟩, ?_⟩
      rw [List.mem_singleton]
      rintro rfl
      rw [hprintable] at hp
      cases hp
    · split
      · rename_i l hl
        have hletter := (named_controlLetter hl).2.2
        exact ⟨⟨_, _, rfl, by decide⟩, by simp [hletter.symm]⟩
      · split
        · exact ⟨⟨_, _, rfl, by decide⟩, by simp [lineFeed_notMem_hex]⟩
        · split
          · exact ⟨⟨_, _, rfl, by decide⟩, by simp [lineFeed_notMem_hex]⟩
          · exact ⟨⟨_, _, rfl, by decide⟩, by simp [lineFeed_notMem_hex]⟩

theorem flatMap_glyph_inj {cs ds xs ys : List Char}
    (h : cs.flatMap (fun c => glyph '"' (.char c)) ++ '"' :: xs =
      ds.flatMap (fun c => glyph '"' (.char c)) ++ '"' :: ys) : cs = ds ∧ xs = ys := by
  have hquote : ∀ (c : Char) (zs ws : List Char), glyph '"' (.char c) ++ zs ≠ '"' :: ws := by
    intro c zs ws heq
    obtain ⟨⟨d, ds, hd, hne⟩, -⟩ := glyph_spec c
    rw [hd] at heq
    exact hne (List.cons.inj heq).1
  induction cs generalizing ds with
  | nil =>
    cases ds with
    | nil => exact ⟨rfl, (List.cons.inj h).2⟩
    | cons d ds =>
      rw [List.flatMap_cons, List.append_assoc] at h
      exact absurd h.symm (hquote d _ _)
  | cons c cs ih =>
    rw [List.flatMap_cons, List.append_assoc] at h
    cases ds with
    | nil => exact absurd h (hquote c _ _)
    | cons d ds =>
      rw [List.flatMap_cons, List.append_assoc] at h
      have hread := congrArg readChar? h
      rw [readChar?_glyph, readChar?_glyph, Option.some_inj, Prod.mk.injEq] at hread
      obtain ⟨rfl, hrest⟩ := hread
      obtain ⟨rfl, rfl⟩ := ih hrest
      exact ⟨rfl, rfl⟩

end Quoted

/-! ## Texts -/

theorem toList_quote (s : String) :
    (quote s).toList = '"' :: s.toList.flatMap (fun c => Quoted.glyph '"' (.char c)) ++ ['"'] := by
  rw [quote, quoteGlyphs, String.toList_ofList, List.flatMap_map]

/-- A quoted text is told from what follows it. -/
theorem quote_append_inj {s t u v : String} (h : quote s ++ u = quote t ++ v) : s = t ∧ u = v := by
  have hchars := congrArg String.toList h
  rw [String.toList_append, String.toList_append, toList_quote, toList_quote, List.cons_append,
    List.cons_append, List.append_assoc, List.append_assoc] at hchars
  obtain ⟨hs, hu⟩ := Quoted.flatMap_glyph_inj (List.cons.inj hchars).2
  exact ⟨String.toList_inj.1 hs, String.toList_inj.1 hu⟩

/-- A quoted text has no line break in it. -/
theorem lineFeed_notMem_quote (s : String) : '\n' ∉ (quote s).toList := by
  rw [toList_quote]
  simp only [List.cons_append, List.mem_cons, List.mem_append, List.mem_flatMap, not_or, not_exists,
    not_and]
  exact ⟨by decide, fun c _ => (Quoted.glyph_spec c).2, by decide, List.not_mem_nil⟩

end Wordlang.Text
