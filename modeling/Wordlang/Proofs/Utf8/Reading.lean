import Wordlang.Proofs.Utf8

/-!
# Reading bytes as UTF-8

What it means to read bytes: characters are taken off the front as they are encoded, and a byte that
no encoded character starts with is rejected and read by itself. Every sequence of bytes is read in
one way only, which is how it is decoded.
-/

namespace Wordlang.Text.Utf8

/-- The bytes are read as the glyphs. -/
inductive Reads : List UInt8 → List Glyph → Prop where
  | nil : Reads [] []
  | char {rest : List UInt8} {gs : List Glyph} (c : Char) (h : Reads rest gs) :
    Reads (String.utf8EncodeChar c ++ rest) (.char c :: gs)
  | stray {b : UInt8} {rest : List UInt8} {gs : List Glyph}
    (rejected : ∀ c, ¬ String.utf8EncodeChar c <+: b :: rest) (h : Reads rest gs) :
    Reads (b :: rest) (.stray b :: gs)

/-! ## Well-formed sequences encode characters -/

theorem toNat_ofNat {v : Nat} (h : v < 0xD800 ∨ 0xDFFF < v ∧ v < 0x110000) :
    (Char.ofNat v).val.toNat = v := by
  have hvalid : v.isValidChar := h
  rw [Char.ofNat, dif_pos hvalid]
  rfl

theorem isTail_iff (b : UInt8) : isTail b = true ↔ 0x80 ≤ b.toNat ∧ b.toNat ≤ 0xBF := by
  simp [isTail, UInt8.le_iff_toNat_le]

theorem ofNat_eq_of_toNat {b : UInt8} {n : Nat} (h : n = b.toNat) : UInt8.ofNat n = b := by
  rw [h, UInt8.ofNat_toNat]

theorem encode_one {a : UInt8} (ha : a < 0x80) :
    String.utf8EncodeChar (Char.ofNat a.toNat) = [a] := by
  rw [UInt8.lt_iff_toNat_lt] at ha
  change a.toNat < 128 at ha
  rw [String.utf8EncodeChar, toNat_ofNat (by omega)]
  simp only [if_pos (show a.toNat ≤ 127 by omega), UInt8.ofNat_toNat]

theorem encode_two {a b : UInt8} (h : isPair a b = true) :
    String.utf8EncodeChar (Char.ofNat (a.toNat % 0x20 * 0x40 + payload b)) = [a, b] := by
  simp only [isPair, Bool.and_eq_true, decide_eq_true_eq, UInt8.le_iff_toNat_le, isTail_iff,
    UInt8.reduceToNat] at h
  obtain ⟨⟨hlow, hhigh⟩, hb, hb'⟩ := h
  rw [String.utf8EncodeChar, payload, toNat_ofNat (by omega)]
  simp only [if_neg (show ¬ a.toNat % 0x20 * 0x40 + b.toNat % 0x40 ≤ 127 by omega),
    if_pos (show a.toNat % 0x20 * 0x40 + b.toNat % 0x40 ≤ 2047 by omega)]
  rw [ofNat_eq_of_toNat (b := a) (by omega), ofNat_eq_of_toNat (b := b) (by omega)]

theorem encode_three {a b c : UInt8} (h : isTripleStart a b = true) (hc : isTail c = true) :
    String.utf8EncodeChar
      (Char.ofNat ((a.toNat % 0x10 * 0x40 + payload b) * 0x40 + payload c)) = [a, b, c] := by
  simp only [isTripleStart, Bool.and_eq_true, Bool.or_eq_true, decide_eq_true_eq, bne_iff_ne, ne_eq,
    UInt8.le_iff_toNat_le, ← UInt8.toNat_inj, isTail_iff, UInt8.reduceToNat] at h hc
  obtain ⟨⟨⟨⟨hlow, hhigh⟩, hb, hb'⟩, hshort⟩, hsurrogate⟩ := h
  obtain ⟨hc, hc'⟩ := hc
  rw [String.utf8EncodeChar, payload, payload, toNat_ofNat (by omega)]
  have hlarge : 2047 < (a.toNat % 0x10 * 0x40 + b.toNat % 0x40) * 0x40 + c.toNat % 0x40 := by omega
  have hsmall : (a.toNat % 0x10 * 0x40 + b.toNat % 0x40) * 0x40 + c.toNat % 0x40 ≤ 65535 := by
    omega
  have hone := Nat.not_le.2 (Nat.lt_trans (by decide : 127 < 2047) hlarge)
  simp only [if_neg hone, if_neg (Nat.not_le.2 hlarge), if_pos hsmall]
  rw [ofNat_eq_of_toNat (b := a) (by omega), ofNat_eq_of_toNat (b := b) (by omega),
    ofNat_eq_of_toNat (b := c) (by omega)]

theorem encode_four {a b c d : UInt8} (h : isQuadStart a b = true) (hc : isTail c = true)
    (hd : isTail d = true) :
    String.utf8EncodeChar (Char.ofNat (((a.toNat % 0x08 * 0x40 + payload b) * 0x40 + payload c)
      * 0x40 + payload d)) = [a, b, c, d] := by
  simp only [isQuadStart, Bool.and_eq_true, Bool.or_eq_true, decide_eq_true_eq, bne_iff_ne, ne_eq,
    UInt8.le_iff_toNat_le, ← UInt8.toNat_inj, isTail_iff, UInt8.reduceToNat] at h hc hd
  obtain ⟨⟨⟨⟨hlow, hhigh⟩, hb, hb'⟩, hshort⟩, hmax⟩ := h
  obtain ⟨hc, hc'⟩ := hc
  obtain ⟨hd, hd'⟩ := hd
  rw [String.utf8EncodeChar, payload, payload, payload, toNat_ofNat (by omega)]
  have hlarge : 65535 < ((a.toNat % 0x08 * 0x40 + b.toNat % 0x40) * 0x40 + c.toNat % 0x40) * 0x40 +
      d.toNat % 0x40 := by omega
  have hone := Nat.not_le.2 (Nat.lt_trans (by decide : 127 < 65535) hlarge)
  have htwo := Nat.not_le.2 (Nat.lt_trans (by decide : 2047 < 65535) hlarge)
  simp only [if_neg hone, if_neg htwo, if_neg (Nat.not_le.2 hlarge)]
  rw [ofNat_eq_of_toNat (b := a) (by omega), ofNat_eq_of_toNat (b := b) (by omega),
    ofNat_eq_of_toNat (b := c) (by omega), ofNat_eq_of_toNat (b := d) (by omega)]

/-- The character that bytes start with is the one that they encode. -/
theorem encode_of_leading? {a : UInt8} {rest : List UInt8} {c : Char} {more : Nat}
    (h : leading? a rest = some (c, more)) :
    String.utf8EncodeChar c ++ rest.drop more = a :: rest ∧ more ≤ rest.length := by
  unfold leading? at h
  split at h
  · next ha =>
    cases h
    exact ⟨by rw [encode_one ha]; rfl, Nat.zero_le _⟩
  split at h
  · cases h
  next b rest =>
  split at h
  · next hpair =>
    cases h
    exact ⟨by rw [encode_two hpair]; rfl, by simp⟩
  split at h
  · cases h
  next c' rest =>
  split at h
  · next htriple =>
    cases h
    obtain ⟨hstart, hc⟩ := Bool.and_eq_true_iff.1 htriple
    exact ⟨by rw [encode_three hstart hc]; rfl, by simp⟩
  split at h
  · cases h
  next d rest =>
  split at h
  · next hquad =>
    cases h
    obtain ⟨hquad, hd⟩ := Bool.and_eq_true_iff.1 hquad
    obtain ⟨hstart, hc⟩ := Bool.and_eq_true_iff.1 hquad
    exact ⟨by rw [encode_four hstart hc hd]; rfl, by simp⟩
  · cases h

/-- Bytes that start no well-formed sequence do not start with an encoded character. -/
theorem rejected_of_leading? {a : UInt8} {rest : List UInt8} (h : leading? a rest = none)
    (c : Char) : ¬ String.utf8EncodeChar c <+: a :: rest := by
  rintro ⟨behind, heq⟩
  obtain ⟨b, tail, hbytes, hread⟩ := leading?_utf8EncodeChar c behind
  rw [hbytes, List.cons_append] at heq
  obtain ⟨rfl, rfl⟩ := List.cons.inj heq
  rw [hread] at h
  cases h

/-! ## Decoding is reading -/

theorem decodeFrom_eq_drop (skip : Nat) (bytes : List UInt8) :
    decodeFrom skip bytes = decode (bytes.drop skip) := by
  induction bytes generalizing skip with
  | nil => cases skip <;> rfl
  | cons a rest ih =>
    cases skip with
    | zero => rfl
    | succ skip => exact ih skip

theorem decode_cons_of_some {a : UInt8} {rest : List UInt8} {c : Char} {more : Nat}
    (h : leading? a rest = some (c, more)) :
    decode (a :: rest) = .char c :: decode (rest.drop more) := by
  rw [decode, decodeFrom, h]
  exact congrArg _ (decodeFrom_eq_drop more rest)

theorem decode_cons_of_none {a : UInt8} {rest : List UInt8} (h : leading? a rest = none) :
    decode (a :: rest) = .stray a :: decode rest := by
  rw [decode, decodeFrom, h]
  rfl

theorem reads_decode (bytes : List UInt8) : Reads bytes (decode bytes) := by
  -- a glyph takes at least one byte
  induction hn : bytes.length using Nat.strongRecOn generalizing bytes with
  | ind n ih =>
    subst hn
    cases bytes with
    | nil => exact .nil
    | cons a rest =>
      cases h : leading? a rest with
      | none =>
        rw [decode_cons_of_none h]
        exact .stray (rejected_of_leading? h) (ih _ (Nat.lt_succ_self _) rest rfl)
      | some r =>
        obtain ⟨c, more⟩ := r
        obtain ⟨hbytes, -⟩ := encode_of_leading? h
        have hlt : (rest.drop more).length < (a :: rest).length :=
          Nat.lt_succ_of_le (List.drop_sublist more rest).length_le
        rw [decode_cons_of_some h, ← hbytes]
        exact .char c (ih _ hlt _ rfl)

theorem Reads.eq_decode {bytes : List UInt8} {gs : List Glyph} (h : Reads bytes gs) :
    gs = decode bytes := by
  induction h with
  | nil => rfl
  | @char rest gs c h ih =>
    obtain ⟨a, tail, hbytes, hread⟩ := leading?_utf8EncodeChar c rest
    rw [hbytes, List.cons_append, decode_cons_of_some hread, List.drop_left, ← ih]
  | @stray b rest gs rejected h ih =>
    have hnone : leading? b rest = none := by
      cases hl : leading? b rest with
      | none => rfl
      | some r =>
        obtain ⟨c, more⟩ := r
        exact absurd ⟨_, (encode_of_leading? hl).1⟩ (rejected c)
    rw [decode_cons_of_none hnone, ← ih]

/-- Bytes are read in one way, which is how they are decoded. -/
theorem reads_iff {bytes : List UInt8} {gs : List Glyph} : Reads bytes gs ↔ gs = decode bytes :=
  ⟨Reads.eq_decode, fun h => h ▸ reads_decode bytes⟩

/-- A glyph is read from one byte or more. -/
theorem Reads.length_le {bytes : List UInt8} {gs : List Glyph} (h : Reads bytes gs) :
    gs.length ≤ bytes.length := by
  induction h with
  | nil => exact Nat.le_refl _
  | @char rest gs c h ih =>
    have hpos : 0 < (String.utf8EncodeChar c).length := by
      rw [String.length_utf8EncodeChar]
      exact Char.utf8Size_pos c
    rw [List.length_cons, List.length_append]
    omega
  | stray rejected h ih => exact Nat.succ_le_succ ih

end Wordlang.Text.Utf8
