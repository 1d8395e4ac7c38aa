import Wordlang.Proofs.Grammar

/-!
# Lexical grammar

How a text is split into pieces: runs of blanks, which only separate, and tokens.

    blanks    = blank { blank }                 nothing but blanks, and no blank behind
    delimiter = "=" | "(" | ")" | "{" | "}" | "," | ";" | ":"
    string    = '"' { any character but '"' } '"'
    word      = character { character }         no blank, delimiter or quote, and none such behind

A quote that no second one follows opens a piece that runs to the end of the text, which is an error,
as is a string without content. A word is an integer, a literal with a decimal point, the sign `@`,
or else a name; an integer that is too large is an error. Of every token the grammar says the kind
and the literal, the part of the text that the token stands for.
-/

namespace Wordlang.Lexical

open Grammar (decimalValue)

/-! ## Characters -/

def Blank (c : Char) : Prop := c = ' ' ∨ c = '\t' ∨ c = '\r' ∨ c = '\n'

/-- The characters that are tokens by themselves. -/
def delimiters : List (Char × Token) :=
  [('=', .assign), ('(', .openParen), (')', .closeParen), ('\x7b', .openBrace),
    ('\x7d', .closeBrace), (',', .comma), (';', .semicolon), (':', .colon)]

/-- A character that words are made of. -/
def InWord (c : Char) : Prop := ¬ Blank c ∧ c ≠ '"' ∧ c ∉ delimiters.map Prod.fst

def Digit (c : Char) : Prop := '0' ≤ c ∧ c ≤ '9'

instance : DecidablePred Blank := fun c =>
  inferInstanceAs (Decidable (c = ' ' ∨ c = '\t' ∨ c = '\r' ∨ c = '\n'))

instance : DecidablePred InWord := fun c =>
  inferInstanceAs (Decidable (¬ Blank c ∧ c ≠ '"' ∧ c ∉ delimiters.map Prod.fst))

instance : DecidablePred Digit := fun c => inferInstanceAs (Decidable ('0' ≤ c ∧ c ≤ '9'))

/-! ## Words -/

/-- One digit or more. -/
def Digits (w : List Char) : Prop := w ≠ [] ∧ ∀ c ∈ w, Digit c

/-- Digits, a point, digits. -/
def Decimals (w : List Char) : Prop := ∃ a b, Digits a ∧ Digits b ∧ w = a ++ '.' :: b

/-- The word is of the kind. -/
inductive WordKind : List Char → Token → Prop where
  | atSign : WordKind ['@'] .atSign
  | int {w : List Char} (digits : Digits w) (fits : decimalValue (String.ofList w) ≤ 2147483647) :
    WordKind w .int
  | overflow {w : List Char} (digits : Digits w)
    (large : 2147483647 < decimalValue (String.ofList w)) : WordKind w .error
  | float {w : List Char} (decimals : Decimals w) : WordKind w .float
  | name {w : List Char} (no_sign : w ≠ ['@']) (no_int : ¬ Digits w) (no_float : ¬ Decimals w) :
    WordKind w .name

/-! ## Pieces -/

/-- In front of `rest`, the text is a token of the kind and with the literal. -/
inductive TokenText (rest : List Char) : List Char → Token → String → Prop where
  | delimiter {c : Char} {t : Token} (entry : (c, t) ∈ delimiters) :
    TokenText rest [c] t (String.singleton c)
  | string {content : List Char} (unquoted : '"' ∉ content) (filled : content ≠ []) :
    TokenText rest ('"' :: (content ++ ['"'])) .string (String.ofList content)
  | emptyString : TokenText rest ['"', '"'] .error ""
  | unterminated {content : List Char} (unquoted : '"' ∉ content) (last : rest = []) :
    TokenText rest ('"' :: content) .error (String.ofList content)
  | word {w : List Char} {t : Token} (filled : w ≠ []) (chars : ∀ c ∈ w, InWord c)
    (maximal : ∀ c ∈ rest.head?, ¬ InWord c) (kind : WordKind w t) :
    TokenText rest w t (String.ofList w)

/-- A piece of a text. -/
inductive Piece where
  | blanks (text : List Char)
  | token (text : List Char) (kind : Token) (literal : String)

def Piece.text : Piece → List Char
  | .blanks text => text
  | .token text _ _ => text

/-- The kind and the literal of a token. -/
def Piece.token? : Piece → Option (Token × String)
  | .blanks _ => none
  | .token _ kind literal => some (kind, literal)

/-- The piece may stand in front of `rest`. -/
def Piece.Fits (rest : List Char) : Piece → Prop
  | .blanks text => text ≠ [] ∧ (∀ c ∈ text, Blank c) ∧ ∀ c ∈ rest.head?, ¬ Blank c
  | .token text kind literal => TokenText rest text kind literal

/-- The text is split into the pieces, which stand in it one after the other. -/
inductive Splits : List Char → List Piece → Prop where
  | nil : Splits [] []
  | cons {p : Piece} {rest : List Char} {ps : List Piece} (fits : p.Fits rest)
    (splits : Splits rest ps) : Splits (p.text ++ rest) (p :: ps)

theorem Splits.text_eq {cs : List Char} {ps : List Piece} (h : Splits cs ps) :
    ps.flatMap Piece.text = cs := by
  induction h with
  | nil => rfl
  | cons _ _ ih => rw [List.flatMap_cons, ih]

/-! ## Kinds of words -/

theorem Digits.not_decimals {w : List Char} (h : Digits w) : ¬ Decimals w := by
  rintro ⟨a, b, -, -, rfl⟩
  have hpoint : Digit '.' := h.2 '.' (by simp)
  exact absurd hpoint (by decide)

theorem Digits.ne_atSign {w : List Char} (h : Digits w) : w ≠ ['@'] := by
  rintro rfl
  exact absurd (h.2 '@' (by simp)) (by decide)

theorem Decimals.ne_atSign {w : List Char} (h : Decimals w) : w ≠ ['@'] := by
  obtain ⟨a, b, -, -, rfl⟩ := h
  intro he
  have hpoint : '.' ∈ a ++ '.' :: b := by simp
  rw [he] at hpoint
  exact absurd hpoint (by decide)

theorem exists_wordKind (w : List Char) : ∃ t, WordKind w t := by
  by_cases hsign : w = ['@']
  · exact ⟨.atSign, hsign ▸ .atSign⟩
  by_cases hint : Digits w
  · rcases Nat.lt_or_ge 2147483647 (decimalValue (String.ofList w)) with hlarge | hfits
    · exact ⟨.error, .overflow hint hlarge⟩
    · exact ⟨.int, .int hint hfits⟩
  by_cases hfloat : Decimals w
  · exact ⟨.float, .float hfloat⟩
  · exact ⟨.name, .name hsign hint hfloat⟩

/-! ## Every text can be split -/

/-- A text starts with a longest run, behind which another character stands or nothing. -/
theorem exists_run (P : Char → Prop) [DecidablePred P] (cs : List Char) :
    ∃ run rest, cs = run ++ rest ∧ (∀ c ∈ run, P c) ∧ ∀ c ∈ rest.head?, ¬ P c := by
  induction cs with
  | nil => exact ⟨[], [], rfl, by simp, by simp⟩
  | cons c cs ih =>
    by_cases hc : P c
    · obtain ⟨run, rest, rfl, hrun, hrest⟩ := ih
      refine ⟨c :: run, rest, rfl, ?_, hrest⟩
      intro d hd
      rcases List.mem_cons.1 hd with rfl | hd
      · exact hc
      · exact hrun d hd
    · exact ⟨[], c :: cs, rfl, by simp, by simpa using hc⟩

/-- What follows a quote is the rest of a string, or of a string that does not end. -/
theorem exists_string (cs : List Char) :
    ∃ text rest t literal, '"' :: cs = text ++ rest ∧ TokenText rest text t literal := by
  obtain ⟨content, rest, rfl, hcontent, hrest⟩ := exists_run (· ≠ '"') cs
  have hquote : '"' ∉ content := fun h => hcontent _ h rfl
  cases rest with
  | nil => exact ⟨'"' :: content, [], .error, _, by simp, .unterminated hquote rfl⟩
  | cons c rest =>
    obtain rfl : c = '"' := by simpa using hrest c
    by_cases hfilled : content = []
    · subst hfilled
      exact ⟨['"', '"'], rest, .error, _, rfl, .emptyString⟩
    · exact ⟨'"' :: (content ++ ['"']), rest, .string, _, by simp, .string hquote hfilled⟩

/-- A token starts with any character that is not a blank. -/
theorem exists_token {c : Char} (hc : ¬ Blank c) (cs : List Char) :
    ∃ text rest t literal, c :: cs = text ++ rest ∧ TokenText rest text t literal := by
  by_cases hquote : c = '"'
  · subst hquote
    exact exists_string cs
  by_cases hdelim : c ∈ delimiters.map Prod.fst
  · obtain ⟨⟨d, t⟩, hmem, rfl⟩ := List.mem_map.1 hdelim
    exact ⟨[d], cs, t, _, rfl, .delimiter hmem⟩
  · -- what is left are the characters of words
    have hword : InWord c := ⟨hc, hquote, hdelim⟩
    obtain ⟨run, rest, rfl, hrun, hrest⟩ := exists_run InWord cs
    obtain ⟨t, ht⟩ := exists_wordKind (c :: run)
    refine ⟨c :: run, rest, t, _, rfl, .word (by simp) ?_ hrest ht⟩
    intro d hd
    rcases List.mem_cons.1 hd with rfl | hd
    · exact hword
    · exact hrun d hd

theorem not_blank_of_delimiter {c : Char} {t : Token} (h : (c, t) ∈ delimiters) : ¬ Blank c := by
  have hall : ∀ p ∈ delimiters, ¬ Blank p.1 := by decide
  exact hall (c, t) h

/-- A token has a first character, which is not a blank. -/
theorem TokenText.text_eq_cons {rest text : List Char} {t : Token} {literal : String}
    (h : TokenText rest text t literal) : ∃ c cs, text = c :: cs ∧ ¬ Blank c := by
  cases h with
  | delimiter entry => exact ⟨_, _, rfl, not_blank_of_delimiter entry⟩
  | string => exact ⟨_, _, rfl, by decide⟩
  | emptyString => exact ⟨_, _, rfl, by decide⟩
  | unterminated => exact ⟨_, _, rfl, by decide⟩
  | word filled chars =>
    obtain ⟨c, cs, rfl⟩ := List.exists_cons_of_ne_nil filled
    exact ⟨c, cs, rfl, (chars c (by simp)).1⟩

theorem exists_splits (cs : List Char) : ∃ ps, Splits cs ps := by
  -- a piece has at least one character, so that what is left is shorter
  induction hn : cs.length using Nat.strong_induction_on generalizing cs with
  | _ n ih =>
    subst hn
    cases cs with
    | nil => exact ⟨[], .nil⟩
    | cons c cs =>
      by_cases hc : Blank c
      · obtain ⟨run, rest, rfl, hrun, hrest⟩ := exists_run Blank cs
        have hlt : rest.length < (c :: (run ++ rest)).length := by
          rw [List.length_cons, List.length_append]
          omega
        obtain ⟨ps, hps⟩ := ih rest.length hlt rest rfl
        have hfits : (Piece.blanks (c :: run)).Fits rest := by
          refine ⟨by simp, ?_, hrest⟩
          intro d hd
          rcases List.mem_cons.1 hd with rfl | hd
          · exact hc
          · exact hrun d hd
        exact ⟨_, .cons hfits hps⟩
      · obtain ⟨text, rest, t, literal, heq, htext⟩ := exists_token hc cs
        have hlen : rest.length < (c :: cs).length := by
          obtain ⟨d, tail, rfl, -⟩ := htext.text_eq_cons
          rw [heq, List.length_append, List.length_cons]
          omega
        obtain ⟨ps, hps⟩ := ih rest.length hlen rest rfl
        have hfits : (Piece.token text t literal).Fits rest := htext
        rw [heq]
        exact ⟨_, .cons hfits hps⟩

end Wordlang.Lexical
