import Mathlib.Data.List.DropRight
import Mathlib.Data.List.Forall2
import Wordlang.Proofs.Grammar.Parse
import Wordlang.Proofs.Lexical
import Wordlang.Proofs.Utf8

/-!
# Scanning is splitting

The lexemes of a source are the tokens of the only way to split its text, followed by the end of the
input. A token that may stand at the front of a text is the one that is cut from it; every text can
be split, so that the lexemes of a source are known from any split, and two splits are the same.
-/

namespace Wordlang.Lexical

open Grammar (decimalValue)

/-! ## The tests of the scanner -/

theorem isBlank_iff (c : Char) : isBlank c = true ↔ Blank c := by
  simp [isBlank, Blank, or_assoc]

theorem ofDelimiter?_eq_some (c : Char) (t : Token) :
    Token.ofDelimiter? c = some t ↔ (c, t) ∈ delimiters := by
  unfold Token.ofDelimiter?
  split <;> simp_all [delimiters, eq_comm]

theorem ofDelimiter?_eq_none (c : Char) :
    Token.ofDelimiter? c = none ↔ c ∉ delimiters.map Prod.fst := by
  rw [Option.eq_none_iff_forall_ne_some]
  simp only [ne_eq, ofDelimiter?_eq_some, List.mem_map, Prod.exists, exists_and_right,
    exists_eq_right, not_exists]

theorem isWordChar_iff (c : Char) : isWordChar c = true ↔ InWord c := by
  simp only [isWordChar, InWord, ← isBlank_iff, ← ofDelimiter?_eq_none, Bool.and_eq_true,
    Bool.not_eq_true', bne_iff_ne, Option.isNone_iff_eq_none, and_assoc, Bool.not_eq_true]

theorem isDigit_iff (c : Char) : isDigit c = true ↔ Digit c := by
  simp [isDigit, Digit]

theorem isIntText_iff (w : List Char) : isIntText w = true ↔ Digits w := by
  simp [isIntText, Digits, isDigit_iff]

/-- A run and what follows it are told apart by the first character that is not of the run. -/
theorem span_run {p : Char → Bool} {run : List Char} (hrun : ∀ c ∈ run, p c = true)
    (rest : List Char) (hrest : ∀ c ∈ rest.head?, ¬ p c = true) :
    (run ++ rest).takeWhile p = run ∧ (run ++ rest).dropWhile p = rest := by
  rw [List.takeWhile_append_of_pos hrun, List.dropWhile_append_of_pos hrun]
  cases rest with
  | nil => simp
  | cons c rest =>
    have hc : ¬ p c = true := hrest c rfl
    simp [hc]

theorem isFloatText_iff (w : List Char) : isFloatText w = true ↔ Decimals w := by
  have hsplit := List.takeWhile_append_dropWhile (p := (· != '.')) (l := w)
  simp only [isFloatText, Bool.and_eq_true, isIntText_iff]
  constructor
  · rintro ⟨hwhole, hfraction⟩
    refine ⟨_, _, hwhole, hfraction, ?_⟩
    cases hd : w.dropWhile (· != '.') with
    | nil =>
      rw [hd] at hfraction
      exact absurd rfl hfraction.1
    | cons c rest =>
      obtain rfl : c = '.' := by
        have hstop := List.head?_dropWhile_not (· != '.') w
        rw [hd] at hstop
        simpa using hstop
      rw [List.drop_one, List.tail_cons, ← hd, hsplit]
  · rintro ⟨a, b, ha, hb, rfl⟩
    have hrun : ∀ c ∈ a, (c != '.') = true := by
      intro c hc
      have hdigit := ha.2 c hc
      rw [bne_iff_ne]
      rintro rfl
      exact absurd hdigit (by decide)
    obtain ⟨hwhole, hfraction⟩ := span_run hrun ('.' :: b) (by simp)
    rw [hwhole, hfraction]
    exact ⟨ha, hb⟩

theorem decimal_eq (w : List Char) : decimal w = decimalValue (String.ofList w) := by
  rw [Parse.decimal_eq_ofDigits, decimalValue, String.toList_ofList]

theorem WordKind.classifyWord_eq {w : List Char} {t : Token} (h : WordKind w t) :
    (classifyWord w).1 = t := by
  unfold classifyWord
  cases h with
  | atSign => rfl
  | int digits fits =>
    have hfits : decimal w ≤ maxInt := by
      rw [decimal_eq]
      exact fits
    rw [if_neg digits.ne_atSign, if_pos ((isIntText_iff w).2 digits), if_pos hfits]
  | overflow digits large =>
    have hlarge : ¬ decimal w ≤ maxInt := by
      rw [decimal_eq]
      exact Nat.not_le.2 large
    rw [if_neg digits.ne_atSign, if_pos ((isIntText_iff w).2 digits), if_neg hlarge]
  | float decimals =>
    have hint : ¬ isIntText w = true := fun h => ((isIntText_iff w).1 h).not_decimals decimals
    rw [if_neg decimals.ne_atSign, if_neg hint, if_pos ((isFloatText_iff w).2 decimals)]
  | name no_sign no_int no_float =>
    have hint : ¬ isIntText w = true := mt (isIntText_iff w).1 no_int
    have hfloat : ¬ isFloatText w = true := mt (isFloatText_iff w).1 no_float
    rw [if_neg no_sign, if_neg hint, if_neg hfloat]

/-! ## Cutting a token -/

theorem textOf_takeWhile (p : Char → Bool) (cs : List Located) :
    textOf (cs.takeWhile fun l => p l.char) = (textOf cs).takeWhile p :=
  List.takeWhile_map.symm

theorem textOf_dropWhile (p : Char → Bool) (cs : List Located) :
    textOf (cs.dropWhile fun l => p l.char) = (textOf cs).dropWhile p :=
  List.dropWhile_map.symm

/-- The string behind an opening quote is what stands before the next quote. -/
theorem cutString_eq {cs : List Located} {content rest : List Char} (hcontent : '"' ∉ content)
    (heq : textOf cs = content ++ '"' :: rest) :
    (cutString cs).token = (if content = [] then .error else .string) ∧
      (cutString cs).text = String.ofList content ∧ textOf (cutString cs).rest = rest := by
  have hrun : ∀ c ∈ content, (c != '"') = true := by
    intro c hc
    rw [bne_iff_ne]
    rintro rfl
    exact hcontent hc
  obtain ⟨htake, hdrop⟩ := span_run hrun ('"' :: rest) (by simp)
  rw [← heq, ← textOf_takeWhile] at htake
  rw [← heq, ← textOf_dropWhile] at hdrop
  have hempty : (cs.takeWhile inString).isEmpty = true ↔ content = [] := by
    rw [List.isEmpty_iff, ← htake]
    exact List.map_eq_nil_iff.symm
  unfold cutString
  change textOf (cs.takeWhile inString) = content at htake
  change textOf (cs.dropWhile inString) = '"' :: rest at hdrop
  cases hd : cs.dropWhile inString with
  | nil =>
    rw [hd] at hdrop
    cases hdrop
  | cons c cs' =>
    rw [hd] at hdrop
    obtain ⟨-, hcs'⟩ : c.char = '"' ∧ textOf cs' = rest := List.cons.inj hdrop
    by_cases hfilled : content = []
    · simp only [if_pos (hempty.2 hfilled)]
      subst hfilled
      exact ⟨rfl, rfl, hcs'⟩
    · simp only [if_neg (mt hempty.1 hfilled), if_neg hfilled]
      exact ⟨trivial, by rw [htake], hcs'⟩

/-- Without a second quote it runs to the end. -/
theorem cutString_eq_unterminated {cs : List Located} (h : '"' ∉ textOf cs) :
    cutString cs = ⟨.error, String.ofList (textOf cs), some .unterminated, []⟩ := by
  have hall : ∀ c ∈ cs, inString c = true := by
    intro c hc
    rw [inString, bne_iff_ne]
    intro hquote
    exact h (hquote ▸ List.mem_map_of_mem hc)
  unfold cutString
  rw [List.dropWhile_eq_nil_iff.2 hall, List.takeWhile_eq_self_iff.2 hall]

/-- A token that may stand at the front of a text is cut from it. -/
theorem TokenText.cut_eq {rest text : List Char} {t : Token} {literal : String}
    (h : TokenText rest text t literal) {c : Located} {cs : List Located}
    (heq : textOf (c :: cs) = text ++ rest) :
    (cut c cs).token = t ∧ (cut c cs).text = literal ∧ textOf (cut c cs).rest = rest := by
  have hquote : Token.ofDelimiter? '"' = none := rfl
  unfold cut
  cases h with
  | @delimiter d t entry =>
    obtain ⟨hc, hcs⟩ : c.char = d ∧ textOf cs = rest := List.cons.inj heq
    rw [hc, (ofDelimiter?_eq_some d t).2 entry]
    exact ⟨rfl, rfl, hcs⟩
  | @string content unquoted filled =>
    obtain ⟨hc, hcs⟩ : c.char = '"' ∧ textOf cs = content ++ ['"'] ++ rest := List.cons.inj heq
    rw [List.append_assoc] at hcs
    obtain ⟨htoken, htext, hrest⟩ := cutString_eq unquoted hcs
    rw [if_neg filled] at htoken
    simp only [hc, hquote, if_true]
    exact ⟨htoken, htext, hrest⟩
  | emptyString =>
    obtain ⟨hc, hcs⟩ : c.char = '"' ∧ textOf cs = '"' :: rest := List.cons.inj heq
    rw [← List.nil_append ('"' :: rest)] at hcs
    obtain ⟨htoken, htext, hrest⟩ := cutString_eq (by simp) hcs
    rw [if_pos rfl] at htoken
    simp only [hc, hquote, if_true]
    exact ⟨htoken, htext, hrest⟩
  | @unterminated content unquoted last =>
    subst last
    rw [List.append_nil] at heq
    obtain ⟨hc, hcs⟩ : c.char = '"' ∧ textOf cs = content := List.cons.inj heq
    simp only [hc, hquote, if_true]
    rw [cutString_eq_unterminated (hcs ▸ unquoted), hcs]
    exact ⟨rfl, rfl, rfl⟩
  | @word w t filled chars maximal kind =>
    obtain ⟨d, w, rfl⟩ := List.exists_cons_of_ne_nil filled
    obtain ⟨hc, hcs⟩ : c.char = d ∧ textOf cs = w ++ rest := List.cons.inj heq
    have hd : InWord d := chars d (by simp)
    have hin : inWord c = true := by
      rw [inWord, isWordChar_iff, hc]
      exact hd
    have hrun : ∀ e ∈ w, isWordChar e = true := by
      intro e he
      exact (isWordChar_iff e).2 (chars e (List.mem_cons_of_mem d he))
    obtain ⟨htake, hdrop⟩ := span_run hrun rest fun e he => mt (isWordChar_iff e).1 (maximal e he)
    rw [← hcs, ← textOf_takeWhile] at htake
    rw [← hcs, ← textOf_dropWhile] at hdrop
    have hword : textOf (c :: cs.takeWhile inWord) = d :: w := by
      show c.char :: textOf (cs.takeWhile inWord) = d :: w
      rw [hc, ← htake]
      rfl
    rw [(ofDelimiter?_eq_none c.char).2 (hc ▸ hd.2.2)]
    simp only [hc, hd.2.1, if_false, hin, if_true, cutWord, hword]
    exact ⟨kind.classifyWord_eq, trivial, hdrop⟩

/-! ## Scanning a text -/

/-- The kinds and texts of the lexemes. -/
def view (ls : List (List LexicalError × Lexeme)) : List (Token × String) :=
  ls.map fun l => (l.2.token, l.2.text)

theorem TokenText.kind_ne_eof {rest text : List Char} {t : Token} {literal : String}
    (h : TokenText rest text t literal) : t ≠ .eof := by
  cases h with
  | @delimiter c t entry =>
    rintro rfl
    simp [delimiters] at entry
  | word _ _ _ kind =>
    rintro rfl
    cases kind
  | _ => simp

/-- A character that is no blank starts a token. -/
theorem cut_tokenText {c : Located} (hc : ¬ Blank c.char) (cs : List Located) :
    ∃ text, textOf (c :: cs) = text ++ textOf (cut c cs).rest ∧
      TokenText (textOf (cut c cs).rest) text (cut c cs).token (cut c cs).text := by
  obtain ⟨text, rest, t, literal, heq, htext⟩ := exists_token hc (textOf cs)
  obtain ⟨rfl, rfl, rfl⟩ := htext.cut_eq heq
  exact ⟨text, heq, htext⟩

theorem not_blank_of_dropWhile {cs : List Located} {c : Located} {rest : List Located}
    (h : cs.dropWhile (isBlank ·.char) = c :: rest) : ¬ Blank c.char := by
  have hstop := List.head?_dropWhile_not (fun l : Located => isBlank l.char) cs
  rw [h] at hstop
  rw [← isBlank_iff]
  simpa using hstop

theorem cut_rest_suffix {c : Located} (cs : List Located) : (cut c cs).rest <:+ cs := by
  unfold cut cutString cutWord
  split
  · exact List.suffix_refl cs
  · split
    · have hdrop := List.dropWhile_suffix (l := cs) inString
      split
      · exact List.nil_suffix
      · next q rest hd =>
        rw [hd] at hdrop
        have hrest := (List.suffix_cons q rest).trans hdrop
        split
        · exact hrest
        · exact hrest
    · split
      · exact List.dropWhile_suffix inWord
      · exact List.suffix_refl cs

/-- Scanning passes over the blanks at the front, and then takes one token after the other. -/
theorem lexemes_takeAll (stop : Position) (cs : List Located) :
    (takeAll stop cs).map Prod.snd =
      match cs.dropWhile (isBlank ·.char) with
      | [] => [⟨.eof, "", stop⟩]
      | c :: rest => ⟨(cut c rest).token, (cut c rest).text, c.pos⟩ ::
          (takeAll stop (cut c rest).rest).map Prod.snd := by
  rw [takeAll]
  unfold take
  cases hd : cs.dropWhile (isBlank ·.char) with
  | nil => rfl
  | cons c rest =>
    obtain ⟨text, -, htext⟩ := cut_tokenText (not_blank_of_dropWhile hd) rest
    simp only [htext.kind_ne_eof, dite_false, List.map_cons]

theorem lexemes_takeAll_dropWhile (stop : Position) (cs : List Located) :
    (takeAll stop (cs.dropWhile (isBlank ·.char))).map Prod.snd =
      (takeAll stop cs).map Prod.snd := by
  rw [lexemes_takeAll, lexemes_takeAll stop cs, List.dropWhile_idempotent]

/-- A token of a text: the number of its first character, its kind and its literal. -/
structure Entry where
  start : Nat
  kind : Token
  literal : String

/-- The tokens among the pieces, of which the first starts with the character number `i`. -/
def entries (i : Nat) : List Piece → List Entry
  | [] => []
  | .blanks text :: ps => entries (i + text.length) ps
  | .token text kind literal :: ps => ⟨i, kind, literal⟩ :: entries (i + text.length) ps

/-- The lexeme is the token, and stands where its first character does. -/
def Entry.Taken (all : List Located) (x : Entry) (l : Lexeme) : Prop :=
  l.token = x.kind ∧ l.text = x.literal ∧ ∃ c, all[x.start]? = some c ∧ l.pos = c.pos

/-- What is left behind a piece of a text starts as many characters later as the piece has. -/
theorem eq_drop_of_suffix {all rest : List Located} {i : Nat} {text : List Char}
    (hrest : rest <:+ all.drop i) (heq : textOf (all.drop i) = text ++ textOf rest) :
    rest = all.drop (i + text.length) := by
  have hlength := congrArg List.length heq
  rw [textOf, textOf, List.length_append, List.length_map, List.length_map] at hlength
  have hbehind : (all.drop i).length - rest.length = text.length := by omega
  rw [← List.drop_drop, ← hbehind]
  exact List.suffix_iff_eq_drop.1 hrest

/-- The lexemes of a text are the tokens of its pieces. -/
theorem Splits.exists_lexemes {text : List Char} {ps : List Piece} (h : Splits text ps)
    (stop : Position) {all : List Located} {i : Nat} (heq : textOf (all.drop i) = text) :
    ∃ ls, (takeAll stop (all.drop i)).map Prod.snd = ls ++ [⟨.eof, "", stop⟩] ∧
      List.Forall₂ (Entry.Taken all) (entries i ps) ls := by
  induction h generalizing i with
  | nil =>
    refine ⟨[], ?_, .nil⟩
    rw [List.map_eq_nil_iff.1 heq, lexemes_takeAll]
    rfl
  | @cons p rest ps fits _ ih =>
    cases p with
    | blanks bs =>
      obtain ⟨-, hblank, hrest⟩ := fits
      have hrun : ∀ c ∈ bs, isBlank c = true := fun c hc => (isBlank_iff c).2 (hblank c hc)
      obtain ⟨-, hdrop⟩ := span_run hrun rest fun c hc => mt (isBlank_iff c).1 (hrest c hc)
      have htext : textOf ((all.drop i).dropWhile (isBlank ·.char)) = rest := by
        rw [textOf_dropWhile, heq]
        exact hdrop
      have hbehind : (all.drop i).dropWhile (isBlank ·.char) = all.drop (i + bs.length) :=
        eq_drop_of_suffix (List.dropWhile_suffix _) (htext.symm ▸ heq)
      rw [← lexemes_takeAll_dropWhile, hbehind]
      exact ih (hbehind ▸ htext)
    | token text t literal =>
      have htext : TokenText rest text t literal := fits
      obtain ⟨d, tail, rfl, hd⟩ := htext.text_eq_cons
      obtain ⟨c, cs, hcs⟩ : ∃ c cs, all.drop i = c :: cs := by
        cases hcs : all.drop i with
        | nil =>
          rw [hcs] at heq
          cases heq
        | cons c cs => exact ⟨c, cs, rfl⟩
      rw [hcs] at heq
      have hc : isBlank c.char = false := by
        have hchar : c.char = d := (List.cons.inj heq).1
        rw [← Bool.not_eq_true, isBlank_iff, hchar]
        exact hd
      obtain ⟨rfl, rfl, hrest⟩ := htext.cut_eq heq
      have hbehind : (cut c cs).rest = all.drop (i + (d :: tail).length) := by
        refine eq_drop_of_suffix ?_ ?_
        · rw [hcs]
          exact (cut_rest_suffix cs).trans (List.suffix_cons c cs)
        · rw [hcs, hrest]
          exact heq
      obtain ⟨ls, hls, htaken⟩ := ih (hbehind ▸ hrest)
      have hget : all[i]? = some c := by
        rw [← List.head?_drop, hcs]
        rfl
      refine ⟨⟨(cut c cs).token, (cut c cs).text, c.pos⟩ :: ls, ?_, ?_⟩
      · rw [lexemes_takeAll, hcs, List.dropWhile_cons_of_neg (by simp [hc])]
        simp only [hbehind, hls, List.cons_append]
      · exact .cons ⟨rfl, rfl, c, hget, rfl⟩ htaken

theorem map_entries (i : Nat) (ps : List Piece) :
    (entries i ps).map (fun x => (x.kind, x.literal)) = ps.filterMap Piece.token? := by
  induction ps generalizing i with
  | nil => rfl
  | cons p ps ih =>
    cases p with
    | blanks text => exact ih _
    | token text kind literal => exact congrArg ((kind, literal) :: ·) (ih _)

/-- The kinds and texts of the lexemes are those of the pieces. -/
theorem Splits.view_eq {text : List Char} {ps : List Piece} (h : Splits text ps) (stop : Position)
    {cs : List Located} (heq : textOf cs = text) :
    view (takeAll stop cs) = ps.filterMap Piece.token? ++ [(.eof, "")] := by
  have htext : textOf (cs.drop 0) = text := heq
  obtain ⟨ls, hls, htaken⟩ := h.exists_lexemes stop htext
  have hview : (entries 0 ps).map (fun x => (x.kind, x.literal)) =
      ls.map fun l => (l.token, l.text) := by
    rw [← List.forall₂_eq_eq_eq, List.forall₂_map_left_iff, List.forall₂_map_right_iff]
    exact htaken.imp fun x l ⟨htoken, hliteral, _⟩ => by rw [htoken, hliteral]
  have hall := congrArg (List.map fun l : Lexeme => (l.token, l.text)) hls
  rw [List.map_map, List.map_append, ← hview, map_entries] at hall
  exact hall

theorem Splits.fits_of_mem {cs : List Char} {ps : List Piece} (h : Splits cs ps) {p : Piece}
    (hp : p ∈ ps) : ∃ rest, p.Fits rest := by
  induction h with
  | nil => cases hp
  | @cons q rest ps fits _ ih =>
    rcases List.mem_cons.1 hp with rfl | hp
    · exact ⟨rest, fits⟩
    · exact ih hp

/-! ## One split -/

/-- The characters, at no place. -/
def unplaced (cs : List Char) : List Located := cs.map fun c => ⟨.char c, {}⟩

theorem textOf_unplaced (cs : List Char) : textOf (unplaced cs) = cs := by
  induction cs with
  | nil => rfl
  | cons c cs ih => exact congrArg (c :: ·) ih

theorem TokenText.unique {rest rest' text text' : List Char} {t t' : Token}
    {literal literal' : String} (h : TokenText rest text t literal)
    (h' : TokenText rest' text' t' literal') (heq : text ++ rest = text' ++ rest') :
    text = text' ∧ t = t' ∧ literal = literal' ∧ rest = rest' := by
  -- both are what the scanner cuts from the text
  obtain ⟨c, cs, rfl, -⟩ := h.text_eq_cons
  have hplaced : textOf (⟨.char c, {}⟩ :: unplaced (cs ++ rest)) = c :: cs ++ rest :=
    congrArg (c :: ·) (textOf_unplaced (cs ++ rest))
  obtain ⟨rfl, rfl, hrest⟩ := h.cut_eq hplaced
  obtain ⟨rfl, rfl, hrest'⟩ := h'.cut_eq (hplaced.trans heq)
  obtain rfl : rest = rest' := hrest.symm.trans hrest'
  exact ⟨List.append_cancel_right heq, rfl, rfl, rfl⟩

theorem Piece.Fits.unique {rest rest' : List Char} {p q : Piece} (hp : p.Fits rest)
    (hq : q.Fits rest') (heq : p.text ++ rest = q.text ++ rest') : p = q ∧ rest = rest' := by
  have hdisjoint : ∀ {bs text rest rest' : List Char} {t : Token} {literal : String},
      (Piece.blanks bs).Fits rest → TokenText rest' text t literal →
      bs ++ rest ≠ text ++ rest' := by
    rintro bs text rest rest' t literal ⟨hne, hblank, -⟩ htext heq
    obtain ⟨b, bs, rfl⟩ := List.exists_cons_of_ne_nil hne
    obtain ⟨c, cs, rfl, hc⟩ := htext.text_eq_cons
    obtain rfl : b = c := (List.cons.inj heq).1
    exact hc (hblank b (by simp))
  cases p with
  | blanks bs =>
    cases q with
    | blanks bs' =>
      obtain ⟨-, hblank, hrest⟩ := hp
      obtain ⟨-, hblank', hrest'⟩ := hq
      obtain ⟨htake, hdrop⟩ := span_run (p := isBlank)
        (fun c hc => (isBlank_iff c).2 (hblank c hc)) rest
        fun c hc => mt (isBlank_iff c).1 (hrest c hc)
      obtain ⟨htake', hdrop'⟩ := span_run (p := isBlank)
        (fun c hc => (isBlank_iff c).2 (hblank' c hc)) rest'
        fun c hc => mt (isBlank_iff c).1 (hrest' c hc)
      change bs ++ rest = bs' ++ rest' at heq
      rw [heq] at htake hdrop
      exact ⟨congrArg Piece.blanks (htake.symm.trans htake'), hdrop.symm.trans hdrop'⟩
    | token text' t' literal' => exact absurd heq (hdisjoint hp hq)
  | token text t literal =>
    cases q with
    | blanks bs' => exact absurd heq.symm (hdisjoint hq hp)
    | token text' t' literal' =>
      have htext : TokenText rest text t literal := hp
      obtain ⟨rfl, rfl, rfl, hrest⟩ := htext.unique hq heq
      exact ⟨rfl, hrest⟩

theorem Piece.Fits.text_ne_nil {rest : List Char} {p : Piece} (h : p.Fits rest) : p.text ≠ [] := by
  cases p with
  | blanks bs => exact h.1
  | token text t literal =>
    have htext : TokenText rest text t literal := h
    obtain ⟨c, cs, rfl, -⟩ := htext.text_eq_cons
    simp [Piece.text]

/-- A text can be split in one way only. -/
theorem Splits.unique {text : List Char} {ps qs : List Piece} (hp : Splits text ps)
    (hq : Splits text qs) : ps = qs := by
  induction hp generalizing qs with
  | nil =>
    generalize hnil : ([] : List Char) = text at hq
    cases hq with
    | nil => rfl
    | cons fits _ => exact absurd (List.append_eq_nil_iff.1 hnil.symm).1 fits.text_ne_nil
  | @cons p rest ps fits _ ih =>
    generalize heq : p.text ++ rest = text at hq
    cases hq with
    | nil => exact absurd (List.append_eq_nil_iff.1 heq).1 fits.text_ne_nil
    | cons fits' hqs =>
      obtain ⟨rfl, rfl⟩ := fits.unique fits' heq
      rw [ih hqs]

/-! ## Lexical errors -/

theorem classifyWord_fault {w : List Char} {f : LexicalFault} (h : (classifyWord w).2 = some f) :
    (classifyWord w).1 = .error ∧ f = .overflow (String.ofList w) := by
  unfold classifyWord at h ⊢
  by_cases hsign : w = ['@']
  · simp [hsign] at h
  by_cases hint : isIntText w = true
  · by_cases hfits : decimal w ≤ maxInt
    · simp [hsign, hint, hfits] at h
    · simp only [hsign, hint, hfits, if_true, if_false, Option.some.injEq] at h ⊢
      exact ⟨trivial, h.symm⟩
  by_cases hfloat : isFloatText w = true
  · simp [hsign, hint, hfloat] at h
  · simp [hsign, hint, hfloat] at h

theorem cutString_fault {cs : List Located} {f : LexicalFault} (h : (cutString cs).fault = some f) :
    (cutString cs).token = .error ∧ (f = .unterminated ∨ f = .emptyString) := by
  unfold cutString at h ⊢
  cases hd : cs.dropWhile inString with
  | nil =>
    simp only [hd, Option.some.injEq] at h
    exact ⟨rfl, .inl h.symm⟩
  | cons c rest =>
    by_cases hempty : (cs.takeWhile inString).isEmpty = true
    · simp only [hd, hempty, if_true, Option.some.injEq] at h ⊢
      exact ⟨trivial, .inr h.symm⟩
    · simp [hd, hempty] at h

/-- Only an error token has a fault. No fault is a character that starts no token: where there is
no blank, there is the start of a delimiter, a string or a word. -/
theorem cut_fault {c : Located} (hc : ¬ Blank c.char) {cs : List Located} {f : LexicalFault}
    (h : (cut c cs).fault = some f) : (cut c cs).token = .error ∧ ∀ d, f ≠ .unexpected d := by
  unfold cut at h ⊢
  cases hdelim : Token.ofDelimiter? c.char with
  | some t => simp [hdelim] at h
  | none =>
    by_cases hquote : c.char = '"'
    · simp only [hquote, if_true] at h ⊢
      obtain ⟨htoken, hf⟩ := cutString_fault h
      refine ⟨htoken, ?_⟩
      rintro d rfl
      simp at hf
    · have hword : inWord c = true := by
        rw [inWord, isWordChar_iff]
        exact ⟨hc, hquote, (ofDelimiter?_eq_none _).1 hdelim⟩
      simp only [hdelim, hquote, if_false, hword, if_true, cutWord] at h ⊢
      obtain ⟨htoken, rfl⟩ := classifyWord_fault h
      exact ⟨htoken, by simp⟩

theorem classifyWord_error {w : List Char} (h : (classifyWord w).1 = .error) :
    (classifyWord w).2 ≠ none := by
  unfold classifyWord at h ⊢
  by_cases hsign : w = ['@']
  · simp [hsign] at h
  by_cases hint : isIntText w = true
  · by_cases hfits : decimal w ≤ maxInt
    · simp [hsign, hint, hfits] at h
    · simp [hsign, hint, hfits]
  by_cases hfloat : isFloatText w = true
  · simp [hsign, hint, hfloat] at h
  · simp [hsign, hint, hfloat] at h

theorem cutString_error {cs : List Located} (h : (cutString cs).token = .error) :
    (cutString cs).fault ≠ none := by
  unfold cutString at h ⊢
  cases hd : cs.dropWhile inString with
  | nil => exact Option.some_ne_none _
  | cons c rest =>
    by_cases hempty : (cs.takeWhile inString).isEmpty = true
    · simp [hempty]
    · simp [hd, hempty] at h

/-- An error token has a fault. -/
theorem cut_error {c : Located} {cs : List Located} (h : (cut c cs).token = .error) :
    (cut c cs).fault ≠ none := by
  unfold cut at h ⊢
  cases hdelim : Token.ofDelimiter? c.char with
  | some t =>
    obtain rfl : t = .error := by simpa [hdelim] using h
    rw [ofDelimiter?_eq_some] at hdelim
    simp [delimiters] at hdelim
  | none =>
    by_cases hquote : c.char = '"'
    · simp only [hquote, if_true] at h ⊢
      exact cutString_error h
    · by_cases hword : inWord c = true
      · simp only [hdelim, hquote, hword, if_true, if_false, cutWord] at h ⊢
        exact classifyWord_error h
      · simp [hquote, hword]

/-- Taking an error token reports an error. -/
theorem take_error {stop : Position} {cs : List Located}
    (h : (take stop cs).lexeme.token = .error) : (take stop cs).errors ≠ [] := by
  unfold take at h ⊢
  cases hd : cs.dropWhile (isBlank ·.char) with
  | nil => simp [hd] at h
  | cons c rest =>
    simp only [hd] at h ⊢
    obtain ⟨f, hf⟩ := Option.ne_none_iff_exists'.1 (cut_error h)
    simp [hf]

theorem strayErrors_fault {cs : List Located} {e : LexicalError} (h : e ∈ strayErrors cs) :
    e.fault = .badEncoding ∧ ∃ c ∈ cs, c.glyph.isStray = true := by
  obtain ⟨c, hc, rfl⟩ := List.mem_map.1 h
  obtain ⟨hmem, hstray⟩ := List.mem_filter.1 hc
  exact ⟨rfl, c, hmem, hstray⟩

/-- A report is of a stray byte among the characters, or of the fault of an error token. -/
def Justified (cs : List Located) (t : Token) (e : LexicalError) : Prop :=
  (e.fault = .badEncoding ∧ ∃ c ∈ cs, c.glyph.isStray = true) ∨
    (t = .error ∧ ∀ d, e.fault ≠ .unexpected d)

theorem Justified.mono {cs cs' : List Located} {t : Token} {e : LexicalError}
    (h : Justified cs t e) (hcs : cs ⊆ cs') : Justified cs' t e := by
  rcases h with ⟨hfault, c, hc, hstray⟩ | h
  · exact .inl ⟨hfault, c, hcs hc, hstray⟩
  · exact .inr h

theorem take_errors_justified {stop : Position} {cs : List Located} {e : LexicalError}
    (he : e ∈ (take stop cs).errors) : Justified cs (take stop cs).lexeme.token e := by
  have hstray : ∀ {cs' : List Located}, cs' ⊆ cs → e ∈ strayErrors cs' →
      e.fault = .badEncoding ∧ ∃ c ∈ cs, c.glyph.isStray = true := by
    intro cs' hsub hmem
    obtain ⟨hfault, c, hc, hs⟩ := strayErrors_fault hmem
    exact ⟨hfault, c, hsub hc, hs⟩
  unfold take at he ⊢
  cases hd : cs.dropWhile (isBlank ·.char) with
  | nil =>
    rw [hd] at he
    exact .inl (hstray (List.drop_subset 1 cs) he)
  | cons c rest =>
    rw [hd] at he
    rcases List.mem_append.1 he with he | he
    · exact .inl (hstray (List.Subset.trans (List.take_subset _ _) (List.drop_subset 1 cs)) he)
    · obtain ⟨f, hf, rfl⟩ := Option.map_eq_some_iff.1 (Option.mem_toList.1 he)
      exact .inr (cut_fault (not_blank_of_dropWhile hd) hf)

theorem take_rest_suffix (stop : Position) (cs : List Located) : (take stop cs).rest <:+ cs := by
  have hdrop := List.dropWhile_suffix (l := cs) (isBlank ·.char)
  unfold take
  split
  · exact List.nil_suffix
  · next c rest hd =>
    rw [hd] at hdrop
    exact (cut_rest_suffix rest).trans ((List.suffix_cons c rest).trans hdrop)

theorem takeAll_errors_justified {stop : Position} {cs : List Located}
    {entry : List LexicalError × Lexeme} (hentry : entry ∈ takeAll stop cs) {e : LexicalError}
    (he : e ∈ entry.1) : Justified cs entry.2.token e := by
  fun_induction takeAll stop cs with
  | case1 cs t =>
    obtain rfl : entry = (t.errors, t.lexeme) := by simpa using hentry
    exact take_errors_justified he
  | case2 cs t ht ih =>
    rcases List.mem_cons.1 hentry with rfl | hentry
    · exact take_errors_justified he
    · exact (ih hentry).mono (take_rest_suffix stop cs).subset

/-! ## The text of a source -/

theorem map_glyph_locate (p : Position) (gs : List Text.Glyph) :
    (locate p gs).map Located.glyph = gs := by
  induction gs generalizing p with
  | nil => rfl
  | cons g gs ih => exact congrArg (g :: ·) (ih _)

theorem textOf_locate (p : Position) (gs : List Text.Glyph) :
    textOf (locate p gs) = gs.map Text.Glyph.toChar := by
  have hchar : Located.char = Text.Glyph.toChar ∘ Located.glyph := rfl
  rw [textOf, hchar, ← List.map_map, map_glyph_locate]

end Wordlang.Lexical

namespace Wordlang.Source

open Lexical

/-- A source with the given text. -/
def ofText (file text : String) : Source := .ofBytes file (Text.Utf8.ofString text)

theorem glyphs_ofText (file text : String) :
    (ofText file text).glyphs = text.toList.map Text.Glyph.char :=
  Text.Utf8.decode_ofString text

theorem map_glyph_located (s : Source) : s.located.map Located.glyph = s.glyphs :=
  map_glyph_locate s.start s.glyphs

theorem textOf_located_ofText (file text : String) :
    textOf (ofText file text).located = text.toList := by
  rw [located, textOf_locate, glyphs_ofText, List.map_map]
  exact List.map_id _

theorem not_isStray_ofText {file text : String} {l : Located} (hl : l ∈ (ofText file text).located) :
    ¬ l.glyph.isStray = true := by
  have hglyph : l.glyph ∈ (ofText file text).glyphs := by
    rw [← map_glyph_located]
    exact List.mem_map_of_mem hl
  rw [glyphs_ofText] at hglyph
  obtain ⟨c, -, hc⟩ := List.mem_map.1 hglyph
  rw [← hc]
  exact Bool.false_ne_true

/-- The lexemes of a source are the end of the input and tokens of the grammar. -/
theorem tokenText_of_mem_tokens {s : Source} {l : Lexeme} (hl : l ∈ s.tokens) :
    (l.token = .eof ∧ l.text = "") ∨ ∃ rest text, TokenText rest text l.token l.text := by
  obtain ⟨ps, hps⟩ := exists_splits (textOf s.located)
  have hview := hps.view_eq s.stop rfl
  have hmem : (l.token, l.text) ∈ view s.lexemes := by
    obtain ⟨entry, hentry, rfl⟩ := List.mem_map.1 hl
    exact List.mem_map_of_mem hentry
  rw [lexemes, hview, List.mem_append, List.mem_filterMap, List.mem_singleton] at hmem
  rcases hmem with ⟨p, hp, hkey⟩ | heof
  · obtain ⟨rest, hfits⟩ := hps.fits_of_mem hp
    cases p with
    | blanks bs => cases hkey
    | token text t literal =>
      obtain ⟨rfl, rfl⟩ : t = l.token ∧ literal = l.text := by simpa [Piece.token?] using hkey
      exact .inr ⟨rest, text, hfits⟩
  · exact .inl (Prod.mk.inj heof)

/-- Where there is no lexical error, there is no error token. -/
theorem token_ne_error {s : Source} (h : s.lexicalErrors = []) {l : Lexeme} (hl : l ∈ s.tokens) :
    l.token ≠ .error := by
  obtain ⟨x, hx, rfl⟩ := List.mem_map.1 hl
  obtain ⟨-, hnone⟩ := List.append_eq_nil_iff.1 h
  have hreport : ∀ x ∈ takeAll s.stop s.located, x.2.token = .error → x.1 ≠ [] := by
    generalize s.located = cs
    fun_induction takeAll s.stop cs with
    | case1 cs t ht => exact List.forall_mem_singleton.2 take_error
    | case2 cs t ht ih => exact List.forall_mem_cons.2 ⟨take_error, ih⟩
  exact fun herror => hreport x hx herror (List.flatMap_eq_nil_iff.1 hnone x hx)

/-- A well-encoded source has lexical errors only where it has error tokens, and none of them is a
character that starts no token. -/
theorem lexicalErrors_ofText {file text : String} {e : LexicalError}
    (he : e ∈ (ofText file text).lexicalErrors) :
    (∃ l ∈ (ofText file text).tokens, l.token = .error) ∧ ∀ c, e.fault ≠ .unexpected c := by
  rcases List.mem_append.1 he with he | he
  · -- the source can be read and does not start with a stray byte
    obtain ⟨-, l, hl, hstray⟩ := strayErrors_fault (he : e ∈ strayErrors _)
    exact absurd hstray (not_isStray_ofText (List.mem_of_mem_take hl))
  · obtain ⟨entry, hentry, he⟩ := List.mem_flatMap.1 he
    rcases takeAll_errors_justified hentry he with ⟨-, l, hl, hstray⟩ | ⟨htoken, hfault⟩
    · exact absurd hstray (not_isStray_ofText hl)
    · exact ⟨⟨entry.2, List.mem_map_of_mem hentry, htoken⟩, hfault⟩

/-- Scanning implements the lexical grammar and loses nothing. The text of a source can be split
into maximal runs of blanks and tokens, in one way only; the pieces joined are the text; the lexemes
of the source are the tokens among the pieces, with the kind and the literal that the grammar gives
to their texts, and then the end of the input. No character is ever reported as one that starts no
token. -/
theorem lexemes_split (file text : String) :
    ∃ ps, Splits text.toList ps ∧ (∀ qs, Splits text.toList qs → qs = ps) ∧
      ps.flatMap Piece.text = text.toList ∧
      view (ofText file text).lexemes = ps.filterMap Piece.token? ++ [(.eof, "")] ∧
      ∀ e ∈ (ofText file text).lexicalErrors, ∀ c, e.fault ≠ .unexpected c := by
  obtain ⟨ps, hps⟩ := exists_splits text.toList
  refine ⟨ps, hps, fun qs hqs => hqs.unique hps, hps.text_eq, ?_, ?_⟩
  · exact hps.view_eq _ (textOf_located_ofText file text)
  · intro e he
    exact (lexicalErrors_ofText he).2

end Wordlang.Source
