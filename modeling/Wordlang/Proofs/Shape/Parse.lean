import Wordlang.Proofs.Lexical.Scan
import Wordlang.Proofs.Shape.Static
import Wordlang.Proofs.Static.Lowering

/-!
# Parsing gives the well-shaped trees

Up to positions, the trees that parsing gives are the well-shaped ones. One way, the lexemes of a
source are tokens of its text, so that a derivation has names and literals of the right form at its
leaves. The other way, the spelling of a well-shaped tree is scanned to the tokens it was made of,
and these have a derivation that stands for the tree.
-/

namespace Wordlang

open Grammar Lexical Spelling

/-! ## Tokens of a spelling -/

/-- In front of a character that is not of a word, the token is spelled by its characters; it is
not an error. -/
def Spelt (w : Token × String) : Prop :=
  w.1 ≠ .error ∧ ∀ rest, (∀ c ∈ rest.head?, ¬ InWord c) → TokenText rest (spell w) w.1 w.2

theorem Spelt.mark {c : Char} {t : Token} (h : (c, t) ∈ delimiters) : Spelt (mark c t) := by
  have hall : ∀ p ∈ delimiters, p.2 ≠ .error ∧ spell (Spelling.mark p.1 p.2) = [p.1] := by decide
  obtain ⟨hclean, hspell⟩ := hall (c, t) h
  refine ⟨hclean, fun rest _ => ?_⟩
  rw [hspell]
  exact .delimiter h

theorem Spelt.string {content : String} (hne : content ≠ "") (hquote : '"' ∉ content.toList) :
    Spelt (.string, content) := by
  refine ⟨by simp, fun rest _ => ?_⟩
  have htext : TokenText rest (spell (.string, content)) .string (String.ofList content.toList) :=
    .string hquote (by simpa using hne)
  rwa [String.ofList_toList] at htext

theorem Spelt.name {name : String} (h : IsName name) : Spelt (.name, name) := by
  refine ⟨by simp, fun rest hrest => ?_⟩
  have hsign : name.toList ≠ ['@'] := fun hs => h.no_sign (String.toList_inj.1 hs)
  have htext := TokenText.word (by simpa using h.filled) h.chars hrest
    (.name hsign h.no_int h.no_float)
  rwa [String.ofList_toList] at htext

theorem digit_digitChar {d : Nat} (h : d < 10) : Digit (Nat.digitChar d) := by
  have hall : ∀ d < 10, Digit (Nat.digitChar d) := by decide
  exact hall d h

theorem inWord_of_digit {c : Char} (h : Digit c) : InWord c := by
  have hdelim : (delimiters.map Prod.fst).all (fun d => ¬ Digit d) = true := by decide
  refine ⟨?_, ?_, fun hc => of_decide_eq_true (List.all_eq_true.1 hdelim c hc) h⟩
  · rintro (rfl | rfl | rfl | rfl)
    all_goals exact absurd h (by decide)
  · rintro rfl
    exact absurd h (by decide)

theorem digits_numeral (n : Nat) : Digits (numeral n).toList := by
  rw [numeral, String.toList_ofList]
  refine ⟨by simp, ?_⟩
  intro c hc
  rcases List.mem_cons.1 hc with rfl | hc
  · decide
  · obtain ⟨d, hd, rfl⟩ := List.mem_map.1 hc
    exact digit_digitChar (Nat.digits_lt_base (by decide) (List.mem_reverse.1 hd))

theorem decimalValue_numeral (n : Nat) : decimalValue (numeral n) = n := by
  have hvalue : ∀ d ∈ Nat.digits 10 n, (Nat.digitChar d).toNat - '0'.toNat = d := by
    intro d hd
    rw [Nat.toNat_digitChar_of_lt_ten (Nat.digits_lt_base (by decide) hd)]
    exact Nat.add_sub_cancel_left 48 d
  have hdigits : ((numeral n).toList.map fun c => c.toNat - '0'.toNat).reverse =
      Nat.digits 10 n ++ [0] := by
    rw [numeral, String.toList_ofList, List.map_cons, List.reverse_cons, List.map_reverse,
      List.map_reverse, List.reverse_reverse, List.map_map]
    congr 1
    exact (List.map_congr_left hvalue).trans (List.map_id _)
  rw [decimalValue, hdigits, Nat.ofDigits_append_zero, Nat.ofDigits_digits]

theorem Spelt.int {n : Nat} (h : n ≤ 2147483647) : Spelt (.int, numeral n) := by
  refine ⟨by simp, fun rest hrest => ?_⟩
  have hdigits := digits_numeral n
  have hvalue : decimalValue (String.ofList (numeral n).toList) ≤ 2147483647 := by
    rw [String.ofList_toList, decimalValue_numeral]
    exact h
  have htext := TokenText.word hdigits.1 (fun c hc => inWord_of_digit (hdigits.2 c hc)) hrest
    (.int hdigits hvalue)
  rwa [String.ofList_toList] at htext

/-! ## Scanning a spelling -/

/-- The pieces of a spelling. -/
def pieces (ws : List (Token × String)) : List Piece :=
  ws.flatMap fun w => [.token (spell w) w.1 w.2, .blanks [' ']]

theorem splits_text {ws : List (Token × String)} (h : ∀ w ∈ ws, Spelt w) :
    Splits (text ws) (pieces ws) := by
  induction ws with
  | nil => exact .nil
  | cons w ws ih =>
    have hw : Spelt w := h w (by simp)
    have hws : ∀ v ∈ ws, Spelt v := fun v hv => h v (List.mem_cons_of_mem w hv)
    have hblank : (Piece.blanks [' ']).Fits (text ws) := by
      refine ⟨by simp, List.forall_mem_singleton.2 (by decide), ?_⟩
      -- behind the space stands the next token, or nothing
      cases ws with
      | nil => simp [text]
      | cons v ws =>
        obtain ⟨c, cs, hspell, hc⟩ := ((hws v (by simp)).2 [] (by simp)).text_eq_cons
        simpa [text, hspell] using hc
    have htoken : (Piece.token (spell w) w.1 w.2).Fits (' ' :: text ws) := by
      refine hw.2 _ ?_
      intro c hc
      cases hc
      decide
    have hsplits := Splits.cons htoken (.cons hblank (ih hws))
    simpa [text, pieces, Piece.text] using hsplits

theorem tokens_pieces (ws : List (Token × String)) : (pieces ws).filterMap Piece.token? = ws := by
  induction ws with
  | nil => rfl
  | cons w ws ih =>
    have hpieces : pieces (w :: ws) =
        .token (spell w) w.1 w.2 :: .blanks [' '] :: pieces ws := rfl
    rw [hpieces, List.filterMap_cons, List.filterMap_cons, ih]
    rfl

mutual

theorem words_spelt : ∀ e : Expr, e.Shaped → ∀ w ∈ words e, Spelt w
  | .int _ n, h => by
    rw [Expr.Shaped] at h
    simp only [words, List.forall_mem_singleton]
    exact .int (by omega)
  | .name id, h => by
    simp only [words, List.forall_mem_singleton]
    exact .name h
  | .string _ content, h => by
    simp only [words, List.forall_mem_singleton]
    exact .string h.1 h.2
  | .assign _ target value, h => by
    simp only [words, List.forall_mem_cons]
    exact ⟨.name h.1, .mark (by decide), words_spelt value h.2⟩
  | .call _ callee args, h => by
    simp only [words, List.forall_mem_cons]
    exact ⟨.name h.1, .mark (by decide), listed_spelt args h.2⟩
  | .function _ params body, h => by
    simp only [words, List.forall_mem_cons, List.forall_mem_append]
    have hparams : Expr.ShapedAll params :=
      (Expr.shapedAll_iff params).2 fun p hp => (h.1 p hp).shaped
    exact ⟨.mark (by decide), listed_spelt params hparams, .mark (by decide),
      ended_spelt body h.2, .mark (by decide), List.forall_mem_nil _⟩
  | .absent, h => h.elim
  | .infixTail .., h => h.elim
  | .empty _, h => h.elim

theorem listed_spelt : ∀ es : List Expr, Expr.ShapedAll es → ∀ w ∈ listed es, Spelt w
  | [], _ => by
    simp only [listed, List.forall_mem_singleton]
    exact .mark (by decide)
  | [e], h => by
    simp only [listed, List.forall_mem_append, List.forall_mem_singleton]
    exact ⟨words_spelt e h.1, .mark (by decide)⟩
  | e :: e' :: es, h => by
    simp only [listed, List.forall_mem_append, List.forall_mem_cons]
    exact ⟨words_spelt e h.1, .mark (by decide), listed_spelt (e' :: es) h.2⟩

theorem ended_spelt : ∀ es : List Expr, Expr.ShapedAll es → ∀ w ∈ ended es, Spelt w
  | [], _ => by simp only [ended, List.not_mem_nil, false_implies, implies_true]
  | e :: es, h => by
    simp only [ended, List.forall_mem_append, List.forall_mem_cons]
    exact ⟨words_spelt e h.1, .mark (by decide), ended_spelt es h.2⟩

end

/-! ## Derivations of a spelling -/

/-- The kind and the literal of a lexeme. -/
def Lexeme.key (l : Lexeme) : Token × String := (l.token, l.text)

theorem Lexeme.key_eq_cons {ls : List Lexeme} {t : Token} {literal : String}
    {ws : List (Token × String)} (h : ls.map Lexeme.key = (t, literal) :: ws) :
    ∃ l : Terminal t, ∃ rest, ls = l.val :: rest ∧ l.val.text = literal ∧
      rest.map Lexeme.key = ws := by
  obtain ⟨l, rest, rfl, hl, hrest⟩ := List.map_eq_cons_iff.1 h
  exact ⟨⟨l, congrArg Prod.fst hl⟩, rest, rfl, congrArg Prod.snd hl, hrest⟩

theorem exists_nameList : ∀ (p : Expr) (ps : List Expr), (∀ q ∈ p :: ps, q.IsParameter) →
    ∀ {ls : List Lexeme}, ls.map Lexeme.key = listed (p :: ps) →
    ∃ ns : NameList, ns.yield = ls ∧ Expr.eraseAll ns.trees = Expr.eraseAll (p :: ps)
  | p, [], h, ls, hls => by
    obtain ⟨id, rfl, -⟩ := (h p (by simp)).eq_name
    simp only [listed, words, List.singleton_append] at hls
    obtain ⟨name, ls, rfl, hname, hls⟩ := Lexeme.key_eq_cons hls
    obtain ⟨close, ls, rfl, -, hls⟩ := Lexeme.key_eq_cons hls
    obtain rfl : ls = [] := List.map_eq_nil_iff.1 hls
    refine ⟨.last name close, rfl, ?_⟩
    simp only [NameList.trees, Expr.eraseAll, Expr.erase, Terminal.ident, Ident.erase, hname]
  | p, q :: ps, h, ls, hls => by
    obtain ⟨id, rfl, -⟩ := (h p (by simp)).eq_name
    simp only [listed, words, List.singleton_append] at hls
    obtain ⟨name, ls, rfl, hname, hls⟩ := Lexeme.key_eq_cons hls
    obtain ⟨comma, ls, rfl, -, hls⟩ := Lexeme.key_eq_cons hls
    obtain ⟨ns, rfl, hns⟩ := exists_nameList q ps (fun r hr => h r (List.mem_cons_of_mem _ hr)) hls
    refine ⟨.more name comma ns, rfl, ?_⟩
    rw [NameList.trees, Expr.eraseAll, hns, Expr.eraseAll.eq_2 _ (q :: ps)]
    simp only [Expr.erase, Terminal.ident, Ident.erase, hname]

theorem exists_params (ps : List Expr) (h : ∀ q ∈ ps, q.IsParameter) {ls : List Lexeme}
    (hls : ls.map Lexeme.key = listed ps) :
    ∃ d : Params, d.yield = ls ∧ Expr.eraseAll d.trees = Expr.eraseAll ps := by
  cases ps with
  | nil =>
    simp only [listed] at hls
    obtain ⟨close, ls, rfl, -, hls⟩ := Lexeme.key_eq_cons hls
    obtain rfl : ls = [] := List.map_eq_nil_iff.1 hls
    exact ⟨.empty close, rfl, rfl⟩
  | cons p ps =>
    obtain ⟨ns, rfl, hns⟩ := exists_nameList p ps h hls
    exact ⟨.list ns, rfl, hns⟩

mutual

/-- Lexemes that spell a well-shaped tree have a derivation that stands for the tree. -/
theorem exists_phrase : ∀ e : Expr, e.Shaped → ∀ {ls : List Lexeme}, ls.map Lexeme.key = words e →
    ∃ d : Phrase, d.yield = ls ∧ d.tree.erase = e.erase
  | .int _ n, h, ls, hls => by
    obtain ⟨l, ls, rfl, hl, hls⟩ := Lexeme.key_eq_cons hls
    obtain rfl : ls = [] := List.map_eq_nil_iff.1 hls
    refine ⟨.atom (.int l), rfl, ?_⟩
    have hn : Int32.ofNat (decimalValue l.val.text) = n := by
      rw [Expr.Shaped] at h
      rw [hl, decimalValue_numeral, ← Int32.toInt_inj, Int32.toInt_ofNat_of_lt (by omega)]
      omega
    simp only [Phrase.tree, Atom.tree, Expr.erase, hn]
  | .name id, h, ls, hls => by
    obtain ⟨l, ls, rfl, hl, hls⟩ := Lexeme.key_eq_cons hls
    obtain rfl : ls = [] := List.map_eq_nil_iff.1 hls
    refine ⟨.atom (.name l), rfl, ?_⟩
    simp only [Phrase.tree, Atom.tree, Expr.erase, Terminal.ident, Ident.erase, hl]
  | .string _ content, h, ls, hls => by
    obtain ⟨l, ls, rfl, hl, hls⟩ := Lexeme.key_eq_cons hls
    obtain rfl : ls = [] := List.map_eq_nil_iff.1 hls
    refine ⟨.atom (.string l), rfl, ?_⟩
    simp only [Phrase.tree, Atom.tree, Expr.erase, hl]
  | .assign _ target value, h, ls, hls => by
    obtain ⟨name, ls, rfl, hname, hls⟩ := Lexeme.key_eq_cons hls
    obtain ⟨sign, ls, rfl, -, hls⟩ := Lexeme.key_eq_cons hls
    obtain ⟨d, rfl, hd⟩ := exists_phrase value h.2 hls
    refine ⟨.assign name sign d, rfl, ?_⟩
    simp only [Phrase.tree, Expr.erase, Terminal.ident, Ident.erase, hname, hd]
  | .call _ callee args, h, ls, hls => by
    obtain ⟨name, ls, rfl, hname, hls⟩ := Lexeme.key_eq_cons hls
    obtain ⟨paren, ls, rfl, -, hls⟩ := Lexeme.key_eq_cons hls
    obtain ⟨d, rfl, hd, -⟩ := exists_args args h.2 hls
    refine ⟨.call name paren d, rfl, ?_⟩
    simp only [Phrase.tree, Expr.erase, Terminal.ident, Ident.erase, hname, hd]
  | .function _ params body, h, ls, hls => by
    obtain ⟨paren, ls, rfl, -, hls⟩ := Lexeme.key_eq_cons hls
    obtain ⟨ls₁, ls₂, rfl, hparams, hrest⟩ := List.map_eq_append_iff.1 hls
    obtain ⟨ps, rfl, hps⟩ := exists_params params h.1 hparams
    obtain ⟨brace, ls, rfl, -, hrest⟩ := Lexeme.key_eq_cons hrest
    obtain ⟨ls₃, ls₄, rfl, hbody, hclose⟩ := List.map_eq_append_iff.1 hrest
    obtain ⟨b, rfl, hb⟩ := exists_block body h.2 hbody
    obtain ⟨close, ls, rfl, -, hls⟩ := Lexeme.key_eq_cons hclose
    obtain rfl : ls = [] := List.map_eq_nil_iff.1 hls
    refine ⟨.function paren ps brace b close, rfl, ?_⟩
    simp only [Phrase.tree, Expr.erase, hps, hb]
  | .absent, h, _, _ => h.elim
  | .infixTail .., h, _, _ => h.elim
  | .empty _, h, _, _ => h.elim

theorem exists_args : ∀ es : List Expr, Expr.ShapedAll es → ∀ {ls : List Lexeme},
    ls.map Lexeme.key = listed es →
    ∃ d : Args, d.yield = ls ∧ Expr.eraseAll d.trees = Expr.eraseAll es ∧
      (es ≠ [] → ∃ l, d = .list l)
  | [], _, ls, hls => by
    obtain ⟨close, ls, rfl, -, hls⟩ := Lexeme.key_eq_cons hls
    obtain rfl : ls = [] := List.map_eq_nil_iff.1 hls
    exact ⟨.empty close, rfl, rfl, fun hne => absurd rfl hne⟩
  | [e], h, ls, hls => by
    obtain ⟨ls₁, ls₂, rfl, he, hrest⟩ := List.map_eq_append_iff.1 hls
    obtain ⟨d, rfl, hd⟩ := exists_phrase e h.1 he
    obtain ⟨close, ls, rfl, -, hls⟩ := Lexeme.key_eq_cons hrest
    obtain rfl : ls = [] := List.map_eq_nil_iff.1 hls
    refine ⟨.list (.last d close), rfl, ?_, fun _ => ⟨_, rfl⟩⟩
    simp only [Args.trees, ArgList.trees, Expr.eraseAll, hd]
  | e :: e' :: es, h, ls, hls => by
    obtain ⟨ls₁, ls₂, rfl, he, hrest⟩ := List.map_eq_append_iff.1 hls
    obtain ⟨d, rfl, hd⟩ := exists_phrase e h.1 he
    obtain ⟨comma, ls, rfl, -, hls⟩ := Lexeme.key_eq_cons hrest
    obtain ⟨a, rfl, ha, hlist⟩ := exists_args (e' :: es) h.2 hls
    obtain ⟨l, rfl⟩ := hlist (by simp)
    refine ⟨.list (.more d comma l), rfl, ?_, fun _ => ⟨_, rfl⟩⟩
    rw [Args.trees, ArgList.trees, Expr.eraseAll, hd, Expr.eraseAll.eq_2 e (e' :: es), ← ha]
    rfl

theorem exists_block : ∀ es : List Expr, Expr.ShapedAll es → ∀ {ls : List Lexeme},
    ls.map Lexeme.key = ended es →
    ∃ d : Block, d.yield = ls ∧ Expr.eraseAll d.trees = Expr.eraseAll es
  | [], _, ls, hls => by
    obtain rfl : ls = [] := List.map_eq_nil_iff.1 hls
    exact ⟨.empty, rfl, rfl⟩
  | e :: es, h, ls, hls => by
    obtain ⟨ls₁, ls₂, rfl, he, hrest⟩ := List.map_eq_append_iff.1 hls
    obtain ⟨d, rfl, hd⟩ := exists_phrase e h.1 he
    obtain ⟨semicolon, ls, rfl, -, hls⟩ := Lexeme.key_eq_cons hrest
    obtain ⟨b, rfl, hb⟩ := exists_block es h.2 hls
    cases b with
    | empty =>
      refine ⟨.list (.ended d semicolon), rfl, ?_⟩
      rw [Expr.eraseAll, ← hd, ← hb]
      rfl
    | list ds =>
      refine ⟨.list (.more d semicolon ds), rfl, ?_⟩
      rw [Expr.eraseAll, ← hd, ← hb]
      rfl

end

/-! ## Lexemes of a source -/

/-- What the literal of a token of the kind has to be, as far as trees keep it. -/
def Literal : Token → String → Prop
  | .name, literal => IsName literal
  | .int, literal => decimalValue literal ≤ 2147483647
  | .string, literal => literal ≠ "" ∧ '"' ∉ literal.toList
  | _, _ => True

theorem Lexical.TokenText.literal {rest text : List Char} {t : Token} {literal : String}
    (h : TokenText rest text t literal) : Literal t literal := by
  cases h with
  | @delimiter c t entry =>
    have hall : ∀ p ∈ delimiters, Literal p.2 (String.singleton p.1) := by
      simp [delimiters, Literal]
    exact hall (c, t) entry
  | string unquoted filled => exact ⟨by simpa using filled, by simpa using unquoted⟩
  | emptyString => trivial
  | unterminated => trivial
  | @word w t filled chars _ kind =>
    cases kind with
    | int _ fits => exact fits
    | name no_sign no_int no_float =>
      refine ⟨by simpa using filled, by simpa using chars, ?_, by simpa using no_int,
        by simpa using no_float⟩
      intro hsign
      exact no_sign (by simpa using congrArg String.toList hsign)
    | _ => trivial

theorem literal_of_mem_tokens {s : Source} {l : Lexeme} (hl : l ∈ s.tokens) :
    Literal l.token l.text := by
  rcases s.tokenText_of_mem_tokens hl with ⟨htoken, -⟩ | ⟨rest, text, htext⟩
  · rw [htoken]
    trivial
  · exact htext.literal

/-! ## The tree of a derivation -/

/-- Each of the lexemes has a literal of the right form. -/
def Literals (ls : List Lexeme) : Prop := ∀ l ∈ ls, Literal l.token l.text

theorem Literals.cons {l : Lexeme} {ls : List Lexeme} (h : Literals (l :: ls)) :
    Literal l.token l.text ∧ Literals ls :=
  List.forall_mem_cons.1 h

theorem Literals.append {ls ls' : List Lexeme} (h : Literals (ls ++ ls')) :
    Literals ls ∧ Literals ls' :=
  List.forall_mem_append.1 h

theorem Literals.ident {l : Terminal .name} {ls : List Lexeme} (h : Literals (l.val :: ls)) :
    IsName l.ident.name := by
  have hliteral := h.cons.1
  rwa [l.property] at hliteral

theorem Grammar.Atom.shaped (a : Atom) (h : Literal a.lexeme.token a.lexeme.text) :
    a.tree.Shaped := by
  cases a with
  | name l =>
    rw [Atom.lexeme, l.property] at h
    exact h
  | int l =>
    rw [Atom.lexeme, l.property] at h
    have hvalue : decimalValue l.val.text ≤ 2147483647 := h
    rw [Atom.tree, Expr.Shaped, Int32.toInt_ofNat_of_lt (by omega)]
    omega
  | string l =>
    rw [Atom.lexeme, l.property] at h
    exact h

theorem Grammar.NameList.isParameter (ns : NameList) (h : Literals ns.yield) :
    ∀ p ∈ ns.trees, p.IsParameter := by
  induction ns with
  | last name close => simpa [NameList.trees, Expr.IsParameter] using h.ident
  | more name comma ns ih =>
    rw [NameList.trees, List.forall_mem_cons]
    exact ⟨h.ident, ih h.cons.2.cons.2⟩

theorem Grammar.Params.isParameter (ps : Params) (h : Literals ps.yield) :
    ∀ p ∈ ps.trees, p.IsParameter := by
  cases ps with
  | empty close => simp [Params.trees]
  | list ns => exact ns.isParameter h

mutual

/-- The tree of a derivation is well-shaped if its lexemes have literals of the right form. -/
theorem Grammar.Phrase.shaped : ∀ d : Phrase, Literals d.yield → d.tree.Shaped
  | .assign name sign value, h => ⟨h.ident, value.shaped h.cons.2.cons.2⟩
  | .call name paren args, h => ⟨h.ident, args.shaped h.cons.2.cons.2⟩
  | .function paren params brace body close, h => by
    obtain ⟨hparams, hrest⟩ := h.cons.2.append
    exact ⟨params.isParameter hparams, body.shaped hrest.cons.2.append.1⟩
  | .atom a, h => by
    rw [Phrase.tree]
    exact a.shaped h.cons.1
  | .operation a op rhs, h =>
    ⟨h.cons.2.ident, a.shaped h.cons.1, rhs.shaped h.cons.2.cons.2, trivial⟩

theorem Grammar.Args.shaped : ∀ d : Args, Literals d.yield → Expr.ShapedAll d.trees
  | .empty _, _ => trivial
  | .list l, h => l.shaped h

theorem Grammar.ArgList.shaped : ∀ d : ArgList, Literals d.yield → Expr.ShapedAll d.trees
  | .last e _, h => ⟨e.shaped h.append.1, trivial⟩
  | .more e _ rest, h => ⟨e.shaped h.append.1, rest.shaped h.append.2.cons.2⟩

theorem Grammar.Block.shaped : ∀ d : Block, Literals d.yield → Expr.ShapedAll d.trees
  | .empty, _ => trivial
  | .list l, h => l.shaped h

theorem Grammar.Phrases.shaped : ∀ d : Phrases, Literals d.yield → Expr.ShapedAll d.trees
  | .last e, h => ⟨e.shaped h, trivial⟩
  | .ended e _, h => ⟨e.shaped h.append.1, trivial⟩
  | .more e _ rest, h => ⟨e.shaped h.append.1, rest.shaped h.append.2.cons.2⟩

end

theorem cleanLexemes_subset (ls : List (List LexicalError × Lexeme)) :
    (cleanLexemes ls).1 ⊆ ls.map Prod.snd := by
  induction ls with
  | nil => simp [cleanLexemes]
  | cons entry ls ih =>
    obtain ⟨errors, l⟩ := entry
    cases errors with
    | nil => exact List.cons_subset_cons l ih
    | cons e es => simp [cleanLexemes]

/-- What parsing gives is derived from lexemes of the source. -/
theorem Source.exists_block_of_parse {s : Source} {es : List Expr} (h : s.parse = .ok es) :
    ∃ b : Block, b.trees = es ∧ b.yield ⊆ s.tokens := by
  have hinput : s.parserInput.1 ⊆ s.tokens := by
    unfold parserInput
    split
    · simp
    · exact cleanLexemes_subset s.lexemes
  obtain ⟨b, stop, rest, hes, hyield⟩ := Parse.program_sound h
  refine ⟨b, hes, fun l hl => hinput ?_⟩
  have hmem : l ∈ b.yield ++ stop.val :: rest := List.mem_append_left _ hl
  rwa [hyield] at hmem

/-- What parsing gives is well-shaped. -/
theorem Source.shapedAll_of_parse {s : Source} {es : List Expr} (h : s.parse = .ok es) :
    Expr.ShapedAll es := by
  obtain ⟨b, rfl, hyield⟩ := exists_block_of_parse h
  exact b.shaped fun l hl => literal_of_mem_tokens (hyield hl)

/-- What is well-shaped is parsed from its spelling. -/
theorem Source.exists_parse {es : List Expr} (h : Expr.ShapedAll es) :
    ∃ s : Source, ∃ es', s.parse = .ok es' ∧ Expr.eraseAll es' = Expr.eraseAll es := by
  have hspelt := ended_spelt es h
  let s := Source.ofText "" (String.ofList (text (ended es)))
  have hview : view s.lexemes = ended es ++ [(.eof, "")] := by
    have htext : textOf s.located = text (ended es) := by
      rw [textOf_located_ofText, String.toList_ofList]
    have hsplits := (splits_text hspelt).view_eq s.stop htext
    rwa [tokens_pieces] at hsplits
  have hkeys : s.tokens.map Lexeme.key = ended es ++ [(.eof, "")] := by
    rw [← hview, tokens, List.map_map]
    rfl
  obtain ⟨ls, ls', hls, hbody, hstop⟩ := List.map_eq_append_iff.1 hkeys
  obtain ⟨b, rfl, hb⟩ := exists_block es h hbody
  obtain ⟨stop, ls, rfl, -, hnil⟩ := Lexeme.key_eq_cons hstop
  obtain rfl : ls = [] := List.map_eq_nil_iff.1 hnil
  have herrors : s.lexicalErrors = [] := by
    rw [List.eq_nil_iff_forall_not_mem]
    intro e he
    obtain ⟨⟨l, hl, hl'⟩, -⟩ := lexicalErrors_ofText he
    have hkey : l.key ∈ ended es ++ [(.eof, "")] := hkeys ▸ List.mem_map_of_mem hl
    rcases List.mem_append.1 hkey with hkey | hkey
    · exact (hspelt _ hkey).1 hl'
    · have heof : l.token = .eof := congrArg Prod.fst (List.mem_singleton.1 hkey)
      rw [heof] at hl'
      cases hl'
  exact ⟨s, b.trees, (parse_eq_ok_iff herrors _).2 ⟨⟨b, stop⟩, hls.symm, rfl⟩, hb⟩

/-- Up to positions, expressions are the result of parsing a source if and only if all of them are
well-shaped. Lowering what was parsed therefore never fails for a placeholder in the tree or for a
parameter that is no name. -/
theorem Source.parse_image :
    (∀ es : List Expr, (∃ s : Source, ∃ es', s.parse = .ok es' ∧
      Expr.eraseAll es' = Expr.eraseAll es) ↔ ∀ e ∈ es, e.Shaped) ∧
    ∀ (s : Source) (es : List Expr) (o : CompileOptions) (e : LoweringError),
      s.parse = .ok es → (lower o es).failure = some (.lowering e) →
      e.fault.kind? ≠ some .unsupportedNode ∧ e.fault.kind? ≠ some .unknownParameterShape := by
  refine ⟨fun es => ⟨?_, ?_⟩, ?_⟩
  · rintro ⟨s, es', hparse, heq⟩
    have hshaped : Expr.ShapedAll (Expr.eraseAll es') :=
      (Expr.shapedAll_eraseAll es').2 (shapedAll_of_parse hparse)
    rw [heq, Expr.shapedAll_eraseAll] at hshaped
    exact (Expr.shapedAll_iff es).1 hshaped
  · intro h
    exact exists_parse ((Expr.shapedAll_iff es).2 h)
  · intro s es o e hparse he
    have hprogram : Static.program es = .error e :=
      (Static.program_error_iff _ _ es e).2 ((Static.lower_failure_iff o es e).1 he)
    exact Static.program_safe (shapedAll_of_parse hparse) hprogram

end Wordlang
