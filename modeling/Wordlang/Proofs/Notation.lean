import Wordlang.Proofs.Parser.Reports
import Wordlang.Proofs.Positions.Compile
import Wordlang.Proofs.Positions.Parse

/-!
# Layout and notation do not matter

Derivations are alike if they differ in positions, in trailing semicolons and in the notation of
calls with two arguments, of which the first is an atom: such a call may stand in front of its
arguments or between them. Alike derivations stand for trees that differ in positions only.
-/

namespace Wordlang

open Grammar

namespace Grammar

/-! ## Alike derivations -/

/-- The same atom, perhaps at another place. -/
inductive Atom.Alike : Atom → Atom → Prop
  | name {l l' : Terminal .name} (h : l.val.text = l'.val.text) : Atom.Alike (.name l) (.name l')
  | int {l l' : Terminal .int} (h : l.val.text = l'.val.text) : Atom.Alike (.int l) (.int l')
  | string {l l' : Terminal .string} (h : l.val.text = l'.val.text) :
    Atom.Alike (.string l) (.string l')

/-- The same names, perhaps at other places. -/
inductive NameList.Alike : NameList → NameList → Prop
  | last {name name' : Terminal .name} {close close' : Terminal .closeParen}
    (hname : name.val.text = name'.val.text) : NameList.Alike (.last name close) (.last name' close')
  | more {name name' : Terminal .name} {comma comma' : Terminal .comma} {ns ns' : NameList}
    (hname : name.val.text = name'.val.text) (hns : NameList.Alike ns ns') :
    NameList.Alike (.more name comma ns) (.more name' comma' ns')

/-- The same parameters, perhaps at other places. -/
inductive Params.Alike : Params → Params → Prop
  | empty {close close' : Terminal .closeParen} : Params.Alike (.empty close) (.empty close')
  | list {ns ns' : NameList} (h : ns.Alike ns') : Params.Alike (.list ns) (.list ns')

mutual

/-- The same expression, perhaps at another place and with other trailing semicolons, and with
operations for calls or calls for operations. -/
inductive Phrase.Alike : Phrase → Phrase → Prop
  | assign {name name' : Terminal .name} {sign sign' : Terminal .assign} {value value' : Phrase}
    (hname : name.val.text = name'.val.text) (hvalue : Phrase.Alike value value') :
    Phrase.Alike (.assign name sign value) (.assign name' sign' value')
  | call {name name' : Terminal .name} {paren paren' : Terminal .openParen} {args args' : Args}
    (hname : name.val.text = name'.val.text) (hargs : Args.Alike args args') :
    Phrase.Alike (.call name paren args) (.call name' paren' args')
  | function {paren paren' : Terminal .openParen} {ps ps' : Params}
    {brace brace' : Terminal .openBrace} {body body' : Block} {close close' : Terminal .closeBrace}
    (hps : ps.Alike ps') (hbody : Block.Alike body body') :
    Phrase.Alike (.function paren ps brace body close) (.function paren' ps' brace' body' close')
  | atom {a a' : Atom} (ha : a.Alike a') : Phrase.Alike (.atom a) (.atom a')
  | operation {a a' : Atom} {op op' : Terminal .name} {rhs rhs' : Phrase} (ha : a.Alike a')
    (hop : op.val.text = op'.val.text) (hrhs : Phrase.Alike rhs rhs') :
    Phrase.Alike (.operation a op rhs) (.operation a' op' rhs')
  | prefixed {a a' : Atom} {op name : Terminal .name} {rhs rhs' : Phrase}
    {paren : Terminal .openParen} {comma : Terminal .comma} {close : Terminal .closeParen}
    (ha : a.Alike a') (hop : op.val.text = name.val.text) (hrhs : Phrase.Alike rhs rhs') :
    Phrase.Alike (.operation a op rhs)
      (.call name paren (.list (.more (.atom a') comma (.last rhs' close))))
  | infixed {a a' : Atom} {op name : Terminal .name} {rhs rhs' : Phrase}
    {paren : Terminal .openParen} {comma : Terminal .comma} {close : Terminal .closeParen}
    (ha : a.Alike a') (hop : name.val.text = op.val.text) (hrhs : Phrase.Alike rhs rhs') :
    Phrase.Alike (.call name paren (.list (.more (.atom a) comma (.last rhs close))))
      (.operation a' op rhs')

/-- The same arguments, up to layout and notation. -/
inductive Args.Alike : Args → Args → Prop
  | empty {close close' : Terminal .closeParen} : Args.Alike (.empty close) (.empty close')
  | list {l l' : ArgList} (h : ArgList.Alike l l') : Args.Alike (.list l) (.list l')

/-- The same list of arguments, up to layout and notation. -/
inductive ArgList.Alike : ArgList → ArgList → Prop
  | last {e e' : Phrase} {close close' : Terminal .closeParen} (he : Phrase.Alike e e') :
    ArgList.Alike (.last e close) (.last e' close')
  | more {e e' : Phrase} {comma comma' : Terminal .comma} {l l' : ArgList} (he : Phrase.Alike e e')
    (hl : ArgList.Alike l l') : ArgList.Alike (.more e comma l) (.more e' comma' l')

/-- The same block, up to layout and notation. -/
inductive Block.Alike : Block → Block → Prop
  | empty : Block.Alike .empty .empty
  | list {l l' : Phrases} (h : Phrases.Alike l l') : Block.Alike (.list l) (.list l')

/-- The same expressions, up to layout and notation: behind the last one may stand a semicolon. -/
inductive Phrases.Alike : Phrases → Phrases → Prop
  | last {e e' : Phrase} (he : Phrase.Alike e e') : Phrases.Alike (.last e) (.last e')
  | ended {e e' : Phrase} {s s' : Terminal .semicolon} (he : Phrase.Alike e e') :
    Phrases.Alike (.ended e s) (.ended e' s')
  | added {e e' : Phrase} {s : Terminal .semicolon} (he : Phrase.Alike e e') :
    Phrases.Alike (.last e) (.ended e' s)
  | dropped {e e' : Phrase} {s : Terminal .semicolon} (he : Phrase.Alike e e') :
    Phrases.Alike (.ended e s) (.last e')
  | more {e e' : Phrase} {s s' : Terminal .semicolon} {l l' : Phrases} (he : Phrase.Alike e e')
    (hl : Phrases.Alike l l') : Phrases.Alike (.more e s l) (.more e' s' l')

end

/-- The same program, up to layout and notation. -/
def Program.Alike (d d' : Program) : Prop := d.block.Alike d'.block

/-! ## Alike trees -/

theorem Terminal.erase_ident {l l' : Terminal .name} (h : l.val.text = l'.val.text) :
    l.ident.erase = l'.ident.erase := by
  simp only [Terminal.ident, Ident.erase, h]

theorem Atom.Alike.erase_tree {a a' : Atom} (h : a.Alike a') : a.tree.erase = a'.tree.erase := by
  cases h with
  | name h => simp only [Atom.tree, Expr.erase, Terminal.erase_ident h]
  | int h => simp only [Atom.tree, Expr.erase, h]
  | string h => simp only [Atom.tree, Expr.erase, h]

theorem NameList.Alike.erase_trees {ns ns' : NameList} (h : ns.Alike ns') :
    Expr.eraseAll ns.trees = Expr.eraseAll ns'.trees := by
  induction h with
  | last hname => simp only [NameList.trees, Expr.eraseAll, Expr.erase, Terminal.erase_ident hname]
  | more hname _ ih =>
    simp only [NameList.trees, Expr.eraseAll, Expr.erase, Terminal.erase_ident hname, ih]

theorem Params.Alike.erase_trees {ps ps' : Params} (h : ps.Alike ps') :
    Expr.eraseAll ps.trees = Expr.eraseAll ps'.trees := by
  cases h with
  | empty => rfl
  | list h => exact h.erase_trees

mutual

theorem Phrase.Alike.erase_tree {p p' : Phrase} (h : p.Alike p') : p.tree.erase = p'.tree.erase := by
  match h with
  | .assign hname hvalue =>
    simp only [Phrase.tree, Expr.erase, Terminal.erase_ident hname, hvalue.erase_tree]
  | .call hname hargs =>
    simp only [Phrase.tree, Expr.erase, Terminal.erase_ident hname, hargs.erase_trees]
  | .function hps hbody =>
    simp only [Phrase.tree, Expr.erase, hps.erase_trees, hbody.erase_trees]
  | .atom ha => exact ha.erase_tree
  | .operation ha hop hrhs =>
    simp only [Phrase.tree, Expr.erase, Expr.eraseAll, Terminal.erase_ident hop, ha.erase_tree,
      hrhs.erase_tree]
  | .prefixed ha hop hrhs =>
    simp only [Phrase.tree, Args.trees, ArgList.trees, Expr.erase, Expr.eraseAll,
      Terminal.erase_ident hop, ha.erase_tree, hrhs.erase_tree]
  | .infixed ha hop hrhs =>
    simp only [Phrase.tree, Args.trees, ArgList.trees, Expr.erase, Expr.eraseAll,
      Terminal.erase_ident hop, ha.erase_tree, hrhs.erase_tree]

theorem Args.Alike.erase_trees {a a' : Args} (h : a.Alike a') :
    Expr.eraseAll a.trees = Expr.eraseAll a'.trees := by
  match h with
  | .empty => rfl
  | .list h => exact h.erase_trees

theorem ArgList.Alike.erase_trees {l l' : ArgList} (h : l.Alike l') :
    Expr.eraseAll l.trees = Expr.eraseAll l'.trees := by
  match h with
  | .last he => simp only [ArgList.trees, Expr.eraseAll, he.erase_tree]
  | .more he hl => simp only [ArgList.trees, Expr.eraseAll, he.erase_tree, hl.erase_trees]

theorem Block.Alike.erase_trees {b b' : Block} (h : b.Alike b') :
    Expr.eraseAll b.trees = Expr.eraseAll b'.trees := by
  match h with
  | .empty => rfl
  | .list h => exact h.erase_trees

theorem Phrases.Alike.erase_trees {l l' : Phrases} (h : l.Alike l') :
    Expr.eraseAll l.trees = Expr.eraseAll l'.trees := by
  match h with
  | .last he => simp only [Phrases.trees, Expr.eraseAll, he.erase_tree]
  | .ended he => simp only [Phrases.trees, Expr.eraseAll, he.erase_tree]
  | .added he => simp only [Phrases.trees, Expr.eraseAll, he.erase_tree]
  | .dropped he => simp only [Phrases.trees, Expr.eraseAll, he.erase_tree]
  | .more he hl => simp only [Phrases.trees, Expr.eraseAll, he.erase_tree, hl.erase_trees]

end

end Grammar

/-! ## Outcomes -/

/-- The same text, and failures that differ in their positions only. -/
structure Compiled.Agrees (c c' : Compiled) : Prop where
  text : c.text = c'.text
  failure : c.failure.map CompileFailure.erase = c'.failure.map CompileFailure.erase

namespace Source

theorem agrees_of_erase {es es' : List Expr} (h : Expr.eraseAll es = Expr.eraseAll es')
    (o : CompileOptions) : (compile o es).Agrees (compile o es') :=
  ⟨(compile_congr h o).1, (compile_congr h o).2⟩

/-- Layout and notation do not change the program.

* Sources with the same tokens are either both refused, with the same message, or both parsed, and
  then compiled to the same text, with errors that differ in their positions only, if any.
* The same goes for two sources that can be parsed, with derivations that differ in trailing
  semicolons, of the program and of function bodies, and in infix forms that are written as calls. -/
theorem layout_notation_irrelevant (s s' : Source) :
    (s.lexicalErrors = [] → s'.lexicalErrors = [] →
      s.tokens.map Lexeme.key = s'.tokens.map Lexeme.key →
      (∃ e e', s.parse = .error e ∧ s'.parse = .error e' ∧ e.fault.message = e'.fault.message) ∨
      ∃ es es', s.parse = .ok es ∧ s'.parse = .ok es' ∧
        ∀ o, (compile o es).Agrees (compile o es')) ∧
    ∀ es es', s.parse = .ok es → s'.parse = .ok es' →
      ∀ d d' : Grammar.Program, d.yield = s.tokens → d'.yield = s'.tokens → d.Alike d' →
        ∀ o, (compile o es).Agrees (compile o es') := by
  refine ⟨?_, ?_⟩
  · intro h h' hkeys
    have hparse := parse_congr h h' hkeys
    cases hs : s.parse with
    | error e =>
      cases hs' : s'.parse with
      | ok es' =>
        rw [hs, hs'] at hparse
        cases hparse
      | error e' =>
        rw [hs, hs'] at hparse
        have herase : e.fault.erase = e'.fault.erase :=
          congrArg SyntaxError.fault (Except.error.inj hparse)
        refine .inl ⟨e, e', rfl, rfl, ?_⟩
        rw [← e.fault.message_erase, herase, e'.fault.message_erase]
    | ok es =>
      cases hs' : s'.parse with
      | error e' =>
        rw [hs, hs'] at hparse
        cases hparse
      | ok es' =>
        rw [hs, hs'] at hparse
        exact .inr ⟨es, es', rfl, rfl, agrees_of_erase (Except.ok.inj hparse)⟩
  · intro es es' hs hs' d d' hd hd' hlike
    -- a text has one derivation, so its tree is that of the given one
    have htrees := (parse_eq_ok_iff (lexicalErrors_of_parse hs) _).2 ⟨d, hd, rfl⟩
    have htrees' := (parse_eq_ok_iff (lexicalErrors_of_parse hs') _).2 ⟨d', hd', rfl⟩
    obtain rfl : es = d.trees := Except.ok.inj (hs.symm.trans htrees)
    obtain rfl : es' = d'.trees := Except.ok.inj (hs'.symm.trans htrees')
    exact agrees_of_erase hlike.erase_trees

/-- The lexeme of a source with the given number, read as one of the kind that is asked for. -/
def terminal (s : Source) {t : Token} (i : Nat) : Terminal t :=
  ⟨{ s.tokens.getD i default with token := t }, rfl⟩

/-- A program in three styles. -/
def terse : Source := .ofBytes "a" (Text.Utf8.ofString "f=(x){x + 1};f(2)")

/-- The same tokens with another layout. -/
def spaced : Source := .ofBytes "b" (Text.Utf8.ofString "f = (x)\n  { x  +  1 };\n\nf ( 2 )\n")

/-- The same program with another notation. -/
def formal : Source := .ofBytes "c" (Text.Utf8.ofString "f = (x) { +(x, 1); }; f(2);")

/-- The derivation of the first text. -/
def terseDerivation : Grammar.Program where
  block := .list <|
    .more (.assign (terse.terminal 0) (terse.terminal 1) <|
      .function (terse.terminal 2) (.list (.last (terse.terminal 3) (terse.terminal 4)))
        (terse.terminal 5)
        (.list (.last (.operation (.name (terse.terminal 6)) (terse.terminal 7)
          (.atom (.int (terse.terminal 8))))))
        (terse.terminal 9)) (terse.terminal 10) <|
    .last (.call (terse.terminal 11) (terse.terminal 12) (.list (.last
      (.atom (.int (terse.terminal 13))) (terse.terminal 14))))
  stop := terse.terminal 15

/-- The derivation of the last text. -/
def formalDerivation : Grammar.Program where
  block := .list <|
    .more (.assign (formal.terminal 0) (formal.terminal 1) <|
      .function (formal.terminal 2) (.list (.last (formal.terminal 3) (formal.terminal 4)))
        (formal.terminal 5)
        (.list (.ended (.call (formal.terminal 6) (formal.terminal 7) (.list
          (.more (.atom (.name (formal.terminal 8))) (formal.terminal 9)
            (.last (.atom (.int (formal.terminal 10))) (formal.terminal 11)))))
          (formal.terminal 12)))
        (formal.terminal 13)) (formal.terminal 14) <|
    .ended (.call (formal.terminal 15) (formal.terminal 16) (.list (.last
      (.atom (.int (formal.terminal 17))) (formal.terminal 18)))) (formal.terminal 19)
  stop := formal.terminal 20

theorem terse_alike_formal : terseDerivation.Alike formalDerivation := by
  have h : ∀ p ∈ [(0, 0), (3, 3), (6, 8), (7, 6), (8, 10), (11, 15), (13, 17)],
      (terse.tokens.getD p.1 default).text = (formal.tokens.getD p.2 default).text := by
    decide +kernel
  exact .list (.more (.assign (h (0, 0) (by simp)) (.function (.list (.last (h (3, 3) (by simp))))
    (.list (.added (.prefixed (.name (h (6, 8) (by simp))) (h (7, 6) (by simp))
      (.atom (.int (h (8, 10) (by simp))))))))) (.added (.call (h (11, 15) (by simp))
      (.list (.last (.atom (.int (h (13, 17) (by simp)))))))))

theorem terse_agrees : terse.tokens.map Lexeme.key = spaced.tokens.map Lexeme.key ∧
    (∃ es es', terse.parse = .ok es ∧ spaced.parse = .ok es' ∧
      ∀ o, (compile o es).Agrees (compile o es')) ∧
    ∃ es es', terse.parse = .ok es ∧ formal.parse = .ok es' ∧
      ∀ o, (compile o es).Agrees (compile o es') := by
  have hterse : terse.lexicalErrors = [] := by decide +kernel
  have hspaced : spaced.lexicalErrors = [] := by decide +kernel
  have hformal : formal.lexicalErrors = [] := by decide +kernel
  have hkeys : terse.tokens.map Lexeme.key = spaced.tokens.map Lexeme.key := by decide +kernel
  have hd : terseDerivation.yield = terse.tokens := by decide +kernel
  have hd' : formalDerivation.yield = formal.tokens := by decide +kernel
  have hparse := (parse_eq_ok_iff hterse _).2 ⟨terseDerivation, hd, rfl⟩
  have hparse' := (parse_eq_ok_iff hformal _).2 ⟨formalDerivation, hd', rfl⟩
  refine ⟨hkeys, ?_, terseDerivation.trees, formalDerivation.trees, hparse, hparse',
    (layout_notation_irrelevant terse formal).2 _ _ hparse hparse' _ _ hd hd' terse_alike_formal⟩
  rcases (layout_notation_irrelevant terse spaced).1 hterse hspaced hkeys with h | h
  · obtain ⟨e, -, he, -⟩ := h
    rw [hparse] at he
    cases he
  · exact h

end Source

end Wordlang
